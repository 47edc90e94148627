import Xv6.Fs.Sound
import Mathlib.Order.Interval.Finset.Nat

/-!
# Enough room on the disk

Writing the bytes of a file from `lo` up to `hi` needs a block at each of the places `need lo hi`.  The
state has `Enough` room for it if as many blocks are free as are missing there.  A `writei` takes a
free block only to fill such a place, so it keeps the account (`Written.enough`).
-/

namespace Xv6.Fs

open Prog

attribute [local irreducible] wp

/-- The places that must have a block for the bytes from `lo` up to `hi`. -/
def need (lo hi : Nat) : Finset Place :=
  if lo < hi then
    (Finset.Icc (lo / bsize) ((hi - 1) / bsize)).image Place.data ∪
      if ndirect ≤ (hi - 1) / bsize then {.indirect} else ∅
  else ∅

theorem Place.under_data {bn : Nat} {q : Place} :
    (Place.data bn).Under q ↔ q = .data bn ∨ q = .indirect ∧ ndirect ≤ bn := by
  rw [Place.Under]
  refine or_congr Iff.rfl (and_congr_right fun _ => ?_)
  rw [Place.data]
  split
  · rename_i h
    exact iff_of_false (by simp) (Nat.not_le.mpr h)
  · rename_i h
    exact iff_of_true ⟨_, rfl⟩ (Nat.le_of_not_lt h)

theorem mem_need {lo hi : Nat} {q : Place} :
    q ∈ need lo hi ↔ ∃ k, lo ≤ k ∧ k < hi ∧ (Place.data (k / bsize)).Under q := by
  rw [need]
  split
  · rename_i hlt
    simp only [Finset.mem_union, Finset.mem_image, Finset.mem_Icc, Place.under_data]
    constructor
    · rintro (⟨bn, ⟨hlo, hhi⟩, rfl⟩ | hq)
      · have hk : max lo (bn * bsize) / bsize = bn := by
          simp only [bsize] at *
          omega
        refine ⟨max lo (bn * bsize), by omega, ?_, .inl (by rw [hk])⟩
        simp only [bsize] at *
        omega
      · split at hq
        · exact ⟨hi - 1, by omega, by omega, .inr ⟨by simpa using hq, ‹_›⟩⟩
        · exact absurd hq (by simp)
    · rintro ⟨k, hlo, hhi, rfl | ⟨rfl, hk⟩⟩
      · exact .inl ⟨k / bsize, ⟨Nat.div_le_div_right hlo, Nat.div_le_div_right (by omega)⟩, rfl⟩
      · have hle : k / bsize ≤ (hi - 1) / bsize := Nat.div_le_div_right (by omega)
        rw [if_pos (Nat.le_trans hk hle)]
        exact .inr (by simp)
  · refine iff_of_false (by simp) ?_
    rintro ⟨k, hlo, hhi, -⟩
    omega

namespace Vol

def spare (L : Layout) (s : Vol) : Nat :=
  ((Finset.range L.size).filter fun b => ¬L.bit s.block b = true).card

/-- How many blocks must be allocated to write the bytes of file `i` from `lo` up to `hi`. -/
def missing (L : Layout) (s : Vol) (i lo hi : Nat) : Nat :=
  ((need lo hi).filter fun p => s.addrOf L (i, p) = 0).card

def Enough (L : Layout) (s : Vol) (i lo hi : Nat) : Prop := s.missing L i lo hi ≤ s.spare L

instance (L : Layout) (s : Vol) (i lo hi : Nat) : Decidable (s.Enough L i lo hi) :=
  inferInstanceAs (Decidable (_ ≤ _))

section Enough

variable {L : Layout} {s t : Vol} {i lo mid hi top : Nat} {f : Nat → UInt8}

theorem Enough.mono (h : s.Enough L i lo hi) (hle : lo ≤ mid) : s.Enough L i mid hi := by
  refine Nat.le_trans (Finset.card_le_card (Finset.filter_subset_filter _ fun q hq => ?_)) h
  obtain ⟨k, hk, hk', hq⟩ := mem_need.mp hq
  exact mem_need.mpr ⟨k, by omega, hk', hq⟩

theorem addrOf_of_under {p q : Place} (hpq : p.Under q) (h0 : t.addrOf L (i, p) ≠ 0) :
    t.addrOf L (i, q) ≠ 0 := by
  rcases hpq with rfl | ⟨rfl, j, rfl⟩
  · exact h0
  · have hin : i < L.ninodes ∧ (L.dinode t.block i).type ≠ 0 := by
      by_contra hn
      exact h0 (if_neg hn)
    rw [addrOf, refs_indirect hin.1 hin.2]
    intro hz
    rw [addrOf, refs_of_type hin.1 hin.2, Dinode.at, if_pos hz] at h0
    exact h0 rfl

/-- **A `writei` takes a free block only where one is missing.** -/
theorem Written.account {hi' : Nat} (h : Sound L s) (ht : Sound L t)
    (hw : Written L i lo mid hi' top f s t) (htop : top ≤ hi) :
    s.missing L i lo hi + t.spare L = t.missing L i lo hi + s.spare L := by
  -- the places that have been filled
  obtain ⟨new, hnew⟩ : ∃ new, new = ((need lo hi).filter fun p => s.addrOf L (i, p) = 0).filter
    fun p => ¬t.addrOf L (i, p) = 0 := ⟨_, rfl⟩
  have hmissing : s.missing L i lo hi = t.missing L i lo hi + new.card := by
    rw [missing, ← Finset.card_filter_add_card_filter_not (s := (need lo hi).filter _)
      (fun p => t.addrOf L (i, p) = 0), ← hnew, missing, Finset.filter_filter]
    congr 2
    refine Finset.filter_congr fun p _ => ⟨fun hp => hp.2, fun hp => ⟨?_, hp⟩⟩
    by_contra h0
    exact h0 ((hw.keep p h0).symm.trans hp)
  have hspare : s.spare L = t.spare L + new.card := by
    have hcard : (new.image fun p => (i, p)).card = new.card :=
      Finset.card_image_of_injective new fun p q hpq => (Prod.mk.inj hpq).2
    rw [spare, spare, ← hcard]
    refine Pool.Exact.card_unused h.own ht.own (fun q h0 => ?_) fun q => ?_
    · obtain ⟨j, p⟩ := q
      by_cases hj : j = i
      · subst hj
        exact hw.keep p h0
      · exact hw.other j hj p
    · obtain ⟨j, p⟩ := q
      simp only [hnew, Finset.mem_image, Finset.mem_filter, Prod.mk.injEq]
      constructor
      · rintro ⟨p', ⟨⟨-, hs0⟩, ht0⟩, rfl, rfl⟩
        exact ⟨hs0, ht0⟩
      · rintro ⟨hs0, ht0⟩
        have hj : j = i := by
          by_contra hj
          exact ht0 ((hw.other j hj p).trans hs0)
        subst hj
        obtain ⟨k, hk, hk', hq⟩ := hw.fresh p hs0 ht0
        exact ⟨p, ⟨⟨mem_need.mpr ⟨k, hk, by omega, hq⟩, hs0⟩, ht0⟩, rfl, rfl⟩
  omega

theorem Written.enough {hi' : Nat} (h : Sound L s) (ht : Sound L t)
    (hw : Written L i lo mid hi' top f s t) (htop : top ≤ hi) (hs : s.Enough L i lo hi) :
    t.Enough L i lo hi := by
  have hle : s.missing L i lo hi ≤ s.spare L := hs
  have := hw.account h ht htop
  change t.missing L i lo hi ≤ t.spare L
  omega

theorem Written.had_enough {hi' : Nat} (h : Sound L s) (ht : Sound L t)
    (hw : Written L i lo hi hi' top f s t) (htop : top ≤ hi) : s.Enough L i lo hi := by
  have hnone : t.missing L i lo hi = 0 := by
    rw [missing, Finset.card_eq_zero, Finset.filter_eq_empty_iff]
    intro q hq
    obtain ⟨k, hk, hk', hunder⟩ := mem_need.mp hq
    exact addrOf_of_under hunder (hw.inside k hk hk').1
  have := hw.account h ht htop
  change s.missing L i lo hi ≤ s.spare L
  omega

theorem Enough.not_full (h : s.Enough L i lo hi) {k : Nat} (hk : lo ≤ k) (hk' : k < hi)
    (h0 : s.addrOf L (i, .data (k / bsize)) = 0) : ¬∀ b < L.size, L.bit s.block b = true := by
  intro hfull
  have hspare : s.spare L = 0 := by
    rw [spare, Finset.card_eq_zero, Finset.filter_eq_empty_iff]
    intro b hb
    simpa using hfull b (Finset.mem_range.mp hb)
  have hmissing : 0 < s.missing L i lo hi :=
    Finset.card_pos.mpr ⟨_, Finset.mem_filter.mpr ⟨mem_need.mpr ⟨k, hk, hk', .inl rfl⟩, h0⟩⟩
  have hle : s.missing L i lo hi ≤ s.spare L := h
  omega

end Enough

end Vol

end Xv6.Fs
