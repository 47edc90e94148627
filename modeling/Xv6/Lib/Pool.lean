import Mathlib.Data.Finset.Card
import Mathlib.Data.List.Nodup
import Mathlib.Logic.Function.Basic

/-!
# Exact accounts of a pool of cells

A pool hands out cells, which are numbered, and marks those that are taken.  The users of a pool keep
the numbers of their cells at places `p : P`; `addr p` is the number kept at a place, zero if it
keeps none.  Cells outside the pool, the cell zero among them, are `fixed`.
A cell moves in four steps: `take` and `attach` on the way out, `detach` and `release` on the way back.
-/

namespace Pool

open Function (update update_of_ne update_self)

universe u

variable {P : Type u}

/-- No cell is kept twice, and the marks are right. -/
structure Exact (size : Nat) (fixed : Nat → Prop) (addr : P → Nat) (used : Nat → Prop)
    (loose : List Nat) : Prop where
  zero : fixed 0
  inj : ∀ p q, addr p = addr q → addr p ≠ 0 → p = q
  range : ∀ p, addr p ≠ 0 → addr p < size ∧ ¬fixed (addr p) ∧ addr p ∉ loose
  nodup : loose.Nodup
  loose_range : ∀ b ∈ loose, b < size ∧ ¬fixed b
  used_iff : ∀ b < size, used b ↔ fixed b ∨ b ∈ loose ∨ ∃ p, addr p = b

namespace Exact

variable {size b : Nat} {fixed used used' : Nat → Prop} {addr addr' : P → Nat} {p : P}
  {loose l : List Nat}

section

variable (h : Exact size fixed addr used loose)
include h

theorem used_of_addr (hp : addr p ≠ 0) : used (addr p) :=
  (h.used_iff _ (h.range p hp).1).mpr (.inr (.inr ⟨p, rfl⟩))

theorem used_of_loose (hb : b ∈ loose) : used b :=
  (h.used_iff b (h.loose_range b hb).1).mpr (.inr (.inl hb))

theorem ne_zero_of_loose (hb : b ∈ loose) : b ≠ 0 := by
  rintro rfl
  exact (h.loose_range 0 hb).2 h.zero

theorem fresh (hb : b < size) (hfree : ¬used b) : ¬fixed b ∧ b ∉ loose ∧ ∀ p, addr p ≠ b := by
  rw [h.used_iff b hb] at hfree
  exact ⟨fun hf => hfree (.inl hf), fun hl => hfree (.inr (.inl hl)),
    fun p hp => hfree (.inr (.inr ⟨p, hp⟩))⟩

theorem take (hb : b < size) (hfree : ¬used b)
    (hu : ∀ c < size, used' c ↔ c = b ∨ used c) : Exact size fixed addr used' (b :: loose) := by
  obtain ⟨hfix, hloose, haddr⟩ := h.fresh hb hfree
  refine ⟨h.zero, h.inj, fun p hp => ?_, List.nodup_cons.mpr ⟨hloose, h.nodup⟩, fun c hc => ?_,
    fun c hc => ?_⟩
  · obtain ⟨hlt, hf, hl⟩ := h.range p hp
    exact ⟨hlt, hf, List.not_mem_cons_of_ne_of_not_mem (haddr p) hl⟩
  · rcases List.mem_cons.mp hc with rfl | hc
    · exact ⟨hb, hfix⟩
    · exact h.loose_range c hc
  · rw [hu c hc, h.used_iff c hc, List.mem_cons]
    tauto

theorem release (hb : b ∈ loose) (hu : ∀ c < size, used' c ↔ c ≠ b ∧ used c) :
    Exact size fixed addr used' (loose.erase b) := by
  refine ⟨h.zero, h.inj, fun p hp => ?_, h.nodup.erase b, fun c hc => ?_, fun c hc => ?_⟩
  · obtain ⟨hlt, hf, hl⟩ := h.range p hp
    exact ⟨hlt, hf, fun hmem => hl (List.mem_of_mem_erase hmem)⟩
  · exact h.loose_range c (List.mem_of_mem_erase hc)
  · rw [hu c hc, h.used_iff c hc, h.nodup.mem_erase_iff]
    constructor
    · rintro ⟨hne, hf | hl | hp⟩
      · exact .inl hf
      · exact .inr (.inl ⟨hne, hl⟩)
      · exact .inr (.inr hp)
    · rintro (hf | ⟨hne, hl⟩ | ⟨p, rfl⟩)
      · refine ⟨?_, .inl hf⟩
        rintro rfl
        exact (h.loose_range _ hb).2 hf
      · exact ⟨hne, .inr (.inl hl)⟩
      · refine ⟨?_, .inr (.inr ⟨p, rfl⟩)⟩
        rintro rfl
        exact (h.range p (h.ne_zero_of_loose hb)).2.2 hb

theorem attach [DecidableEq P] (hp : addr p = 0)
    (hb : b ∈ loose) : Exact size fixed (update addr p b) used (loose.erase b) := by
  have hkeep : ∀ q, addr q ≠ b := by
    intro q hq
    exact (h.range q (hq ▸ h.ne_zero_of_loose hb)).2.2 (hq ▸ hb)
  refine ⟨h.zero, fun q r hqr hq => ?_, fun q hq => ?_, h.nodup.erase b, fun c hc => ?_, fun c hc => ?_⟩
  · by_cases hqp : q = p
    · by_cases hrp : r = p
      · rw [hqp, hrp]
      · rw [hqp, update_self, update_of_ne hrp] at hqr
        exact absurd hqr.symm (hkeep r)
    · rw [update_of_ne hqp] at hqr hq
      by_cases hrp : r = p
      · rw [hrp, update_self] at hqr
        exact absurd hqr (hkeep q)
      · rw [update_of_ne hrp] at hqr
        exact h.inj q r hqr hq
  · by_cases hqp : q = p
    · subst hqp
      rw [update_self, h.nodup.mem_erase_iff]
      exact ⟨(h.loose_range b hb).1, (h.loose_range b hb).2, fun hmem => hmem.1 rfl⟩
    · rw [update_of_ne hqp] at hq ⊢
      obtain ⟨hlt, hf, hl⟩ := h.range q hq
      exact ⟨hlt, hf, fun hmem => hl (List.mem_of_mem_erase hmem)⟩
  · exact h.loose_range c (List.mem_of_mem_erase hc)
  · rw [h.used_iff c hc, h.nodup.mem_erase_iff]
    by_cases hcb : c = b
    · subst hcb
      refine iff_of_true (.inr (.inl hb)) (.inr (.inr ⟨p, update_self ..⟩))
    · have hplace : (∃ q, addr q = c) ↔ (c = 0 ∨ ∃ q, update addr p b q = c) := by
        constructor
        · rintro ⟨q, rfl⟩
          by_cases hqp : q = p
          · exact .inl (hqp ▸ hp)
          · exact .inr ⟨q, update_of_ne hqp ..⟩
        · rintro (rfl | ⟨q, hq⟩)
          · exact ⟨p, hp⟩
          · by_cases hqp : q = p
            · rw [hqp, update_self] at hq
              exact absurd hq.symm hcb
            · rw [update_of_ne hqp] at hq
              exact ⟨q, hq⟩
      rw [hplace]
      constructor
      · rintro (hf | hl | rfl | hq)
        · exact .inl hf
        · exact .inr (.inl ⟨hcb, hl⟩)
        · exact .inl h.zero
        · exact .inr (.inr hq)
      · rintro (hf | ⟨-, hl⟩ | hq)
        · exact .inl hf
        · exact .inr (.inl hl)
        · exact .inr (.inr (.inr hq))

theorem detach (hle : ∀ p, addr' p = addr p ∨ addr' p = 0)
    (hl : l.Nodup) (hmem : ∀ b, b ∈ l ↔ b ≠ 0 ∧ ∃ p, addr p = b ∧ addr' p = 0) :
    Exact size fixed addr' used (l ++ loose) := by
  have hsame : ∀ p, addr' p ≠ 0 → addr' p = addr p := fun p hp => (hle p).resolve_right hp
  have hrange : ∀ c ∈ l, c < size ∧ ¬fixed c ∧ c ∉ loose := by
    intro c hc
    obtain ⟨h0, p, rfl, -⟩ := (hmem c).mp hc
    exact h.range p h0
  refine ⟨h.zero, fun p q hpq hp => ?_, fun p hp => ?_, ?_, fun c hc => ?_, fun c hc => ?_⟩
  · have hp' := hsame p hp
    have hq' := hsame q (hpq ▸ hp)
    rw [hp', hq'] at hpq
    exact h.inj p q hpq fun h0 => hp (hp'.trans h0)
  · have hp' := hsame p hp
    obtain ⟨hlt, hf, hnot⟩ := h.range p (hp' ▸ hp)
    rw [hp', List.mem_append]
    refine ⟨hlt, hf, not_or.mpr ⟨fun hin => ?_, hnot⟩⟩
    obtain ⟨h0, q, hq, hq0⟩ := (hmem _).mp hin
    obtain rfl := h.inj q p hq (hq ▸ h0)
    exact hp hq0
  · exact hl.append h.nodup fun c hc => (hrange c hc).2.2
  · rcases List.mem_append.mp hc with hc | hc
    · exact ⟨(hrange c hc).1, (hrange c hc).2.1⟩
    · exact h.loose_range c hc
  · rw [h.used_iff c hc, List.mem_append]
    constructor
    · rintro (hf | hin | ⟨p, rfl⟩)
      · exact .inl hf
      · exact .inr (.inl (.inr hin))
      · by_cases h0 : addr p = 0
        · exact .inl (h0 ▸ h.zero)
        · rcases hle p with hp | hp
          · exact .inr (.inr ⟨p, hp⟩)
          · exact .inr (.inl (.inl ((hmem _).mpr ⟨h0, p, rfl, hp⟩)))
    · rintro (hf | (hin | hin) | ⟨p, rfl⟩)
      · exact .inl hf
      · obtain ⟨-, p, hp, -⟩ := (hmem c).mp hin
        exact .inr (.inr ⟨p, hp⟩)
      · exact .inr (.inl hin)
      · rcases hle p with hp | hp
        · exact .inr (.inr ⟨p, hp.symm⟩)
        · exact .inl (hp ▸ h.zero)

theorem congr (hu : ∀ c < size, used' c ↔ used c) : Exact size fixed addr used' loose :=
  ⟨h.zero, h.inj, h.range, h.nodup, h.loose_range, fun b hb => (hu b hb).trans (h.used_iff b hb)⟩

end

/-- **Counting**: as many cells have been taken as places have been filled. -/
theorem card_unused [DecidablePred used] [DecidablePred used'] (h : Exact size fixed addr used [])
    (h' : Exact size fixed addr' used' []) (hkeep : ∀ p, addr p ≠ 0 → addr' p = addr p)
    {new : Finset P} (hnew : ∀ p, p ∈ new ↔ addr p = 0 ∧ addr' p ≠ 0) :
    ((Finset.range size).filter fun b => ¬used b).card =
      ((Finset.range size).filter fun b => ¬used' b).card + new.card := by
  have hinj : Set.InjOn addr' new := fun p hp q _ hpq => h'.inj p q hpq ((hnew p).mp hp).2
  have hunused : ((Finset.range size).filter fun b => ¬used b) =
      ((Finset.range size).filter fun b => ¬used' b) ∪ new.image addr' := by
    ext b
    simp only [Finset.mem_union, Finset.mem_filter, Finset.mem_range, Finset.mem_image]
    constructor
    · rintro ⟨hb, hfree⟩
      by_cases hb' : used' b
      · refine .inr ?_
        obtain ⟨hfix, -, haddr⟩ := h.fresh hb hfree
        rcases (h'.used_iff b hb).mp hb' with hf | hl | ⟨p, rfl⟩
        · exact absurd hf hfix
        · exact absurd hl (by simp)
        · have h0 : addr p = 0 := by
            by_contra h0
            exact haddr p (hkeep p h0).symm
          exact ⟨p, (hnew p).mpr ⟨h0, fun h0' => hfix (h0' ▸ h.zero)⟩, rfl⟩
      · exact .inl ⟨hb, hb'⟩
    · rintro (⟨hb, hfree⟩ | ⟨p, hp, rfl⟩)
      · refine ⟨hb, fun hu => hfree ?_⟩
        rw [h'.used_iff b hb]
        rcases (h.used_iff b hb).mp hu with hf | hl | ⟨p, rfl⟩
        · exact .inl hf
        · exact absurd hl (by simp)
        · by_cases h0 : addr p = 0
          · exact .inl (h0 ▸ h.zero)
          · exact .inr (.inr ⟨p, hkeep p h0⟩)
      · obtain ⟨h0, h0'⟩ := (hnew p).mp hp
        obtain ⟨hlt, hfix, -⟩ := h'.range p h0'
        refine ⟨hlt, fun hu => ?_⟩
        rcases (h.used_iff _ hlt).mp hu with hf | hl | ⟨q, hq⟩
        · exact hfix hf
        · exact absurd hl (by simp)
        · have hq0 : addr q ≠ 0 := hq ▸ h0'
          obtain rfl := h'.inj q p ((hkeep q hq0).trans hq) (hkeep q hq0 ▸ hq0)
          exact hq0 h0
  have hdisj : Disjoint ((Finset.range size).filter fun b => ¬used' b) (new.image addr') := by
    rw [Finset.disjoint_left]
    intro b hb hb'
    obtain ⟨p, hp, rfl⟩ := Finset.mem_image.mp hb'
    exact (Finset.mem_filter.mp hb).2 (h'.used_of_addr ((hnew p).mp hp).2)
  rw [hunused, Finset.card_union_of_disjoint hdisj, Finset.card_image_of_injOn hinj]

end Exact

end Pool
