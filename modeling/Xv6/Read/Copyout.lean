import Xv6.Read.Calls

/-!
# What the loops of `read` store

`copyOut` stores up to the first address that is not mapped (`wp_copyOut`), so the history variable says
exactly what it does.  `Within s t lo hi` is what all loops have in common: bytes have been stored between
`lo` and `hi` only.
-/

namespace Xv6

namespace Read

open Heap Prog Vm

section Lift

variable {α : Type} {s : State} {Q : α → State → Prop} {E : Stop → State → Prop}

theorem wp_onRam (m : VM α) :
    wp (onRam m) Q E s ↔ wp m (fun a t => Q a { s with ram := t }) (fun e t => E e { s with ram := t })
      s.ram := by
  simp only [wp, onRam]
  cases m s.ram <;> rfl

theorem wp_onVol (m : Fs.V α) :
    wp (onVol m) Q E s ↔ wp m (fun a t => Q a { s with vol := t }) (fun e t => E e { s with vol := t })
      s.vol := by
  simp only [wp, onVol]
  cases m s.vol <;> rfl

end Lift

theorem wp_killedOrSleep {s : State} {Q : Bool → State → Prop} {E : Stop → State → Prop}
    (hblocked : E .blocked s) (hkilled : Q true s)
    (hwake : ∀ t, t.ram = s.ram → t.stored = s.stored → Q false t) :
    wp killedOrSleep Q E s := by
  rw [killedOrSleep, wp_bind, wp_get]
  cases s.wakes with
  | nil => exact hblocked
  | cons w wakes =>
    show wp (if _ then _ else _) Q E s
    rw [wp_ite]
    split
    · exact hkilled
    · exact hwake _ rfl rfl

section Reach

variable {page : Nat → Page} {root dst len : Nat}

theorem reach_le (page : Nat → Page) (root dst len : Nat) : reach page root dst len ≤ len := by
  induction len generalizing dst with
  | zero => exact le_rfl
  | succ len ih =>
    rw [reach]
    split
    · exact Nat.zero_le _
    · exact Nat.succ_le_succ (ih (dst + 1))

theorem reach_eq {k : Nat} (hk : k ≤ len) (hmapped : ∀ i < k, uaddr page root (dst + i) ≠ none)
    (hstop : k < len → uaddr page root (dst + k) = none) : reach page root dst len = k := by
  induction len generalizing dst k with
  | zero => rw [Nat.le_zero.mp hk, reach]
  | succ len ih =>
    rw [reach]
    cases k with
    | zero => exact if_pos (hstop (by omega))
    | succ k =>
      have hhere : uaddr page root dst ≠ none := hmapped 0 (by omega)
      rw [if_neg hhere, ih (k := k) (by omega)]
      · intro i hi
        rw [show dst + 1 + i = dst + (i + 1) by omega]
        exact hmapped (i + 1) (by omega)
      · intro hlt
        rw [show dst + 1 + k = dst + (k + 1) by omega]
        exact hstop (by omega)

theorem mapped_of_reach (h : 0 < reach page root dst len) : uaddr page root dst ≠ none := by
  cases len with
  | zero => exact absurd h (Nat.lt_irrefl 0)
  | succ len =>
    rw [reach] at h
    split at h
    · exact absurd h (Nat.lt_irrefl 0)
    · assumption

theorem reach_pos (h : uaddr page root dst ≠ none) (hlen : 0 < len) : 0 < reach page root dst len := by
  obtain ⟨len, rfl⟩ := Nat.exists_eq_succ_of_ne_zero hlen.ne'
  rw [reach, if_neg h]
  exact Nat.succ_pos _

end Reach

section Stores

variable {b : Boot} {s t u : State} {root n lo hi : Nat} {top : Nat → Nat} {E : Stop → State → Prop}

/-- **`copyOut` stores as far as the pages are mapped.** -/
theorem wp_copyOut {Q : Int → State → Prop} {dst len : Nat} {src : Nat → UInt8}
    (h : Space b s.ram root top n) (htop : Supervisor top)
    (hok : ∀ r t, Stored b s.ram t.ram root top n dst (reach s.ram.page root dst len) src →
      (r = -1 ∧ uaddr s.ram.page root (dst + reach s.ram.page root dst len) = none ∧
        reach s.ram.page root dst len < len ∨ r = 0 ∧ reach s.ram.page root dst len = len) →
      t.pipe = s.pipe →
      t.stored = s.stored ++ (List.range (reach s.ram.page root dst len)).map (dst + ·) → Q r t) :
    wp (copyOut root dst src len) Q E s := by
  rw [copyOut, wp_bind, wp_get, wp_bind, wp_onRam]
  refine wp_copyout h htop (fun ram k hk hmapped hstop hst => ?_) fun ram hmapped hst => ?_
  · have hreach := reach_eq hk.le hmapped fun _ => hstop
    rw [← hreach] at hst hstop hk
    exact hok (-1) _ hst (.inl ⟨rfl, hstop, hk⟩) rfl rfl
  · have hreach := reach_eq le_rfl hmapped fun hlt => absurd hlt (Nat.lt_irrefl _)
    rw [← hreach] at hst
    exact hok 0 _ hst (.inr ⟨rfl, hreach⟩) rfl rfl

/-- Bytes have been stored between `lo` and `hi` only. -/
structure Within (b : Boot) (s t : State) (root : Nat) (top : Nat → Nat) (n lo hi : Nat) : Prop where
  space : Space b t.ram root top n
  entry : entry t.ram.page root = entry s.ram.page root
  log : ∃ l, t.stored = s.stored ++ l ∧ ∀ a ∈ l, lo ≤ a ∧ a < hi
  same : ∀ va, va ∉ t.stored → ubyte t.ram root va = ubyte s.ram root va

namespace Within

theorem of_eq (h : Space b s.ram root top n) (hram : t.ram = s.ram) (hlog : t.stored = s.stored) (lo hi : Nat) :
    Within b s t root top n lo hi where
  space := by rwa [hram]
  entry := by rw [hram]
  log := ⟨[], by rw [hlog, List.append_nil], fun a ha => absurd ha (by simp)⟩
  same va _ := by rw [hram]

variable (h : Within b s t root top n lo hi)
include h

theorem trans (h' : Within b t u root top n lo hi) : Within b s u root top n lo hi where
  space := h'.space
  entry := h'.entry.trans h.entry
  log := by
    obtain ⟨l, hl, hin⟩ := h.log
    obtain ⟨l', hl', hin'⟩ := h'.log
    refine ⟨l ++ l', by rw [hl', hl, List.append_assoc], fun a ha => ?_⟩
    exact (List.mem_append.mp ha).elim (hin a) (hin' a)
  same va hva := by
    obtain ⟨l', hl', -⟩ := h'.log
    refine (h'.same va hva).trans (h.same va fun hmem => hva ?_)
    rw [hl']
    exact List.mem_append_left _ hmem

theorem mono {lo' hi' : Nat} (hlo : lo' ≤ lo) (hhi : hi ≤ hi') :
    Within b s t root top n lo' hi' where
  space := h.space
  entry := h.entry
  log := by
    obtain ⟨l, hl, hin⟩ := h.log
    exact ⟨l, hl, fun a ha => ⟨hlo.trans (hin a ha).1, (hin a ha).2.trans_le hhi⟩⟩
  same := h.same

theorem congr {t' : State} (hram : t'.ram = t.ram)
    (hlog : t'.stored = t.stored) : Within b s t' root top n lo hi :=
  h.trans (.of_eq h.space hram hlog lo hi)

end Within

theorem within_of_stored {dst k : Nat} {src : Nat → UInt8}
    (h : Stored b s.ram t.ram root top n dst k src) (hlo : lo ≤ dst) (hhi : dst + k ≤ hi)
    (hlog : t.stored = s.stored ++ (List.range k).map (dst + ·)) :
    Within b s t root top n lo hi where
  space := h.space
  entry := h.entry
  log := by
    refine ⟨_, hlog, fun a ha => ?_⟩
    obtain ⟨i, hi, rfl⟩ := List.mem_map.mp ha
    have hi := List.mem_range.mp hi
    omega
  same va hva := by
    rw [h.byte, if_neg]
    rintro ⟨hge, hlt⟩
    refine hva ?_
    rw [hlog]
    exact List.mem_append_right _ (List.mem_map.mpr ⟨va - dst, List.mem_range.mpr (by omega), by omega⟩)

end Stores

end Read

end Xv6
