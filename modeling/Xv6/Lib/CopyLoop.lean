import Mathlib.Algebra.Group.Nat.Defs
import Mathlib.Logic.Function.Basic

/-!
# Copies within a memory

A memory has a cell for every address of `w` bits, and addresses wrap around.  `up` and `down` copy
`n` cells one at a time, the first one first or the last one first, and may read a cell that they have
written.  `moved` is the copy made at once.

Which loop computes it depends on the distance between the two places only, taken around the address
space (`up_eq_moved`, `down_eq_moved`).
-/

namespace CopyLoop

open Function (update update_self update_of_ne)
open BitVec (ofNat)

variable {w n i : Nat} {β : Type*} {mem : BitVec w → β} {d s a : BitVec w}

/-- The memory when the `n` cells from `s` on have been copied to `d` at once. -/
def moved (mem : BitVec w → β) (d s : BitVec w) (n : Nat) : BitVec w → β := fun a =>
  if (a - d).toNat < n then mem (s + (a - d)) else mem a

/-- `while(n-- > 0) *d++ = *s++;` -/
def up (mem : BitVec w → β) (d s : BitVec w) : Nat → BitVec w → β
  | 0 => mem
  | n + 1 => up (update mem d (mem s)) (d + 1#w) (s + 1#w) n

/-- `while(n-- > 0) *--d = *--s;` -/
def down (mem : BitVec w → β) (d s : BitVec w) : Nat → BitVec w → β
  | 0 => mem
  | n + 1 => down (update mem (d - 1#w) (mem (s - 1#w))) (d - 1#w) (s - 1#w) n

theorem moved_add (hi : i < n) (hn : n ≤ 2 ^ w) :
    moved mem d s n (d + ofNat w i) = mem (s + ofNat w i) := by
  have hsub : d + ofNat w i - d = ofNat w i := by
    rw [BitVec.add_comm, BitVec.add_sub_cancel]
  have hlt : (ofNat w i).toNat < n := by
    rwa [BitVec.toNat_ofNat, Nat.mod_eq_of_lt (Nat.lt_of_lt_of_le hi hn)]
  rw [moved, hsub, if_pos hlt]

theorem moved_of_le (h : n ≤ (a - d).toNat) : moved mem d s n a = mem a := if_neg (Nat.not_lt.mpr h)

theorem toNat_sub_one {k : BitVec w} (hk : k ≠ 0#w) : (k - 1#w).toNat + 1 = k.toNat := by
  have hpos : k.toNat ≠ 0 := fun h => hk (BitVec.eq_of_toNat_eq (by simpa using h))
  have hlt := k.isLt
  have hone : (1#w).toNat = 1 := by
    rw [BitVec.toNat_ofNat]
    exact Nat.mod_eq_of_lt (by omega)
  rw [BitVec.toNat_sub_of_le (BitVec.le_def.mpr (by omega)), hone]
  omega

theorem moved_update_first (hn : n < 2 ^ w) (h : d = s ∨ n < (d - s).toNat) :
    moved (update mem d (mem s)) (d + 1#w) (s + 1#w) n = moved mem d s (n + 1) := by
  funext a
  obtain ⟨k, rfl⟩ : ∃ k, a = d + k := ⟨a - d, by grind⟩
  have hk : d + k - d = k := by grind
  have hk' : d + k - (d + 1#w) = k - 1#w := by grind
  have hread : s + 1#w + (k - 1#w) = s + k := by grind
  simp only [moved, hk, hk', hread]
  by_cases hzero : k = 0#w
  · subst hzero
    have hlast : n ≤ (0#w - 1#w).toNat := by
      rw [BitVec.zero_sub, BitVec.neg_one_eq_allOnes, BitVec.toNat_allOnes]
      omega
    rw [if_neg (by omega), if_pos (by simp), BitVec.add_zero, BitVec.add_zero, update_self]
  · have hpred := toNat_sub_one hzero
    have hcell : d + k ≠ d := fun heq => hzero (by grind)
    -- the cell that was written is not read by the other rounds
    have hne : k.toNat < n + 1 → s + k ≠ d := by
      rintro hlt rfl
      rw [show s + k - s = k by grind] at h
      rcases h with h | h
      · exact hzero (by grind)
      · omega
    by_cases hlt : k.toNat < n + 1
    · rw [if_pos (by omega), if_pos hlt, update_of_ne (hne hlt)]
    · rw [if_neg (by omega), if_neg hlt, update_of_ne hcell]

theorem moved_update_last (hn : n < 2 ^ w) (h : d = s ∨ n < (s - d).toNat) :
    moved (update mem (d + ofNat w n) (mem (s + ofNat w n))) d s n =
      moved mem d s (n + 1) := by
  funext a
  obtain ⟨k, rfl⟩ : ∃ k, a = d + k := ⟨a - d, by grind⟩
  have hk : d + k - d = k := by grind
  have hlast : (ofNat w n).toNat = n := Nat.mod_eq_of_lt hn
  simp only [moved, hk]
  by_cases heq : k = ofNat w n
  · rw [heq, hlast, if_neg (by omega), if_pos (by omega), update_self]
  · have hcell : d + k ≠ d + ofNat w n := fun h => heq (by grind)
    have hval : k.toNat ≠ n := fun h => heq (BitVec.eq_of_toNat_eq (h.trans hlast.symm))
    have hne : k.toNat < n → s + k ≠ d + ofNat w n := by
      intro hlt hsame
      have hdist : s - d = ofNat w n - k := by grind
      rcases h with rfl | h
      · exact hcell hsame
      · rw [hdist, BitVec.toNat_sub_of_le (BitVec.le_def.mpr (by omega))] at h
        omega
    by_cases hlt : k.toNat < n
    · rw [if_pos hlt, if_pos (by omega), update_of_ne (hne hlt)]
    · rw [if_neg hlt, if_neg (by omega), update_of_ne hcell]

theorem up_eq_moved (hn : n ≤ 2 ^ w) (h : d = s ∨ n ≤ (d - s).toNat) :
    up mem d s n = moved mem d s n := by
  induction n generalizing mem d s with
  | zero => rfl
  | succ n ih =>
    have hdist : d + 1#w - (s + 1#w) = d - s := by grind
    rw [up, ih (by omega) (by rw [hdist]; grind), moved_update_first hn h]

theorem down_eq_moved (hn : n ≤ 2 ^ w) (h : d = s ∨ n ≤ (s - d).toNat) :
    down mem (d + ofNat w n) (s + ofNat w n) n = moved mem d s n := by
  induction n generalizing mem with
  | zero => rfl
  | succ n ih =>
    have hpred : ∀ x : BitVec w, x + ofNat w (n + 1) - 1#w = x + ofNat w n := by
      intro x
      rw [BitVec.ofNat_add]
      grind
    rw [down, hpred, hpred, ih (by omega) (h.imp_right fun h => by omega), moved_update_last hn h]

end CopyLoop
