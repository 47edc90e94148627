import Mathlib.Algebra.GroupWithZero.Nat
import Mathlib.Data.List.Basic
import Mathlib.Logic.Function.Basic

/-!
# Ring buffers with counters that run freely

Item number `k` of a sequence goes to slot `k % N` of a ring.  `Ring.Holds slot items taken` says that
of the items so far the first `taken` have been consumed, that there are at most `N` others, and
that each of these is in its slot.  What is in the other slots does not matter.

The producer and the consumer count items in machine words, which wrap (`slot_of_word`,
`word_eq_iff`).
-/

namespace Ring

universe u

variable {α : Type u} {N : Nat}

/-- The items from number `taken` on are in their slots, and there are at most `N` of them. -/
structure Holds [NeZero N] (slot : Fin N → α) (items : List α) (taken : Nat) : Prop where
  le : taken ≤ items.length
  room : items.length ≤ taken + N
  get : ∀ k (hk : k < items.length), taken ≤ k → slot (Fin.ofNat N k) = items[k]

section Holds

variable [NeZero N] {slot : Fin N → α} {items : List α} {taken : Nat}

theorem Holds.nil (slot : Fin N → α) : Holds slot [] 0 where
  le := Nat.le_refl 0
  room := Nat.zero_le _
  get k hk := absurd hk (Nat.not_lt_zero k)

theorem ofNat_ne {j k : Nat} (hjk : j < k) (hk : k < j + N) : Fin.ofNat N j ≠ Fin.ofNat N k := by
  intro heq
  have hmod : k % N = j % N := (congrArg Fin.val heq).symm
  have hdvd : N ∣ k - j := Nat.dvd_of_mod_eq_zero (Nat.sub_mod_eq_zero_of_mod_eq hmod)
  have := Nat.le_of_dvd (by omega) hdvd
  omega

theorem Holds.write (h : Holds slot items taken) (hroom : items.length < taken + N) (a : α) :
    Holds (Function.update slot (Fin.ofNat N items.length) a) items taken where
  le := h.le
  room := h.room
  get k hk hle := by
    rw [Function.update_of_ne (ofNat_ne hk (by omega)), h.get k hk hle]

theorem Holds.push (h : Holds slot items taken) (hroom : items.length < taken + N) (a : α) :
    Holds (Function.update slot (Fin.ofNat N items.length) a) (items ++ [a]) taken where
  le := by
    have := h.le
    rw [List.length_append]
    omega
  room := by
    rw [List.length_append, List.length_singleton]
    omega
  get k hk hle := by
    rw [List.length_append, List.length_singleton] at hk
    rcases Nat.lt_succ_iff_lt_or_eq.mp hk with hlt | rfl
    · rw [(h.write hroom a).get k hlt hle, List.getElem_append_left hlt]
    · rw [Function.update_self, List.getElem_concat_length rfl]

theorem Holds.unpush {a : α} (h : Holds slot (items ++ [a]) taken) (hle : taken ≤ items.length) :
    Holds slot items taken where
  le := hle
  room := by
    have := h.room
    rw [List.length_append] at this
    omega
  get k hk hle := by
    rw [h.get k (by rw [List.length_append]; omega) hle, List.getElem_append_left hk]

theorem Holds.pop (h : Holds slot items taken) (hlt : taken < items.length) :
    Holds slot items (taken + 1) where
  le := hlt
  room := by
    have := h.room
    omega
  get k hk hle := h.get k hk (by omega)

theorem Holds.head (h : Holds slot items taken) (hlt : taken < items.length) :
    slot (Fin.ofNat N taken) = items[taken] := h.get taken hlt (Nat.le_refl _)

end Holds

/-! ## Counters -/

theorem word_eq_iff {w a b : Nat} (hab : a ≤ b) (hb : b ≤ a + N) (hN : N < 2 ^ w) :
    a % 2 ^ w = b % 2 ^ w ↔ a = b := by
  refine ⟨fun h => ?_, fun h => by rw [h]⟩
  have hdvd : 2 ^ w ∣ b - a := Nat.dvd_of_mod_eq_zero (Nat.sub_mod_eq_zero_of_mod_eq h.symm)
  rcases Nat.eq_zero_or_pos (b - a) with h0 | hpos
  · omega
  · have := Nat.le_of_dvd hpos hdvd
    omega

theorem slot_of_word [NeZero N] {w : Nat} (hN : N ∣ 2 ^ w) (k : Nat) :
    Fin.ofNat N (k % 2 ^ w) = Fin.ofNat N k :=
  Fin.ext (Nat.mod_mod_of_dvd k hN)

theorem ofNat_eq_iff {a b : Nat} (hN : N < 2 ^ 32) (hab : a ≤ b) (hb : b ≤ a + N) :
    UInt32.ofNat a = UInt32.ofNat b ↔ a = b := by
  rw [← UInt32.toNat_inj, UInt32.toNat_ofNat', UInt32.toNat_ofNat']
  exact word_eq_iff hab hb hN

theorem slot_ofNat [NeZero N] (hN : N ∣ 2 ^ 32) (k : Nat) :
    Fin.ofNat N (UInt32.ofNat k).toNat = Fin.ofNat N k := by
  rw [UInt32.toNat_ofNat']
  exact slot_of_word hN k

theorem ofNat_concat (items : List α) (a : α) :
    UInt32.ofNat (items ++ [a]).length = UInt32.ofNat items.length + 1 := by
  rw [List.length_append, List.length_singleton, UInt32.ofNat_add]
  rfl

theorem sub_toNat {a b : Nat} (hN : N < 2 ^ 32) (hab : a ≤ b) (hb : b ≤ a + N) :
    (UInt32.ofNat b - UInt32.ofNat a).toNat = b - a := by
  rw [← UInt32.ofNat_sub hab, UInt32.toNat_ofNat']
  exact Nat.mod_eq_of_lt (by omega)

end Ring
