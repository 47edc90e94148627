import Mathlib.Data.Finset.Card
import Mathlib.Data.Finset.Insert
import Mathlib.Data.Fintype.Card

/-!
# Counting the members of a family

`Counts Q f n` says that exactly `n` members of the family `f` satisfy `Q`.  The family may be
infinite.  It is how a counter is related to the processes it counts: when one member changes, the
count goes up by one (`join`), down by one (`leave`) or stays (`stay`); `change` is all of them.
-/

universe u v

/-- Exactly `n` members of the family satisfy `Q`. -/
def Counts {α : Type u} {β : Type v} (Q : β → Prop) (f : α → β) (n : Int) : Prop :=
  ∃ R : Finset α, (∀ a, a ∈ R ↔ Q (f a)) ∧ n = R.card

namespace Counts

open Function (update update_of_ne update_self)

variable {α : Type u} {β : Type v} {Q : β → Prop} {f g : α → β} {n m : Int} {a : α} {b : β}

theorem zero (h : ∀ a, ¬Q (f a)) : Counts Q f 0 := ⟨∅, by simpa using h, rfl⟩

theorem cast (h : Counts Q f n) (hn : n = m) : Counts Q f m := hn ▸ h

theorem nonneg (h : Counts Q f n) : 0 ≤ n := by
  obtain ⟨R, _, rfl⟩ := h
  omega

theorem pos (h : Counts Q f n) (ha : Q (f a)) : 1 ≤ n := by
  obtain ⟨R, hR, rfl⟩ := h
  have : 0 < R.card := Finset.card_pos.mpr ⟨a, (hR a).mpr ha⟩
  omega

theorem exists_of_pos (h : Counts Q f n) (hn : 0 < n) : ∃ a, Q (f a) := by
  obtain ⟨R, hR, rfl⟩ := h
  obtain ⟨a, ha⟩ := Finset.card_pos.mp (Int.natCast_pos.mp hn)
  exact ⟨a, (hR a).mp ha⟩

theorem not_of_zero (h : Counts Q f 0) (a : α) : ¬Q (f a) := by
  intro ha
  have := h.pos ha
  omega

theorem eq_zero (h : Counts Q f n) (hf : ∀ a, ¬Q (f a)) : n = 0 := by
  obtain ⟨R, hR, rfl⟩ := h
  rw [Finset.eq_empty_of_forall_notMem fun a ha => hf a ((hR a).mp ha)]
  rfl

theorem congr (h : Counts Q f n) (hfg : ∀ a, Q (g a) ↔ Q (f a)) : Counts Q g n := by
  obtain ⟨R, hR, hn⟩ := h
  exact ⟨R, fun a => by rw [hR, hfg], hn⟩

variable [DecidableEq α]

theorem join (h : Counts Q f n) (ha : ¬Q (f a)) (hb : Q b) :
    Counts Q (update f a b) (n + 1) := by
  obtain ⟨R, hR, rfl⟩ := h
  refine ⟨insert a R, fun c => ?_, ?_⟩
  · by_cases hc : c = a
    · simp [hc, hb]
    · simp [hc, hR]
  · rw [Finset.card_insert_of_notMem (by rwa [hR])]
    omega

theorem leave (h : Counts Q f n) (ha : Q (f a)) (hb : ¬Q b) :
    Counts Q (update f a b) (n - 1) := by
  obtain ⟨R, hR, rfl⟩ := h
  have hmem : a ∈ R := (hR a).mpr ha
  refine ⟨R.erase a, fun c => ?_, ?_⟩
  · by_cases hc : c = a
    · simp [hc, hb]
    · simp [hc, hR]
  · have hpos : 0 < R.card := Finset.card_pos.mpr ⟨a, hmem⟩
    rw [Finset.card_erase_of_mem hmem]
    omega

theorem stay (h : Counts Q f n) (hab : Q b ↔ Q (f a)) : Counts Q (update f a b) n := by
  refine h.congr fun c => ?_
  by_cases hc : c = a
  · rw [hc, update_self, hab]
  · rw [update_of_ne hc]

theorem change (h : Counts Q f n) (a : α) (b : β) [Decidable (Q (f a))] [Decidable (Q b)] :
    Counts Q (update f a b) (n - (if Q (f a) then 1 else 0) + if Q b then 1 else 0) := by
  by_cases ha : Q (f a) <;> by_cases hb : Q b
  · exact (h.stay (a := a) (by simp [ha, hb])).cast (by simp [ha, hb])
  · exact (h.leave ha hb).cast (by simp [ha, hb])
  · exact (h.join ha hb).cast (by simp [ha, hb])
  · exact (h.stay (a := a) (by simp [ha, hb])).cast (by simp [ha, hb])

omit [DecidableEq α] in
theorem eq_card (h : Counts Q f n) (S : Finset α) [DecidablePred fun a => Q (f a)]
    (hS : ∀ a, Q (f a) → a ∈ S) : n = (S.filter fun a => Q (f a)).card := by
  obtain ⟨T, hT, rfl⟩ := h
  congr 2
  ext a
  rw [hT, Finset.mem_filter]
  exact ⟨fun ha => ⟨hS a ha, ha⟩, fun ha => ha.2⟩

omit [DecidableEq α] in
theorem le_card [Fintype α] (h : Counts Q f n) : n ≤ Fintype.card α := by
  obtain ⟨R, -, rfl⟩ := h
  exact Int.ofNat_le.mpr R.card_le_univ

end Counts
