import Mathlib.Logic.Function.Basic

/-!
# Locks and the points at which they are held

Many processes share a state under one lock.  Each is at some point `pc p` of its program, and at
the points that satisfy `holds` it has the lock.  `Held` says that the lock and the points agree.
What a process knows about the shared state while it has the lock is a property of its point,
and has to be shown only of the process that moves (`Held.forall_update`).
-/

open Function (update update_of_ne update_self)

namespace Lock

universe u v

variable {P : Type u} {Q : Type v} {holds : Q → Bool} {lock : Option P} {pc : P → Q} {p q : P} {k : Q}

/-- The points of the processes tell who has the lock. -/
def Held (holds : Q → Bool) (lock : Option P) (pc : P → Q) : Prop :=
  ∀ p, holds (pc p) = true ↔ lock = some p

theorem Held.of_none (h : ∀ p, holds (pc p) = false) : Held holds none pc := fun p => by simp [h p]

theorem Held.not_holds (h : Held holds lock pc) (hp : lock = some p) (hq : q ≠ p) :
    holds (pc q) = false := by
  refine eq_false_of_ne_true fun hholds => hq ?_
  rw [h q, hp, Option.some_inj] at hholds
  exact hholds.symm

theorem Held.free (h : Held holds none pc) (q : P) : holds (pc q) = false :=
  eq_false_of_ne_true fun hholds => absurd ((h q).mp hholds) (by simp)

variable [DecidableEq P]

theorem Held.keep (h : Held holds lock pc) (hp : lock = some p) (hk : holds k = true) :
    Held holds lock (update pc p k) := by
  intro q
  by_cases hq : q = p
  · rw [hq, update_self, hk]
    simp [hp]
  · rw [update_of_ne hq]
    exact h q

theorem Held.drop (h : Held holds lock pc) (hp : lock = some p) (hk : holds k = false) :
    Held holds none (update pc p k) := by
  refine .of_none fun q => ?_
  by_cases hq : q = p
  · rw [hq, update_self, hk]
  · rw [update_of_ne hq, h.not_holds hp hq]

theorem Held.take (h : Held holds none pc) (hk : holds k = true) :
    Held holds (some p) (update pc p k) := by
  intro q
  by_cases hq : q = p
  · rw [hq, update_self, hk]
    simp
  · rw [update_of_ne hq, h.free q]
    simp [Ne.symm hq]

theorem Held.outside (h : Held holds lock pc) (hp : holds (pc p) = false) (hk : holds k = false) :
    Held holds lock (update pc p k) := by
  intro q
  by_cases hq : q = p
  · rw [hq, update_self, hk, ← hp]
    exact h p
  · rw [update_of_ne hq]
    exact h q

/-- What is said only of the process that has the lock needs to be shown only of it. -/
theorem Held.forall_update {K : Q → Prop} (h : Held holds lock pc) (hp : lock = some p)
    (hfree : ∀ k, holds k = false → K k) (hk : K k) (q : P) : K (update pc p k q) := by
  by_cases hq : q = p
  · rw [hq, update_self]
    exact hk
  · rw [update_of_ne hq]
    exact hfree _ (h.not_holds hp hq)

theorem forall_update {K : Q → Prop} (h : ∀ q, K (pc q)) (hk : K k) (q : P) :
    K (update pc p k q) := by
  by_cases hq : q = p
  · rw [hq, update_self]
    exact hk
  · rw [update_of_ne hq]
    exact h q

/-! ## What one process has to itself -/

section Exclusive

variable {X : Type*} {uses : Q → X → Prop} {x : X}

def Exclusive (uses : Q → X → Prop) (pc : P → Q) : Prop :=
  ∀ p q x, uses (pc p) x → uses (pc q) x → p = q

omit [DecidableEq P] in
theorem Exclusive.not_uses (h : Exclusive uses pc) (hp : uses (pc p) x) (hq : q ≠ p) :
    ¬uses (pc q) x := fun hx => hq (h q p x hx hp)

theorem Exclusive.update (h : Exclusive uses pc)
    (hk : ∀ x, uses k x → uses (pc p) x ∨ ∀ q, ¬uses (pc q) x) :
    Exclusive uses (update pc p k) := by
  intro q q' x hq hq'
  by_cases hqp : q = p <;> by_cases hqp' : q' = p
  · rw [hqp, hqp']
  · rw [hqp, update_self] at hq
    rw [update_of_ne hqp'] at hq'
    exact (hk x hq).elim (fun hp => hqp.trans (h p q' x hp hq')) fun hno => absurd hq' (hno q')
  · rw [hqp', update_self] at hq'
    rw [update_of_ne hqp] at hq
    exact (hk x hq').elim (fun hp => (h q p x hq hp).trans hqp'.symm) fun hno => absurd hq (hno q)
  · rw [update_of_ne hqp] at hq
    rw [update_of_ne hqp'] at hq'
    exact h q q' x hq hq'

end Exclusive

end Lock
