import Mathlib.Order.Defs.Unbundled

/-!
# Programs that change a state and may stop

A sequential program is a computation in `EStateM ε σ`: it runs on a state of type `σ`, and it
either returns a value or stops with an error of type `ε`, keeping the state it had reached.

* `wp m Q E s` says that `m`, started in `s`, ends in `Q` if it returns and in `E` if it stops.  It
  is a total statement: `m` is a function, so it does end.
* The lemmas `wp_bind`, `wp_get`, … compute `wp` of a program from its parts; they are `simp`
  lemmas, so `simp only` with their names runs a program symbolically.
-/

namespace Prog

universe u

variable {ε σ α β : Type u} {Q Q' : α → σ → Prop} {E E' : ε → σ → Prop} {s : σ}

/-- `m` started in `s` ends in `Q` if it returns and in `E` if it stops. -/
def wp (m : EStateM ε σ α) (Q : α → σ → Prop) (E : ε → σ → Prop) (s : σ) : Prop :=
  match m s with
  | .ok a t => Q a t
  | .error e t => E e t

theorem wp_of_ok {m : EStateM ε σ α} {a : α} {t : σ} (h : m s = .ok a t) :
    wp m Q E s ↔ Q a t := by rw [wp, h]

theorem wp_of_error {m : EStateM ε σ α} {e : ε} {t : σ} (h : m s = .error e t) :
    wp m Q E s ↔ E e t := by rw [wp, h]

instance {m : EStateM ε σ α} [∀ a t, Decidable (Q a t)] [∀ e t, Decidable (E e t)] :
    Decidable (wp m Q E s) :=
  match h : m s with
  | .ok a t => decidable_of_iff (Q a t) (wp_of_ok h).symm
  | .error e t => decidable_of_iff (E e t) (wp_of_error h).symm

@[simp] theorem wp_pure (a : α) : wp (pure a : EStateM ε σ α) Q E s ↔ Q a s := Iff.rfl

@[simp] theorem wp_throw (e : ε) : wp (throw e : EStateM ε σ α) Q E s ↔ E e s := Iff.rfl

@[simp] theorem wp_get {Q : σ → σ → Prop} : wp (get : EStateM ε σ σ) Q E s ↔ Q s s := Iff.rfl

@[simp] theorem wp_set {ε σ : Type} {Q : Unit → σ → Prop} {E : ε → σ → Prop} {s : σ} (t : σ) :
    wp (set t : EStateM ε σ Unit) Q E s ↔ Q () t := Iff.rfl

@[simp] theorem wp_modify {ε σ : Type} {Q : Unit → σ → Prop} {E : ε → σ → Prop} {s : σ}
    (f : σ → σ) : wp (modify f : EStateM ε σ Unit) Q E s ↔ Q () (f s) := Iff.rfl

@[simp] theorem wp_bind (m : EStateM ε σ α) (f : α → EStateM ε σ β) {Q : β → σ → Prop} :
    wp (m >>= f) Q E s ↔ wp m (fun a t => wp (f a) Q E t) E s := by
  show (match EStateM.bind m f s with | .ok a t => Q a t | .error e t => E e t) ↔ _
  rw [EStateM.bind, wp]
  cases m s <;> rfl

theorem wp.bind {m : EStateM ε σ α} {f : α → EStateM ε σ β} {Q : β → σ → Prop}
    (h : wp m (fun a t => wp (f a) Q E t) E s) : wp (m >>= f) Q E s := (wp_bind m f).mpr h

theorem wp.pure {a : α} (h : Q a s) : wp (Pure.pure a : EStateM ε σ α) Q E s := h

theorem wp_ite {c : Prop} [Decidable c] {m n : EStateM ε σ α} :
    wp (if c then m else n) Q E s ↔ if c then wp m Q E s else wp n Q E s := by
  split <;> rfl

theorem wp.mono {m : EStateM ε σ α} (h : wp m Q E s) (hQ : ∀ a t, Q a t → Q' a t)
    (hE : ∀ e t, E e t → E' e t) : wp m Q' E' s := by
  rw [wp] at h ⊢
  split at h
  · exact hQ _ _ h
  · exact hE _ _ h

theorem wp.mono_ok {m : EStateM ε σ α} (h : wp m Q E s) (hQ : ∀ a t, Q a t → Q' a t) :
    wp m Q' E s := h.mono hQ fun _ _ => id

theorem wp.and {m : EStateM ε σ α} (h : wp m Q E s) (h' : wp m Q' E' s) :
    wp m (fun a t => Q a t ∧ Q' a t) (fun e t => E e t ∧ E' e t) s := by
  rw [wp] at h h' ⊢
  split <;> simp_all

theorem wp_true (m : EStateM ε σ α) : wp m (fun _ _ => True) (fun _ _ => True) s := by
  rw [wp]
  split <;> trivial

theorem wp.exec {m : EStateM ε σ α} (h : wp m Q E s) :
    wp m (fun a t => Q a t ∧ m s = .ok a t) E s := by
  rw [wp] at h ⊢
  split <;> simp_all

/-- The state in which a program ends, whether it returns or stops. -/
def final (m : EStateM ε σ α) (s : σ) : σ :=
  match m s with
  | .ok _ t => t
  | .error _ t => t

theorem wp.final {m : EStateM ε σ α} {R : σ → Prop} (h : wp m (fun _ => R) (fun _ => R) s) :
    R (final m s) := by
  rw [wp] at h
  rw [Prog.final]
  split <;> simp_all

def value (m : EStateM ε σ α) (s : σ) : Option α :=
  match m s with
  | .ok a _ => some a
  | .error _ _ => none

theorem eq_ok_of_value {m : EStateM ε σ α} {a : α} (h : value m s = some a) :
    m s = .ok a (final m s) := by
  rw [value] at h
  rw [final]
  split at h
  · rename_i heq
    rw [heq, Option.some_inj.mp h]
  · exact absurd h (by simp)

theorem wp.exists_ok {m : EStateM ε σ α} (h : wp m Q (fun _ _ => False) s) :
    ∃ a t, m s = .ok a t ∧ Q a t := by
  rw [wp] at h
  split at h
  · exact ⟨_, _, ‹_›, h⟩
  · exact h.elim

/-! ## Loops -/

/-- `for (i = 0; i < n; i++) f(i)`. -/
def times {ε σ : Type} (f : Nat → EStateM ε σ Unit) : Nat → EStateM ε σ Unit
  | 0 => pure ()
  | n + 1 => do
    times f n
    f n

/-- **The invariant rule for loops**: `I i` holds before the round number `i`. -/
theorem wp_times {ε σ : Type} {E : ε → σ → Prop} {f : Nat → EStateM ε σ Unit} {n : Nat}
    (I : Nat → σ → Prop) {s : σ} (h0 : I 0 s)
    (hstep : ∀ i s, i < n → I i s → wp (f i) (fun _ => I (i + 1)) E s) :
    wp (times f n) (fun _ => I n) E s := by
  induction n with
  | zero => exact h0
  | succ n ih =>
    rw [times, wp_bind]
    exact (ih fun i s hi => hstep i s (by omega)).mono_ok fun _ t ht => hstep n t (by omega) ht

/-! ## How programs move the state -/

/-- Whenever `m` returns, it has moved the state along `R`, and it stops only with errors in `P`. -/
def Moves {ε σ α : Type} (R : σ → σ → Prop) (P : ε → Prop) (m : EStateM ε σ α) : Prop :=
  ∀ s, wp m (fun _ t => R s t) (fun e _ => P e) s

namespace Moves

variable {ε σ α β : Type} {R : σ → σ → Prop} {P : ε → Prop} {m m' : EStateM ε σ α}

theorem throw {e : ε} (he : P e) : Moves R P (MonadExcept.throw e : EStateM ε σ α) := fun _ => he

theorem of_modify {g : σ → σ} (h : ∀ s, R s (g s)) : Moves R P (modify g : EStateM ε σ Unit) := h

theorem ite {c : Prop} [Decidable c] (h : c → Moves R P m) (h' : ¬c → Moves R P m') :
    Moves R P (if c then m else m') := by
  split
  · exact h ‹_›
  · exact h' ‹_›

theorem pure [Std.Refl R] (a : α) : Moves R P (Pure.pure a : EStateM ε σ α) := fun s =>
  Std.Refl.refl (r := R) s

theorem bind [IsTrans σ R] {g : α → EStateM ε σ β} (hm : Moves R P m)
    (hg : ∀ a, Moves R P (g a)) : Moves R P (m >>= g) := by
  intro s
  rw [wp_bind]
  exact (hm s).mono_ok fun a t ht => (hg a t).mono_ok fun _ _ hu => trans_of R ht hu

theorem get {g : σ → EStateM ε σ β} (hg : ∀ s, wp (g s) (fun _ t => R s t) (fun e _ => P e) s) :
    Moves R P (MonadState.get >>= g : EStateM ε σ β) := by
  intro s
  rw [wp_bind, wp_get]
  exact hg s

theorem times [Std.Refl R] [IsTrans σ R] {g : Nat → EStateM ε σ Unit} {n : Nat}
    (h : ∀ i, Moves R P (g i)) : Moves R P (Prog.times g n) := by
  induction n with
  | zero => exact pure ()
  | succ n ih => exact bind ih fun _ => h n

end Moves

end Prog
