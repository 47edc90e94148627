import Mathlib.Data.List.Basic

/-!
# Machines that take labelled steps

A machine is a partial step function `next : σ → α → Option σ`: in state `s` the action `a` either
is not enabled (`none`) or leads to one new state.  Everything that is not determined — which
process moves, which argument it passes — is in the action, so a run is just a list of actions and
can be replayed by evaluation.

`run_induction` is the one induction all safety proofs go through, and `run_trace` the rule of forward
simulation.
-/

namespace Machine

universe u v w x

variable {σ : Type u} {α : Type v}

def run (next : σ → α → Option σ) : σ → List α → Option σ
  | s, [] => some s
  | s, a :: as => (next s a).bind fun t => run next t as

/-- Every action of the run is taken in a state in which `C` allows it. -/
def Along (next : σ → α → Option σ) (C : σ → α → Prop) : σ → List α → Prop
  | _, [] => True
  | s, a :: as => C s a ∧ match next s a with
    | some t => Along next C t as
    | none => True

/-- A run that respects a decidable condition can be recognised by evaluation. -/
instance decidableAlong (next : σ → α → Option σ) (C : σ → α → Prop)
    [∀ s a, Decidable (C s a)] : ∀ (s : σ) (as : List α), Decidable (Along next C s as)
  | _, [] => inferInstanceAs (Decidable True)
  | s, a :: as =>
    match h : next s a with
    | some t =>
      have := decidableAlong next C t as
      decidable_of_iff (C s a ∧ Along next C t as) (by rw [Along, h])
    | none => decidable_of_iff (C s a) (by rw [Along, h, and_true])

/-- So can a run that ends in a state with a decidable property. -/
instance decidableExistsSome {P : σ → Prop} [DecidablePred P] {o : Option σ} :
    Decidable (∃ t, o = some t ∧ P t) :=
  inferInstanceAs (Decidable (∃ t ∈ o, P t))

/-- The events of a run, as `label` reads them off its steps. -/
def trace {ε : Type w} (next : σ → α → Option σ) (label : σ → α → σ → Option ε) :
    σ → List α → List ε
  | _, [] => []
  | s, a :: as => match next s a with
    | none => []
    | some t => (label s a t).toList ++ trace next label t as

def Reachable (next : σ → α → Option σ) (s t : σ) : Prop := ∃ as, run next s as = some t

variable {next : σ → α → Option σ} {C : σ → α → Prop}

theorem run_cons_eq_some {s t : σ} {a : α} {as : List α} :
    run next s (a :: as) = some t ↔ ∃ m, next s a = some m ∧ run next m as = some t := by
  rw [run, Option.bind_eq_some_iff]

theorem run_append (s : σ) (as bs : List α) :
    run next s (as ++ bs) = (run next s as).bind fun t => run next t bs := by
  induction as generalizing s with
  | nil => rfl
  | cons a as ih =>
    rw [List.cons_append, run, run]
    cases next s a with
    | none => rfl
    | some m => exact ih m

theorem run_append_eq_some {s t : σ} {as bs : List α} :
    run next s (as ++ bs) = some t ↔ ∃ m, run next s as = some m ∧ run next m bs = some t := by
  rw [run_append, Option.bind_eq_some_iff]

theorem along_cons {s m : σ} {a : α} {as : List α} (h : next s a = some m) :
    Along next C s (a :: as) ↔ C s a ∧ Along next C m as := by
  rw [Along, h]

/-- **The invariant rule.**  What holds at the start and is kept by every step that `C` allows
holds at the end of every run along which `C` holds. -/
theorem run_induction {I : σ → Prop} {s t : σ} {as : List α} (hrun : run next s as = some t)
    (hC : Along next C s as) (h0 : I s)
    (hstep : ∀ s a t, I s → C s a → next s a = some t → I t) : I t := by
  induction as generalizing s with
  | nil => rw [run, Option.some_inj] at hrun; exact hrun ▸ h0
  | cons a as ih =>
    obtain ⟨m, hm, hrun⟩ := run_cons_eq_some.mp hrun
    rw [along_cons hm] at hC
    exact ih hrun hC.2 (hstep s a m h0 hC.1 hm)

theorem along_of_forall_mem {P : α → Prop} {as : List α} (h : ∀ a ∈ as, P a) (s : σ) :
    Along next (fun _ a => P a) s as := by
  induction as generalizing s with
  | nil => trivial
  | cons a as ih =>
    rw [Along]
    refine ⟨h a (List.mem_cons_self ..), ?_⟩
    split
    · exact ih (fun b hb => h b (List.mem_cons_of_mem a hb)) _
    · trivial

theorem run_induction_of_forall_mem {I : σ → Prop} {P : α → Prop} {s t : σ} {as : List α}
    (hrun : run next s as = some t) (hP : ∀ a ∈ as, P a) (h0 : I s)
    (hstep : ∀ s a t, I s → P a → next s a = some t → I t) : I t :=
  run_induction hrun (along_of_forall_mem hP s) h0 hstep

theorem Reachable.induction {I : σ → Prop} {s t : σ} (h : Reachable next s t) (h0 : I s)
    (hstep : ∀ s a t, I s → next s a = some t → I t) : I t := by
  obtain ⟨as, hrun⟩ := h
  exact run_induction_of_forall_mem hrun (fun _ _ => trivial) h0
    fun s a t hs _ ht => hstep s a t hs ht

/-- **Forward simulation.**  If every step is matched by the abstract machine taking the step's event,
if there is one, then the events of a run are a run of the abstract machine. -/
theorem run_trace {ε : Type w} {τ : Type x} {label : σ → α → σ → Option ε}
    {anext : τ → ε → Option τ} {R : σ → τ → Prop} {s t : σ} {y : τ} {as : List α}
    (hstep : ∀ s y a t, R s y → next s a = some t →
      ∃ z, run anext y (label s a t).toList = some z ∧ R t z)
    (hrun : run next s as = some t) (h : R s y) :
    ∃ z, run anext y (trace next label s as) = some z ∧ R t z := by
  induction as generalizing s y with
  | nil => rw [run, Option.some_inj] at hrun; exact ⟨y, rfl, hrun ▸ h⟩
  | cons a as ih =>
    obtain ⟨m, hm, hrun⟩ := run_cons_eq_some.mp hrun
    obtain ⟨z, hz, hR⟩ := hstep s y a m h hm
    obtain ⟨w, hw, hR'⟩ := ih hrun hR
    refine ⟨w, ?_, hR'⟩
    simp only [trace, hm]
    exact run_append_eq_some.mpr ⟨z, hz, hw⟩

theorem run_lockstep {τ : Type x} {anext : τ → α → Option τ} {R : σ → τ → Prop} {s t : σ} {y : τ}
    {as : List α}
    (hstep : ∀ s y a t, R s y → next s a = some t → ∃ z, anext y a = some z ∧ R t z)
    (hrun : run next s as = some t) (h : R s y) : ∃ z, run anext y as = some z ∧ R t z := by
  induction as generalizing s y with
  | nil => rw [run, Option.some_inj] at hrun; exact ⟨y, rfl, hrun ▸ h⟩
  | cons a as ih =>
    obtain ⟨m, hm, hrun⟩ := run_cons_eq_some.mp hrun
    obtain ⟨z, hz, hR⟩ := hstep s y a m h hm
    obtain ⟨w, hw, hR'⟩ := ih hrun hR
    exact ⟨w, run_cons_eq_some.mpr ⟨z, hz, hw⟩, hR'⟩

theorem Reachable.of_next {s t : σ} {a : α} (h : next s a = some t) : Reachable next s t :=
  ⟨[a], run_cons_eq_some.mpr ⟨t, h, rfl⟩⟩

theorem Reachable.trans {s t u : σ} (h₁ : Reachable next s t) (h₂ : Reachable next t u) :
    Reachable next s u := by
  obtain ⟨as, ha⟩ := h₁
  obtain ⟨bs, hb⟩ := h₂
  exact ⟨as ++ bs, run_append_eq_some.mpr ⟨t, ha, hb⟩⟩

end Machine
