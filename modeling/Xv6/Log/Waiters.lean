import Xv6.Lib.Lock
import Xv6.Log.GroupCommit
import Xv6.Proc.State

/-!
# Nobody is left waiting for the log

`begin_op` sleeps on `&log` for two reasons: a commit is going on, or there is no room for one more
call.  Here the sections of `Xv6.Log.Sections` are run under an explicit `log.lock`, with `sleep` and
the loop of `wakeup` as steps of their own, and `commit()` runs without the lock.
-/

namespace Xv6

open Function (update update_of_ne update_self update_apply)
open Option (ite_none_right_eq_some some_inj)

namespace LogWaiters

open Machine GroupCommit

/-- What a process does after it has released `log.lock`. -/
inductive After where
  | running
  | commit
  | user
  deriving DecidableEq, Repr

inductive Call where
  | beginOp
  | logWrite (b : Nat)
  | endOp
  | endCommit
  deriving DecidableEq, Repr

inductive Pc where
  | user
  | running
  /-- About to acquire `log.lock`, on entry, after `commit()`, or at the end of `sleep`. -/
  | acquire (c : Call)
  | locked (c : Call)
  | sleep
  | asleep
  | wakeup (j : Nat)
  | release (k : After)
  | commit (pc : CommitPc)
  deriving DecidableEq, Repr

def Pc.holds : Pc → Bool
  | .locked _ | .sleep | .wakeup _ | .release _ => true
  | _ => false

def Pc.commits : Pc → Bool
  | .release .commit | .commit _ | .acquire .endCommit | .locked .endCommit => true
  | _ => false

def After.pc : After → Pc
  | .running => .running
  | .commit => .commit .start
  | .user => .user

structure Sys where
  log : Log
  lock : Option Slot
  pc : Slot → Pc
  sleeping : Slot → Bool

inductive Act where
  | beginOp (p : Slot)
  | logWrite (p : Slot) (b : Nat)
  | endOp (p : Slot)
  | run (p : Slot)
  | kill (q : Slot)
  deriving DecidableEq, Repr

namespace Sys

def init (start size dev : Nat) : Sys where
  log := .init start size dev
  lock := none
  pc := fun _ => .user
  sleeping := fun _ => false

def goto (s : Sys) (p : Slot) (pc : Pc) : Sys := { s with pc := update s.pc p pc }

/-- What `p` does when it has acquired the lock.  A panic stops the machine. -/
def inside (s : Sys) (p : Slot) : Call → Option Sys
  | .beginOp => match s.log.beginOp with
    | some l => some { s.goto p (.release .running) with log := l }
    | none => some (s.goto p .sleep)
  | .logWrite b => match s.log.logWrite b with
    | .ok (l, _) => some { s.goto p (.release .running) with log := l }
    | .error _ => none
  | .endOp => match s.log.endOp with
    | .ok (l, commit) =>
      some { s.goto p (if commit then .release .commit else .wakeup 0) with log := l }
    | .error _ => none
  | .endCommit => some { s.goto p (.wakeup 0) with log := { s.log with committing := false } }

def commitStep (s : Sys) (p : Slot) : CommitPc → Sys
  | .start => s.goto p (.commit (if s.log.lh.length > 0 then .writeLog 0 else .done))
  | .writeLog tail =>
    s.goto p (.commit (if tail < s.log.lh.length then .writeLog (tail + 1) else .writeHead))
  | .writeHead => s.goto p (.commit (.install 0))
  | .install tail =>
    s.goto p (.commit (if tail < s.log.lh.length then .install (tail + 1) else .clear))
  | .clear => { s.goto p (.commit .eraseHead) with log := { s.log with lh := [] } }
  | .eraseHead => s.goto p (.commit .done)
  | .done => s.goto p (.acquire .endCommit)

def step (s : Sys) (p : Slot) : Option Sys :=
  match s.pc p with
  | .user | .running => none
  | .acquire c =>
    if s.lock = none then some { s.goto p (.locked c) with lock := some p } else none
  | .locked c => s.inside p c
  | .sleep => some { s.goto p .asleep with
      lock := none
      sleeping := update s.sleeping p true }
  | .asleep => if s.sleeping p = false then some (s.goto p (.acquire .beginOp)) else none
  | .wakeup j =>
    if h : j < nproc then some { s.goto p (.wakeup (j + 1)) with
      sleeping := update s.sleeping ⟨j, h⟩ false }
    else some (s.goto p (.release .user))
  | .release k => some { s.goto p k.pc with lock := none }
  | .commit pc => some (s.commitStep p pc)

end Sys

def next (s : Sys) : Act → Option Sys
  | .beginOp p => if s.pc p = .user then some (s.goto p (.acquire .beginOp)) else none
  | .logWrite p b => if s.pc p = .running then some (s.goto p (.acquire (.logWrite b))) else none
  | .endOp p => if s.pc p = .running then some (s.goto p (.acquire .endOp)) else none
  | .run p => s.step p
  | .kill q => some { s with sleeping := update s.sleeping q false }

/-! ## What a step does -/

inductive Step (s : Sys) : Sys → Prop where
  | call (p : Slot) (c : Call) : c ≠ .endCommit → s.pc p = .user ∨ s.pc p = .running →
    Step s (s.goto p (.acquire c))
  | awake (p : Slot) : s.pc p = .asleep → s.sleeping p = false → Step s (s.goto p (.acquire .beginOp))
  | acquire (p : Slot) (c : Call) : s.pc p = .acquire c → s.lock = none →
    Step s { s.goto p (.locked c) with lock := some p }
  | enter (p : Slot) (l : Log) : s.pc p = .locked .beginOp → s.log.beginOp = some l →
    Step s { s.goto p (.release .running) with log := l }
  | refuse (p : Slot) : s.pc p = .locked .beginOp → s.log.beginOp = none → Step s (s.goto p .sleep)
  | write (p : Slot) (b : Nat) (l : Log) (pin : Bool) : s.pc p = .locked (.logWrite b) →
    s.log.logWrite b = .ok (l, pin) → Step s { s.goto p (.release .running) with log := l }
  | endLast (p : Slot) (l : Log) : s.pc p = .locked .endOp → s.log.endOp = .ok (l, true) →
    Step s { s.goto p (.release .commit) with log := l }
  | endOther (p : Slot) (l : Log) : s.pc p = .locked .endOp → s.log.endOp = .ok (l, false) →
    Step s { s.goto p (.wakeup 0) with log := l }
  | endCommit (p : Slot) : s.pc p = .locked .endCommit →
    Step s { s.goto p (.wakeup 0) with log := { s.log with committing := false } }
  | sleep (p : Slot) : s.pc p = .sleep → Step s { s.goto p .asleep with
      lock := none
      sleeping := update s.sleeping p true }
  | rouse (p : Slot) (j : Nat) (h : j < nproc) : s.pc p = .wakeup j →
    Step s { s.goto p (.wakeup (j + 1)) with sleeping := update s.sleeping ⟨j, h⟩ false }
  | roused (p : Slot) (j : Nat) : s.pc p = .wakeup j → nproc ≤ j →
    Step s (s.goto p (.release .user))
  | release (p : Slot) (k : After) : s.pc p = .release k → Step s { s.goto p k.pc with lock := none }
  | commit (p : Slot) (pc : CommitPc) (pc' : Pc) : s.pc p = .commit pc → pc'.holds = false →
    pc'.commits = true → Step s (s.goto p pc')
  | clear (p : Slot) : s.pc p = .commit .clear →
    Step s { s.goto p (.commit .eraseHead) with log := { s.log with lh := [] } }
  | kill (q : Slot) : Step s { s with sleeping := update s.sleeping q false }

section Step

variable {s t : Sys} {p : Slot}

theorem Sys.step_of_inside {c : Call} (hpc : s.pc p = .locked c) (h : s.inside p c = some t) :
    Step s t := by
  cases c with
  | beginOp =>
    rw [inside] at h
    split at h
    · cases h
      exact .enter p _ hpc ‹_›
    · cases h
      exact .refuse p hpc ‹_›
  | logWrite b =>
    rw [inside] at h
    split at h
    · cases h
      exact .write p b _ _ hpc ‹_›
    · cases h
  | endOp =>
    rw [inside] at h
    split at h
    · rename_i l commit hend
      cases h
      cases commit with
      | true => exact .endLast p l hpc hend
      | false => exact .endOther p l hpc hend
    · cases h
  | endCommit =>
    cases h
    exact .endCommit p hpc

theorem Sys.step_commitStep {pc : CommitPc} (hpc : s.pc p = .commit pc) :
    Step s (s.commitStep p pc) := by
  cases pc with
  | clear => exact .clear p hpc
  | _ => exact .commit p _ _ hpc rfl rfl

theorem Sys.step_of_step (h : s.step p = some t) : Step s t := by
  rw [step] at h
  cases hpc : s.pc p with
  | user => simp [hpc] at h
  | running => simp [hpc] at h
  | acquire c =>
    simp only [hpc, ite_none_right_eq_some, some_inj] at h
    obtain ⟨hlock, rfl⟩ := h
    exact .acquire p c hpc hlock
  | locked c =>
    simp only [hpc] at h
    exact step_of_inside hpc h
  | sleep =>
    simp only [hpc] at h
    cases h
    exact .sleep p hpc
  | asleep =>
    simp only [hpc, ite_none_right_eq_some, some_inj] at h
    obtain ⟨hs, rfl⟩ := h
    exact .awake p hpc hs
  | wakeup j =>
    simp only [hpc] at h
    split at h
    · cases h
      exact .rouse p j _ hpc
    · cases h
      exact .roused p j hpc (by omega)
  | release k =>
    simp only [hpc] at h
    cases h
    exact .release p k hpc
  | commit pc =>
    simp only [hpc] at h
    cases h
    exact step_commitStep hpc

theorem step_of_next {a : Act} (h : next s a = some t) : Step s t := by
  cases a with
  | beginOp p =>
    rw [next, ite_none_right_eq_some, some_inj] at h
    obtain ⟨hpc, rfl⟩ := h
    exact .call p .beginOp (by simp) (.inl hpc)
  | logWrite p b =>
    rw [next, ite_none_right_eq_some, some_inj] at h
    obtain ⟨hpc, rfl⟩ := h
    exact .call p (.logWrite b) (by simp) (.inr hpc)
  | endOp p =>
    rw [next, ite_none_right_eq_some, some_inj] at h
    obtain ⟨hpc, rfl⟩ := h
    exact .call p .endOp (by simp) (.inr hpc)
  | run p => exact s.step_of_step h
  | kill q =>
    cases h
    exact .kill q

end Step

/-! ## The lock and the committer -/

/-- `log.committing` is a second lock: one process has it, from the end of the last call of a
transaction to the end of the commit. -/
structure Held (s : Sys) (c : Option Slot) : Prop where
  lock : Lock.Held Pc.holds s.lock s.pc
  commits : Lock.Held Pc.commits c s.pc
  committing : s.log.committing = c.isSome
  asleep : ∀ q, s.sleeping q = true → s.pc q = .asleep

section Held

variable {s t : Sys} {c : Option Slot} {p : Slot} {pc : Pc}

theorem sleeping_of_update {sleeping : Slot → Bool} {p q : Slot}
    (h : update sleeping p false q = true) : sleeping q = true := by
  rw [update_apply] at h
  split at h
  · exact absurd h (by simp)
  · exact h

theorem Held.asleep_update (h : Held s c) (hp : s.pc p ≠ .asleep) {q : Slot}
    (hq : s.sleeping q = true) : update s.pc p pc q = .asleep := by
  have hqp : q ≠ p := by
    rintro rfl
    exact hp (h.asleep q hq)
  rw [update_of_ne hqp]
  exact h.asleep q hq

theorem Held.keep (h : Held s c) (hold : (s.pc p).holds = true) (hoff : (s.pc p).commits = false)
    (hlock : t.lock = s.lock) (hlog : t.log.committing = s.log.committing)
    (hpc : t.pc = update s.pc p pc) (hholds : pc.holds = true)
    (hcommits : pc.commits = false)
    (hsleep : ∀ q, t.sleeping q = true → s.sleeping q = true) : Held t c where
  lock := by
    rw [hpc, hlock]
    exact h.lock.keep ((h.lock p).mp hold) hholds
  commits := by
    rw [hpc]
    exact h.commits.outside hoff hcommits
  committing := hlog.trans h.committing
  asleep q hq := by
    rw [hpc]
    refine h.asleep_update (fun hp => ?_) (hsleep q hq)
    rw [hp] at hold
    exact absurd hold (by simp [Pc.holds])

theorem Held.step (h : Held s c) (hstep : Step s t) : ∃ c', Held t c' := by
  cases hstep with
  | call p call hcall hpc =>
    refine ⟨c, h.lock.outside ?_ rfl, h.commits.outside ?_ ?_, h.committing,
      fun q hq => h.asleep_update ?_ hq⟩
    · rcases hpc with hpc | hpc <;> rw [hpc] <;> rfl
    · rcases hpc with hpc | hpc <;> rw [hpc] <;> rfl
    · cases call with
      | endCommit => exact absurd rfl hcall
      | _ => rfl
    · rcases hpc with hpc | hpc <;> simp [hpc]
  | awake p hpc hs =>
    refine ⟨c, h.lock.outside (by rw [hpc]; rfl) rfl, h.commits.outside (by rw [hpc]; rfl) rfl,
      h.committing, fun q hq => ?_⟩
    have hqp : q ≠ p := by
      rintro rfl
      exact absurd (hs.symm.trans hq) (by simp)
    exact (update_of_ne hqp ..).trans (h.asleep q hq)
  | acquire p call hpc hfree =>
    refine ⟨c, (hfree ▸ h.lock).take rfl, ?_, h.committing,
      fun q hq => h.asleep_update (by simp [hpc]) hq⟩
    by_cases hcall : call = .endCommit
    · subst hcall
      exact h.commits.keep ((h.commits p).mp (by rw [hpc]; rfl)) rfl
    · refine h.commits.outside ?_ ?_
      · rw [hpc]
        cases call with
        | endCommit => exact absurd rfl hcall
        | _ => rfl
      · cases call with
        | endCommit => exact absurd rfl hcall
        | _ => rfl
  | enter p l hpc hl =>
    obtain ⟨-, -, rfl⟩ := Log.beginOp_eq_some hl
    exact ⟨c, h.keep (by rw [hpc]; rfl) (by rw [hpc]; rfl) rfl rfl rfl rfl rfl fun _ => id⟩
  | refuse p hpc hl =>
    exact ⟨c, h.keep (by rw [hpc]; rfl) (by rw [hpc]; rfl) rfl rfl rfl rfl rfl fun _ => id⟩
  | write p b l pin hpc hl =>
    refine ⟨c, h.keep (by rw [hpc]; rfl) (by rw [hpc]; rfl) rfl ?_ rfl rfl rfl fun _ => id⟩
    obtain ⟨-, -, -, ⟨-, rfl, -⟩ | ⟨-, rfl, -⟩⟩ := Log.logWrite_eq_ok hl
    · rfl
    · rfl
  | endLast p l hpc hl =>
    obtain ⟨hoff, -, rfl⟩ := Log.endOp_eq_ok hl
    have hc : c = none := by
      rw [h.committing, Option.isSome_eq_false_iff, Option.isNone_iff_eq_none] at hoff
      exact hoff
    exact ⟨some p, h.lock.keep ((h.lock p).mp (by rw [hpc]; rfl)) rfl, (hc ▸ h.commits).take rfl, rfl,
      fun q hq => h.asleep_update (by simp [hpc]) hq⟩
  | endOther p l hpc hl =>
    refine ⟨c, h.keep (by rw [hpc]; rfl) (by rw [hpc]; rfl) rfl ?_ rfl rfl rfl fun _ => id⟩
    obtain ⟨hoff, -, rfl⟩ := Log.endOp_eq_ok hl
    exact hoff.symm
  | endCommit p hpc =>
    exact ⟨none, h.lock.keep ((h.lock p).mp (by rw [hpc]; rfl)) rfl,
      h.commits.drop ((h.commits p).mp (by rw [hpc]; rfl)) rfl, rfl,
      fun q hq => h.asleep_update (by simp [hpc]) hq⟩
  | sleep p hpc =>
    refine ⟨c, h.lock.drop ((h.lock p).mp (by rw [hpc]; rfl)) rfl,
      h.commits.outside (by rw [hpc]; rfl) rfl, h.committing, fun q hq => ?_⟩
    by_cases hqp : q = p
    · rw [hqp]
      exact update_self ..
    · refine (update_of_ne hqp ..).trans (h.asleep q ?_)
      exact (update_of_ne hqp ..).symm.trans hq
  | rouse p j hj hpc =>
    exact ⟨c, h.keep (by rw [hpc]; rfl) (by rw [hpc]; rfl) rfl rfl rfl rfl rfl
      fun _ => sleeping_of_update⟩
  | roused p j hpc hj =>
    exact ⟨c, h.keep (by rw [hpc]; rfl) (by rw [hpc]; rfl) rfl rfl rfl rfl rfl fun _ => id⟩
  | release p k hpc =>
    refine ⟨c, h.lock.drop ((h.lock p).mp (by rw [hpc]; rfl)) (by cases k <;> rfl), ?_, h.committing,
      fun q hq => h.asleep_update (by simp [hpc]) hq⟩
    cases k with
    | running => exact h.commits.outside (by rw [hpc]; rfl) rfl
    | commit => exact h.commits.keep ((h.commits p).mp (by rw [hpc]; rfl)) rfl
    | user => exact h.commits.outside (by rw [hpc]; rfl) rfl
  | commit p pc pc' hpc hholds hcommits =>
    exact ⟨c, h.lock.outside (by rw [hpc]; rfl) hholds,
      h.commits.keep ((h.commits p).mp (by rw [hpc]; rfl)) hcommits, h.committing,
      fun q hq => h.asleep_update (by simp [hpc]) hq⟩
  | clear p hpc =>
    exact ⟨c, h.lock.outside (by rw [hpc]; rfl) rfl,
      h.commits.keep ((h.commits p).mp (by rw [hpc]; rfl)) rfl, h.committing,
      fun q hq => h.asleep_update (by simp [hpc]) hq⟩
  | kill q => exact ⟨c, h.lock, h.commits, h.committing, fun p hp => h.asleep p (sleeping_of_update hp)⟩

theorem Held.beginOp_eq_none (h : Held s c) (hp : (s.pc p).commits = true) (lh : List Nat) :
    Log.beginOp { s.log with lh := lh } = none := by
  have hc : s.log.committing = true := by rw [h.committing, (h.commits p).mp hp, Option.isSome_some]
  exact if_pos hc

theorem held_init (start size dev : Nat) : Held (Sys.init start size dev) none where
  lock := .of_none fun _ => rfl
  commits := .of_none fun _ => rfl
  committing := rfl
  asleep _ hq := absurd hq (by simp [Sys.init])

end Held

/-! ## The sleepers -/

/-- Whoever sleeps, or is about to, would not be admitted; or whoever has the lock is going to look at
it in `wakeup`. -/
structure Served (s : Sys) : Prop where
  sleep : ∀ p, s.pc p = .sleep → s.log.beginOp = none
  sleeping : ∀ q, s.sleeping q = true →
    s.log.beginOp = none ∨ ∃ p j, s.lock = some p ∧ s.pc p = .wakeup j ∧ j ≤ q

section Served

variable {s t : Sys} {c : Option Slot} {p : Slot} {pc : Pc}

theorem Served.beginOp_eq_none (h : Served s) (hp : s.lock = some p) (hpc : ∀ j, s.pc p ≠ .wakeup j)
    {q : Slot} (hq : s.sleeping q = true) : s.log.beginOp = none := by
  rcases h.sleeping q hq with hl | ⟨p', j, hp', hj, -⟩
  · exact hl
  · rw [hp, some_inj] at hp'
    exact absurd (hp' ▸ hj) (hpc j)

theorem Held.sleep_update {K : Prop} (h : Held s c) (hp : s.lock = some p) (hself : pc = .sleep → K)
    (q : Slot) : update s.pc p pc q = .sleep → K :=
  h.lock.forall_update (K := fun k : Pc => k = .sleep → K) hp
    (fun _ hk heq => absurd (heq ▸ hk) (by simp [Pc.holds])) hself q

theorem Served.keep (h : Served s) (hheld : Held s c) (hp : s.lock = some p)
    (hwake : ∀ j, s.pc p ≠ .wakeup j) (hpc : t.pc = update s.pc p pc)
    (hsleep : t.sleeping = s.sleeping) (hself : pc = .sleep → t.log.beginOp = none)
    (hlog : s.log.beginOp = none → t.log.beginOp = none) : Served t where
  sleep := by
    rw [hpc]
    exact hheld.sleep_update hp hself
  sleeping q hq := .inl (hlog (h.beginOp_eq_none hp hwake (hsleep ▸ hq)))

theorem served_of_wakeup (hheld : Held s c) (hp : s.lock = some p) (hlock : t.lock = s.lock)
    (hpc : t.pc = update s.pc p (.wakeup 0)) : Served t where
  sleep := by
    rw [hpc]
    exact hheld.sleep_update hp (by simp)
  sleeping q hq := .inr ⟨p, 0, hlock.trans hp, hpc ▸ update_self .., Nat.zero_le _⟩

theorem Served.outside (h : Served s) (hheld : Held s c) (hold : (s.pc p).holds = false)
    (hlock : s.lock = none ∨ t.lock = s.lock) (hpc : t.pc = update s.pc p pc)
    (hself : pc ≠ .sleep) (hsleep : t.sleeping = s.sleeping)
    (hlog : s.log.beginOp = none → t.log.beginOp = none) : Served t where
  sleep := by
    rw [hpc]
    exact Lock.forall_update (K := fun k : Pc => k = .sleep → t.log.beginOp = none)
      (fun q hq => hlog (h.sleep q hq)) fun heq => absurd heq hself
  sleeping q hq := by
    rw [hsleep] at hq
    refine (h.sleeping q hq).imp hlog fun ⟨p', j, hp', hj, hle⟩ => ?_
    have hne : p' ≠ p := by
      rintro rfl
      rw [(hheld.lock p').mpr hp'] at hold
      exact absurd hold (by simp)
    rcases hlock with hlock | hlock
    · rw [hlock] at hp'
      exact absurd hp' (by simp)
    · exact ⟨p', j, hlock.trans hp', by rw [hpc, update_of_ne hne, hj], hle⟩

theorem Served.step (h : Served s) (hheld : Held s c) (hstep : Step s t) : Served t := by
  have hmine : ∀ {p : Slot}, (s.pc p).holds = true → s.lock = some p := fun {p} => (hheld.lock p).mp
  cases hstep with
  | call p call hcall hpc =>
    refine h.outside hheld ?_ (.inr rfl) rfl (by simp) rfl id
    rcases hpc with hpc | hpc <;> rw [hpc] <;> rfl
  | awake p hpc hs => exact h.outside hheld (by rw [hpc]; rfl) (.inr rfl) rfl (by simp) rfl id
  | acquire p call hpc hfree =>
    exact h.outside hheld (by rw [hpc]; rfl) (.inl hfree) rfl (by simp) rfl id
  | enter p l hpc hl =>
    -- Somebody is admitted, so nobody was asleep.
    have hnone : s.log.beginOp ≠ none := by simp [hl]
    exact h.keep hheld (hmine (by rw [hpc]; rfl)) (by simp [hpc]) rfl rfl (by simp)
      fun hno => absurd hno hnone
  | refuse p hpc hl =>
    exact h.keep hheld (hmine (by rw [hpc]; rfl)) (by simp [hpc]) rfl rfl (fun _ => hl) id
  | write p b l pin hpc hl =>
    exact h.keep hheld (hmine (by rw [hpc]; rfl)) (by simp [hpc]) rfl rfl (by simp)
      (Log.beginOp_eq_none_of_logWrite hl)
  | endLast p l hpc hl =>
    obtain ⟨-, -, rfl⟩ := Log.endOp_eq_ok hl
    exact h.keep hheld (hmine (by rw [hpc]; rfl)) (by simp [hpc]) rfl rfl (by simp)
      fun _ => if_pos rfl
  | endOther p l hpc hl => exact served_of_wakeup hheld (hmine (by rw [hpc]; rfl)) rfl rfl
  | endCommit p hpc => exact served_of_wakeup hheld (hmine (by rw [hpc]; rfl)) rfl rfl
  | sleep p hpc =>
    have hl := h.sleep p hpc
    refine ⟨fun q hq => hl, fun q hq => .inl hl⟩
  | rouse p j hj hpc =>
    have hp := hmine (p := p) (by rw [hpc]; rfl)
    refine ⟨hheld.sleep_update hp (by simp), fun q hq => ?_⟩
    refine (h.sleeping q (sleeping_of_update hq)).imp id fun ⟨p', j', hp', hpc', hle⟩ => ?_
    rw [hp, some_inj] at hp'
    subst hp'
    rw [hpc, Pc.wakeup.injEq] at hpc'
    subst hpc'
    have hne : q.val ≠ j := by
      rintro rfl
      exact absurd ((update_self ..).symm.trans hq) (by simp)
    exact ⟨p, j + 1, hp, update_self .., Nat.lt_of_le_of_ne hle hne.symm⟩
  | roused p j hpc hj =>
    have hp := hmine (p := p) (by rw [hpc]; rfl)
    refine ⟨hheld.sleep_update hp (by simp), fun q hq => ?_⟩
    refine (h.sleeping q hq).imp id fun ⟨p', j', hp', hpc', hle⟩ => ?_
    rw [hp, some_inj] at hp'
    subst hp'
    rw [hpc, Pc.wakeup.injEq] at hpc'
    exact absurd (Nat.le_trans hj (hpc' ▸ hle)) (Nat.not_le.mpr q.isLt)
  | release p k hpc =>
    exact h.keep hheld (hmine (by rw [hpc]; rfl)) (by simp [hpc]) rfl rfl
      (fun hk => by cases k <;> cases hk) id
  | commit p pc pc' hpc hholds hcommits =>
    refine h.outside hheld (by rw [hpc]; rfl) (.inr rfl) rfl ?_ rfl id
    rintro rfl
    exact absurd hholds (by simp [Pc.holds])
  | clear p hpc =>
    exact h.outside hheld (by rw [hpc]; rfl) (.inr rfl) rfl (by simp) rfl
      fun _ => hheld.beginOp_eq_none (by rw [hpc]; rfl) []
  | kill q => exact ⟨h.sleep, fun p hp => h.sleeping p (sleeping_of_update hp)⟩

theorem served_init (start size dev : Nat) : Served (Sys.init start size dev) :=
  ⟨fun _ hp => absurd hp (by simp [Sys.init]), fun _ hq => absurd hq (by simp [Sys.init])⟩

end Served

/-- **Nobody is left waiting for the log.**  Where `log.lock` is free and no commit is going on, a
process sleeps in `begin_op` only if there is no room for its call. -/
theorem no_sleeper_with_room {start size dev : Nat} {s : Sys}
    (h : Reachable next (Sys.init start size dev) s) (hfree : s.lock = none)
    (hcommitting : s.log.committing = false) (q : Slot) :
    ¬(s.sleeping q = true ∧
      (s.log.lh.length : Int) + (s.log.outstanding + 1) * maxOpBlocks ≤ logSize) := by
  rintro ⟨hq, hroom⟩
  obtain ⟨-, hserved⟩ : (∃ c, Held s c) ∧ Served s :=
    h.induction (I := fun s => (∃ c, Held s c) ∧ Served s)
      ⟨⟨none, held_init start size dev⟩, served_init start size dev⟩
      fun s a t ⟨⟨c, hheld⟩, hserved⟩ hnext =>
        ⟨hheld.step (step_of_next hnext), hserved.step hheld (step_of_next hnext)⟩
  rcases hserved.sleeping q hq with hl | ⟨p, j, hp, -, -⟩
  · rcases Log.beginOp_eq_none hl with hc | hfull
    · exact absurd (hcommitting.symm.trans hc) (by simp)
    · omega
  · exact absurd (hfree.symm.trans hp) (by simp)

/-- Three processes are admitted, and a fourth goes to sleep. -/
def fourCalls : List Act :=
  [0, 1, 2].flatMap (fun p => [.beginOp p, .run p, .run p, .run p]) ++
    [.beginOp 3, .run 3, .run 3, .run 3]

theorem no_sleeper_with_room_fourCalls : ∃ s, run next (Sys.init 2 31 1) fourCalls = some s ∧
    s.sleeping 3 = true ∧
    ¬(s.sleeping 3 = true ∧
      (s.log.lh.length : Int) + (s.log.outstanding + 1) * maxOpBlocks ≤ logSize) := by
  have heval : ((run next (Sys.init 2 31 1) fourCalls).map fun s =>
      (s.lock, s.log.committing, s.sleeping 3)) = some (none, false, true) := by decide +kernel
  obtain ⟨s, hrun, hs⟩ := Option.map_eq_some_iff.mp heval
  simp only [Prod.mk.injEq] at hs
  exact ⟨s, hrun, hs.2.2, no_sleeper_with_room ⟨fourCalls, hrun⟩ hs.1 hs.2.1 3⟩

end LogWaiters

end Xv6
