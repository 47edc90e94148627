import Xv6.Lib.Machine
import Xv6.Proc.State
import Mathlib.Data.Fin.Basic

/-!
# Sleep and wakeup

`sleep(chan, lk)` gives up `lk` and the processor in one go: it takes `p->lock` before it releases
`lk`, marks the process `SLEEPING` and switches to the scheduler, which releases `p->lock` on its
behalf.  `wakeup(chan)` walks over the process table and takes one `p->lock` at a time.  Nothing
protects the walk as a whole, so a sleeper may be at any point of `sleep` when the walk passes it.

Each step is one lock operation or the work done under one lock, over any set of condition locks and
channels.  The checks at the head of `sched` are left out: a panic there would only remove runs.

The last clause of `Sys.Inv`, `passed`, is the point of the protocol: once a `wakeup(chan)` made while
holding `lk` has walked past a process, that process is not asleep in a `sleep(chan, lk)`.
-/

namespace Xv6

open Function (update update_of_ne update_apply)
open Option (any_eq_true ite_none_right_eq_some some_inj)

namespace Wakeup

inductive Pc (L C : Type) where
  | off
  | fresh
  | forkret
  | kernel
  | sleepAcquire (chan : C) (lk : L)
  | sleepRelease (chan : C) (lk : L)
  | sleepMark (chan : C) (lk : L)
  | sleepSched (chan : C) (lk : L)
  | sleepOut (chan : C) (lk : L)
  /-- `sleep`: back from `sched`, about to clear `p->chan` and release `p->lock`. -/
  | sleepTidy (chan : C) (lk : L)
  | sleepReacquire (chan : C) (lk : L)
  | yieldAcquire
  | yieldSched
  | yieldOut
  | yieldBack
  /-- `wakeup`: at the head of the loop, about to look at `proc[i]`. -/
  | wakeup (chan : C) (i : Nat)
  | wakeupHold (chan : C) (i : Slot)
  deriving DecidableEq, Repr

/-- The arguments of the `sleep` a process is in, if it is in one. -/
def Pc.call {L C : Type} : Pc L C → Option (C × L)
  | .sleepAcquire c l | .sleepRelease c l | .sleepMark c l | .sleepSched c l | .sleepOut c l
  | .sleepTidy c l | .sleepReacquire c l => some (c, l)
  | _ => none

/-- The points at which a process holds its own `p->lock`. -/
def Pc.ownsLock {L C : Type} : Pc L C → Bool
  | .forkret | .sleepRelease _ _ | .sleepMark _ _ | .sleepSched _ _ | .sleepTidy _ _
  | .yieldSched | .yieldBack => true
  | _ => false

structure Sys (L C : Type) where
  state : Slot → ProcState
  chan : Slot → Option C
  plock : Slot → Option Slot
  lock : L → Option Slot
  pc : Slot → Pc L C
  calls : Slot → Nat

inductive Act (L C : Type) where
  | acquire (p : Slot) (l : L)
  | release (p : Slot) (l : L)
  | sleep (p : Slot) (c : C) (l : L)
  | wakeup (p : Slot) (c : C)
  | yield (p : Slot)
  | run (p : Slot)
  | schedule (p : Slot)
  /-- The body of `kill`'s loop for the process it is looking for. -/
  | kill (p q : Slot)
  /-- A `wakeup(chan)` made by an interrupt handler outside any process looks at `q`. -/
  | intr (q : Slot) (c : C)
  | fork (p q : Slot)
  /-- The end of `exit`: `p` becomes a zombie, releases `wait_lock`, here `l`, and switches away. -/
  | exit (p : Slot) (l : L)
  | reap (p q : Slot)

open Machine

section Model

variable {L C : Type} [DecidableEq L] [DecidableEq C]

namespace Sys

def init (L C : Type) : Sys L C where
  state := update (fun _ => .unused) 0 .runnable
  chan := fun _ => none
  plock := fun _ => none
  lock := fun _ => none
  pc := update (fun _ => .off) 0 .fresh
  calls := fun _ => 0

def setPc (s : Sys L C) (p : Slot) (pc : Pc L C) : Sys L C :=
  { s with pc := update s.pc p pc }

def setPlock (s : Sys L C) (p : Slot) (o : Option Slot) : Sys L C :=
  { s with plock := update s.plock p o }

def setLock (s : Sys L C) (l : L) (o : Option Slot) : Sys L C :=
  { s with lock := update s.lock l o }

def setState (s : Sys L C) (p : Slot) (st : ProcState) : Sys L C :=
  { s with state := update s.state p st }

def setChan (s : Sys L C) (p : Slot) (c : Option C) : Sys L C :=
  { s with chan := update s.chan p c }

/-- The body of the loop in `wakeup`, under `proc[i].lock`. -/
def rouse (s : Sys L C) (i : Slot) (c : C) : Sys L C :=
  s.setState i (if s.state i = .sleeping ∧ s.chan i = some c then .runnable else s.state i)

/-- The next step of a process inside `sleep`, `wakeup`, `yield` or `forkret`. -/
def runStep (s : Sys L C) (p : Slot) : Option (Sys L C) :=
  match s.pc p with
  | .sleepAcquire c l =>
    if s.plock p = none then some ((s.setPlock p (some p)).setPc p (.sleepRelease c l)) else none
  | .sleepRelease c l => some ((s.setLock l none).setPc p (.sleepMark c l))
  | .sleepMark c l =>
    some (((s.setChan p (some c)).setState p .sleeping).setPc p (.sleepSched c l))
  | .sleepSched c l => some ((s.setPlock p none).setPc p (.sleepOut c l))
  | .sleepTidy c l =>
    some (((s.setChan p none).setPlock p none).setPc p (.sleepReacquire c l))
  | .sleepReacquire _ l =>
    if s.lock l = none then some ((s.setLock l (some p)).setPc p .kernel) else none
  | .yieldAcquire =>
    if s.plock p = none then
      some (((s.setPlock p (some p)).setState p .runnable).setPc p .yieldSched) else none
  | .yieldSched => some ((s.setPlock p none).setPc p .yieldOut)
  | .yieldBack => some ((s.setPlock p none).setPc p .kernel)
  | .forkret => some ((s.setPlock p none).setPc p .kernel)
  | .wakeup c i =>
    if h : i < nproc then
      if (⟨i, h⟩ : Slot) = p then some (s.setPc p (.wakeup c (i + 1)))  -- `p != myproc()`
      else if s.plock ⟨i, h⟩ = none then
        some ((s.setPlock ⟨i, h⟩ (some p)).setPc p (.wakeupHold c ⟨i, h⟩))
      else none
    else some (s.setPc p .kernel)
  | .wakeupHold c i => some (((s.rouse i c).setPlock i none).setPc p (.wakeup c (i + 1)))
  | _ => none

/-- What a scheduler does with a runnable process: `p` resumes where it switched out, holding
`p->lock`. -/
def resume (s : Sys L C) (p : Slot) (pc : Pc L C) : Sys L C :=
  ((s.setPlock p (some p)).setState p .running).setPc p pc

end Sys

open Sys

def next (s : Sys L C) : Act L C → Option (Sys L C)
  | .acquire p l =>
    if s.pc p = .kernel ∧ s.lock l = none then some (s.setLock l (some p)) else none
  | .release p l =>
    if s.pc p = .kernel ∧ s.lock l = some p then some (s.setLock l none) else none
  | .sleep p c l =>
    if s.pc p = .kernel ∧ s.lock l = some p then
      some { s.setPc p (.sleepAcquire c l) with calls := update s.calls p (s.calls p + 1) }
    else none
  | .wakeup p c => if s.pc p = .kernel then some (s.setPc p (.wakeup c 0)) else none
  | .yield p => if s.pc p = .kernel then some (s.setPc p .yieldAcquire) else none
  | .run p => s.runStep p
  | .schedule p =>
    if s.plock p = none ∧ s.state p = .runnable then
      match s.pc p with
      | .sleepOut c l => some (s.resume p (.sleepTidy c l))
      | .yieldOut => some (s.resume p .yieldBack)
      | .fresh => some (s.resume p .forkret)
      | _ => none
    else none
  | .kill p q =>
    if s.pc p = .kernel ∧ s.plock q = none then
      some (s.setState q (if s.state q = .sleeping then .runnable else s.state q)) else none
  | .intr q c => if s.plock q = none then some (s.rouse q c) else none
  | .fork p q =>
    if s.pc p = .kernel ∧ s.plock q = none ∧ s.state q = .unused then
      some ((s.setState q .runnable).setPc q .fresh) else none
  | .exit p l =>
    if s.pc p = .kernel ∧ s.plock p = none ∧ s.lock l = some p then
      some (((s.setState p .zombie).setLock l none).setPc p .off) else none
  | .reap p q =>
    if s.pc p = .kernel ∧ s.plock q = none ∧ s.state q = .zombie then
      some (((s.setState q .unused).setChan q none).setPc q .off) else none

/-! ## What a step can do -/

inductive Step (s : Sys L C) : Act L C → Sys L C → Prop where
  | acquire {p l} (hp : s.pc p = .kernel) (hl : s.lock l = none) :
      Step s (.acquire p l) (s.setLock l (some p))
  | release {p l} (hp : s.pc p = .kernel) (hl : s.lock l = some p) :
      Step s (.release p l) (s.setLock l none)
  | sleep {p c l} (hp : s.pc p = .kernel) (hl : s.lock l = some p) :
      Step s (.sleep p c l) { s.setPc p (.sleepAcquire c l) with
        calls := update s.calls p (s.calls p + 1) }
  | sleepAcquire {p c l} (hp : s.pc p = .sleepAcquire c l) (hl : s.plock p = none) :
      Step s (.run p) ((s.setPlock p (some p)).setPc p (.sleepRelease c l))
  | sleepRelease {p c l} (hp : s.pc p = .sleepRelease c l) :
      Step s (.run p) ((s.setLock l none).setPc p (.sleepMark c l))
  | sleepMark {p c l} (hp : s.pc p = .sleepMark c l) :
      Step s (.run p) (((s.setChan p (some c)).setState p .sleeping).setPc p (.sleepSched c l))
  | sleepSched {p c l} (hp : s.pc p = .sleepSched c l) :
      Step s (.run p) ((s.setPlock p none).setPc p (.sleepOut c l))
  | sleepResume {p c l} (hl : s.plock p = none) (hs : s.state p = .runnable)
      (hp : s.pc p = .sleepOut c l) : Step s (.schedule p) (s.resume p (.sleepTidy c l))
  | sleepTidy {p c l} (hp : s.pc p = .sleepTidy c l) :
      Step s (.run p) (((s.setChan p none).setPlock p none).setPc p (.sleepReacquire c l))
  | sleepReacquire {p c l} (hp : s.pc p = .sleepReacquire c l) (hl : s.lock l = none) :
      Step s (.run p) ((s.setLock l (some p)).setPc p .kernel)
  | wakeup {p c} (hp : s.pc p = .kernel) : Step s (.wakeup p c) (s.setPc p (.wakeup c 0))
  | wakeupSkip {p c} (hp : s.pc p = .wakeup c p.val) :
      Step s (.run p) (s.setPc p (.wakeup c (p.val + 1)))
  | wakeupAcquire {p c} {i : Slot} (hp : s.pc p = .wakeup c i.val) (hi : i ≠ p)
      (hl : s.plock i = none) :
      Step s (.run p) ((s.setPlock i (some p)).setPc p (.wakeupHold c i))
  | wakeupHold {p c i} (hp : s.pc p = .wakeupHold c i) :
      Step s (.run p) (((s.rouse i c).setPlock i none).setPc p (.wakeup c (i + 1)))
  | wakeupReturn {p c i} (hp : s.pc p = .wakeup c i) (hi : nproc ≤ i) :
      Step s (.run p) (s.setPc p .kernel)
  | yield {p} (hp : s.pc p = .kernel) : Step s (.yield p) (s.setPc p .yieldAcquire)
  | yieldAcquire {p} (hp : s.pc p = .yieldAcquire) (hl : s.plock p = none) :
      Step s (.run p) (((s.setPlock p (some p)).setState p .runnable).setPc p .yieldSched)
  | yieldSched {p} (hp : s.pc p = .yieldSched) :
      Step s (.run p) ((s.setPlock p none).setPc p .yieldOut)
  | yieldResume {p} (hl : s.plock p = none) (hs : s.state p = .runnable)
      (hp : s.pc p = .yieldOut) : Step s (.schedule p) (s.resume p .yieldBack)
  | yieldBack {p} (hp : s.pc p = .yieldBack) :
      Step s (.run p) ((s.setPlock p none).setPc p .kernel)
  | firstRun {p} (hl : s.plock p = none) (hs : s.state p = .runnable) (hp : s.pc p = .fresh) :
      Step s (.schedule p) (s.resume p .forkret)
  | forkret {p} (hp : s.pc p = .forkret) :
      Step s (.run p) ((s.setPlock p none).setPc p .kernel)
  | kill {p q} (hp : s.pc p = .kernel) (hl : s.plock q = none) :
      Step s (.kill p q) (s.setState q (if s.state q = .sleeping then .runnable else s.state q))
  | intr {q c} (hl : s.plock q = none) : Step s (.intr q c) (s.rouse q c)
  | fork {p q} (hp : s.pc p = .kernel) (hl : s.plock q = none) (hs : s.state q = .unused) :
      Step s (.fork p q) ((s.setState q .runnable).setPc q .fresh)
  | exit {p l} (hp : s.pc p = .kernel) (hl : s.plock p = none) (hk : s.lock l = some p) :
      Step s (.exit p l) (((s.setState p .zombie).setLock l none).setPc p .off)
  | reap {p q} (hp : s.pc p = .kernel) (hl : s.plock q = none) (hs : s.state q = .zombie) :
      Step s (.reap p q) (((s.setState q .unused).setChan q none).setPc q .off)

theorem step_of_runStep {s t : Sys L C} {p : Slot} (h : s.runStep p = some t) :
    Step s (.run p) t := by
  rw [runStep] at h
  split at h <;> rename_i hp
  case h_11 c i =>
    -- the head of the loop in `wakeup`
    split at h <;> rename_i hi
    · split at h <;> rename_i hip
      · subst hip
        exact some_inj.mp h ▸ .wakeupSkip hp
      · rw [ite_none_right_eq_some, some_inj] at h
        exact h.2 ▸ .wakeupAcquire hp hip h.1
    · exact some_inj.mp h ▸ .wakeupReturn hp (Nat.le_of_not_lt hi)
  all_goals simp only [ite_none_right_eq_some, some_inj, reduceCtorEq] at h
  · exact h.2 ▸ .sleepAcquire hp h.1
  · exact h ▸ .sleepRelease hp
  · exact h ▸ .sleepMark hp
  · exact h ▸ .sleepSched hp
  · exact h ▸ .sleepTidy hp
  · exact h.2 ▸ .sleepReacquire hp h.1
  · exact h.2 ▸ .yieldAcquire hp h.1
  · exact h ▸ .yieldSched hp
  · exact h ▸ .yieldBack hp
  · exact h ▸ .forkret hp
  · exact h ▸ .wakeupHold hp

theorem step_of_next {s t : Sys L C} {a : Act L C} (h : next s a = some t) : Step s a t := by
  cases a with
  | run p => exact step_of_runStep h
  | schedule p =>
    rw [next, ite_none_right_eq_some] at h
    obtain ⟨⟨hl, hs⟩, h⟩ := h
    split at h <;> rename_i hp
    · exact some_inj.mp h ▸ .sleepResume hl hs hp
    · exact some_inj.mp h ▸ .yieldResume hl hs hp
    · exact some_inj.mp h ▸ .firstRun hl hs hp
    · exact absurd h (by simp)
  | _ =>
    simp only [next, ite_none_right_eq_some, some_inj] at h
    obtain ⟨hg, rfl⟩ := h
    constructor <;> simp only [hg]

/-! ## The invariant -/

/-- The lock a process inside `sleep` still holds for its caller. -/
def Pc.entry {L C : Type} : Pc L C → Option L
  | .sleepAcquire _ l | .sleepRelease _ l => some l
  | _ => none

/-- The channel and position of the walk over the process table a process is in, if it is. -/
def Pc.walk {L C : Type} : Pc L C → Option (C × Nat)
  | .wakeup c i => some (c, i)
  | .wakeupHold c i => some (c, i.val)
  | _ => none

/-- `p` is past the release of `l` in `sleep(c, l)` and will be, or is, asleep on `c`. -/
def Sys.Dozing (s : Sys L C) (p : Slot) (c : C) (l : L) : Prop :=
  s.pc p = .sleepMark c l ∨ s.pc p = .sleepSched c l ∨
    s.pc p = .sleepOut c l ∧ s.state p = .sleeping

structure Sys.Inv (s : Sys L C) : Prop where
  /-- `sleep` is entered holding `lk`, and keeps it until it releases it. -/
  entry : ∀ p l, (s.pc p).entry = some l → s.lock l = some p
  /-- From there to the switch, and from the switch back, `p->lock` is the process's own. -/
  owns : ∀ p, (s.pc p).ownsLock = true → s.plock p = some p
  /-- `wakeup` holds the lock of the process it looks at, which is not its caller. -/
  hand : ∀ w c i, s.pc w = .wakeupHold c i → s.plock i = some w ∧ i ≠ w
  /-- Only a call of `sleep` puts a process to sleep, and `p->chan` is its channel. -/
  asleep : ∀ p, s.state p = .sleeping →
    ∃ c l, s.chan p = some c ∧ (s.pc p = .sleepSched c l ∨ s.pc p = .sleepOut c l)
  /-- A process that a walk on `c` under `l` has passed is not asleep in `sleep(c, l)`, nor can it
  fall asleep there before the walk is over. -/
  passed : ∀ w c i l, (s.pc w).walk = some (c, i) → s.lock l = some w →
    ∀ p, p ≠ w → p.val < i → ¬s.Dozing p c l

section Step

variable {s t : Sys L C} {a : Act L C}

omit [DecidableEq L] [DecidableEq C] in
theorem inv_init : (init L C).Inv := by
  have hpc : ∀ p, (init L C).pc p = .off ∨ (init L C).pc p = .fresh := by
    intro p
    by_cases hp : p = 0 <;> simp [init, hp]
  have hstate : ∀ p, (init L C).state p ≠ .sleeping := by
    intro p
    by_cases hp : p = 0 <;> simp [init, hp]
  refine ⟨?_, ?_, ?_, fun p hp => absurd hp (hstate p), ?_⟩
  all_goals
    intro p
    rcases hpc p with hp | hp <;> simp [hp, Pc.entry, Pc.ownsLock, Pc.walk]

section

variable (h : s.Inv) (hs : Step s a t)
include h hs

theorem entry_step {p : Slot} {l : L} (hp : (t.pc p).entry = some l) : t.lock l = some p := by
  have hentry := h.entry
  clear h
  cases hs <;> dsimp only [setPc, setPlock, setLock, setState, setChan, resume, rouse] at * <;>
    grind [update_apply, Pc.entry]

theorem owns_step {p : Slot} (hp : (t.pc p).ownsLock = true) : t.plock p = some p := by
  have howns := h.owns
  have hhand := h.hand
  clear h
  cases hs <;> dsimp only [setPc, setPlock, setLock, setState, setChan, resume, rouse] at * <;>
    grind [update_apply, Pc.ownsLock]

theorem hand_step {w i : Slot} {c : C}
    (hw : t.pc w = .wakeupHold c i) : t.plock i = some w ∧ i ≠ w := by
  have howns := h.owns
  have hhand := h.hand
  clear h
  cases hs <;> dsimp only [setPc, setPlock, setLock, setState, setChan, resume, rouse] at * <;>
    grind [update_apply, Pc.ownsLock]

theorem asleep_step {p : Slot} (hp : t.state p = .sleeping) :
    ∃ c l, t.chan p = some c ∧ (t.pc p = .sleepSched c l ∨ t.pc p = .sleepOut c l) := by
  have hasleep := h.asleep
  clear h
  cases hs with
  | @sleepMark q c l hq =>
    by_cases hpq : p = q
    · exact ⟨c, l, by simp [setPc, setState, setChan, hpq]⟩
    · simp only [setPc, setState, setChan, update_of_ne hpq] at hp ⊢
      exact hasleep p hp
  | _ =>
    dsimp only [setPc, setPlock, setLock, setState, setChan, resume, rouse] at *
    grind [update_apply]

end

section

variable (hs : Step s a t)
include hs

theorem dozing_step {p : Slot} {c : C} {l : L} (hp : t.Dozing p c l) :
    s.Dozing p c l ∨ s.pc p = .sleepRelease c l ∧ t.lock l = none := by
  unfold Dozing at *
  cases hs <;> dsimp only [setPc, setPlock, setLock, setState, setChan, resume, rouse] at * <;>
    grind [update_apply]

theorem lock_of_walk_step {w : Slot} {l : L} {c : C} {i : Nat}
    (hw : (t.pc w).walk = some (c, i)) (hl : t.lock l = some w) : s.lock l = some w := by
  cases hs <;> dsimp only [setPc, setPlock, setLock, setState, setChan, resume, rouse] at * <;>
    grind [update_apply, Pc.walk]

theorem walk_step {w : Slot} {c : C} {i : Nat} (hw : (t.pc w).walk = some (c, i)) :
    (s.pc w).walk = some (c, i) ∨ i = 0 ∨ i = w.val + 1 ∧ (s.pc w).walk = some (c, w.val) ∨
      ∃ j : Slot, i = j.val + 1 ∧ s.pc w = .wakeupHold c j ∧ a = .run w ∧ t.state = (s.rouse j c).state := by
  cases hs <;> dsimp only [setPc, setPlock, setLock, setState, setChan, resume, rouse] at * <;>
    grind [update_apply, Pc.walk]

theorem pc_of_run {p w : Slot} (ha : a = .run w) (hp : p ≠ w) : t.pc p = s.pc p := by
  subst ha
  cases hs <;> exact update_of_ne hp ..

theorem walk_none_step {w : Slot} (hw : (s.pc w).walk = none)
    (ha : ∀ c, a ≠ .wakeup w c) : (t.pc w).walk = none := by
  cases hs <;> dsimp only [setPc, setPlock, setLock, setState, setChan, resume, rouse] at * <;>
    grind [update_apply, Pc.walk]

end

theorem lock_step_of_walk (h : s.Inv) (hs : Step s a t) {w : Slot} {l : L} {x : C × Nat}
    (hw : (s.pc w).walk = some x) (hl : s.lock l = some w) : t.lock l = some w := by
  have hentry := h.entry
  clear h
  cases hs <;> dsimp only [setPc, setPlock, setLock, setState, setChan, resume, rouse] at * <;>
    grind [update_apply, Pc.walk, Pc.entry]

theorem call_step (hs : Step s a t) (p : Slot) :
    s.calls p ≤ t.calls p ∧ (t.calls p = s.calls p →
      (t.pc p).call = none ∨ (t.pc p).call = (s.pc p).call) := by
  cases hs <;> dsimp only [setPc, setPlock, setLock, setState, setChan, resume, rouse] at * <;>
    grind [update_apply, Pc.call]

theorem passed_step (h : s.Inv) (hs : Step s a t) {w : Slot} {c : C} {i : Nat} {l : L}
    (hw : (t.pc w).walk = some (c, i)) (hl : t.lock l = some w) {p : Slot} (hpw : p ≠ w)
    (hpi : p.val < i) : ¬t.Dozing p c l := by
  intro hdoze
  have hl' := lock_of_walk_step hs hw hl
  have hdoze' : s.Dozing p c l := by
    rcases dozing_step hs hdoze with hd | ⟨-, hnone⟩
    · exact hd
    · exact absurd (hl.symm.trans hnone) (by simp)
  rcases walk_step hs hw with hw' | rfl | ⟨rfl, hw'⟩ | ⟨j, rfl, hj, ha, hstate⟩
  · exact h.passed w c i l hw' hl' p hpw hpi hdoze'
  · exact absurd hpi (Nat.not_lt_zero _)
  · have hne : p.val ≠ w.val := fun he => hpw (Fin.ext he)
    exact h.passed w c w.val l hw' hl' p hpw (by omega) hdoze'
  -- `w` has just looked at `proc[j]`
  by_cases hpj : p = j
  · subst hpj
    have hplock := (h.hand w c p hj).1
    have hnot : (s.pc p).ownsLock ≠ true := by
      intro hown
      rw [h.owns p hown, some_inj] at hplock
      exact hpw hplock
    rcases hdoze' with hm | hm | ⟨hm, hsl⟩
    · exact hnot (by rw [hm]; rfl)
    · exact hnot (by rw [hm]; rfl)
    -- the sleeper is switched out, so `w` found it asleep on `c` and made it runnable
    obtain ⟨c', l', hchan, hpc⟩ := h.asleep p hsl
    have hrun : t.state p = .runnable := by
      obtain ⟨rfl, -⟩ : c = c' ∧ l = l' := by simpa [hm] using hpc
      simp [hstate, rouse, setState, hsl, hchan]
    have hpc' := pc_of_run hs ha hpw
    rcases hdoze with hd | hd | ⟨-, hd⟩
    · exact absurd (hpc'.symm.trans hd) (by simp [hm])
    · exact absurd (hpc'.symm.trans hd) (by simp [hm])
    · exact absurd (hrun.symm.trans hd) (by simp)
  · have hne : p.val ≠ j.val := fun he => hpj (Fin.ext he)
    exact h.passed w c j.val l (by rw [hj]; rfl) hl' p hpw (by omega) hdoze'

theorem Sys.Inv.step (h : s.Inv) (hs : Step s a t) : t.Inv where
  entry _ _ := entry_step h hs
  owns _ := owns_step h hs
  hand _ _ _ := hand_step h hs
  asleep _ := asleep_step h hs
  passed _ _ _ _ hw hl _ := passed_step h hs hw hl

end Step

/-! ## No lost wakeup -/

theorem Sys.Inv.run {s t : Sys L C} {as : List (Act L C)} (h : s.Inv)
    (hrun : run next s as = some t) : t.Inv :=
  Reachable.induction ⟨as, hrun⟩ h fun _ _ _ hs hn => hs.step (step_of_next hn)

theorem call_run {s t : Sys L C} (h : Reachable next s t) (p : Slot) :
    s.calls p ≤ t.calls p ∧ (t.calls p = s.calls p →
      (t.pc p).call = none ∨ (t.pc p).call = (s.pc p).call) := by
  refine h.induction (I := fun t => s.calls p ≤ t.calls p ∧ (t.calls p = s.calls p →
    (t.pc p).call = none ∨ (t.pc p).call = (s.pc p).call)) ⟨le_rfl, fun _ => .inr rfl⟩ ?_
  intro m a t ⟨hle, hm⟩ hn
  obtain ⟨hle', ht⟩ := call_step (step_of_next hn) p
  refine ⟨hle.trans hle', fun he => ?_⟩
  rcases ht (by omega) with hnone | heq
  · exact .inl hnone
  · rw [heq]
    exact hm (by omega)

theorem lock_of_walk_run {s t : Sys L C} {as : List (Act L C)} (hs : s.Inv)
    (hrun : run next s as = some t) {w : Slot} {l : L} (hl : s.lock l = some w)
    (honce : ∀ c, .wakeup w c ∉ as) {x : C × Nat} (hw : (t.pc w).walk = some x) :
    t.lock l = some w := by
  have key : t.Inv ∧ ((t.pc w).walk = none ∨ t.lock l = some w) := by
    refine run_induction_of_forall_mem (P := fun a => ∀ c, a ≠ .wakeup w c)
      (I := fun t => t.Inv ∧ ((t.pc w).walk = none ∨ t.lock l = some w)) hrun
      (fun a ha c hc => honce c (hc ▸ ha)) ⟨hs, .inr hl⟩ ?_
    intro s a t ⟨hs, hor⟩ ha hn
    have hstep := step_of_next hn
    refine ⟨hs.step hstep, ?_⟩
    cases hwalk : (s.pc w).walk with
    | none => exact .inl (walk_none_step hstep hwalk ha)
    | some y => exact .inr (lock_step_of_walk hs hstep hwalk (hor.resolve_left (by simp [hwalk])))
  exact key.2.resolve_left (by simp [hw])

/-- **No wakeup is lost.**  In any run, let `S` call `sleep(c, l)`, let `W` later call `wakeup(c)`
while it holds `l`, and let that call of `wakeup` return.  Then `S` is not `SLEEPING`, or only because
it has called `sleep` again since. -/
theorem no_lost_wakeup {s₀ s₁ s₂ s₃ s₄ s₅ : Sys L C} {S W : Slot} {c : C} {l : L}
    {as bs : List (Act L C)} (h₀ : Reachable next (init L C) s₀)
    (hsleep : next s₀ (.sleep S c l) = some s₁) (has : run next s₁ as = some s₂)
    (hheld : s₂.lock l = some W) (hcall : next s₂ (.wakeup W c) = some s₃)
    (hbs : run next s₃ bs = some s₄) (honce : ∀ c', .wakeup W c' ∉ bs)
    (hend : s₄.pc W = .wakeup c nproc) (hret : next s₄ (.run W) = some s₅) :
    ¬(s₅.state S = .sleeping ∧ s₅.calls S = s₁.calls S) := by
  rintro ⟨hasleep, hcalls⟩
  obtain ⟨as₀, h₀⟩ := h₀
  have hinv₁ := (inv_init.run h₀).step (step_of_next hsleep)
  have hinv₃ := (hinv₁.run has).step (step_of_next hcall)
  have hinv₄ := hinv₃.run hbs
  have hs₁ : (s₁.pc S).call = some (c, l) := by
    simp only [next, ite_none_right_eq_some, some_inj] at hsleep
    simp [← hsleep.2, setPc, Pc.call]
  have hs₅ : s₅ = s₄.setPc W .kernel := by
    rw [next, runStep, hend] at hret
    simpa using hret.symm
  have hlock : s₄.lock l = some W := by
    simp only [next, ite_none_right_eq_some, some_inj] at hcall
    refine lock_of_walk_run hinv₃ hbs ?_ honce (x := (c, nproc)) (by rw [hend]; rfl)
    rw [← hcall.2]
    exact hheld
  -- `S` is in the call it made before, so it has released `l` and sleeps on `c`
  obtain ⟨c', l', -, hpc⟩ := (hinv₄.step (step_of_next hret)).asleep S hasleep
  have hreach : Reachable next s₁ s₅ :=
    .trans ⟨as, has⟩ (.trans (.of_next hcall) (.trans ⟨bs, hbs⟩ (.of_next hret)))
  have hsame := (call_run hreach S).2 hcalls
  rw [hs₁] at hsame
  have hdoze : s₅.Dozing S c l := by
    rcases hpc with hpc | hpc
    · obtain ⟨rfl, rfl⟩ : c' = c ∧ l' = l := by simpa [hpc, Pc.call] using hsame
      exact .inr (.inl hpc)
    · obtain ⟨rfl, rfl⟩ : c' = c ∧ l' = l := by simpa [hpc, Pc.call] using hsame
      exact .inr (.inr ⟨hpc, hasleep⟩)
  have hne : S ≠ W := by
    rintro rfl
    simp [hs₅, setPc] at hpc
  refine hinv₄.passed W c nproc l (by rw [hend]; rfl) hlock S hne S.isLt ?_
  simpa [hs₅, Dozing, setPc, hne] using hdoze

/-- Process 0 forks process 1 and sleeps; process 1, holding the lock, finds it asleep and walks
over the whole table. -/
theorem no_lost_wakeup_two : ∃ s₀ s₁ s₂ s₃ s₄ s₅ : Sys Unit Unit,
    Reachable next (init Unit Unit) s₀ ∧ next s₀ (.sleep 0 () ()) = some s₁ ∧
      Reachable next s₁ s₂ ∧ s₂.lock () = some 1 ∧ s₂.state 0 = .sleeping ∧
      next s₂ (.wakeup 1 ()) = some s₃ ∧ run next s₃ (.replicate 127 (.run 1)) = some s₄ ∧
      s₄.pc 1 = .wakeup () nproc ∧ next s₄ (.run 1) = some s₅ ∧
      ¬(s₅.state 0 = .sleeping ∧ s₅.calls 0 = s₁.calls 0) := by
  let as₀ : List (Act Unit Unit) :=
    [.schedule 0, .run 0, .fork 0 1, .schedule 1, .run 1, .acquire 0 ()]
  let as : List (Act Unit Unit) := [.run 0, .run 0, .run 0, .run 0, .acquire 1 ()]
  obtain ⟨s₂, h, hs₂⟩ := (any_eq_true (fun s₂ : Sys Unit Unit =>
      decide (s₂.lock () = some 1 ∧ s₂.state 0 = .sleeping) &&
      (run next s₂ (.wakeup 1 () :: .replicate 127 (.run 1))).any fun s₄ =>
        decide (s₄.pc 1 = .wakeup () nproc) && (next s₄ (.run 1)).isSome)
    (run next (init Unit Unit) (as₀ ++ .sleep 0 () () :: as))).mp (by decide +kernel)
  obtain ⟨s₀, h₀, h⟩ := run_append_eq_some.mp h
  obtain ⟨s₁, h₁, h₂⟩ := run_cons_eq_some.mp h
  rw [Bool.and_eq_true, decide_eq_true_iff, any_eq_true] at hs₂
  obtain ⟨hs₂, s₄, h, hs₄⟩ := hs₂
  obtain ⟨s₃, h₃, h₄⟩ := run_cons_eq_some.mp h
  rw [Bool.and_eq_true, decide_eq_true_iff, Option.isSome_iff_exists] at hs₄
  obtain ⟨hs₄, s₅, h₅⟩ := hs₄
  exact ⟨s₀, s₁, s₂, s₃, s₄, s₅, ⟨as₀, h₀⟩, h₁, ⟨as, h₂⟩, hs₂.1, hs₂.2, h₃, h₄, hs₄, h₅,
    no_lost_wakeup ⟨as₀, h₀⟩ h₁ h₂ hs₂.1 h₃ h₄ (by simp) hs₄ h₅⟩

end Model

end Wakeup

end Xv6
