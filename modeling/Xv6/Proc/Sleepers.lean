import Xv6.Lib.Machine
import Xv6.Proc.State
import Mathlib.Data.Fin.Basic

/-!
# The sleeps that a kill should interrupt

`piperead`, `pipewrite`, `consoleread`, `wait` and `sys_sleep` wait in a loop that asks `killed(p)`
before it calls `sleep`.  The loop runs under a lock of its own (`Call.lock`), but `kill` takes only
`p->lock`, so it can run between the two: `Pc.armed` are these points.

The machine below is made of these five functions and of `kill`.  As elsewhere, a section under a
`p->lock` is one step, and the lock of the loop is part of the state.  What other code does to the
data the loops look at is left open: pipes, console input and the clock change in any way while
their locks are free (`Act.pipe`, `Act.consoleintr`, `Act.clockintr`), and a `wakeup` from elsewhere
may look at any process at any time.
-/

namespace Xv6

open Function (update update_of_ne update_self update_eq_self)
open Option (ite_some_none_eq_some some_inj)

namespace Sleepers

open Machine

/-! ## The machine -/

inductive Lock where
  | pipe (pi : Nat)
  | cons
  | tickslock
  | waitLock
  deriving DecidableEq, Repr

inductive Chan where
  | nread (pi : Nat)
  | nwrite (pi : Nat)
  | cons
  | ticks
  | proc (p : Slot)
  | other (n : Nat)
  deriving DecidableEq, Repr

/-- The fields of `struct proc` that are read here. -/
structure Proc where
  state : ProcState
  parent : Option Slot
  chan : Option Chan
  killed : Bool
  pid : Int

/-- `freeproc`, as far as these fields go. -/
def Proc.freeproc (p : Proc) : Proc :=
  { p with pid := 0, parent := none, chan := none, killed := false, state := .unused }

/-- The body of the loop in `wakeup(chan)`, under `p->lock`. -/
def Proc.rouse (p : Proc) (chan : Chan) : Proc :=
  { p with state := if p.state = .sleeping ∧ p.chan = some chan then .runnable else p.state }

/-- The body of `kill` for the process it has found, under `p->lock`. -/
def Proc.kill (p : Proc) : Proc :=
  { p with killed := true, state := if p.state = .sleeping then .runnable else p.state }

/-- `struct pipe`, without the bytes. -/
structure Pipe where
  nread : UInt32
  nwrite : UInt32
  readopen : Bool
  writeopen : Bool
  deriving DecidableEq, Repr

abbrev pipesize : UInt32 := 512

/-- The part of `cons` that `consoleread` looks at. -/
structure Cons where
  buf : Fin 128 → UInt8
  r : UInt32
  w : UInt32

/-- `cons.buf[cons.r % INPUT_BUF_SIZE]`. -/
def Cons.get (c : Cons) : UInt8 := c.buf ⟨c.r.toNat % 128, Nat.mod_lt _ (by decide)⟩

/-- One of the five functions, with its arguments and the variables that live across a sleep. -/
inductive Call where
  | piperead (pi : Nat) (n : Int)
  | pipewrite (pi : Nat) (n i : Int)
  | consoleread (n target : Int)
  | wait (addr : Nat)
  | sysSleep (n : Int) (ticks0 : UInt32)
  deriving DecidableEq, Repr

namespace Call

def lock : Call → Lock
  | piperead pi _ | pipewrite pi _ _ => .pipe pi
  | consoleread _ _ => .cons
  | wait _ => .waitLock
  | sysSleep _ _ => .tickslock

def chan (p : Slot) : Call → Chan
  | piperead pi _ => .nread pi
  | pipewrite pi _ _ => .nwrite pi
  | consoleread _ _ => .cons
  | wait _ => .proc p
  | sysSleep _ _ => .ticks

end Call

inductive Pc where
  | user
  | blocked
  | killScan (pid : Int) (i : Nat)
  /-- `sys_sleep`: about to acquire `tickslock` and to read `ticks`. -/
  | sleepEnter (n : Int)
  /-- About to acquire the lock of the loop, on entry or at the end of `sleep`. -/
  | acquire (c : Call)
  | test (c : Call)
  | scan (addr : Nat) (havekids : Bool) (i : Nat)
  | killed (c : Call)
  /-- `pipewrite`: not killed, about to see if the pipe is full. -/
  | full (pi : Nat) (n i : Int)
  /-- `pipewrite`: the pipe is full, in `wakeup(&pi->nread)`, about to look at `proc[j]`. -/
  | rouse (pi : Nat) (n i : Int) (j : Nat)
  | sleep (c : Call)
  | asleep (c : Call)
  /-- `piperead`: in the loop that copies, with `i` bytes copied. -/
  | copy (pi : Nat) (n i : Int)
  /-- In the `wakeup(chan)` before the end of the function, about to look at `proc[j]`; `lk` will be
  released and `r` returned. -/
  | done (lk : Lock) (chan : Chan) (r : Int) (j : Nat)
  deriving DecidableEq, Repr

/-- The points at which a process holds one of the locks: a spinlock keeps interrupts off. -/
def Pc.holds : Pc → Bool
  | .test _ | .scan _ _ _ | .killed _ | .full _ _ _ | .rouse _ _ _ _ | .sleep _ | .copy _ _ _
  | .done _ _ _ _ => true
  | _ => false

/-- The points between the test of `killed` and the sleep. -/
def Pc.armed : Pc → Bool
  | .full _ _ _ | .rouse _ _ _ _ | .sleep _ => true
  | _ => false

structure Sys where
  proc : Slot → Proc
  pc : Slot → Pc
  ret : Slot → Int
  lock : Lock → Option Slot
  pipe : Nat → Pipe
  cons : Cons
  ticks : UInt32
  nextpid : Int

namespace Sys

/-- After boot: `initproc`, ready to run. -/
def init : Sys where
  proc := fun p => if p = 0 then ⟨.runnable, none, none, false, 1⟩
    else ⟨.unused, none, none, false, 0⟩
  pc := fun _ => .user
  ret := fun _ => 0
  lock := fun _ => none
  pipe := fun _ => ⟨0, 0, false, false⟩
  cons := ⟨fun _ => 0, 0, 0⟩
  ticks := 0
  nextpid := 2

def setProc (s : Sys) (q : Slot) (x : Proc) : Sys := { s with proc := update s.proc q x }

def goto (s : Sys) (p : Slot) (pc : Pc) : Sys := { s with pc := update s.pc p pc }

def setLock (s : Sys) (l : Lock) (o : Option Slot) : Sys :=
  { s with lock := update s.lock l o }

def setPipe (s : Sys) (pi : Nat) (x : Pipe) : Sys := { s with pipe := update s.pipe pi x }

def sysret (s : Sys) (p : Slot) (r : Int) : Sys :=
  { s with pc := update s.pc p .user, ret := update s.ret p r }

def leave (s : Sys) (p : Slot) (l : Lock) (r : Int) : Sys := (s.setLock l none).sysret p r

/-- `consoleread`, with a byte in the buffer: the rest of the loop's body.  When `ok` is false
`either_copyout` fails. -/
def consume (s : Sys) (p : Slot) (ok : Bool) (n target : Int) : Sys :=
  let c := s.cons.get
  let t := { s with cons := { s.cons with r := s.cons.r + 1 } }
  if c = 4 then  -- `C('D')`, the end of the file; kept for the next call unless it comes first
    (if n < target then { s with cons := { t.cons with r := t.cons.r - 1 } } else t).leave p .cons
      (target - n)
  else if ok = false then t.leave p .cons (target - n)
  else if c = 10 then t.leave p .cons (target - (n - 1))  -- the end of the line
  else t.goto p (.test (.consoleread (n - 1) target))

def test (s : Sys) (p : Slot) (ok : Bool) : Call → Sys
  | .piperead pi n =>
    if (s.pipe pi).nread = (s.pipe pi).nwrite ∧ (s.pipe pi).writeopen = true then
      s.goto p (.killed (.piperead pi n))
    else s.goto p (.copy pi n 0)
  | .pipewrite pi n i =>
    if i < n then
      if (s.pipe pi).readopen = false then s.leave p (.pipe pi) (-1)
      else s.goto p (.killed (.pipewrite pi n i))
    else s.goto p (.done (.pipe pi) (.nread pi) i 0)
  | .consoleread n target =>
    if 0 < n then
      if s.cons.r = s.cons.w then s.goto p (.killed (.consoleread n target))
      else s.consume p ok n target
    else s.leave p .cons (target - n)
  | .wait addr => s.goto p (.scan addr false 0)
  | .sysSleep n ticks0 =>
    -- an unsigned comparison
    if s.ticks - ticks0 < UInt32.ofInt n then s.goto p (.killed (.sysSleep n ticks0))
    else s.leave p .tickslock 0

/-- `pipewrite`, neither killed nor without a reader: the rest of the loop's body.  When `ok` is
false `copyin` fails. -/
def write (s : Sys) (p : Slot) (ok : Bool) (pi : Nat) (n i : Int) : Sys :=
  let x := s.pipe pi
  if x.nwrite = x.nread + pipesize then s.goto p (.rouse pi n i 0)
  else if ok then
    (s.setPipe pi { x with nwrite := x.nwrite + 1 }).goto p (.test (.pipewrite pi n (i + 1)))
  else s.goto p (.done (.pipe pi) (.nread pi) i 0)

/-- `piperead`: the loop that copies, once around.  When `ok` is false `copyout` fails. -/
def copy (s : Sys) (p : Slot) (ok : Bool) (pi : Nat) (n i : Int) : Sys :=
  let x := s.pipe pi
  if i < n ∧ x.nread ≠ x.nwrite then
    (s.setPipe pi { x with nread := x.nread + 1 }).goto p
      (if ok then .copy pi n (i + 1) else .done (.pipe pi) (.nwrite pi) i 0)
  else s.goto p (.done (.pipe pi) (.nwrite pi) i 0)

/-- `wait`, having found the exited child `q`.  When `ok` is false `copyout` fails. -/
def reap (s : Sys) (p q : Slot) (addr : Nat) (ok : Bool) : Sys :=
  if addr ≠ 0 ∧ ok = false then s.leave p .waitLock (-1)
  else (s.setProc q (s.proc q).freeproc).leave p .waitLock (s.proc q).pid

/-- `sleep`, from `acquire(&p->lock)` to the switch. -/
def sleep (s : Sys) (p : Slot) (c : Call) : Sys :=
  ((s.setLock c.lock none).setProc p { s.proc p with
    chan := some (c.chan p), state := .sleeping }).goto p (.asleep c)

/-- The next step of a process inside a system call.  `ok` says whether the memory operations of
the step succeed. -/
def step (s : Sys) (p : Slot) (ok : Bool) : Option Sys :=
  match s.pc p with
  | .killScan pid i =>
    if h : i < nproc then
      if (s.proc ⟨i, h⟩).pid = pid then
        some ((s.setProc ⟨i, h⟩ (s.proc ⟨i, h⟩).kill).sysret p 0)
      else some (s.goto p (.killScan pid (i + 1)))
    else some (s.sysret p (-1))
  | .sleepEnter n =>
    if s.lock .tickslock = none then
      some ((s.setLock .tickslock (some p)).goto p (.test (.sysSleep n s.ticks)))
    else none
  | .acquire c =>
    if s.lock c.lock = none then some ((s.setLock c.lock (some p)).goto p (.test c)) else none
  | .test c => some (s.test p ok c)
  | .scan addr havekids i =>
    if h : i < nproc then
      if (s.proc ⟨i, h⟩).parent = some p then
        if (s.proc ⟨i, h⟩).state = .zombie then some (s.reap p ⟨i, h⟩ addr ok)
        else some (s.goto p (.scan addr true (i + 1)))
      else some (s.goto p (.scan addr havekids (i + 1)))
    else if havekids then some (s.goto p (.killed (.wait addr)))
    else some (s.leave p .waitLock (-1))
  | .killed c =>
    if (s.proc p).killed then some (s.leave p c.lock (-1))
    else match c with
      | .pipewrite pi n i => some (s.goto p (.full pi n i))
      | c => some (s.goto p (.sleep c))
  | .full pi n i => some (s.write p ok pi n i)
  | .rouse pi n i j =>
    if h : j < nproc then
      if (⟨j, h⟩ : Slot) = p then some (s.goto p (.rouse pi n i (j + 1)))
      else some ((s.setProc ⟨j, h⟩ ((s.proc ⟨j, h⟩).rouse (.nread pi))).goto p
        (.rouse pi n i (j + 1)))
    else some (s.goto p (.sleep (.pipewrite pi n i)))
  | .sleep c => some (s.sleep p c)
  | .copy pi n i => some (s.copy p ok pi n i)
  | .done lk chan r j =>
    if h : j < nproc then
      if (⟨j, h⟩ : Slot) = p then some (s.goto p (.done lk chan r (j + 1)))
      else some ((s.setProc ⟨j, h⟩ ((s.proc ⟨j, h⟩).rouse chan)).goto p (.done lk chan r (j + 1)))
    else some (s.leave p lk r)
  | .user | .blocked | .asleep _ => none

/-- What a scheduler does with the runnable process `p`.  One that was asleep runs to the end of
the section in `sleep` that clears `p->chan`. -/
def resume (s : Sys) (p : Slot) : Sys :=
  match s.pc p with
  | .asleep c =>
    (s.setProc p { s.proc p with state := .running, chan := none }).goto p (.acquire c)
  | .blocked => (s.setProc p { s.proc p with state := .running, chan := none }).goto p .user
  | _ => s.setProc p { s.proc p with state := .running }

end Sys

inductive Act where
  | piperead (p : Slot) (pi : Nat) (n : Int)
  | pipewrite (p : Slot) (pi : Nat) (n : Int)
  | consoleread (p : Slot) (n : Int)
  | wait (p : Slot) (addr : Nat)
  | sysSleep (p : Slot) (n : Int)
  | kill (p : Slot) (pid : Int)
  | step (p : Slot) (ok : Bool)
  | yield (p : Slot)
  | schedule (p : Slot)
  | block (p : Slot) (n : Nat)
  | wakeup (q : Slot) (chan : Chan)
  | setkilled (p : Slot)
  | fork (p q : Slot)
  /-- `p` exits: its children go to `initproc`, and it becomes a zombie. -/
  | exit (p : Slot)
  | pipe (pi : Nat) (x : Pipe)
  | consoleintr (x : Cons)
  | clockintr

/-- `p` is executing outside the functions above. -/
def Sys.Ready (s : Sys) (p : Slot) : Prop := (s.proc p).state = .running ∧ s.pc p = .user

instance (s : Sys) (p : Slot) : Decidable (s.Ready p) := inferInstanceAs (Decidable (_ ∧ _))

def next (s : Sys) : Act → Option Sys
  | .piperead p pi n => if s.Ready p then some (s.goto p (.acquire (.piperead pi n))) else none
  | .pipewrite p pi n => if s.Ready p then some (s.goto p (.acquire (.pipewrite pi n 0))) else none
  | .consoleread p n => if s.Ready p then some (s.goto p (.acquire (.consoleread n n))) else none
  | .wait p addr => if s.Ready p then some (s.goto p (.acquire (.wait addr))) else none
  | .sysSleep p n => if s.Ready p then some (s.goto p (.sleepEnter n)) else none
  | .kill p pid => if s.Ready p then some (s.goto p (.killScan pid 0)) else none
  | .step p ok => if (s.proc p).state = .running then s.step p ok else none
  | .yield p =>
    if (s.proc p).state = .running ∧ (s.pc p).holds = false then
      some (s.setProc p { s.proc p with state := .runnable }) else none
  | .schedule p => if (s.proc p).state = .runnable then some (s.resume p) else none
  | .block p n =>
    if s.Ready p then
      some ((s.setProc p { s.proc p with chan := some (.other n), state := .sleeping }).goto p
        .blocked)
    else none
  | .wakeup q chan => some (s.setProc q ((s.proc q).rouse chan))
  | .setkilled p => if s.Ready p then some (s.setProc p { s.proc p with killed := true }) else none
  | .fork p q =>
    if s.Ready p ∧ (s.proc q).state = .unused then
      some { (s.setProc q { s.proc q with
        pid := s.nextpid, parent := some p, state := .runnable }).goto q .user with
          nextpid := int32 (s.nextpid + 1) }
    else none
  | .exit p =>
    if s.Ready p ∧ p ≠ 0 ∧ s.lock .waitLock = none then
      some { s with proc := fun q =>
        { s.proc q with
          parent := if (s.proc q).parent = some p then some 0 else (s.proc q).parent
          state := if q = p then .zombie else (s.proc q).state } }
    else none
  | .pipe pi x => if s.lock (.pipe pi) = none then some (s.setPipe pi x) else none
  | .consoleintr x => if s.lock .cons = none then some { s with cons := x } else none
  | .clockintr => if s.lock .tickslock = none then some { s with ticks := s.ticks + 1 } else none

/-! ## What a step can do to a process -/

/-- `p` is asleep in one of the five loops although it has been killed. -/
def Sys.SleepsThrough (s : Sys) (p : Slot) : Prop :=
  (∃ c, s.pc p = .asleep c) ∧ (s.proc p).state = .sleeping ∧ (s.proc p).killed = true

/-- The points outside the window and outside the sleep. -/
def Pc.away : Pc → Bool
  | .full _ _ _ | .rouse _ _ _ _ | .sleep _ | .asleep _ => false
  | _ => true

inductive Effect (x : Proc) (pc : Pc) (x' : Proc) (pc' : Pc) : Prop where
  | away (h : pc'.away = true)
  /-- It has not been killed: it has tested so itself, or there is no process any more. -/
  | live (h : x'.killed = false)
  | on (h : pc.armed = true) (hk : x'.killed = x.killed)
  | stay (h : pc' = pc) (hk : x'.killed = x.killed)
      (hs : x'.state = .sleeping → x.state = .sleeping)
  | kill (h : pc' = pc) (ha : pc.armed = false) (hs : x'.state ≠ .sleeping)

def Safe (x : Proc) (pc : Pc) : Prop :=
  (pc.armed = true → x.killed = false) ∧
    ∀ c, pc = .asleep c → x.state = .sleeping → x.killed = false

theorem Effect.safe {x x' : Proc} {pc pc' : Pc} (h : Safe x pc) (he : Effect x pc x' pc') :
    Safe x' pc' := by
  cases he with
  | away ha =>
    refine ⟨fun harm => ?_, fun c hc => ?_⟩
    · cases pc' <;>
        first | exact absurd harm Bool.false_ne_true | exact absurd ha Bool.false_ne_true
    · subst hc
      exact absurd ha Bool.false_ne_true
  | live hk => exact ⟨fun _ => hk, fun _ _ _ => hk⟩
  | on harm hk => exact ⟨fun _ => hk.trans (h.1 harm), fun _ _ _ => hk.trans (h.1 harm)⟩
  | stay hpc hk hs =>
    subst hpc
    exact ⟨fun harm => hk.trans (h.1 harm), fun c hc hsl => hk.trans (h.2 c hc (hs hsl))⟩
  | kill hpc harm hs =>
    subst hpc
    exact ⟨fun ha => absurd (ha.symm.trans harm) (by simp), fun _ _ hsl => absurd hsl hs⟩

theorem Effect.refl (x : Proc) (pc : Pc) : Effect x pc x pc := .stay rfl rfl id

theorem Effect.rouse (x : Proc) (pc : Pc) (chan : Chan) : Effect x pc (x.rouse chan) pc := by
  refine .stay rfl rfl fun h => ?_
  rw [Proc.rouse] at h
  dsimp only at h
  split at h
  · exact absurd h (by simp)
  · exact h

section Step

variable {s t : Sys} {p q : Slot} {x : Proc} {pc : Pc} {ok : Bool}

def Effects (s t : Sys) : Prop := ∀ r, Effect (s.proc r) (s.pc r) (t.proc r) (t.pc r)

theorem effects_of_update (hproc : t.proc = update s.proc q x)
    (hpc : t.pc = update s.pc p pc)
    (hp : Effect (s.proc p) (s.pc p) (update s.proc q x p) pc)
    (hq : q ≠ p → Effect (s.proc q) (s.pc q) x (s.pc q)) : Effects s t := by
  intro r
  rw [hproc, hpc]
  by_cases hrp : r = p
  · subst hrp
    rw [update_self]
    exact hp
  · rw [update_of_ne hrp]
    by_cases hrq : r = q
    · subst hrq
      rw [update_self]
      exact hq hrp
    · rw [update_of_ne hrq]
      exact .refl _ _

theorem effects_of_move (hproc : t.proc = s.proc) (hpc : t.pc = update s.pc p pc)
    (hp : Effect (s.proc p) (s.pc p) (s.proc p) pc) : Effects s t :=
  effects_of_update (hproc.trans (update_eq_self p s.proc).symm) hpc
    (by rwa [update_eq_self]) fun hne => absurd rfl hne

theorem effects_of_change (hproc : t.proc = update s.proc q x) (hpc : t.pc = s.pc)
    (hq : Effect (s.proc q) (s.pc q) x (s.pc q)) : Effects s t :=
  effects_of_update hproc (hpc.trans (update_eq_self q s.pc).symm)
    (by rwa [update_self]) fun hne => absurd rfl hne

/-- The step only moves `p`, to a point outside the window. -/
def Moves (s t : Sys) (p : Slot) : Prop :=
  t.proc = s.proc ∧ ∃ pc : Pc, pc.away = true ∧ t.pc = update s.pc p pc

theorem Moves.effects (h : Moves s t p) : Effects s t := by
  obtain ⟨hproc, pc, haway, hpc⟩ := h
  exact effects_of_move hproc hpc (.away haway)

theorem moves_leave (l : Lock) (r : Int) : Moves s (s.leave p l r) p := ⟨rfl, .user, rfl, rfl⟩

theorem moves_goto (h : pc.away = true) : Moves s (s.goto p pc) p := ⟨rfl, pc, h, rfl⟩

theorem moves_consume (n target : Int) : Moves s (s.consume p ok n target) p := by
  rw [Sys.consume]
  dsimp only
  split
  · split
    · exact ⟨rfl, _, rfl, rfl⟩
    · exact ⟨rfl, _, rfl, rfl⟩
  · split
    · exact ⟨rfl, _, rfl, rfl⟩
    · split
      · exact ⟨rfl, _, rfl, rfl⟩
      · exact ⟨rfl, _, rfl, rfl⟩

theorem moves_test (c : Call) : Moves s (s.test p ok c) p := by
  cases c with
  | piperead pi n =>
    rw [Sys.test]
    split
    · exact moves_goto rfl
    · exact moves_goto rfl
  | pipewrite pi n i =>
    rw [Sys.test]
    split
    · split
      · exact moves_leave ..
      · exact moves_goto rfl
    · exact moves_goto rfl
  | consoleread n target =>
    rw [Sys.test]
    split
    · split
      · exact moves_goto rfl
      · exact moves_consume n target
    · exact moves_leave ..
  | wait addr => exact moves_goto rfl
  | sysSleep n ticks0 =>
    rw [Sys.test]
    split
    · exact moves_goto rfl
    · exact moves_leave ..

theorem moves_copy (pi : Nat) (n i : Int) : Moves s (s.copy p ok pi n i) p := by
  rw [Sys.copy]
  split
  · exact ⟨rfl, _, by split <;> rfl, rfl⟩
  · exact moves_goto rfl

theorem effects_write {pi : Nat} {n i : Int} (hp : s.pc p = .full pi n i) :
    Effects s (s.write p ok pi n i) := by
  rw [Sys.write]
  split
  · exact effects_of_move rfl rfl (.on (by rw [hp]; rfl) rfl)
  · split
    · exact Moves.effects ⟨rfl, _, rfl, rfl⟩
    · exact (moves_goto rfl).effects

theorem effects_reap (addr : Nat) : Effects s (s.reap p q addr ok) := by
  rw [Sys.reap]
  split
  · exact (moves_leave ..).effects
  · exact effects_of_update rfl rfl (.away rfl) fun _ => .live rfl

theorem effects_sleep {c : Call} (hp : s.pc p = .sleep c) : Effects s (s.sleep p c) :=
  effects_of_update rfl rfl (.on (by rw [hp]; rfl) (by rw [update_self]))
    fun hne => absurd rfl hne

theorem effects_rouse (chan : Chan) (hq : q ≠ p) (hp : pc.away = true ∨ (s.pc p).armed = true) :
    Effects s ((s.setProc q ((s.proc q).rouse chan)).goto p pc) := by
  refine effects_of_update rfl rfl ?_ fun _ => .rouse ..
  rw [update_of_ne hq.symm]
  rcases hp with hp | hp
  · exact .away hp
  · exact .on hp rfl

theorem effects_kill (hq : (s.pc q).armed = false) :
    Effects s ((s.setProc q (s.proc q).kill).sysret p 0) := by
  refine effects_of_update rfl rfl (.away rfl) fun _ => .kill rfl hq ?_
  rw [Proc.kill]
  dsimp only
  split
  · simp
  · assumption

/-- `kill` does not find its process in the window. -/
def Careful (s : Sys) : Act → Prop
  | .step p _ => ∀ q : Slot, s.pc p = .killScan (s.proc q).pid q → (s.pc q).armed = false
  | _ => True

instance (s : Sys) (a : Act) : Decidable (Careful s a) :=
  match a with
  | .step _ _ => inferInstanceAs (Decidable (∀ _ : Slot, _ → _))
  | .piperead .. | .pipewrite .. | .consoleread .. | .wait .. | .sysSleep .. | .kill .. | .yield _
  | .schedule _ | .block .. | .wakeup .. | .setkilled _ | .fork .. | .exit _ | .pipe ..
  | .consoleintr _ | .clockintr => isTrue trivial

theorem effects_step (hc : Careful s (.step p ok)) (h : s.step p ok = some t) : Effects s t := by
  rw [Sys.step] at h
  split at h <;> rename_i hp
  · -- `kill`
    split at h
    · split at h
      · subst_vars
        exact some_inj.mp h ▸ effects_kill (hc _ hp)
      · exact some_inj.mp h ▸ (moves_goto rfl).effects
    · exact some_inj.mp h ▸ Moves.effects ⟨rfl, _, rfl, rfl⟩
  · -- `sys_sleep`, on entry
    obtain ⟨-, rfl⟩ := ite_some_none_eq_some.mp h
    exact Moves.effects ⟨rfl, _, rfl, rfl⟩
  · obtain ⟨-, rfl⟩ := ite_some_none_eq_some.mp h
    exact Moves.effects ⟨rfl, _, rfl, rfl⟩
  · exact some_inj.mp h ▸ (moves_test _).effects
  · -- `wait`
    split at h
    · split at h
      · split at h
        · exact some_inj.mp h ▸ effects_reap _
        · exact some_inj.mp h ▸ (moves_goto rfl).effects
      · exact some_inj.mp h ▸ (moves_goto rfl).effects
    · split at h
      · exact some_inj.mp h ▸ (moves_goto rfl).effects
      · exact some_inj.mp h ▸ (moves_leave ..).effects
  · -- the test
    split at h <;> rename_i hk
    · exact some_inj.mp h ▸ (moves_leave ..).effects
    · have hlive := Bool.eq_false_iff.mpr hk
      split at h
      · exact some_inj.mp h ▸ effects_of_move rfl rfl (.live hlive)
      · exact some_inj.mp h ▸ effects_of_move rfl rfl (.live hlive)
  · exact some_inj.mp h ▸ effects_write hp
  · -- the `wakeup` of `pipewrite` before it sleeps
    have harm : (s.pc p).armed = true := by rw [hp]; rfl
    split at h
    · split at h
      · exact some_inj.mp h ▸ effects_of_move rfl rfl (.on harm rfl)
      · exact some_inj.mp h ▸ effects_rouse _ ‹_› (.inr harm)
    · exact some_inj.mp h ▸ effects_of_move rfl rfl (.on harm rfl)
  · exact some_inj.mp h ▸ effects_sleep hp
  · exact some_inj.mp h ▸ (moves_copy ..).effects
  · -- the last `wakeup`
    split at h
    · split at h
      · exact some_inj.mp h ▸ (moves_goto rfl).effects
      · exact some_inj.mp h ▸ effects_rouse _ ‹_› (.inl rfl)
    · exact some_inj.mp h ▸ (moves_leave ..).effects
  all_goals exact absurd h (by simp)

theorem effects_resume : Effects s (s.resume p) := by
  have hrun : ∀ {x : Proc}, x.killed = (s.proc p).killed → x.state = .running →
      Effect (s.proc p) (s.pc p) x (s.pc p) := fun hk hs =>
    .stay rfl hk fun h => absurd (hs.symm.trans h) (by simp)
  rw [Sys.resume]
  split
  · exact effects_of_update rfl rfl (.away rfl) fun hne => absurd rfl hne
  · exact effects_of_update rfl rfl (.away rfl) fun hne => absurd rfl hne
  · exact effects_of_change rfl rfl (hrun rfl rfl)

theorem effects_of_next {a : Act} (hc : Careful s a) (h : next s a = some t) : Effects s t := by
  cases a with
  | step p ok => exact effects_step hc (Option.ite_none_right_eq_some.mp h).2
  | schedule p =>
    obtain ⟨-, rfl⟩ := ite_some_none_eq_some.mp h
    exact effects_resume
  | yield p =>
    obtain ⟨-, rfl⟩ := ite_some_none_eq_some.mp h
    exact effects_of_change rfl rfl (.stay rfl rfl fun h => absurd h (by simp))
  | block p n =>
    obtain ⟨-, rfl⟩ := ite_some_none_eq_some.mp h
    exact effects_of_update rfl rfl (.away rfl) fun hne => absurd rfl hne
  | wakeup q chan =>
    cases h
    exact effects_of_change rfl rfl (.rouse ..)
  | setkilled p =>
    obtain ⟨hr, rfl⟩ := ite_some_none_eq_some.mp h
    exact effects_of_change rfl rfl (.away (by rw [hr.2]; rfl))
  | fork p q =>
    obtain ⟨-, rfl⟩ := ite_some_none_eq_some.mp h
    exact effects_of_update rfl rfl (.away rfl) fun hne => absurd rfl hne
  | exit p =>
    obtain ⟨-, rfl⟩ := ite_some_none_eq_some.mp h
    refine fun r => .stay rfl rfl fun hs => ?_
    dsimp only at hs
    split at hs
    · exact absurd hs (by simp)
    · exact hs
  | pipe | consoleintr | clockintr =>
    obtain ⟨-, rfl⟩ := ite_some_none_eq_some.mp h
    exact fun r => .refl _ _
  | _ =>
    obtain ⟨-, rfl⟩ := ite_some_none_eq_some.mp h
    exact (moves_goto rfl).effects

end Step

/-! ## Whole runs -/

theorem safe_of_run {s : Sys} {as : List Act} (hrun : run next .init as = some s)
    (hc : Along next Careful .init as) (p : Slot) : Safe (s.proc p) (s.pc p) := by
  revert p
  refine run_induction hrun hc (fun p => ?_) fun s a t hs ha hn p =>
    (effects_of_next ha hn p).safe (hs p)
  exact ⟨fun h => absurd h Bool.false_ne_true, fun _ h => absurd h (by simp [Sys.init])⟩

/-- **A kill is not slept through**, in every run in which no `kill` finds its process between the
test of `killed` and the sleep. -/
theorem kill_wakes {s : Sys} {as : List Act} (hrun : run next .init as = some s)
    (hc : Along next Careful .init as) (p : Slot) : ¬s.SleepsThrough p := by
  rintro ⟨⟨c, hpc⟩, hs, hk⟩
  exact absurd (((safe_of_run hrun hc p).2 c hpc hs).symm.trans hk) (by simp)

/-! ## Kills that are slept through -/

inductive Sleeper where
  | piperead
  | pipewrite
  | consoleread
  | wait
  | sysSleep
  deriving DecidableEq, Repr

def Call.sleeper : Call → Sleeper
  | piperead _ _ => .piperead
  | pipewrite _ _ _ => .pipewrite
  | consoleread _ _ => .consoleread
  | wait _ => .wait
  | sysSleep _ _ => .sysSleep

/-- Process 1 calls the function and passes the test; then process 0 runs `f`; then process 1 goes
on until it sleeps. -/
def around (f : List Act) (k : Sleeper) : List Act :=
  let steps (n : Nat) : List Act := .replicate n (.step 1 true)
  [.schedule 0, .fork 0 1, .schedule 1] ++ match k with
  | .piperead => [.pipe 0 ⟨0, 0, true, true⟩, .piperead 1 0 1] ++ steps 3 ++ f ++ steps 1
  | .pipewrite => [.pipe 0 ⟨0, 512, true, true⟩, .pipewrite 1 0 1] ++ steps 3 ++ f ++ steps 67
  | .consoleread => [.consoleread 1 1] ++ steps 3 ++ f ++ steps 1
  | .wait => [.fork 1 2, .wait 1 0] ++ steps 68 ++ f ++ steps 1
  | .sysSleep => [.sysSleep 1 1] ++ steps 3 ++ f ++ steps 1

/-- The other process kills process 1, which has pid 2. -/
def strike : List Act := [.kill 0 2, .step 0 true, .step 0 true]

def Pc.sleepsIn (k : Sleeper) : Pc → Bool
  | .asleep c => c.sleeper = k
  | _ => false

/-- Each of the five sleeps through a kill that comes between its test and its sleep. -/
theorem sleptThrough (k : Sleeper) : ∃ s c, run next .init (around strike k) = some s ∧
    s.pc 1 = .asleep c ∧ c.sleeper = k ∧ s.SleepsThrough 1 := by
  obtain ⟨s, hs, hin, hsl, hk⟩ : ∃ s, run next .init (around strike k) = some s ∧
      (s.pc 1).sleepsIn k = true ∧ (s.proc 1).state = .sleeping ∧ (s.proc 1).killed = true := by
    cases k <;> decide +kernel
  cases hpc : s.pc 1 with
  | asleep c =>
    rw [hpc] at hin
    exact ⟨s, c, hs, hpc, of_decide_eq_true hin, ⟨c, hpc⟩, hsl, hk⟩
  | _ =>
    rw [hpc] at hin
    exact absurd hin (by simp [Pc.sleepsIn])

theorem not_kill_wakes : ¬∀ (as : List Act) (s : Sys), run next .init as = some s →
    ∀ p, ¬s.SleepsThrough p := by
  intro h
  obtain ⟨s, _, hs, _, _, hthrough⟩ := sleptThrough .piperead
  exact h _ s hs 1 hthrough

/-- A reader that is killed while it is asleep. -/
theorem kill_wakes_piperead : ∃ s, run next .init (around [] .piperead ++ strike) = some s ∧
    (s.proc 1).killed = true ∧ ¬s.SleepsThrough 1 := by
  obtain ⟨s, hs, hk⟩ : ∃ s, run next .init (around [] .piperead ++ strike) = some s ∧
      (s.proc 1).killed = true := by decide +kernel
  exact ⟨s, hs, hk, kill_wakes hs (by decide +kernel) 1⟩

end Sleepers

end Xv6
