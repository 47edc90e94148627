import Xv6.Lib.Machine
import Xv6.Proc.State
import Mathlib.Data.Fin.Basic
import Mathlib.Data.Int.ModEq

/-!
# The process table

`fork`, `exit`, `wait` and `kill` work on one table of processes under two kinds of locks: each
`p->lock` protects the fields of one process, and `wait_lock` protects the `parent` links.  A section
under a `p->lock` is one step; `wait_lock` is held over many such sections, so it is part of the state
and its holder's loops are taken apart, one step for every slot they look at.

A process takes its steps only while it is `RUNNING`; it may be preempted between any two of them
unless it holds `wait_lock`, because a spinlock keeps interrupts off.  Sleeping elsewhere in the kernel
is there too (`Pc.blocked`), since `wakeup` and `kill` look at all sleepers alike.

Four history variables ride along, which no step reads.
-/

namespace Xv6

open Function (update update_of_ne update_self)
open Option (ite_none_right_eq_some some_inj)

namespace Table

inductive Chan where
  /-- The address of a slot of the process table, used by `wait`. -/
  | proc (p : Slot)
  | other (n : Nat)
  deriving DecidableEq, Repr

/-- The fields of `struct proc` that the process functions read. -/
structure Proc where
  state : ProcState
  parent : Option Slot
  chan : Option Chan
  killed : Bool
  xstate : Int
  pid : Int
  uid : Nat

/-- `freeproc`, as far as these fields go. -/
def Proc.freeproc (p : Proc) : Proc :=
  { p with pid := 0, parent := none, chan := none, killed := false, xstate := 0, state := .unused }

/-- The body of the loop in `wakeup(chan)`, under `p->lock`; `none` is a null channel. -/
def Proc.rouse (p : Proc) (chan : Option Chan) : Proc :=
  { p with state := if p.state = .sleeping ∧ p.chan = chan then .runnable else p.state }

inductive Pc where
  /-- Running outside the functions below.  This is also where the next process of a slot that is
  not executing will start. -/
  | user
  | blocked
  | forkScan (i : Nat)
  /-- `fork`: child allocated, about to take `wait_lock` and set its parent. -/
  | forkParent (np : Slot) (pid : Int)
  | forkRun (np : Slot) (pid : Int)
  | killScan (pid : Int) (i : Nat)
  | exitAcquire (status : Int)
  | reparent (status : Int) (i : Nat)
  /-- `exit`: in `reparent`, child `i` passed on; in `wakeup(initproc)`, about to look at
  `proc[j]`. -/
  | wakeInit (status : Int) (i j : Nat)
  /-- `exit`: in `wakeup(p->parent)`, about to look at `proc[j]`. -/
  | wakeParent (status : Int) (parent : Option Slot) (j : Nat)
  /-- `wait`: about to acquire `wait_lock`, on entry or after a sleep. -/
  | waitAcquire (addr : Nat)
  | waitScan (addr : Nat) (havekids : Bool) (i : Nat)
  | waitKilled (addr : Nat)
  | waitSleep (addr : Nat)
  | waitAsleep (addr : Nat)
  deriving DecidableEq, Repr

def Pc.holds : Pc → Bool
  | .reparent _ _ | .wakeInit _ _ _ | .wakeParent _ _ _ | .waitScan _ _ _ | .waitKilled _
  | .waitSleep _ => true
  | _ => false

/-- An exited process: its allocation number, its pid and its exit status. -/
structure Exit where
  uid : Nat
  pid : Int
  status : Int
  deriving DecidableEq, Repr

structure Sys where
  proc : Slot → Proc
  pc : Slot → Pc
  /-- What the last call of each process returned; `none` stands for `-1`. -/
  ret : Slot → Option Int
  waitLock : Option Slot
  nextpid : Int
  panic : Option Panic
  allocs : Nat
  exits : List Exit
  /-- History: the pids and exit statuses that `wait` has handed out. -/
  reaped : List Exit

/-- `initproc`: the first slot `allocproc` finds, in `userinit`. -/
abbrev initproc : Slot := 0

namespace Sys

/-- The table after `procinit` and `userinit`. -/
def init : Sys where
  proc := fun p => if p = initproc
    then ⟨.runnable, none, none, false, 0, 1, 1⟩
    else ⟨.unused, none, none, false, 0, 0, 0⟩
  pc := fun _ => .user
  ret := fun _ => none
  waitLock := none
  nextpid := 2
  panic := none
  allocs := 1
  exits := []
  reaped := []

def setProc (s : Sys) (q : Slot) (x : Proc) : Sys := { s with proc := update s.proc q x }

def goto (s : Sys) (p : Slot) (pc : Pc) : Sys := { s with pc := update s.pc p pc }

def sysret (s : Sys) (p : Slot) (r : Option Int) : Sys :=
  { s with pc := update s.pc p .user, ret := update s.ret p r }

/-- `fork`, from the moment `allocproc` has found the free slot `q` to `release(&np->lock)`.  When
`ok` is false one of the allocations in between fails. -/
def forkAlloc (s : Sys) (p q : Slot) (ok : Bool) : Sys :=
  let np := { s.proc q with pid := s.nextpid, state := .used, uid := s.allocs + 1 }
  let s := { s with nextpid := int32 (s.nextpid + 1), allocs := s.allocs + 1 }
  if ok then (s.setProc q np).goto p (.forkParent q np.pid)
  else (s.setProc q np.freeproc).sysret p none

/-- `wait`, having found the exited child `q`.  When `ok` is false `copyout` fails. -/
def waitReap (s : Sys) (p q : Slot) (addr : Nat) (ok : Bool) : Sys :=
  let pp := s.proc q
  let s := { s with waitLock := none }
  if addr ≠ 0 ∧ ok = false then s.sysret p none
  else { (s.setProc q pp.freeproc).sysret p (some pp.pid) with
    reaped := ⟨pp.uid, pp.pid, pp.xstate⟩ :: s.reaped }

/-- `exit`, from `acquire(&p->lock)` to the switch. -/
def exitZombie (s : Sys) (p : Slot) (status : Int) : Sys :=
  let s := { s with
    waitLock := none
    exits := ⟨(s.proc p).uid, (s.proc p).pid, status⟩ :: s.exits }
  (s.setProc p { s.proc p with xstate := status, state := .zombie }).goto p .user

/-- The next step of a process inside `fork`, `kill`, `exit` or `wait`.  `ok` says whether the
memory operations of the step succeed. -/
def step (s : Sys) (p : Slot) (ok : Bool) : Option Sys :=
  match s.pc p with
  | .forkScan i =>
    if h : i < nproc then
      if (s.proc ⟨i, h⟩).state = .unused then some (s.forkAlloc p ⟨i, h⟩ ok)
      else some (s.goto p (.forkScan (i + 1)))
    else some (s.sysret p none)
  | .forkParent np pid =>
    if s.waitLock = none then
      some ((s.setProc np { s.proc np with parent := some p }).goto p (.forkRun np pid))
    else none
  | .forkRun np pid =>
    some ((s.setProc np { s.proc np with state := .runnable }).sysret p (some pid))
  | .killScan pid i =>
    if h : i < nproc then
      if (s.proc ⟨i, h⟩).pid = pid then
        some ((s.setProc ⟨i, h⟩ { s.proc ⟨i, h⟩ with
          killed := true
          state := if (s.proc ⟨i, h⟩).state = .sleeping then .runnable
            else (s.proc ⟨i, h⟩).state }).sysret p (some 0))
      else some (s.goto p (.killScan pid (i + 1)))
    else some (s.sysret p none)
  | .exitAcquire status =>
    if s.waitLock = none then some ({ s with waitLock := some p }.goto p (.reparent status 0))
    else none
  | .reparent status i =>
    if h : i < nproc then
      if (s.proc ⟨i, h⟩).parent = some p then
        some ((s.setProc ⟨i, h⟩ { s.proc ⟨i, h⟩ with parent := some initproc }).goto p
          (.wakeInit status i 0))
      else some (s.goto p (.reparent status (i + 1)))
    else some (s.goto p (.wakeParent status (s.proc p).parent 0))
  | .wakeInit status i j =>
    if h : j < nproc then
      if (⟨j, h⟩ : Slot) = p then some (s.goto p (.wakeInit status i (j + 1)))
      else some ((s.setProc ⟨j, h⟩ ((s.proc ⟨j, h⟩).rouse (some (.proc initproc)))).goto p
        (.wakeInit status i (j + 1)))
    else some (s.goto p (.reparent status (i + 1)))
  | .wakeParent status parent j =>
    if h : j < nproc then
      if (⟨j, h⟩ : Slot) = p then some (s.goto p (.wakeParent status parent (j + 1)))
      else some ((s.setProc ⟨j, h⟩ ((s.proc ⟨j, h⟩).rouse (parent.map .proc))).goto p
        (.wakeParent status parent (j + 1)))
    else some (s.exitZombie p status)
  | .waitAcquire addr =>
    if s.waitLock = none then some ({ s with waitLock := some p }.goto p (.waitScan addr false 0))
    else none
  | .waitScan addr havekids i =>
    if h : i < nproc then
      if (s.proc ⟨i, h⟩).parent = some p then
        if (s.proc ⟨i, h⟩).state = .zombie then some (s.waitReap p ⟨i, h⟩ addr ok)
        else some (s.goto p (.waitScan addr true (i + 1)))
      else some (s.goto p (.waitScan addr havekids (i + 1)))
    else if havekids then some (s.goto p (.waitKilled addr))
    else some ({ s with waitLock := none }.sysret p none)
  | .waitKilled addr =>
    if (s.proc p).killed then some ({ s with waitLock := none }.sysret p none)
    else some (s.goto p (.waitSleep addr))
  | .waitSleep addr =>
    some (({ s with waitLock := none }.setProc p { s.proc p with
      chan := some (.proc p), state := .sleeping }).goto p (.waitAsleep addr))
  | _ => none

/-- What a scheduler does with the runnable process `p`.  One that was asleep runs to the end of
the section in `sleep` that clears `p->chan`. -/
def resume (s : Sys) (p : Slot) : Sys :=
  match s.pc p with
  | .waitAsleep addr =>
    (s.setProc p { s.proc p with state := .running, chan := none }).goto p (.waitAcquire addr)
  | .blocked => (s.setProc p { s.proc p with state := .running, chan := none }).goto p .user
  | _ => s.setProc p { s.proc p with state := .running }

end Sys

inductive Act where
  | fork (p : Slot)
  | exit (p : Slot) (status : Int)
  | wait (p : Slot) (addr : Nat)
  | kill (p : Slot) (pid : Int)
  | step (p : Slot) (ok : Bool)
  | yield (p : Slot)
  | schedule (p : Slot)
  | block (p : Slot) (n : Nat)
  | wakeOther (q : Slot) (n : Nat)
  deriving DecidableEq, Repr

/-- `p` is executing outside the functions below. -/
def Sys.Ready (s : Sys) (p : Slot) : Prop := (s.proc p).state = .running ∧ s.pc p = .user

instance (s : Sys) (p : Slot) : Decidable (s.Ready p) := inferInstanceAs (Decidable (_ ∧ _))

def next (s : Sys) (a : Act) : Option Sys :=
  if s.panic.isSome then none else
  match a with
  | .fork p => if s.Ready p then some (s.goto p (.forkScan 0)) else none
  | .exit p status =>
    if s.Ready p then
      if p = initproc then some { s with panic := some .initExiting }
      else some (s.goto p (.exitAcquire status))
    else none
  | .wait p addr => if s.Ready p then some (s.goto p (.waitAcquire addr)) else none
  | .kill p pid => if s.Ready p then some (s.goto p (.killScan pid 0)) else none
  | .step p ok => if (s.proc p).state = .running then s.step p ok else none
  | .yield p =>
    if (s.proc p).state = .running ∧ s.waitLock ≠ some p then
      some (s.setProc p { s.proc p with state := .runnable }) else none
  | .schedule p => if (s.proc p).state = .runnable then some (s.resume p) else none
  | .block p n =>
    if s.Ready p then
      some ((s.setProc p { s.proc p with chan := some (.other n), state := .sleeping }).goto p
        .blocked)
    else none
  | .wakeOther q n => some (s.setProc q ((s.proc q).rouse (some (.other n))))

/-! ## What a step can do

A step moves one process and changes one slot of the table.  `Delta` is such a change, and `Does`
lists the changes a step can make, with what its guards give. -/

structure Delta where
  p : Slot
  pc : Pc
  ret : Option Int
  q : Slot
  x : Proc
  waitLock : Option Slot
  nextpid : Int
  panic : Option Panic
  allocs : Nat
  exits : List Exit
  reaped : List Exit

namespace Sys

def apply (s : Sys) (d : Delta) : Sys where
  proc := update s.proc d.q d.x
  pc := update s.pc d.p d.pc
  ret := update s.ret d.p d.ret
  waitLock := d.waitLock
  nextpid := d.nextpid
  panic := d.panic
  allocs := d.allocs
  exits := d.exits
  reaped := d.reaped

/-- No change, seen as one of process `p` and slot `q`. -/
def stay (s : Sys) (p q : Slot) : Delta :=
  ⟨p, s.pc p, s.ret p, q, s.proc q, s.waitLock, s.nextpid, s.panic, s.allocs, s.exits, s.reaped⟩

theorem apply_proc_self (s : Sys) (d : Delta) : (s.apply d).proc d.q = d.x :=
  update_self ..

theorem apply_proc_of_ne (s : Sys) {d : Delta} {q : Slot} (h : q ≠ d.q) :
    (s.apply d).proc q = s.proc q := update_of_ne h ..

theorem apply_pc_self (s : Sys) (d : Delta) : (s.apply d).pc d.p = d.pc := update_self ..

theorem apply_ret_self (s : Sys) (d : Delta) : (s.apply d).ret d.p = d.ret :=
  update_self ..

theorem apply_pc_of_ne (s : Sys) {d : Delta} {p : Slot} (h : p ≠ d.p) :
    (s.apply d).pc p = s.pc p := update_of_ne h ..

end Sys

inductive Move (s : Sys) (p : Slot) : Pc → Pc → Prop where
  | fork : Move s p .user (.forkScan 0)
  | exit {status : Int} (hp : p ≠ initproc) : Move s p .user (.exitAcquire status)
  | wait {addr : Nat} : Move s p .user (.waitAcquire addr)
  | kill {pid : Int} : Move s p .user (.killScan pid 0)
  | forkScan {i : Slot} (hi : (s.proc i).state ≠ .unused) :
      Move s p (.forkScan i) (.forkScan (i + 1))
  | killScan {pid : Int} {i : Slot} (hi : (s.proc i).pid ≠ pid) :
      Move s p (.killScan pid i) (.killScan pid (i + 1))
  | reparent {status : Int} {i : Slot} (hi : (s.proc i).parent ≠ some p) :
      Move s p (.reparent status i) (.reparent status (i + 1))
  | reparentDone {status : Int} {i : Nat} (hi : nproc ≤ i) :
      Move s p (.reparent status i) (.wakeParent status (s.proc p).parent 0)
  | wakeInitSelf {status : Int} {i : Nat} :
      Move s p (.wakeInit status i p) (.wakeInit status i (p + 1))
  | wakeInitDone {status : Int} {i j : Nat} (hj : nproc ≤ j) :
      Move s p (.wakeInit status i j) (.reparent status (i + 1))
  | wakeParentSelf {status : Int} {parent : Option Slot} :
      Move s p (.wakeParent status parent p) (.wakeParent status parent (p + 1))
  | waitChild {addr : Nat} {havekids : Bool} {i : Slot} (hi : (s.proc i).parent = some p)
      (hz : (s.proc i).state ≠ .zombie) :
      Move s p (.waitScan addr havekids i) (.waitScan addr true (i + 1))
  | waitSkip {addr : Nat} {havekids : Bool} {i : Slot} (hi : (s.proc i).parent ≠ some p) :
      Move s p (.waitScan addr havekids i) (.waitScan addr havekids (i + 1))
  | waitDone {addr i : Nat} (hi : nproc ≤ i) : Move s p (.waitScan addr true i) (.waitKilled addr)
  | waitLive {addr : Nat} (hk : (s.proc p).killed = false) :
      Move s p (.waitKilled addr) (.waitSleep addr)

inductive WaitFails (s : Sys) (p : Slot) (ok : Bool) : Prop where
  | childless {addr i : Nat} (hp : s.pc p = .waitScan addr false i) (hi : nproc ≤ i)
  | killed {addr : Nat} (hp : s.pc p = .waitKilled addr) (hk : (s.proc p).killed = true)
  | copyout {addr : Nat} {havekids : Bool} {q : Slot} (hp : s.pc p = .waitScan addr havekids q)
      (hq : (s.proc q).parent = some p) (hz : (s.proc q).state = .zombie) (ha : addr ≠ 0)
      (hok : ok = false)

def Pc.asleep : Pc → Bool
  | .blocked | .waitAsleep _ => true
  | _ => false

inductive Does (s : Sys) : Act → Delta → Prop where
  | move {a : Act} {p : Slot} {pc pc' : Pc} (hr : (s.proc p).state = .running) (hp : s.pc p = pc)
      (hm : Move s p pc pc') : Does s a { s.stay p p with pc := pc' }
  | panic {p : Slot} {status : Int} :
      Does s (.exit p status) { s.stay p p with panic := some .initExiting }
  | giveUp {p : Slot} {ok : Bool} (hr : (s.proc p).state = .running)
      (hp : (∃ i, s.pc p = .forkScan i) ∨ ∃ pid i, s.pc p = .killScan pid i) :
      Does s (.step p ok) { s.stay p p with pc := .user, ret := none }
  | forkAlloc {p q : Slot} {ok : Bool} (hr : (s.proc p).state = .running)
      (hp : s.pc p = .forkScan q) (hq : (s.proc q).state = .unused) :
      Does s (.step p ok) { s.stay p q with
        pc := .forkParent q s.nextpid
        x := { s.proc q with pid := s.nextpid, state := .used, uid := s.allocs + 1 }
        nextpid := int32 (s.nextpid + 1)
        allocs := s.allocs + 1 }
  | forkFail {p q : Slot} {ok : Bool} (hr : (s.proc p).state = .running)
      (hp : s.pc p = .forkScan q) (hq : (s.proc q).state = .unused) :
      Does s (.step p ok) { s.stay p q with
        pc := .user
        ret := none
        x := { (s.proc q).freeproc with uid := s.allocs + 1 }
        nextpid := int32 (s.nextpid + 1)
        allocs := s.allocs + 1 }
  | forkParent {p np : Slot} {pid : Int} {ok : Bool} (hr : (s.proc p).state = .running)
      (hp : s.pc p = .forkParent np pid) (hl : s.waitLock = none) :
      Does s (.step p ok) { s.stay p np with
        pc := .forkRun np pid
        x := { s.proc np with parent := some p } }
  | forkRun {p np : Slot} {pid : Int} {ok : Bool} (hr : (s.proc p).state = .running)
      (hp : s.pc p = .forkRun np pid) :
      Does s (.step p ok) { s.stay p np with
        pc := .user
        ret := some pid
        x := { s.proc np with state := .runnable } }
  | kill {p q : Slot} {pid : Int} {ok : Bool} (hr : (s.proc p).state = .running)
      (hp : s.pc p = .killScan pid q) (hq : (s.proc q).pid = pid) :
      Does s (.step p ok) { s.stay p q with
        pc := .user
        ret := some 0
        x := { s.proc q with
          killed := true
          state := if (s.proc q).state = .sleeping then .runnable else (s.proc q).state } }
  | exitAcquire {p : Slot} {status : Int} {ok : Bool} (hr : (s.proc p).state = .running)
      (hp : s.pc p = .exitAcquire status) (hl : s.waitLock = none) :
      Does s (.step p ok) { s.stay p p with pc := .reparent status 0, waitLock := some p }
  | reparent {p q : Slot} {status : Int} {ok : Bool} (hr : (s.proc p).state = .running)
      (hp : s.pc p = .reparent status q) (hq : (s.proc q).parent = some p) :
      Does s (.step p ok) { s.stay p q with
        pc := .wakeInit status q 0
        x := { s.proc q with parent := some initproc } }
  | wakeInit {p q : Slot} {status : Int} {i : Nat} {ok : Bool}
      (hr : (s.proc p).state = .running) (hp : s.pc p = .wakeInit status i q) (hq : q ≠ p) :
      Does s (.step p ok) { s.stay p q with
        pc := .wakeInit status i (q + 1)
        x := (s.proc q).rouse (some (.proc initproc)) }
  | wakeParent {p q : Slot} {status : Int} {parent : Option Slot} {ok : Bool}
      (hr : (s.proc p).state = .running) (hp : s.pc p = .wakeParent status parent q)
      (hq : q ≠ p) :
      Does s (.step p ok) { s.stay p q with
        pc := .wakeParent status parent (q + 1)
        x := (s.proc q).rouse (parent.map .proc) }
  | exitZombie {p : Slot} {status : Int} {parent : Option Slot} {j : Nat} {ok : Bool}
      (hr : (s.proc p).state = .running) (hp : s.pc p = .wakeParent status parent j)
      (hj : nproc ≤ j) :
      Does s (.step p ok) { s.stay p p with
        pc := .user
        x := { s.proc p with xstate := status, state := .zombie }
        waitLock := none
        exits := ⟨(s.proc p).uid, (s.proc p).pid, status⟩ :: s.exits }
  | waitAcquire {p : Slot} {addr : Nat} {ok : Bool} (hr : (s.proc p).state = .running)
      (hp : s.pc p = .waitAcquire addr) (hl : s.waitLock = none) :
      Does s (.step p ok) { s.stay p p with pc := .waitScan addr false 0, waitLock := some p }
  | waitFail {p : Slot} {ok : Bool} (hr : (s.proc p).state = .running) (hw : WaitFails s p ok) :
      Does s (.step p ok) { s.stay p p with pc := .user, ret := none, waitLock := none }
  | waitReap {p q : Slot} {addr : Nat} {havekids ok : Bool} (hr : (s.proc p).state = .running)
      (hp : s.pc p = .waitScan addr havekids q) (hq : (s.proc q).parent = some p)
      (hz : (s.proc q).state = .zombie) :
      Does s (.step p ok) { s.stay p q with
        pc := .user
        ret := some (s.proc q).pid
        x := (s.proc q).freeproc
        waitLock := none
        reaped := ⟨(s.proc q).uid, (s.proc q).pid, (s.proc q).xstate⟩ :: s.reaped }
  | waitSleep {p : Slot} {addr : Nat} {ok : Bool} (hr : (s.proc p).state = .running)
      (hp : s.pc p = .waitSleep addr) :
      Does s (.step p ok) { s.stay p p with
        pc := .waitAsleep addr
        x := { s.proc p with chan := some (.proc p), state := .sleeping }
        waitLock := none }
  | yield {p : Slot} (hr : (s.proc p).state = .running) (hl : s.waitLock ≠ some p) :
      Does s (.yield p) { s.stay p p with x := { s.proc p with state := .runnable } }
  | wakeWait {p : Slot} {addr : Nat} (hr : (s.proc p).state = .runnable)
      (hp : s.pc p = .waitAsleep addr) :
      Does s (.schedule p) { s.stay p p with
        pc := .waitAcquire addr
        x := { s.proc p with state := .running, chan := none } }
  | wakeBlocked {p : Slot} (hr : (s.proc p).state = .runnable) (hp : s.pc p = .blocked) :
      Does s (.schedule p) { s.stay p p with
        pc := .user
        x := { s.proc p with state := .running, chan := none } }
  | schedule {p : Slot} (hr : (s.proc p).state = .runnable) (hp : (s.pc p).asleep = false) :
      Does s (.schedule p) { s.stay p p with x := { s.proc p with state := .running } }
  | block {p : Slot} {n : Nat} (hr : (s.proc p).state = .running) (hp : s.pc p = .user) :
      Does s (.block p n) { s.stay p p with
        pc := .blocked
        x := { s.proc p with chan := some (.other n), state := .sleeping } }
  | wakeOther {q : Slot} {n : Nat} :
      Does s (.wakeOther q n) { s.stay q q with x := (s.proc q).rouse (some (.other n)) }

def Step (s : Sys) (a : Act) (t : Sys) : Prop := ∃ d, Does s a d ∧ s.apply d = t

section Inversion

variable {s t : Sys} {a : Act} {p q : Slot} {x : Proc} {pc : Pc} {r : Option Int}

theorem apply_stay_goto : s.apply { s.stay p p with pc := pc } = s.goto p pc := by
  simp [Sys.apply, Sys.stay, Sys.goto]

theorem apply_stay_setProc : s.apply { s.stay q q with x := x } = s.setProc q x := by
  simp [Sys.apply, Sys.stay, Sys.setProc]

theorem apply_stay_setProc_goto :
    s.apply { s.stay p q with pc := pc, x := x } = (s.setProc q x).goto p pc := by
  simp [Sys.apply, Sys.stay, Sys.setProc, Sys.goto]

theorem apply_stay_sysret :
    s.apply { s.stay p p with pc := .user, ret := r } = s.sysret p r := by
  simp [Sys.apply, Sys.stay, Sys.sysret]

theorem apply_stay_setProc_sysret :
    s.apply { s.stay p q with pc := .user, ret := r, x := x } = (s.setProc q x).sysret p r := by
  simp [Sys.apply, Sys.stay, Sys.setProc, Sys.sysret]

theorem Move.step (hr : (s.proc p).state = .running) (hm : Move s p (s.pc p) pc) :
    Step s a (s.goto p pc) := ⟨_, .move hr rfl hm, apply_stay_goto⟩

theorem step_of_forkAlloc {ok : Bool} (hr : (s.proc p).state = .running)
    (hp : s.pc p = .forkScan q) (hq : (s.proc q).state = .unused) :
    Step s (.step p ok) (s.forkAlloc p q ok) := by
  rw [Sys.forkAlloc]
  split
  · exact ⟨_, .forkAlloc hr hp hq, by simp [Sys.apply, Sys.stay, Sys.setProc, Sys.goto]⟩
  · exact ⟨_, .forkFail hr hp hq,
      by simp [Sys.apply, Sys.stay, Sys.setProc, Sys.sysret, Proc.freeproc]⟩

theorem step_of_waitReap {addr : Nat} {havekids ok : Bool} (hr : (s.proc p).state = .running)
    (hp : s.pc p = .waitScan addr havekids q) (hq : (s.proc q).parent = some p)
    (hz : (s.proc q).state = .zombie) : Step s (.step p ok) (s.waitReap p q addr ok) := by
  rw [Sys.waitReap]
  split
  · rename_i hc
    exact ⟨_, .waitFail hr (.copyout hp hq hz hc.1 hc.2), by simp [Sys.apply, Sys.stay, Sys.sysret]⟩
  · exact ⟨_, .waitReap hr hp hq hz, by simp [Sys.apply, Sys.stay, Sys.setProc, Sys.sysret]⟩

theorem step_of_resume (hr : (s.proc p).state = .runnable) :
    Step s (.schedule p) (s.resume p) := by
  rw [Sys.resume]
  split
  · exact ⟨_, .wakeWait hr ‹_›, apply_stay_setProc_goto⟩
  · exact ⟨_, .wakeBlocked hr ‹_›, apply_stay_setProc_goto⟩
  · rename_i hwait hblock
    refine ⟨_, .schedule hr ?_, apply_stay_setProc⟩
    rw [Pc.asleep.eq_def]
    split <;> simp_all

theorem step_of_step {ok : Bool} (hr : (s.proc p).state = .running) (h : s.step p ok = some t) :
    Step s (.step p ok) t := by
  rw [Sys.step] at h
  split at h <;> rename_i hp
  · -- `forkScan`
    split at h
    · split at h
      · exact some_inj.mp h ▸ step_of_forkAlloc hr hp ‹_›
      · exact some_inj.mp h ▸ Move.step hr (hp ▸ .forkScan (i := ⟨_, ‹_›⟩) ‹_›)
    · exact some_inj.mp h ▸ ⟨_, .giveUp hr (.inl ⟨_, hp⟩), apply_stay_sysret⟩
  · -- `forkParent`
    obtain ⟨hl, h⟩ := ite_none_right_eq_some.mp h
    exact some_inj.mp h ▸ ⟨_, .forkParent hr hp hl, apply_stay_setProc_goto⟩
  · exact some_inj.mp h ▸ ⟨_, .forkRun hr hp, apply_stay_setProc_sysret⟩
  · -- `killScan`
    split at h
    · split at h
      · exact some_inj.mp h ▸ ⟨_, .kill hr hp ‹_›, apply_stay_setProc_sysret⟩
      · exact some_inj.mp h ▸ Move.step hr (hp ▸ .killScan (i := ⟨_, ‹_›⟩) ‹_›)
    · exact some_inj.mp h ▸ ⟨_, .giveUp hr (.inr ⟨_, _, hp⟩), apply_stay_sysret⟩
  · -- `exitAcquire`
    obtain ⟨hl, h⟩ := ite_none_right_eq_some.mp h
    exact some_inj.mp h ▸ ⟨_, .exitAcquire hr hp hl, by simp [Sys.apply, Sys.stay, Sys.goto]⟩
  · -- `reparent`
    split at h
    · split at h
      · exact some_inj.mp h ▸
          ⟨_, .reparent (q := ⟨_, ‹_›⟩) hr hp ‹_›, apply_stay_setProc_goto⟩
      · exact some_inj.mp h ▸ Move.step hr (hp ▸ .reparent (i := ⟨_, ‹_›⟩) ‹_›)
    · exact some_inj.mp h ▸ Move.step hr (hp ▸ .reparentDone (Nat.le_of_not_lt ‹_›))
  · -- `wakeInit`
    split at h
    · split at h
      · rename_i hj
        subst hj
        exact some_inj.mp h ▸ Move.step hr (hp ▸ .wakeInitSelf)
      · exact some_inj.mp h ▸
          ⟨_, .wakeInit (q := ⟨_, ‹_›⟩) hr hp ‹_›, apply_stay_setProc_goto⟩
    · exact some_inj.mp h ▸ Move.step hr (hp ▸ .wakeInitDone (Nat.le_of_not_lt ‹_›))
  · -- `wakeParent`
    split at h
    · split at h
      · rename_i hj
        subst hj
        exact some_inj.mp h ▸ Move.step hr (hp ▸ .wakeParentSelf)
      · exact some_inj.mp h ▸
          ⟨_, .wakeParent (q := ⟨_, ‹_›⟩) hr hp ‹_›, apply_stay_setProc_goto⟩
    · exact some_inj.mp h ▸ ⟨_, .exitZombie hr hp (Nat.le_of_not_lt ‹_›),
        by simp [Sys.apply, Sys.stay, Sys.exitZombie, Sys.setProc, Sys.goto]⟩
  · -- `waitAcquire`
    obtain ⟨hl, h⟩ := ite_none_right_eq_some.mp h
    exact some_inj.mp h ▸ ⟨_, .waitAcquire hr hp hl, by simp [Sys.apply, Sys.stay, Sys.goto]⟩
  · -- `waitScan`
    split at h
    · split at h
      · split at h
        · exact some_inj.mp h ▸ step_of_waitReap hr hp ‹_› ‹_›
        · exact some_inj.mp h ▸ Move.step hr (hp ▸ .waitChild (i := ⟨_, ‹_›⟩) ‹_› ‹_›)
      · exact some_inj.mp h ▸ Move.step hr (hp ▸ .waitSkip (i := ⟨_, ‹_›⟩) ‹_›)
    · split at h <;> rename_i hi hk
      · exact some_inj.mp h ▸ Move.step hr (hp ▸ hk ▸ .waitDone (Nat.le_of_not_lt hi))
      · rw [Bool.not_eq_true] at hk
        exact some_inj.mp h ▸ ⟨_, .waitFail hr (.childless (hk ▸ hp) (Nat.le_of_not_lt hi)),
          by simp [Sys.apply, Sys.stay, Sys.sysret]⟩
  · -- `waitKilled`
    split at h <;> rename_i hk
    · exact some_inj.mp h ▸ ⟨_, .waitFail hr (.killed hp hk),
        by simp [Sys.apply, Sys.stay, Sys.sysret]⟩
    · exact some_inj.mp h ▸ Move.step hr (hp ▸ .waitLive (by simpa using hk))
  · exact some_inj.mp h ▸ ⟨_, .waitSleep hr hp,
      by simp [Sys.apply, Sys.stay, Sys.setProc, Sys.goto]⟩
  · exact absurd h (by simp)

theorem step_of_next (h : next s a = some t) : Step s a t := by
  unfold next at h
  rw [Option.ite_none_left_eq_some] at h
  obtain ⟨-, h⟩ := h
  cases a with
  | step p ok =>
    obtain ⟨hr, h⟩ := ite_none_right_eq_some.mp h
    exact step_of_step hr h
  | exit p status =>
    obtain ⟨⟨hr, hp⟩, h⟩ := ite_none_right_eq_some.mp h
    split at h
    · exact some_inj.mp h ▸ ⟨_, .panic (p := p), by simp [Sys.apply, Sys.stay]⟩
    · exact some_inj.mp h ▸ Move.step hr (hp ▸ .exit ‹_›)
  | fork p =>
    obtain ⟨⟨hr, hp⟩, h⟩ := ite_none_right_eq_some.mp h
    exact some_inj.mp h ▸ Move.step hr (hp ▸ .fork)
  | wait p addr =>
    obtain ⟨⟨hr, hp⟩, h⟩ := ite_none_right_eq_some.mp h
    exact some_inj.mp h ▸ Move.step hr (hp ▸ .wait)
  | kill p pid =>
    obtain ⟨⟨hr, hp⟩, h⟩ := ite_none_right_eq_some.mp h
    exact some_inj.mp h ▸ Move.step hr (hp ▸ .kill)
  | yield p =>
    obtain ⟨⟨hr, hl⟩, h⟩ := ite_none_right_eq_some.mp h
    exact some_inj.mp h ▸ ⟨_, .yield hr hl, apply_stay_setProc⟩
  | schedule p =>
    obtain ⟨hr, h⟩ := ite_none_right_eq_some.mp h
    exact some_inj.mp h ▸ step_of_resume hr
  | block p n =>
    obtain ⟨⟨hr, hp⟩, h⟩ := ite_none_right_eq_some.mp h
    exact some_inj.mp h ▸ ⟨_, .block hr hp, apply_stay_setProc_goto⟩
  | wakeOther q n => exact some_inj.mp h ▸ ⟨_, .wakeOther, apply_stay_setProc⟩

end Inversion

end Table

end Xv6
