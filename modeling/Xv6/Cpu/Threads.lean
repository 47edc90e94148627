import Xv6.Lib.Machine
import Xv6.Proc.State

/-!
# Kernel threads on CPUs

`kernel/spinlock.c`, and `scheduler`, `sched`, `yield`, `sleep`, `forkret` and the end of `exit` of
`kernel/proc.c`, for any number of CPUs and processes.  A thread is the kernel thread of a process or
the scheduler of a CPU.  What it is about to do is a list of statements, `Thread.todo`; when the list
is empty the thread may call the next function, in any order that a caller of these functions may.

The statements are taken apart where something can come between.  An interrupt can come at every
point at which interrupts are enabled, also in `push_off` between `intr_get` and `intr_off`; it puts
aside what the thread was doing (`Thread.levels`), and its handler may call `yield`, so that the thread
goes on elsewhere.

Four history variables ride along, which only what callers promise depends on.
-/

namespace Xv6.Cpus

open Function (update)

/-! ## The state -/

inductive Lock where
  | proc (p : Nat)
  | wait
  | other (k : Nat)
  deriving DecidableEq, Repr

/-- The statements of the functions below. -/
inductive Instr where
  | pushOff
  | popOff
  | acquire (l : Lock)
  | release (l : Lock)
  | setState (st : ProcState)
  | sched
  /-- `if(p->state == RUNNABLE){ ... swtch(&c->context, &p->context); ... }` of `scheduler`. -/
  | swtch (p : Nat)
  deriving DecidableEq, Repr

inductive Pc where
  | idle
  | begun (old : Bool)
  | spin
  | popping
  deriving DecidableEq, Repr

structure Thread where
  pc : Pc
  todo : List Instr
  /-- What it was about to do when it was interrupted, the last time first. -/
  levels : List (Pc × List Instr)
  /-- `intena` of `sched`; `none` if the thread starts in `forkret`. -/
  saved : Option Bool
  /-- History: the calls of `push_off` that have not been undone. -/
  offs : Nat
  /-- History: whether interrupts were enabled when the outermost section began. -/
  began : Bool

/-- `struct cpu`, and the interrupt enable bit. -/
structure Cpu where
  proc : Option Nat
  noff : Int
  intena : Bool
  ie : Bool
  held : List Lock

structure State where
  cpu : Nat → Cpu
  scheduler : Nat → Thread
  thread : Nat → Thread
  state : Nat → ProcState
  lock : Lock → Option Nat
  found : Nat → Option Nat

def State.current (s : State) (c : Nat) : Thread :=
  match (s.cpu c).proc with
  | some p => s.thread p
  | none => s.scheduler c

def State.setCurrent (s : State) (c : Nat) (t : Thread) : State :=
  match (s.cpu c).proc with
  | some p => { s with thread := update s.thread p t }
  | none => { s with scheduler := update s.scheduler c t }

def State.setCpu (s : State) (c : Nat) (x : Cpu) : State :=
  { s with cpu := update s.cpu c x }

/-! ## `kernel/spinlock.c` -/

/-- `push_off` after `old = intr_get()`. -/
def Cpu.pushOff (x : Cpu) (old : Bool) : Cpu :=
  { x with ie := false, intena := if x.noff = 0 then old else x.intena, noff := x.noff + 1 }

def Cpu.popPanic (x : Cpu) : Option Panic :=
  if x.ie = true then some .popOffInterruptible
  else if x.noff < 1 then some .popOff
  else none

/-- `pop_off` after its panics. -/
def Cpu.popOff (x : Cpu) : Cpu :=
  { x with noff := x.noff - 1, ie := if x.noff - 1 = 0 ∧ x.intena = true then true else x.ie }

/-! ## `kernel/proc.c` -/

/-- The panics of `sched`, for process `p` on CPU `c`. -/
def State.schedPanic (s : State) (c p : Nat) : Option Panic :=
  if s.lock (.proc p) ≠ some c then some .schedLock
  else if (s.cpu c).noff ≠ 1 then some .schedLocks
  else if s.state p = .running then some .schedRunning
  else if (s.cpu c).ie = true then some .schedInterruptible
  else none

inductive Call where
  | pushOff
  | popOff
  | acquire (l : Lock)
  | release (l : Lock)
  | yield
  | sleep (lk : Lock)
  | exit
  | schedule (p : Nat)
  deriving DecidableEq, Repr

def Call.code (p : Nat) : Call → List Instr
  | .pushOff => [.pushOff]
  | .popOff => [.popOff]
  | .acquire l => [.acquire l]
  | .release l => [.release l]
  | .yield => [.acquire (.proc p), .setState .runnable, .sched, .release (.proc p)]
  | .sleep lk =>
    [.acquire (.proc p), .release lk, .setState .sleeping, .sched, .release (.proc p), .acquire lk]
  | .exit => [.acquire (.proc p), .setState .zombie, .release .wait, .sched]
  | .schedule q => [.acquire (.proc q), .swtch q, .release (.proc q)]

/-- What callers promise.  A thread undoes what it has done, and gives up the CPU only with the one
lock that the function knows of. -/
def Call.Allowed (x : Cpu) (t : Thread) : Call → Prop
  | .pushOff => x.proc = none → t.levels ≠ []
  | .popOff => 0 < t.offs
  | .acquire l => l ∉ x.held ∧ (x.proc = none → t.levels ≠ [])
  | .release l => l ∈ x.held
  | .yield => x.proc ≠ none ∧ x.noff = 0
  | .sleep lk => (∃ p ∈ x.proc, lk ≠ .proc p) ∧ x.held = [lk] ∧ t.offs = 0
  | .exit => x.proc ≠ none ∧ x.held = [.wait] ∧ t.offs = 0
  | .schedule _ => x.proc = none ∧ t.levels = [] ∧ x.noff = 0

instance (x : Cpu) (t : Thread) : DecidablePred (Call.Allowed x t)
  | .pushOff => inferInstanceAs (Decidable (x.proc = none → t.levels ≠ []))
  | .popOff => inferInstanceAs (Decidable (0 < t.offs))
  | .acquire l => inferInstanceAs (Decidable (l ∉ x.held ∧ (x.proc = none → t.levels ≠ [])))
  | .release l => inferInstanceAs (Decidable (l ∈ x.held))
  | .yield => inferInstanceAs (Decidable (x.proc ≠ none ∧ x.noff = 0))
  | .sleep lk =>
    inferInstanceAs (Decidable ((∃ p ∈ x.proc, lk ≠ .proc p) ∧ x.held = [lk] ∧ t.offs = 0))
  | .exit => inferInstanceAs (Decidable (x.proc ≠ none ∧ x.held = [.wait] ∧ t.offs = 0))
  | .schedule _ => inferInstanceAs (Decidable (x.proc = none ∧ t.levels = [] ∧ x.noff = 0))

def Thread.forkret (p : Nat) : Thread := ⟨.idle, [.release (.proc p)], [], none, 0, false⟩

/-! ## Runs -/

inductive Op where
  | setIe (b : Bool)
  | trap
  | sret
  | call (f : Call)
  | get
  | off
  /-- `acquire`: `__sync_lock_test_and_set` returns 0, and `lk->cpu` is stored. -/
  | take
  | drop
  | pop
  | setState
  | sched
  /-- `scheduler` looks at the process, and calls `swtch`; the rest of `sched` in that thread. -/
  | swtch
  | rouse (q : Nat)
  | alloc (q : Nat)
  | start (q : Nat)
  | unalloc (q : Nat)
  | free (q : Nat)
  deriving DecidableEq, Repr

structure Act where
  c : Nat
  op : Op

def next (s : State) (a : Act) : Option State :=
  let x := s.cpu a.c
  let t := s.current a.c
  match a.op with
  | .setIe b =>
    if t.pc = .idle ∧ t.todo = [] ∧ x.noff = 0 then some (s.setCpu a.c { x with ie := b }) else none
  | .trap =>
    if x.ie = true then
      some ((s.setCpu a.c { x with ie := false }).setCurrent a.c
        { t with pc := .idle, todo := [], levels := (t.pc, t.todo) :: t.levels })
    else none
  | .sret =>
    match t.levels with
    | [] => none
    | (pc, k) :: levels =>
      if t.pc = .idle ∧ t.todo = [] ∧ x.noff = 0 then
        some ((s.setCpu a.c { x with ie := true }).setCurrent a.c
          { t with pc := pc, todo := k, levels := levels })
      else none
  | .call f =>
    if t.pc = .idle ∧ t.todo = [] ∧ f.Allowed x t then
      some (s.setCurrent a.c { t with todo := f.code (x.proc.getD 0) })
    else none
  | .get =>
    match t.pc, t.todo with
    | .idle, .pushOff :: _ | .idle, .acquire _ :: _ =>
      some (s.setCurrent a.c { t with pc := .begun x.ie })
    | _, _ => none
  | .off =>
    let began := if x.noff = 0 then x.ie else t.began
    match t.pc, t.todo with
    | .begun old, .pushOff :: k =>
      some ((s.setCpu a.c (x.pushOff old)).setCurrent a.c
        { t with pc := .idle, todo := k, offs := t.offs + 1, began := began })
    | .begun old, .acquire l :: _ =>
      if s.lock l = some a.c then none
      else some ((s.setCpu a.c (x.pushOff old)).setCurrent a.c
        { t with pc := .spin, began := began })
    | _, _ => none
  | .take =>
    match t.pc, t.todo with
    | .spin, .acquire l :: k =>
      if s.lock l = none then
        some (({ s with lock := update s.lock l (some a.c) }.setCpu a.c
          { x with held := l :: x.held }).setCurrent a.c { t with pc := .idle, todo := k })
      else none
    | _, _ => none
  | .drop =>
    match t.pc, t.todo with
    | .idle, .release l :: k =>
      if s.lock l = some a.c then
        some (({ s with lock := update s.lock l none }.setCpu a.c
          { x with held := x.held.erase l }).setCurrent a.c { t with pc := .popping, todo := k })
      else none
    | _, _ => none
  | .pop =>
    match t.pc, t.todo with
    | .popping, _ =>
      if x.popPanic = none then
        some ((s.setCpu a.c x.popOff).setCurrent a.c { t with pc := .idle })
      else none
    | .idle, .popOff :: k =>
      if x.popPanic = none then
        some ((s.setCpu a.c x.popOff).setCurrent a.c { t with todo := k, offs := t.offs - 1 })
      else none
    | _, _ => none
  | .setState =>
    match x.proc, t.pc, t.todo with
    | some p, .idle, .setState st :: k =>
      some { s with
        state := update s.state p st
        thread := update s.thread p { t with todo := k } }
    | _, _, _ => none
  | .sched =>
    match x.proc, t.pc, t.todo with
    | some p, .idle, .sched :: k =>
      if s.schedPanic a.c p = none then
        some ({ s with
          thread := update s.thread p { t with todo := k, saved := some x.intena } }.setCpu
            a.c { x with proc := none })
      else none
    | _, _, _ => none
  | .swtch =>
    match x.proc, t.pc, t.todo with
    | none, .idle, .swtch p :: k =>
      if s.state p = .runnable then
        let u := s.thread p
        -- a new thread does not set `intena`: its section began with that of the scheduler
        some ({ s with
          state := update s.state p .running
          scheduler := update s.scheduler a.c { t with todo := k }
          thread := update s.thread p
            { u with began := if u.saved = none then t.began else u.began } }.setCpu a.c
              { x with proc := some p, intena := u.saved.getD x.intena })
      else some { s with scheduler := update s.scheduler a.c { t with todo := k } }
    | _, _, _ => none
  | .rouse q =>
    if t.pc = .idle ∧ t.todo = [] ∧ .proc q ∈ x.held ∧ s.state q = .sleeping then
      some { s with state := update s.state q .runnable }
    else none
  | .alloc q =>
    match x.proc with
    | none => none
    | some p =>
      if t.pc = .idle ∧ t.todo = [] ∧ .proc q ∈ x.held ∧ s.found p = none ∧ s.state q = .unused then
        some { s with
          state := update s.state q .used
          thread := update s.thread q (.forkret q)
          found := update (update s.found q none) p (some q) }
      else none
  | .start q =>
    match x.proc with
    | none => none
    | some p =>
      if t.pc = .idle ∧ t.todo = [] ∧ .proc q ∈ x.held ∧ s.found p = some q then
        some { s with
          state := update s.state q .runnable
          found := update s.found p none }
      else none
  | .unalloc q =>
    match x.proc with
    | none => none
    | some p =>
      if t.pc = .idle ∧ t.todo = [] ∧ .proc q ∈ x.held ∧ s.found p = some q then
        some { s with
          state := update s.state q .unused
          found := update s.found p none }
      else none
  | .free q =>
    if t.pc = .idle ∧ t.todo = [] ∧ .proc q ∈ x.held ∧ s.state q = .zombie then
      some { s with state := update s.state q .unused }
    else none

def State.panic (s : State) (c : Nat) : Option Panic :=
  let t := s.current c
  match t.pc, t.todo with
  | .begun _, .acquire l :: _ => if s.lock l = some c then some .acquire else none
  | .idle, .release l :: _ => if s.lock l = some c then none else some .release
  | .popping, _ | .idle, .popOff :: _ => (s.cpu c).popPanic
  | .idle, .sched :: _ =>
    match (s.cpu c).proc with
    | some p => s.schedPanic c p
    | none => none
  | _, _ => none

/-- After boot: the CPUs are in `scheduler`, and there is one process. -/
def State.boot : State where
  cpu _ := ⟨none, 0, false, false, []⟩
  scheduler _ := ⟨.idle, [], [], none, 0, false⟩
  thread := .forkret
  state p := if p = 0 then .runnable else .unused
  lock _ := none
  found _ := none

end Xv6.Cpus
