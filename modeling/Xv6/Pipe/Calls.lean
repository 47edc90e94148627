import Xv6.Lib.Lock
import Xv6.Lib.Machine
import Xv6.Proc.State
import Mathlib.Data.Fin.Basic

/-!
# Pipes

`kernel/pipe.c` for one pipe and any number of processes.  The loops of `pipewrite` and `piperead` run
under `pi->lock`, which is part of the state, and each turn of a loop is a step, because `kill` takes
only `p->lock` and can come between any two of them.  As elsewhere, a section under a `p->lock` is
one step: `sleep` gives up the lock and marks the process, and `wakeup` looks at one process after
another.
-/

namespace Xv6

open Function (update update_of_ne update_self update_apply)

namespace Pipes

abbrev pipesize : Nat := 512

/-- `struct pipe`, without its lock. -/
structure Pipe where
  data : Fin pipesize → UInt8
  nread : UInt32
  nwrite : UInt32
  readopen : Bool
  writeopen : Bool

namespace Pipe

/-- The pipe that `pipealloc` makes, in a page with the given contents. -/
def alloc (data : Fin pipesize → UInt8) : Pipe := ⟨data, 0, 0, true, true⟩

def Empty (pi : Pipe) : Prop := pi.nread = pi.nwrite

def Full (pi : Pipe) : Prop := pi.nwrite = pi.nread + .ofNat pipesize

instance (pi : Pipe) : Decidable pi.Empty := inferInstanceAs (Decidable (_ = _))

instance (pi : Pipe) : Decidable pi.Full := inferInstanceAs (Decidable (_ = _))

/-- `pi->data[pi->nwrite++ % PIPESIZE] = ch`. -/
def store (pi : Pipe) (ch : UInt8) : Pipe :=
  { pi with
    data := update pi.data (Fin.ofNat pipesize pi.nwrite.toNat) ch
    nwrite := pi.nwrite + 1 }

/-- `pi->data[pi->nread++ % PIPESIZE]`: the byte. -/
def front (pi : Pipe) : UInt8 := pi.data (Fin.ofNat pipesize pi.nread.toNat)

/-- `pi->data[pi->nread++ % PIPESIZE]`: the pipe. -/
def advance (pi : Pipe) : Pipe := { pi with nread := pi.nread + 1 }

/-- `pipeclose` marks one end as closed. -/
def close (pi : Pipe) (writable : Bool) : Pipe :=
  if writable then { pi with writeopen := false } else { pi with readopen := false }

end Pipe

inductive Chan where
  | nread
  | nwrite
  deriving DecidableEq, Repr

inductive Call where
  | write (n i : Int)
  | read (n : Int)
  | close (writable : Bool)
  deriving DecidableEq, Repr

inductive After where
  | sleep (n i : Int)
  | wrote (i : Int)
  /-- `piperead` of `n` bytes returns `i`; `fault` says that it could not copy out a byte. -/
  | read (n i : Int) (fault : Bool)
  | closed
  deriving DecidableEq, Repr

inductive Pc where
  | user
  /-- About to acquire `pi->lock`, on entry or at the end of `sleep`. -/
  | acquire (c : Call)
  /-- `pipewrite`: at the head of the loop.  `told` is a history variable: how many bytes had been
  written when the lock was acquired. -/
  | write (n i told : Int)
  | writeKilled (n i told : Int)
  | writeFull (n i told : Int)
  | read (n : Int)
  /-- `piperead`: the pipe is empty, about to call `killed(pr)`. -/
  | readKilled (n : Int)
  | readSleep (n : Int)
  /-- `piperead`: in the loop that copies, with `i` bytes copied. -/
  | copy (n i : Int)
  | close (writable : Bool)
  | wakeup (chan : Chan) (j : Nat) (k : After)
  | asleep (c : Call)
  deriving DecidableEq, Repr

def Pc.holds : Pc → Bool
  | .user | .acquire _ | .asleep _ => false
  | _ => true

def Call.enter : Call → Pc
  | .write n i => .write n i i
  | .read n => .read n
  | .close w => .close w

structure Sys where
  pipe : Pipe
  freed : Bool
  lock : Option Slot
  pc : Slot → Pc
  /-- What each process sleeps on: `some chan` if it is `SLEEPING` on `chan`. -/
  sleeping : Slot → Option Chan
  killed : Slot → Bool
  put : List UInt8
  got : List UInt8

inductive Act where
  | pipewrite (p : Slot) (n : Int)
  | piperead (p : Slot) (n : Int)
  | pipeclose (p : Slot) (writable : Bool)
  /-- `p` takes the next step of the function it is in.  `mem` is the byte that `copyin` finds, or
  `none` if it fails; for `copyout` only whether it fails matters. -/
  | run (p : Slot) (mem : Option UInt8)
  /-- The body of `kill`'s loop for the process it is looking for. -/
  | kill (q : Slot)
  /-- A new process in the slot of one that is not in these functions. -/
  | renew (q : Slot)
  deriving DecidableEq, Repr

namespace Sys

def init (data : Fin pipesize → UInt8) : Sys where
  pipe := .alloc data
  freed := false
  lock := none
  pc := fun _ => .user
  sleeping := fun _ => none
  killed := fun _ => false
  put := []
  got := []

def goto (s : Sys) (p : Slot) (pc : Pc) : Sys := { s with pc := update s.pc p pc }

/-- `p` releases `pi->lock` and returns. -/
def release (s : Sys) (p : Slot) : Sys := { s with
  lock := none
  pc := update s.pc p .user }

def sleep (s : Sys) (p : Slot) (chan : Chan) (c : Call) : Sys := { s with
  lock := none
  sleeping := update s.sleeping p (some chan)
  pc := update s.pc p (.asleep c) }

/-- The body of the loop in `wakeup(chan)` for the process `q`. -/
def rouse (s : Sys) (q : Slot) (chan : Chan) : Sys := { s with
  sleeping := update s.sleeping q
    (if s.sleeping q = some chan then none else s.sleeping q) }

/-- The end of a call, after the `wakeup`. -/
def finish (s : Sys) (p : Slot) : After → Sys
  | .sleep n i => s.sleep p .nwrite (.write n i)
  | .wrote _ | .read _ _ _ => s.release p
  | .closed => { s.release p with freed := !s.pipe.readopen && !s.pipe.writeopen }

def step (s : Sys) (p : Slot) (mem : Option UInt8) : Option Sys :=
  match s.pc p with
  | .user => none
  | .acquire c =>
    if s.lock = none ∧ s.freed = false then some { s.goto p c.enter with lock := some p } else none
  | .write n i told =>
    if i < n then
      if s.pipe.readopen then some (s.goto p (.writeKilled n i told)) else some (s.release p)
    else some (s.goto p (.wakeup .nread 0 (.wrote i)))
  | .writeKilled n i told =>
    if s.killed p then some (s.release p) else some (s.goto p (.writeFull n i told))
  | .writeFull n i told =>
    if s.pipe.Full then some (s.goto p (.wakeup .nread 0 (.sleep n i)))
    else match mem with
      | none => some (s.goto p (.wakeup .nread 0 (.wrote i)))
      | some ch => some { s.goto p (.write n (i + 1) told) with
          pipe := s.pipe.store ch
          put := s.put ++ [ch] }
  | .read n =>
    if s.pipe.Empty ∧ s.pipe.writeopen then some (s.goto p (.readKilled n))
    else some (s.goto p (.copy n 0))
  | .readKilled n => if s.killed p then some (s.release p) else some (s.goto p (.readSleep n))
  | .readSleep n => some (s.sleep p .nread (.read n))
  | .copy n i =>
    if i < n ∧ ¬s.pipe.Empty then
      some { s.goto p (if mem.isSome then .copy n (i + 1) else .wakeup .nwrite 0 (.read n i true)) with
        pipe := s.pipe.advance
        got := s.got ++ [s.pipe.front] }
    else some (s.goto p (.wakeup .nwrite 0 (.read n i false)))
  | .close w =>
    some { s.goto p (.wakeup (if w then .nread else .nwrite) 0 .closed) with pipe := s.pipe.close w }
  | .wakeup chan j k =>
    if h : j < nproc then some ((s.rouse ⟨j, h⟩ chan).goto p (.wakeup chan (j + 1) k))
    else some (s.finish p k)
  | .asleep c => if s.sleeping p = none then some (s.goto p (.acquire c)) else none

end Sys

/-- `p` makes a call, on a pipe of which it has an end open. -/
def Sys.call (s : Sys) (p : Slot) (c : Call) : Option Sys :=
  if s.pc p = .user ∧ s.freed = false then some (s.goto p (.acquire c)) else none

def next (s : Sys) : Act → Option Sys
  | .pipewrite p n => s.call p (.write n 0)
  | .piperead p n => s.call p (.read n)
  | .pipeclose p w => s.call p (.close w)
  | .run p mem => s.step p mem
  | .kill q => some { s with
      killed := update s.killed q true
      sleeping := update s.sleeping q none }
  | .renew q =>
    if s.pc q = .user then some { s with killed := update s.killed q false } else none

section Updates

variable (s : Sys) (p q : Slot)

@[simp] theorem Sys.rouse_sleeping (chan : Chan) : (s.rouse p chan).sleeping q =
    if q = p ∧ s.sleeping q = some chan then none else s.sleeping q := by
  refine (update_apply ..).trans ?_
  by_cases hq : q = p
  · subst hq
    simp
  · simp [hq]

variable {s p q} in
theorem Sys.sleeping_of_rouse {chan chan' : Chan} (h : (s.rouse p chan).sleeping q = some chan') :
    s.sleeping q = some chan' := by
  rw [rouse_sleeping] at h
  split at h
  · exact absurd h (by simp)
  · exact h

@[simp] theorem Sys.sleep_sleeping (chan : Chan) (c : Call) : (s.sleep p chan c).sleeping q =
    if q = p then some chan else s.sleeping q := update_apply ..

end Updates

/-! ## What a step does -/

inductive Go (pi : Pipe) : Pc → Pc → Prop where
  | writeMore {n i told : Int} : i < n → pi.readopen = true →
    Go pi (.write n i told) (.writeKilled n i told)
  | writeEnd {n i told : Int} : Go pi (.write n i told) (.wakeup .nread 0 (.wrote i))
  | writeAlive {n i told : Int} : Go pi (.writeKilled n i told) (.writeFull n i told)
  | writeFull {n i told : Int} : pi.Full →
    Go pi (.writeFull n i told) (.wakeup .nread 0 (.sleep n i))
  | writeFault {n i told : Int} : Go pi (.writeFull n i told) (.wakeup .nread 0 (.wrote i))
  | readEmpty {n : Int} : pi.Empty → pi.writeopen = true → Go pi (.read n) (.readKilled n)
  | readStart {n : Int} : ¬(pi.Empty ∧ pi.writeopen = true) → Go pi (.read n) (.copy n 0)
  | readAlive {n : Int} : Go pi (.readKilled n) (.readSleep n)
  | readEnd {n i : Int} : ¬(i < n ∧ ¬pi.Empty) →
    Go pi (.copy n i) (.wakeup .nwrite 0 (.read n i false))

/-- What a process finds when it returns early, without `wakeup`. -/
inductive Leaves (pi : Pipe) (killed : Bool) : Pc → Prop where
  | noReader {n i told : Int} : pi.readopen = false → Leaves pi killed (.write n i told)
  | writeKilled {n i told : Int} : killed = true → Leaves pi killed (.writeKilled n i told)
  | readKilled {n : Int} : killed = true → Leaves pi killed (.readKilled n)

inductive Step (s : Sys) : Sys → Prop where
  | call (p : Slot) (c : Call) : s.pc p = .user → Step s (s.goto p (.acquire c))
  | acquire (p : Slot) (c : Call) : s.pc p = .acquire c → s.lock = none →
    Step s { s.goto p c.enter with lock := some p }
  | go (p : Slot) (pc : Pc) : Go s.pipe (s.pc p) pc → Step s (s.goto p pc)
  | leave (p : Slot) : Leaves s.pipe (s.killed p) (s.pc p) → Step s (s.release p)
  | store (p : Slot) (n i told : Int) (ch : UInt8) : s.pc p = .writeFull n i told →
    ¬s.pipe.Full → Step s { s.goto p (.write n (i + 1) told) with
      pipe := s.pipe.store ch
      put := s.put ++ [ch] }
  | take (p : Slot) (n i : Int) (pc : Pc) : s.pc p = .copy n i → i < n → ¬s.pipe.Empty →
    pc = .copy n (i + 1) ∨ pc = .wakeup .nwrite 0 (.read n i true) →
    Step s { s.goto p pc with
      pipe := s.pipe.advance
      got := s.got ++ [s.pipe.front] }
  | close (p : Slot) (w : Bool) : s.pc p = .close w →
    Step s { s.goto p (.wakeup (if w then .nread else .nwrite) 0 .closed) with
      pipe := s.pipe.close w }
  | rouse (p : Slot) (chan : Chan) (j : Nat) (k : After) (h : j < nproc) :
    s.pc p = .wakeup chan j k → Step s ((s.rouse ⟨j, h⟩ chan).goto p (.wakeup chan (j + 1) k))
  | finish (p : Slot) (chan : Chan) (j : Nat) (k : After) : s.pc p = .wakeup chan j k →
    nproc ≤ j → Step s (s.finish p k)
  | sleep (p : Slot) (n : Int) : s.pc p = .readSleep n → Step s (s.sleep p .nread (.read n))
  | awake (p : Slot) (c : Call) : s.pc p = .asleep c → s.sleeping p = none →
    Step s (s.goto p (.acquire c))
  | kill (q : Slot) : Step s { s with
      killed := update s.killed q true
      sleeping := update s.sleeping q none }
  | renew (q : Slot) : Step s { s with killed := update s.killed q false }

theorem step_of_step {s t : Sys} {p : Slot} {mem : Option UInt8} (h : s.step p mem = some t) :
    Step s t := by
  rw [Sys.step] at h
  cases hpc : s.pc p with
  | user => simp [hpc] at h
  | acquire c =>
    simp only [hpc, Option.ite_none_right_eq_some, Option.some_inj] at h
    obtain ⟨⟨hlock, -⟩, rfl⟩ := h
    exact .acquire p c hpc hlock
  | write n i told =>
    simp only [hpc] at h
    split at h
    · split at h
      · cases h
        exact .go p _ (hpc ▸ .writeMore ‹_› ‹_›)
      · rename_i hclosed
        cases h
        exact .leave p (hpc ▸ .noReader (Bool.eq_false_of_not_eq_true hclosed))
    · cases h
      exact .go p _ (hpc ▸ .writeEnd)
  | writeKilled n i told =>
    simp only [hpc] at h
    split at h
    · cases h
      exact .leave p (hpc ▸ .writeKilled ‹_›)
    · cases h
      exact .go p _ (hpc ▸ .writeAlive)
  | writeFull n i told =>
    simp only [hpc] at h
    split at h
    · cases h
      exact .go p _ (hpc ▸ .writeFull ‹_›)
    · split at h
      · cases h
        exact .go p _ (hpc ▸ .writeFault)
      · cases h
        exact .store p n i told _ hpc ‹_›
  | read n =>
    simp only [hpc] at h
    split at h
    · rename_i hempty
      cases h
      exact .go p _ (hpc ▸ .readEmpty hempty.1 hempty.2)
    · cases h
      exact .go p _ (hpc ▸ .readStart ‹_›)
  | readKilled n =>
    simp only [hpc] at h
    split at h
    · cases h
      exact .leave p (hpc ▸ .readKilled ‹_›)
    · cases h
      exact .go p _ (hpc ▸ .readAlive)
  | readSleep n =>
    simp only [hpc] at h
    cases h
    exact .sleep p n hpc
  | copy n i =>
    simp only [hpc] at h
    split at h
    · rename_i hmore
      cases h
      refine .take p n i _ hpc hmore.1 hmore.2 ?_
      split
      · exact .inl rfl
      · exact .inr rfl
    · cases h
      exact .go p _ (hpc ▸ .readEnd ‹_›)
  | close w =>
    simp only [hpc] at h
    cases h
    exact .close p w hpc
  | wakeup chan j k =>
    simp only [hpc] at h
    split at h
    · cases h
      exact .rouse p chan j k _ hpc
    · cases h
      exact .finish p chan j k hpc (by omega)
  | asleep c =>
    simp only [hpc, Option.ite_none_right_eq_some, Option.some_inj] at h
    obtain ⟨hs, rfl⟩ := h
    exact .awake p c hpc hs

theorem Sys.step_of_call {s t : Sys} {p : Slot} {c : Call} (h : s.call p c = some t) : Step s t := by
  rw [Sys.call, Option.ite_none_right_eq_some, Option.some_inj] at h
  obtain ⟨⟨hpc, -⟩, rfl⟩ := h
  exact .call p c hpc

theorem step_of_next {s t : Sys} {a : Act} (h : next s a = some t) : Step s t := by
  cases a with
  | pipewrite p n => exact s.step_of_call h
  | piperead p n => exact s.step_of_call h
  | pipeclose p w => exact s.step_of_call h
  | run p mem => exact step_of_step h
  | kill q =>
    cases h
    exact .kill q
  | renew q =>
    rw [next, Option.ite_none_right_eq_some, Option.some_inj] at h
    obtain ⟨-, rfl⟩ := h
    exact .renew q

/-! ## The lock -/

def Pc.Knows (pi : Pipe) : Pc → Prop
  | .write _ i told => told ≤ i ∧ (told < i → pi.readopen = true)
  | .writeKilled _ i told | .writeFull _ i told => told ≤ i ∧ pi.readopen = true
  | .wakeup _ _ (.sleep _ _) => pi.Full ∧ pi.readopen = true
  | .readKilled _ | .readSleep _ => pi.Empty ∧ pi.writeopen = true
  | .copy _ i => 0 ≤ i ∧ (i = 0 → ¬(pi.Empty ∧ pi.writeopen = true))
  | .wakeup _ _ (.read n i false) => i = 0 → 0 < n → pi.Empty ∧ pi.writeopen = false
  | _ => True

def Call.sleepsOn : Call → Option Chan
  | .write _ _ => some .nwrite
  | .read _ => some .nread
  | .close _ => none

/-- Whoever holds the lock is at a point where it does, and knows something; whoever sleeps is in
`sleep`. -/
structure Held (s : Sys) : Prop where
  lock : Lock.Held Pc.holds s.lock s.pc
  knows : ∀ p, (s.pc p).Knows s.pipe
  asleep : ∀ p chan, s.sleeping p = some chan → ∃ c, s.pc p = .asleep c ∧ c.sleepsOn = some chan

section Held

variable {s t : Sys} {p : Slot} {pc : Pc}

theorem Pc.knows_of_not_holds {pi : Pipe} {pc : Pc} (h : pc.holds = false) : pc.Knows pi := by
  cases pc with
  | user => trivial
  | acquire c => trivial
  | asleep c => trivial
  | _ => exact absurd h (by simp [holds])

theorem Pc.knows_wakeup {pi : Pipe} {chan : Chan} {j j' : Nat} {k : After}
    (h : (Pc.wakeup chan j k).Knows pi) : (Pc.wakeup chan j' k).Knows pi := by
  cases k with
  | sleep n i => exact h
  | wrote i => trivial
  | read n i fault =>
    cases fault with
    | false => exact h
    | true => trivial
  | closed => trivial

section

variable (h : Held s)
include h

theorem Held.not_sleeping (hpc : ∀ c, s.pc p ≠ .asleep c) : s.sleeping p = none := by
  cases hs : s.sleeping p with
  | none => rfl
  | some chan =>
    obtain ⟨c, hc, -⟩ := h.asleep p chan hs
    exact absurd hc (hpc c)

theorem Held.not_sleeping_of_holds (hp : s.lock = some p) : s.sleeping p = none := by
  refine h.not_sleeping fun c hc => ?_
  have hholds := (h.lock p).mpr hp
  rw [hc] at hholds
  exact absurd hholds (by simp [Pc.holds])

theorem Held.asleep_update (hs : s.sleeping p = none) {q : Slot} {chan : Chan}
    (hq : s.sleeping q = some chan) :
    ∃ c, update s.pc p pc q = .asleep c ∧ c.sleepsOn = some chan := by
  have hqp : q ≠ p := by
    rintro rfl
    exact absurd (hs.symm.trans hq) (by simp)
  rw [update_of_ne hqp]
  exact h.asleep q chan hq

theorem Held.keep (hp : s.lock = some p) (hlock : t.lock = s.lock)
    (hpc : t.pc = update s.pc p pc) (hholds : pc.holds = true) (hknows : pc.Knows t.pipe)
    (hsleep : ∀ q chan, t.sleeping q = some chan → s.sleeping q = some chan) : Held t where
  lock := by
    rw [hpc, hlock]
    exact h.lock.keep hp hholds
  knows := by
    rw [hpc]
    exact h.lock.forall_update hp (fun _ => Pc.knows_of_not_holds) hknows
  asleep q chan hq := by
    rw [hpc]
    exact h.asleep_update (h.not_sleeping_of_holds hp) (hsleep q chan hq)

theorem Held.drop (hp : s.lock = some p) (hlock : t.lock = none)
    (hpc : t.pc = update s.pc p pc) (hholds : pc.holds = false)
    (hsleep : ∀ q ≠ p, t.sleeping q = s.sleeping q)
    (hself : ∀ chan, t.sleeping p = some chan → ∃ c, pc = .asleep c ∧ c.sleepsOn = some chan) :
    Held t where
  lock := by
    rw [hpc, hlock]
    exact h.lock.drop hp hholds
  knows := by
    rw [hpc]
    exact h.lock.forall_update hp (fun _ => Pc.knows_of_not_holds) (Pc.knows_of_not_holds hholds)
  asleep q chan hq := by
    by_cases hqp : q = p
    · rw [hpc, hqp, update_self]
      exact hself chan (hqp ▸ hq)
    · rw [hpc]
      exact h.asleep_update (h.not_sleeping_of_holds hp) (hsleep q hqp ▸ hq)

theorem Held.outside (hold : (s.pc p).holds = false) (hholds : pc.holds = false)
    (hs : s.sleeping p = none) : Held (s.goto p pc) where
  lock := h.lock.outside hold hholds
  knows := Lock.forall_update h.knows (Pc.knows_of_not_holds hholds)
  asleep _ _ hq := h.asleep_update hs hq

theorem Held.take (hfree : s.lock = none) (hholds : pc.holds = true)
    (hknows : pc.Knows s.pipe) (hs : s.sleeping p = none) :
    Held { s.goto p pc with lock := some p } where
  lock := (hfree ▸ h.lock).take hholds
  knows := Lock.forall_update h.knows hknows
  asleep _ _ hq := h.asleep_update hs hq

end

theorem Go.knows {pi : Pipe} {pc' : Pc} (h : Go pi pc pc') (hpc : pc.Knows pi) :
    pc.holds = true ∧ pc'.holds = true ∧ pc'.Knows pi := by
  cases h with
  | writeMore _ hopen => exact ⟨rfl, rfl, hpc.1, hopen⟩
  | writeEnd => exact ⟨rfl, rfl, trivial⟩
  | writeAlive => exact ⟨rfl, rfl, hpc⟩
  | writeFull hfull => exact ⟨rfl, rfl, hfull, hpc.2⟩
  | writeFault => exact ⟨rfl, rfl, trivial⟩
  | readEmpty hempty hopen => exact ⟨rfl, rfl, hempty, hopen⟩
  | readStart hmore => exact ⟨rfl, rfl, Int.le_refl 0, fun _ => hmore⟩
  | readAlive => exact ⟨rfl, rfl, hpc⟩
  | readEnd hend =>
    refine ⟨rfl, rfl, fun h0 hn => ?_⟩
    obtain ⟨-, hmore⟩ := hpc
    have hempty : pi.Empty := by
      by_contra hne
      exact hend ⟨by omega, hne⟩
    refine ⟨hempty, ?_⟩
    by_contra hopen
    exact hmore h0 ⟨hempty, by simpa using hopen⟩

theorem Leaves.holds {pi : Pipe} {killed : Bool} (h : Leaves pi killed pc) : pc.holds = true := by
  cases h <;> rfl

theorem Held.step (h : Held s) (hstep : Step s t) : Held t := by
  have hmine : ∀ {p : Slot}, (s.pc p).holds = true → s.lock = some p := fun {p} => (h.lock p).mp
  cases hstep with
  | call p c hpc =>
    exact h.outside (by rw [hpc]; rfl) rfl (h.not_sleeping (by simp [hpc]))
  | acquire p c hpc hfree =>
    have henter : c.enter.holds = true ∧ c.enter.Knows s.pipe := by
      cases c with
      | write n i => exact ⟨rfl, Int.le_refl i, fun hlt => absurd hlt (Int.lt_irrefl i)⟩
      | read n => exact ⟨rfl, trivial⟩
      | close w => exact ⟨rfl, trivial⟩
    exact h.take hfree henter.1 henter.2 (h.not_sleeping (by simp [hpc]))
  | go p pc hgo =>
    obtain ⟨hold, hholds, hknows⟩ := hgo.knows (h.knows p)
    exact h.keep (hmine hold) rfl rfl hholds hknows fun q chan hq => hq
  | leave p hleave =>
    have hp := hmine hleave.holds
    exact h.drop hp rfl rfl rfl (fun q _ => rfl) fun chan hs =>
      absurd ((h.not_sleeping_of_holds hp).symm.trans hs) (by simp)
  | store p n i told ch hpc hfull =>
    have hp := hmine (p := p) (by rw [hpc]; rfl)
    have hknows := h.knows p
    rw [hpc] at hknows
    exact h.keep hp rfl rfl rfl ⟨by have := hknows.1; omega, fun _ => hknows.2⟩ fun q chan hq => hq
  | take p n i pc hpc hi hempty hor =>
    have hp := hmine (p := p) (by rw [hpc]; rfl)
    have hknows := h.knows p
    rw [hpc] at hknows
    rcases hor with rfl | rfl
    · exact h.keep hp rfl rfl rfl ⟨by have := hknows.1; omega, by have := hknows.1; omega⟩
        fun q chan hq => hq
    · exact h.keep hp rfl rfl rfl trivial fun q chan hq => hq
  | close p w hpc =>
    have hp := hmine (p := p) (by rw [hpc]; rfl)
    exact h.keep hp rfl rfl rfl trivial fun q chan hq => hq
  | rouse p chan j k hj hpc =>
    have hp := hmine (p := p) (by rw [hpc]; rfl)
    have hknows := h.knows p
    rw [hpc] at hknows
    exact h.keep hp rfl rfl rfl (Pc.knows_wakeup hknows) fun q chan' => Sys.sleeping_of_rouse
  | finish p chan j k hpc hj =>
    have hp := hmine (p := p) (by rw [hpc]; rfl)
    have hs := h.not_sleeping (p := p) (by simp [hpc])
    have hnone : ∀ chan, s.sleeping p = some chan → ∃ c, Pc.user = .asleep c ∧
        c.sleepsOn = some chan := fun chan heq => absurd (hs.symm.trans heq) (by simp)
    cases k with
    | sleep n i =>
      refine h.drop hp rfl rfl rfl (fun q hq => update_of_ne hq ..) fun chan heq => ?_
      refine ⟨_, rfl, ?_⟩
      rw [Sys.finish, Sys.sleep_sleeping, if_pos rfl] at heq
      exact heq
    | wrote i => exact h.drop hp rfl rfl rfl (fun q _ => rfl) hnone
    | read n i fault => exact h.drop hp rfl rfl rfl (fun q _ => rfl) hnone
    | closed => exact h.drop hp rfl rfl rfl (fun q _ => rfl) hnone
  | sleep p n hpc =>
    have hp := hmine (p := p) (by rw [hpc]; rfl)
    refine h.drop hp rfl rfl rfl (fun q hq => update_of_ne hq ..) fun chan heq => ?_
    refine ⟨_, rfl, ?_⟩
    rw [Sys.sleep_sleeping, if_pos rfl] at heq
    exact heq
  | awake p c hpc hs => exact h.outside (by rw [hpc]; rfl) rfl hs
  | kill q =>
    refine ⟨h.lock, h.knows, fun p chan hp => ?_⟩
    change update s.sleeping q none p = some chan at hp
    rw [update_apply] at hp
    split at hp
    · exact absurd hp (by simp)
    · exact h.asleep p chan hp
  | renew q => exact ⟨h.lock, h.knows, h.asleep⟩

theorem held_init (data : Fin pipesize → UInt8) : Held (Sys.init data) where
  lock p := by simp [Sys.init, Pc.holds]
  knows p := trivial
  asleep p chan hp := absurd hp (by simp [Sys.init])

end Held

end Pipes

end Xv6
