import Xv6.Lib.Machine
import Mathlib.Logic.Function.Basic

/-!
# Console input

`consoleintr` and `consoleread` of `kernel/console.c`.  Both hold `cons.lock` from beginning to end,
except that `consoleread` gives it up in `sleep`, so that a step is one character, or the part of a
read up to where it sleeps or returns.  `killed(myproc())` and the results of `either_copyout` come
from outside, and a reader that sleeps may be woken at any time.  Echoing is left out.
-/

namespace Xv6.Console

abbrev inputBufSize : Nat := 128
abbrev ctrlD : UInt8 := 0x04
abbrev ctrlH : UInt8 := 0x08
/-- `C('P')`: print the process list. -/
abbrev ctrlP : UInt8 := 0x10
abbrev ctrlU : UInt8 := 0x15
abbrev delete : UInt8 := 0x7f
abbrev newline : UInt8 := 0x0a
abbrev creturn : UInt8 := 0x0d

/-- `cons`, without its lock. -/
structure Cons where
  buf : Fin inputBufSize → UInt8
  r : UInt32
  w : UInt32
  e : UInt32

namespace Cons

/-- `cons.buf[k % INPUT_BUF_SIZE]`. -/
def byte (s : Cons) (k : UInt32) : UInt8 := s.buf (Fin.ofNat inputBufSize k.toNat)

def window (s : Cons) (a b : UInt32) : List UInt8 :=
  (List.range (b - a).toNat).map fun k => s.byte (a + .ofNat k)

/-- `cons.buf[cons.e++ % INPUT_BUF_SIZE] = c`. -/
def store (s : Cons) (c : UInt8) : Cons :=
  { s with buf := Function.update s.buf (Fin.ofNat inputBufSize s.e.toNat) c, e := s.e + 1 }

/-- The loop for `C('U')`, with `f` rounds left. -/
def killLine : Nat → Cons → Cons
  | 0, s => s
  | f + 1, s =>
    if s.e ≠ s.w ∧ s.byte (s.e - 1) ≠ newline then killLine f { s with e := s.e - 1 } else s

end Cons

def cooked (c : UInt8) : UInt8 := if c = creturn then newline else c

def consoleintr (c : UInt8) (s : Cons) : Cons :=
  if c = ctrlP then s
  else if c = ctrlU then s.killLine (s.e - s.w).toNat
  else if c = ctrlH ∨ c = delete then
    if s.e ≠ s.w then { s with e := s.e - 1 } else s
  else if c ≠ 0 ∧ s.e - s.r < .ofNat inputBufSize then
    let s := s.store (cooked c)
    -- a whole line (or end-of-file) has arrived
    if cooked c = newline ∨ cooked c = ctrlD ∨ s.e - s.r = .ofNat inputBufSize then
      { s with w := s.e }
    else s
  else s

inductive Event where
  | deliver (p : Nat) (c : UInt8)
  | eof (p : Nat)
  | lost (p : Nat) (c : UInt8)
  | saved (p : Nat)
  | ret (p : Nat) (v : Int)
  deriving DecidableEq, Repr

/-- `consoleread` from the head of its loop, with `n` of `target` bytes still to be read: the new
`cons`, what happens, and how many bytes are left if it sleeps.  `copy k` says whether byte `k` of the
reader's buffer can be written. -/
def consoleread (p target : Nat) (killed : Bool) (copy : Nat → Bool) :
    Nat → Cons → Cons × List Event × Option Nat
  | 0, s => (s, [.ret p target], none)
  | n + 1, s =>
    if s.r = s.w then
      if killed then (s, [.ret p (-1)], none) else (s, [], some (n + 1))
    else
      let c := s.byte s.r
      let s := { s with r := s.r + 1 }
      if c = ctrlD then
        if n + 1 < target then
          -- save ^D for next time, to make sure caller gets a 0-byte result
          ({ s with r := s.r - 1 }, [.saved p, .ret p (target - (n + 1))], none)
        else (s, [.eof p, .ret p (target - (n + 1))], none)
      else if copy (target - (n + 1)) = false then
        (s, [.lost p c, .ret p (target - (n + 1))], none)
      else if c = newline then (s, [.deliver p c, .ret p (target - n)], none)
      else
        let x := consoleread p target killed copy n s
        (x.1, .deliver p c :: x.2.1, x.2.2)

/-! ## Runs -/

structure State where
  cons : Cons
  /-- The readers that sleep: how many bytes they still want, and how many they wanted. -/
  reader : Nat → Option (Nat × Nat)
  log : List Event

inductive Act where
  | intr (c : UInt8)
  | read (p : Nat) (n : Int) (killed : Bool) (copy : Nat → Bool)
  | resume (p : Nat) (killed : Bool) (copy : Nat → Bool)

def State.turn (s : State) (p target : Nat) (killed : Bool) (copy : Nat → Bool) (n : Nat) : State :=
  let x := consoleread p target killed copy n s.cons
  { cons := x.1
    reader := Function.update s.reader p (x.2.2.map (·, target))
    log := s.log ++ x.2.1 }

def next (s : State) : Act → Option State
  | .intr c => some { s with cons := consoleintr c s.cons }
  | .read p n killed copy =>
    if s.reader p = none then some (s.turn p n.toNat killed copy n.toNat) else none
  | .resume p killed copy =>
    match s.reader p with
    | none => none
    | some (n, target) => some (s.turn p target killed copy n)

def State.boot : State := ⟨⟨fun _ => 0, 0, 0, 0⟩, fun _ => none, []⟩

end Xv6.Console
