import Xv6.Lib.Machine
import Mathlib.Data.UInt
import Mathlib.Logic.Function.Basic

/-!
# `malloc` and `free` of user programs

`user/umalloc.c`.  Memory is a sequence of units of the size of a `Header`, and addresses count units.
A unit that does not hold a header holds data, which is a `Header` too as far as the memory is
concerned: the program can store anything there.  `base` is below the break, as the data of a program
is, and not at address zero.

The loops have fuel; running out of it is not something that the program does.  `sbrk` returns -1 when
an outside says so, and always when the break would get above `top`.
-/

namespace Xv6.Umalloc

/-- `union header`, `sizeof(Header)` bytes. -/
structure Header where
  ptr : Nat
  size : UInt32
  deriving DecidableEq, Repr

abbrev Mem := Nat → Header

def Mem.setPtr (m : Mem) (a v : Nat) : Mem := Function.update m a { m a with ptr := v }

def Mem.setSize (m : Mem) (a : Nat) (v : UInt32) : Mem := Function.update m a { m a with size := v }

def Mem.stop (m : Mem) (a : Nat) : Nat := a + (m a).size.toNat

structure State where
  mem : Mem
  freep : Nat
  brk : Nat
  live : List Nat

/-! ## `free` -/

def search (m : Mem) (bp : Nat) : Nat → Nat → Option Nat
  | 0, _ => none
  | n + 1, p =>
    if bp > p ∧ bp < (m p).ptr then some p
    else if p ≥ (m p).ptr ∧ (bp > p ∨ bp < (m p).ptr) then some p
    else search m bp n (m p).ptr

/-- Join `bp` with the upper neighbour, if they touch. -/
def joinUpper (m : Mem) (p bp : Nat) : Mem :=
  if m.stop bp = (m p).ptr then
    (m.setSize bp ((m bp).size + (m (m p).ptr).size)).setPtr bp (m (m p).ptr).ptr
  else m.setPtr bp (m p).ptr

/-- Join the lower neighbour with `bp`, if they touch. -/
def joinLower (m : Mem) (p bp : Nat) : Mem :=
  if m.stop p = bp then (m.setSize p ((m p).size + (m bp).size)).setPtr p (m bp).ptr
  else m.setPtr p bp

/-- `free` for the block with header `bp`. -/
def free (n : Nat) (s : State) (bp : Nat) : Option State :=
  (search s.mem bp n s.freep).map fun p =>
    { s with mem := joinLower (joinUpper s.mem p bp) p bp, freep := p }

/-! ## `malloc` -/

/-- How many units `morecore` asks for. -/
def coreUnits (nu : Nat) : Nat := if nu < 4096 then 4096 else nu

/-- `morecore`: the result is null or `freep`. -/
def morecore (top n : Nat) (ok : Bool) (s : State) (nu : Nat) : Option (Option Nat × State) :=
  let nu := coreUnits nu
  if ok = true ∧ s.brk + nu ≤ top then
    let hp := s.brk
    (free n { s with mem := s.mem.setSize hp (.ofNat nu), brk := s.brk + nu } hp).map fun s =>
      (some s.freep, s)
  else some (none, s)

/-- `nunits` for a request. -/
def units (nbytes : UInt32) : Nat := (nbytes.toNat + 16 - 1) / 16 + 1

/-- `malloc` takes a block off the list, or the end of it. -/
def takeBlock (s : State) (nunits prevp p : Nat) : Nat × State :=
  if (s.mem p).size = .ofNat nunits then
    (p, { s with mem := s.mem.setPtr prevp (s.mem p).ptr, freep := prevp })
  else
    let m := s.mem.setSize p ((s.mem p).size - .ofNat nunits)
    let q := m.stop p
    (q, { s with mem := m.setSize q (.ofNat nunits), freep := prevp })

/-- The loop of `malloc`, with `morecore` as a parameter. -/
def scanWith (more : Nat → State → Option (Option Nat × State)) (nunits : Nat) :
    Nat → State → Nat → Nat → Option (Option Nat × State)
  | 0, _, _, _ => none
  | n + 1, s, prevp, p =>
    if (s.mem p).size ≥ .ofNat nunits then
      let (q, s) := takeBlock s nunits prevp p
      some (some q, s)
    else if p = s.freep then
      match more n s with
      | none => none
      | some (none, s) => some (none, s)
      | some (some p, s) => scanWith more nunits n s p (s.mem p).ptr
    else scanWith more nunits n s p (s.mem p).ptr

def scan (top : Nat) (ok : Bool) (nunits : Nat) : Nat → State → Nat → Nat →
    Option (Option Nat × State) :=
  scanWith (fun n s => morecore top n ok s nunits) nunits

/-- `if((prevp = freep) == 0)`. -/
def init (base : Nat) (s : State) : State :=
  if s.freep = 0 then { s with mem := (s.mem.setPtr base base).setSize base 0, freep := base } else s

/-- `malloc`: the result is null or the header of the block. -/
def malloc (base top n : Nat) (ok : Bool) (s : State) (nbytes : UInt32) :
    Option (Option Nat × State) :=
  let s := init base s
  scan top ok (units nbytes) n s s.freep (s.mem s.freep).ptr

/-! ## Runs -/

inductive Act where
  | malloc (nbytes : UInt32) (ok : Bool)
  | free (bp : Nat)
  | store (a : Nat) (v : Header)

/-- The address is behind the header of a block in use. -/
def State.Data (s : State) (a : Nat) : Prop := ∃ p ∈ s.live, p < a ∧ a < s.mem.stop p

instance (s : State) (a : Nat) : Decidable (s.Data a) :=
  inferInstanceAs (Decidable (∃ p ∈ s.live, p < a ∧ a < s.mem.stop p))

/-- What the program may do: requests for less than `2^31` bytes from `sbrk`, and only blocks in use. -/
def Act.Allowed (s : State) : Act → Prop
  | .malloc nbytes _ => coreUnits (units nbytes) * 16 < 2 ^ 31
  | .free bp => bp ∈ s.live
  | .store a _ => s.Data a

instance (s : State) : DecidablePred (Act.Allowed s)
  | .malloc nbytes _ => inferInstanceAs (Decidable (coreUnits (units nbytes) * 16 < 2 ^ 31))
  | .free bp => inferInstanceAs (Decidable (bp ∈ s.live))
  | .store a _ => inferInstanceAs (Decidable (s.Data a))

def Act.exec (base top n : Nat) (s : State) : Act → Option (Option Nat × State)
  | .malloc nbytes ok =>
    (Umalloc.malloc base top n ok s nbytes).map fun (r, s) => (r, { s with live := r.toList ++ s.live })
  | .free bp => (Umalloc.free n s bp).map fun s => (none, { s with live := s.live.erase bp })
  | .store a v => some (none, { s with mem := Function.update s.mem a v })

def next (base top n : Nat) (s : State) (a : Act) : Option State :=
  if a.Allowed s then (a.exec base top n s).map Prod.snd else none

def State.start (m : Mem) (lo : Nat) : State := ⟨m, 0, lo, []⟩

end Xv6.Umalloc
