import Xv6.Console.Calls
import Xv6.Files.Calls
import Xv6.Pipe.Calls
import Xv6.Vm.Copy

/-!
# `read` into user memory

`fileread` of `kernel/file.c` for one open file, with `piperead`, `consoleread` and `readi` down to
`copyout`.  The state is what the call works on: the memory, the inodes, and the pipe of the file or the
buffer of the console.

A call that has to wait gives up its lock, and others run.  `wakes` says what it finds: for each time
that it looks at `killed` before it sleeps, whether it has been killed and, if not, the pipe and the
buffer when it goes on.  User memory is not part of that, since nobody else changes it.

`stored` is a history variable: the user addresses at which a byte has been stored.
-/

namespace Xv6

namespace Read

open Vm Prog

/-- What a process finds that has to wait. -/
structure Wake where
  killed : Bool
  pipe : Pipes.Pipe
  cons : Console.Cons

structure State where
  ram : Ram
  vol : Fs.Vol
  file : Files.File
  pipe : Pipes.Pipe
  cons : Console.Cons
  wakes : List Wake
  stored : List Nat

abbrev R : Type → Type := EStateM Stop State

def onRam {α : Type} (m : VM α) : R α := fun s =>
  match m s.ram with
  | .ok a t => .ok a { s with ram := t }
  | .error e t => .error e { s with ram := t }

def onVol {α : Type} (m : Fs.V α) : R α := fun s =>
  match m s.vol with
  | .ok a t => .ok a { s with vol := t }
  | .error e t => .error e { s with vol := t }

/-- How many of the `len` bytes from `dst` on are mapped before the first one that is not. -/
def reach (page : Nat → Page) (pagetable : Nat) : Nat → Nat → Nat
  | _, 0 => 0
  | dst, len + 1 =>
    if uaddr page pagetable dst = none then 0 else reach page pagetable (dst + 1) len + 1

/-- `copyout`, with the history of what it stores. -/
def copyOut (pagetable dst : Nat) (src : Nat → UInt8) (len : Nat) : R Int := do
  let s ← get
  let r ← onRam (copyout pagetable dst src len)
  modify fun t => { t with
    stored := t.stored ++ (List.range (reach s.ram.page pagetable dst len)).map (dst + ·) }
  pure r

/-- `killed(myproc())`, and `sleep` if it is not. -/
def killedOrSleep : R Bool := do
  let s ← get
  match s.wakes with
  | [] => throw .blocked
  | w :: wakes =>
    if w.killed then pure true
    else do
      set { s with pipe := w.pipe, cons := w.cons, wakes := wakes }
      pure false

/-! ## `kernel/pipe.c` -/

/-- The loop of `piperead` that waits, as often as there is fuel; `false` if the process is killed. -/
def pipeWait : Nat → R Bool
  | 0 => throw .blocked
  | fuel + 1 => do
    let s ← get
    if s.pipe.Empty ∧ s.pipe.writeopen = true then
      if ← killedOrSleep then pure false else pipeWait fuel
    else pure true

/-- The loop of `piperead` that copies, with `i` bytes copied and `k` rounds to go. -/
def pipeCopy (pagetable addr : Nat) : Nat → Nat → R Int
  | 0, i => pure i
  | k + 1, i => do
    let s ← get
    if s.pipe.Empty then pure i
    else
      set { s with pipe := s.pipe.advance }
      if (← copyOut pagetable (u64 (addr + i)) (fun _ => s.pipe.front) 1) = -1 then pure i
      else pipeCopy pagetable addr k (i + 1)

def piperead (pagetable addr : Nat) (n : Int) : R Int := do
  let s ← get
  if ← pipeWait (s.wakes.length + 1) then pipeCopy pagetable addr n.toNat 0 else pure (-1)

/-! ## `kernel/console.c` -/

/-- The loop of `consoleread`, with `n` of `target` bytes to go. -/
def consoleFrom (pagetable target : Nat) : Nat → Nat → Nat → R Int
  | 0, _, _ => throw .blocked
  | _ + 1, _, 0 => pure target
  | fuel + 1, dst, n + 1 => do
    let s ← get
    if s.cons.r = s.cons.w then
      if ← killedOrSleep then pure (-1) else consoleFrom pagetable target fuel dst (n + 1)
    else
      let c := s.cons.byte s.cons.r
      set { s with cons := { s.cons with r := s.cons.r + 1 } }
      if c = Console.ctrlD then
        -- save ^D for next time, to make sure caller gets a 0-byte result
        if n + 1 < target then set s
        pure (target - (n + 1 : Nat) : Int)
      else if (← copyOut pagetable dst (fun _ => c) 1) = -1 then pure (target - (n + 1 : Nat) : Int)
      else if c = Console.newline then pure (target - n : Int)
      else consoleFrom pagetable target fuel (u64 (dst + 1)) n

/-- `consoleread`; for a negative `n` the loop is not entered, and the difference of `target` and `n` is
zero. -/
def consoleread (pagetable dst : Nat) (n : Int) : R Int := do
  let s ← get
  consoleFrom pagetable n.toNat (s.wakes.length + n.toNat + 1) dst n.toNat

/-! ## `kernel/fs.c` and `kernel/file.c` -/

section Programs

variable (L : Fs.Layout)

/-- The loop of `readi`, with `tot` bytes read and `fuel` rounds left. -/
def readFrom (pagetable dst i off n : Nat) : Nat → Nat → R Int
  | 0, tot => pure (int32 tot)
  | fuel + 1, tot =>
    if tot < n then do
      let addr ← onVol (Fs.Vol.bmap L i ((off + tot) / bsize))
      if addr = 0 then pure (int32 tot)
      else
        let s ← get
        let m := min (n - tot) (bsize - (off + tot) % bsize)
        let data := fun k => (s.vol.block addr).byte ((off + tot) % bsize + k)
        if (← copyOut pagetable (u64 (dst + tot)) data m) = -1 then pure (-1)
        else readFrom pagetable dst i off n fuel (tot + m)
    else pure (int32 tot)

def readi (pagetable dst i : Nat) (off n : UInt32) : R Int := do
  let s ← get
  let size := (s.vol.mem i).size.toNat
  -- `off + n < off`: the sum does not fit 32 bits
  if size < off.toNat ∨ 2 ^ 32 ≤ off.toNat + n.toNat then pure 0
  else
    let n := if size < off.toNat + n.toNat then size - off.toNat else n.toNat
    readFrom L pagetable dst i off.toNat n n 0

/-- The device whose `devsw[major].read` is set. -/
abbrev console : Int := 1

def fileread (pagetable addr : Nat) (n : Int) : R Int := do
  let s ← get
  if s.file.readable = false then pure (-1)
  else match s.file.type with
  | .pipe => piperead pagetable addr n
  | .device =>
    if s.file.major < 0 ∨ ndev ≤ s.file.major ∨ s.file.major ≠ console then pure (-1)
    else consoleread pagetable addr n
  | .inode => do
    onVol (Fs.Vol.ilock L s.file.ip)
    let r ← readi L pagetable addr s.file.ip s.file.off (.ofInt n)
    if 0 < r then
      modify fun s => { s with file := { s.file with off := s.file.off + .ofInt r } }
    pure r
  | .none => throw (.panic .fileread)

end Programs

end Read

end Xv6
