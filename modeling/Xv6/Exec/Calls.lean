import Xv6.Vm.Uvm

/-!
# Loading a program

`kernel/exec.c`, with the headers of `kernel/elf.h`.  The file is given by its contents, or `none` if
`namei` does not find it; `readi` on these contents is the one of `kernel/fs.c` for a kernel address.
The strings in `argv` come without their final zero.

A jump to `bad` is a result `false` or `none`, together with the size that has been reached.
-/

namespace Xv6

namespace Exec

open Vm Prog

/-- The fields of `struct proc` that `exec` and its relatives use. -/
structure Proc where
  pagetable : Nat
  sz : Nat
  trapframe : Nat
  name : List UInt8
  deriving DecidableEq

structure File where
  data : List UInt8
  le : data.length ≤ maxFile * bsize

/-- `readi(ip, 0, dst, off, n)`: the bytes that are read. -/
def readi (file : File) (off n : Nat) : List UInt8 :=
  -- `off + n < off`: the sum does not fit 32 bits
  if file.data.length < off ∨ 2 ^ 32 ≤ off + n then [] else (file.data.drop off).take n

/-- The number in `k` bytes at `off`, least significant byte first. -/
def le (l : List UInt8) (off : Nat) : Nat → Nat
  | 0 => 0
  | k + 1 => (l.getD off 0).toNat + 256 * le l (off + 1) k

/-! ## `kernel/elf.h` -/

abbrev elfMagic : Nat := 0x464C457F
abbrev elfhdrSize : Nat := 64
abbrev proghdrSize : Nat := 56
abbrev elfProgLoad : Nat := 1

/-- The fields of `struct elfhdr` that are used. -/
structure Elfhdr where
  magic : Nat
  entry : Nat
  phoff : Nat
  phnum : Nat
  deriving DecidableEq, Repr

/-- The fields of `struct proghdr` that are used. -/
structure Proghdr where
  type : Nat
  flags : Nat
  off : Nat
  vaddr : Nat
  filesz : Nat
  memsz : Nat
  deriving DecidableEq, Repr

def elfhdr (l : List UInt8) : Elfhdr := ⟨le l 0 4, le l 24 8, le l 32 8, le l 56 2⟩

def proghdr (l : List UInt8) : Proghdr := ⟨le l 0 4, le l 4 4, le l 8 8, le l 16 8, le l 32 8, le l 40 8⟩

/-! ## `kernel/exec.c` -/

def flags2perm (flags : Nat) : Nat :=
  (if flags &&& 1 ≠ 0 then pteX else 0) ||| if flags &&& 2 ≠ 0 then pteW else 0

/-- The loop in `loadseg`, for as many rounds as there is fuel.  If `i` came round to zero again, the
fuel would not be enough. -/
def loadsegFrom (pagetable va : Nat) (file : File) (offset sz : Nat) : Nat → Nat → VM Bool
  | 0, _ => throw .fault
  | fuel + 1, i =>
    if sz ≤ i then pure true
    else do
      match ← walkaddr pagetable (u64 (va + i)) with
      | none => throw (.panic .loadseg)
      | some pa => do
        let n := if sz - i < pgsize then sz - i else pgsize
        let data := readi file (u32 (offset + i)) n
        moveIn pa 0 data.length (data.getD · 0)
        if data.length ≠ n then pure false
        else loadsegFrom pagetable va file offset sz fuel (u32 (i + pgsize))

/-- `loadseg(pagetable, va, ip, offset, sz)`; `false` is -1. -/
def loadseg (pagetable va : Nat) (file : File) (offset sz : Nat) : VM Bool :=
  loadsegFrom pagetable va file offset sz (sz / pgsize + 2) 0

/-- What `exec` does with a program header when it has reached the size `sz`. -/
def loadPhdr (b : Boot) (pagetable : Nat) (file : File) (ph : Proghdr) (sz : Nat) :
    VM (Bool × Nat) := do
  if ph.type ≠ elfProgLoad then pure (true, sz)
  else if ph.memsz < ph.filesz then pure (false, sz)
  else if u64 (ph.vaddr + ph.memsz) < ph.vaddr then pure (false, sz)
  else if ph.vaddr % pgsize ≠ 0 then pure (false, sz)
  else
    let sz1 ← uvmalloc b pagetable sz (u64 (ph.vaddr + ph.memsz)) (flags2perm ph.flags)
    if sz1 = 0 then pure (false, sz)
    else
      let ok ← loadseg pagetable ph.vaddr file (u32 ph.off) (u32 ph.filesz)
      pure (ok, sz1)

/-- The loop in `exec` over the program headers, with `n` of them to go.  The offset is an `int`, but
`readi` takes it for a `uint`. -/
def loadPhdrs (b : Boot) (pagetable : Nat) (file : File) : Nat → Nat → Nat → VM (Bool × Nat)
  | 0, _, sz => pure (true, sz)
  | n + 1, off, sz =>
    let ph := readi file off proghdrSize
    if ph.length ≠ proghdrSize then pure (false, sz)
    else do
      let r ← loadPhdr b pagetable file (proghdr ph) sz
      if r.1 then loadPhdrs b pagetable file n (u32 (off + proghdrSize)) r.2 else pure r

/-- `sp -= n; sp -= sp % 16`. -/
def push (sp n : Nat) : Nat := u64 (sp + 2 ^ 64 - n) - u64 (sp + 2 ^ 64 - n) % 16

/-- The loop in `exec` that pushes the argument strings, after `ustack` has been filled so far. -/
def pushArgs (pagetable stackbase : Nat) : List (List UInt8) → Nat → List Nat →
    VM (Option (Nat × List Nat))
  | [], sp, ustack => pure (some (sp, ustack))
  | arg :: argv, sp, ustack =>
    if maxArg ≤ ustack.length then pure none
    else
      let sp := push sp (arg.length + 1)
      if sp < stackbase then pure none
      else do
        if (← copyout pagetable sp (arg.getD · 0) (arg.length + 1)) < 0 then pure none
        else pushArgs pagetable stackbase argv sp (ustack ++ [sp])

def uint64s (l : List Nat) (i : Nat) : UInt8 := .ofNat (l.getD (i / 8) 0 / 256 ^ (i % 8))

/-- The arguments: the strings, and the array of pointers to them.  `ustack[argc] = 0` with
`argc = MAXARG` would be a write outside the array. -/
def pushStack (pagetable stackbase : Nat) (argv : List (List UInt8)) (sp : Nat) : VM (Option Nat) := do
  match ← pushArgs pagetable stackbase argv sp [] with
  | none => pure none
  | some (sp, ustack) =>
    if maxArg ≤ ustack.length then throw .fault
    else
      let sp := push sp ((ustack.length + 1) * 8)
      if sp < stackbase then pure none
      else do
        if (← copyout pagetable sp (uint64s (ustack ++ [0])) ((ustack.length + 1) * 8)) < 0 then pure none
        else pure (some sp)

def baseName (path : List UInt8) : List UInt8 := (path.reverse.takeWhile (· ≠ 47)).reverse

/-- Where the fields of the trapframe are, in 64-bit words. -/
abbrev tfEpc : Nat := 3
abbrev tfSp : Nat := 6
abbrev tfA1 : Nat := 15

/-- The label `bad`, when there is a page table to free. -/
def bad (b : Boot) (pagetable sz : Nat) : VM (Option (Nat × Nat × Nat)) := do
  procFreepagetable b pagetable sz
  pure none

/-- `exec` after the program has been loaded into `pagetable`, up to the size `sz`: the stack. -/
def start (b : Boot) (argv : List (List UInt8)) (pagetable sz : Nat) :
    VM (Option (Nat × Nat × Nat)) := do
  let sz := pgroundup sz
  let sz1 ← uvmalloc b pagetable sz (u64 (sz + 2 * pgsize)) pteW
  if sz1 = 0 then bad b pagetable sz
  else
    uvmclear pagetable (u64 (sz1 + 2 ^ 64 - 2 * pgsize))
    match ← pushStack pagetable (u64 (sz1 + 2 ^ 64 - pgsize)) argv sz1 with
    | none => bad b pagetable sz1
    | some sp => pure (some (pagetable, sz1, sp))

/-- `exec` up to the point from which on nothing can fail: the new page table, its size and the stack
pointer, or `none` where `exec` returns -1. -/
def prepare (b : Boot) (tf : Nat) (file : File) (argv : List (List UInt8)) :
    VM (Option (Nat × Nat × Nat)) := do
  let hdr := readi file 0 elfhdrSize
  let elf := elfhdr hdr
  if hdr.length ≠ elfhdrSize then pure none
  else if elf.magic ≠ elfMagic then pure none
  else
    match ← procPagetable b tf with
    | none => pure none
    | some pagetable => do
      let r ← loadPhdrs b pagetable file elf.phnum (u32 elf.phoff) 0
      if r.1 then start b argv pagetable r.2 else bad b pagetable r.2

def commit (b : Boot) (p : Proc) (path : List UInt8) (entry : Nat) (argc pagetable sz sp : Nat) :
    VM (Int × Proc) := do
  store p.trapframe tfA1 sp
  store p.trapframe tfEpc entry
  store p.trapframe tfSp sp
  procFreepagetable b p.pagetable p.sz
  pure (argc, { p with
    pagetable := pagetable
    sz := sz
    name := (baseName path).take 15 })

def exec (b : Boot) (p : Proc) (path : List UInt8) (file : Option File)
    (argv : List (List UInt8)) : VM (Int × Proc) := do
  match file with
  | none => pure (-1, p)
  | some file =>
    match ← prepare b p.trapframe file argv with
    | none => pure (-1, p)
    | some (pagetable, sz, sp) =>
      commit b p path (elfhdr (readi file 0 elfhdrSize)).entry argv.length pagetable sz sp

end Exec

end Xv6
