import Xv6.Fs.Blocks
import Xv6.Lib.Machine

/-!
# Descriptors, open files and pipes

The system calls that work with files: `kernel/sysfile.c`, `kernel/file.c`, `kernel/pipe.c`,
`kernel/exec.c`, and `fork` and `exit` of `kernel/proc.c`, over inodes made of disk blocks.

What comes from outside is an argument: whether a string or a pointer of the user can be reached,
whether there is a page, whether the memory of a process can be copied or allocated, and what a pipe
or a device answers.  Calls run one after another, so `begin_op` does not wait.  Pipes are numbered in
the order in which they are allocated; a page that is used again is a new pipe.
-/

namespace Xv6.Files

open Function (update)
open Prog Fs

/-! ## The state -/

inductive FdType where
  | none
  | pipe
  | inode
  | device
  deriving DecidableEq, Repr

structure File where
  type : FdType
  ref : Int
  readable : Bool
  writable : Bool
  pipe : Nat
  ip : Nat
  off : UInt32
  major : Int
  deriving DecidableEq, Repr

/-- `struct pipe`, and how often its page has been freed. -/
structure Pipe where
  readopen : Bool
  writeopen : Bool
  freed : Nat
  deriving DecidableEq, Repr

/-- The part of the kernel that counts references. -/
structure State where
  vol : Vol
  outstanding : Int
  file : Nat → File
  pipe : Nat → Pipe
  npipe : Nat
  /-- Whether the process is in use: neither `UNUSED` nor `ZOMBIE`. -/
  alive : Nat → Bool
  ofile : Nat → Nat → Option Nat
  cwd : Nat → Option Nat

abbrev K : Type → Type := EStateM Stop State

def onVol {α : Type} (m : V α) : K α := fun s =>
  match m s.vol with
  | .ok a t => .ok a { s with vol := t }
  | .error e t => .error e { s with vol := t }

def beginOp : K Unit :=
  modify fun s => { s with outstanding := s.outstanding + 1, vol := { s.vol with inOp := true } }

/-- `end_op`: the last one commits. -/
def endOp : K Unit :=
  modify fun s => { s with
    outstanding := s.outstanding - 1
    vol := if s.outstanding - 1 = 0 then { s.vol with inOp := false, logged := [] } else s.vol }

def setFile (f : Nat) (x : File) : K Unit :=
  modify fun s => { s with file := update s.file f x }

def setOfile (p fd : Nat) (f : Option Nat) : K Unit :=
  modify fun s => { s with ofile := update s.ofile p (update (s.ofile p) fd f) }

def setCwd (p : Nat) (i : Option Nat) : K Unit :=
  modify fun s => { s with cwd := update s.cwd p i }

/-! ## `kernel/file.c` and `kernel/pipe.c` -/

def filealloc : K (Option Nat) := do
  let s ← get
  match (List.range nfile).find? fun f => (s.file f).ref = 0 with
  | none => return none
  | some f =>
    setFile f { s.file f with ref := 1 }
    return some f

def filedup (f : Nat) : K Unit := do
  let s ← get
  if (s.file f).ref < 1 then throw (.panic .filedup)
  else setFile f { s.file f with ref := (s.file f).ref + 1 }

def Pipe.close (x : Pipe) (writable : Bool) : Pipe :=
  let x := if writable then { x with writeopen := false } else { x with readopen := false }
  if x.readopen = false ∧ x.writeopen = false then { x with freed := x.freed + 1 } else x

def pipeclose (i : Nat) (writable : Bool) : K Unit :=
  modify fun s => { s with pipe := update s.pipe i ((s.pipe i).close writable) }

section Programs

variable (L : Layout)

def fileclose (f : Nat) : K Unit := do
  let s ← get
  let ff := s.file f
  if ff.ref < 1 then throw (.panic .fileclose)
  else if 0 < ff.ref - 1 then setFile f { ff with ref := ff.ref - 1 }
  else
    setFile f { ff with ref := 0, type := .none }
    match ff.type with
    | .pipe => pipeclose ff.pipe ff.writable
    | .inode | .device =>
      beginOp
      onVol (Vol.iput L ff.ip)
      endOp
    | .none => return ()

/-- `pipealloc` with a page from `kalloc`, or without one. -/
def pipealloc (page : Bool) : K (Option (Nat × Nat)) := do
  match ← filealloc with
  | none => return none
  | some f0 =>
    match ← filealloc with
    | none =>
      fileclose L f0
      return none
    | some f1 =>
      if page then
        let s ← get
        set { s with
          pipe := update s.pipe s.npipe ⟨true, true, 0⟩
          npipe := s.npipe + 1 }
        setFile f0 { s.file f0 with
          type := .pipe, readable := true, writable := false, pipe := s.npipe }
        setFile f1 { s.file f1 with
          type := .pipe, readable := false, writable := true, pipe := s.npipe }
        return some (f0, f1)
      else
        fileclose L f0
        fileclose L f1
        return none

/-- `filestat`; `out` says whether the result can be copied to the user. -/
def filestat (f : Nat) (out : Bool) : K Int := do
  let s ← get
  match (s.file f).type with
  | .inode | .device =>
    onVol (Vol.ilock L (s.file f).ip)
    return if out then 0 else -1
  | _ => return -1

/-- Add what has been read or written to `f->off`. -/
def addOff (f : Nat) (r : Int) : K Unit :=
  if 0 < r then
    modify fun s => { s with
      file := update s.file f { s.file f with off := (s.file f).off + .ofInt r } }
  else return ()

/-- `fileread` of `n` bytes, of which `ok` can be copied to the user; `answer` is what a pipe or a
device returns, if the device can be read. -/
def fileread (f : Nat) (n : Int) (ok : Nat) (answer : Option Int) : K Int := do
  let s ← get
  if (s.file f).readable = false then return -1
  else match (s.file f).type with
  | .pipe => return answer.getD (-1)
  | .device =>
    if (s.file f).major < 0 ∨ ndev ≤ (s.file f).major then return -1
    else return answer.getD (-1)
  | .inode =>
    onVol (Vol.ilock L (s.file f).ip)
    let r ← onVol (Vol.readi L (s.file f).ip (s.file f).off (.ofInt n) ok)
    addOff f r.1
    return r.1
  | .none => throw (.panic .fileread)

/-- The loop of `filewrite`, with `i` bytes written and `fuel` rounds left. -/
def writeChunks (f : Nat) (n : Int) (src : Nat → UInt8) (ok : Nat) : Nat → Nat → K Int
  | 0, i => return if i = n then n else -1
  | fuel + 1, i => do
    if i < n then
      let n1 := min (n.toNat - i) (((maxOpBlocks - 1 - 1 - 2) / 2) * bsize)
      let s ← get
      beginOp
      onVol (Vol.ilock L (s.file f).ip)
      let r ← onVol (Vol.writei L (s.file f).ip (s.file f).off (.ofNat n1)
        (fun k => src (i + k)) (ok - i))
      addOff f r
      endOp
      if r ≠ n1 then return -1
      else writeChunks f n src ok fuel (i + n1)
    else return if i = n then n else -1

/-- `filewrite` of `n` bytes, of which `ok` can be copied from the user. -/
def filewrite (f : Nat) (n : Int) (src : Nat → UInt8) (ok : Nat) (answer : Option Int) :
    K Int := do
  let s ← get
  if (s.file f).writable = false then return -1
  else match (s.file f).type with
  | .pipe => return answer.getD (-1)
  | .device =>
    if (s.file f).major < 0 ∨ ndev ≤ (s.file f).major then return -1
    else return answer.getD (-1)
  | .inode => writeChunks L f n src ok n.toNat 0
  | .none => throw (.panic .filewrite)

/-! ## `kernel/sysfile.c` -/

/-- `argstr` of a path: `none` if the string cannot be reached. -/
def argstr (path : Option (List Char)) : Option (List Char) :=
  path.filter fun s => s.length < maxPath

def argfd (p : Nat) (fd : Int) : K (Option (Nat × Nat)) := do
  let s ← get
  if fd < 0 ∨ nofile ≤ fd then return none
  else return (s.ofile p fd.toNat).map fun f => (fd.toNat, f)

def fdalloc (p f : Nat) : K (Option Nat) := do
  let s ← get
  match (List.range nofile).find? fun fd => s.ofile p fd = none with
  | none => return none
  | some fd =>
    setOfile p fd (some f)
    return some fd

def sysDup (p : Nat) (fd : Int) : K Int := do
  match ← argfd p fd with
  | none => return -1
  | some (_, f) =>
    match ← fdalloc p f with
    | none => return -1
    | some fd =>
      filedup f
      return fd

def sysRead (p : Nat) (fd n : Int) (ok : Nat) (answer : Option Int) : K Int := do
  match ← argfd p fd with
  | none => return -1
  | some (_, f) => fileread L f n ok answer

def sysWrite (p : Nat) (fd n : Int) (src : Nat → UInt8) (ok : Nat) (answer : Option Int) :
    K Int := do
  match ← argfd p fd with
  | none => return -1
  | some (_, f) => filewrite L f n src ok answer

def sysFstat (p : Nat) (fd : Int) (out : Bool) : K Int := do
  match ← argfd p fd with
  | none => return -1
  | some (_, f) => filestat L f out

def sysClose (p : Nat) (fd : Int) : K Int := do
  match ← argfd p fd with
  | none => return -1
  | some (fd, f) =>
    setOfile p fd none
    fileclose L f
    return 0

/-- `sys_link`, for a process in directory `cwd`. -/
def sysLink (cwd : Nat) (old new : Option (List Char)) : K Int := do
  match argstr old, argstr new with
  | some old, some new =>
    beginOp
    match ← onVol (namei (Vol.ops L) cwd old) with
    | none =>
      endOp
      return -1
    | some ip =>
      onVol (Vol.ilock L ip)
      if (← onVol ((Vol.ops L).type ip)) = .dir then
        onVol (Vol.iput L ip)
        endOp
        return -1
      else
        let n ← onVol ((Vol.ops L).nlink ip)
        onVol ((Vol.ops L).setNlink ip (n + 1))
        match ← onVol (nameiparent (Vol.ops L) cwd new) with
        | none => bad ip
        | some (dp, name) =>
          onVol (Vol.ilock L dp)
          if ← onVol (Vol.dirlink L dp name ip) then
            onVol (Vol.iput L dp)
            onVol (Vol.iput L ip)
            endOp
            return 0
          else
            onVol (Vol.iput L dp)
            bad ip
  | _, _ => return -1
where
  bad (ip : Nat) : K Int := do
    onVol (Vol.ilock L ip)
    let n ← onVol ((Vol.ops L).nlink ip)
    onVol ((Vol.ops L).setNlink ip (n - 1))
    onVol (Vol.iput L ip)
    endOp
    return -1

def sysUnlink (cwd : Nat) (path : Option (List Char)) : K Int := do
  match argstr path with
  | none => return -1
  | some path =>
    beginOp
    match ← onVol (nameiparent (Vol.ops L) cwd path) with
    | none =>
      endOp
      return -1
    | some (dp, name) =>
      onVol (Vol.ilock L dp)
      if name = dot ∨ name = dotdot then bad dp
      else match ← onVol (Vol.dirlookup L dp name) with
        | none => bad dp
        | some (ip, off) => found dp ip off
where
  /-- `dp` has an entry for `ip` at `off`. -/
  found (dp ip off : Nat) : K Int := do
    onVol (Vol.ilock L ip)
    if (← onVol ((Vol.ops L).nlink ip)) < 1 then throw (.panic .unlinkNlink)
    else
      let type ← onVol ((Vol.ops L).type ip)
      if ← onVol (if type = .dir then Vol.isdirempty L ip else pure true) then
        if ← onVol ((Vol.ops L).clearEntry dp off) then
          if type = .dir then
            let n ← onVol ((Vol.ops L).nlink dp)
            onVol ((Vol.ops L).setNlink dp (n - 1))
          onVol (Vol.iput L dp)
          let n ← onVol ((Vol.ops L).nlink ip)
          onVol ((Vol.ops L).setNlink ip (n - 1))
          onVol (Vol.iput L ip)
          endOp
          return 0
        else throw (.panic .unlinkWritei)
      else
        onVol (Vol.iput L ip)
        bad dp
  bad (dp : Nat) : K Int := do
    onVol (Vol.iput L dp)
    endOp
    return -1

def sysOpen (p cwd : Nat) (path : Option (List Char)) (omode : Nat) : K Int := do
  match argstr path with
  | none => return -1
  | some path =>
    beginOp
    match ← onVol (if omode &&& oCreate ≠ 0 then create (Vol.ops L) cwd path .file 0 0
        else openNamei (Vol.ops L) cwd path omode) with
    | none =>
      endOp
      return -1
    | some ip =>
      let type ← onVol ((Vol.ops L).type ip)
      let major ← onVol ((Vol.ops L).major ip)
      if type = .device ∧ (major < 0 ∨ ndev ≤ major) then bad ip
      else match ← filealloc with
        | none => bad ip
        | some f =>
          match ← fdalloc p f with
          | none =>
            fileclose L f
            bad ip
          | some fd =>
            let s ← get
            setFile f { s.file f with
              type := if type = .device then .device else .inode
              ip := ip
              off := if type = .device then (s.file f).off else 0
              major := if type = .device then major else (s.file f).major
              readable := omode &&& oWronly = 0
              writable := omode &&& oWronly ≠ 0 ∨ omode &&& oRdwr ≠ 0 }
            if omode &&& oTrunc ≠ 0 ∧ type = .file then onVol (Vol.itrunc L ip)
            endOp
            return fd
where
  oWronly : Nat := 0x001
  oRdwr : Nat := 0x002
  bad (ip : Nat) : K Int := do
    onVol (Vol.iput L ip)
    endOp
    return -1

/-- `sys_mkdir` and `sys_mknod`. -/
def sysMake (cwd : Nat) (path : Option (List Char)) (type : FType) (major minor : Int) :
    K Int := do
  beginOp
  match argstr path with
  | none =>
    endOp
    return -1
  | some path =>
    match ← onVol (create (Vol.ops L) cwd path type major minor) with
    | none =>
      endOp
      return -1
    | some ip =>
      onVol (Vol.iput L ip)
      endOp
      return 0

def sysChdir (p cwd : Nat) (path : Option (List Char)) : K Int := do
  beginOp
  match argstr path with
  | none =>
    endOp
    return -1
  | some path =>
    match ← onVol (namei (Vol.ops L) cwd path) with
    | none =>
      endOp
      return -1
    | some ip =>
      onVol (Vol.ilock L ip)
      if (← onVol ((Vol.ops L).type ip)) ≠ .dir then
        onVol (Vol.iput L ip)
        endOp
        return -1
      else
        onVol (Vol.iput L cwd)
        endOp
        setCwd p (some ip)
        return 0

/-- `sys_pipe`; `page` says whether there is a page, and the others whether the descriptors can be
copied to the user. -/
def sysPipe (p : Nat) (page out0 out1 : Bool) : K Int := do
  match ← pipealloc L page with
  | none => return -1
  | some (rf, wf) =>
    match ← fdalloc p rf with
    | none =>
      fileclose L rf
      fileclose L wf
      return -1
    | some fd0 =>
      match ← fdalloc p wf with
      | none =>
        setOfile p fd0 none
        fileclose L rf
        fileclose L wf
        return -1
      | some fd1 =>
        if out0 ∧ out1 then return 0
        else
          setOfile p fd0 none
          setOfile p fd1 none
          fileclose L rf
          fileclose L wf
          return -1

/-! ## `kernel/exec.c` -/

/-- The number in the `n` bytes at `off`, least significant byte first. -/
def field (bytes : List UInt8) (off : Nat) : Nat → Nat
  | 0 => 0
  | n + 1 => (bytes.getD off 0).toNat + 256 * field bytes (off + 1) n

/-- `readi` of `n` bytes into a buffer of the kernel, all of them or `none`. -/
def readAll (i : Nat) (off n : UInt32) : V (Option (List UInt8)) := do
  let (r, bytes) ← Vol.readi L i off n n.toNat
  return if r = n.toNat then some bytes else none

/-- The loop of `loadseg`, at page `k`, with `f` rounds left. -/
def loadsegFrom (ip : Nat) (offset : UInt32) (sz : Nat) : Nat → Nat → V Bool
  | 0, _ => return true
  | f + 1, k =>
    if 4096 * k < sz then do
      match ← readAll L ip (offset + .ofNat (4096 * k)) (.ofNat (min 4096 (sz - 4096 * k))) with
      | none => return false
      | some _ => loadsegFrom ip offset sz f (k + 1)
    else return true

/-- `loadseg`: the pages are there. -/
def loadseg (ip : Nat) (offset : UInt32) (sz : UInt32) : V Bool :=
  loadsegFrom L ip offset sz.toNat (sz.toNat / 4096 + 1) 0

/-- The loop of `exec` over the program headers, at header `i`, with `f` rounds left; `room i` says
whether the memory for it can be allocated. -/
def loadFrom (ip : Nat) (room : Nat → Bool) : Nat → Nat → UInt32 → V Bool
  | 0, _, _ => return true
  | f + 1, i, off => do
    match ← readAll L ip off 56 with
    | none => return false
    | some ph =>
      let type := field ph 0 4
      let offset := field ph 8 8
      let vaddr := field ph 16 8
      let filesz := field ph 32 8
      let memsz := field ph 40 8
      if type ≠ 1 then loadFrom ip room f (i + 1) (off + 56)
      else if memsz < filesz then return false
      else if (vaddr + memsz) % 2 ^ 64 < vaddr then return false
      else if vaddr % 4096 ≠ 0 then return false
      else if room i = false then return false
      else if ← loadseg L ip (.ofNat offset) (.ofNat filesz) then
        loadFrom ip room f (i + 1) (off + 56)
      else return false

/-- `exec` between `ilock` and `iunlockput`: whether the program has been loaded; `table` says whether
there is a page table. -/
def load (ip : Nat) (table : Bool) (room : Nat → Bool) : V Bool := do
  match ← readAll L ip 0 64 with
  | none => return false
  | some elf =>
    if field elf 0 4 ≠ 0x464C457F then return false
    else if table = false then return false
    else loadFrom L ip room (field elf 56 2) 0 (.ofNat (field elf 32 8))

/-- `exec`; `argc` is the number of arguments, if they fit the new stack. -/
def exec (cwd : Nat) (path : List Char) (table : Bool) (room : Nat → Bool) (argc : Option Nat) :
    K Int := do
  beginOp
  match ← onVol (namei (Vol.ops L) cwd path) with
  | none =>
    endOp
    return -1
  | some ip =>
    onVol (Vol.ilock L ip)
    if ← onVol (load L ip table room) then
      onVol (Vol.iput L ip)
      endOp
      return (argc.map Int.ofNat).getD (-1)
    else
      onVol (Vol.iput L ip)
      endOp
      return -1

/-- `sys_exec`; `args` says whether the arguments can be fetched. -/
def sysExec (cwd : Nat) (path : Option (List Char)) (args table : Bool) (room : Nat → Bool)
    (argc : Option Nat) : K Int :=
  match argstr path with
  | none => return -1
  | some path => if args then exec L cwd path table room argc else return -1

/-! ## `kernel/proc.c` -/

/-- The copy of one descriptor in `fork`. -/
def forkFd (p q fd : Nat) : K Unit := do
  let s ← get
  match s.ofile p fd with
  | none => return ()
  | some f =>
    filedup f
    setOfile q fd (some f)

/-- `fork`, as far as files are concerned: `q` is the process that `allocproc` has found, and `copied`
says whether the memory could be copied. -/
def fork (p cwd : Nat) (q : Option Nat) (copied : Bool) : K Int := do
  match q with
  | none => return -1
  | some q =>
    if copied then
      times (forkFd p q) nofile
      onVol (Vol.idup cwd)
      setCwd q (some cwd)
      modify fun s => { s with alive := update s.alive q true }
      return q
    else return -1

/-- One round of the loop of `exit`. -/
def exitFd (p fd : Nat) : K Unit := do
  let s ← get
  match s.ofile p fd with
  | none => return ()
  | some f =>
    fileclose L f
    setOfile p fd none

/-- `exit`, as far as files are concerned; process 0 is `initproc`. -/
def exit (p cwd : Nat) : K Int := do
  if p = 0 then throw (.panic .initExiting)
  else
    times (exitFd L p) nofile
    beginOp
    onVol (Vol.iput L cwd)
    endOp
    setCwd p none
    modify fun s => { s with alive := update s.alive p false }
    return 0

end Programs

/-! ## Runs -/

inductive Call where
  | open (path : Option (List Char)) (omode : Nat)
  | read (fd n : Int) (ok : Nat) (answer : Option Int)
  | write (fd n : Int) (src : Nat → UInt8) (ok : Nat) (answer : Option Int)
  | fstat (fd : Int) (out : Bool)
  | dup (fd : Int)
  | pipe (page out0 out1 : Bool)
  | close (fd : Int)
  | fork (q : Option Nat) (copied : Bool)
  | exec (path : Option (List Char)) (args table : Bool) (room : Nat → Bool) (argc : Option Nat)
  | chdir (path : Option (List Char))
  | mkdir (path : Option (List Char))
  | mknod (path : Option (List Char)) (major minor : Int)
  | link (old new : Option (List Char))
  | unlink (path : Option (List Char))
  | exit

def Call.run (L : Layout) (p cwd : Nat) : Call → K Int
  | .open path omode => sysOpen L p cwd path omode
  | .read fd n ok answer => sysRead L p fd n ok answer
  | .write fd n src ok answer => sysWrite L p fd n src ok answer
  | .fstat fd out => sysFstat L p fd out
  | .dup fd => sysDup p fd
  | .pipe page out0 out1 => sysPipe L p page out0 out1
  | .close fd => sysClose L p fd
  | .fork q copied => Files.fork p cwd q copied
  | .exec path args table room argc => sysExec L cwd path args table room argc
  | .chdir path => sysChdir L p cwd path
  | .mkdir path => sysMake L cwd path .dir 0 0
  | .mknod path major minor => sysMake L cwd path .device major minor
  | .link old new => sysLink L cwd old new
  | .unlink path => sysUnlink L cwd path
  | .exit => Files.exit L p cwd

/-- What `allocproc` finds is a process that is not in use. -/
def Call.Enabled (s : State) : Call → Prop
  | .fork (some q) _ => q < nproc ∧ s.alive q = false
  | _ => True

instance (s : State) : DecidablePred (Call.Enabled s)
  | .fork (some q) _ => inferInstanceAs (Decidable (q < nproc ∧ s.alive q = false))
  | .fork none _ | .open .. | .read .. | .write .. | .fstat .. | .dup _ | .pipe .. | .close _
  | .exec .. | .chdir _ | .mkdir _ | .mknod .. | .link .. | .unlink _ | .exit =>
    inferInstanceAs (Decidable True)

structure Act where
  p : Nat
  call : Call

def next (L : Layout) (s : State) (a : Act) : Option State :=
  match s.cwd a.p with
  | none => none
  | some cwd =>
    if s.alive a.p = true ∧ a.call.Enabled s then
      match a.call.run L a.p cwd s with
      | .ok _ t => some t
      | .error _ _ => none
    else none

def State.boot (disk : Nat → Block) : State where
  vol :=
    { block := disk
      ref := fun i => if i = rootIno then 1 else 0
      valid := fun _ => false
      mem := fun _ => .zero
      inuse := 1
      inOp := false
      logged := [] }
  outstanding := 0
  file _ := ⟨.none, 0, false, false, 0, 0, 0, 0⟩
  pipe _ := ⟨false, false, 0⟩
  npipe := 0
  alive p := p = 0
  ofile _ _ := none
  cwd p := if p = 0 then some rootIno else none

end Xv6.Files
