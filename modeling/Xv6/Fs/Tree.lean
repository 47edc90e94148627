import Xv6.Fs.Calls
import Xv6.Lib.Machine
import Xv6.Lib.Prog
import Mathlib.Logic.Function.Basic

/-!
# Directories as lists of entries

The inode layer of `kernel/fs.c` as the directory code sees it.  An inode has a type, a link count
and, if it is a directory, a list of entries; the contents of files are left out.  What has been read
into the table is what the disk has, since every change is followed by `iupdate`.

An entry is written into the first empty slot, which always succeeds, or at the end of the directory.
The latter may need a block: `Tree.grow` says, for each write that extends a directory, whether the
disk has one.
-/

open Function (update)

namespace Xv6.Fs

open Prog

/-! ## Inodes and directories -/

structure Dirent where
  inum : Nat
  name : Name
  deriving DecidableEq, Repr

structure Inode where
  type : FType
  nlink : Int
  major : Int
  minor : Int
  ents : List Dirent
  deriving DecidableEq, Repr

def Inode.free : Inode := ⟨.none, 0, 0, 0, []⟩

structure Tree where
  inode : Nat → Inode
  /-- `ref` of the inode in the table; not positive if it is not there. -/
  ref : Nat → Int
  valid : Nat → Bool
  inuse : Nat
  /-- Whether the next writes that extend a directory succeed; if the list is used up they do. -/
  grow : List Bool

abbrev M : Type → Type := EStateM Stop Tree

namespace Tree

def setInode (t : Tree) (i : Nat) (x : Inode) : Tree :=
  { t with inode := update t.inode i x }

def iget (i : Nat) : M Unit := do
  let t ← get
  if 0 < t.ref i then set { t with ref := update t.ref i (t.ref i + 1) }
  else if t.inuse ≥ ninode then throw (.panic .igetNoInodes)
  else set { t with
    ref := update t.ref i 1
    valid := update t.valid i false
    inuse := t.inuse + 1 }

def idup (i : Nat) : M Unit :=
  modify fun t => { t with ref := update t.ref i (t.ref i + 1) }

def ilock (i : Nat) : M Unit := do
  let t ← get
  if t.ref i < 1 then throw (.panic .ilock)
  else if t.valid i = false then
    set { t with valid := update t.valid i true }
    if (t.inode i).type = .none then throw (.panic .ilockNoType)

/-- `iunlock`: apart from its check it only gives the lock back. -/
def iunlock (i : Nat) : M Unit := do
  if (← get).ref i < 1 then throw (.panic .iunlock)

/-- `iput` up to `ref--`: an inode without links and without other references is truncated and
freed. -/
def reclaim (t : Tree) (i : Nat) : Tree :=
  if t.ref i = 1 ∧ t.valid i = true ∧ (t.inode i).nlink = 0 then
    { t.setInode i { t.inode i with ents := [], type := .none } with
      valid := update t.valid i false }
  else t

def iput (i : Nat) : M Unit :=
  modify fun t =>
    { t.reclaim i with
      ref := update t.ref i (t.ref i - 1)
      inuse := if t.ref i = 1 then t.inuse - 1 else t.inuse }

/-- The first free inode that `ialloc` finds. -/
def freeInode (t : Tree) : Option Nat :=
  (List.range' 1 (ninodes - 1)).find? fun i => (t.inode i).type = .none

def ialloc (type : FType) : M (Option Nat) := do
  let t ← get
  match t.freeInode with
  | none => return none
  | some i =>
    set (t.setInode i { Inode.free with type })
    iget i
    return some i

def findName (ents : List Dirent) (name : Name) : Option Nat :=
  ents.findIdx? fun e => e.inum ≠ 0 ∧ e.name = name

def dirlookup (dp : Nat) (name : Name) : M (Option (Nat × Nat)) := do
  let t ← get
  if (t.inode dp).type ≠ .dir then throw (.panic .dirlookupNotDir)
  else match findName (t.inode dp).ents name with
  | none => return none
  | some off =>
    let inum := ((t.inode dp).ents.getD off ⟨0, []⟩).inum
    iget inum
    return some (inum, off)

/-- `writei` of one entry, at a slot of the directory or at its end. -/
def writeEntry (dp off : Nat) (de : Dirent) : M Bool := do
  let t ← get
  let ents := (t.inode dp).ents
  if off < ents.length then
    set (t.setInode dp { t.inode dp with ents := ents.set off de })
    return true
  else if maxFile * bsize < 16 * (off + 1) then return false
  else
    let t' := { t with grow := t.grow.tail }
    if t.grow.headD true then
      set (t'.setInode dp { t.inode dp with ents := ents ++ [de] })
      return true
    else
      set t'
      return false

def dirlink (dp : Nat) (name : Name) (inum : Nat) : M Bool := do
  match ← dirlookup dp name with
  | some (ip, _) =>
    iput ip
    return false
  | none =>
    let t ← get
    writeEntry dp ((t.inode dp).ents.findIdx fun e => e.inum = 0) ⟨inum % 2 ^ 16, name⟩

def isdirempty (dp : Nat) : M Bool := do
  let t ← get
  return ((t.inode dp).ents.drop 2).all fun e => e.inum = 0

def setNlink (i : Nat) (n : Int) : M Unit :=
  modify fun t => t.setInode i { t.inode i with nlink := int16 n }

/-- Store `ip->major`, `ip->minor` and `ip->nlink = 1`. -/
def setup (i : Nat) (major minor : Int) : M Unit :=
  modify fun t =>
    t.setInode i { t.inode i with major := int16 major, minor := int16 minor, nlink := 1 }

def itrunc (i : Nat) : M Unit := modify fun t => t.setInode i { t.inode i with ents := [] }

end Tree

def ops : Ops Tree where
  iget := Tree.iget
  idup := Tree.idup
  ilock := Tree.ilock
  iunlock := Tree.iunlock
  iput := Tree.iput
  ialloc := Tree.ialloc
  type i := do return ((← get).inode i).type
  major i := do return ((← get).inode i).major
  nlink i := do return ((← get).inode i).nlink
  setNlink := Tree.setNlink
  setup := Tree.setup
  dirlookup := Tree.dirlookup
  dirlink := Tree.dirlink
  isdirempty := Tree.isdirempty
  clearEntry dp off := Tree.writeEntry dp off ⟨0, []⟩
  itrunc := Tree.itrunc

/-! ## Processes -/

/-- `struct file`: its reference count and, unless it is `FD_NONE`, its inode. -/
structure File where
  ref : Int
  ip : Option Nat
  deriving DecidableEq, Repr

/-- The inodes, the file table and the processes. -/
structure Sys where
  tree : Tree
  alive : Nat → Bool
  cwd : Nat → Nat
  ofile : Nat → Nat → Option Nat
  file : Nat → File
  stop : Option Stop

abbrev P : Type → Type := EStateM Stop Sys

def onTree {α : Type} (m : M α) : P α := fun s =>
  match m s.tree with
  | .ok a t => .ok a { s with tree := t }
  | .error e t => .error e { s with tree := t }

def setOfile (p fd : Nat) (f : Option Nat) : P Unit :=
  modify fun s => { s with
    ofile := update s.ofile p (update (s.ofile p) fd f) }

def setFile (f : Nat) (x : File) : P Unit :=
  modify fun s => { s with file := update s.file f x }

def filealloc : P (Option Nat) := do
  let s ← get
  match (List.range nfile).find? fun f => (s.file f).ref = 0 with
  | none => return none
  | some f =>
    setFile f { s.file f with ref := 1 }
    return some f

def fdalloc (p f : Nat) : P (Option Nat) := do
  let s ← get
  match (List.range nofile).find? fun fd => s.ofile p fd = none with
  | none => return none
  | some fd =>
    setOfile p fd (some f)
    return some fd

def filedup (f : Nat) : P Unit := do
  let s ← get
  if (s.file f).ref < 1 then throw (.panic .filedup)
  else setFile f { s.file f with ref := (s.file f).ref + 1 }

def fileclose (f : Nat) : P Unit := do
  let s ← get
  if (s.file f).ref < 1 then throw (.panic .fileclose)
  else if 0 < (s.file f).ref - 1 then setFile f { s.file f with ref := (s.file f).ref - 1 }
  else
    setFile f ⟨0, none⟩
    match (s.file f).ip with
    | none => return ()
    | some ip => onTree (ops.iput ip)

/-- `sys_open` once the file has been allocated. -/
def openFile (p ip omode f : Nat) : P Int := do
  match ← fdalloc p f with
  | none =>
    fileclose f
    onTree (ops.iput ip)
    return -1
  | some fd =>
    let s ← get
    setFile f { s.file f with ip := some ip }
    let type ← onTree (ops.type ip)
    if omode &&& oTrunc ≠ 0 ∧ type = .file then
      onTree (ops.itrunc ip)
      return fd
    else return fd

def sysOpen (p : Nat) (path : List Char) (omode : Nat) : P Int := do
  let s ← get
  match ← onTree (openInode ops (s.cwd p) path omode) with
  | none => return -1
  | some ip =>
    match ← filealloc with
    | none =>
      onTree (ops.iput ip)
      return -1
    | some f => openFile p ip omode f

def sysChdir (p : Nat) (path : List Char) : P Int := do
  let s ← get
  if maxPath ≤ path.length then return -1
  else match ← onTree (namei ops (s.cwd p) path) with
  | none => return -1
  | some ip =>
    onTree (ops.ilock ip)
    let type ← onTree (ops.type ip)
    if type ≠ .dir then
      onTree (ops.iput ip)
      return -1
    else
      onTree (ops.iput (s.cwd p))
      modify fun s => { s with cwd := update s.cwd p ip }
      return 0

def closeFd (p fd : Nat) : P Unit := do
  let s ← get
  match s.ofile p fd with
  | none => return ()
  | some f =>
    setOfile p fd none
    fileclose f

def sysClose (p fd : Nat) : P Int := do
  let s ← get
  if nofile ≤ fd ∨ s.ofile p fd = none then return -1
  else
    closeFd p fd
    return 0

/-- `exit`, as far as files are concerned. -/
def exit (p : Nat) : P Unit := do
  if p = 0 then throw (.panic .initExiting)
  else
    times (closeFd p) nofile
    let s ← get
    onTree (ops.iput (s.cwd p))
    modify fun s => { s with alive := update s.alive p false }

/-- The copy of one descriptor in `fork`. -/
def forkFd (p q fd : Nat) : P Unit := do
  let s ← get
  match s.ofile p fd with
  | none => return ()
  | some f =>
    filedup f
    setOfile q fd (some f)

/-- `fork`, as far as files are concerned, with `q` the new process. -/
def fork (p q : Nat) : P Unit := do
  times (forkFd p q) nofile
  let s ← get
  onTree (ops.idup (s.cwd p))
  modify fun s => { s with
    cwd := update s.cwd q (s.cwd p)
    alive := update s.alive q true }

/-! ## Runs -/

inductive Call where
  | open (path : List Char) (omode : Nat)
  | mkdir (path : List Char)
  | mknod (path : List Char) (major minor : Int)
  | link (old new : List Char)
  | unlink (path : List Char)
  | chdir (path : List Char)
  | close (fd : Nat)
  | exit
  | fork (q : Nat)
  deriving DecidableEq, Repr

/-- Process `p` makes a call; `grow` says which of the writes that extend a directory succeed. -/
structure Act where
  p : Nat
  call : Call
  grow : List Bool
  deriving DecidableEq, Repr

def Call.run (p cwd : Nat) : Call → P Unit
  | .open path omode => do let _ ← sysOpen p path omode
  | .mkdir path => do let _ ← onTree (sysMake ops cwd path .dir 0 0)
  | .mknod path major minor => do let _ ← onTree (sysMake ops cwd path .device major minor)
  | .link old new => do let _ ← onTree (sysLink ops cwd old new)
  | .unlink path => do let _ ← onTree (sysUnlink ops cwd path)
  | .chdir path => do let _ ← sysChdir p path
  | .close fd => do let _ ← sysClose p fd
  | .exit => Xv6.Fs.exit p
  | .fork q => Xv6.Fs.fork p q

def Call.Enabled (s : Sys) : Call → Prop
  | .fork q => s.alive q = false
  | _ => True

instance (s : Sys) : DecidablePred (Call.Enabled s)
  | .fork q => inferInstanceAs (Decidable (s.alive q = false))
  | .open _ _ | .mkdir _ | .mknod _ _ _ | .link _ _ | .unlink _ | .chdir _ | .close _ | .exit =>
    inferInstanceAs (Decidable True)

def next (s : Sys) (a : Act) : Option Sys :=
  if s.stop = none ∧ s.alive a.p = true ∧ a.call.Enabled s then
    match a.call.run a.p (s.cwd a.p) { s with tree := { s.tree with grow := a.grow } } with
    | .ok _ t => some t
    | .error e t => some { t with stop := some e }
  else none

/-! ## The file system that `mkfs` makes -/

/-- The entries of the root directory: `.`, `..`, the files, and empty slots up to the end of the
last block. -/
def rootEnts (names : List Name) : List Dirent :=
  ⟨rootIno, dot⟩ :: ⟨rootIno, dotdot⟩ :: ((names.zipIdx 2).map fun x => ⟨x.2, x.1⟩) ++
    List.replicate (64 - (2 + names.length) % 64) ⟨0, []⟩

/-- The inodes that `mkfs` makes: the root directory and a file for each name. -/
def mkfs (names : List Name) (i : Nat) : Inode :=
  if i = rootIno then ⟨.dir, 1, 0, 0, rootEnts names⟩
  else if 2 ≤ i ∧ i < 2 + names.length then ⟨.file, 1, 0, 0, []⟩
  else .free

def Sys.init (names : List Name) : Sys where
  tree :=
    { inode := mkfs names
      ref := fun i => if i = rootIno then 1 else 0
      valid := fun _ => false
      inuse := 1
      grow := [] }
  alive p := p = 0
  cwd _ := rootIno
  ofile _ _ := none
  file _ := ⟨0, none⟩
  stop := none

end Xv6.Fs
