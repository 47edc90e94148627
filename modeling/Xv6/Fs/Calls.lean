import Xv6.Param
import Mathlib.Data.List.Basic

/-!
# Paths and the calls that change directories

The part of `kernel/fs.c` and `kernel/sysfile.c` that works with names.  It is written once, over the
operations on inodes that it uses (`Ops`), so that the same code runs over inodes whose contents are
lists of entries and over inodes made of disk blocks.  An inode in the table is known by its number.
Calls run one after another, so the locks of inodes are left out, and `iunlockput` is `iput`.
-/

namespace Xv6.Fs

/-! ## Paths -/

/-- A name in a directory, at most `DIRSIZ` characters long. -/
abbrev Name : Type := List Char

abbrev dot : Name := ['.']

abbrev dotdot : Name := ['.', '.']

/-- `skipelem`: the first element of a path, cut to `DIRSIZ` characters, and the rest without leading
slashes. -/
def skipelem (path : List Char) : Option (Name × List Char) :=
  match path.dropWhile (· = '/') with
  | [] => none
  | c :: s => some (((c :: s).takeWhile (· ≠ '/')).take dirsiz,
      ((c :: s).dropWhile (· ≠ '/')).dropWhile (· = '/'))

/-- The elements that `skipelem` finds in a path, given enough fuel. -/
def elemsAux : Nat → List Char → List Name
  | 0, _ => []
  | n + 1, path => match skipelem path with
    | none => []
    | some (name, rest) => name :: elemsAux n rest

/-- The elements that the loop of `namex` finds in a path. -/
def elems (path : List Char) : List Name := elemsAux path.length path

/-! ## Inodes -/

inductive FType where
  | none
  | dir
  | file
  | device
  deriving DecidableEq, Repr

/-- The operations of `fs.c` that the calls use. -/
structure Ops (σ : Type) where
  iget : Nat → EStateM Stop σ Unit
  idup : Nat → EStateM Stop σ Unit
  ilock : Nat → EStateM Stop σ Unit
  iunlock : Nat → EStateM Stop σ Unit
  /-- `iput`, and `iunlockput`: no other process waits for the lock. -/
  iput : Nat → EStateM Stop σ Unit
  ialloc : FType → EStateM Stop σ (Option Nat)
  type : Nat → EStateM Stop σ FType
  major : Nat → EStateM Stop σ Int
  nlink : Nat → EStateM Stop σ Int
  setNlink : Nat → Int → EStateM Stop σ Unit
  /-- Store `ip->major`, `ip->minor` and `ip->nlink = 1`, and `iupdate`. -/
  setup : Nat → Int → Int → EStateM Stop σ Unit
  /-- `dirlookup`: the inode that the name refers to, with a reference, and where the entry is. -/
  dirlookup : Nat → Name → EStateM Stop σ (Option (Nat × Nat))
  dirlink : Nat → Name → Nat → EStateM Stop σ Bool
  isdirempty : Nat → EStateM Stop σ Bool
  clearEntry : Nat → Nat → EStateM Stop σ Bool
  itrunc : Nat → EStateM Stop σ Unit

section Programs

variable {σ : Type} (o : Ops σ)

/-! ## Following a path -/

/-- The loop of `namex`, at inode `ip` with the given elements left. -/
def namexFrom (nameiparent : Bool) : Nat → List Name → EStateM Stop σ (Option (Nat × Name))
  | ip, [] =>
    if nameiparent then do
      o.iput ip
      return none
    else return some (ip, [])
  | ip, name :: path => do
    o.ilock ip
    let type ← o.type ip
    if type ≠ .dir then
      o.iput ip
      return none
    else if nameiparent ∧ path = [] then
      -- stop one level early
      o.iunlock ip
      return some (ip, name)
    else
      let next ← o.dirlookup ip name
      o.iput ip
      match next with
      | none => return none
      | some (next, _) => namexFrom nameiparent next path

/-- `namex`, for a process whose current directory is `cwd`. -/
def namex (cwd : Nat) (path : List Char) (nameiparent : Bool) :
    EStateM Stop σ (Option (Nat × Name)) :=
  if path.head? = some '/' then do
    o.iget rootIno
    namexFrom o nameiparent rootIno (elems path)
  else do
    o.idup cwd
    namexFrom o nameiparent cwd (elems path)

def namei (cwd : Nat) (path : List Char) : EStateM Stop σ (Option Nat) := do
  let ip ← namex o cwd path false
  return ip.map (·.1)

def nameiparent (cwd : Nat) (path : List Char) : EStateM Stop σ (Option (Nat × Name)) :=
  namex o cwd path true

/-! ## The calls -/

/-- The entries `.` and `..` of a new directory; there is no `ip->nlink++` for the first, to avoid a
cyclic reference count. -/
def createDots (dp ip : Nat) : EStateM Stop σ Bool := do
  let ok ← o.dirlink ip dot ip
  if ok then o.dirlink ip dotdot dp else return false

/-- The label `fail` of `create`. -/
def createFail (dp ip : Nat) : EStateM Stop σ (Option Nat) := do
  o.setNlink ip 0
  o.iput ip
  o.iput dp
  return none

/-- `create` once the entry has been written. -/
def createDone (dp ip : Nat) (type : FType) : EStateM Stop σ (Option Nat) := do
  if type = .dir then
    -- for ".."
    let n ← o.nlink dp
    o.setNlink dp (n + 1)
    o.iput dp
    return some ip
  else
    o.iput dp
    return some ip

/-- `create` from the first `iupdate` on. -/
def createAt (dp : Nat) (name : Name) (type : FType) (ip : Nat) :
    EStateM Stop σ (Option Nat) := do
  let ok ← if type = .dir then createDots o dp ip else pure true
  if ok then
    let ok ← o.dirlink dp name ip
    if ok then createDone o dp ip type else createFail o dp ip
  else createFail o dp ip

def create (cwd : Nat) (path : List Char) (type : FType) (major minor : Int) :
    EStateM Stop σ (Option Nat) := do
  match ← nameiparent o cwd path with
  | none => return none
  | some (dp, name) =>
    o.ilock dp
    match ← o.dirlookup dp name with
    | some (ip, _) =>
      o.iput dp
      o.ilock ip
      let t ← o.type ip
      if type = .file ∧ (t = .file ∨ t = .device) then return some ip
      else
        o.iput ip
        return none
    | none =>
      match ← o.ialloc type with
      | none =>
        o.iput dp
        return none
      | some ip =>
        o.ilock ip
        o.setup ip major minor
        createAt o dp name type ip

/-- The label `bad` of `sys_link`. -/
def sysLinkBad (ip : Nat) : EStateM Stop σ Int := do
  o.ilock ip
  let n ← o.nlink ip
  o.setNlink ip (n - 1)
  o.iput ip
  return -1

def sysLink (cwd : Nat) (old new : List Char) : EStateM Stop σ Int := do
  if maxPath ≤ old.length ∨ maxPath ≤ new.length then return -1
  else match ← namei o cwd old with
  | none => return -1
  | some ip =>
    o.ilock ip
    let type ← o.type ip
    if type = .dir then
      o.iput ip
      return -1
    else
      let n ← o.nlink ip
      o.setNlink ip (n + 1)
      o.iunlock ip
      match ← nameiparent o cwd new with
      | none => sysLinkBad o ip
      | some (dp, name) =>
        o.ilock dp
        let ok ← o.dirlink dp name ip
        o.iput dp
        if ok then
          o.iput ip
          return 0
        else sysLinkBad o ip

/-- `sys_unlink` once the entry has been cleared. -/
def sysUnlinkDone (dp ip : Nat) (type : FType) : EStateM Stop σ Int := do
  if type = .dir then
    let n ← o.nlink dp
    o.setNlink dp (n - 1)
  o.iput dp
  let n ← o.nlink ip
  o.setNlink ip (n - 1)
  o.iput ip
  return 0

/-- `sys_unlink` from `ilock(ip)` on. -/
def sysUnlinkAt (dp ip off : Nat) : EStateM Stop σ Int := do
  o.ilock ip
  let n ← o.nlink ip
  let type ← o.type ip
  if n < 1 then throw (.panic .unlinkNlink)
  else
    let empty ← if type = .dir then o.isdirempty ip else pure true
    if empty then
      let ok ← o.clearEntry dp off
      if ok then sysUnlinkDone o dp ip type else throw (.panic .unlinkWritei)
    else
      o.iput ip
      o.iput dp
      return -1

def sysUnlink (cwd : Nat) (path : List Char) : EStateM Stop σ Int := do
  if maxPath ≤ path.length then return -1
  else match ← nameiparent o cwd path with
  | none => return -1
  | some (dp, name) =>
    o.ilock dp
    if name = dot ∨ name = dotdot then
      o.iput dp
      return -1
    else match ← o.dirlookup dp name with
    | none =>
      o.iput dp
      return -1
    | some (ip, off) => sysUnlinkAt o dp ip off

/-- `sys_mkdir` and `sys_mknod`. -/
def sysMake (cwd : Nat) (path : List Char) (type : FType) (major minor : Int) :
    EStateM Stop σ Int := do
  if maxPath ≤ path.length then return -1
  else match ← create o cwd path type major minor with
  | none => return -1
  | some ip =>
    o.iput ip
    return 0

abbrev oRdonly : Nat := 0x000
abbrev oCreate : Nat := 0x200
abbrev oTrunc : Nat := 0x400

/-- `sys_open` without `O_CREATE`: the inode of the path, locked. -/
def openNamei (cwd : Nat) (path : List Char) (omode : Nat) : EStateM Stop σ (Option Nat) := do
  match ← namei o cwd path with
  | none => return none
  | some ip =>
    o.ilock ip
    let type ← o.type ip
    if type = .dir ∧ omode ≠ oRdonly then
      o.iput ip
      return none
    else return some ip

/-- `sys_open` up to the allocation of the file: the inode to open. -/
def openInode (cwd : Nat) (path : List Char) (omode : Nat) : EStateM Stop σ (Option Nat) := do
  if maxPath ≤ path.length then return none
  else
    let ip ← if omode &&& oCreate ≠ 0 then create o cwd path .file 0 0 else openNamei o cwd path omode
    match ip with
    | none => return none
    | some ip =>
      let type ← o.type ip
      let major ← o.major ip
      if type = .device ∧ (major < 0 ∨ ndev ≤ major) then
        o.iput ip
        return none
      else return some ip

/-- `sys_open`, as far as inodes are concerned; `room` says whether `filealloc` and `fdalloc`
succeed. -/
def openTrunc (cwd : Nat) (path : List Char) (omode : Nat) (room : Bool) :
    EStateM Stop σ (Option Nat) := do
  match ← openInode o cwd path omode with
  | none => return none
  | some ip =>
    if room then
      let type ← o.type ip
      if omode &&& oTrunc ≠ 0 ∧ type = .file then
        o.itrunc ip
        o.iunlock ip
        return some ip
      else
        o.iunlock ip
        return some ip
    else
      o.iput ip
      return none

/-- `sys_chdir`, as far as inodes are concerned: the new `p->cwd`. -/
def changeDir (cwd : Nat) (path : List Char) : EStateM Stop σ (Option Nat) := do
  if maxPath ≤ path.length then return none
  else match ← namei o cwd path with
  | none => return none
  | some ip =>
    o.ilock ip
    let type ← o.type ip
    if type ≠ .dir then
      o.iput ip
      return none
    else
      o.iunlock ip
      o.iput cwd
      return some ip

end Programs

end Xv6.Fs
