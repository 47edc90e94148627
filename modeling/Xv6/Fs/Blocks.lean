import Xv6.Fs.Disk

/-!
# Inodes made of blocks

`kernel/fs.c` over the blocks of a disk.  `Vol.block` are the blocks as `bread` returns them: the
buffer cache and the log show every process the last thing written (`Xv6.Log.Transparent`), so they
are left out, apart from what `log_write` checks and which blocks it is given.  In the table of
inodes in use, `Vol.mem` are the copies of what is on the disk; `bmap` changes a copy, and `iupdate`
writes it back.

Everything a caller passes in or gets back is there, with the ways in which copying to and from user
memory can fail: `ok` is the number of bytes at the start of the user's buffer that can be reached.
-/

namespace Xv6.Fs

open Prog

structure Vol where
  block : Nat → Block
  /-- `ref` of the inode in the table; not positive if it is not there. -/
  ref : Nat → Int
  valid : Nat → Bool
  mem : Nat → Dinode
  inuse : Nat
  /-- Whether there is a transaction: `log.outstanding` is not zero. -/
  inOp : Bool
  logged : List Nat

abbrev V : Type → Type := EStateM Stop Vol

namespace Dinode

def addr (x : Dinode) (k : Nat) : Nat := if h : k < ndirect + 1 then (x.addrs ⟨k, h⟩).toNat else 0

def setAddr (x : Dinode) (k a : Nat) : Dinode :=
  { x with addrs := fun j => if j.val = k then .ofNat a else x.addrs j }

end Dinode

namespace Vol

def setMem (s : Vol) (i : Nat) (x : Dinode) : Vol := { s with mem := Function.update s.mem i x }

def setBlock (s : Vol) (b : Nat) (d : Block) : Vol :=
  { s with block := Function.update s.block b d }

/-! ## Blocks -/

/-- `log_write`: a block that is already there is absorbed. -/
def logWrite (b : Nat) : V Unit := do
  let s ← get
  if s.inOp = false then throw (.panic .logWriteOutsideOfTrans)
  else set { s with logged := if b ∈ s.logged then s.logged else b :: s.logged }

/-- Change the data of a block, and `log_write`. -/
def write (b : Nat) (d : Block) : V Unit := do
  modify fun s => s.setBlock b d
  logWrite b

def bzero (b : Nat) : V Unit := write b fun _ => 0

section Programs

variable (L : Layout)

/-- The inner loop of `balloc`, at bit `bi` of the bitmap block for the blocks from `b` on, with
`n` rounds left. -/
def freeBit (size : Nat) (d : Block) (b : Nat) : Nat → Nat → Option Nat
  | 0, _ => none
  | n + 1, bi =>
    if bi < bpb ∧ b + bi < size then
      if d.bit bi = false then some bi else freeBit size d b n (bi + 1)
    else none

/-- The outer loop of `balloc`, at block `b`, with `n` rounds left. -/
def ballocFrom : Nat → Nat → V Nat
  | 0, _ => return 0
  | n + 1, b =>
    if b < L.size then do
      let s ← get
      let d := s.block (L.bblock b)
      match freeBit L.size d b bpb 0 with
      | some bi =>
        write (L.bblock b) (d.setBit bi)
        bzero (b + bi)
        return b + bi
      | none => ballocFrom n (b + bpb)
    else return 0

/-- `balloc`: zero if there is no block. -/
def balloc : V Nat := ballocFrom L (L.size / bpb + 1) 0

def bfree (b : Nat) : V Unit := do
  let s ← get
  let d := s.block (L.bblock b)
  if d.bit (b % bpb) = false then throw (.panic .freeingFreeBlock)
  else write (L.bblock b) (d.clearBit (b % bpb))

/-! ## Inodes -/

def iupdate (i : Nat) : V Unit := do
  let s ← get
  write (L.iblock i) (Dinode.put (s.block (L.iblock i)) (i % ipb) (s.mem i))

def iget (i : Nat) : V Unit := do
  let s ← get
  if 0 < s.ref i then set { s with ref := Function.update s.ref i (s.ref i + 1) }
  else if s.inuse ≥ ninode then throw (.panic .igetNoInodes)
  else set { s with
    ref := Function.update s.ref i 1
    valid := Function.update s.valid i false
    inuse := s.inuse + 1 }

def idup (i : Nat) : V Unit :=
  modify fun s => { s with ref := Function.update s.ref i (s.ref i + 1) }

def ilock (i : Nat) : V Unit := do
  let s ← get
  if s.ref i < 1 then throw (.panic .ilock)
  else if s.valid i = false then
    let x := L.dinode s.block i
    set { s.setMem i x with valid := Function.update s.valid i true }
    if x.type = 0 then throw (.panic .ilockNoType)

/-- `iunlock`: apart from its check it only gives the lock back. -/
def iunlock (i : Nat) : V Unit := do
  if (← get).ref i < 1 then throw (.panic .iunlock)

def ialloc (type : FType) : V (Option Nat) := do
  let s ← get
  match (List.range' 1 (L.ninodes - 1)).find? fun i => (L.dinode s.block i).type = 0 with
  | none => return none
  | some i =>
    write (L.iblock i)
      (Dinode.put (s.block (L.iblock i)) (i % ipb) { Dinode.zero with type := type.toUInt16 })
    iget i
    return some i

def setAddr (i k a : Nat) : V Unit := modify fun s => s.setMem i ((s.mem i).setAddr k a)

/-- `bmap`, at entry `j` of the indirect block `a`. -/
def bmapIndirect (a j : Nat) : V Nat := do
  let s ← get
  if word (s.block a) j = 0 then
    let addr ← balloc L
    if addr = 0 then return 0
    else
      let s ← get
      write a (putWord (s.block a) j addr)
      return addr
  else return word (s.block a) j

/-- The block in `ip->addrs[k]`, allocating it if necessary. -/
def bmapAddr (i k : Nat) : V Nat := do
  let s ← get
  if (s.mem i).addr k = 0 then
    let addr ← balloc L
    if addr = 0 then return 0
    else
      setAddr i k addr
      return addr
  else return (s.mem i).addr k

/-- `bmap`: zero if out of disk space. -/
def bmap (i bn : Nat) : V Nat := do
  if bn < ndirect then bmapAddr L i bn
  else if bn - ndirect < nindirect then
    let addr ← bmapAddr L i ndirect
    if addr = 0 then return 0
    else bmapIndirect L addr (bn - ndirect)
  else throw (.panic .bmapOutOfRange)

/-- One round of the first loop of `itrunc`. -/
def truncAddr (i k : Nat) : V Unit := do
  let s ← get
  let a := (s.mem i).addr k
  if a ≠ 0 then
    bfree L a
    setAddr i k 0

/-- One round of the second loop of `itrunc`, for the indirect block `a`. -/
def truncEntry (a j : Nat) : V Unit := do
  let s ← get
  let c := word (s.block a) j
  if c ≠ 0 then bfree L c

/-- The second half of `itrunc`: the indirect block. -/
def truncIndirect (i : Nat) : V Unit := do
  let s ← get
  let a := (s.mem i).addr ndirect
  if a ≠ 0 then
    times (truncEntry L a) nindirect
    bfree L a
    setAddr i ndirect 0

def itrunc (i : Nat) : V Unit := do
  times (truncAddr L i) ndirect
  truncIndirect L i
  modify fun s => s.setMem i { s.mem i with size := 0 }
  iupdate L i

def iput (i : Nat) : V Unit := do
  let s ← get
  if s.ref i = 1 ∧ s.valid i = true ∧ (s.mem i).nlink = 0 then
    -- inode has no links and no other references: truncate and free
    itrunc L i
    modify fun s => s.setMem i { s.mem i with type := 0 }
    iupdate L i
    modify fun s => { s with valid := Function.update s.valid i false }
  modify fun s => { s with
    ref := Function.update s.ref i (s.ref i - 1)
    inuse := if s.ref i = 1 then s.inuse - 1 else s.inuse }

/-! ## Contents -/

def slice (d : Block) (off m : Nat) : List UInt8 := (List.range m).map fun k => d.byte (off + k)

/-- The loop of `readi`, with `tot` bytes read into `acc` and `f` rounds left. -/
def readLoop (i off n ok : Nat) : Nat → Nat → List UInt8 → V (Int × List UInt8)
  | 0, tot, acc => return (tot, acc)
  | f + 1, tot, acc =>
    if tot < n then do
      let addr ← bmap L i ((off + tot) / bsize)
      if addr = 0 then return (tot, acc)
      else
        let s ← get
        let m := min (n - tot) (bsize - (off + tot) % bsize)
        let data := slice (s.block addr) ((off + tot) % bsize) m
        if ok < tot + m then return (-1, acc ++ data.take (ok - tot))
        else readLoop i off n ok f (tot + m) (acc ++ data)
    else return (tot, acc)

/-- `readi`: what it returns, and the bytes that it has stored. -/
def readi (i : Nat) (off n : UInt32) (ok : Nat) : V (Int × List UInt8) := do
  let s ← get
  let size := (s.mem i).size.toNat
  -- `off + n < off`: the sum does not fit 32 bits
  if size < off.toNat ∨ 2 ^ 32 ≤ off.toNat + n.toNat then return (0, [])
  else
    let n := if size < off.toNat + n.toNat then size - off.toNat else n.toNat
    readLoop L i off.toNat n ok n 0 []

/-- The loop of `writei`, with `tot` bytes written and `f` rounds left. -/
def writeLoop (i off n ok : Nat) (src : Nat → UInt8) : Nat → Nat → V Nat
  | 0, tot => return tot
  | f + 1, tot =>
    if tot < n then do
      let addr ← bmap L i ((off + tot) / bsize)
      if addr = 0 then return tot
      else
        let s ← get
        let m := min (n - tot) (bsize - (off + tot) % bsize)
        if ok < tot + m then
          -- `either_copyin` fails, having copied what it could
          modify fun s => s.setBlock addr
            ((s.block addr).splice ((off + tot) % bsize) (ok - tot) fun k => src (tot + k))
          return tot
        else
          write addr ((s.block addr).splice ((off + tot) % bsize) m fun k => src (tot + k))
          writeLoop i off n ok src f (tot + m)
    else return tot

def writei (i : Nat) (off n : UInt32) (src : Nat → UInt8) (ok : Nat) : V Int := do
  let s ← get
  let size := (s.mem i).size.toNat
  if size < off.toNat ∨ 2 ^ 32 ≤ off.toNat + n.toNat then return -1
  else if maxFile * bsize < off.toNat + n.toNat then return -1
  else
    let tot ← writeLoop L i off.toNat n.toNat ok src n.toNat 0
    modify fun s =>
      if (s.mem i).size.toNat < off.toNat + tot then
        s.setMem i { s.mem i with size := .ofNat (off.toNat + tot) }
      else s
    -- even if the size did not change: the loop might have added a block to `ip->addrs[]`
    iupdate L i
    return tot

/-! ## Directories -/

def nameByte (name : Name) (k : Nat) : UInt8 := UInt8.ofNat ((name.map Char.toNat).getD k 0)

/-- `strncmp(s, t, n) == 0`, from byte `k` on. -/
def strncmp (s t : Nat → UInt8) : Nat → Nat → Bool
  | 0, _ => true
  | n + 1, k => if s k ≠ 0 ∧ s k = t k then strncmp s t n (k + 1) else s k = t k

def direntInum (de : List UInt8) : Nat := (de.getD 0 0).toNat + 256 * (de.getD 1 0).toNat

def dirent (name : Name) (inum k : Nat) : UInt8 :=
  if k = 0 then .ofNat inum else if k = 1 then .ofNat (inum / 256) else nameByte name (k - 2)

/-- The loop of `dirlookup`, at offset `off`, with `f` rounds left. -/
def dirlookupFrom (dp : Nat) (name : Name) : Nat → Nat → V (Option (Nat × Nat))
  | 0, _ => return none
  | f + 1, off => do
    let s ← get
    if off < (s.mem dp).size.toNat then
      let (r, de) ← readi L dp (.ofNat off) 16 16
      if r ≠ 16 then throw (.panic .dirlookupRead)
      else if direntInum de = 0 then dirlookupFrom dp name f (off + 16)
      else if strncmp (nameByte name) (fun k => de.getD (2 + k) 0) dirsiz 0 then
        iget (direntInum de)
        return some (direntInum de, off)
      else dirlookupFrom dp name f (off + 16)
    else return none

/-- `dirlookup`: the inode, and the offset of the entry. -/
def dirlookup (dp : Nat) (name : Name) : V (Option (Nat × Nat)) := do
  let s ← get
  if (s.mem dp).ftype ≠ .dir then throw (.panic .dirlookupNotDir)
  else dirlookupFrom L dp name ((s.mem dp).size.toNat / 16 + 1) 0

/-- The loop of `dirlink` that looks for an empty entry. -/
def emptyFrom (dp : Nat) : Nat → Nat → V Nat
  | 0, off => return off
  | f + 1, off => do
    let s ← get
    if off < (s.mem dp).size.toNat then
      let (r, de) ← readi L dp (.ofNat off) 16 16
      if r ≠ 16 then throw (.panic .dirlinkRead)
      else if direntInum de = 0 then return off
      else emptyFrom dp f (off + 16)
    else return off

/-- `dirlink`: whether the entry has been written. -/
def dirlink (dp : Nat) (name : Name) (inum : Nat) : V Bool := do
  match ← dirlookup L dp name with
  | some (ip, _) =>
    iput L ip
    return false
  | none =>
    let s ← get
    let off ← emptyFrom L dp ((s.mem dp).size.toNat / 16 + 1) 0
    let r ← writei L dp (.ofNat off) 16 (dirent name inum) 16
    return r = 16

def isdiremptyFrom (dp : Nat) : Nat → Nat → V Bool
  | 0, _ => return true
  | f + 1, off => do
    let s ← get
    if off < (s.mem dp).size.toNat then
      let (r, de) ← readi L dp (.ofNat off) 16 16
      if r ≠ 16 then throw (.panic .isdiremptyReadi)
      else if direntInum de ≠ 0 then return false
      else isdiremptyFrom dp f (off + 16)
    else return true

def isdirempty (dp : Nat) : V Bool := do
  let s ← get
  isdiremptyFrom L dp ((s.mem dp).size.toNat / 16 + 1) 32

/-! ## The operations that the calls use -/

/-- Change an inode in the table, and `iupdate`. -/
def update (i : Nat) (f : Dinode → Dinode) : V Unit := do
  modify fun s => s.setMem i (f (s.mem i))
  iupdate L i

def ops : Ops Vol where
  iget := iget
  idup := idup
  ilock := ilock L
  iunlock := iunlock
  iput := iput L
  ialloc := ialloc L
  type i := do return ((← get).mem i).ftype
  major i := do return ((← get).mem i).major.toInt
  nlink i := do return ((← get).mem i).nlink.toInt
  setNlink i n := update L i fun x => { x with nlink := .ofInt n }
  setup i major minor := update L i fun x =>
    { x with major := .ofInt major, minor := .ofInt minor, nlink := 1 }
  dirlookup := dirlookup L
  dirlink := dirlink L
  isdirempty := isdirempty L
  clearEntry dp off := do return (← writei L dp (.ofNat off) 16 (fun _ => 0) 16) = 16
  itrunc := itrunc L

end Programs

end Vol

end Xv6.Fs
