import Mathlib.Algebra.GroupWithZero.Nat

/-!
# Kernel parameters

The constants of `kernel/param.h`, `kernel/fs.h` and of the layout `mkfs/mkfs.c` computes from
them, and the panics the modelled code can raise.
-/

namespace Xv6

/-- An `int` result: a value of the 32-bit two's complement range. -/
def int32 (n : Int) : Int := n.bmod (2 ^ 32)

/-- A `short` result: a value of the 16-bit two's complement range. -/
def int16 (n : Int) : Int := n.bmod (2 ^ 16)

/-! ## `kernel/param.h` -/

/-- `NPROC`: maximum number of processes. -/
abbrev nproc : Nat := 64

-- for numerals in `Fin nproc`
instance : NeZero nproc := ⟨by decide⟩

/-- `MAXOPBLOCKS`: the most blocks any one file-system operation writes. -/
abbrev maxOpBlocks : Nat := 10
/-- `LOGSIZE`: the most data blocks in the on-disk log. -/
abbrev logSize : Nat := maxOpBlocks * 3
abbrev nofile : Nat := 16
abbrev nfile : Nat := 100
abbrev ninode : Nat := 50
abbrev ndev : Nat := 10
abbrev maxPath : Nat := 128
abbrev nbuf : Nat := maxOpBlocks * 3

instance : NeZero nbuf := ⟨by decide⟩

abbrev rootDev : Nat := 1
abbrev maxArg : Nat := 32

/-! ## `kernel/fs.h` -/

abbrev bsize : Nat := 1024
abbrev rootIno : Nat := 1
abbrev dirsiz : Nat := 14
abbrev ndirect : Nat := 12

instance (priority := 2000) : NeZero (ndirect + 1) := ⟨by decide⟩

abbrev nindirect : Nat := 256
abbrev maxFile : Nat := ndirect + nindirect

/-! ## `mkfs/mkfs.c` -/

/-- `NINODES`: the number of inodes that `mkfs` writes into the superblock. -/
abbrev ninodes : Nat := 200

/-- `nlog`: the number of log blocks, header included, that `mkfs` writes into the superblock. -/
abbrev nlog : Nat := logSize

/-! ## Panics -/

/-- The calls of `panic` in the modelled functions. -/
inductive Panic where
  | tooBigATransaction
  | logWriteOutsideOfTrans
  | logCommitting
  | initExiting
  | tooBigLogheader
  | bgetNoBuffers
  | bwrite
  | brelse
  | igetNoInodes
  | ilock
  | ilockNoType
  | iunlock
  | dirlookupNotDir
  | unlinkNlink
  | unlinkWritei
  | filedup
  | fileclose
  | fileread
  | filewrite
  | freeingFreeBlock
  | bmapOutOfRange
  | dirlookupRead
  | dirlinkRead
  | isdiremptyReadi
  | acquire
  | release
  | popOffInterruptible
  | popOff
  | schedLock
  | schedLocks
  | schedRunning
  | schedInterruptible
  | kfree
  | walk
  | mappagesSize
  | mappagesRemap
  | uvmunmapNotAligned
  | uvmunmapWalk
  | uvmunmapNotMapped
  | uvmunmapNotALeaf
  | uvmfirst
  | freewalkLeaf
  | uvmcopyPte
  | uvmcopyPage
  | uvmclear
  | loadseg
  deriving DecidableEq, Repr

inductive Stop where
  | panic (p : Panic)
  | blocked
  | fault
  | crash
  deriving DecidableEq, Repr

end Xv6
