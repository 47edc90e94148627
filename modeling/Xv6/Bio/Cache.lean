import Xv6.Lib.Bytes
import Xv6.Lib.Prog
import Xv6.Log.Sections
import Mathlib.Data.Fintype.Basic
import Mathlib.Data.List.FinRange

/-!
# The buffer cache

What `bget`, `brelse`, `bpin` and `bunpin` of `kernel/bio.c` do to the cache under `bcache.lock`, and
programs over the cache, the log and the disk (`Kern`).  A program stops early when it panics, when it
would have to wait for a lock that nobody is going to release, when it writes outside an array, or
when the machine is switched off.  One block write is atomic, and writes reach the disk in order.
-/

namespace Xv6

open Prog

abbrev Block : Type := Bytes bsize

/-- `struct buf`, without its links. -/
structure Buf where
  valid : Bool
  dev : Nat
  blockno : Nat
  lock : Option Nat
  refcnt : Nat
  data : Block

abbrev BufId : Type := Fin nbuf

structure Bcache where
  buf : BufId → Buf
  /-- The buffers from `head.next`, most recently used, to `head.prev`. -/
  lru : List BufId

namespace Bcache

/-- `binit`: each buffer is put in front of the previous one. -/
def binit : Bcache where
  buf := fun _ => ⟨false, 0, 0, none, 0, fun _ => 0⟩
  lru := (List.finRange nbuf).reverse

def set (c : Bcache) (i : BufId) (b : Buf) : Bcache := { c with buf := Function.update c.buf i b }

/-- The part of `bget` under `bcache.lock`: the buffer that already holds the block, or else the
least recently used one without references. -/
def bget (c : Bcache) (dev blockno : Nat) : Option (BufId × Bcache) :=
  match c.lru.find? fun i => (c.buf i).dev = dev ∧ (c.buf i).blockno = blockno with
  | some i => some (i, c.set i { c.buf i with refcnt := (c.buf i).refcnt + 1 })
  | none =>
    match c.lru.reverse.find? fun i => (c.buf i).refcnt = 0 with
    | some i => some (i, c.set i { c.buf i with dev, blockno, valid := false, refcnt := 1 })
    | none => none

/-- `refcnt--` on an unsigned 32-bit counter. -/
def dec (n : Nat) : Nat := if n = 0 then 2 ^ 32 - 1 else n - 1

/-- The part of `brelse` under `bcache.lock`. -/
def brelse (c : Bcache) (i : BufId) : Bcache :=
  let c := c.set i { c.buf i with refcnt := dec (c.buf i).refcnt }
  if (c.buf i).refcnt = 0 then { c with lru := i :: c.lru.erase i } else c

def bpin (c : Bcache) (i : BufId) : Bcache :=
  c.set i { c.buf i with refcnt := (c.buf i).refcnt + 1 }

def bunpin (c : Bcache) (i : BufId) : Bcache :=
  c.set i { c.buf i with refcnt := dec (c.buf i).refcnt }

end Bcache

/-! ## Programs -/

structure Kern where
  bcache : Bcache
  log : Log
  disk : Nat → Block
  writes : Nat
  /-- How many more block writes the machine will complete; `none` if it is not switched off. -/
  left : Option Nat

abbrev K : Type → Type := EStateM Stop Kern

section Programs

variable (me : Nat)

def modifyBuf (i : BufId) (f : Buf → Buf) : K Unit :=
  modify fun s => { s with bcache := s.bcache.set i (f (s.bcache.buf i)) }

/-- `virtio_disk_rw(b, 0)`. -/
def diskRead (i : BufId) : K Unit :=
  modify fun s => { s with
    bcache := s.bcache.set i { s.bcache.buf i with data := s.disk (s.bcache.buf i).blockno } }

/-- `virtio_disk_rw(b, 1)`. -/
def diskWrite (i : BufId) : K Unit := do
  let s ← get
  if s.left = some 0 then throw .crash
  set { s with
    disk := Function.update s.disk (s.bcache.buf i).blockno (s.bcache.buf i).data
    writes := s.writes + 1
    left := s.left.map (· - 1) }

def acquiresleep (i : BufId) : K Unit := do
  let s ← get
  if (s.bcache.buf i).lock ≠ none then throw .blocked
  modifyBuf i fun b => { b with lock := some me }

def bget (dev blockno : Nat) : K BufId := do
  let s ← get
  match s.bcache.bget dev blockno with
  | some (i, c) =>
    set { s with bcache := c }
    acquiresleep me i
    return i
  | none => throw (.panic .bgetNoBuffers)

/-- `bread`: the locked buffer of a block, with its contents. -/
def bread (dev blockno : Nat) : K BufId := do
  let i ← bget me dev blockno
  let s ← get
  if (s.bcache.buf i).valid = false then
    diskRead i
    modifyBuf i fun b => { b with valid := true }
  return i

def bwrite (i : BufId) : K Unit := do
  let s ← get
  if (s.bcache.buf i).lock ≠ some me then throw (.panic .bwrite)
  diskWrite i

def brelse (i : BufId) : K Unit := do
  let s ← get
  if (s.bcache.buf i).lock ≠ some me then throw (.panic .brelse)
  modifyBuf i fun b => { b with lock := none }
  modify fun s => { s with bcache := s.bcache.brelse i }

def bunpin (i : BufId) : K Unit := modify fun s => { s with bcache := s.bcache.bunpin i }

end Programs

end Xv6
