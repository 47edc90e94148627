import Xv6.Lib.Lock
import Xv6.Lib.Machine
import Mathlib.Algebra.Group.Nat.Defs
import Mathlib.Data.Fin.Basic

/-!
# The driver of the disk

`kernel/virtio_disk.c`: any number of calls of `virtio_disk_rw` and `virtio_disk_intr`, and the device.
The driver runs under `vdisk_lock`.  The device does not take it, so a section under the lock is cut
into steps where the driver reads or writes what the device also uses.

* A buffer is in one call of `virtio_disk_rw` at a time: `bread` and `bwrite` call it with `b->lock`
  held.
* The device takes chains from the avail ring, completes those that it has taken in any order, and
  then counts the entries that it has written to the used ring, one or more at a time.
* A process that sleeps can be woken at any time, by a `wakeup` or by a `kill`.

The contents of the blocks are left out.
-/

namespace Xv6

namespace Virtio

open Function (update)

/-- `NUM`: how many descriptors there are. -/
abbrev num : Nat := 8

abbrev descNext : UInt16 := 1

abbrev descWrite : UInt16 := 2

inductive Addr (B : Type) where
  | null
  | op (i : Nat)
  | data (b : B)
  | status (i : Nat)

structure Desc (B : Type) where
  addr : Addr B
  len : UInt32
  flags : UInt16
  next : Nat

/-- `struct virtio_blk_req`. -/
structure Op where
  type : UInt32
  reserved : UInt32
  sector : UInt64
  deriving DecidableEq

structure Info (B : Type) where
  b : Option B
  status : UInt8

/-- A ring of descriptor numbers, with a counter that runs freely. -/
structure Vring where
  idx : UInt16
  ring : Fin num → Nat

/-- The slot for a value of the counter. -/
def slot (idx : UInt16) : Fin num := Fin.ofNat num idx.toNat

/-- `struct disk`, without its lock. -/
structure Disk (B : Type) where
  desc : Nat → Desc B
  avail : Vring
  used : Vring
  free : Nat → Bool
  usedIdx : UInt16
  info : Nat → Info B
  ops : Nat → Op

inductive Panic where
  | freeDesc1
  | freeDesc2
  | status
  | null
  deriving DecidableEq

structure Chain where
  head : Nat
  data : Nat
  status : Nat
  deriving DecidableEq

def Chain.toList (c : Chain) : List Nat := [c.head, c.data, c.status]

/-- A call `virtio_disk_rw(b, write)`, with `b->blockno`. -/
structure Call (B : Type) where
  b : B
  blockno : UInt32
  write : Bool

def Call.op {B : Type} (r : Call B) : Op where
  type := if r.write then 1 else 0
  reserved := 0
  sector := (r.blockno * (1024 / 512)).toUInt64

namespace Disk

variable {B : Type}

def allocDesc (d : Disk B) : Option (Nat × Disk B) :=
  match (List.range num).find? d.free with
  | some i => some (i, { d with free := update d.free i false })
  | none => none

def freeDesc (d : Disk B) (i : Nat) : Except Panic (Disk B) :=
  if i ≥ num then .error .freeDesc1
  else if d.free i then .error .freeDesc2
  else .ok { d with
    desc := update d.desc i ⟨.null, 0, 0, 0⟩
    free := update d.free i true }

/-- `free_chain`, with the number of turns.  Each frees a descriptor, so after `NUM` of them
`free_desc` panics. -/
def freeChain : Nat → Disk B → Nat → Except Panic (Disk B)
  | 0, _, _ => .error .freeDesc2
  | n + 1, d, i =>
    let flag := (d.desc i).flags
    let nxt := (d.desc i).next
    match d.freeDesc i with
    | .error e => .error e
    | .ok d => if flag &&& descNext ≠ 0 then freeChain n d nxt else .ok d

def alloc3Desc (d : Disk B) : Except Panic (Option Chain × Disk B) :=
  match d.allocDesc with
  | none => .ok (none, d)
  | some (i, d) => match d.allocDesc with
    | none => match d.freeDesc i with
      | .error e => .error e
      | .ok d => .ok (none, d)
    | some (j, d) => match d.allocDesc with
      | none => match d.freeDesc i with
        | .error e => .error e
        | .ok d => match d.freeDesc j with
          | .error e => .error e
          | .ok d => .ok (none, d)
      | some (k, d) => .ok (some ⟨i, j, k⟩, d)

/-- `virtio_disk_rw` formats the three descriptors and records the buffer. -/
def format (d : Disk B) (r : Call B) (c : Chain) : Disk B :=
  { d with
    ops := update d.ops c.head r.op
    desc := update (update (update d.desc
      c.head ⟨.op c.head, 16, descNext, c.data⟩)
      c.data ⟨.data r.b, 1024, (if r.write then 0 else descWrite) ||| descNext, c.status⟩)
      c.status ⟨.status c.head, 1, descWrite, 0⟩
    info := update d.info c.head ⟨some r.b, 0xff⟩ }

def forget (d : Disk B) (i : Nat) : Disk B :=
  { d with info := update d.info i { d.info i with b := none } }

end Disk

/-- A request, as the device reads it from a chain of descriptors. -/
structure Request (B : Type) where
  type : UInt32
  sector : UInt64
  b : B
  deriving DecidableEq

def Call.request {B : Type} (r : Call B) : Request B := ⟨r.op.type, r.op.sector, r.b⟩

/-- The device follows the chain from `h`: the request, and the place for the status. -/
def Disk.request {B : Type} (d : Disk B) (h : Nat) : Option (Request B × Nat) :=
  let d0 := d.desc h
  let d1 := d.desc d0.next
  let d2 := d.desc d1.next
  if d0.flags &&& descNext ≠ 0 ∧ d1.flags &&& descNext ≠ 0 ∧ d2.flags &&& descNext = 0 then
    match d0.addr, d1.addr, d2.addr with
    | .op i, .data b, .status k => some (⟨(d.ops i).type, (d.ops i).sector, b⟩, k)
    | _, _, _ => none
  else none

inductive Point where
  | format
  | ring
  | publish
  | wait
  | asleep
  | woken
  | finish
  deriving DecidableEq

inductive Pc (B : Type) where
  | idle
  /-- `virtio_disk_rw`: about to acquire the lock, on entry or at the end of `sleep`. -/
  | acquire (r : Call B)
  | alloc (r : Call B)
  | sleepFree (r : Call B)
  | chain (k : Point) (r : Call B) (c : Chain)
  | intrAcquire
  | intrLoop
  | intrEntry

structure Device where
  lastAvail : UInt16
  pending : List Nat
  /-- How many entries it has written to the used ring and not counted yet. -/
  ahead : Nat

structure Hist where
  avail : List Nat
  taken : Nat
  used : List Nat
  counted : Nat
  handled : Nat

structure State (P B : Type) where
  disk : Disk B
  busy : B → Bool
  locked : B → Bool
  lock : Option P
  pc : P → Pc B
  panic : Option Panic
  dev : Device
  hist : Hist
  /-- History: what the device has done for a buffer since the last call for it began. -/
  completed : B → List (Request B)

def Pc.holds {B : Type} : Pc B → Bool
  | .alloc _ | .intrLoop | .intrEntry => true
  | .chain .asleep _ _ | .chain .woken _ _ => false
  | .chain _ _ _ => true
  | _ => false

inductive Act (P B : Type) where
  | rw (p : P) (r : Call B)
  | intr (p : P)
  | step (p : P)
  | wake (p : P)
  | take
  /-- The device completes the chain `h` and writes to the used ring. -/
  | complete (h : Nat)
  | count (n : Nat)

namespace State

variable {P B : Type} [DecidableEq P] [DecidableEq B]

/-- After `virtio_disk_init`. -/
def init (P B : Type) : State P B where
  disk :=
    { desc := fun _ => ⟨.null, 0, 0, 0⟩
      avail := ⟨0, fun _ => 0⟩
      used := ⟨0, fun _ => 0⟩
      free := fun i => i < num
      usedIdx := 0
      info := fun _ => ⟨none, 0⟩
      ops := fun _ => ⟨0, 0, 0⟩ }
  busy _ := false
  locked _ := false
  lock := none
  pc _ := .idle
  panic := none
  dev := ⟨0, [], 0⟩
  hist := ⟨[], 0, [], 0, 0⟩
  completed _ := []

def goto (s : State P B) (p : P) (k : Pc B) : State P B := { s with pc := update s.pc p k }

def acquire (s : State P B) (p : P) (k : Pc B) : Option (State P B) :=
  if s.lock = none then some { s.goto p k with lock := some p } else none

def release (s : State P B) (p : P) (k : Pc B) : State P B := { s.goto p k with lock := none }

/-- A step of `virtio_disk_rw` after the descriptors have been allocated. -/
def stepChain (s : State P B) (p : P) (r : Call B) (c : Chain) : Point → Option (State P B)
  | .format => some { s.goto p (.chain .ring r c) with
      disk := s.disk.format r c
      busy := update s.busy r.b true }
  | .ring => some { s.goto p (.chain .publish r c) with
      disk.avail.ring := update s.disk.avail.ring (slot s.disk.avail.idx) c.head }
  | .publish => some { s.goto p (.chain .wait r c) with
      disk.avail.idx := s.disk.avail.idx + 1
      hist.avail := s.hist.avail ++ [c.head] }
  | .wait =>
    if s.busy r.b = true then some (s.release p (.chain .asleep r c))
    else some (s.goto p (.chain .finish r c))
  | .asleep => none
  | .woken => s.acquire p (.chain .wait r c)
  | .finish => match (s.disk.forget c.head).freeChain num c.head with
    | .error e => some { s with panic := some e }
    | .ok d => some { s.release p .idle with
        disk := d
        -- the caller can give the buffer away
        locked := update s.locked r.b false }

def step (s : State P B) (p : P) : Option (State P B) :=
  match s.pc p with
  | .idle | .sleepFree _ => none
  | .acquire r => s.acquire p (.alloc r)
  | .alloc r => match s.disk.alloc3Desc with
    | .error e => some { s with panic := some e }
    | .ok (some c, d) => some { s.goto p (.chain .format r c) with disk := d }
    | .ok (none, d) => some { s.release p (.sleepFree r) with disk := d }
  | .chain k r c => s.stepChain p r c k
  | .intrAcquire => s.acquire p .intrLoop
  | .intrLoop =>
    if s.disk.usedIdx ≠ s.disk.used.idx then some (s.goto p .intrEntry)
    else some (s.release p .idle)
  | .intrEntry =>
    let info := s.disk.info (s.disk.used.ring (slot s.disk.usedIdx))
    if info.status ≠ 0 then some { s with panic := some .status }
    else match info.b with
      | none => some { s with panic := some .null }
      | some b => some { s.goto p .intrLoop with
          busy := update s.busy b false
          disk.usedIdx := s.disk.usedIdx + 1
          hist.handled := s.hist.handled + 1 }

def next (s : State P B) (a : Act P B) : Option (State P B) :=
  if s.panic.isSome then none else match a with
  | .rw p r => match s.pc p with
    | .idle =>
      if s.locked r.b then none
      else some { s.goto p (.acquire r) with
        locked := update s.locked r.b true
        completed := update s.completed r.b [] }
    | _ => none
  | .intr p => match s.pc p with
    | .idle => some (s.goto p .intrAcquire)
    | _ => none
  | .step p => s.step p
  | .wake p => match s.pc p with
    | .sleepFree r => some (s.goto p (.acquire r))
    | .chain .asleep r c => some (s.goto p (.chain .woken r c))
    | _ => none
  | .take =>
    if s.dev.lastAvail ≠ s.disk.avail.idx then
      some { s with
        dev.lastAvail := s.dev.lastAvail + 1
        dev.pending := s.dev.pending ++ [s.disk.avail.ring (slot s.dev.lastAvail)]
        hist.taken := s.hist.taken + 1 }
    else none
  | .complete h =>
    if h ∈ s.dev.pending then match s.disk.request h with
      | none => none
      | some (q, k) => some { s with
          disk.info := update s.disk.info k { s.disk.info k with status := 0 }
          disk.used.ring :=
            update s.disk.used.ring (slot (s.disk.used.idx + UInt16.ofNat s.dev.ahead)) h
          dev.pending := s.dev.pending.erase h
          dev.ahead := s.dev.ahead + 1
          hist.used := s.hist.used ++ [h]
          completed := update s.completed q.b (s.completed q.b ++ [q]) }
    else none
  | .count n =>
    if n ≤ s.dev.ahead then
      some { s with
        disk.used.idx := s.disk.used.idx + UInt16.ofNat n
        dev.ahead := s.dev.ahead - n
        hist.counted := s.hist.counted + n }
    else none

end State

end Virtio

end Xv6
