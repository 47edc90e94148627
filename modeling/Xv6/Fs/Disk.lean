import Xv6.Bio.Cache
import Xv6.Fs.Calls

/-!
# The disk format

Where `kernel/fs.h` puts an inode, a bit of the bitmap and a block number of an indirect block, and that
they do not get into each other's way: each of the three ways to change the disk is seen by one of the
three ways to read it, and only there.
-/

namespace Xv6.Fs

open Function (update_of_ne update_self update)

abbrev ipb : Nat := 16
abbrev bpb : Nat := bsize * 8

/-! ## Layout -/

/-- The fields of `struct superblock` that `fs.c` uses, for a disk on which the parts do not
overlap.  `balloc` keeps block numbers in an `int`, so there are at most 2³¹ of them;
`Vol.ballocInt_far` is about larger disks. -/
structure Layout where
  size : Nat
  nblocks : Nat
  ninodes : Nat
  inodestart : Nat
  bmapstart : Nat
  inodestart_pos : 0 < inodestart
  inodes_le : inodestart + (ninodes + ipb - 1) / ipb ≤ bmapstart
  bmap_le : bmapstart + (size + bpb - 1) / bpb ≤ size - nblocks
  size_le : size ≤ 2 ^ 31
  ninodes_le : ninodes ≤ 2 ^ 16
  root_lt : rootIno < ninodes

namespace Layout

variable (L : Layout)

def nmeta : Nat := L.size - L.nblocks

def iblock (i : Nat) : Nat := i / ipb + L.inodestart

def bblock (b : Nat) : Nat := b / bpb + L.bmapstart

variable {L} {i j b c : Nat}

theorem iblock_lt (hi : i < L.ninodes) : L.iblock i < L.bmapstart := by
  have := L.inodes_le
  simp only [iblock, ipb] at *
  omega

theorem bblock_lt (hb : b < L.size) : L.bblock b < L.nmeta := by
  have := L.bmap_le
  simp only [bblock, nmeta, bpb, bsize] at *
  omega

theorem iblock_ne_bblock (hi : i < L.ninodes) (b : Nat) : L.iblock i ≠ L.bblock b := by
  have := iblock_lt hi
  simp only [bblock, bpb, bsize]
  omega

theorem size_lt : L.size < 2 ^ 32 :=
  Nat.lt_of_le_of_lt L.size_le (by decide)

theorem bmapstart_le : L.bmapstart ≤ L.nmeta :=
  Nat.le_trans (Nat.le_add_right ..) L.bmap_le

theorem iblock_lt_nmeta (hi : i < L.ninodes) : L.iblock i < L.nmeta :=
  Nat.lt_of_lt_of_le (iblock_lt hi) bmapstart_le

theorem nmeta_pos : 0 < L.nmeta :=
  Nat.lt_of_lt_of_le L.inodestart_pos
    (Nat.le_trans (Nat.le_trans (Nat.le_add_right ..) L.inodes_le) bmapstart_le)

end Layout

/-- The layout that `mkfs` makes: a boot block, the super block, 30 blocks for the log, 13 for the
inodes, one for the bitmap, and data blocks. -/
def mkfsLayout : Layout where
  size := 2000
  nblocks := 1954
  ninodes := 200
  inodestart := 32
  bmapstart := 45
  inodestart_pos := by decide
  inodes_le := by decide
  bmap_le := by decide
  size_le := by decide
  ninodes_le := by decide
  root_lt := by decide

/-! ## Inodes -/

structure Dinode where
  type : UInt16
  major : Int16
  minor : Int16
  nlink : Int16
  size : UInt32
  addrs : Fin (ndirect + 1) → UInt32
  deriving DecidableEq

namespace Dinode

/-- What `memset` makes of an inode. -/
def zero : Dinode := ⟨0, 0, 0, 0, 0, fun _ => 0⟩

def fields (x : Dinode) : List (Bytes.Field × Nat) :=
  [(⟨0, 2⟩, x.type.toNat), (⟨2, 2⟩, x.major.toUInt16.toNat), (⟨4, 2⟩, x.minor.toUInt16.toNat),
    (⟨6, 2⟩, x.nlink.toUInt16.toNat), (⟨8, 4⟩, x.size.toNat)] ++
    (List.finRange (ndirect + 1)).map fun k => (⟨12 + 4 * k.val, 4⟩, (x.addrs k).toNat)

def get (d : Block) (slot : Nat) : Dinode where
  type := .ofNat (d.read (64 * slot + 0) 2)
  major := (UInt16.ofNat (d.read (64 * slot + 2) 2)).toInt16
  minor := (UInt16.ofNat (d.read (64 * slot + 4) 2)).toInt16
  nlink := (UInt16.ofNat (d.read (64 * slot + 6) 2)).toInt16
  size := .ofNat (d.read (64 * slot + 8) 4)
  addrs := fun k => .ofNat (d.read (64 * slot + (12 + 4 * k.val)) 4)

def put (d : Block) (slot : Nat) (x : Dinode) : Block := d.writes (64 * slot) x.fields

theorem fields_apart (x : Dinode) : (x.fields.map (·.1)).Pairwise Bytes.Field.Apart := by
  have hfields : x.fields.map (·.1) =
      [⟨0, 2⟩, ⟨2, 2⟩, ⟨4, 2⟩, ⟨6, 2⟩, ⟨8, 4⟩] ++
        (List.finRange (ndirect + 1)).map fun k => ⟨12 + 4 * k.val, 4⟩ := by
    rw [fields, List.map_append, List.map_map]
    rfl
  rw [hfields]
  decide

theorem fields_le {x : Dinode} {f : Bytes.Field × Nat} (hf : f ∈ x.fields) :
    f.1.off + f.1.len ≤ 64 := by
  simp only [fields, List.cons_append, List.nil_append, List.mem_cons, List.mem_map] at hf
  rcases hf with rfl | rfl | rfl | rfl | rfl | ⟨k, -, rfl⟩
  case inr.inr.inr.inr.inr =>
    have hk : k.val < 13 := k.isLt
    dsimp only
    omega
  all_goals exact Nat.le_of_ble_eq_true rfl

theorem read_put {d : Block} {slot : Nat} {x : Dinode} {f : Bytes.Field × Nat} (hs : slot < ipb)
    (hf : f ∈ x.fields) : (put d slot x).read (64 * slot + f.1.off) f.1.len = f.2 % 256 ^ f.1.len := by
  have hle := fields_le hf
  exact Bytes.read_writes x.fields_apart hf (by simp only [bsize, ipb] at *; omega)

theorem get_put_self {d : Block} {slot : Nat} (hs : slot < ipb) (x : Dinode) :
    get (put d slot x) slot = x := by
  have h16 : ∀ y : UInt16, UInt16.ofNat (y.toNat % 256 ^ 2) = y := by
    intro y
    rw [Nat.mod_eq_of_lt (show y.toNat < 256 ^ 2 from y.toNat_lt), UInt16.ofNat_toNat]
  have h32 : ∀ y : UInt32, UInt32.ofNat (y.toNat % 256 ^ 4) = y := by
    intro y
    rw [Nat.mod_eq_of_lt (show y.toNat < 256 ^ 4 from y.toNat_lt), UInt32.ofNat_toNat]
  have haddr : ∀ k : Fin (ndirect + 1), (⟨12 + 4 * k.val, 4⟩, (x.addrs k).toNat) ∈ x.fields :=
    fun k => List.mem_append_right _ (List.mem_map_of_mem (List.mem_finRange k))
  rw [get, read_put hs (f := (⟨0, 2⟩, x.type.toNat)) (by simp [fields]),
    read_put hs (f := (⟨2, 2⟩, x.major.toUInt16.toNat)) (by simp [fields]),
    read_put hs (f := (⟨4, 2⟩, x.minor.toUInt16.toNat)) (by simp [fields]),
    read_put hs (f := (⟨6, 2⟩, x.nlink.toUInt16.toNat)) (by simp [fields]),
    read_put hs (f := (⟨8, 4⟩, x.size.toNat)) (by simp [fields])]
  simp only [read_put hs (haddr _), h16, h32, Int16.toInt16_toUInt16]

theorem get_put_of_ne {d : Block} {slot slot' : Nat} (h : slot' ≠ slot) (x : Dinode) :
    get (put d slot x) slot' = get d slot' := by
  have hread : ∀ off k, off + k ≤ 64 →
      (put d slot x).read (64 * slot' + off) k = d.read (64 * slot' + off) k := by
    intro off k hk
    refine Bytes.read_writes_of_disjoint fun f hf => ?_
    have := fields_le hf
    omega
  have haddr : ∀ k : Fin (ndirect + 1), 12 + 4 * k.val + 4 ≤ 64 := fun k => by
    have hk : k.val < 13 := k.isLt
    omega
  rw [get, get, hread _ _ (by decide), hread _ _ (by decide), hread _ _ (by decide),
    hread _ _ (by decide), hread _ _ (by decide)]
  simp only [hread _ _ (haddr _)]

/-- The type, as the calls see it: other numbers are none of the types that they compare with. -/
def ftype (x : Dinode) : FType :=
  match x.type.toNat with
  | 1 => .dir
  | 2 => .file
  | 3 => .device
  | _ => .none

theorem ftype_eq_dir {x : Dinode} : x.ftype = .dir ↔ x.type = 1 := by
  rw [ftype, ← UInt16.toNat_inj]
  split <;> simp_all

end Dinode

def FType.toUInt16 : FType → UInt16
  | .none => 0
  | .dir => 1
  | .file => 2
  | .device => 3

/-! ## Reading and changing the disk -/

namespace Layout

variable (L : Layout) (d : Nat → Block)

def dinode (i : Nat) : Dinode := .get (d (L.iblock i)) (i % ipb)

def putDinode (i : Nat) (x : Dinode) : Nat → Block :=
  update d (L.iblock i) (Dinode.put (d (L.iblock i)) (i % ipb) x)

def bit (b : Nat) : Bool := (d (L.bblock b)).bit (b % bpb)

def setBit (b : Nat) : Nat → Block :=
  update d (L.bblock b) ((d (L.bblock b)).setBit (b % bpb))

def clearBit (b : Nat) : Nat → Block :=
  update d (L.bblock b) ((d (L.bblock b)).clearBit (b % bpb))

variable {L} {d} {i j b c : Nat} {x : Dinode} {e : Block}

theorem dinode_putDinode (i j : Nat) (x : Dinode) :
    L.dinode (L.putDinode d i x) j = if j = i then x else L.dinode d j := by
  rw [dinode, dinode, putDinode]
  by_cases hblock : L.iblock j = L.iblock i
  · rw [hblock, update_self]
    split
    · rename_i hij
      rw [hij, Dinode.get_put_self (Nat.mod_lt i (by decide))]
    · rename_i hij
      refine Dinode.get_put_of_ne (fun hmod => hij ?_) x
      simp only [iblock, ipb] at *
      omega
  · rw [update_of_ne hblock, if_neg fun hij => hblock (by rw [hij])]

theorem dinode_update (hb : b ≠ L.iblock i) (e : Block) :
    L.dinode (update d b e) i = L.dinode d i := by
  rw [dinode, dinode, update_of_ne hb.symm]

theorem bit_update (hc : c ≠ L.bblock b) (e : Block) :
    L.bit (update d c e) b = L.bit d b := by
  rw [bit, bit, update_of_ne hc.symm]

theorem bit_putDinode (hi : i < L.ninodes) (x : Dinode) (b : Nat) :
    L.bit (L.putDinode d i x) b = L.bit d b := bit_update (iblock_ne_bblock hi b) _

theorem byte_lt (c : Nat) : c % bpb / 8 < bsize := by
  have := Nat.mod_lt c (show 0 < bpb by decide)
  simp only [bpb, bsize] at this ⊢
  omega

theorem bit_setBit (b c : Nat) : L.bit (L.setBit d b) c = (decide (c = b) || L.bit d c) := by
  rw [bit, bit, setBit]
  by_cases hblock : L.bblock c = L.bblock b
  · rw [hblock, update_self, Bytes.bit_setBit (byte_lt c)]
    congr 1
    rw [decide_eq_decide]
    simp only [bblock, bpb, bsize] at *
    omega
  · have hcb : c ≠ b := fun hcb => hblock (by rw [hcb])
    rw [update_of_ne hblock, decide_eq_false hcb, Bool.false_or]

theorem bit_clearBit (b c : Nat) : L.bit (L.clearBit d b) c = (decide (c ≠ b) && L.bit d c) := by
  rw [bit, bit, clearBit]
  by_cases hblock : L.bblock c = L.bblock b
  · rw [hblock, update_self, Bytes.bit_clearBit (byte_lt c)]
    congr 1
    rw [decide_eq_decide]
    simp only [bblock, bpb, bsize] at *
    omega
  · have hcb : c ≠ b := fun hcb => hblock (by rw [hcb])
    rw [update_of_ne hblock, decide_eq_true hcb, Bool.true_and]

theorem dinode_setBit (hi : i < L.ninodes) (b : Nat) :
    L.dinode (L.setBit d b) i = L.dinode d i := dinode_update (iblock_ne_bblock hi b).symm _

theorem dinode_clearBit (hi : i < L.ninodes) (b : Nat) :
    L.dinode (L.clearBit d b) i = L.dinode d i := dinode_update (iblock_ne_bblock hi b).symm _

theorem dinode_update_data (hi : i < L.ninodes) (hb : L.nmeta ≤ b) (e : Block) :
    L.dinode (update d b e) i = L.dinode d i :=
  dinode_update (Nat.ne_of_gt (Nat.lt_of_lt_of_le (iblock_lt_nmeta hi) hb)) e

theorem bit_update_data (hc : c < L.size) (hb : L.nmeta ≤ b) (e : Block) :
    L.bit (update d b e) c = L.bit d c :=
  bit_update (Nat.ne_of_gt (Nat.lt_of_lt_of_le (bblock_lt hc) hb)) e

theorem putDinode_data (hi : i < L.ninodes) (hb : L.nmeta ≤ b) (x : Dinode) :
    L.putDinode d i x b = d b :=
  update_of_ne (Nat.ne_of_gt (Nat.lt_of_lt_of_le (iblock_lt_nmeta hi) hb)) ..

theorem setBit_data (hc : c < L.size) (hb : L.nmeta ≤ b) : L.setBit d c b = d b :=
  update_of_ne (Nat.ne_of_gt (Nat.lt_of_lt_of_le (bblock_lt hc) hb)) ..

theorem clearBit_data (hc : c < L.size) (hb : L.nmeta ≤ b) : L.clearBit d c b = d b :=
  update_of_ne (Nat.ne_of_gt (Nat.lt_of_lt_of_le (bblock_lt hc) hb)) ..

end Layout

def word (d : Block) (j : Nat) : Nat := d.read (4 * j) 4

def putWord (d : Block) (j v : Nat) : Block := d.write (4 * j) 4 v

theorem word_putWord {d : Block} {j k v : Nat} (hj : j < nindirect) (hv : v < 2 ^ 32) :
    word (putWord d j v) k = if k = j then v else word d k := by
  rw [word, word, putWord]
  split
  · rename_i hkj
    rw [hkj, Bytes.read_write (by simp only [bsize, nindirect] at *; omega)]
    exact Nat.mod_eq_of_lt hv
  · exact Bytes.read_write_of_disjoint (by omega)

end Xv6.Fs
