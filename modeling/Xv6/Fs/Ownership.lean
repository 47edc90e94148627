import Xv6.Fs.Steps

/-!
# Every block has one owner

Every run keeps it so if, moreover, inodes reference data blocks only and the entries of directories
name inodes of the disk (`owned_run`).  Without either of these a single call can break it
(`not_owned_run`).
-/

namespace Xv6.Fs

open Prog

def Layout.IsData (L : Layout) (b : Nat) : Prop := L.nmeta ≤ b ∧ b < L.size

instance (L : Layout) (b : Nat) : Decidable (L.IsData b) :=
  inferInstanceAs (Decidable (L.nmeta ≤ b ∧ b < L.size))

namespace Vol

/-- No data block is referenced twice, and the bitmap marks the metadata and what is referenced. -/
structure Owned (L : Layout) (s : Vol) : Prop where
  once : ∀ q r, s.addrOf L q = s.addrOf L r → L.IsData (s.addrOf L q) → q = r
  marks : ∀ b < L.size, L.bit s.block b = true ↔ b < L.nmeta ∨ ∃ q, s.addrOf L q = b

def Whole (L : Layout) (s : Vol) : Prop :=
  ∀ i < L.ninodes, (L.dinode s.block i).type ≠ 0 → Unbroken L (L.dinode s.block) s.block i

def DataRefs (L : Layout) (s : Vol) : Prop := ∀ q, s.addrOf L q ≠ 0 → L.IsData (s.addrOf L q)

def DirsOk (L : Layout) (s : Vol) : Prop :=
  ∀ i < L.ninodes, (L.dinode s.block i).type = 1 → DirOk L s i

variable {L : Layout} {s : Vol}

theorem Owned.own (h : Owned L s) (hdata : DataRefs L s) :
    Own L (L.dinode s.block) s.block [] where
  zero := Layout.nmeta_pos
  inj p q heq h0 := h.once p q heq (hdata p h0)
  range p h0 := ⟨(hdata p h0).2, Nat.not_lt.mpr (hdata p h0).1, by simp⟩
  nodup := List.nodup_nil
  loose_range b hb := absurd hb (by simp)
  used_iff b hb := by
    rw [h.marks b hb]
    simp only [List.not_mem_nil, false_or]
    rfl

theorem Sound.owned (h : Sound L s) : Owned L s where
  once q r heq hdata := h.own.inj q r heq
    (Nat.ne_of_gt (Nat.lt_of_lt_of_le Layout.nmeta_pos hdata.1))
  marks b hb := by
    rw [h.own.used_iff b hb]
    simp only [List.not_mem_nil, false_or]
    rfl

theorem Sound.dataRefs (h : Sound L s) : DataRefs L s := by
  intro q h0
  obtain ⟨hlt, hle⟩ := h.own.range h0
  exact ⟨hle, hlt⟩

end Vol

structure Node.Table (L : Layout) (x : Node) : Prop where
  sync : ∀ i, x.vol.valid i = true →
    i < L.ninodes ∧ x.vol.mem i = L.dinode x.vol.block i ∧ (x.vol.mem i).type ≠ 0
  refs : ∀ i, (x.held.count i : Int) ≤ x.vol.ref i
  held : ∀ i ∈ x.held, i < L.ninodes

theorem Node.Table.rest {L : Layout} {x : Node} (h : x.Table L) (hown : x.vol.Owned L)
    (hwhole : x.vol.Whole L) (hdata : x.vol.DataRefs L) (hdirs : x.vol.DirsOk L) : x.Rest L :=
  ⟨⟨⟨hown.own hdata, hwhole, h.sync⟩, hdirs⟩, h.refs, h.held⟩

/-! ## Small file systems -/

/-- A disk with an empty table, apart from one reference to inode `i`. -/
def Node.holding (d : Nat → Block) (i : Nat) : Node where
  vol := {
    block := d
    ref := fun j => if j = i then 1 else 0
    valid := fun _ => false
    mem := fun _ => .zero
    inuse := 1
    inOp := false
    logged := [] }
  held := [i]

theorem Node.table_holding {L : Layout} {i : Nat} (d : Nat → Block) (hi : i < L.ninodes) :
    (Node.holding d i).Table L where
  sync j hj := absurd hj (by simp [holding])
  refs j := by
    rw [holding, List.count_singleton]
    dsimp only
    by_cases hj : j = i
    · rw [if_pos hj, hj, beq_self_eq_true]
      decide
    · rw [if_neg hj, if_neg (by simpa using Ne.symm hj)]
      decide
  held j hj := by
    rw [List.mem_singleton.mp hj]
    exact hi

namespace Vol

section One

variable {L : Layout} {s : Vol} {i b : Nat}

theorem addrOf_one (hi : i < L.ninodes) (ht : (L.dinode s.block i).type ≠ 0)
    (haddrs : (L.dinode s.block i).addrs = fun k => if k = 0 then .ofNat b else 0) (hb : b < 2 ^ 32)
    (hother : ∀ j < L.ninodes, j ≠ i → (L.dinode s.block j).addrs = fun _ => 0)
    (q : Nat × Place) : s.addrOf L q = if q = (i, .addrs 0) then b else 0 := by
  obtain ⟨j, p⟩ := q
  rw [addrOf]
  by_cases hj : j < L.ninodes
  · by_cases hji : j = i
    · subst hji
      rw [refs_of_type hj ht]
      cases p with
      | addrs k =>
        rw [Dinode.at, haddrs]
        by_cases hk : k = 0
        · subst hk
          rw [if_pos rfl]
          exact UInt32.toNat_ofNat_of_lt' hb
        · rw [if_neg fun heq => hk (by simpa using heq)]
          dsimp only
          rw [if_neg hk]
          rfl
      | entry k =>
        have hlast : (L.dinode s.block j).addr ndirect = 0 := by
          refine (Dinode.addr_eq _ (Fin.last ndirect)).trans ?_
          rw [haddrs]
          rfl
        rw [Dinode.at, if_pos hlast, if_neg (by simp)]
    · rw [refs, Dinode.at_of_empty (hother j hj hji), ite_self, if_neg fun heq => hji (Prod.mk.inj heq).1]
  · rw [refs_of_not_lt hj, if_neg]
    rintro heq
    exact hj ((Prod.mk.inj heq).1 ▸ hi)

theorem owned_of_one {q : Nat × Place} (h : ∀ r, s.addrOf L r = if r = q then b else 0)
    (hbits : ∀ c < L.size, L.bit s.block c = decide (c < L.nmeta ∨ c = b)) : s.Owned L where
  once r r' heq hdata := by
    have hmem : ∀ r, L.IsData (s.addrOf L r) → r = q := by
      intro r hr
      by_contra hne
      rw [h r, if_neg hne] at hr
      exact absurd hr.1 (Nat.not_le.mpr Layout.nmeta_pos)
    rw [hmem r hdata, hmem r' (heq ▸ hdata)]
  marks c hc := by
    rw [hbits c hc, decide_eq_true_iff]
    constructor
    · rintro (hc | rfl)
      · exact .inl hc
      · exact .inr ⟨q, by rw [h q, if_pos rfl]⟩
    · rintro (hc | ⟨r, rfl⟩)
      · exact .inl hc
      · rw [h r]
        split
        · exact .inr rfl
        · exact .inl Layout.nmeta_pos

theorem dataRefs_of_one {q : Nat × Place} (h : ∀ r, s.addrOf L r = if r = q then b else 0)
    (hb : L.IsData b) : s.DataRefs L := by
  intro r hr
  rw [h r] at hr ⊢
  split
  · exact hb
  · rename_i hne
    rw [if_neg hne] at hr
    exact absurd rfl hr

theorem whole_of_le (h : ∀ i < L.ninodes, (L.dinode s.block i).type ≠ 0 →
    (L.dinode s.block i).size.toNat ≤ bsize ∧
      ((L.dinode s.block i).size = 0 ∨ s.addrOf L (i, .data 0) ≠ 0)) : s.Whole L := by
  intro i hi ht bn hbn
  obtain ⟨hle, hne⟩ := h i hi ht
  obtain rfl : bn = 0 := by
    simp only [bsize] at *
    omega
  refine ⟨by decide, hne.resolve_left fun h0 => ?_⟩
  rw [h0] at hbn
  exact absurd hbn (by simp)

theorem dirsOk_of_empty (h : ∀ i < L.ninodes, (L.dinode s.block i).type = 1 →
    (L.dinode s.block i).size = 0) : s.DirsOk L := by
  intro i hi ht k hk
  rw [h i hi ht] at hk
  exact absurd hk (by simp)

end One

/-- A root directory without entries, and a file whose only block is the block of the inodes. -/
def metaDisk : Nat → Block :=
  smallLayout.putDinode (smallLayout.putDinode blankDisk 1
    { Dinode.zero with type := 1, nlink := 1 }) 2
    { Dinode.zero with type := 2, nlink := 1, addrs := fun k => if k = 0 then .ofNat 1 else 0 }

/-- The data block of a root directory with one entry, `x`, whose inode number is 33.  That inode is in
the same block, behind the entry, and its only block is the block of the inodes. -/
def forgedBlock : Block :=
  Dinode.put (fun k => dirent ['x'] 33 k.val) 1 { Dinode.zero with
    type := 2, nlink := 1, size := 1024, addrs := fun k => if k = 0 then .ofNat 1 else 0 }

/-- A root directory with that block, and an empty file. -/
def forgedDisk : Nat → Block :=
  Function.update (smallLayout.putDinode (smallLayout.putDinode
    (smallLayout.setBit blankDisk 3) 1 { Dinode.zero with
      type := 1, nlink := 1, size := 16, addrs := fun k => if k = 0 then .ofNat 3 else 0 }) 2
    { Dinode.zero with type := 2, nlink := 1 }) 3 forgedBlock

/-- The small disk with `/` open, after `writei` has put that block into the root directory, which
`Step.Can` does not allow. -/
def planted : Option Node := do
  let x ← Machine.run (Step.next smallLayout) (.holding smallDisk 2) [.open 2 ['/'] 0 true]
  match Step.exec smallLayout x (.write 1 0 1024 (Bytes.byte forgedBlock) 1024) with
  | .ok held v => some ⟨v, held⟩
  | .error _ _ => none

theorem owned_smallDisk : (Node.holding smallDisk 2).vol.Owned smallLayout :=
  ⟨sound_small.owned.once, sound_small.owned.marks⟩

theorem whole_smallDisk : (Node.holding smallDisk 2).vol.Whole smallLayout := sound_small.whole

theorem dataRefs_smallDisk : (Node.holding smallDisk 2).vol.DataRefs smallLayout :=
  sound_small.dataRefs

theorem dirsOk_smallDisk : (Node.holding smallDisk 2).vol.DirsOk smallLayout :=
  dirsOk_of_empty fun _ hi _ => (dinode_smallDisk hi).2

theorem addrOf_metaDisk : ∀ q, (Node.holding metaDisk 2).vol.addrOf smallLayout q =
    if q = (2, .addrs 0) then 1 else 0 :=
  addrOf_one (by decide) (by decide +kernel) (by decide +kernel) (by decide) (by decide +kernel)

theorem addrOf_forgedDisk : ∀ q, (Node.holding forgedDisk 1).vol.addrOf smallLayout q =
    if q = (1, .addrs 0) then 3 else 0 :=
  addrOf_one (by decide) (by decide +kernel) (by decide +kernel) (by decide) (by decide +kernel)

theorem owned_metaDisk : (Node.holding metaDisk 2).vol.Owned smallLayout :=
  owned_of_one addrOf_metaDisk (by decide +kernel)

theorem owned_forgedDisk : (Node.holding forgedDisk 1).vol.Owned smallLayout :=
  owned_of_one addrOf_forgedDisk (by decide +kernel)

theorem whole_metaDisk : (Node.holding metaDisk 2).vol.Whole smallLayout :=
  whole_of_le (by decide +kernel)

theorem whole_forgedDisk : (Node.holding forgedDisk 1).vol.Whole smallLayout :=
  whole_of_le (by decide +kernel)

end Vol

/-! ## Runs -/

/-- **Every run keeps the ownership of blocks**, and `bfree` never finds its block free. -/
theorem owned_run {L : Layout} {x y : Node} {as : List Step} (htable : x.Table L)
    (hown : x.vol.Owned L) (hwhole : x.vol.Whole L) (hdata : x.vol.DataRefs L)
    (hdirs : x.vol.DirsOk L) (hrun : Machine.run (Step.next L) x as = some y) :
    y.vol.Owned L ∧ ∀ (a : Step) (e : Stop) (t : Vol), a.Can L y → a.exec L y = .error e t →
      e ≠ .panic .freeingFreeBlock := by
  have hy := (htable.rest hown hwhole hdata hdirs).run hrun
  exact ⟨hy.consistent.owned, fun a e t hcan hexec => (hy.stops hcan hexec).1⟩

/-- A write, another reference, and a truncation. -/
theorem owned_run_small : ∃ y, Machine.run (Step.next Vol.smallLayout) (.holding Vol.smallDisk 2)
    [.write 2 0 1 (fun _ => 7) 1, .idup 2, .itrunc 2] = some y ∧ y.vol.Owned Vol.smallLayout := by
  obtain ⟨y, hy⟩ := Option.isSome_iff_exists.mp (show (Machine.run (Step.next Vol.smallLayout)
    (.holding Vol.smallDisk 2) [.write 2 0 1 (fun _ => 7) 1, .idup 2, .itrunc 2]).isSome by
      decide +kernel)
  exact ⟨y, hy, (owned_run (Node.table_holding Vol.smallDisk (by decide)) Vol.owned_smallDisk
    Vol.whole_smallDisk Vol.dataRefs_smallDisk Vol.dirsOk_smallDisk hy).1⟩

open Vol in
/-- No condition can be left out: truncating a file that points at the inodes, or unlinking a name
with a forged inode, which may be there from the start or written to the directory, clears the mark of
the inodes. -/
theorem not_owned_run :
    ((Node.holding metaDisk 2).Table smallLayout ∧
      (Node.holding metaDisk 2).vol.Owned smallLayout ∧
      (Node.holding metaDisk 2).vol.Whole smallLayout ∧
      (Node.holding metaDisk 2).vol.DirsOk smallLayout ∧
      ∃ y, Machine.run (Step.next smallLayout) (.holding metaDisk 2) [.itrunc 2] = some y ∧
        ¬y.vol.Owned smallLayout) ∧
    ((Node.holding forgedDisk 1).Table smallLayout ∧
      (Node.holding forgedDisk 1).vol.Owned smallLayout ∧
      (Node.holding forgedDisk 1).vol.Whole smallLayout ∧
      (Node.holding forgedDisk 1).vol.DataRefs smallLayout ∧
      ∃ y, Machine.run (Step.next smallLayout) (.holding forgedDisk 1) [.unlink 1 ['/', 'x']] = some y ∧
        ¬y.vol.Owned smallLayout) ∧
    ∃ x y, planted = some x ∧ Machine.run (Step.next smallLayout) x [.unlink 1 ['/', 'x']] = some y ∧
      ¬y.vol.Owned smallLayout := by
  have hnot : ∀ {y : Node}, smallLayout.bit y.vol.block 1 = false → ¬y.vol.Owned smallLayout := by
    intro y hbit hown
    have hmark := (hown.marks 1 (by decide)).mpr (.inl (by decide))
    rw [hbit] at hmark
    exact absurd hmark (by decide)
  have hrun : ∀ {x : Node} {as : List Step}, (∃ y, Machine.run (Step.next smallLayout) x as = some y ∧
      smallLayout.bit y.vol.block 1 = false) →
        ∃ y, Machine.run (Step.next smallLayout) x as = some y ∧ ¬y.vol.Owned smallLayout :=
    fun ⟨y, hy, hbit⟩ => ⟨y, hy, hnot hbit⟩
  refine ⟨⟨Node.table_holding metaDisk (by decide), owned_metaDisk, whole_metaDisk,
    dirsOk_of_empty (by decide +kernel), hrun (by decide +kernel)⟩,
    ⟨Node.table_holding forgedDisk (by decide), owned_forgedDisk, whole_forgedDisk,
    dataRefs_of_one addrOf_forgedDisk (by decide), hrun (by decide +kernel)⟩, ?_⟩
  obtain ⟨x, hx, y, hy, hbit⟩ : ∃ x, planted = some x ∧ ∃ y,
      Machine.run (Step.next smallLayout) x [.unlink 1 ['/', 'x']] = some y ∧
        smallLayout.bit y.vol.block 1 = false := by decide +kernel
  exact ⟨x, y, hx, hy, hnot hbit⟩

end Xv6.Fs
