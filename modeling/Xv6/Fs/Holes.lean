import Xv6.Fs.Ownership

/-!
# No holes, so reading never allocates

`bmap` allocates a block when it finds none, also for `readi`, and `fileread` calls `readi` outside of
transactions, where `log_write` panics.  So it matters that there are no holes.  That needs the blocks
to have one owner (`not_whole_run`).
-/

namespace Xv6.Fs

open Prog

/-- **Every run keeps every file whole.**  Reading leaves the disk as it is, and nothing calls
`log_write` outside a transaction. -/
theorem whole_run {L : Layout} {x y : Node} {as : List Step} (htable : x.Table L)
    (hwhole : x.vol.Whole L) (hown : x.vol.Owned L) (hdata : x.vol.DataRefs L)
    (hdirs : x.vol.DirsOk L) (hrun : Machine.run (Step.next L) x as = some y) :
    y.vol.Whole L ∧
    (∀ (i : Nat) (off n : UInt32) (ok : Nat) (held : List Nat) (t : Vol), i ∈ y.held →
      Step.exec L y (.read i off n ok) = .ok held t → t.block = y.vol.block ∧ t.logged = []) ∧
    ∀ (a : Step) (e : Stop) (t : Vol), a.Can L y → a.exec L y = .error e t →
      e ≠ .panic .logWriteOutsideOfTrans := by
  have hy := (htable.rest hown hwhole hdata hdirs).run hrun
  refine ⟨hy.consistent.whole, fun i off n ok held t hi hexec => ?_,
    fun a e t hcan hexec => (hy.stops hcan hexec).2.1⟩
  obtain ⟨-, -, hblock, -, hlogged⟩ := (wp_of_ok hexec).mp (hy.wp_read hi)
  exact ⟨hblock, hlogged⟩

open Vol in
/-- After a write behind the end, and a truncation, a write at a stale offset. -/
theorem whole_run_small : ∃ y, Machine.run (Step.next smallLayout) (.holding smallDisk 2)
    [.write 2 0 1 (fun _ => 7) 1, .itrunc 2, .write 2 1 1 (fun _ => 7) 1] = some y ∧
      y.vol.Whole smallLayout := by
  obtain ⟨y, hy⟩ := Option.isSome_iff_exists.mp (show (Machine.run (Step.next smallLayout)
    (.holding smallDisk 2)
    [.write 2 0 1 (fun _ => 7) 1, .itrunc 2, .write 2 1 1 (fun _ => 7) 1]).isSome by decide +kernel)
  exact ⟨y, hy, (whole_run (Node.table_holding smallDisk (by decide)) whole_smallDisk
    owned_smallDisk dataRefs_smallDisk dirsOk_smallDisk hy).1⟩

namespace Vol

/-- The layout of the small disk with one more inode. -/
def sharedLayout : Layout :=
  { smallLayout with
    ninodes := 4
    inodes_le := by decide
    ninodes_le := by decide
    root_lt := by decide }

/-- Two files: block 4 is the indirect block of inode 2 and the only block of inode 3. -/
def sharedDisk : Nat → Block :=
  Function.update (sharedLayout.putDinode (sharedLayout.putDinode blankDisk 2
    { Dinode.zero with
      type := 2, nlink := 1, size := 12289, addrs := fun k => if k = 12 then 4 else 5 }) 3
    { Dinode.zero with
      type := 2, nlink := 1, size := 4, addrs := fun k => if k = 0 then 4 else 0 })
    4 (putWord (fun _ => 0) 0 3)

theorem whole_sharedDisk : (Node.holding sharedDisk 3).vol.Whole sharedLayout := by
  have h : ∀ i < 4, (sharedLayout.dinode sharedDisk i).size.toNat ≤ 13 * bsize ∧
      ∀ bn < 13, bn * bsize < (sharedLayout.dinode sharedDisk i).size.toNat →
        refs sharedLayout (sharedLayout.dinode sharedDisk) sharedDisk (i, .data bn) ≠ 0 := by
    decide +kernel
  intro i hi _ bn hbn
  obtain ⟨hle, hne⟩ := h i hi
  have hbn' : bn < 13 := by
    change bn * bsize < (sharedLayout.dinode sharedDisk i).size.toNat at hbn
    simp only [bsize] at *
    omega
  exact ⟨Nat.lt_trans hbn' (by decide), hne bn hbn' hbn⟩

end Vol

open Vol in
/-- Without owners there can be holes: zeros are written to a file that shares its block with the
indirect block of another, or to a forged inode, whose name may be there from the start or written to
the directory. -/
theorem not_whole_run :
    ((Node.holding sharedDisk 3).Table sharedLayout ∧
      (Node.holding sharedDisk 3).vol.Whole sharedLayout ∧
      ∃ y, Machine.run (Step.next sharedLayout) (.holding sharedDisk 3)
        [.write 3 0 4 (fun _ => 0) 4] = some y ∧ ¬y.vol.Whole sharedLayout) ∧
    ((Node.holding forgedDisk 1).Table smallLayout ∧
      (Node.holding forgedDisk 1).vol.Whole smallLayout ∧
      (Node.holding forgedDisk 1).vol.Owned smallLayout ∧
      (Node.holding forgedDisk 1).vol.DataRefs smallLayout ∧
      ∃ y, Machine.run (Step.next smallLayout) (.holding forgedDisk 1)
        [.open 1 ['/', 'x'] 2 true, .write 33 136 1 (fun _ => 1) 1] = some y ∧
        ¬y.vol.Whole smallLayout) ∧
    ∃ x y, planted = some x ∧ Machine.run (Step.next smallLayout) x
      [.open 1 ['/', 'x'] 2 true, .write 33 136 1 (fun _ => 1) 1] = some y ∧
      ¬y.vol.Whole smallLayout := by
  have hnot : ∀ {L : Layout} {y : Node} {bn : Nat}, 2 < L.ninodes →
      (L.dinode y.vol.block 2).type ≠ 0 ∧ bn * bsize < (L.dinode y.vol.block 2).size.toNat ∧
        y.vol.addrOf L (2, .data bn) = 0 → ¬y.vol.Whole L :=
    fun h2 ⟨htype, hlt, h0⟩ hwhole => (hwhole 2 h2 htype _ hlt).2 h0
  have hrun : ∀ {L : Layout} {x : Node} {as : List Step} (bn : Nat), 2 < L.ninodes →
      (∃ y, Machine.run (Step.next L) x as = some y ∧ (L.dinode y.vol.block 2).type ≠ 0 ∧
        bn * bsize < (L.dinode y.vol.block 2).size.toNat ∧ y.vol.addrOf L (2, .data bn) = 0) →
      ∃ y, Machine.run (Step.next L) x as = some y ∧ ¬y.vol.Whole L :=
    fun _ h2 ⟨y, hy, hhole⟩ => ⟨y, hy, hnot h2 hhole⟩
  refine ⟨⟨Node.table_holding sharedDisk (by decide), whole_sharedDisk,
    hrun 12 (by decide) (by decide +kernel)⟩,
    ⟨Node.table_holding forgedDisk (by decide), whole_forgedDisk, owned_forgedDisk,
    dataRefs_of_one addrOf_forgedDisk (by decide), hrun 0 (by decide) (by decide +kernel)⟩, ?_⟩
  obtain ⟨x, hx, y, hy, hhole⟩ : ∃ x, planted = some x ∧ ∃ y, Machine.run (Step.next smallLayout) x
      [.open 1 ['/', 'x'] 2 true, .write 33 136 1 (fun _ => 1) 1] = some y ∧
        (smallLayout.dinode y.vol.block 2).type ≠ 0 ∧
        0 * bsize < (smallLayout.dinode y.vol.block 2).size.toNat ∧
        y.vol.addrOf smallLayout (2, .data 0) = 0 := by decide +kernel
  exact ⟨x, y, hx, hy, hnot (by decide) hhole⟩

end Xv6.Fs
