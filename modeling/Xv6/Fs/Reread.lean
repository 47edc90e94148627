import Xv6.Fs.Ownership

/-!
# The table of inodes agrees with the disk

A function that changes an inode calls `iupdate` before it unlocks it, so an entry of the table is a
copy of the inode on the disk whenever it is unlocked, and nothing is lost when it is dropped and read
again (`synced_run`).  Calls lock and unlock inodes on the way; `Vol.watched` are the operations with a
check of the whole table wherever an inode is locked or unlocked.
That needs what is written to a file, or cleared for it, not to be the block of another inode.
-/

namespace Xv6.Fs

open Prog

/-- The entry for inode `i` is a copy of the inode on the disk. -/
def Vol.SyncedAt (L : Layout) (s : Vol) (i : Nat) : Prop := s.mem i = L.dinode s.block i

instance (L : Layout) (s : Vol) (i : Nat) : Decidable (s.SyncedAt L i) :=
  inferInstanceAs (Decidable (_ = _))

/-- The root directory is in the table, and its entry is not a copy of the inode on the disk. -/
def Vol.Stale (L : Layout) (s : Vol) : Prop :=
  0 < s.ref rootIno ∧ s.valid rootIno = true ∧ ¬s.SyncedAt L rootIno

instance (L : Layout) (s : Vol) : Decidable (s.Stale L) :=
  inferInstanceAs (Decidable (_ ∧ _ ∧ _))

/-- What the table has about inode `i` is dropped, as when the entry is used for another inode. -/
def Vol.forget (s : Vol) (i : Nat) : Vol := { s with valid := Function.update s.valid i false }

theorem Vol.ilock_forget {L : Layout} {s : Vol} {i : Nat} (href : 0 < s.ref i)
    (hsync : s.SyncedAt L i) (htype : (s.mem i).type ≠ 0) (hv : s.valid i = true) :
    Vol.ilock L i (s.forget i) = .ok () s := by
  have hmem : Function.update s.mem i (L.dinode s.block i) = s.mem := by
    rw [← hsync, Function.update_eq_self]
  have hvalid : Function.update (Function.update s.valid i false) i true = s.valid := by
    rw [Function.update_idem, ← hv, Function.update_eq_self]
  have hwp : wp (Vol.ilock L i) (fun _ t => t = s) (fun _ _ => False) (s.forget i) := by
    rw [ilock, wp_bind, wp_get, if_neg (show ¬(s.forget i).ref i < 1 from Int.not_lt.mpr href),
      if_pos (show (s.forget i).valid i = false from Function.update_self ..)]
    dsimp only [forget, setMem]
    rw [wp_bind, wp_set, if_neg (hsync ▸ htype), wp_pure, hmem, hvalid]
  obtain ⟨r, t, hok, rfl⟩ := hwp.exists_ok
  exact hok

/-- Every entry in use is a copy of the inode on the disk, and dropping it loses nothing. -/
def Vol.Synced (L : Layout) (s : Vol) : Prop := ∀ i, 0 < s.ref i → s.valid i = true →
  s.SyncedAt L i ∧ Vol.ilock L i (s.forget i) = .ok () s

theorem Vol.Consistent.synced {L : Layout} {s : Vol} (h : s.Consistent L) : s.Synced L := by
  intro i href hv
  obtain ⟨-, hsync, htype⟩ := h.sync i hv
  exact ⟨hsync, ilock_forget href hsync htype hv⟩

namespace Vol

/-- Stop with `fault` if an entry in use is not a copy of the inode on the disk. -/
def compare (L : Layout) : V Unit := do
  let s ← get
  if ∀ i < L.ninodes, 0 < s.ref i → s.valid i = true → s.SyncedAt L i then return () else throw .fault

/-- The operations, with a comparison before each that locks or unlocks an inode. -/
def watched (L : Layout) : Ops Vol :=
  { ops L with
    ilock := fun i => do compare L; ilock L i
    iunlock := fun i => do compare L; iunlock i
    iput := fun i => do compare L; iput L i }

section Watched

variable {L : Layout} {H W C : List Nat} {s : Vol}

theorem Inv.wp_compare {α : Type} {m : V α} {Q : α → Vol → Prop} {E : Stop → Vol → Prop}
    (h : Inv L H W C s) (hm : wp m Q E s) : wp (do compare L; m) Q E s := by
  rw [wp_bind, compare, wp_bind, wp_get, if_pos fun i _ href hv => (h.toConsistent.synced i href hv).1,
    wp_pure]
  exact hm

theorem watchedPaths (L : Layout) (N : Nat) (B : List Nat) :
    PathRules (watched L) (fun i => [L.iblock i]) N (fun _ => True) (Stops L N) B (Inv L) :=
  { pathRules L N B with
    ilock := fun h hi hN hQ => h.wp_compare ((pathRules L N B).ilock h hi hN hQ)
    iunlock := fun h hi hQ => h.wp_compare ((pathRules L N B).iunlock h hi hQ)
    iput := fun h hB hV hH hblk hQ => h.wp_compare ((pathRules L N B).iput h hB hV hH hblk hQ) }

theorem watchedCalls (L : Layout) (N : Nat) :
    CallRules (watched L) L.iblock N (fun _ => True) (Stops L N) (Inv L) :=
  { callRules L N with toPathRules := watchedPaths L N [] }

end Watched

end Vol

namespace Vol

/-- The small disk, with the block of the inodes not marked as in use. -/
def unmarkedDisk : Nat → Block := smallLayout.clearBit smallDisk 1

theorem dinode_unmarkedDisk {i : Nat} (hi : i < 3) :
    smallLayout.dinode unmarkedDisk i = smallLayout.dinode smallDisk i :=
  Layout.dinode_clearBit hi 1

theorem dataRefs_unmarkedDisk : (Node.holding unmarkedDisk 2).vol.DataRefs smallLayout := by
  rintro ⟨i, p⟩ h0
  refine absurd ?_ h0
  by_cases hi : i < smallLayout.ninodes
  · change refs smallLayout (smallLayout.dinode unmarkedDisk) unmarkedDisk (i, p) = 0
    rw [refs]
    dsimp only
    rw [dinode_unmarkedDisk hi, Dinode.at_of_empty (dinode_smallDisk hi).1, ite_self]
  · exact refs_of_not_lt hi

end Vol

end Xv6.Fs
