import Xv6.Fs.Consistent
import Xv6.Fs.Protocol

/-!
# The operations on inodes made of blocks

The operations of `kernel/fs.c` follow the rules of `CallRules`: what is kept, `Inv`, is that the file
system is consistent, that an inode has at least as many references in the table as are held, and that
the blocks that have been given to `log_write` are bitmap blocks or among those that are counted.
-/

namespace Xv6.Fs

open Function (update_of_ne update_self update_apply update_eq_self)
open Prog

attribute [local irreducible] wp

namespace Vol

/-- The blocks that have been given to `log_write` are among those of a list, or bitmap blocks. -/
def Covers (L : Layout) (C : List Nat) (s : Vol) : Prop :=
  ∀ b ∈ s.logged, b ∈ C ∨ ∃ c < L.size, b = L.bblock c

/-- What the operations keep: `H` are the references that are held, `V` the inodes among them that are
locked, and `C` covers what has been given to `log_write`. -/
structure Inv (L : Layout) (H V C : List Nat) (s : Vol) : Prop extends Consistent L s where
  refs : ∀ i, (H.count i : Int) ≤ s.ref i
  held : ∀ i ∈ H, i < L.ninodes
  locked : ∀ i ∈ V, i ∈ H ∧ s.valid i = true
  inOp : s.inOp = true
  logs : Covers L C s

/-- How the operations may stop: with a panic, but not because of a free block, or outside a
transaction. -/
def Stops (L : Layout) (N : Nat) (e : Stop) (t : Vol) : Prop :=
  e ≠ .panic .freeingFreeBlock ∧ e ≠ .panic .logWriteOutsideOfTrans ∧ e ≠ .fault ∧
    ∃ C, C.length ≤ N ∧ Covers L C t

section Rules

variable {L : Layout} {N : Nat} {H V C : List Nat} {s : Vol} {i dp : Nat}

theorem Inv.stops (h : Inv L H V C s) (hN : C.length ≤ N) {p : Panic}
    (hp : p ≠ .freeingFreeBlock ∧ p ≠ .logWriteOutsideOfTrans) : Stops L N (.panic p) s :=
  ⟨fun heq => hp.1 (Stop.panic.inj heq), fun heq => hp.2 (Stop.panic.inj heq), by simp, C, hN,
    h.logs⟩

variable {C' D H' V' W : List Nat}

theorem Inv.weaken (h : Inv L H V C s) (hV : V' ⊆ V) (hC : C ⊆ C') :
    Inv L H V' C' s :=
  { h with
    locked := fun i hi => h.locked i (hV hi)
    logs := fun b hb => (h.logs b hb).imp_left fun hb => hC hb }

theorem Inv.perm (h : Inv L H V C s) (hH : H.Perm H') : Inv L H' V C s :=
  { h with
    refs := fun i => by rw [← hH.count_eq]; exact h.refs i
    held := fun i hi => h.held i (hH.mem_iff.mpr hi)
    locked := fun i hi => ⟨hH.mem_iff.mp (h.locked i hi).1, (h.locked i hi).2⟩ }

theorem Inv.ref_pos (h : Inv L H V C s) (hi : i ∈ H) : 0 < s.ref i := by
  have hcount : 0 < H.count i := List.count_pos_iff.mpr hi
  have := h.refs i
  omega

theorem count_cons_le {ref : Nat → Int} {n : Int} (h : ∀ j, (H.count j : Int) ≤ ref j)
    (hn : (H.count i : Int) + 1 ≤ n) (j : Nat) :
    ((i :: H).count j : Int) ≤ Function.update ref i n j := by
  by_cases hji : j = i
  · subst hji
    rw [List.count_cons_self, update_self]
    push_cast
    exact hn
  · rw [List.count_cons_of_ne (Ne.symm hji), update_of_ne hji]
    exact h j

theorem Inv.addRef (h : Inv L H V C s) (hi : i < L.ninodes) :
    Inv L (i :: H) V C { s with ref := Function.update s.ref i (s.ref i + 1) } := by
  have hcount := h.refs i
  exact ⟨h.of_table rfl h.sync, count_cons_le h.refs (by omega),
    List.forall_mem_cons.mpr ⟨hi, h.held⟩,
    fun j hj => ⟨.tail _ (h.locked j hj).1, (h.locked j hj).2⟩, h.inOp, h.logs⟩

theorem Inv.firstRef (h : Inv L H V C s) (hi : i < L.ninodes) (hnot : i ∉ H) :
    Inv L (i :: H) V C { s with
      ref := Function.update s.ref i 1
      valid := Function.update s.valid i false
      inuse := s.inuse + 1 } := by
  refine ⟨h.of_table rfl fun j hj => ?_, count_cons_le h.refs ?_,
    List.forall_mem_cons.mpr ⟨hi, h.held⟩, fun j hj => ?_, h.inOp, h.logs⟩
  · dsimp only at hj
    by_cases hji : j = i
    · rw [hji, update_self] at hj
      exact absurd hj (by decide)
    · rw [update_of_ne hji] at hj
      exact h.sync j hj
  · rw [List.count_eq_zero_of_not_mem hnot]
    decide
  · obtain ⟨hmem, hv⟩ := h.locked j hj
    have hji : j ≠ i := by
      rintro rfl
      exact hnot hmem
    exact ⟨.tail _ hmem, (update_of_ne hji ..).trans hv⟩

variable {Q : Unit → Vol → Prop}

theorem wp_iget (h : Inv L H V C s) (hi : i < L.ninodes)
    (hN : C.length ≤ N) (hQ : ∀ t, t.block = s.block → Inv L (i :: H) V C t → Q () t) :
    wp (iget i) Q (Stops L N) s := by
  rw [iget, wp_bind, wp_get, wp_ite]
  split
  · rw [wp_set]
    exact hQ _ rfl (h.addRef hi)
  · rename_i href
    rw [wp_ite]
    split
    · rw [wp_throw]
      exact h.stops hN (by decide)
    · rw [wp_set]
      exact hQ _ rfl (h.firstRef hi fun hmem => href (h.ref_pos hmem))

variable {E : Stop → Vol → Prop}

theorem wp_idup (h : Inv L H V C s) (hi : i ∈ H)
    (hQ : ∀ t, t.block = s.block → Inv L (i :: H) V C t → Q () t) : wp (idup i) Q E s := by
  rw [idup, wp_modify]
  exact hQ _ rfl (h.addRef (h.held i hi))

theorem Consistent.wp_ilock (h : Consistent L s)
    (hi : i < L.ninodes) (hpos : 0 < s.ref i)
    (hE : (L.dinode s.block i).type = 0 → ∀ t, t.logged = s.logged → E (.panic .ilockNoType) t)
    (hQ : ∀ x v, Consistent L { s.setMem i x with valid := v } → v i = true →
      (∀ j, s.valid j = true → v j = true) → Q () { s.setMem i x with valid := v }) :
    wp (ilock L i) Q E s := by
  rw [ilock, wp_bind, wp_get, wp_ite, if_neg (by omega), wp_ite]
  split
  · rw [wp_bind, wp_set, wp_ite]
    split
    · rename_i ht
      rw [wp_throw]
      exact hE ht _ rfl
    · rename_i ht
      refine .pure (hQ _ _ (h.of_table rfl fun j hj => ?_) (update_self ..) fun j hj => ?_)
      · by_cases hji : j = i
        · subst hji
          dsimp only
          rw [mem_setMem]
          exact ⟨hi, rfl, ht⟩
        · have hmem : (s.setMem i (L.dinode s.block i)).mem j = s.mem j :=
            update_of_ne hji ..
          dsimp only at hj ⊢
          rw [update_of_ne hji] at hj
          rw [hmem]
          exact h.sync j hj
      · rw [update_apply]
        split
        · rfl
        · exact hj
  · rename_i hv
    rw [wp_pure]
    have hsame : { s.setMem i (s.mem i) with valid := s.valid } = s := by
      rw [setMem, update_eq_self]
    have hQ' := hQ (s.mem i) s.valid
    rw [hsame] at hQ'
    exact hQ' h (by simpa using hv) fun j hj => hj

theorem wp_iunlock {E : Stop → Vol → Prop} (hpos : 0 < s.ref i) (hQ : Q () s) :
    wp (iunlock i) Q E s := by
  rw [iunlock, wp_bind, wp_get, if_neg (by omega), wp_pure]
  exact hQ

theorem wp_ilock (h : Inv L H V C s) (hi : i ∈ H) (hN : C.length ≤ N)
    (hQ : ∀ t, t.block = s.block → Inv L H (i :: V) C t → Q () t) :
    wp (ilock L i) Q (Stops L N) s := by
  refine h.toConsistent.wp_ilock (h.held i hi) (h.ref_pos hi) (fun _ t ht => ?_) fun x v hc hv hmono => ?_
  · refine ⟨by decide, by decide, by decide, C, hN, ?_⟩
    rw [Covers, ht]
    exact h.logs
  · refine hQ _ rfl ⟨hc, h.refs, h.held, fun j hj => ?_, h.inOp, h.logs⟩
    rcases List.mem_cons.mp hj with rfl | hj
    · exact ⟨hi, hv⟩
    · exact ⟨(h.locked j hj).1, hmono j (h.locked j hj).2⟩

theorem Inv.of_disk {t : Vol} (h : Inv L H V C s) (ht : Consistent L t)
    (href : t.ref = s.ref) (hvalid : t.valid = s.valid) (hop : t.inOp = s.inOp)
    (hlogs : Covers L D t) : Inv L H V D t := by
  refine ⟨ht, ?_, h.held, ?_, hop.trans h.inOp, hlogs⟩
  · rw [href]
    exact h.refs
  · rw [hvalid]
    exact h.locked

theorem Covers.log {b : Nat} (h : Covers L C s) (hb : b ∈ C) : Covers L C (s.log b) := by
  intro c hc
  rcases mem_log hc with hc | rfl
  · exact h c hc
  · exact .inl hb

theorem wp_update {f : Dinode → Dinode}
    (h : Inv L H V C s) (hi : i ∈ V) (hblk : L.iblock i ∈ C)
    (hf : ∀ x, (f x).addrs = x.addrs ∧ (f x).type = x.type ∧ (f x).size = x.size)
    (hQ : ∀ t, Inv L H V C t → Q () t) : wp (update L i f) Q E s := by
  obtain ⟨haddrs, htype, hsize⟩ := hf (s.mem i)
  rw [update, wp_bind, wp_modify]
  refine wp_iupdate h.inOp (hQ _ (h.of_disk ?_ rfl rfl rfl ?_))
  · exact h.setStore (h.locked i hi).2 haddrs htype hsize
  · exact Covers.log h.logs hblk

theorem wp_itruncInv (h : Inv L H V C s)
    (hi : i ∈ V) (hblk : L.iblock i ∈ C)
    (hQ : ∀ t, Truncated L i s t → Inv L H V C t → Q () t) : wp (itrunc L i) Q E s := by
  have hv := (h.locked i hi).2
  obtain ⟨hlt, -, htype⟩ := h.sync i hv
  refine wp_itrunc (by rw [h.ino_eq hv]; exact h.own) hlt htype h.inOp fun t ht =>
    hQ t ht (h.of_disk (ht.consistent h.toConsistent hv) ht.ref ht.valid ht.inOp fun b hb => ?_)
  rcases ht.logs b hb with hb | hb | rfl
  · exact h.logs b hb
  · exact .inr hb
  · exact .inl hblk

/-- `i` is the inode number of entry `k` of a directory. -/
structure IsEntry (L : Layout) (s : Vol) (dp k i : Nat) : Prop where
  lt : dp < L.ninodes
  type : (L.dinode s.block dp).type = 1
  le : 16 * k + 16 ≤ (L.dinode s.block dp).size.toNat
  inum : s.entryInum L dp k = i
  ne_zero : i ≠ 0

theorem wp_dirlookup {Q : Option (Nat × Nat) → Vol → Prop} {name : Name} (h : Inv L H V C s)
    (hdp : dp ∈ V) (hN : C.length ≤ N) (hnone : Q none s)
    (hsome : ∀ i k t, IsEntry L s dp k i → t.block = s.block → Inv L (i :: H) V C t →
      Q (some (i, 16 * k)) t) :
    wp (dirlookup L dp name) Q (Stops L N) s := by
  have hv := (h.locked dp hdp).2
  obtain ⟨hlt, hmem, -⟩ := h.sync dp hv
  refine h.wp_dirlookup hv (h.stops hN (by decide)) (h.stops hN (by decide)) (fun _ => hnone)
    fun htype k hk hne => ?_
  rw [hmem] at htype hk
  exact wp_iget h (h.dirs dp hlt htype k hk) hN
    fun t hblock ht => hsome _ k t ⟨hlt, htype, hk, rfl, hne⟩ hblock ht

theorem Inv.dropRef {m : Nat} (h : Inv L (i :: H) V C s) (hV : V' ⊆ V)
    (hH : V' ⊆ H) :
    Inv L H V' C { s with ref := Function.update s.ref i (s.ref i - 1), inuse := m } := by
  refine ⟨h.of_table rfl h.sync, fun j => ?_, fun j hj => h.held j (.tail _ hj),
    fun j hj => ⟨hH hj, (h.locked j (hV hj)).2⟩, h.inOp, h.logs⟩
  have hj := h.refs j
  dsimp only
  by_cases hji : j = i
  · subst hji
    rw [List.count_cons_self] at hj
    rw [update_self]
    push_cast at hj
    omega
  · rw [List.count_cons_of_ne (Ne.symm hji)] at hj
    rw [update_of_ne hji]
    exact hj

theorem Inv.freeInode (h : Inv L (i :: H) V C s) (hV : W ⊆ V) (hi : i ∉ W)
    (hblk : L.iblock i ∈ C) (haddrs : (s.mem i).addrs = fun _ => 0) (hsize : (s.mem i).size = 0)
    (hself : L.dinode s.block i = s.mem i) :
    Inv L (i :: H) W C { (s.setMem i { s.mem i with type := 0 }).store L i with
      valid := Function.update s.valid i false } := by
  have hlt := h.held i List.mem_cons_self
  have hnone : ∀ p, s.addrOf L (i, p) = 0 := by
    intro p
    rw [addrOf, Fs.refs]
    dsimp only
    rw [Dinode.at_of_empty (by rw [hself, haddrs]), ite_self]
  refine ⟨h.putEmpty (i := i) (x := { s.mem i with type := 0 }) hlt hnone haddrs hsize
    (block_setStore L s i _) fun j hj => ?_, h.refs, h.held, fun j hj => ?_, h.inOp,
    Covers.log h.logs hblk⟩
  · dsimp only at hj
    by_cases hji : j = i
    · rw [hji, update_self] at hj
      exact absurd hj (by decide)
    · rw [update_of_ne hji] at hj
      exact ⟨hji, hj, update_of_ne hji ..⟩
  · obtain ⟨hmem, hv⟩ := h.locked j (hV hj)
    have hji : j ≠ i := by
      rintro rfl
      exact hi hj
    exact ⟨hmem, (update_of_ne hji ..).trans hv⟩

def dropRef (s : Vol) (i : Nat) : Vol :=
  { s with
    ref := Function.update s.ref i (s.ref i - 1)
    inuse := if s.ref i = 1 then s.inuse - 1 else s.inuse }

def freed (L : Layout) (s : Vol) (i : Nat) : Vol :=
  { (s.setMem i { s.mem i with type := 0 }).store L i with
    valid := Function.update s.valid i false }

theorem wp_iputCases
    (h : Inv L (i :: H) V C s) (hblk : L.iblock i ∈ C)
    (hkeep : ¬(s.ref i = 1 ∧ s.valid i = true ∧ (s.mem i).nlink = 0) → Q () (s.dropRef i))
    (hfree : s.ref i = 1 → s.valid i = true → (s.mem i).nlink = 0 → i ∉ H →
      ∀ t, Truncated L i s t → Inv L (i :: H) (i :: V) C t → Q () ((t.freed L i).dropRef i)) :
    wp (iput L i) Q E s := by
  rw [iput, wp_bind, wp_get, wp_ite]
  split
  · rename_i hlast
    obtain ⟨href, hv, hnlink⟩ := hlast
    -- nobody else has a reference
    have hnot : i ∉ H := by
      intro hmem
      have hcount := h.refs i
      have hpos : 0 < H.count i := List.count_pos_iff.mpr hmem
      rw [List.count_cons_self, href] at hcount
      push_cast at hcount
      omega
    have hlock : Inv L (i :: H) (i :: V) C s :=
      ⟨h.toConsistent, h.refs, h.held, List.forall_mem_cons.mpr
        ⟨⟨List.mem_cons_self, hv⟩, h.locked⟩, h.inOp, h.logs⟩
    refine .bind (wp_itruncInv hlock List.mem_cons_self hblk fun t ht hinv => ?_)
    rw [wp_bind, wp_modify, wp_bind]
    refine wp_iupdate hinv.inOp ?_
    rw [wp_bind, wp_modify, wp_modify]
    exact hfree href hv hnlink hnot t ht hinv
  · rename_i hlast
    rw [wp_modify]
    exact hkeep hlast

theorem Inv.freed {t : Vol} (h : Inv L (i :: H) (i :: V) C t) (hV : W ⊆ V)
    (hH : W ⊆ H) (hnot : i ∉ H) (hblk : L.iblock i ∈ C) (ht : Truncated L i s t) :
    Inv L H W C ((t.freed L i).dropRef i) :=
  (h.freeInode (W := W) (List.Subset.trans hV (List.subset_cons_self ..))
    (fun hmem => hnot (hH hmem)) hblk (by rw [ht.self]) (by rw [ht.self]) ht.disk_self).dropRef
    (List.Subset.refl W) hH

/-- **`iput`** drops a reference, and frees the inode if it was the last one and there are no
links. -/
theorem wp_iput
    (h : Inv L (i :: H) V C s) (hV : W ⊆ V) (hH : W ⊆ H) (hblk : L.iblock i ∈ C)
    (hQ : ∀ t, Inv L H W C t → Q () t) : wp (iput L i) Q E s :=
  wp_iputCases h hblk (fun _ => hQ _ (h.dropRef hV hH))
    fun _ _ _ hnot _ ht hinv => hQ _ (hinv.freed hV hH hnot hblk ht)

theorem wp_ialloc {type : FType} {Q : Option Nat → Vol → Prop} (h : Inv L H V C s)
    (hN : C.length + 1 ≤ N) (hnone : Q none s)
    (hsome : ∀ i t, Inv L (i :: H) V (L.iblock i :: C) t → Q (some i) t) :
    wp (ialloc L type) Q (Stops L N) s := by
  rw [ialloc, wp_bind, wp_get]
  dsimp only
  split
  · exact .pure hnone
  · rename_i i hfind
    have hfree : (L.dinode s.block i).type = 0 := by
      simpa using List.find?_some hfind
    have hi : i < L.ninodes := by
      have := List.mem_range'_1.mp (List.mem_of_find?_eq_some hfind)
      omega
    have hnoaddr : ∀ p, s.addrOf L (i, p) = 0 := fun p => if_neg fun hne => hne.2 hfree
    refine .bind (wp_write h.inOp ?_)
    rw [wp_bind]
    -- the inode is not in the table, because its type is zero
    have hput := h.putEmpty (i := i) (x := { Dinode.zero with type := type.toUInt16 })
      (t := (s.setBlock (L.iblock i) (Dinode.put (s.block (L.iblock i)) (i % ipb)
        { Dinode.zero with type := type.toUInt16 })).log (L.iblock i)) hi hnoaddr rfl rfl rfl
      fun j hvj => ⟨?_, hvj, rfl⟩
    · refine wp_iget (h.of_disk (D := L.iblock i :: C) hput rfl rfl rfl ?_) hi hN fun t _ ht => ?_
      · exact Covers.log (h.weaken (List.Subset.refl V) (List.subset_cons_self ..)).logs
          List.mem_cons_self
      · exact .pure (hsome i t ht)
    · rintro rfl
      obtain ⟨-, hmem, hne⟩ := h.sync j hvj
      exact hne (hmem ▸ hfree)

theorem wp_writeEntry {Q : Int → Vol → Prop} {off : UInt32} {k : Nat}
    {f : Nat → UInt8} (h : Inv L H V C s) (hdp : dp ∈ V) (hblk : L.iblock dp ∈ C)
    (hk : off.toNat = 16 * k) (hnew : (f 0).toNat + 256 * (f 1).toNat < L.ninodes)
    (hpart : (s.mem dp).type = 1 → 16 * k + 16 ≤ (s.mem dp).size.toNat →
      (f 0).toNat + 256 * (s.byteOf L dp (16 * k + 1)).toNat < L.ninodes)
    (hQ : ∀ r x y t, Inv L H V (x :: y :: C) t → Q r t) : wp (writei L dp off 16 f 16) Q E s := by
  have hv := (h.locked dp hdp).2
  have h16 : (16 : UInt32).toNat = 16 := rfl
  have hskip : ∀ x y, C ⊆ x :: y :: C := fun x y b hb => .tail _ (.tail _ hb)
  refine h.wp_writei hv h.inOp
    (fun _ => hQ (-1) 0 0 s (h.weaken (List.Subset.refl V) (hskip 0 0)))
    fun hsize _ r hi t hr _ hcopy _ hw ht => ?_
  rw [hcopy (Nat.le_refl _), hk, h16] at hw
  rw [hk] at hsize
  have hdir : (s.mem dp).type = 1 → DirOk L t dp := fun htype =>
    hw.dirOk h.toConsistent hv ht (Nat.mul_mod_right ..) hsize hr
      (by rw [Nat.sub_self, Nat.add_sub_cancel_left]; exact hnew)
      (fun hle => by rw [Nat.sub_self]; exact hpart htype hle) htype
  refine hQ r (t.addrOf L (dp, .indirect)) (t.addrOf L (dp, .data (16 * k / bsize))) t
    (h.of_disk (hw.consistent h.toConsistent hv ht hdir) hw.ref hw.valid hw.inOp fun b hb => ?_)
  rcases hw.logs b hb with hb | hb | rfl | ⟨p, hp, rfl⟩
  · exact (h.logs b hb).imp_left fun hb => hskip _ _ hb
  · exact .inr hb
  · exact .inl (hskip _ _ hblk)
  · rcases hp with rfl | ⟨l, hl, hl', rfl⟩
    · exact .inl List.mem_cons_self
    · -- an entry does not cross the end of a block
      have hdiv : l / bsize = 16 * k / bsize := by
        simp only [bsize]
        omega
      rw [hdiv]
      exact .inl (.tail _ List.mem_cons_self)

theorem dirent_inum (name : Name) {n : Nat} (hn : n < 2 ^ 16) :
    (dirent name n 0).toNat + 256 * (dirent name n 1).toNat = n := by
  have h0 : dirent name n 0 = .ofNat n := rfl
  have h1 : dirent name n 1 = .ofNat (n / 256) := rfl
  rw [h0, h1, UInt8.toNat_ofNat', UInt8.toNat_ofNat']
  omega

theorem wp_dirlink {Q : Bool → Vol → Prop} {name : Name} {ip : Nat} (h : Inv L H V C s)
    (hdp : dp ∈ V) (hip : ip < L.ninodes) (hblk : L.iblock dp ∈ C) (hN : C.length + 2 ≤ N)
    (hQ : ∀ r x y t, Inv L H V (x :: y :: C) t → Q r t) :
    wp (dirlink L dp name ip) Q (Stops L N) s := by
  have hv := (h.locked dp hdp).2
  have hip16 : ip < 2 ^ 16 := Nat.lt_of_lt_of_le hip L.ninodes_le
  rw [dirlink, wp_bind]
  refine wp_dirlookup h hdp (by omega) ?_ fun i k t _ _ ht => ?_
  · dsimp only
    rw [wp_bind, wp_get, wp_bind]
    refine h.wp_emptyFrom (k := 0) hv (by omega) (by omega) (h.stops (by omega) (by decide))
      fun k hk hempty => ?_
    have hlt : 16 * k < 2 ^ 32 := Nat.lt_of_le_of_lt hk (s.mem dp).size.toNat_lt
    rw [wp_bind]
    refine wp_writeEntry (k := k) h hdp hblk (UInt32.toNat_ofNat_of_lt' hlt) ?_ (fun _ hle => ?_)
      fun r x y t ht => ?_
    · rw [dirent_inum name hip16]
      exact hip
    · have h0 := hempty hle
      rw [entryInum] at h0
      have := dirent_inum name hip16
      omega
    · exact .pure (hQ _ x y t ht)
  · dsimp only
    refine .bind (wp_iput (W := V) (C := L.iblock i :: L.iblock i :: C)
      (ht.weaken (List.Subset.refl V) fun b hb => .tail _ (.tail _ hb)) (List.Subset.refl V)
      (fun j hj => (h.locked j hj).1) List.mem_cons_self fun u hu => ?_)
    exact .pure (hQ _ _ _ u hu)

theorem wp_clearEntry {Q : Bool → Vol → Prop} {off : Nat}
    (h : Inv L H V C s) (hdp : dp ∈ V) (hoff : off % 16 = 0) (hblk : L.iblock dp ∈ C)
    (hQ : ∀ r x y t, Inv L H V (x :: y :: C) t → Q r t) :
    wp ((ops L).clearEntry dp off) Q E s := by
  have hv := (h.locked dp hdp).2
  obtain ⟨hlt, hmem, -⟩ := h.sync dp hv
  obtain ⟨k, hk⟩ : ∃ k, (UInt32.ofNat off).toNat = 16 * k := by
    refine ⟨(UInt32.ofNat off).toNat / 16, ?_⟩
    rw [UInt32.toNat_ofNat']
    omega
  show wp (do let r ← writei L dp (.ofNat off) 16 (fun _ => 0) 16; return decide (r = 16)) Q E s
  refine .bind (wp_writeEntry h hdp hblk hk (Nat.lt_trans (by decide) L.root_lt)
    (fun htype hle => ?_) fun r x y t ht => ?_)
  · have hnum := h.dirs dp hlt (by rwa [← hmem]) k (by rwa [← hmem])
    rw [entryInum] at hnum
    exact Nat.lt_of_le_of_lt (Nat.add_le_add_right (Nat.zero_le _) _) hnum
  · exact .pure (hQ _ x y t ht)

theorem wp_setNlink {n : Int} (h : Inv L H V C s)
    (hi : i ∈ V) (hblk : L.iblock i ∈ C) (hQ : ∀ t, Inv L H V C t → Q () t) :
    wp ((ops L).setNlink i n) Q E s := by
  show wp (update L i fun x => { x with nlink := .ofInt n }) Q E s
  exact wp_update h hi hblk (fun _ => ⟨rfl, rfl, rfl⟩) hQ

theorem wp_type {Q : FType → Vol → Prop} (hQ : ∀ x, Q x s) :
    wp ((ops L).type i) Q E s := by
  show wp (do return ((← get).mem i).ftype) Q E s
  rw [wp_bind, wp_get, wp_pure]
  exact hQ _

/-- **The operations keep `Inv`**, also when a path is followed, whichever references stay. -/
theorem pathRules (L : Layout) (N : Nat) (B : List Nat) :
    PathRules (ops L) (fun i => [L.iblock i]) N (fun _ => True) (Stops L N) B (Inv L) where
  weaken h hV hC := h.weaken hV hC
  perm h hH := h.perm hH
  iget h hN _ hQ := wp_iget h L.root_lt hN fun t _ ht => hQ t ht
  idup h hi hQ := wp_idup h hi fun t _ ht => hQ t ht
  ilock h hi hN hQ := wp_ilock h hi hN fun t _ ht => hQ t ht
  iunlock h hi hQ := wp_iunlock (h.ref_pos hi) (hQ _ h)
  type _ hQ := wp_type hQ
  dirlookup h hdp hN _ hnone hsome := wp_dirlookup h hdp hN (hnone _ h)
    fun i _ t _ _ ht => hsome i _ t (Nat.mul_mod_right ..) ht
  iput h _ hV hH hblk hQ := wp_iput h hV hH (hblk List.mem_cons_self) hQ

theorem callRules (L : Layout) (N : Nat) :
    CallRules (ops L) L.iblock N (fun _ => True) (Stops L N) (Inv L) where
  toPathRules := pathRules L N []
  major {_ _ _ s i Q} _ hQ := by
    show wp (do return ((← get).mem i).major.toInt) Q (Stops L N) s
    rw [wp_bind, wp_get, wp_pure]
    exact hQ _
  nlink {_ _ _ s i Q} _ hQ := by
    show wp (do return ((← get).mem i).nlink.toInt) Q (Stops L N) s
    rw [wp_bind, wp_get, wp_pure]
    exact hQ _
  setNlink h hi hblk hQ := wp_setNlink h hi hblk hQ
  ialloc h hN _ hnone hsome := wp_ialloc h hN (hnone _ h) hsome
  setup {H V C s i major minor Q} h hi hblk hQ := by
    show wp (update L i fun x => { x with
      major := .ofInt major, minor := .ofInt minor, nlink := 1 }) Q (Stops L N) s
    exact wp_update h hi hblk (fun _ => ⟨rfl, rfl, rfl⟩) hQ
  dirlink h hdp hip hblk hN _ hQ := wp_dirlink h hdp (h.held _ hip) hblk hN hQ
  isdirempty {H V C s dp Q} h hdp hN hQ := by
    show wp (isdirempty L dp) Q (Stops L N) s
    rw [isdirempty, wp_bind, wp_get]
    exact h.wp_isdiremptyFrom (k := 2) (h.locked dp hdp).2 (h.stops hN (by decide)) fun r => hQ r s h
  clearEntry h hdp hoff hblk _ hQ := wp_clearEntry h hdp hoff hblk hQ
  itrunc h hi hblk hQ := wp_itruncInv h hi hblk fun t _ ht => hQ t ht
  panic h hN hp := h.stops hN (by rcases hp with rfl | rfl <;> decide)

end Rules

end Vol

end Xv6.Fs
