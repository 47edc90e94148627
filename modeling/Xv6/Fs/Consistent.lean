import Xv6.Fs.Sound

/-!
# Consistent file systems

A sound state is `Consistent` if moreover every entry of a directory names an inode of the disk.
The kernel does not check the inode numbers that it finds in directories: `iget` takes what
`dirlookup` has read, and `ilock` reads the inode from wherever `IBLOCK` points, which is a data block
if the number is too large.
-/

open Function (update_apply update_of_ne update_self)

namespace Xv6.Fs

open Prog

attribute [local irreducible] wp

namespace Vol

def entryInum (L : Layout) (s : Vol) (i k : Nat) : Nat :=
  (s.byteOf L i (16 * k)).toNat + 256 * (s.byteOf L i (16 * k + 1)).toNat

def DirOk (L : Layout) (s : Vol) (i : Nat) : Prop :=
  ∀ k, 16 * k + 16 ≤ (L.dinode s.block i).size.toNat → s.entryInum L i k < L.ninodes

structure Consistent (L : Layout) (s : Vol) : Prop extends Sound L s where
  dirs : ∀ i < L.ninodes, (L.dinode s.block i).type = 1 → DirOk L s i

structure SameFile (L : Layout) (j : Nat) (s t : Vol) : Prop where
  dinode : L.dinode t.block j = L.dinode s.block j
  addr : ∀ p, t.addrOf L (j, p) = s.addrOf L (j, p)
  byte : ∀ k, s.addrOf L (j, .data (k / bsize)) ≠ 0 → t.byteOf L j k = s.byteOf L j k

/-! ## Reading a directory -/

section Entries

variable {L : Layout} {s : Vol} {dp : Nat} {E : Stop → Vol → Prop}

theorem direntInum_bytesOf (L : Layout) (s : Vol) (dp k : Nat) :
    direntInum (s.bytesOf L dp (16 * k) 16) = s.entryInum L dp k := by
  rw [direntInum, List.getD_eq_getElem?_getD, List.getD_eq_getElem?_getD,
    getElem?_bytesOf (by decide), getElem?_bytesOf (by decide)]
  rfl

variable (h : Sound L s) (hv : s.valid dp = true)
include h hv

theorem Sound.wp_readEntry {Q : Int × List UInt8 → Vol → Prop} {k : Nat}
    (hk : 16 * k < (s.mem dp).size.toNat)
    (hshort : ∀ r : Int × List UInt8, r.1 ≠ 16 → Q r s)
    (hall : 16 * k + 16 ≤ (s.mem dp).size.toNat → Q (16, s.bytesOf L dp (16 * k) 16) s) :
    wp (readi L dp (.ofNat (16 * k)) 16 16) Q E s := by
  have hlt : 16 * k < 2 ^ 32 := Nat.lt_trans hk (s.mem dp).size.toNat_lt
  have hoff : (UInt32.ofNat (16 * k)).toNat = 16 * k := UInt32.toNat_ofNat_of_lt' hlt
  have h16 : (16 : UInt32).toNat = 16 := rfl
  refine h.wp_readi hv (fun _ => hshort _ (by decide)) fun _ _ m hm => ?_
  rw [hoff, h16] at hm
  rw [hoff, if_pos (by omega), Nat.min_eq_left (by omega)]
  by_cases hfull : 16 * k + 16 ≤ (s.mem dp).size.toNat
  · obtain rfl : m = 16 := by omega
    exact hall hfull
  · exact hshort _ (by dsimp only; omega)

theorem Sound.wp_dirlookupFrom {Q : Option (Nat × Nat) → Vol → Prop} {name : Name} {f k : Nat}
    (hread : E (.panic .dirlookupRead) s)
    (hnone : Q none s) (hsome : ∀ k, 16 * k + 16 ≤ (s.mem dp).size.toNat → s.entryInum L dp k ≠ 0 →
      wp (iget (s.entryInum L dp k)) (fun _ t => Q (some (s.entryInum L dp k, 16 * k)) t) E s) :
    wp (dirlookupFrom L dp name f (16 * k)) Q E s := by
  induction f generalizing k with
  | zero =>
    rw [dirlookupFrom, wp_pure]
    exact hnone
  | succ f ih =>
    rw [dirlookupFrom, wp_bind, wp_get, wp_ite]
    split
    · rename_i hk
      refine .bind (h.wp_readEntry hv hk (fun r hr => ?_) fun hk' => ?_)
      · obtain ⟨r, de⟩ := r
        dsimp only at hr ⊢
        rw [if_pos hr, wp_throw]
        exact hread
      · dsimp only
        rw [if_neg (by simp), direntInum_bytesOf, wp_ite]
        split
        · exact ih (k := k + 1)
        · rename_i hinum
          rw [wp_ite]
          split
          · refine .bind ((hsome k hk' hinum).mono_ok fun _ t ht => ?_)
            exact .pure ht
          · exact ih (k := k + 1)
    · exact .pure hnone

theorem Sound.wp_dirlookup {Q : Option (Nat × Nat) → Vol → Prop} {name : Name}
    (hread : E (.panic .dirlookupRead) s)
    (hnotdir : E (.panic .dirlookupNotDir) s) (hnone : (s.mem dp).type = 1 → Q none s)
    (hsome : (s.mem dp).type = 1 → ∀ k, 16 * k + 16 ≤ (s.mem dp).size.toNat →
      s.entryInum L dp k ≠ 0 →
      wp (iget (s.entryInum L dp k)) (fun _ t => Q (some (s.entryInum L dp k, 16 * k)) t) E s) :
    wp (dirlookup L dp name) Q E s := by
  rw [dirlookup, wp_bind, wp_get, wp_ite]
  split
  · rw [wp_throw]
    exact hnotdir
  · rename_i htype
    have htype : (s.mem dp).type = 1 := Dinode.ftype_eq_dir.mp (not_not.mp htype)
    exact h.wp_dirlookupFrom (k := 0) hv hread (hnone htype) (hsome htype)

theorem Sound.wp_emptyFrom {Q : Nat → Vol → Prop} {f k : Nat}
    (hf : (s.mem dp).size.toNat ≤ 16 * k + 16 * f)
    (hle : 16 * k ≤ (s.mem dp).size.toNat) (hread : E (.panic .dirlinkRead) s)
    (hQ : ∀ k, 16 * k ≤ (s.mem dp).size.toNat →
      (16 * k + 16 ≤ (s.mem dp).size.toNat → s.entryInum L dp k = 0) → Q (16 * k) s) :
    wp (emptyFrom L dp f (16 * k)) Q E s := by
  induction f generalizing k with
  | zero =>
    rw [emptyFrom, wp_pure]
    exact hQ k hle (by omega)
  | succ f ih =>
    rw [emptyFrom, wp_bind, wp_get, wp_ite]
    split
    · rename_i hk
      refine .bind (h.wp_readEntry hv hk (fun r hr => ?_) fun hk' => ?_)
      · obtain ⟨r, de⟩ := r
        dsimp only at hr ⊢
        rw [if_pos hr, wp_throw]
        exact hread
      · dsimp only
        rw [if_neg (by simp), direntInum_bytesOf, wp_ite]
        split
        · rename_i h0
          exact .pure (hQ k hle fun _ => h0)
        · exact ih (k := k + 1) (by omega) (by omega)
    · exact .pure (hQ k hle (by omega))

theorem Sound.wp_isdiremptyFrom {Q : Bool → Vol → Prop} {f k : Nat}
    (hread : E (.panic .isdiremptyReadi) s) (hQ : ∀ r, Q r s) :
    wp (isdiremptyFrom L dp f (16 * k)) Q E s := by
  induction f generalizing k with
  | zero =>
    rw [isdiremptyFrom, wp_pure]
    exact hQ true
  | succ f ih =>
    rw [isdiremptyFrom, wp_bind, wp_get, wp_ite]
    split
    · rename_i hk
      refine .bind (h.wp_readEntry hv hk (fun r hr => ?_) fun hk' => ?_)
      · obtain ⟨r, de⟩ := r
        dsimp only at hr ⊢
        rw [if_pos hr, wp_throw]
        exact hread
      · dsimp only
        rw [if_neg (by simp), wp_ite]
        split
        · exact .pure (hQ false)
        · exact ih (k := k + 1)
    · exact .pure (hQ true)

end Entries

/-! ## What changes the disk -/

section

variable {L : Layout} {s t : Vol} {i j : Nat}

theorem SameFile.of_data (hdinode : L.dinode t.block j = L.dinode s.block j)
    (h : Own L (L.dinode s.block) s.block []) (hdata : ∀ b, L.nmeta ≤ b → t.block b = s.block b) :
    SameFile L j s t := by
  have haddr : ∀ p, t.addrOf L (j, p) = s.addrOf L (j, p) := fun p =>
    refs_congr hdinode (fun h0 hj ht => hdata _ (h.indirect_range hj ht h0).2) p
  refine ⟨hdinode, haddr, fun k h0 => ?_⟩
  have hk := haddr (.data (k / bsize))
  rw [addrOf, addrOf] at hk
  rw [byteOf, fileByte, hk, hdata _ (h.range h0).2]
  rfl

theorem SameFile.unbroken (h : SameFile L j s t) (hs : Unbroken L (L.dinode s.block) s.block j) :
    Unbroken L (L.dinode t.block) t.block j := by
  intro bn hbn
  rw [h.dinode] at hbn
  obtain ⟨hlt, h0⟩ := hs bn hbn
  refine ⟨hlt, ?_⟩
  have := h.addr (.data bn)
  rw [addrOf, addrOf] at this
  rwa [this]

theorem SameFile.dirOk (h : SameFile L j s t) (hu : Unbroken L (L.dinode s.block) s.block j)
    (hs : DirOk L s j) : DirOk L t j := by
  intro k hk
  rw [h.dinode] at hk
  have hbyte : ∀ l, l < (L.dinode s.block j).size.toNat → t.byteOf L j l = s.byteOf L j l :=
    fun l hl => h.byte l (addrOf_ne_zero hu hl).2
  rw [entryInum, hbyte _ (by omega), hbyte _ (by omega)]
  exact hs k hk

theorem Consistent.of_same (h : Consistent L s) (hown : Own L (L.dinode t.block) t.block [])
    (hsame : ∀ j < L.ninodes, j ≠ i → SameFile L j s t)
    (hwhole : i < L.ninodes → (L.dinode t.block i).type ≠ 0 →
      Unbroken L (L.dinode t.block) t.block i)
    (hdir : i < L.ninodes → (L.dinode t.block i).type = 1 → DirOk L t i)
    (hsync : ∀ j, t.valid j = true → j < L.ninodes ∧ t.mem j = L.dinode t.block j ∧
      (t.mem j).type ≠ 0) : Consistent L t := by
  have htype : (1 : UInt16) ≠ 0 := by decide
  refine ⟨⟨hown, fun j hj ht => ?_, hsync⟩, fun j hj ht => ?_⟩
  · by_cases hji : j = i
    · subst hji
      exact hwhole hj ht
    · have hf := hsame j hj hji
      exact hf.unbroken (h.whole j hj (by rwa [← hf.dinode]))
  · by_cases hji : j = i
    · subst hji
      exact hdir hj ht
    · have hf := hsame j hj hji
      rw [hf.dinode] at ht
      exact hf.dirOk (h.whole j hj (by rw [ht]; exact htype)) (h.dirs j hj ht)

theorem Consistent.of_table (h : Consistent L s) (hblock : t.block = s.block)
    (hsync : ∀ j, t.valid j = true → j < L.ninodes ∧ t.mem j = L.dinode s.block j ∧
      (t.mem j).type ≠ 0) : Consistent L t := by
  have hbyte : ∀ i k, t.byteOf L i k = s.byteOf L i k := by
    intro i k
    rw [byteOf, byteOf, hblock]
  refine ⟨⟨?_, ?_, ?_⟩, fun i hi ht k hk => ?_⟩
  · rw [hblock]
    exact h.own
  · rw [hblock]
    exact h.whole
  · rw [hblock]
    exact hsync
  · rw [hblock] at ht hk
    rw [entryInum, hbyte, hbyte]
    exact h.dirs i hi ht k hk

theorem Sound.byteOf_update {x : Dinode} {j k : Nat} (h : Sound L s) (hv : s.valid i = true)
    (hx : x.addrs = (s.mem i).addrs) (ht : x.type = (s.mem i).type)
    (h0 : s.addrOf L (j, .data (k / bsize)) ≠ 0) :
    ((s.setMem i x).store L i).byteOf L j k = s.byteOf L j k := by
  have hino := h.ino_eq hv
  rw [byteOf_setStore (by rw [hino]; exact h.own) (h.sync i hv).1 hx (by rw [ht])
    (by rw [hino]; exact h0), hino]
  rfl

variable (h : Consistent L s)
include h

theorem Consistent.setStore {x : Dinode} (hv : s.valid i = true)
    (hx : x.addrs = (s.mem i).addrs) (ht : x.type = (s.mem i).type) (hsize : x.size = (s.mem i).size) :
    Consistent L ((s.setMem i x).store L i) := by
  obtain ⟨hi, hmem, htype⟩ := h.sync i hv
  have hino := h.ino_eq hv
  have hown : Own L (s.ino L i) s.block [] := by
    rw [hino]
    exact h.own
  have htype' : x.type = 0 ↔ (s.mem i).type = 0 := by rw [ht]
  have hdinode := dinode_setStore L s i x
  rw [hino] at hdinode
  have haddr : ∀ q, ((s.setMem i x).store L i).addrOf L q = s.addrOf L q := by
    intro q
    rw [addrOf_setStore hown hi hx htype', hino]
    rfl
  have hbyte : ∀ j k, s.addrOf L (j, .data (k / bsize)) ≠ 0 →
      ((s.setMem i x).store L i).byteOf L j k = s.byteOf L j k := fun j k =>
    h.byteOf_update hv hx ht
  have hself : L.dinode ((s.setMem i x).store L i).block i = x := by
    rw [hdinode, update_self]
  have hwhole := h.whole i hi (by rwa [← hmem])
  refine h.of_same (i := i) (own_setStore hown hi hx htype') (fun j _ hji => ⟨?_, fun p => haddr (j, p),
    hbyte j⟩) (fun _ _ bn hbn => ?_) (fun _ ht1 k hk => ?_) fun j hvj => ?_
  · rw [hdinode, update_of_ne hji]
  · rw [hself, hsize, hmem] at hbn
    obtain ⟨hlt, h0⟩ := hwhole bn hbn
    exact ⟨hlt, by rw [← addrOf, haddr]; exact h0⟩
  · rw [hself, hsize, hmem] at hk
    rw [hself, ht, hmem] at ht1
    rw [entryInum, hbyte _ _ (addrOf_ne_zero hwhole (by omega)).2,
      hbyte _ _ (addrOf_ne_zero hwhole (by omega)).2]
    exact h.dirs i hi ht1 k hk
  · obtain ⟨hj, hmemj, htypej⟩ := h.sync j hvj
    by_cases hji : j = i
    · subst hji
      refine ⟨hj, ?_, ?_⟩
      · rw [hself]
        exact mem_setMem s j x
      · rw [show ((s.setMem j x).store L j).mem j = x from mem_setMem s j x, ht]
        exact htype
    · refine ⟨hj, ?_, ?_⟩
      · rw [hdinode, update_of_ne hji, ← hmemj]
        exact update_of_ne hji ..
      · rw [show ((s.setMem i x).store L i).mem j = s.mem j from update_of_ne hji ..]
        exact htypej

/-! ## Freeing and allocating -/

theorem Truncated.consistent (hv : s.valid i = true) (ht : Truncated L i s t) : Consistent L t := by
  obtain ⟨hi, hmem, htype⟩ := h.sync i hv
  have hsize : (L.dinode t.block i).size.toNat = 0 := by
    rw [ht.disk_self, ht.self]
    rfl
  refine h.of_same (i := i) ht.own (fun j hj hji => .of_data (ht.disk j hj hji) h.own ht.data)
    (fun _ _ bn hbn => ?_) (fun _ _ k hk => ?_) fun j hvj => ?_
  · omega
  · omega
  · rw [ht.valid] at hvj
    obtain ⟨hj, hmemj, htypej⟩ := h.sync j hvj
    by_cases hji : j = i
    · subst hji
      refine ⟨hj, ht.disk_self.symm, ?_⟩
      rw [ht.self]
      exact htype
    · rw [ht.mem j hji, ht.disk j hj hji]
      exact ⟨hj, hmemj, htypej⟩

theorem Consistent.putEmpty {x : Dinode} (hi : i < L.ninodes)
    (hnone : ∀ p, s.addrOf L (i, p) = 0) (hx : x.addrs = fun _ => 0) (hsize : x.size = 0)
    (hblock : t.block = L.putDinode s.block i x)
    (hvalid : ∀ j, t.valid j = true → j ≠ i ∧ s.valid j = true ∧ t.mem j = s.mem j) :
    Consistent L t := by
  have hdinode : L.dinode t.block = Function.update (L.dinode s.block) i x := by
    funext j
    rw [hblock, Layout.dinode_putDinode, update_apply]
  have hself : (L.dinode t.block i).size.toNat = 0 := by
    rw [hdinode, update_self, hsize]
    rfl
  have hother : ∀ j ≠ i, L.dinode t.block j = L.dinode s.block j := by
    intro j hji
    rw [hdinode, update_of_ne hji]
  have hdata : ∀ b, L.nmeta ≤ b → t.block b = s.block b := by
    intro b hb
    rw [hblock]
    exact Layout.putDinode_data hi hb x
  refine h.of_same (i := i) ?_ (fun j _ hji => .of_data (hother j hji) h.own hdata)
    (fun _ _ bn hbn => ?_) (fun _ _ k hk => ?_) fun j hvj => ?_
  · rw [hdinode, hblock]
    exact (h.own.setEmpty hx hnone).putDinode hi x
  · omega
  · omega
  · obtain ⟨hji, hvs, hmem⟩ := hvalid j hvj
    rw [hmem, hother j hji]
    exact h.sync j hvs

/-! ## Writing to files and directories -/

theorem Written.consistent {lo mid hi top : Nat} {f : Nat → UInt8}
    (hv : s.valid i = true) (hw : Written L i lo mid hi top f s t) (ht : Sound L t)
    (hdir : (s.mem i).type = 1 → DirOk L t i) : Consistent L t := by
  obtain ⟨-, hmem, -⟩ := ht.sync i (by rwa [hw.valid])
  refine h.of_same (i := i) ht.own
    (fun j hj hji => ⟨hw.disk j hj hji, hw.other j hji, hw.bytes j hji⟩) (ht.whole i)
    (fun _ ht1 => hdir ?_) ht.sync
  rw [← hmem, hw.self] at ht1
  exact ht1

theorem Written.dirOk {off r : Nat} {f : Nat → UInt8}
    (hv : s.valid i = true) (hw : Written L i off (off + r) (off + r) (off + 16) f s t)
    (ht : Sound L t) (hoff : off % 16 = 0) (hsize : off ≤ (s.mem i).size.toNat) (hr : r ≤ 16)
    (hnew : (f off).toNat + 256 * (f (off + 1)).toNat < L.ninodes)
    (hpart : off + 16 ≤ (s.mem i).size.toNat →
      (f off).toNat + 256 * (s.byteOf L i (off + 1)).toNat < L.ninodes)
    (htype : (s.mem i).type = 1) : DirOk L t i := by
  obtain ⟨hi, hmem, hne⟩ := h.sync i hv
  obtain ⟨-, hmem', -⟩ := ht.sync i (by rwa [hw.valid])
  have hwhole := h.whole i hi (by rwa [← hmem])
  have hdir := h.dirs i hi (by rwa [← hmem])
  have hsize' := hw.size
  rw [hmem'] at hsize'
  rw [hmem] at hsize hpart hsize'
  have hold : ∀ l, l < (L.dinode s.block i).size.toNat → l < off ∨ off + r ≤ l →
      t.byteOf L i l = s.byteOf L i l := by
    intro l hl hout
    obtain ⟨hmax, h0⟩ := addrOf_ne_zero hwhole hl
    exact hw.outside l hmax hout h0
  intro k hk
  rw [entryInum]
  by_cases hk' : 16 * k = off
  · rw [hk']
    by_cases hr2 : 2 ≤ r
    · rw [(hw.inside off (by omega) (by omega)).2, (hw.inside (off + 1) (by omega) (by omega)).2]
      exact hnew
    · rw [hold (off + 1) (by omega) (by omega)]
      by_cases hr1 : r = 1
      · rw [(hw.inside off (by omega) (by omega)).2]
        exact hpart (by omega)
      · rw [hold off (by omega) (by omega), ← hk']
        exact hdir k (by omega)
  · rw [hold (16 * k) (by omega) (by omega), hold (16 * k + 1) (by omega) (by omega)]
    exact hdir k (by omega)

end

end Vol

end Xv6.Fs
