import Xv6.Fs.Lookup
import Xv6.Fs.Rules

/-!
# What the operations do to files

With exact reference counts (`Held`) the rules for the operations say what they do to the files:
`Same` if no file has changed, `Calm` if at most some have been freed.  Only `ialloc`, `dirlink`,
`clearEntry`, `itrunc` and `writei` do more, and only to one file.
-/

namespace Xv6.Fs

open Function (update_of_ne update_self)
open Prog

attribute [local irreducible] wp

namespace Vol

def typeOf (L : Layout) (s : Vol) (i : Nat) : UInt16 := (L.dinode s.block i).type

structure Same (L : Layout) (s t : Vol) : Prop where
  files : t.files L = s.files L
  type : ∀ i < L.ninodes, t.typeOf L i = s.typeOf L i

structure SameBut (L : Layout) (i : Nat) (s t : Vol) : Prop where
  files : ∀ j ≠ i, t.files L j = s.files L j
  type : ∀ j < L.ninodes, j ≠ i → t.typeOf L j = s.typeOf L j

/-- The files that are still there have the contents `a`. -/
def Becomes (L : Layout) (a : Files) (s t : Vol) : Prop := ∀ i < L.ninodes, t.typeOf L i ≠ 0 →
  t.typeOf L i = s.typeOf L i ∧ t.files L i = a i

abbrev Calm (L : Layout) (s t : Vol) : Prop := Becomes L (s.files L) s t

section Effects

variable {L : Layout} {s t u : Vol} {i j : Nat}

theorem Same.of_block (h : t.block = s.block) : Same L s t := by
  refine ⟨?_, fun i _ => by rw [typeOf, typeOf, h]⟩
  funext i
  simp only [Vol.files, bytesOf, h]

theorem Same.calm (h : Same L s t) : Calm L s t := fun i hi _ => ⟨h.type i hi, by rw [h.files]⟩

theorem SameBut.calm (h : SameBut L i s t) (h0 : t.typeOf L i = 0) : Calm L s t := by
  intro j hj hne
  have hji : j ≠ i := by
    rintro rfl
    exact hne h0
  exact ⟨h.type j hj hji, h.files j hji⟩

theorem Calm.refl (s : Vol) : Calm L s s := fun _ _ _ => ⟨rfl, rfl⟩

theorem Becomes.calm {a : Files} (h : Becomes L a s t) (h' : Calm L t u) : Becomes L a s u := by
  intro i hi hne
  obtain ⟨htype, hfiles⟩ := h' i hi hne
  rw [htype, hfiles]
  exact h i hi (htype ▸ hne)

theorem Calm.becomes {f : List UInt8 → List UInt8} (h : Calm L s t) (hi : i < L.ninodes)
    (hne : t.typeOf L i ≠ 0) (h' : Becomes L (Function.update (t.files L) i (f (t.files L i))) t u) :
    Becomes L (Function.update (s.files L) i (f (s.files L i))) s u := by
  intro j hj hjne
  obtain ⟨htype, hfiles⟩ := h' j hj hjne
  obtain ⟨htype', hfiles'⟩ := h j hj (htype ▸ hjne)
  refine ⟨htype.trans htype', hfiles.trans ?_⟩
  by_cases hji : j = i
  · rw [hji, update_self, update_self, (h i hi hne).2]
  · rw [update_of_ne hji, update_of_ne hji, hfiles']

theorem SameFile.files_eq (h : SameFile L j s t) (hs : Sound L s) : t.files L j = s.files L j := by
  rw [files, files, h.dinode]
  split
  · rename_i hj
    refine List.map_congr_left fun k hk => ?_
    rw [Nat.zero_add]
    exact h.byte k (addrOf_ne_zero (hs.whole j hj.1 hj.2) (List.mem_range.mp hk)).2
  · rfl

theorem Sound.sameBut (h : Sound L s)
    (hdinode : ∀ j < L.ninodes, j ≠ i → L.dinode t.block j = L.dinode s.block j)
    (hdata : ∀ b, L.nmeta ≤ b → t.block b = s.block b) : SameBut L i s t := by
  refine ⟨fun j hji => ?_, fun j hj hji => by rw [typeOf, typeOf, hdinode j hj hji]⟩
  by_cases hj : j < L.ninodes
  · exact (SameFile.of_data (hdinode j hj hji) h.own hdata).files_eq h
  · rw [files, files, if_neg fun hc => hj hc.1, if_neg fun hc => hj hc.1]

theorem Sound.sameBut_put {x : Dinode} (h : Sound L s) (hi : i < L.ninodes)
    (hblock : t.block = L.putDinode s.block i x) : SameBut L i s t := by
  refine h.sameBut (fun j _ hji => ?_) fun b hb => ?_
  · rw [hblock, Layout.dinode_putDinode, if_neg hji]
  · rw [hblock]
    exact Layout.putDinode_data hi hb x

theorem Sound.same_setStore {x : Dinode} (h : Sound L s) (hv : s.valid i = true)
    (hx : x.addrs = (s.mem i).addrs) (ht : x.type = (s.mem i).type)
    (hsize : x.size = (s.mem i).size) : Same L s ((s.setMem i x).store L i) := by
  obtain ⟨hi, hmem, htype⟩ := h.sync i hv
  have hother := h.sameBut_put hi (block_setStore L s i x)
  have hself : L.dinode ((s.setMem i x).store L i).block i = x := by
    rw [block_setStore, Layout.dinode_putDinode, if_pos rfl]
  have htypes : ((s.setMem i x).store L i).typeOf L i = s.typeOf L i := by
    rw [typeOf, typeOf, hself, ht, hmem]
  refine ⟨funext fun j => ?_, fun j hj => ?_⟩
  · by_cases hji : j = i
    · subst hji
      rw [files, files, hself, ht, hsize, hmem]
      split
      · rename_i hj
        refine List.map_congr_left fun k hk => ?_
        rw [Nat.zero_add]
        exact h.byteOf_update hv hx ht
          (addrOf_ne_zero (h.whole j hj.1 hj.2) (List.mem_range.mp hk)).2
      · rfl
    · exact hother.files j hji
  · by_cases hji : j = i
    · rw [hji]
      exact htypes
    · exact hother.type j hj hji

theorem Written.sameBut {lo mid hi top : Nat} {f : Nat → UInt8} (h : Sound L s)
    (hw : Written L i lo mid hi top f s t) : SameBut L i s t := by
  refine ⟨fun j hji => ?_, fun j hj hji => by rw [typeOf, typeOf, hw.disk j hj hji]⟩
  by_cases hj : j < L.ninodes
  · exact SameFile.files_eq ⟨hw.disk j hj hji, hw.other j hji, hw.bytes j hji⟩ h
  · rw [files, files, if_neg fun hc => hj hc.1, if_neg fun hc => hj hc.1]

theorem Truncated.sameBut (h : Sound L s) (ht : Truncated L i s t) : SameBut L i s t :=
  h.sameBut ht.disk ht.data

theorem files_eq_nil (h : s.typeOf L i = 0 ∨ (L.dinode s.block i).size = 0) : s.files L i = [] := by
  rw [files]
  split
  · rename_i hi
    rcases h with h | h
    · exact absurd h hi.2
    · rw [h]
      rfl
  · rfl

theorem Truncated.freed (h : Sound L s) (hi : i < L.ninodes) (ht : Truncated L i s t)
    (hs : Sound L t) : ((t.freed L i).dropRef i).typeOf L i = 0 ∧
      SameBut L i s ((t.freed L i).dropRef i) := by
  have hblock : ((t.freed L i).dropRef i).block = L.putDinode t.block i { t.mem i with type := 0 } :=
    block_setStore L t i _
  have hput := hs.sameBut_put hi hblock
  have hsame := ht.sameBut h
  refine ⟨?_, fun j hji => (hput.files j hji).trans (hsame.files j hji),
    fun j hj hji => (hput.type j hj hji).trans (hsame.type j hj hji)⟩
  rw [typeOf, hblock, Layout.dinode_putDinode, if_pos rfl]

end Effects

/-! ## Exact reference counts -/

/-- The references are exactly those in `H`, and the inodes in `V` are locked. -/
structure Held (L : Layout) (H V : List Nat) (s : Vol) : Prop where
  inv : ∃ C, Inv L H V C s
  count : ∀ i, s.ref i = H.count i
  ne_zero : ∀ i ∈ H, i ≠ 0

section Held

variable {L : Layout} {H V W : List Nat} {s t : Vol} {i dp : Nat} {E : Stop → Vol → Prop}

section

variable (h : Held L H V s)
include h

theorem Held.consistent : Consistent L s := h.inv.choose_spec.toConsistent

theorem Held.lt (hi : i ∈ H) : i < L.ninodes := h.inv.choose_spec.held i hi

theorem Held.valid (hi : i ∈ V) : s.valid i = true :=
  (h.inv.choose_spec.locked i hi).2

theorem Held.mem (hi : i ∈ V) : i ∈ H := (h.inv.choose_spec.locked i hi).1

theorem Held.inOp : s.inOp = true := h.inv.choose_spec.inOp

theorem Held.mem_eq (hi : i ∈ V) : s.mem i = L.dinode s.block i :=
  (h.consistent.sync i (h.valid hi)).2.1

theorem Held.type_ne (hi : i ∈ V) : s.typeOf L i ≠ 0 := by
  rw [typeOf, ← h.mem_eq hi]
  exact (h.consistent.sync i (h.valid hi)).2.2

theorem Held.weaken (hV : W ⊆ V) : Held L H W s :=
  ⟨h.inv.imp fun _ hinv => hinv.weaken hV (List.Subset.refl _), h.count, h.ne_zero⟩

theorem Held.perm {H' : List Nat} (hH : H.Perm H') : Held L H' V s :=
  ⟨h.inv.imp fun _ hinv => hinv.perm hH, fun i => by rw [← hH.count_eq]; exact h.count i,
    fun i hi => h.ne_zero i (hH.mem_iff.mpr hi)⟩

theorem Held.inv_with (b : Nat) : ∃ C, b ∈ C ∧ Inv L H V C s := by
  obtain ⟨C, hinv⟩ := h.inv
  exact ⟨b :: C, List.mem_cons_self, hinv.weaken (List.Subset.refl V) (List.subset_cons_self ..)⟩

theorem Held.of_inv {C : List Nat} (hinv : Inv L H V C t) (href : t.ref = s.ref) : Held L H V t :=
  ⟨⟨C, hinv⟩, fun i => by rw [href]; exact h.count i, h.ne_zero⟩

end

theorem count_update {ref : Nat → Int} {n : Int} (h : ∀ j, ref j = H.count j)
    (hn : n = ref i + 1) (j : Nat) : Function.update ref i n j = (i :: H).count j := by
  by_cases hji : j = i
  · subst hji
    rw [List.count_cons_self, update_self, hn, h]
    push_cast
    rfl
  · rw [List.count_cons_of_ne (Ne.symm hji), update_of_ne hji]
    exact h j

variable {Q : Unit → Vol → Prop}

theorem Held.wp_iget (h : Held L H V s) (hi : i < L.ninodes) (h0 : i ≠ 0)
    (hE : E (.panic .igetNoInodes) s)
    (hQ : ∀ t, t.block = s.block → (i ∉ H → t.valid i = false) → Held L (i :: H) V t → Q () t) :
    wp (iget i) Q E s := by
  obtain ⟨C, hinv⟩ := h.inv
  have hcount := h.count i
  have hne : ∀ j ∈ i :: H, j ≠ 0 := List.forall_mem_cons.mpr ⟨h0, h.ne_zero⟩
  rw [iget, wp_bind, wp_get, wp_ite]
  split
  · rename_i hpos
    rw [wp_set]
    refine hQ _ rfl (fun hnot => ?_) ⟨⟨C, hinv.addRef hi⟩, count_update h.count rfl, hne⟩
    rw [List.count_eq_zero_of_not_mem hnot] at hcount
    omega
  · rename_i hpos
    have hnot : i ∉ H := fun hmem => hpos (hinv.ref_pos hmem)
    rw [List.count_eq_zero_of_not_mem hnot] at hcount
    rw [wp_ite]
    split
    · rw [wp_throw]
      exact hE
    · rw [wp_set]
      exact hQ _ rfl (fun _ => update_self ..)
        ⟨⟨C, hinv.firstRef hi hnot⟩, count_update h.count (by rw [hcount]; rfl), hne⟩

theorem Held.wp_idup (h : Held L H V s) (hi : i ∈ H)
    (hQ : ∀ t, t.block = s.block → Held L (i :: H) V t → Q () t) : wp (idup i) Q E s := by
  obtain ⟨C, hinv⟩ := h.inv
  rw [idup, wp_modify]
  exact hQ _ rfl ⟨⟨C, hinv.addRef (h.lt hi)⟩, count_update h.count rfl,
    List.forall_mem_cons.mpr ⟨h.ne_zero i hi, h.ne_zero⟩⟩

theorem Held.wp_iunlock (h : Held L H V s) (hi : i ∈ H) (hQ : Q () s) : wp (iunlock i) Q E s := by
  obtain ⟨C, hinv⟩ := h.inv
  exact Vol.wp_iunlock (hinv.ref_pos hi) hQ

theorem Held.wp_ilock (h : Held L H V s) (hi : i ∈ H)
    (hE : s.typeOf L i = 0 → ∀ t, E (.panic .ilockNoType) t)
    (hQ : ∀ t, t.block = s.block → Held L H (i :: V) t → Q () t) : wp (ilock L i) Q E s := by
  obtain ⟨C, hinv⟩ := h.inv
  refine hinv.toConsistent.wp_ilock (h.lt hi) (hinv.ref_pos hi) (fun h0 t _ => hE h0 t)
    fun x v hc hv hmono => hQ _ rfl ⟨⟨C, hc, hinv.refs, hinv.held, fun j hj => ?_, hinv.inOp,
      hinv.logs⟩, h.count, h.ne_zero⟩
  rcases List.mem_cons.mp hj with rfl | hj
  · exact ⟨hi, hv⟩
  · exact ⟨(hinv.locked j hj).1, hmono j (hinv.locked j hj).2⟩

theorem Held.wp_iput (h : Held L (i :: H) V s) (hV : W ⊆ V) (hH : W ⊆ H)
    (hkeep : ¬(i ∉ H ∧ s.valid i = true ∧ (s.mem i).nlink = 0) →
      ∀ t, t.block = s.block → Held L H W t → Q () t)
    (hfree : i ∉ H → s.valid i = true → (s.mem i).nlink = 0 →
      ∀ t, t.typeOf L i = 0 → SameBut L i s t → Held L H W t → Q () t) :
    wp (iput L i) Q E s := by
  obtain ⟨C, hblk, hinv⟩ := h.inv_with (L.iblock i)
  have hlast : s.ref i = 1 ↔ i ∉ H := by
    have hcount := h.count i
    rw [List.count_cons_self] at hcount
    rw [← List.count_eq_zero]
    omega
  have hdrop : ∀ {t : Vol}, t.ref = s.ref → ∀ j, (t.dropRef i).ref j = H.count j := by
    intro t href j
    have hcount := h.count j
    show Function.update t.ref i (t.ref i - 1) j = _
    rw [href]
    by_cases hji : j = i
    · subst hji
      rw [List.count_cons_self] at hcount
      rw [update_self]
      omega
    · rw [List.count_cons_of_ne (Ne.symm hji)] at hcount
      rw [update_of_ne hji, hcount]
  have hne : ∀ j ∈ H, j ≠ 0 := fun j hj => h.ne_zero j (.tail _ hj)
  refine wp_iputCases hinv hblk (fun hnot => ?_) fun href hv hnlink hnot t ht hinv' => ?_
  · rw [hlast] at hnot
    exact hkeep hnot _ rfl ⟨⟨C, hinv.dropRef hV hH⟩, hdrop rfl, hne⟩
  · obtain ⟨h0, hsame⟩ := ht.freed hinv.toSound (h.lt List.mem_cons_self) hinv'.toSound
    exact hfree hnot hv hnlink _ h0 hsame
      ⟨⟨C, hinv'.freed hV hH hnot hblk ht⟩, hdrop (t := t.freed L i) ht.ref, hne⟩

theorem Held.wp_iputCalm (h : Held L (i :: H) V s) (hV : W ⊆ V)
    (hH : W ⊆ H) (hQ : ∀ t, Calm L s t → (∀ j ∈ H, t.typeOf L j = s.typeOf L j) →
      Held L H W t → Q () t) : wp (iput L i) Q E s := by
  refine h.wp_iput hV hH (fun _ t hblock ht => ?_) fun hnot _ _ t h0 hsame ht => ?_
  · have hsame := Same.of_block (L := L) hblock
    exact hQ t hsame.calm (fun j hj => hsame.type j (h.lt (.tail _ hj))) ht
  · refine hQ t (hsame.calm h0) (fun j hj => hsame.type j (h.lt (.tail _ hj)) ?_) ht
    rintro rfl
    exact hnot hj

variable (h : Held L H V s)
include h

theorem Held.wp_update {f : Dinode → Dinode} (hi : i ∈ V)
    (hf : ∀ x, (f x).addrs = x.addrs ∧ (f x).type = x.type ∧ (f x).size = x.size)
    (hQ : ∀ t, Same L s t → t.mem i = f (s.mem i) → Held L H V t → Q () t) :
    wp (update L i f) Q E s := by
  obtain ⟨C, hblk, hinv⟩ := h.inv_with (L.iblock i)
  obtain ⟨haddrs, htype, hsize⟩ := hf (s.mem i)
  rw [update, wp_bind, wp_modify]
  refine wp_iupdate hinv.inOp (hQ _ (hinv.toSound.same_setStore (h.valid hi) haddrs htype hsize)
    (mem_setMem s i _) (h.of_inv (hinv.of_disk ?_ rfl rfl rfl (Covers.log hinv.logs hblk)) rfl))
  exact hinv.setStore (h.valid hi) haddrs htype hsize

theorem Held.wp_setNlink {n : Int} (hi : i ∈ V)
    (hQ : ∀ t, Same L s t → (t.mem i).nlink = .ofInt n → Held L H V t → Q () t) :
    wp ((ops L).setNlink i n) Q E s := by
  show wp (update L i fun x => { x with nlink := .ofInt n }) Q E s
  exact h.wp_update hi (fun _ => ⟨rfl, rfl, rfl⟩) fun t hsame hmem ht =>
    hQ t hsame (by rw [hmem]) ht

theorem Held.wp_setup {major minor : Int} (hi : i ∈ V)
    (hQ : ∀ t, Same L s t → Held L H V t → Q () t) : wp ((ops L).setup i major minor) Q E s := by
  show wp (update L i fun x => { x with
    major := .ofInt major, minor := .ofInt minor, nlink := 1 }) Q E s
  exact h.wp_update hi (fun _ => ⟨rfl, rfl, rfl⟩) fun t hsame _ ht => hQ t hsame ht

theorem Held.wp_itrunc (hi : i ∈ V)
    (hQ : ∀ t, SameBut L i s t → t.typeOf L i = s.typeOf L i → Held L H V t → Q () t) :
    wp (itrunc L i) Q E s := by
  obtain ⟨C, hblk, hinv⟩ := h.inv_with (L.iblock i)
  refine wp_itruncInv hinv hi hblk fun t ht hinv' =>
    hQ t (ht.sameBut hinv.toSound) ?_ (h.of_inv hinv' ht.ref)
  rw [typeOf, ht.disk_self, ht.self, h.mem_eq hi]
  rfl

theorem Held.wp_ialloc {Q : Option Nat → Vol → Prop} {type : FType}
    (hE : ∀ t, E (.panic .igetNoInodes) t) (hnone : Q none s)
    (hsome : ∀ i t, s.typeOf L i = 0 → t.typeOf L i = type.toUInt16 → t.files L = s.files L →
      SameBut L i s t → Held L (i :: H) V t → Q (some i) t) : wp (ialloc L type) Q E s := by
  obtain ⟨C, hinv⟩ := h.inv
  rw [ialloc, wp_bind, wp_get]
  dsimp only
  split
  · exact .pure hnone
  · rename_i i hfind
    have hfree : (L.dinode s.block i).type = 0 := by
      simpa using List.find?_some hfind
    have hmem := List.mem_range'_1.mp (List.mem_of_find?_eq_some hfind)
    have hi : i < L.ninodes := by omega
    have hnoaddr : ∀ p, s.addrOf L (i, p) = 0 := fun p => if_neg fun hne => hne.2 hfree
    refine .bind (wp_write hinv.inOp ?_)
    rw [wp_bind]
    have hput := hinv.putEmpty (i := i) (x := { Dinode.zero with type := type.toUInt16 })
      (t := (s.setBlock (L.iblock i) (Dinode.put (s.block (L.iblock i)) (i % ipb)
        { Dinode.zero with type := type.toUInt16 })).log (L.iblock i)) hi hnoaddr rfl rfl rfl
      fun j hvj => ⟨?_, hvj, rfl⟩
    · have hlogs := Covers.log (hinv.weaken (List.Subset.refl V)
        (List.subset_cons_self (L.iblock i) C)).logs List.mem_cons_self
      refine (h.of_inv (hinv.of_disk (D := L.iblock i :: C) hput rfl rfl rfl hlogs) rfl).wp_iget hi
        (by omega) (hE _) fun t hblock _ ht => ?_
      have hblock : t.block = L.putDinode s.block i { Dinode.zero with type := type.toUInt16 } :=
        hblock
      have hself : L.dinode t.block i = { Dinode.zero with type := type.toUInt16 } := by
        rw [hblock, Layout.dinode_putDinode, if_pos rfl]
      have hsame := hinv.toSound.sameBut_put hi hblock
      refine .pure (hsome i t hfree (by rw [typeOf, hself]) (funext fun j => ?_) hsame ht)
      by_cases hji : j = i
      · rw [hji, files_eq_nil (.inl hfree), files_eq_nil (.inr (by rw [hself]; rfl))]
      · exact hsame.files j hji
    · rintro rfl
      obtain ⟨-, hmem, hne⟩ := hinv.sync j hvj
      exact hne (hmem ▸ hfree)

/-! ### Directories -/

theorem Held.inumAt_lt {k : Nat} (hdp : dp ∈ V) (hdir : s.typeOf L dp = 1)
    (hk : k < (s.files L dp).length / 16) : inumAt (s.files L dp) k < L.ninodes := by
  have hlt := h.lt (h.mem hdp)
  have hne := h.type_ne hdp
  have hlen := length_files hlt hne
  have hdirs := h.consistent.dirs dp hlt hdir k (by omega)
  rwa [← direntInum_bytesOf, bytesOf_eq (n := 16) hlt hne (by omega) (by omega),
    direntInum_entry] at hdirs

theorem Held.wp_dirlookup {Q : Option (Nat × Nat) → Vol → Prop} {name : Name}
    (hdp : dp ∈ V) (hnotdir : s.typeOf L dp ≠ 1 → E (.panic .dirlookupNotDir) s)
    (hread : (s.files L dp).length % 16 ≠ 0 → E (.panic .dirlookupRead) s)
    (hE : E (.panic .igetNoInodes) s) (hnone : s.typeOf L dp = 1 → (s.files L dp).length % 16 = 0 →
      find (s.files L dp) (nameKey name) = none → Q none s)
    (hsome : s.typeOf L dp = 1 → ∀ k t, find (s.files L dp) (nameKey name) = some k →
      t.block = s.block → (inumAt (s.files L dp) k ∉ H → t.valid (inumAt (s.files L dp) k) = false) →
      Held L (inumAt (s.files L dp) k :: H) V t → Q (some (inumAt (s.files L dp) k, 16 * k)) t) :
    wp (dirlookup L dp name) Q E s := by
  have hmem := h.mem_eq hdp
  by_cases hdir : s.typeOf L dp = 1
  · refine h.consistent.toSound.wp_find (h.valid hdp) (by rw [hmem]; exact hdir) hread (hnone hdir)
      fun k hk => ?_
    have hp := List.find?_some hk
    rw [decide_eq_true_iff] at hp
    have hklt := List.mem_range.mp (List.mem_of_find?_eq_some hk)
    exact h.wp_iget (h.inumAt_lt hdp hdir hklt) hp.1 hE fun t hblock hvalid ht =>
      hsome hdir k t hk hblock hvalid ht
  · have hnot : ¬(s.mem dp).ftype = .dir := by
      rw [Dinode.ftype_eq_dir, hmem]
      exact hdir
    rw [dirlookup, wp_bind, wp_get, wp_ite, if_pos hnot, wp_throw]
    exact hnotdir hdir

theorem Held.wp_writeEntry {Q : Int → Vol → Prop} {off : UInt32} {k : Nat} {f : Nat → UInt8}
    (hdp : dp ∈ V) (hoff : off.toNat = 16 * k)
    (hk : 16 * k ≤ (s.files L dp).length) (hnew : (f 0).toNat + 256 * (f 1).toNat < L.ninodes)
    (hpart : s.typeOf L dp = 1 → 16 * k + 16 ≤ (s.files L dp).length →
      (f 0).toNat + 256 * (s.byteOf L dp (16 * k + 1)).toNat < L.ninodes)
    (hnone : ∀ r t, r ≠ 16 → (s.files L dp).length ≤ 16 * k → Same L s t → Held L H V t → Q r t)
    (hall : ∀ t, t.files L = Function.update (s.files L) dp
        (overlay (s.files L dp) (16 * k) ((List.range 16).map f)) →
      (∀ i < L.ninodes, t.typeOf L i = s.typeOf L i) → Held L H V t → Q 16 t) :
    wp (writei L dp off 16 f 16) Q E s := by
  obtain ⟨C, hblk, hinv⟩ := h.inv_with (L.iblock dp)
  have hsize := hinv.toSound.size_eq (h.valid hdp)
  have hinv' : wp (writei L dp off 16 f 16) (fun _ t => ∃ C, Inv L H V C t) (fun _ _ => True) s :=
    Vol.wp_writeEntry hinv hdp hblk hoff hnew
      (fun htype hle => hpart (by rwa [h.mem_eq hdp] at htype) (by omega))
      fun _ x y t ht => ⟨x :: y :: C, ht⟩
  refine (hinv'.and (hinv.toSound.wp_putEntry (E := fun _ _ => False) (Q := fun r t =>
    (∃ C, Inv L H V C t) → Q r t) (h.valid hdp) h.inOp hoff hk
    (fun r t hr hend href hfiles htype hC => ?_) fun t href hfiles htype hC => ?_)).mono (fun r t ht => ht.2 ht.1) fun e t ht => ht.2.elim
  · exact hnone r t hr hend ⟨hfiles, htype⟩ (h.of_inv hC.choose_spec href)
  · exact hall t hfiles htype (h.of_inv hC.choose_spec href)

/-- **`dirlink`** adds an entry in the first empty place, if the name is not there yet. -/
theorem Held.wp_dirlink {Q : Bool → Vol → Prop} {name : Name} {ip : Nat}
    (hdp : dp ∈ V) (hip : ip < L.ninodes) (hnotdir : s.typeOf L dp ≠ 1 → E (.panic .dirlookupNotDir) s)
    (hread : (s.files L dp).length % 16 ≠ 0 → E (.panic .dirlookupRead) s)
    (hE : E (.panic .igetNoInodes) s) (hfalse : ∀ t, (find (s.files L dp) (nameKey name) = none →
      (s.files L dp).length ≤ 16 * emptySlot (s.files L dp)) → Same L s t → Held L H V t → Q false t)
    (htrue : ∀ t, s.typeOf L dp = 1 → (s.files L dp).length % 16 = 0 →
      find (s.files L dp) (nameKey name) = none →
      t.files L = Function.update (s.files L) dp (overlay (s.files L dp)
        (16 * emptySlot (s.files L dp)) (entryBytes name ip)) →
      (∀ i < L.ninodes, t.typeOf L i = s.typeOf L i) → Held L H V t → Q true t) :
    wp (dirlink L dp name ip) Q E s := by
  have hv := h.valid hdp
  have hsize := h.consistent.toSound.size_eq hv
  have hip16 : ip < 2 ^ 16 := Nat.lt_of_lt_of_le hip L.ninodes_le
  rw [dirlink, wp_bind]
  refine h.wp_dirlookup hdp hnotdir hread hE (fun hdir hmod hfind => ?_)
    fun hdir k t hfind hblock hvalid ht => ?_
  · dsimp only
    rw [wp_bind, wp_get, wp_bind]
    refine h.consistent.toSound.wp_emptySlotFrom (k := 0) hv hmod (Nat.zero_le _) (by omega)
      (by simp) ?_
    have hslot := emptySlot_le (s.files L dp)
    have hmax := h.consistent.toSound.length_le hv
    have hlt : 16 * emptySlot (s.files L dp) < 2 ^ 32 := by
      simp only [maxFile, bsize, ndirect, nindirect] at hmax
      omega
    rw [wp_bind]
    refine h.wp_writeEntry hdp (UInt32.toNat_ofNat_of_lt' hlt) (by omega) ?_ (fun _ hle => ?_)
      (fun r t hr hend hsame ht => ?_) fun t hfiles htype ht => ?_
    · rw [dirent_inum name hip16]
      exact hip
    · -- the place is empty, so the second byte is zero
      have h0 : inumAt (s.files L dp) (emptySlot (s.files L dp)) = 0 := inumAt_emptySlot (by omega)
      have hlen := length_files (h.lt (h.mem hdp)) (h.type_ne hdp)
      rw [← direntInum_entry, ← bytesOf_eq (m := 16) (n := 16) (h.lt (h.mem hdp)) (h.type_ne hdp)
        (by omega) (by omega), direntInum_bytesOf, entryInum] at h0
      have := dirent_inum name hip16
      omega
    · rw [wp_pure, decide_eq_false hr]
      exact hfalse t (fun _ => hend) hsame ht
    · exact .pure (htrue t hdir hmod hfind hfiles htype ht)
  · dsimp only
    rw [wp_bind]
    -- the reference that `dirlookup` has taken is not the last one, or the inode has not been read
    refine ht.wp_iput (List.Subset.refl V) (fun j hj => h.mem hj) (fun _ u hblock' hu => ?_)
      fun hnot hv _ => absurd hv (by simp [hvalid hnot])
    exact .pure (hfalse u (fun hnone => absurd (hnone.symm.trans hfind) (by simp))
      (.of_block (hblock'.trans hblock)) hu)

theorem Held.wp_clearEntry {Q : Bool → Vol → Prop} {k : Nat} (hdp : dp ∈ V)
    (hk : k < (s.files L dp).length / 16) (hQ : ∀ t, t.files L = Function.update (s.files L) dp
        (overlay (s.files L dp) (16 * k) emptyBytes) →
      (∀ i < L.ninodes, t.typeOf L i = s.typeOf L i) → Held L H V t → Q true t) :
    wp ((ops L).clearEntry dp (16 * k)) Q E s := by
  have hmax := h.consistent.toSound.length_le (h.valid hdp)
  have hlt : 16 * k < 2 ^ 32 := by
    simp only [maxFile, bsize, ndirect, nindirect] at hmax
    omega
  show wp (do
    let r ← writei L dp (.ofNat (16 * k)) 16 (fun _ => 0) 16
    return decide (r = 16)) Q E s
  refine .bind (h.wp_writeEntry hdp (UInt32.toNat_ofNat_of_lt' hlt) (by omega)
    (Nat.lt_trans (by decide) L.root_lt) (fun hdir _ => ?_) (fun _ _ _ hend => by omega)
    fun t hfiles htype ht => ?_)
  · have hnum := h.inumAt_lt hdp hdir hk
    have hlen := length_files (h.lt (h.mem hdp)) (h.type_ne hdp)
    rw [← direntInum_entry, ← bytesOf_eq (m := 16) (n := 16) (h.lt (h.mem hdp)) (h.type_ne hdp)
      (by omega) (by omega), direntInum_bytesOf, entryInum] at hnum
    exact Nat.lt_of_le_of_lt (Nat.add_le_add_right (Nat.zero_le _) _) hnum
  · exact .pure (hQ t hfiles htype ht)

theorem Held.wp_writei {Q : Int → Vol → Prop} {off n : UInt32} {src : Nat → UInt8} {ok : Nat}
    (hi : i ∈ V) (htype : s.typeOf L i ≠ 1)
    (hQ : ∀ r t, SameBut L i s t → t.typeOf L i = s.typeOf L i → Held L H V t → Q r t) :
    wp (writei L i off n src ok) Q E s := by
  obtain ⟨C, hinv⟩ := h.inv
  have hv := h.valid hi
  have hmem := h.mem_eq hi
  refine hinv.toSound.wp_writei hv h.inOp
    (fun _ => hQ (-1) s ⟨fun _ _ => rfl, fun _ _ _ => rfl⟩ rfl h) fun _ _ r hi' t _ _ _ _ hw ht => ?_
  rw [typeOf, ← hmem] at htype
  have hc := hw.consistent hinv.toConsistent hv ht fun h1 => absurd h1 htype
  refine hQ r t (hw.sameBut hinv.toSound) ?_ (h.of_inv (hinv.of_disk (D := t.logged) hc hw.ref
    hw.valid hw.inOp fun b hb => .inl hb) hw.ref)
  rw [typeOf, ← (ht.sync i (by rwa [hw.valid])).2.1, hw.self, typeOf, ← hmem]

end Held

end Vol

end Xv6.Fs
