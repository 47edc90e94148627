import Xv6.Fs.Consistent
import Xv6.Fs.Entries

/-!
# Looking up a name

What the loops of `dirlookup` and `dirlink` find in a directory, in terms of its contents: `dirlookup`
returns the first entry with the key of the name, and `dirlink` writes to the first empty entry or
appends one.
-/

namespace Xv6.Fs

open Prog

attribute [local irreducible] wp

namespace Vol

section Lookup

variable {L : Layout} {s : Vol} {dp : Nat} {E : Stop → Vol → Prop}

/-! ## Entries as they are read -/

theorem getD_take_drop {data : List UInt8} {a n l : Nat} (hl : l < n) :
    ((data.drop a).take n).getD l 0 = data.getD (a + l) 0 := by
  rw [List.getD_eq_getElem?_getD, List.getElem?_take, if_pos hl, List.getElem?_drop,
    List.getD_eq_getElem?_getD]

theorem direntInum_entry (data : List UInt8) (k : Nat) :
    direntInum ((data.drop (16 * k)).take 16) = inumAt data k := by
  rw [direntInum, getD_take_drop (by decide), getD_take_drop (by decide)]
  rfl

theorem key_entry (data : List UInt8) (k : Nat) :
    key (fun j => ((data.drop (16 * k)).take 16).getD (2 + j) 0) = keyAt data k := by
  refine key_congr fun j hj => ?_
  simp only [dirsiz] at hj
  rw [getD_take_drop (by omega), Nat.add_assoc]

variable (h : Sound L s) (hv : s.valid dp = true)
include h hv

theorem Sound.size_eq : (s.mem dp).size.toNat = (s.files L dp).length := by
  obtain ⟨hi, hmem, ht⟩ := h.sync dp hv
  rw [length_files hi (hmem ▸ ht), hmem]

theorem Sound.length_le : (s.files L dp).length ≤ maxFile * bsize := by
  obtain ⟨hi, hmem, ht⟩ := h.sync dp hv
  have hsize := h.size_eq hv
  rw [hmem] at hsize ht
  refine Nat.le_of_not_lt fun hlt => ?_
  have hlast := addrOf_ne_zero (h.whole dp hi ht) (k := maxFile * bsize) (by omega)
  exact absurd hlast.1 (Nat.lt_irrefl _)

theorem Sound.wp_readFiles {Q : Int × List UInt8 → Vol → Prop} {k : Nat}
    (hk : 16 * k < (s.files L dp).length)
    (hshort : (s.files L dp).length % 16 ≠ 0 → ∀ r : Int × List UInt8, r.1 ≠ 16 → Q r s)
    (hall : k < (s.files L dp).length / 16 →
      Q (16, ((s.files L dp).drop (16 * k)).take 16) s) :
    wp (readi L dp (.ofNat (16 * k)) 16 16) Q E s := by
  obtain ⟨hi, hmem, ht⟩ := h.sync dp hv
  have hsize := h.size_eq hv
  have hmax := h.length_le hv
  have hlt : 16 * k < 2 ^ 32 := by
    simp only [maxFile, bsize, ndirect, nindirect] at hmax
    omega
  have hoff : (UInt32.ofNat (16 * k)).toNat = 16 * k := UInt32.toNat_ofNat_of_lt' hlt
  have h16 : (16 : UInt32).toNat = 16 := rfl
  refine h.wp_readi hv (fun hout => ?_) fun _ _ m hm => ?_
  · simp only [maxFile, bsize, ndirect, nindirect] at hmax
    omega
  · rw [hoff, h16] at hm
    rw [hoff, if_pos (by omega), Nat.min_eq_left (by omega)]
    by_cases hfull : k < (s.files L dp).length / 16
    · obtain rfl : m = 16 := by omega
      rw [bytesOf_eq (n := 16) hi (hmem ▸ ht) (by rw [← hmem]; omega) (by rw [← hmem]; omega)]
      exact hall hfull
    · exact hshort (by omega) _ (by dsimp only; omega)

/-! ## The loops -/

theorem Sound.wp_findFrom {Q : Option (Nat × Nat) → Vol → Prop} {name : Name} {f k : Nat}
    (hle : 16 * k ≤ (s.files L dp).length)
    (hf : (s.files L dp).length < 16 * k + 16 * f)
    (hpre : ∀ j < k, ¬(inumAt (s.files L dp) j ≠ 0 ∧ keyAt (s.files L dp) j = nameKey name))
    (hread : (s.files L dp).length % 16 ≠ 0 → E (.panic .dirlookupRead) s)
    (hnone : (s.files L dp).length % 16 = 0 → find (s.files L dp) (nameKey name) = none → Q none s)
    (hsome : ∀ k, find (s.files L dp) (nameKey name) = some k →
      wp (iget (inumAt (s.files L dp) k))
        (fun _ t => Q (some (inumAt (s.files L dp) k, 16 * k)) t) E s) :
    wp (dirlookupFrom L dp name f (16 * k)) Q E s := by
  have hsize := h.size_eq hv
  induction f generalizing k with
  | zero => omega
  | succ f ih =>
    rw [dirlookupFrom, wp_bind, wp_get, wp_ite]
    split
    · rename_i hk
      have hnext : ¬(inumAt (s.files L dp) k ≠ 0 ∧ keyAt (s.files L dp) k = nameKey name) →
          ∀ j < k + 1, ¬(inumAt (s.files L dp) j ≠ 0 ∧ keyAt (s.files L dp) j = nameKey name) := by
        intro hnot j hj
        rcases Nat.lt_succ_iff_lt_or_eq.mp hj with hj | rfl
        · exact hpre j hj
        · exact hnot
      refine .bind (h.wp_readFiles hv (by omega) (fun hmod r hr => ?_) fun hk' => ?_)
      · obtain ⟨r, de⟩ := r
        dsimp only at hr ⊢
        rw [if_pos hr, wp_throw]
        exact hread hmod
      · dsimp only
        rw [if_neg (by simp), direntInum_entry, wp_ite]
        split
        · rename_i h0
          exact ih (k := k + 1) (by omega) (by omega) (hnext fun hne => hne.1 h0)
        · rename_i hne
          rw [wp_ite]
          split
          · rename_i hcmp
            rw [strncmp_iff_key, key_entry] at hcmp
            have hfind : find (s.files L dp) (nameKey name) = some k := by
              rw [find, List.find?_range_eq_some]
              refine ⟨decide_eq_true ⟨hne, hcmp.symm⟩, List.mem_range.mpr hk', fun j hj => ?_⟩
              rw [Bool.not_eq_true']
              exact decide_eq_false (hpre j hj)
            refine .bind ((hsome k hfind).mono_ok fun _ t ht => ?_)
            exact .pure ht
          · rename_i hcmp
            rw [strncmp_iff_key, key_entry] at hcmp
            exact ih (k := k + 1) (by omega) (by omega) (hnext fun hkey => hcmp hkey.2.symm)
    · refine .pure (hnone (by omega) ?_)
      rw [find, List.find?_range_eq_none]
      intro j hj
      rw [Bool.not_eq_true']
      exact decide_eq_false (hpre j (by omega))

/-- **`dirlookup`** finds the first entry with the key of the name. -/
theorem Sound.wp_find {Q : Option (Nat × Nat) → Vol → Prop} {name : Name}
    (hdir : (s.mem dp).type = 1)
    (hread : (s.files L dp).length % 16 ≠ 0 → E (.panic .dirlookupRead) s)
    (hnone : (s.files L dp).length % 16 = 0 → find (s.files L dp) (nameKey name) = none → Q none s)
    (hsome : ∀ k, find (s.files L dp) (nameKey name) = some k →
      wp (iget (inumAt (s.files L dp) k))
        (fun _ t => Q (some (inumAt (s.files L dp) k, 16 * k)) t) E s) :
    wp (dirlookup L dp name) Q E s := by
  have hsize := h.size_eq hv
  have hdir' : (s.mem dp).ftype = .dir := Dinode.ftype_eq_dir.mpr hdir
  rw [dirlookup, wp_bind, wp_get, wp_ite, if_neg (by simp [hdir'])]
  exact h.wp_findFrom (k := 0) hv (Nat.zero_le _) (by omega) (by simp) hread hnone hsome

theorem Sound.wp_emptySlotFrom {Q : Nat → Vol → Prop} {f k : Nat}
    (hmod : (s.files L dp).length % 16 = 0)
    (hle : 16 * k ≤ (s.files L dp).length) (hf : (s.files L dp).length < 16 * k + 16 * f)
    (hpre : ∀ j < k, inumAt (s.files L dp) j ≠ 0) (hQ : Q (16 * emptySlot (s.files L dp)) s) :
    wp (emptyFrom L dp f (16 * k)) Q E s := by
  have hsize := h.size_eq hv
  induction f generalizing k with
  | zero => omega
  | succ f ih =>
    rw [emptyFrom, wp_bind, wp_get, wp_ite]
    split
    · rename_i hk
      refine .bind (h.wp_readFiles hv (by omega) (fun hne => absurd hmod hne) fun hk' => ?_)
      dsimp only
      rw [if_neg (by simp), direntInum_entry, wp_ite]
      split
      · rename_i h0
        have hslot : emptySlot (s.files L dp) = k := by
          rw [emptySlot, List.find?_range_eq_some.mpr ⟨decide_eq_true h0, List.mem_range.mpr hk',
            fun j hj => by simpa using hpre j hj⟩]
          rfl
        rw [wp_pure, ← hslot]
        exact hQ
      · rename_i hne
        refine ih (k := k + 1) (by omega) (by omega) fun j hj => ?_
        rcases Nat.lt_succ_iff_lt_or_eq.mp hj with hj | rfl
        · exact hpre j hj
        · exact hne
    · have hslot : emptySlot (s.files L dp) = k := by
        rw [emptySlot, List.find?_range_eq_none.mpr fun j hj => by simpa using hpre j (by omega)]
        show (s.files L dp).length / 16 = k
        omega
      rw [wp_pure, ← hslot]
      exact hQ

/-! ## Writing an entry -/

/-- **An entry is written as a whole or not at all**, and an entry of the directory always is. -/
theorem Sound.wp_putEntry {Q : Int → Vol → Prop} {off : UInt32} {k : Nat} {f : Nat → UInt8}
    (hop : s.inOp = true) (hoff : off.toNat = 16 * k)
    (hk : 16 * k ≤ (s.files L dp).length)
    (hnone : ∀ r t, r ≠ 16 → (s.files L dp).length ≤ 16 * k → t.ref = s.ref →
      t.files L = s.files L →
      (∀ i < L.ninodes, (L.dinode t.block i).type = (L.dinode s.block i).type) → Q r t)
    (hall : ∀ t, t.ref = s.ref → t.files L = Function.update (s.files L) dp
        (overlay (s.files L dp) (16 * k) ((List.range 16).map f)) →
      (∀ i < L.ninodes, (L.dinode t.block i).type = (L.dinode s.block i).type) → Q 16 t) :
    wp (writei L dp off 16 f 16) Q E s := by
  have hsize := h.size_eq hv
  have h16 : (16 : UInt32).toNat = 16 := rfl
  obtain ⟨hi, hmem, hne⟩ := h.sync dp hv
  have hmax := h.length_le hv
  refine h.wp_writei hv hop (fun hbad => ?_) fun hle _ r hi' t hr _ hcopy hfull hw ht => ?_
  · refine hnone (-1) s (by decide) ?_ rfl rfl fun _ _ => rfl
    rw [hoff, h16] at hbad
    simp only [maxFile, bsize, ndirect, nindirect] at hbad hmax
    omega
  rw [hcopy (Nat.le_refl _), hoff, h16] at hw
  have hfiles := hw.files_eq h hv ht (by omega)
  have htype : ∀ i < L.ninodes, (L.dinode t.block i).type = (L.dinode s.block i).type := by
    intro i hlt
    by_cases hidp : i = dp
    · rw [hidp, ← hmem, ← (ht.sync dp (by rwa [hw.valid])).2.1, hw.self]
    · rw [hw.disk i hlt hidp]
  by_cases hr16 : r = 16
  · subst hr16
    exact hall t hw.ref hfiles htype
  · -- the entry is in one block, which could not be allocated
    have haddr : t.addrOf L (dp, .data (16 * k / bsize)) = 0 := by
      rw [← (hfull (by omega) (Nat.le_refl _)).2, hoff]
      congr 3
      simp only [bsize]
      omega
    obtain rfl : r = 0 := by
      by_contra h0
      exact (hw.inside (16 * k) (Nat.le_refl _) (by omega)).1 haddr
    have hend : (s.files L dp).length ≤ 16 * k := by
      by_contra hlt
      rw [hmem] at hsize hne
      have h0 := (addrOf_ne_zero (h.whole dp hi hne) (k := 16 * k) (by omega)).2
      exact h0 ((hw.keep _ h0).symm.trans haddr)
    rw [List.range_zero, List.map_nil, overlay_nil, Function.update_eq_self] at hfiles
    exact hnone 0 t (by decide) hend hw.ref hfiles htype

end Lookup

end Vol

end Xv6.Fs
