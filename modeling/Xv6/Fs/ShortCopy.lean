import Xv6.Fs.FileArray
import Xv6.Fs.Space

/-!
# `writei` from memory that is not all there

`writei` copies from the user straight into the buffer of a block, and the copy stops at the first
page that is not mapped.  The bytes before it are then in the buffer, but they are not counted in what
`writei` returns, and the block is not given to `log_write`.
-/

namespace Xv6.Fs.Vol

open Prog

attribute [local irreducible] wp

/-- `writei` has changed what it reports and nothing else: the first `tot` bytes of the source are in
the file, the other bytes of all files are the same, and every block that has changed has been given
to `log_write`. -/
structure WritesExactly (L : Layout) (i off tot : Nat) (src : Nat → UInt8) (s t : Vol) : Prop where
  files : t.files L =
    Function.update (s.files L) i (overlay (s.files L i) off ((List.range tot).map src))
  logged : ∀ b, b ∉ t.logged → t.block b = s.block b

/-- The first byte of the source that goes to the block in which a copy of `ok` bytes stops. -/
def tearStart (off ok : Nat) : Nat := (off + ok) / bsize * bsize - off

/-- If `writei` gets to the block in which the copy stops, and the file has this block already, then
the bytes that are copied there are those that it has, or they are behind the end of the file in a
block that is logged anyway. -/
def LeavesNothing (L : Layout) (i off n ok : Nat) (src : Nat → UInt8) (s : Vol) : Prop :=
  ok < n → s.Enough L i off (off + tearStart off ok) → ∀ k, tearStart off ok ≤ k → k < ok →
    s.addrOf L (i, .data ((off + k) / bsize)) ≠ 0 → src k = s.byteOf L i (off + k) ∨
      (s.mem i).size.toNat ≤ off + k ∧ s.addrOf L (i, .data ((off + k) / bsize)) ∈ s.logged

section Torn

variable {L : Layout} {s t : Vol} {i off n ok r a : Nat} {src : Nat → UInt8}

theorem Torn.tearStart_eq (h : Torn L i off n ok r a s t) : tearStart off ok = r := by
  have hlt := h.lt
  have hle := h.reach
  have hstart := h.start
  simp only [tearStart, bsize] at *
  omega

theorem Torn.div_eq (h : Torn L i off n ok r a s t) {k : Nat} (hk : r ≤ k) (hk' : k < ok) :
    (off + k) / bsize = (off + r) / bsize := by
  have hlt := h.lt
  simp only [bsize] at *
  omega

theorem Sound.files_tear (ht : Sound L t) (hv : t.valid i = true) (h : Torn L i off n ok r a s t)
    (hmax : off + n ≤ maxFile * bsize)
    (hsame : ∀ k, r ≤ k → k < ok → off + k < (t.mem i).size.toNat →
      src k = t.byteOf L i (off + k)) : (t.tear off ok r a src).files L = t.files L := by
  have haddr : t.addrOf L (i, .data ((off + r) / bsize)) = a := by
    rw [addrOf, ← ht.ino_eq hv]
    exact h.addr
  funext j
  rw [Vol.files, Vol.files]
  by_cases hj : j < L.ninodes
  · have hdisk : L.dinode (t.tear off ok r a src).block j = L.dinode t.block j :=
      Layout.dinode_update_data hj (ht.nmeta_le haddr h.ne) _
    rw [hdisk]
    split
    · rename_i htype
      refine List.map_congr_left fun k hk => ?_
      have hk : k < (L.dinode t.block j).size.toNat := List.mem_range.mp hk
      obtain ⟨hmaxk, h0⟩ := addrOf_ne_zero (ht.whole j hj htype.2) hk
      rw [Nat.zero_add]
      by_cases hji : j = i
      · subst hji
        refine (ht.byteOf_tear _ hv h hmax hmaxk).trans ?_
        split
        · rename_i hin
          have hbyte := hsame (k - off) (by omega) (by omega)
          rw [Nat.add_sub_cancel' (by omega), (ht.sync j hv).2.1] at hbyte
          exact hbyte hk
        · rfl
      · exact ht.byteOf_setBlock_of_ne hv haddr h.ne _ hji h0
    · rfl
  · rw [if_neg fun hc => hj hc.1, if_neg fun hc => hj hc.1]

theorem block_tear_eq (h : Torn L i off n ok r a s t)
    (hsame : ∀ k, r ≤ k → k < ok → src k = (t.block a).byte ((off + k) % bsize)) :
    (t.tear off ok r a src).block = t.block := by
  have hlt := h.lt
  refine (congrArg (Function.update t.block a) ?_).trans (Function.update_eq_self ..)
  funext k
  rw [Bytes.splice]
  split
  · rename_i hk
    have hbyte := hsame (r + (k.val - (off + r) % bsize)) (by omega) (by omega)
    rw [hbyte, Bytes.byte]
    have hmod : (off + (r + (k.val - (off + r) % bsize))) % bsize = k.val := by
      have := k.isLt
      simp only [bsize] at *
      omega
    simp only [hmod, dif_pos k.isLt]
  · rfl

end Torn

section Exact

variable {L : Layout} {s t : Vol} {i r a top off n ok : Nat} {src : Nat → UInt8}

variable (h : Sound L s) (hv : s.valid i = true) (ht : Sound L t)
include h hv ht

theorem Written.exact (hw : Written L i off (off + r) (off + r) top (fun k => src (k - off)) s t)
    (hl : Logs s t)
    (hoff : off ≤ (s.mem i).size.toNat) : WritesExactly L i off r src s t :=
  ⟨hw.files_eq h hv ht hoff, hl.same⟩

theorem Ended.leavesNothing (hr : Ended L i off n ok r t) (hw : Written L i off (off + r) (off + r)
      (min (off + r + 1) (off + n)) (fun k => src (k - off)) s t) :
    LeavesNothing L i off n ok src s := by
  intro hlt henough k hk hk' h0
  have hreach := hr.reach
  obtain ⟨hfull, hnone⟩ := hr.full (by omega)
  have haddr : t.addrOf L (i, .data ((off + r) / bsize)) = 0 := by
    rw [addrOf, ← ht.ino_eq (by rw [hw.valid, hv])]
    exact hnone
  exfalso
  by_cases hbefore : r < tearStart off ok
  · have henough' := hw.enough h ht (by omega) henough
    exact henough'.not_full (k := off + r) (by omega) (by omega) haddr hfull
  · have hblock : (off + k) / bsize = (off + r) / bsize := by
      simp only [tearStart, bsize] at *
      omega
    rw [hblock] at h0
    exact h0 ((hw.keep _ h0).symm.trans haddr)

theorem Torn.not_mem_logged (hr : Torn L i off n ok r a s t) (hmax : off + n ≤ maxFile * bsize)
    (hw : Written L i off (off + r) (off + r) (off + r) (fun k => src (k - off)) s t)
    (ha : a ∉ s.logged) : a ∉ t.logged := by
  have hvt : t.valid i = true := by rw [hw.valid, hv]
  have hlt := hr.lt
  have hreach := hr.reach
  have hstart := hr.start
  have haddr : t.addrOf L (i, .data ((off + r) / bsize)) = a := by
    rw [addrOf, ← ht.ino_eq hvt]
    exact hr.addr
  have hmeta := ht.nmeta_le haddr hr.ne
  intro hmem
  rcases hw.logs a hmem with hb | ⟨c, hc, hb⟩ | hb | ⟨p, hp, hb⟩
  · exact ha hb
  · exact (Nat.lt_of_lt_of_le (Layout.bblock_lt hc) hmeta).ne hb.symm
  · exact (Nat.lt_of_lt_of_le (Layout.iblock_lt_nmeta (h.sync i hv).1) hmeta).ne hb.symm
  · -- the places of the other blocks of the file are not this one
    have hplace := congrArg Prod.snd (Pool.Exact.inj ht.own (i, p) (i, .data ((off + r) / bsize))
      (hb.trans haddr.symm) (by rw [← addrOf, hb]; exact hr.ne))
    dsimp only at hplace
    subst hplace
    rcases hp with hp | ⟨k, hk, hk', hp⟩
    · exact Place.data_ne_indirect _ hp
    · have := Place.data_inj (by simp only [bsize] at *; omega) (by simp only [bsize] at *; omega) hp
      simp only [bsize] at *
      omega

/-- Where a copy fails, `writei` changes only what it reports if, and only if, it leaves behind the
bytes that were there. -/
theorem Torn.exact_iff (hr : Torn L i off n ok r a s t) (hoff : off ≤ (s.mem i).size.toNat)
    (hmax : off + n ≤ maxFile * bsize) (hw : Written L i off (off + r) (off + r)
      (tornTop L i (off + r) s) (fun k => src (k - off)) s t) (hl : Logs s t) :
    WritesExactly L i off r src s (t.tear off ok r a src) ↔ LeavesNothing L i off n ok src s := by
  obtain ⟨hi, hmem, htype⟩ := h.sync i hv
  have hvt : t.valid i = true := by rw [hw.valid, hv]
  obtain ⟨-, hmem', htype'⟩ := ht.sync i hvt
  have hlt := hr.lt
  have hreach := hr.reach
  have hexact := hw.exact h hv ht hl hoff
  have haddr : t.addrOf L (i, .data ((off + r) / bsize)) = a := by
    rw [addrOf, ← ht.ino_eq hvt]
    exact hr.addr
  have hsize := hw.size
  have hkmax : ∀ k, k < ok → off + k < maxFile * bsize := by omega
  -- a byte of the block in question
  have hbyteOf : s.addrOf L (i, .data ((off + r) / bsize)) = a → ∀ k, r ≤ k → k < ok →
      s.byteOf L i (off + k) = (s.block a).byte ((off + k) % bsize) := by
    intro hself k hk hk'
    rw [byteOf, fileByte, hr.div_eq hk hk', ← addrOf, hself]
  have htop : s.addrOf L (i, .data ((off + r) / bsize)) ≠ 0 → tornTop L i (off + r) s = off + r := by
    intro h0
    rw [tornTop, h.ino_eq hv, ← addrOf, if_neg h0]
  rw [LeavesNothing, hr.tearStart_eq]
  constructor
  · intro hx _ _ k hk hk' h0
    rw [hr.div_eq hk hk'] at h0 ⊢
    have hself : s.addrOf L (i, .data ((off + r) / bsize)) = a := (hw.keep _ h0).symm.trans haddr
    rw [hself]
    have hbyte := ht.byteOf_tear src hvt hr hmax (hkmax k hk')
    rw [if_pos ⟨by omega, by omega⟩, Nat.add_sub_cancel_left] at hbyte
    by_contra hne
    rw [not_or, not_and_or, Nat.not_le] at hne
    refine hne.1 ?_
    rcases hne.2 with hsee | hlog
    · -- the byte can be seen
      have hdisk : L.dinode (t.tear off ok r a src).block i = L.dinode t.block i :=
        Layout.dinode_update_data hi (ht.nmeta_le haddr hr.ne) _
      have hget := congrArg (·[off + k]?) (congrFun hx.files i)
      rw [Vol.files_eq hi (by rwa [hdisk, ← hmem']), hdisk, ← hmem', getElem?_bytesOf (by omega),
        Nat.zero_add, hbyte, Function.update_self,
        getElem?_overlay (by rwa [length_files hi (by rwa [← hmem]), ← hmem]),
        if_neg (by rw [List.length_map, List.length_range]; omega),
        Vol.files_eq hi (by rwa [← hmem]), ← hmem, getElem?_bytesOf hsee, Nat.zero_add] at hget
      exact Option.some_inj.mp hget
    · -- the block is not logged
      rw [htop h0] at hw
      have hnot : a ∉ t.logged := hr.not_mem_logged h hv ht hmax hw hlog
      have hblock := hx.logged a hnot
      rw [hbyteOf hself k hk hk', ← hblock, ← hbyte, byteOf, fileByte, hr.div_eq hk hk', ← addrOf,
        tear, ht.addrOf_setBlock hvt haddr hr.ne, haddr]
  · intro hclean
    by_cases h0 : s.addrOf L (i, .data ((off + r) / bsize)) = 0
    · -- the block is new, and the bytes are behind the end of the file
      have hend : (s.mem i).size.toNat ≤ off + r := by
        by_contra hsee
        rw [hmem] at hsee
        exact (addrOf_ne_zero (h.whole i hi (by rwa [← hmem])) (by omega)).2 h0
      have hlogged : a ∈ t.logged := hr.new (by rw [h.ino_eq hv]; exact h0)
      refine ⟨(ht.files_tear hvt hr hmax fun k hk _ hsee => absurd hsee (by omega)).trans
        hexact.files, fun b hb => ?_⟩
      refine (Function.update_of_ne ?_ ..).trans (hexact.logged b hb)
      rintro rfl
      exact hb hlogged
    · have hself : s.addrOf L (i, .data ((off + r) / bsize)) = a := (hw.keep _ h0).symm.trans haddr
      rw [htop h0] at hw
      have hleft : ∀ k, r ≤ k → k < ok → src k = s.byteOf L i (off + k) ∨
          (s.mem i).size.toNat ≤ off + k ∧ a ∈ s.logged := by
        intro k hk hk'
        have := hclean (by omega) (hw.had_enough h ht (Nat.le_refl _)) k hk hk'
        rw [hr.div_eq hk hk', hself] at this
        exact this hr.ne
      refine ⟨(ht.files_tear hvt hr hmax fun k hk hk' hsee => ?_).trans hexact.files, fun b hb => ?_⟩
      · rw [hw.outside (off + k) (hkmax k hk') (by omega) (by rwa [hr.div_eq hk hk'])]
        exact (hleft k hk hk').resolve_right (by omega)
      · by_cases hba : b = a
        · subst hba
          have hb' : b ∉ s.logged := fun hmem => hb (hl.mono b hmem)
          rw [block_tear_eq hr fun k hk hk' => ?_]
          · exact hl.same b hb
          · rw [hl.same b hb, ← hbyteOf hself k hk hk']
            exact (hleft k hk hk').resolve_right fun hmem => hb' hmem.2
        · exact (Function.update_of_ne hba ..).trans (hexact.logged b hb)

end Exact

/-- **When `writei` changes exactly what it reports.** -/
theorem writei_exact_iff {L : Layout} {s : Vol} {i : Nat} {off n : UInt32} (h : Sound L s)
    (hv : s.valid i = true) (hop : s.inOp = true) (hoff : off.toNat ≤ (s.mem i).size.toNat)
    (hmax : off.toNat + n.toNat ≤ maxFile * bsize) (src : Nat → UInt8) (ok : Nat) :
    ∃ (tot : Nat) (t : Vol), writei L i off n src ok s = .ok (tot : Int) t ∧
      (WritesExactly L i off.toNat tot src s t ↔
        LeavesNothing L i off.toNat n.toNat ok src s) := by
  have hwp : wp (writei L i off n src ok) (fun r t => ∃ tot : Nat, r = tot ∧
      (WritesExactly L i off.toNat tot src s t ↔ LeavesNothing L i off.toNat n.toNat ok src s))
      (fun _ _ => False) s := by
    refine h.wp_writeiCases hv hop (fun hbad => ?_) (fun _ _ r t hr hw hl ht => ?_)
      fun _ _ r a t hr hw hl ht => ?_
    · simp only [maxFile, bsize, ndirect, nindirect] at *
      omega
    · exact ⟨r, rfl, iff_of_true (hw.exact h hv ht hl hoff) (hr.leavesNothing h hv ht hw)⟩
    · exact ⟨r, rfl, hr.exact_iff h hv ht hoff hmax hw hl⟩
  obtain ⟨_, t, hrun, tot, rfl, hiff⟩ := hwp.exists_ok
  exact ⟨tot, t, hrun, hiff⟩

/-- Three bytes have been written to the file, and the next transaction has begun. -/
def smallWritten : Vol :=
  { final (writei smallLayout 2 0 3 (fun k => .ofNat (k + 1)) 3) small with logged := [] }

theorem sound_smallWritten : Sound smallLayout smallWritten := by
  have h : Sound smallLayout (final (writei smallLayout 2 0 3 (fun k => .ofNat (k + 1)) 3) small) :=
    wp.final (R := Sound smallLayout) (sound_small.wp_writei rfl rfl (fun _ => sound_small)
      fun _ _ _ _ _ _ _ _ _ _ ht => ht)
  exact ⟨h.own, h.whole, h.sync⟩

/-- The first byte can be copied, and it is the one that is there. -/
theorem writei_exact_iff_small :
    ∃ (tot : Nat) (t : Vol), writei smallLayout 2 0 3 (fun _ => 1) 1 smallWritten = .ok (tot : Int) t ∧
      (WritesExactly smallLayout 2 0 tot (fun _ => 1) smallWritten t ↔
        LeavesNothing smallLayout 2 0 3 1 (fun _ => 1) smallWritten) :=
  @writei_exact_iff smallLayout smallWritten 2 0 3 sound_smallWritten (by decide +kernel) (by decide +kernel)
    (by decide +kernel) (by decide) _ 1

/-- One byte of three can be copied: `writei` returns zero, but the file has changed, and the block
is not logged. -/
theorem writei_not_exact :
    Sound smallLayout smallWritten ∧ smallWritten.valid 2 = true ∧ smallWritten.inOp = true ∧
      (smallWritten.mem 2).size = 3 ∧ smallWritten.files smallLayout 2 = [1, 2, 3] ∧
      ∃ r t, writei smallLayout 2 0 3 (fun _ => 9) 1 smallWritten = .ok r t ∧ r = 0 ∧
        t.files smallLayout 2 = [9, 2, 3] ∧ 3 ∉ t.logged ∧ t.block 3 ≠ smallWritten.block 3 := by
  refine ⟨sound_smallWritten, by decide +kernel, by decide +kernel, by decide +kernel,
    by decide +kernel, ?_⟩
  have h : wp (writei smallLayout 2 0 3 (fun _ => 9) 1) (fun r t => r = 0 ∧
      t.files smallLayout 2 = [9, 2, 3] ∧ 3 ∉ t.logged ∧
      (t.block 3).byte 0 ≠ (smallWritten.block 3).byte 0) (fun _ _ => False) smallWritten := by
    decide +kernel
  obtain ⟨r, t, hrun, hr, hfiles, hlogged, hbyte⟩ := h.exists_ok
  exact ⟨r, t, hrun, hr, hfiles, hlogged, fun heq => hbyte (by rw [heq])⟩

end Xv6.Fs.Vol
