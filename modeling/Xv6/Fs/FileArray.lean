import Xv6.Fs.Sound

/-!
# Files are arrays of bytes

The abstract view of the files is an array of bytes for each inode.  `Allowed` says what `readi` and
`writei` may answer, given these arrays, and `after` what the arrays are then.  `call_obeys` is the step
of the refinement, from a sound state to a sound state.
-/

namespace Xv6.Fs

open Prog

attribute [local irreducible] wp

/-! ## Arrays -/

inductive Rw where
  | write (i : Nat) (off n : UInt32) (src : Nat → UInt8)
  | read (i : Nat) (off n : UInt32)

def Rw.inode : Rw → Nat
  | .write i .. => i
  | .read i .. => i

abbrev Reply : Type := Int × List UInt8

abbrev Files : Type := Nat → List UInt8

/-- Lay the bytes of `b` over an array, from `off` on. -/
def overlay (a : List UInt8) (off : Nat) (b : List UInt8) : List UInt8 :=
  a.take off ++ b ++ a.drop (off + b.length)

/-- What the calls may answer, given the contents of the files. -/
def Allowed (a : Files) : Rw → Reply → Prop
  | .write i off n _, r =>
    if (a i).length < off.toNat ∨ 2 ^ 32 ≤ off.toNat + n.toNat ∨
        maxFile * bsize < off.toNat + n.toNat then r = (-1, [])
    else ∃ tot : Nat, tot ≤ n.toNat ∧ r = ((tot : Int), [])
  | .read i off n, r =>
    if (a i).length < off.toNat ∨ 2 ^ 32 ≤ off.toNat + n.toNat then r = (0, [])
    else r = (((min n.toNat ((a i).length - off.toNat) : Nat) : Int),
      ((a i).drop off.toNat).take n.toNat)

/-- The contents of the files after a call, given what it has answered. -/
def after (a : Files) : Rw → Reply → Files
  | .write i off _ src, r =>
    if r.1 < 0 then a
    else Function.update a i (overlay (a i) off.toNat ((List.range r.1.toNat).map src))
  | .read .., _ => a

def afterAll : Files → List (Rw × Reply) → Files
  | a, [] => a
  | a, (c, r) :: l => afterAll (after a c r) l

theorem overlay_nil (a : List UInt8) (off : Nat) : overlay a off [] = a := by
  rw [overlay, List.append_nil, List.length_nil, Nat.add_zero, List.take_append_drop]

theorem length_overlay {a b : List UInt8} {off : Nat} (h : off ≤ a.length) :
    (overlay a off b).length = max a.length (off + b.length) := by
  rw [overlay, List.length_append, List.length_append, List.length_take, List.length_drop]
  omega

theorem getElem?_overlay {a b : List UInt8} {off k : Nat} (h : off ≤ a.length) :
    (overlay a off b)[k]? =
      if off ≤ k ∧ k < off + b.length then b[k - off]? else a[k]? := by
  rw [overlay]
  by_cases hk : k < off
  · rw [if_neg (by omega), List.append_assoc, List.getElem?_append_left (by simp; omega),
      List.getElem?_take_of_lt hk]
  · rw [List.append_assoc, List.getElem?_append_right (by simp; omega), List.length_take,
      Nat.min_eq_left h]
    by_cases hb : k < off + b.length
    · rw [if_pos ⟨by omega, hb⟩, List.getElem?_append_left (by omega)]
    · rw [if_neg (by omega), List.getElem?_append_right (by omega), List.getElem?_drop]
      congr 1
      omega

namespace Vol

/-! ## The files of a state -/

def call (L : Layout) : Rw → V Reply
  | .write i off n src => do
    let r ← writei L i off n src n.toNat
    return (r, [])
  | .read i off n => readi L i off n n.toNat

def calls (L : Layout) : List Rw → V (List Reply)
  | [] => return []
  | c :: cs => do
    let r ← call L c
    let rs ← calls L cs
    return r :: rs

def files (L : Layout) (s : Vol) : Files := fun i =>
  if i < L.ninodes ∧ (L.dinode s.block i).type ≠ 0 then
    s.bytesOf L i 0 (L.dinode s.block i).size.toNat
  else []

section Files

variable {L : Layout} {s t : Vol} {i j : Nat}

section

variable (hi : i < L.ninodes) (ht : (L.dinode s.block i).type ≠ 0)
include hi ht

theorem files_eq :
    s.files L i = s.bytesOf L i 0 (L.dinode s.block i).size.toNat := if_pos ⟨hi, ht⟩

theorem length_files : (s.files L i).length = (L.dinode s.block i).size.toNat := by
  rw [files_eq hi ht]
  exact length_fileBytes ..

theorem bytesOf_eq {off m n : Nat} (hm : m = min n ((L.dinode s.block i).size.toNat - off))
    (hoff : off ≤ (L.dinode s.block i).size.toNat) :
    s.bytesOf L i off m = ((s.files L i).drop off).take n := by
  have hsplit : s.bytesOf L i 0 (L.dinode s.block i).size.toNat =
      s.bytesOf L i 0 off ++ s.bytesOf L i off ((L.dinode s.block i).size.toNat - off) := by
    obtain ⟨m, hm⟩ := Nat.exists_eq_add_of_le hoff
    rw [hm, Nat.add_sub_cancel_left]
    refine (fileBytes_add 0 off m).trans ?_
    rw [Nat.zero_add]
    rfl
  have hlen₀ : (s.bytesOf L i 0 off).length = off := length_fileBytes ..
  rw [files_eq hi ht, hsplit, List.drop_left' hlen₀]
  have hlen : (s.bytesOf L i off ((L.dinode s.block i).size.toNat - off)).length =
      (L.dinode s.block i).size.toNat - off := length_fileBytes ..
  by_cases hn : n ≤ (L.dinode s.block i).size.toNat - off
  · rw [hm, Nat.min_eq_left hn]
    exact (take_fileBytes hn).symm
  · rw [hm, Nat.min_eq_right (by omega), List.take_of_length_le]
    rw [hlen]
    omega

end

theorem Written.files_eq {off tot top : Nat} {src : Nat → UInt8} (h : Sound L s)
    (hv : s.valid i = true) (hw : Written L i off (off + tot) (off + tot) top
      (fun k => src (k - off)) s t) (ht : Sound L t) (hoff : off ≤ (s.mem i).size.toNat) :
    t.files L =
      Function.update (s.files L) i (overlay (s.files L i) off ((List.range tot).map src)) := by
  obtain ⟨hi, hmem, htype⟩ := h.sync i hv
  obtain ⟨-, hmem', htype'⟩ := ht.sync i (by rwa [hw.valid])
  have hsize := hw.size
  rw [hmem, hmem'] at hsize
  rw [hmem] at hoff htype
  rw [hmem'] at htype'
  funext j
  by_cases hji : j = i
  · subst hji
    have hlen := length_files hi htype
    rw [Function.update_self]
    refine List.ext_getElem? fun k => ?_
    rw [getElem?_overlay (by rwa [hlen]), List.length_map, List.length_range]
    by_cases hk : k < (L.dinode t.block j).size.toNat
    · rw [Vol.files_eq hi htype', getElem?_bytesOf hk, Nat.zero_add]
      split
      · rename_i hin
        rw [(hw.inside k hin.1 hin.2).2, List.getElem?_map, List.getElem?_range (by omega)]
        rfl
      · have hk' : k < (L.dinode s.block j).size.toNat := by omega
        obtain ⟨hmax, h0⟩ := addrOf_ne_zero (h.whole j hi htype) hk'
        rw [hw.outside k hmax (by omega) h0, Vol.files_eq hi htype, getElem?_bytesOf hk',
          Nat.zero_add]
    · rw [List.getElem?_eq_none (by rw [length_files hi htype']; omega), if_neg (by omega),
        List.getElem?_eq_none (by omega)]
  · rw [Function.update_of_ne hji, files, files]
    by_cases hj : j < L.ninodes
    · rw [hw.disk j hj hji]
      split
      · rename_i htj
        refine List.map_congr_left fun k hk => ?_
        have hk : k < (L.dinode s.block j).size.toNat := List.mem_range.mp hk
        rw [Nat.zero_add]
        exact hw.bytes j hji k (addrOf_ne_zero (h.whole j hj htj.2) hk).2
      · rfl
    · rw [if_neg fun hc => hj hc.1, if_neg fun hc => hj hc.1]

/-! ## The refinement -/

/-- A call from the state `s`, with the arrays `a`, to the state `t` obeys the arrays. -/
structure Obeys (L : Layout) (a : Files) (s : Vol) (c : Rw) (r : Reply) (t : Vol) : Prop where
  reply : Allowed a c r
  files : t.files L = after a c r
  full : ∀ i off n src, c = .write i off n src → 0 ≤ r.1 → r.1 < n.toNat →
    ∀ b < L.size, L.bit t.block b = true
  size : ∀ i off n src, c = .write i off n src → 0 ≤ r.1 →
    (L.dinode t.block i).size.toNat = max (L.dinode s.block i).size.toNat (off.toNat + r.1.toNat)
  /-- A `readi`, or a `writei` that is rejected, changes nothing. -/
  same : (∀ i off n src, c = .write i off n src → r.1 = -1) → t = s
  others : ∀ j < L.ninodes, j ≠ c.inode →
    L.dinode t.block j = L.dinode s.block j ∧ ∀ p, t.addrOf L (j, p) = s.addrOf L (j, p)

/-- **One call obeys the arrays**, and the state is sound again. -/
theorem call_obeys {E : Stop → Vol → Prop} (h : Sound L s) (hop : s.inOp = true) (c : Rw)
    (hv : s.valid c.inode = true) :
    wp (call L c) (fun r t => Obeys L (s.files L) s c r t ∧ Sound L t ∧ t.inOp = true ∧
      t.valid = s.valid) E s := by
  cases c with
  | write i off n src =>
    obtain ⟨hi, hmem, htype⟩ := h.sync i hv
    rw [hmem] at htype
    rw [call, wp_bind]
    refine h.wp_writei hv hop (fun hbad => ?_) fun hoff hmax r hi' t hr _ hcopy hfull hw ht => ?_
    · rw [hmem, ← length_files hi htype] at hbad
      refine .pure (⟨⟨?_, rfl, fun _ _ _ _ _ h0 => absurd h0 (by decide), fun _ _ _ _ _ h0 =>
        absurd h0 (by decide), fun _ => rfl, fun _ _ _ => ⟨rfl, fun _ => rfl⟩⟩, h, hop, rfl⟩)
      rw [Allowed, if_pos hbad]
    · rw [hcopy (Nat.le_refl _)] at hw
      have hin : ¬((s.files L i).length < off.toNat ∨ 2 ^ 32 ≤ off.toNat + n.toNat ∨
          maxFile * bsize < off.toNat + n.toNat) := by
        rw [length_files hi htype, ← hmem]
        simp only [maxFile, bsize, ndirect, nindirect] at *
        omega
      have hself := (ht.sync i (by rwa [hw.valid])).2.1
      rw [wp_pure]
      refine ⟨⟨?_, ?_, ?_, ?_, fun hneg => ?_, fun j hj hji => ⟨hw.disk j hj hji, hw.other j hji⟩⟩,
        ht, hw.inOp.trans hop, hw.valid⟩
      · rw [Allowed, if_neg hin]
        exact ⟨r, hr, rfl⟩
      · rw [after, if_neg (by omega)]
        exact hw.files_eq h hv ht hoff
      · rintro _ _ _ _ ⟨⟩ - hlt
        exact (hfull (by omega) (Nat.le_refl _)).1
      · rintro _ _ _ _ ⟨⟩ -
        rw [← hself, ← hmem]
        exact hw.size
      · have := hneg i off n src rfl
        omega
  | read i off n =>
    obtain ⟨hi, hmem, htype⟩ := h.sync i hv
    rw [hmem] at htype
    rw [call]
    have hobeys : ∀ r, Allowed (s.files L) (.read i off n) r →
        Obeys L (s.files L) s (.read i off n) r s ∧ Sound L s ∧ s.inOp = true ∧
          s.valid = s.valid := fun r hr =>
      ⟨⟨hr, rfl, fun _ _ _ _ heq => (nomatch heq), fun _ _ _ _ heq => (nomatch heq), fun _ => rfl,
        fun _ _ _ => ⟨rfl, fun _ => rfl⟩⟩, h, hop, rfl⟩
    refine h.wp_readi hv (fun hout => hobeys _ ?_) fun hoff hwrap m hm => hobeys _ ?_
    · rw [hmem, ← length_files hi htype] at hout
      rw [Allowed, if_pos hout]
    · have hmn : m ≤ n.toNat := by omega
      rw [hmem] at hoff hm
      rw [Allowed, length_files hi htype, if_neg (by omega), if_pos hmn, Nat.min_eq_left hmn,
        bytesOf_eq hi htype hm hoff, hm]

/-- **The files are arrays of bytes**: after every sequence of calls, the files are the arrays that
the sequence makes of the files at the beginning, and the next call obeys these arrays. -/
theorem calls_obey (h : Sound L s) (hop : s.inOp = true) (cs : List Rw) (c : Rw)
    (hv : ∀ d ∈ c :: cs, s.valid d.inode = true) :
    ∃ rs t r u, calls L cs s = .ok rs t ∧ call L c t = .ok r u ∧ rs.length = cs.length ∧
      t.files L = afterAll (s.files L) (cs.zip rs) ∧
      Obeys L (afterAll (s.files L) (cs.zip rs)) t c r u := by
  induction cs generalizing s with
  | nil =>
    obtain ⟨r, u, hcall, hobeys, -⟩ :=
      (call_obeys h hop c (hv c List.mem_cons_self)).exists_ok
    exact ⟨[], s, r, u, rfl, hcall, rfl, rfl, hobeys⟩
  | cons d cs ih =>
    obtain ⟨r', t', hcall', hobeys', ht', hop', hvalid⟩ :=
      (call_obeys h hop d (hv d (by simp))).exists_ok
    obtain ⟨rs, t, r, u, hcalls, hcall, hlen, hfiles, hobeys⟩ := ih ht' hop' fun e he => by
      rw [hvalid]
      rcases List.mem_cons.mp he with rfl | he
      · exact hv e List.mem_cons_self
      · exact hv e (by simp [he])
    rw [hobeys'.files] at hfiles hobeys
    refine ⟨r' :: rs, t, r, u, ?_, hcall, by simp [hlen], hfiles, hobeys⟩
    show EStateM.bind (call L d) _ s = _
    rw [EStateM.bind, hcall']
    show EStateM.bind (calls L cs) _ t' = _
    rw [EStateM.bind, hcalls]
    rfl

end Files

/-- Three bytes are written and read back. -/
theorem calls_obey_small :
    ∃ rs t r u, calls smallLayout [.write 2 0 3 fun k => .ofNat k] small = .ok rs t ∧
      call smallLayout (.read 2 1 5) t = .ok r u ∧ rs.length = 1 ∧
      t.files smallLayout =
        afterAll (small.files smallLayout) ([.write 2 0 3 fun k => .ofNat k].zip rs) ∧
      Obeys smallLayout (afterAll (small.files smallLayout)
        ([.write 2 0 3 fun k => .ofNat k].zip rs)) t (.read 2 1 5) r u :=
  calls_obey sound_small rfl [.write 2 0 3 fun k => .ofNat k] (.read 2 1 5)
    fun d hd => by
      rcases List.mem_cons.mp hd with rfl | hd
      · rfl
      · rw [List.mem_singleton.mp hd]
        rfl

end Vol

end Xv6.Fs
