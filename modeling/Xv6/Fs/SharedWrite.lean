import Xv6.Fs.FileArray
import Xv6.Fs.Space
import Xv6.Lib.Machine
import Mathlib.Algebra.BigOperators.Group.Finset.Piecewise
import Mathlib.Algebra.Order.BigOperators.Group.Finset

/-!
# Writing through a shared offset

`filewrite` cuts a large write into chunks, each a transaction of its own: it locks the inode, writes
at `f->off`, moves the offset on and unlocks.  Processes that share the `struct file` can come in
between, and so can operations on other inodes.
-/

namespace Xv6.Fs

open Function (update update_of_ne update_self update_apply)
open Prog Vol

attribute [local irreducible] wp

/-- `max` in `filewrite`: how many bytes are written in one transaction. -/
def chunkMax : Nat := ((maxOpBlocks - 1 - 1 - 2) / 2) * bsize

/-- A chunk of `filewrite`, with the inode locked. -/
def writeChunk (L : Layout) (ip : Nat) (off n : UInt32) (src : Nat → UInt8) : V Int := do
  ilock L ip
  writei L ip off n src n.toNat

/-- The calls of `filewrite` on one `struct file` that is open for writing. -/
structure Shared (P : Type) where
  vol : Vol
  off : UInt32
  done : P → Nat
  ret : P → Option Int
  log : List (P × List UInt8)

inductive Turn (P : Type) where
  | write (p : P)
  | other (v : Vol)

namespace Shared

variable {P : Type} [DecidableEq P]

def init (P : Type) (v : Vol) (off : UInt32) : Shared P := ⟨v, off, fun _ => 0, fun _ => none, []⟩

section Next

variable (L : Layout) (ip : Nat) (n : P → Nat) (buf : P → Nat → UInt8)

/-- The next state; the call of `p` writes `n p` bytes of `buf p`.  A panic stops the machine. -/
def next (s : Shared P) : Turn P → Option (Shared P)
  | .write p => match s.ret p with
    | some _ => none
    | none =>
      if s.done p < n p then
        let n1 := min (n p - s.done p) chunkMax
        let src := fun k => buf p (s.done p + k)
        match writeChunk L ip s.off (.ofNat n1) src { s.vol with inOp := true, logged := [] } with
        | .error _ _ => none
        | .ok r v =>
          let s := { s with
            vol := v
            off := if 0 < r then s.off + UInt32.ofNat r.toNat else s.off
            log := s.log ++ [(p, (List.range r.toNat).map src)] }
          -- error from `writei`
          if r ≠ n1 then some { s with ret := update s.ret p (some (-1)) }
          else some { s with done := update s.done p (s.done p + n1) }
      else
        some { s with ret := update s.ret p (some (if s.done p = n p then n p else -1)) }
  | .other v => some { s with vol := v }

end Next

def bytes (s : Shared P) : List UInt8 := (s.log.map (·.2)).flatten

def parts (s : Shared P) (p : P) : List (List UInt8) := (s.log.filter (·.1 = p)).map (·.2)

end Shared

def chunkCount (n : Nat) : Nat := (n + chunkMax - 1) / chunkMax

def chunk (n : Nat) (buf : Nat → UInt8) (j : Nat) : List UInt8 :=
  (List.range (min (n - j * chunkMax) chunkMax)).map fun k => buf (j * chunkMax + k)

def chunks (n : Nat) (buf : Nat → UInt8) : List (List UInt8) :=
  (List.range (chunkCount n)).map (chunk n buf)

/-! ## One chunk -/

section Chunk

variable {L : Layout} {s t : Vol} {ip lo hi : Nat}

theorem files_of_block (h : t.block = s.block) : t.files L = s.files L := by
  funext i
  rw [files, files, bytesOf, bytesOf, h]

theorem Vol.Enough.of_block (hs : s.Enough L ip lo hi) (h : t.block = s.block) :
    t.Enough L ip lo hi := by
  simp only [Enough, missing, spare, addrOf, h] at hs ⊢
  exact hs

theorem Vol.Sound.of_table (hs : s.Sound L) (h : t.block = s.block)
    (hsync : ∀ j, t.valid j = true → j < L.ninodes ∧ t.mem j = L.dinode s.block j ∧
      (t.mem j).type ≠ 0) : t.Sound L :=
  ⟨h ▸ hs.own, h ▸ hs.whole, h ▸ hsync⟩

theorem Vol.Sound.wp_ilock {Q : Unit → Vol → Prop} {E : Stop → Vol → Prop} (h : s.Sound L)
    (hip : ip < L.ninodes) (htype : (L.dinode s.block ip).type ≠ 0) (href : 0 < s.ref ip)
    (hQ : ∀ t, t.Sound L → t.block = s.block → t.ref = s.ref → t.inOp = s.inOp →
      t.valid ip = true → Q () t) : wp (ilock L ip) Q E s := by
  rw [ilock, wp_bind, wp_get, wp_ite, if_neg (by omega), wp_ite]
  split
  · rw [wp_bind, wp_set, wp_ite, if_neg htype, wp_pure]
    refine hQ _ (h.of_table rfl fun j hj => ?_) rfl rfl rfl (update_self ..)
    by_cases hji : j = ip
    · subst hji
      dsimp only
      rw [mem_setMem]
      exact ⟨hip, rfl, htype⟩
    · dsimp only at hj ⊢
      rw [update_of_ne hji] at hj
      rw [show (s.setMem ip (L.dinode s.block ip)).mem j = s.mem j from update_of_ne hji ..]
      exact h.sync j hj
  · rename_i hv
    exact .pure (hQ s h rfl rfl rfl (by simpa using hv))

/-- **A chunk is written as a whole** if there is enough room. -/
theorem wp_writeChunk {E : Stop → Vol → Prop} {off n : UInt32} {f : Nat → UInt8} {top : Nat}
    (h : s.Sound L) (hop : s.inOp = true) (hip : ip < L.ninodes)
    (htype : (L.dinode s.block ip).type ≠ 0) (href : 0 < s.ref ip)
    (hoff : off.toNat ≤ (L.dinode s.block ip).size.toNat) (hn : off.toNat + n.toNat ≤ top)
    (htop : top ≤ maxFile * bsize) (henough : s.Enough L ip off.toNat top) :
    wp (writeChunk L ip off n f) (fun r t => r = n.toNat ∧ t.Sound L ∧ t.ref = s.ref ∧
      (L.dinode t.block ip).type ≠ 0 ∧ t.files L = update (s.files L) ip
        (overlay (s.files L ip) off.toNat ((List.range n.toNat).map f)) ∧
      t.Enough L ip (off.toNat + n.toNat) top) E s := by
  rw [writeChunk, wp_bind]
  refine h.wp_ilock hip htype href fun u hu hblock href' hop' hv => ?_
  obtain ⟨-, hmem, htype'⟩ := hu.sync ip hv
  have hsize : (u.mem ip).size = (L.dinode s.block ip).size := by rw [hmem, hblock]
  refine hu.wp_writei hv (hop'.trans hop) (fun hbad => ?_) fun hoff' _ r hi t hr _ hcopy hfull hw ht => ?_
  · rw [hsize] at hbad
    simp only [maxFile, bsize, ndirect, nindirect] at *
    omega
  · rw [hcopy (Nat.le_refl _)] at hw
    have henough' := hw.enough hu ht hn (henough.of_block hblock)
    -- a short write would mean that the disk is full
    have hrn : r = n.toNat := by
      by_contra hne
      obtain ⟨hbits, h0⟩ := hfull (by omega) (Nat.le_refl _)
      exact henough'.not_full (k := off.toNat + r) (by omega) (by omega) h0 hbits
    subst hrn
    refine ⟨rfl, ht, hw.ref.trans href', ?_, ?_, henough'.mono (by omega)⟩
    · obtain ⟨-, hmem', htype''⟩ := ht.sync ip (by rwa [hw.valid])
      rwa [← hmem']
    · rw [hw.files_eq hu hv ht hoff', files_of_block hblock]

end Chunk

/-! ## Runs -/

theorem overlay_overlay {a b c : List UInt8} {off : Nat} (h : off ≤ a.length) :
    overlay (overlay a off b) (off + b.length) c = overlay a off (b ++ c) := by
  have hlen : (a.take off ++ b).length = off + b.length := by
    rw [List.length_append, List.length_take, Nat.min_eq_left h]
  have htake : (a.take off ++ b ++ a.drop (off + b.length)).take (off + b.length) = a.take off ++ b :=
    List.take_left' hlen
  have hdrop : (a.take off ++ b ++ a.drop (off + b.length)).drop (off + b.length + c.length) =
      a.drop (off + (b ++ c).length) := by
    rw [← List.drop_drop, List.drop_left' hlen, List.drop_drop, List.length_append, Nat.add_assoc]
  rw [overlay, overlay, htake, hdrop, overlay, List.append_assoc _ b c]

namespace Shared

variable {P : Type} [DecidableEq P] [Fintype P] {L : Layout} {ip : Nat} {n : P → Nat}
  {buf : P → Nat → UInt8} {v : Vol} {off : UInt32} {s t : Shared P}

/-- What holds between the chunks of calls that began with the disk `v` and the offset `off`. -/
structure Inv (L : Layout) (ip : Nat) (n : P → Nat) (buf : P → Nat → UInt8) (v : Vol) (off : UInt32)
    (s : Shared P) : Prop where
  sound : s.vol.Sound L
  type : (L.dinode s.vol.block ip).type ≠ 0
  ref : 0 < s.vol.ref ip
  off_eq : s.off.toNat = off.toNat + s.bytes.length
  files : s.vol.files L ip = overlay (v.files L ip) off.toNat s.bytes
  enough : s.vol.Enough L ip s.off.toNat (off.toNat + ∑ p, n p)
  written : s.bytes.length = ∑ p, s.done p
  call : ∀ p, ∃ j ≤ chunkCount (n p), s.parts p = (List.range j).map (chunk (n p) (buf p)) ∧
    s.done p = min (j * chunkMax) (n p)
  ret : ∀ p r, s.ret p = some r → r = n p ∧ s.done p = n p

def left (n : P → Nat) (s : Shared P) (p : P) : Nat :=
  if (s.ret p).isSome then 0 else chunkCount (n p) - (s.parts p).length + 1

omit [Fintype P] in
theorem parts_append (p q : P) (b : List UInt8) (l : List (P × List UInt8)) :
    ((l ++ [(p, b)]).filter (·.1 = q)).map (·.2) =
      (l.filter (·.1 = q)).map (·.2) ++ if p = q then [b] else [] := by
  rw [List.filter_append, List.map_append]
  congr 1
  by_cases h : p = q
  · simp [h]
  · simp [h]

theorem sum_update (f : P → Nat) (p : P) (m : Nat) :
    ∑ q, update f p (f p + m) q = (∑ q, f q) + m := by
  have heq : ∀ q, update f p (f p + m) q = f q + if q = p then m else 0 := by
    intro q
    rw [update_apply]
    split
    · rename_i h
      rw [h]
    · rfl
  simp only [heq, Finset.sum_add_distrib, Finset.sum_ite_eq', Finset.mem_univ, if_true]

section Turn

variable {p : P} (h : Inv L ip n buf v off s) (hret : s.ret p = none)
include h hret

theorem Inv.write_return (hlt : ¬s.done p < n p) :
    ∃ t, next L ip n buf s (.write p) = some t ∧ Inv L ip n buf v off t ∧
      (∀ q, left n t q + (if q = p then 1 else 0) = left n s q) ∧
      ∀ j ≠ ip, t.vol.files L j = s.vol.files L j := by
  have hM : chunkMax = 3072 := rfl
  obtain ⟨j, hj, hparts, hdone⟩ := h.call p
  have hlen : (s.parts p).length = j := by rw [hparts, List.length_map, List.length_range]
  have hdn : s.done p = n p := by omega
  obtain ⟨t, ht⟩ : ∃ t : Shared P, t = { s with ret := update s.ret p (some (n p)) } :=
    ⟨_, rfl⟩
  have hnext : next L ip n buf s (.write p) = some t := by
    rw [next, hret]
    dsimp only
    rw [if_neg hlt, if_pos hdn, ht]
  refine ⟨t, hnext, ?_, fun q => ?_, fun i hi => by rw [ht]⟩
  · rw [ht]
    refine ⟨h.sound, h.type, h.ref, h.off_eq, h.files, h.enough, h.written, h.call, fun q r hq => ?_⟩
    change update s.ret p (some ↑(n p)) q = some r at hq
    rw [update_apply] at hq
    split at hq
    · rename_i hqp
      rw [hqp]
      exact ⟨(Option.some_inj.mp hq).symm, hdn⟩
    · exact h.ret q r hq
  · rw [ht, left, left]
    change (if (update s.ret p (some ↑(n p)) q).isSome then 0 else
      chunkCount (n q) - (s.parts q).length + 1) + _ = _
    rw [update_apply]
    by_cases hqp : q = p
    · subst hqp
      have hcount : chunkCount (n q) = j := by
        rw [hM] at hdone
        rw [chunkCount, hM] at hj ⊢
        omega
      simp [hret, hlen, hcount]
    · simp [hqp]

variable (hip : ip < L.ninodes) (hoff : off.toNat ≤ (v.files L ip).length)
  (hmax : off.toNat + ∑ p, n p ≤ maxFile * bsize)
include hip hoff hmax

theorem Inv.write_chunk (hlt : s.done p < n p) :
    ∃ t, next L ip n buf s (.write p) = some t ∧ Inv L ip n buf v off t ∧
      (∀ q, left n t q + (if q = p then 1 else 0) = left n s q) ∧
      ∀ j ≠ ip, t.vol.files L j = s.vol.files L j := by
  have hM : chunkMax = 3072 := rfl
  obtain ⟨j, hj, hparts, hdone⟩ := h.call p
  have hlen : (s.parts p).length = j := by rw [hparts, List.length_map, List.length_range]
  have hjM : s.done p = j * chunkMax := by omega
  obtain ⟨n1, hn1⟩ : ∃ n1, n1 = min (n p - s.done p) chunkMax := ⟨_, rfl⟩
  have hn1' : (UInt32.ofNat n1).toNat = n1 := UInt32.toNat_ofNat_of_lt' (by simp only [UInt32.size]; omega)
  have hsum : (∑ q, s.done q) + n1 ≤ ∑ q, n q := by
    rw [← sum_update s.done p]
    refine Finset.sum_le_sum fun q _ => ?_
    rw [update_apply]
    split
    · rename_i hq
      rw [hq]
      omega
    · obtain ⟨j', -, -, hdone'⟩ := h.call q
      omega
  have hsize : s.off.toNat ≤ (L.dinode s.vol.block ip).size.toNat := by
    rw [← length_files hip h.type, h.files, length_overlay hoff, h.off_eq]
    omega
  have hwritten := h.written
  have hoffeq := h.off_eq
  obtain ⟨r, u, hok, rfl, hu, href, htype, hfiles, henough⟩ :=
    (wp_writeChunk (E := fun _ _ => False) (f := fun k => buf p (s.done p + k)) (n := .ofNat n1)
      (s := { s.vol with inOp := true, logged := [] }) (h.sound.of_table rfl h.sound.sync) rfl hip
      h.type h.ref hsize (by rw [hn1']; omega) hmax (h.enough.of_block rfl)).exists_ok
  rw [hn1'] at hok hfiles henough
  have hbytes : ((List.range n1).map fun k => buf p (s.done p + k)) = chunk (n p) (buf p) j := by
    rw [chunk, ← hjM, ← hn1]
  obtain ⟨t, ht⟩ : ∃ t : Shared P, t = { s with
    vol := u
    off := s.off + .ofNat n1
    log := s.log ++ [(p, chunk (n p) (buf p) j)]
    done := update s.done p (s.done p + n1) } := ⟨_, rfl⟩
  have hnext : next L ip n buf s (.write p) = some t := by
    rw [next, hret]
    dsimp only
    rw [if_pos hlt, ← hn1, hok]
    dsimp only
    rw [if_neg (by simp), if_pos (by omega), Int.toNat_natCast, hbytes, ht]
  have hlen' : (chunk (n p) (buf p) j).length = n1 := by
    rw [← hbytes, List.length_map, List.length_range]
  have hb : t.bytes = s.bytes ++ chunk (n p) (buf p) j := by
    rw [ht]
    simp [bytes]
  have hoff' : t.off.toNat = s.off.toNat + n1 := by
    rw [ht]
    dsimp only
    rw [UInt32.toNat_add, hn1']
    simp only [maxFile, bsize, ndirect, nindirect] at hmax
    omega
  have hparts' : ∀ q, t.parts q = s.parts q ++ if p = q then [chunk (n p) (buf p) j] else [] := by
    intro q
    rw [ht]
    exact parts_append p q _ s.log
  refine ⟨t, hnext, ⟨?_, ?_, ?_, ?_, ?_, ?_, ?_, fun q => ?_, fun q r hq => ?_⟩, fun q => ?_,
    fun i hi => ?_⟩
  · rw [ht]
    exact hu
  · rw [ht]
    exact htype
  · rw [ht]
    exact href ▸ h.ref
  · rw [hoff', hb, List.length_append, hlen', hoffeq, Nat.add_assoc]
  · rw [hb, ← overlay_overlay hoff, ← h.files, ← hoffeq, ← hbytes]
    rw [ht]
    dsimp only
    rw [hfiles, update_self]
    rfl
  · rw [hoff']
    rw [ht]
    exact henough
  · rw [hb, List.length_append, hlen', hwritten, ← sum_update s.done p, ht]
  · rw [hparts']
    by_cases hpq : p = q
    · subst hpq
      rw [if_pos rfl]
      refine ⟨j + 1, ?_, ?_, ?_⟩
      · rw [hM] at hjM
        rw [chunkCount, hM]
        omega
      · rw [hparts, List.range_succ, List.map_append, List.map_singleton]
      · rw [ht]
        dsimp only
        rw [update_self, hn1, hjM, Nat.succ_mul]
        omega
    · obtain ⟨j', hj', hparts'', hdone'⟩ := h.call q
      rw [if_neg hpq, List.append_nil]
      refine ⟨j', hj', hparts'', ?_⟩
      rw [ht]
      exact (update_of_ne (Ne.symm hpq) ..).trans hdone'
  · rw [ht] at hq ⊢
    have hqp : q ≠ p := by
      rintro rfl
      exact absurd (hret.symm.trans hq) (by simp)
    obtain ⟨hr, hd⟩ := h.ret q r hq
    exact ⟨hr, (update_of_ne hqp ..).trans hd⟩
  · have hret' : t.ret = s.ret := by rw [ht]
    rw [left, left, hparts', hret']
    by_cases hqp : q = p
    · subst hqp
      have hlt' : j < chunkCount (n q) := by
        rw [hM] at hjM
        rw [chunkCount, hM]
        omega
      simp only [hret, Option.isSome_none, Bool.false_eq_true, if_false, if_true,
        List.length_append, List.length_singleton, hlen]
      omega
    · rw [if_neg (Ne.symm hqp), List.append_nil, if_neg hqp, Nat.add_zero]
  · rw [ht]
    dsimp only
    rw [hfiles, update_of_ne hi]
    rfl

/-- **One turn of a call**: it writes its next chunk behind all others, or returns. -/
theorem Inv.write :
    ∃ t, next L ip n buf s (.write p) = some t ∧ Inv L ip n buf v off t ∧
      (∀ q, left n t q + (if q = p then 1 else 0) = left n s q) ∧
      ∀ j ≠ ip, t.vol.files L j = s.vol.files L j := by
  by_cases hlt : s.done p < n p
  · exact h.write_chunk hret hip hoff hmax hlt
  · exact h.write_return hret hlt

end Turn

/-- What else happens leaves the inode alone, and enough room for what is still to be written. -/
structure Elsewhere (L : Layout) (ip top : Nat) (s : Shared P) (v : Vol) : Prop where
  sound : v.Sound L
  type : (L.dinode v.block ip).type ≠ 0
  ref : 0 < v.ref ip
  files : v.files L ip = s.vol.files L ip
  enough : v.Enough L ip s.off.toNat top

def Quiet (L : Layout) (ip top : Nat) (s : Shared P) : Turn P → Prop
  | .write _ => True
  | .other v => Elsewhere L ip top s v

def Turn.by (p : P) : Turn P → Bool
  | .write q => q = p
  | .other _ => false

theorem Inv.run (h : Inv L ip n buf v off s) (hip : ip < L.ninodes)
    (hoff : off.toNat ≤ (v.files L ip).length) (hmax : off.toNat + ∑ p, n p ≤ maxFile * bsize)
    {as : List (Turn P)} (hrun : Machine.run (next L ip n buf) s as = some t)
    (hquiet : Machine.Along (next L ip n buf) (Quiet L ip (off.toNat + ∑ p, n p)) s as) :
    Inv L ip n buf v off t ∧ (∀ p, left n t p + as.countP (Turn.by p) = left n s p) ∧
      ((∀ a ∈ as, ∃ p, a = .write p) → ∀ j ≠ ip, t.vol.files L j = s.vol.files L j) := by
  induction as generalizing s with
  | nil =>
    rw [Machine.run, Option.some_inj] at hrun
    subst hrun
    exact ⟨h, fun _ => rfl, fun _ _ _ => rfl⟩
  | cons a as ih =>
    obtain ⟨m, hm, hrun'⟩ := Machine.run_cons_eq_some.mp hrun
    rw [Machine.along_cons hm] at hquiet
    cases a with
    | write p =>
      have hret : s.ret p = none := by
        cases hr : s.ret p with
        | none => rfl
        | some r =>
          rw [next, hr] at hm
          exact absurd hm (by simp)
      obtain ⟨m', hm', hinv, hleft, hfiles⟩ := h.write hret hip hoff hmax
      obtain rfl := Option.some_inj.mp (hm.symm.trans hm')
      obtain ⟨ht, hcount, hrest⟩ := ih hinv hrun' hquiet.2
      refine ⟨ht, fun q => ?_, fun hall j hj => ?_⟩
      · rw [List.countP_cons, ← hleft q, ← hcount q, Nat.add_assoc]
        by_cases hqp : q = p
        · simp [Turn.by, hqp]
        · simp [Turn.by, hqp, Ne.symm hqp]
      · rw [hrest (fun a ha => hall a (List.mem_cons_of_mem _ ha)) j hj, hfiles j hj]
    | other v' =>
      cases hm
      have hq : Elsewhere L ip _ s v' := hquiet.1
      have hinv : Inv L ip n buf v off { s with vol := v' } :=
        ⟨hq.sound, hq.type, hq.ref, h.off_eq, hq.files.trans h.files, hq.enough, h.written, h.call,
          h.ret⟩
      obtain ⟨ht, hcount, hrest⟩ := ih hinv hrun' hquiet.2
      refine ⟨ht, fun q => ?_, fun hall => ?_⟩
      · rw [List.countP_cons, Turn.by, if_neg (by simp), Nat.add_zero]
        exact hcount q
      · obtain ⟨p, hp⟩ := hall (.other v') List.mem_cons_self
        exact absurd hp (by simp)

theorem inv_init (hsound : v.Sound L) (htype : (L.dinode v.block ip).type ≠ 0)
    (href : 0 < v.ref ip) (henough : v.Enough L ip off.toNat (off.toNat + ∑ p, n p)) :
    Inv L ip n buf v off (init P v off) where
  sound := hsound
  type := htype
  ref := href
  off_eq := rfl
  files := (overlay_nil ..).symm
  enough := henough
  written := by simp [init, bytes]
  call p := ⟨0, Nat.zero_le _, rfl, by simp [init]⟩
  ret p r hr := absurd hr (by simp [init])

theorem Inv.parts_eq (h : Inv L ip n buf v off s) {p : P} (hret : s.ret p ≠ none) :
    s.parts p = chunks (n p) (buf p) := by
  obtain ⟨r, hr⟩ := Option.ne_none_iff_exists'.mp hret
  obtain ⟨-, hd⟩ := h.ret p r hr
  obtain ⟨j, hj, hparts, hdone⟩ := h.call p
  have hM : chunkMax = 3072 := rfl
  have hcount : chunkCount (n p) = j := by
    rw [hM] at hdone
    rw [chunkCount, hM] at hj ⊢
    omega
  rw [hparts, chunks, hcount]

theorem Inv.parts_prefix (h : Inv L ip n buf v off s) (p : P) :
    s.parts p <+: chunks (n p) (buf p) := by
  obtain ⟨j, hj, hparts, -⟩ := h.call p
  rw [hparts, chunks]
  refine List.IsPrefix.map _ ?_
  obtain ⟨k, hk⟩ := Nat.exists_eq_add_of_le hj
  rw [hk, List.range_add]
  exact List.prefix_append _ _

theorem flatten_chunks (n : Nat) (buf : Nat → UInt8) :
    (chunks n buf).flatten = (List.range n).map buf := by
  have hM : chunkMax = 3072 := rfl
  have hprefix : ∀ j, ((List.range j).map (chunk n buf)).flatten =
      (List.range (min (j * chunkMax) n)).map buf := by
    intro j
    induction j with
    | zero => simp
    | succ j ih =>
      rw [List.range_succ, List.map_append, List.flatten_append, ih, List.map_singleton,
        List.flatten_singleton, chunk]
      have hsplit : min ((j + 1) * chunkMax) n =
          min (j * chunkMax) n + min (n - j * chunkMax) chunkMax := by
        rw [hM]
        omega
      rw [hsplit, List.range_add, List.map_append, List.map_map]
      congr 1
      by_cases hlt : j * chunkMax ≤ n
      · rw [Nat.min_eq_left hlt]
        rfl
      · rw [Nat.sub_eq_zero_of_le (by omega)]
        simp
  rw [chunks, hprefix]
  congr 2
  rw [chunkCount, hM]
  omega

theorem Inv.bytes_eq (h : Inv L ip n buf v off s) {p : P} (hone : ∀ q ≠ p, n q = 0) :
    s.bytes = (s.parts p).flatten := by
  have hall : ∀ x ∈ s.log, x.1 = p := by
    intro x hx
    by_contra hne
    have hparts := h.parts_prefix x.1
    rw [hone x.1 hne] at hparts
    have hmem : x.2 ∈ s.parts x.1 :=
      List.mem_map_of_mem (List.mem_filter.mpr ⟨hx, by simp⟩)
    have hnil : chunks 0 (buf x.1) = [] := rfl
    exact List.not_mem_nil (hnil ▸ hparts.subset hmem)
  rw [bytes, parts, List.filter_eq_self.mpr fun x hx => by simpa using hall x hx]

/-- **Writes through a shared offset do not overlap.**  Every call returns its `n`, after one turn for
each chunk and one more.  The file is as before with the chunks laid over it from the offset on, one
behind the other in the order in which they were written, and those of each call in order.  What a
single call does is what one `writei` of all its bytes does. -/
theorem shared_writes {as : List (Turn P)} (hip : ip < L.ninodes) (hsound : v.Sound L)
    (htype : (L.dinode v.block ip).type ≠ 0) (href : 0 < v.ref ip)
    (hoff : off.toNat ≤ (L.dinode v.block ip).size.toNat)
    (hmax : off.toNat + ∑ p, n p ≤ maxFile * bsize)
    (henough : v.Enough L ip off.toNat (off.toNat + ∑ p, n p))
    (hrun : Machine.run (next L ip n buf) (init P v off) as = some s)
    (hquiet : Machine.Along (next L ip n buf) (Quiet L ip (off.toNat + ∑ p, n p)) (init P v off)
      as) :
    (∀ p r, s.ret p = some r → r = n p) ∧
    (∀ p, s.ret p = none → (next L ip n buf s (.write p)).isSome) ∧
    (∀ p, s.ret p = none ↔ as.countP (Turn.by p) ≤ chunkCount (n p)) ∧
    s.vol.files L ip = overlay (v.files L ip) off.toNat s.bytes ∧
    s.off.toNat = off.toNat + s.bytes.length ∧
    (∀ p, s.parts p <+: chunks (n p) (buf p)) ∧
    ((∀ p, s.ret p ≠ none) → s.off.toNat = off.toNat + ∑ p, n p ∧
      ∀ p, s.parts p = chunks (n p) (buf p)) ∧
    ∀ p, (∀ q ≠ p, n q = 0) → s.ret p ≠ none →
      ∃ u, writeChunk L ip off (.ofNat (n p)) (buf p) { v with inOp := true, logged := [] } =
          .ok (n p) u ∧
        u.files L ip = s.vol.files L ip ∧
        ((∀ a ∈ as, ∃ q, a = .write q) → u.files L = s.vol.files L) := by
  have hoff' : off.toNat ≤ (v.files L ip).length := by rwa [length_files hip htype]
  obtain ⟨hinv, hleft, hrest⟩ :=
    (inv_init hsound htype href henough).run (n := n) hip hoff' hmax hrun hquiet
  refine ⟨fun p r hr => (hinv.ret p r hr).1, fun p hp => ?_, fun p => ?_, hinv.files, hinv.off_eq,
    hinv.parts_prefix, fun hall => ⟨?_, fun p => hinv.parts_eq (hall p)⟩, fun p hone hp => ?_⟩
  · obtain ⟨t, ht, -⟩ := hinv.write hp hip hoff' hmax
    rw [ht]
    rfl
  · have hcount := hleft p
    have hinit : left n (init P v off) p = chunkCount (n p) + 1 := rfl
    rw [hinit, left] at hcount
    cases hr : s.ret p with
    | none =>
      rw [hr] at hcount
      simp only [Option.isSome_none, Bool.false_eq_true, if_false] at hcount
      exact iff_of_true rfl (by omega)
    | some r =>
      rw [hr] at hcount
      simp only [Option.isSome_some, if_true] at hcount
      exact iff_of_false (by simp) (by omega)
  · rw [hinv.off_eq, hinv.written]
    congr 1
    refine Finset.sum_congr rfl fun p _ => ?_
    obtain ⟨r, hr⟩ := Option.ne_none_iff_exists'.mp (hall p)
    exact (hinv.ret p r hr).2
  · have hsum : ∑ q, n q = n p := Finset.sum_eq_single p (fun q _ hq => hone q hq) (by simp)
    rw [hsum] at hmax henough
    have hn : (UInt32.ofNat (n p)).toNat = n p := by
      refine UInt32.toNat_ofNat_of_lt' ?_
      simp only [maxFile, bsize, ndirect, nindirect, UInt32.size] at *
      omega
    obtain ⟨r, u, hok, rfl, -, -, -, hfiles, -⟩ :=
      (wp_writeChunk (E := fun _ _ => False) (f := buf p) (n := .ofNat (n p))
        (s := { v with inOp := true, logged := [] }) (hsound.of_table rfl hsound.sync) rfl hip htype
        href hoff (by rw [hn]) hmax (henough.of_block rfl)).exists_ok
    rw [hn] at hok hfiles
    have hself : u.files L ip = s.vol.files L ip := by
      rw [hinv.files, hinv.bytes_eq hone, hinv.parts_eq hp, flatten_chunks, hfiles,
        update_self]
      rfl
    refine ⟨u, hok, hself, fun hall => ?_⟩
    funext j
    by_cases hj : j = ip
    · rw [hj, hself]
    · rw [hfiles, update_of_ne hj]
      exact (hrest hall j hj).symm

omit [Fintype P] in
theorem along_quiet {top : Nat} {as : List (Turn P)} (h : ∀ a ∈ as, ∃ p, a = .write p) :
    Machine.Along (next L ip n buf) (Quiet L ip top) s as := by
  induction as generalizing s with
  | nil => trivial
  | cons a as ih =>
    obtain ⟨p, rfl⟩ := h a List.mem_cons_self
    refine ⟨trivial, ?_⟩
    cases next L ip n buf s (.write p) with
    | none => trivial
    | some t => exact ih fun a ha => h a (List.mem_cons_of_mem _ ha)

/-- Two processes write to the file of the small disk in turn. -/
theorem shared_writes_small : ∃ s,
    Machine.run (next smallLayout 2 (fun p => if p then 2 else 1) fun p _ => if p then 7 else 9)
      (init Bool small 0) [.write true, .write false, .write false, .write true] = some s ∧
    s.off.toNat = 3 ∧ s.parts true = [[7, 7]] ∧ s.parts false = [[9]] := by
  have heval : ((Machine.run
      (next smallLayout 2 (fun p => if p then 2 else 1) fun p _ => if p then 7 else 9)
      (init Bool small 0) [.write true, .write false, .write false, .write true]).map fun s =>
        (s.ret true, s.ret false)) = some (some 2, some 1) := by decide +kernel
  obtain ⟨s, hs, hret⟩ := Option.map_eq_some_iff.mp heval
  simp only [Prod.mk.injEq] at hret
  obtain ⟨-, -, -, -, -, -, hend, -⟩ := shared_writes (by decide) sound_small (by decide) (by decide)
    (by decide) (by decide) (by decide +kernel) hs (along_quiet (by simp))
  obtain ⟨hoff, hparts⟩ := hend (by simp [hret])
  exact ⟨s, hs, hoff, hparts true, hparts false⟩

end Shared

end Xv6.Fs
