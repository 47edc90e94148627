import Xv6.Bio.List

/-!
# Which buffer is recycled

`bget` and `brelse` are meant to recycle the buffer that was released least recently.  A pin also is a
reference, and `bunpin` does not touch the list, so whether this is so depends on how the log pins.

The system is the buffers of `Xv6.Bio.List` together with the log.  `Inv` is the part of the log: a
buffer is pinned once if its block is still to be installed, and otherwise not at all.  So only
`brelse` drops the last reference (`Inv.links`), and the list is `Ordered`.
-/

namespace Xv6.Lru

open Machine BufList
open Option (ite_none_right_eq_some map_eq_some_iff some_inj)

structure Sys where
  bcache : BufList.Sys (Fin nproc)
  log : Log
  tail : Nat
  now : Nat
  /-- History: when the references of a buffer went to 0 for the last time, 0 if they never did. -/
  freed : BufId → Nat

inductive Act where
  | buf (a : BufList.Act (Fin nproc))
  | beginOp
  | logWrite (p : Fin nproc) (i : BufId)
  | endOp
  /-- `install_trans` unpins the buffer that it has written to its home block. -/
  | unpin (p : Fin nproc) (i : BufId)
  | committed
  deriving DecidableEq, Repr

namespace Sys

/-- The system after `initlog`, with nothing in the cache. -/
def init (start size : Nat) : Sys where
  bcache := .init (Fin nproc)
  log := .init start size rootDev
  tail := 0
  now := 0
  freed := fun _ => 0

def IsBlock (s : Sys) (i : BufId) (b : Nat) : Prop :=
  (s.bcache.buf i).dev.toNat = s.log.dev ∧ (s.bcache.buf i).blockno.toNat = b

instance (s : Sys) (i : BufId) (b : Nat) : Decidable (s.IsBlock i b) :=
  inferInstanceAs (Decidable (_ ∧ _))

/-- What a step does to the buffers and to the log.  The callers of `log_write` and `install_trans` hold
the buffer, and log blocks of one device only; buffers are pinned and unpinned nowhere else. -/
def act (s : Sys) : Act → Option Sys
  | .buf (.bpin _) => none
  | .buf (.bunpin _) => none
  | .buf a => (BufList.next s.bcache a).map fun c => { s with bcache := c }
  | .beginOp => s.log.beginOp.map fun lg => { s with log := lg }
  | .logWrite p i =>
    if (s.bcache.buf i).lock = some p ∧ (s.bcache.buf i).dev.toNat = s.log.dev then
      match s.log.logWrite (s.bcache.buf i).blockno.toNat with
      | .ok (lg, true) => (BufList.next s.bcache (.bpin i)).map fun c => { s with bcache := c, log := lg }
      | .ok (lg, false) => some { s with log := lg }
      | .error _ => none
    else none
  | .endOp => match s.log.endOp with
    | .ok (lg, _) => some { s with log := lg }
    | .error _ => none
  | .unpin p i =>
    if s.log.committing ∧ (s.bcache.buf i).lock = some p ∧
        ∃ b ∈ s.log.lh[s.tail]?, s.IsBlock i b then
      (BufList.next s.bcache (.bunpin i)).map fun c => { s with bcache := c, tail := s.tail + 1 }
    else none
  | .committed =>
    if s.log.committing ∧ s.tail = s.log.lh.length then
      some { s with log := { s.log with lh := [], committing := false }, tail := 0 }
    else none

def stamp (s t : Sys) : Sys :=
  { t with
    now := s.now + 1
    freed := fun i => if (s.bcache.buf i).refcnt ≠ 0 ∧ (t.bcache.buf i).refcnt = 0 then s.now + 1
      else s.freed i }

end Sys

def next (s : Sys) (a : Act) : Option Sys := (s.act a).map s.stamp

/-! ## What a step does to the buffers -/

def block (c : BufList.Sys (Fin nproc)) (i : BufId) : UInt32 × UInt32 :=
  ((c.buf i).dev, (c.buf i).blockno)

/-- What `bread` and `brelse` do to the one buffer that a step is about. -/
inductive Moved (c d : BufList.Sys (Fin nproc)) (i : BufId) : Prop where
  | stay : d.links = c.links → block d i = block c i → (d.buf i).refcnt = (c.buf i).refcnt →
    Moved c d i
  | hit : d.links = c.links → block d i = block c i → (d.buf i).refcnt = (c.buf i).refcnt + 1 →
    Moved c d i
  | recycle : d.links = c.links → (∀ j, block c j ≠ block d i) → (c.buf i).refcnt = 0 →
    (d.buf i).refcnt = 1 → Moved c d i
  | release (p : Fin nproc) : c.pc p = .releasing i →
    d.links = (if (d.buf i).refcnt = 0 then (c.links.remove i).pushFront i else c.links) →
    block d i = block c i → (d.buf i).refcnt = (c.buf i).refcnt - 1 → Moved c d i

section Moved

variable {c d : BufList.Sys (Fin nproc)} {a : BufList.Act (Fin nproc)} {i : BufId}

theorem block_set_self (c : BufList.Sys (Fin nproc)) (i : BufId) (b : Entry (Fin nproc)) :
    block (c.set i b) i = (b.dev, b.blockno) := by
  rw [block, BufList.Sys.set_buf, if_pos rfl]

theorem moved_of_next (h : BufList.Inv c) (hpin : ∀ i, a ≠ .bpin i) (hunpin : ∀ i, a ≠ .bunpin i)
    (hnext : BufList.next c a = some d) :
    ∃ i, (∀ j ≠ i, d.buf j = c.buf j) ∧ d.pins = c.pins ∧ Moved c d i := by
  cases a with
  | bget p dev blockno =>
    rw [BufList.next, ite_none_right_eq_some] at hnext
    obtain ⟨-, hnext⟩ := hnext
    obtain ⟨l, hl, hall⟩ := h.list
    split at hnext
    · rename_i i t hget
      cases hnext
      obtain ⟨b, hfound, rfl⟩ := BufList.Sys.found_of_bget hl hall hget
      refine ⟨i, set_buf_of_ne c b, rfl, ?_⟩
      have hblock : block ((c.set i b).goto p (.waiting i)) i = (b.dev, b.blockno) :=
        block_set_self c i b
      have hrefcnt : (((c.set i b).goto p (.waiting i)).buf i).refcnt = b.refcnt := by
        simp [BufList.Sys.goto]
      cases hfound with
      | hit => exact .hit rfl hblock hrefcnt
      | recycle hnew href =>
        refine .recycle rfl (fun j hj => hnew j ?_) href hrefcnt
        rw [hblock] at hj
        exact ⟨congrArg Prod.fst hj, congrArg Prod.snd hj⟩
    · cases hnext
  | acquiresleep p =>
    rw [BufList.next] at hnext
    split at hnext
    · rename_i i _
      rw [ite_none_right_eq_some, some_inj] at hnext
      obtain ⟨-, rfl⟩ := hnext
      exact ⟨i, set_buf_of_ne c _, rfl, .stay rfl (block_set_self c i _) (by simp [BufList.Sys.goto])⟩
    · cases hnext
  | bread p i =>
    rw [BufList.next, ite_none_right_eq_some, some_inj] at hnext
    obtain ⟨-, rfl⟩ := hnext
    exact ⟨i, set_buf_of_ne c _, rfl, .stay rfl (block_set_self c i _) (by simp)⟩
  | brelse p i =>
    rw [BufList.next, ite_none_right_eq_some, some_inj] at hnext
    obtain ⟨-, rfl⟩ := hnext
    exact ⟨i, set_buf_of_ne c _, rfl, .stay rfl (block_set_self c i _) (by simp [BufList.Sys.goto])⟩
  | relink p =>
    rw [BufList.next] at hnext
    split at hnext
    · rename_i i hpc
      cases hnext
      have hbuf : ((c.relink i).goto p .ready).buf =
          (c.set i { c.buf i with refcnt := (c.buf i).refcnt - 1 }).buf := relink_buf c i
      have hrefcnt : (((c.relink i).goto p .ready).buf i).refcnt = (c.buf i).refcnt - 1 := by
        rw [hbuf, BufList.Sys.set_buf, if_pos rfl]
      refine ⟨i, fun j hj => ?_, (relink_rest c i).2, .release p hpc ?_ ?_ hrefcnt⟩
      · rw [hbuf]
        exact set_buf_of_ne c _ j hj
      · rw [hrefcnt]
        simp only [BufList.Sys.goto, BufList.Sys.relink, BufList.Sys.set_buf, if_true]
        split <;> rfl
      · rw [block, hbuf]
        exact block_set_self c i _
    · cases hnext
  | bpin i => exact absurd rfl (hpin i)
  | bunpin i => exact absurd rfl (hunpin i)

end Moved

/-! ## The pins of the log -/

def Sys.pending (s : Sys) : List Nat := s.log.lh.drop s.tail

/-- The log and the pins.  A buffer is pinned once if its block is still to be installed, and all
these blocks have buffers. -/
structure Inv (s : Sys) : Prop where
  buf : BufList.Inv s.bcache
  dev : s.log.dev ≠ 0
  busy : s.log.committing = true → s.log.outstanding = 0
  start : s.log.committing = false → s.tail = 0
  nodup : s.log.lh.Nodup
  pin : ∀ i, s.bcache.pins i = if ∃ b ∈ s.pending, s.IsBlock i b then 1 else 0
  cached : ∀ b ∈ s.pending, ∃ i, s.IsBlock i b

section Pins

variable {s t : Sys} {c : BufList.Sys (Fin nproc)} {i j : BufId} {p : Fin nproc} {a : Act}

theorem IsBlock.congr {b : Nat} (hlog : t.log.dev = s.log.dev)
    (hblock : block t.bcache i = block s.bcache i) : t.IsBlock i b ↔ s.IsBlock i b := by
  obtain ⟨hdev, hblockno⟩ := Prod.mk.inj hblock
  rw [Sys.IsBlock, Sys.IsBlock, hlog, hdev, hblockno]

section

variable (h : Inv s)
include h

theorem Inv.pins_le (i : BufId) : s.bcache.pins i ≤ 1 := by
  rw [h.pin]
  split <;> omega

theorem Inv.refcnt (i : BufId) : ∃ n : Nat, n ≤ nproc ∧
    Counts (Pc.Uses i) s.bcache.pc n ∧
    (s.bcache.buf i).refcnt.toNat = n + s.bcache.held i + s.bcache.pins i := by
  obtain ⟨n, hn, href⟩ := h.buf.count i
  have hle : n ≤ nproc := by
    have := hn.le_card
    rw [Fintype.card_fin] at this
    exact Int.ofNat_le.mp this
  have hheld : s.bcache.held i ≤ 1 := by
    rw [BufList.Sys.held]
    split <;> omega
  have hpins := h.pins_le i
  have hnproc : nproc < 100 := by decide
  refine ⟨n, hle, hn, ?_⟩
  rw [href, UInt32.toNat_ofNat']
  exact Nat.mod_eq_of_lt (by omega)

theorem Inv.refcnt_le (i : BufId) : (s.bcache.buf i).refcnt.toNat ≤ nproc + 2 := by
  obtain ⟨n, hle, -, href⟩ := h.refcnt i
  have hheld : s.bcache.held i ≤ 1 := by
    rw [BufList.Sys.held]
    split <;> omega
  have hpins := h.pins_le i
  omega

theorem Inv.refcnt_ne_zero (hpin : 0 < s.bcache.pins i) : (s.bcache.buf i).refcnt ≠ 0 := by
  obtain ⟨n, -, -, href⟩ := h.refcnt i
  intro hzero
  rw [hzero, UInt32.toNat_zero] at href
  omega

theorem Inv.refcnt_sub_one (hlock : (s.bcache.buf i).lock = some p)
    (hpin : 0 < s.bcache.pins i) : (s.bcache.buf i).refcnt - 1 ≠ 0 := by
  obtain ⟨n, -, -, href⟩ := h.refcnt i
  have hheld : s.bcache.held i = 1 := by rw [BufList.Sys.held, hlock]; rfl
  intro hzero
  have hone : (s.bcache.buf i).refcnt = 1 := by grind
  rw [hone] at href
  have : (1 : UInt32).toNat = 1 := rfl
  omega

theorem Inv.refcnt_add_one (i : BufId) : (s.bcache.buf i).refcnt + 1 ≠ 0 := by
  have hle := h.refcnt_le i
  have hnproc : nproc < 100 := by decide
  intro hzero
  have := congrArg UInt32.toNat hzero
  rw [UInt32.toNat_add, UInt32.toNat_zero, UInt32.toNat_one, Nat.mod_eq_of_lt (by omega)] at this
  omega

theorem Inv.eq_of_isBlock {b : Nat} (hi : s.IsBlock i b) (hj : s.IsBlock j b) : i = j := by
  refine h.buf.uniq i j (fun hdev => h.dev ?_) (UInt32.toNat_inj.mp (hi.1.trans hj.1.symm))
    (UInt32.toNat_inj.mp (hi.2.trans hj.2.symm))
  rw [← hi.1, hdev, UInt32.toNat_zero]

end

theorem Inv.stamp (h : Inv t) : Inv (s.stamp t) :=
  ⟨h.buf, h.dev, h.busy, h.start, h.nodup, h.pin, h.cached⟩

/-- `bread` and `brelse` keep the pins: a buffer that is recycled is not pinned, and its new block is
not to be installed. -/
theorem Inv.moved (h : Inv s) (hc : BufList.Inv c) (hother : ∀ j ≠ i, c.buf j = s.bcache.buf j)
    (hpins : c.pins = s.bcache.pins) (hmoved : Moved s.bcache c i) :
    Inv { s with bcache := c } := by
  have hblock : ∀ j, block c j = block s.bcache j ∨
      (s.bcache.buf j).refcnt = 0 ∧ ∀ k, block s.bcache k ≠ block c j := by
    intro j
    by_cases hj : j = i
    · subst hj
      cases hmoved with
      | stay _ hb => exact .inl hb
      | hit _ hb => exact .inl hb
      | recycle _ hnew hzero => exact .inr ⟨hzero, hnew⟩
      | release _ _ _ hb => exact .inl hb
    · exact .inl (by rw [block, block, hother j hj])
  refine ⟨hc, h.dev, h.busy, h.start, h.nodup, fun j => ?_, fun b hb => ?_⟩
  · change c.pins j = _
    rw [hpins, h.pin j]
    refine if_congr (exists_congr fun b => and_congr_right fun hb => ?_) rfl rfl
    obtain heq | ⟨hzero, hnew⟩ := hblock j
    · exact (IsBlock.congr (s := s) (t := { s with bcache := c }) rfl heq).symm
    · refine iff_of_false (fun hj => ?_) fun hj => ?_
      · refine h.refcnt_ne_zero (i := j) ?_ hzero
        rw [h.pin, if_pos ⟨b, hb, hj⟩]
        exact Nat.one_pos
      · obtain ⟨k, hk⟩ := h.cached b hb
        refine hnew k (Prod.ext ?_ ?_)
        · exact UInt32.toNat_inj.mp (hk.1.trans hj.1.symm)
        · exact UInt32.toNat_inj.mp (hk.2.trans hj.2.symm)
  · obtain ⟨k, hk⟩ := h.cached b hb
    refine ⟨k, (IsBlock.congr (s := s) (t := { s with bcache := c }) rfl ?_).mpr hk⟩
    obtain heq | ⟨hzero, -⟩ := hblock k
    · exact heq
    · refine absurd hzero (h.refcnt_ne_zero ?_)
      rw [h.pin, if_pos ⟨b, hb, hk⟩]
      exact Nat.one_pos

theorem Inv.setLog (h : Inv s) {lg : Log} (hdev : lg.dev = s.log.dev) (hlh : lg.lh = s.log.lh)
    (hbusy : lg.committing = true → lg.outstanding = 0) (hstart : lg.committing = false → s.tail = 0) :
    Inv { s with log := lg } := by
  have hpending : ({ s with log := lg } : Sys).pending = s.pending := by
    rw [Sys.pending, Sys.pending, hlh]
  have hblock : ∀ i b, ({ s with log := lg } : Sys).IsBlock i b ↔ s.IsBlock i b :=
    fun i b => IsBlock.congr hdev rfl
  refine ⟨h.buf, by rw [hdev]; exact h.dev, hbusy, hstart, by rw [hlh]; exact h.nodup, fun i => ?_,
    fun b hb => ?_⟩
  · rw [hpending]
    simp only [hblock]
    exact h.pin i
  · rw [hpending] at hb
    simp only [hblock]
    exact h.cached b hb

theorem Inv.repin (h : Inv s) {b : Nat} (hc : BufList.Inv t.bcache)
    (hblock : ∀ j, block t.bcache j = block s.bcache j) (hdev : t.log.dev = s.log.dev)
    (hbusy : t.log.committing = true → t.log.outstanding = 0)
    (hstart : t.log.committing = false → t.tail = 0) (hnodup : t.log.lh.Nodup)
    (hi : s.IsBlock i b) (hpending : ∀ b' ≠ b, b' ∈ t.pending ↔ b' ∈ s.pending)
    (hpin : t.bcache.pins i = if b ∈ t.pending then 1 else 0)
    (hpins : ∀ j ≠ i, t.bcache.pins j = s.bcache.pins j) : Inv t := by
  have hcongr : ∀ j b', t.IsBlock j b' ↔ s.IsBlock j b' := fun j b' => IsBlock.congr hdev (hblock j)
  refine ⟨hc, by rw [hdev]; exact h.dev, hbusy, hstart, hnodup, fun j => ?_, fun b' hb' => ?_⟩
  · simp only [hcongr]
    by_cases hj : j = i
    · subst hj
      rw [hpin]
      refine if_congr ⟨fun hb => ⟨b, hb, hi⟩, ?_⟩ rfl rfl
      rintro ⟨b', hb', hj⟩
      rwa [← hi.2, hj.2]
    · rw [hpins j hj, h.pin j]
      refine if_congr (exists_congr fun b' => and_congr_left fun hb' => (hpending b' ?_).symm) rfl rfl
      rintro rfl
      exact hj (h.eq_of_isBlock hb' hi)
  · simp only [hcongr]
    by_cases hb : b' = b
    · exact ⟨i, hb ▸ hi⟩
    · exact h.cached b' ((hpending b' hb).mp hb')

theorem act_buf {a : BufList.Act (Fin nproc)} (hact : s.act (.buf a) = some t) :
    (∀ i, a ≠ .bpin i) ∧ (∀ i, a ≠ .bunpin i) ∧
      ∃ c, BufList.next s.bcache a = some c ∧ { s with bcache := c } = t := by
  cases a with
  | bpin i => cases hact
  | bunpin i => cases hact
  | _ => exact ⟨by simp, by simp, map_eq_some_iff.mp hact⟩

theorem Inv.act (h : Inv s) (hact : s.act a = some t) : Inv t := by
  cases a with
  | buf a =>
    obtain ⟨hpin, hunpin, c, hnext, rfl⟩ := act_buf hact
    obtain ⟨i, hother, hpins, hmoved⟩ := moved_of_next h.buf hpin hunpin hnext
    exact h.moved (h.buf.next hnext) hother hpins hmoved
  | beginOp =>
    obtain ⟨lg, hlg, rfl⟩ := map_eq_some_iff.mp hact
    obtain ⟨hcommitting, -, rfl⟩ := Log.beginOp_eq_some hlg
    exact h.setLog rfl rfl (fun hc => absurd hc (by simp [hcommitting])) h.start
  | logWrite p i =>
    rw [Sys.act, ite_none_right_eq_some] at hact
    obtain ⟨⟨-, hdev⟩, hact⟩ := hact
    have hi : s.IsBlock i (s.bcache.buf i).blockno.toNat := ⟨hdev, rfl⟩
    split at hact
    · rename_i lg hlog
      obtain ⟨c, hnext, rfl⟩ := map_eq_some_iff.mp hact
      obtain ⟨-, -, hout, ⟨-, -, hfalse⟩ | ⟨hnew, rfl, -⟩⟩ := Log.logWrite_eq_ok hlog
      · cases hfalse
      have hcommitting : s.log.committing = false := by
        by_contra hc
        have := h.busy (by simpa using hc)
        omega
      have htail := h.start hcommitting
      have hpending : s.pending = s.log.lh := by rw [Sys.pending, htail, List.drop_zero]
      have hzero : s.bcache.pins i = 0 := by
        rw [h.pin, if_neg]
        rintro ⟨b, hb, hib⟩
        rw [hpending, ← hib.2] at hb
        exact hnew hb
      have hinv := h.buf.next hnext
      cases hnext
      refine h.repin hinv (fun j => ?_) rfl (fun hc => absurd hc (by simp [hcommitting])) h.start ?_ hi
        (fun b' hb' => ?_) ?_ fun j hj => Function.update_of_ne hj ..
      · change block (s.bcache.set i _) j = _
        by_cases hj : j = i
        · subst hj
          exact block_set_self _ _ _
        · rw [block, set_buf_of_ne _ _ _ hj, block]
      · exact h.nodup.append (List.nodup_singleton _) (by simpa using hnew)
      · simp [Sys.pending, htail, hb']
      · simp [Sys.pending, htail, hzero]
    · rename_i lg hlog
      cases hact
      obtain ⟨-, -, -, ⟨-, rfl, -⟩ | ⟨-, -, htrue⟩⟩ := Log.logWrite_eq_ok hlog
      · exact h
      · cases htrue
    · cases hact
  | endOp =>
    rw [Sys.act] at hact
    split at hact
    · rename_i lg commit hlog
      cases hact
      obtain ⟨hcommitting, hcommit, rfl⟩ := Log.endOp_eq_ok hlog
      exact h.setLog rfl rfl hcommit.mp fun _ => h.start hcommitting
    · cases hact
  | unpin p i =>
    rw [Sys.act, ite_none_right_eq_some] at hact
    obtain ⟨⟨hcommitting, -, b, hb, hi⟩, hact⟩ := hact
    obtain ⟨c, hnext, rfl⟩ := map_eq_some_iff.mp hact
    have hdrop : s.log.lh.drop s.tail = b :: s.log.lh.drop (s.tail + 1) := by
      obtain ⟨hlt, rfl⟩ := List.getElem?_eq_some_iff.mp hb
      exact List.drop_eq_getElem_cons hlt
    have hnotmem : b ∉ s.log.lh.drop (s.tail + 1) := by
      have := h.nodup.sublist (List.drop_sublist s.tail s.log.lh)
      rw [hdrop, List.nodup_cons] at this
      exact this.1
    have hone : s.bcache.pins i = 1 := by
      rw [h.pin, if_pos]
      exact ⟨b, by rw [Sys.pending, hdrop]; exact List.mem_cons_self, hi⟩
    have hinv := h.buf.next hnext
    rw [BufList.next, if_pos (by omega), some_inj] at hnext
    subst hnext
    refine h.repin hinv (fun j => ?_) rfl h.busy (fun hc => absurd (hcommitting.symm.trans hc) (by decide))
      h.nodup hi (fun b' hb' => ?_) ?_ fun j hj => Function.update_of_ne hj ..
    · change block (s.bcache.set i _) j = _
      by_cases hj : j = i
      · subst hj
        exact block_set_self _ _ _
      · rw [block, set_buf_of_ne _ _ _ hj, block]
    · simp [Sys.pending, hdrop, hb']
    · simp [Sys.pending, hone, hnotmem]
  | committed =>
    rw [Sys.act, ite_none_right_eq_some, some_inj] at hact
    obtain ⟨⟨hcommitting, htail⟩, rfl⟩ := hact
    have hpending : s.pending = [] := by
      rw [Sys.pending, htail, List.drop_length]
    have hpin := h.pin
    simp only [hpending, List.not_mem_nil, false_and, exists_false, if_false] at hpin
    refine ⟨h.buf, h.dev, fun hc => absurd hc (by simp), fun _ => rfl, List.nodup_nil, fun i => ?_,
      fun b hb => ?_⟩
    · simp [Sys.pending, hpin i]
    · simp [Sys.pending] at hb

end Pins

/-! ## The order of the list -/

section Order

variable {s t : Sys} {i j : BufId} {a : Act}

/-- **Only `brelse` drops the last reference**, and it moves the buffer to the front. -/
theorem Inv.links (h : Inv s) (hact : s.act a = some t) :
    (t.bcache.links = s.bcache.links ∧
      ∀ j, (t.bcache.buf j).refcnt = 0 → (s.bcache.buf j).refcnt = 0) ∨
    ∃ i, t.bcache.links = (s.bcache.links.remove i).pushFront i ∧ (s.bcache.buf i).refcnt ≠ 0 ∧
      (t.bcache.buf i).refcnt = 0 ∧ ∀ j ≠ i, t.bcache.buf j = s.bcache.buf j := by
  -- a step that is about one buffer, which has references after it
  have hleft : ∀ {i}, t.bcache.links = s.bcache.links → (∀ j ≠ i, t.bcache.buf j = s.bcache.buf j) →
      (t.bcache.buf i).refcnt ≠ 0 → t.bcache.links = s.bcache.links ∧
      ∀ j, (t.bcache.buf j).refcnt = 0 → (s.bcache.buf j).refcnt = 0 := by
    intro i hlinks hother hi
    refine ⟨hlinks, fun j hj => ?_⟩
    rw [← hother j (fun hji => hi (hji ▸ hj))]
    exact hj
  cases a with
  | buf a =>
    obtain ⟨hpin, hunpin, c, hnext, rfl⟩ := act_buf hact
    obtain ⟨i, hother, -, hmoved⟩ := moved_of_next h.buf hpin hunpin hnext
    cases hmoved with
    | stay hlinks _ href =>
      refine .inl ⟨hlinks, fun j hj => ?_⟩
      by_cases hji : j = i
      · rw [hji, ← href, ← hji]
        exact hj
      · rw [← hother j hji]
        exact hj
    | hit hlinks _ href => exact .inl (hleft hlinks hother (href ▸ h.refcnt_add_one i))
    | recycle hlinks _ _ href => exact .inl (hleft hlinks hother (href ▸ by decide))
    | release p hpc hlinks _ href =>
      by_cases hzero : (c.buf i).refcnt = 0
      · rw [if_pos hzero] at hlinks
        refine .inr ⟨i, hlinks, fun hi => ?_, hzero, hother⟩
        obtain ⟨n, -, hn, hcount⟩ := h.refcnt i
        have hpos := hn.pos (a := p) (by rw [hpc]; exact .inr rfl)
        rw [hi, UInt32.toNat_zero] at hcount
        omega
      · rw [if_neg hzero] at hlinks
        exact .inl (hleft hlinks hother hzero)
  | beginOp =>
    obtain ⟨lg, -, rfl⟩ := map_eq_some_iff.mp hact
    exact .inl ⟨rfl, fun _ => id⟩
  | logWrite p i =>
    rw [Sys.act, ite_none_right_eq_some] at hact
    obtain ⟨-, hact⟩ := hact
    split at hact
    · obtain ⟨c, hnext, rfl⟩ := map_eq_some_iff.mp hact
      cases hnext
      refine .inl (hleft rfl (set_buf_of_ne s.bcache _) ?_)
      simpa using h.refcnt_add_one i
    · cases hact
      exact .inl ⟨rfl, fun _ => id⟩
    · cases hact
  | endOp =>
    rw [Sys.act] at hact
    split at hact
    · cases hact
      exact .inl ⟨rfl, fun _ => id⟩
    · cases hact
  | unpin p i =>
    rw [Sys.act, ite_none_right_eq_some] at hact
    obtain ⟨⟨-, hlock, -⟩, hact⟩ := hact
    obtain ⟨c, hnext, rfl⟩ := map_eq_some_iff.mp hact
    rw [BufList.next, ite_none_right_eq_some, some_inj] at hnext
    obtain ⟨hpos, rfl⟩ := hnext
    refine .inl (hleft rfl (set_buf_of_ne s.bcache _) ?_)
    simpa using h.refcnt_sub_one hlock hpos
  | committed =>
    rw [Sys.act, ite_none_right_eq_some, some_inj] at hact
    obtain ⟨-, rfl⟩ := hact
    exact .inl ⟨rfl, fun _ => id⟩

/-- Of two buffers without references, the first was released after the second, or neither was ever
used. -/
def After (s : Sys) (i j : BufId) : Prop :=
  (s.bcache.buf i).refcnt = 0 → (s.bcache.buf j).refcnt = 0 →
    s.freed j < s.freed i ∨ s.freed i = 0 ∧ s.freed j = 0

structure Ordered (s : Sys) : Prop where
  past : ∀ i, s.freed i ≤ s.now
  list : ∃ l, s.bcache.links.Circular l ∧ (∀ i, i ∈ l) ∧ l.Pairwise (After s)

theorem After.stamp (h : After s i j)
    (hzero : ∀ k, (t.bcache.buf k).refcnt = 0 → (s.bcache.buf k).refcnt = 0) :
    After (s.stamp t) i j := by
  intro hi hj
  have hfreed : ∀ k, (s.bcache.buf k).refcnt = 0 → (s.stamp t).freed k = s.freed k :=
    fun k hk => if_neg fun hne => hne.1 hk
  rw [hfreed i (hzero i hi), hfreed j (hzero j hj)]
  exact h (hzero i hi) (hzero j hj)

theorem Ordered.next (ho : Ordered s) (h : Inv s) (hact : s.act a = some t) :
    Ordered (s.stamp t) := by
  obtain ⟨l, hl, hall, hpair⟩ := ho.list
  refine ⟨fun i => ?_, ?_⟩
  · simp only [Sys.stamp]
    have := ho.past i
    split <;> omega
  obtain ⟨hlinks, hzero⟩ | ⟨i, hlinks, hi, hi', hother⟩ := h.links hact
  · exact ⟨l, by rw [← hlinks] at hl; exact hl, hall, hpair.imp fun hij => hij.stamp hzero⟩
  · refine ⟨i :: l.erase i, ?_, fun j => ?_, ?_⟩
    · change t.bcache.links.Circular _
      rw [hlinks]
      exact (hl.remove (hall i)).pushFront fun hmem => (hl.nodup.mem_erase_iff.mp hmem).1 rfl
    · by_cases hj : j = i
      · exact hj ▸ List.mem_cons_self
      · exact List.mem_cons_of_mem i ((List.mem_erase_of_ne hj).mpr (hall j))
    -- the buffer that moves to the front was released just now
    have hfreed : ∀ j ≠ i, (s.stamp t).freed j = s.freed j := by
      intro j hj
      refine if_neg fun hne => hne.1 ?_
      rw [← hother j hj]
      exact hne.2
    have hnow : (s.stamp t).freed i = s.now + 1 := if_pos ⟨hi, hi'⟩
    have hne : ∀ j ∈ l.erase i, j ≠ i := fun j hj => (hl.nodup.mem_erase_iff.mp hj).1
    refine List.pairwise_cons.mpr ⟨fun j hj _ _ => .inl ?_, ?_⟩
    · rw [hnow, hfreed j (hne j hj)]
      exact Nat.lt_succ_of_le (ho.past j)
    · refine (hpair.sublist List.erase_sublist).imp_of_mem fun {j k} hj hk hjk => ?_
      intro hj' hk'
      rw [hfreed j (hne j hj), hfreed k (hne k hk)]
      refine hjk ?_ ?_
      · rw [← hother j (hne j hj)]
        exact hj'
      · rw [← hother k (hne k hk)]
        exact hk'

end Order

/-! ## Which buffer `bget` recycles -/

theorem inv_init (start size : Nat) : Inv (Sys.init start size) where
  buf := BufList.inv_init
  dev := show rootDev ≠ 0 by decide
  busy h := rfl
  start h := rfl
  nodup := List.nodup_nil
  pin i := by simp [Sys.pending, Sys.init, Log.init, BufList.Sys.init]
  cached b hb := by simp [Sys.pending, Sys.init, Log.init] at hb

theorem ordered_init (start size : Nat) : Ordered (Sys.init start size) where
  past i := Nat.le_refl 0
  list := by
    obtain ⟨l, hl, hall⟩ := (inv_init start size).buf.list
    exact ⟨l, hl, hall, List.pairwise_of_forall fun i j _ _ => .inr ⟨rfl, rfl⟩⟩

theorem inv_of_reachable {start size : Nat} {s : Sys}
    (h : Reachable next (Sys.init start size) s) : Inv s ∧ Ordered s := by
  refine h.induction (I := fun s => Inv s ∧ Ordered s) ⟨inv_init start size, ordered_init start size⟩
    fun s a t hs hnext => ?_
  obtain ⟨t, hact, rfl⟩ := map_eq_some_iff.mp hnext
  exact ⟨(hs.1.act hact).stamp, hs.2.next hs.1 hact⟩

/-- **Recycling is least recently used.**  If no buffer has the block, `bget` recycles one without
references, and any other such one was released later, unless neither was ever used.  It panics only
if all buffers have references. -/
theorem bget_recycles_oldest {start size : Nat} {s : Sys}
    (h : Reachable next (Sys.init start size) s) (dev blockno : UInt32) :
    (∀ i c, s.bcache.bget dev blockno = some (i, c) →
      (∀ j, ¬((s.bcache.buf j).dev = dev ∧ (s.bcache.buf j).blockno = blockno)) →
      (s.bcache.buf i).refcnt = 0 ∧ ∀ j ≠ i, (s.bcache.buf j).refcnt = 0 →
        s.freed i < s.freed j ∨ s.freed i = 0 ∧ s.freed j = 0) ∧
    (s.bcache.bget dev blockno = none → ∀ j, (s.bcache.buf j).refcnt ≠ 0) := by
  obtain ⟨-, ho⟩ := inv_of_reachable h
  obtain ⟨l, hl, hall, hpair⟩ := ho.list
  rw [BufList.Sys.bget_eq hl]
  refine ⟨fun i c hget hmiss => ?_, fun hget j hj => ?_⟩
  · have hnone : l.find? (fun i => (s.bcache.buf i).dev = dev ∧ (s.bcache.buf i).blockno = blockno) =
        none := List.find?_eq_none.mpr fun j _ => by simpa using hmiss j
    rw [hnone] at hget
    dsimp only at hget
    split at hget
    · rename_i i' hfind
      rw [some_inj, Prod.mk.injEq] at hget
      obtain ⟨rfl, -⟩ := hget
      -- behind it in the list there are only buffers with references
      obtain ⟨hi, l₂, l₁, hsplit, hbehind⟩ := List.find?_eq_some_iff_append.mp hfind
      have hi : (s.bcache.buf i').refcnt = 0 := by simpa using hi
      refine ⟨hi, fun j hj href => ?_⟩
      have hl' : l = l₁.reverse ++ i' :: l₂.reverse := by
        rw [← List.reverse_inj, hsplit]
        simp
      have hmem : j ∈ l₁.reverse := by
        have := hall j
        rw [hl', List.mem_append, List.mem_cons] at this
        obtain hfront | hself | hback := this
        · exact hfront
        · exact absurd hself hj
        · exact absurd href (by simpa using hbehind j (List.mem_reverse.mp hback))
      rw [hl', List.pairwise_append] at hpair
      obtain hlt | ⟨hj₀, hi₀⟩ := hpair.2.2 j hmem i' List.mem_cons_self href hi
      · exact .inl hlt
      · exact .inr ⟨hi₀, hj₀⟩
    · cases hget
  · split at hget
    · cases hget
    · split at hget
      · cases hget
      · rename_i hfind
        have := List.find?_eq_none.mp hfind j (List.mem_reverse.mpr (hall j))
        exact this (by simpa using hj)

/-- A process reads and logs block 5, and commits. -/
def logBlock : List Act :=
  [.beginOp, .buf (.bget 0 1 5), .buf (.acquiresleep 0), .buf (.bread 0 0), .logWrite 0 0,
    .buf (.brelse 0 0), .buf (.relink 0), .endOp, .buf (.bget 0 1 5), .buf (.acquiresleep 0),
    .unpin 0 0, .buf (.brelse 0 0), .buf (.relink 0), .committed]

/-- The buffer of block 5 loses its last reference in step 13, behind the commit. -/
theorem bget_recycles_oldest_logBlock : ∃ s, run next (Sys.init 2 nlog) logBlock = some s ∧
    s.freed 0 = 13 ∧ (s.bcache.bget 1 6).map Prod.fst = some 1 ∧
    ∀ j ≠ 1, (s.bcache.buf j).refcnt = 0 → s.freed 1 < s.freed j ∨ s.freed 1 = 0 ∧ s.freed j = 0 := by
  have heval : ((run next (Sys.init 2 nlog) logBlock).map fun s =>
      (s.freed 0, (s.bcache.bget 1 6).map Prod.fst,
        decide (∀ j, ¬((s.bcache.buf j).dev = 1 ∧ (s.bcache.buf j).blockno = 6)))) =
      some (13, some 1, true) := by decide +kernel
  obtain ⟨s, hrun, hs⟩ := map_eq_some_iff.mp heval
  simp only [Prod.mk.injEq, decide_eq_true_eq] at hs
  obtain ⟨hfreed, hget, hmiss⟩ := hs
  obtain ⟨⟨i, c⟩, hget', hi⟩ := map_eq_some_iff.mp hget
  obtain rfl : i = 1 := hi
  exact ⟨s, hrun, hfreed, hget, ((bget_recycles_oldest ⟨logBlock, hrun⟩ 1 6).1 1 c hget' hmiss).2⟩

end Xv6.Lru
