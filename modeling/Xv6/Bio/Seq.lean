import Xv6.Bio.Rep
import Mathlib.Data.Finset.Card
import Mathlib.Data.Fintype.Card

/-!
# One process using the cache

Specifications of `bread`, `bwrite`, `brelse` and `bunpin` for a process that has the cache for
itself, as `commit` and the recovery at boot do.  `Kern.At` is what holds at each point of such a
program: the array that cache and disk represent, the blocks that the log has pinned, and the
buffers that the process holds.
-/

namespace Xv6

open Prog

/-- Process `me` has the cache for itself and holds the buffers `held`; the log pins the blocks
`pins`, and cache and disk represent `cont`. -/
structure Kern.At (s : Kern) (dev me : Nat) (cont : Nat → Block) (pins : List Nat)
    (held : List BufId) : Prop where
  rep : s.bcache.Rep dev s.disk cont
  /-- The references to a buffer are its pin and the one of the process. -/
  ref : ∀ i, (s.bcache.buf i).refcnt =
    (if (s.bcache.buf i).dev = dev ∧ (s.bcache.buf i).blockno ∈ pins then 1 else 0) +
      if i ∈ held then 1 else 0
  /-- The process has locked what it holds, and nothing else is locked. -/
  lock : ∀ i, (s.bcache.buf i).lock = if i ∈ held then some me else none
  held : ∀ i ∈ held, (s.bcache.buf i).dev = dev ∧ (s.bcache.buf i).valid = true
  pinned : ∀ b ∈ pins, ∃ i, s.bcache.Cached dev b i

structure Kern.SameDisk (s t : Kern) : Prop where
  log : t.log = s.log
  disk : t.disk = s.disk
  writes : t.writes = s.writes
  left : t.left = s.left

namespace Kern.SameDisk

variable {s t u : Kern}

theorem refl (s : Kern) : s.SameDisk s := ⟨rfl, rfl, rfl, rfl⟩

theorem trans (h : s.SameDisk t) (h' : t.SameDisk u) : s.SameDisk u :=
  ⟨h'.log.trans h.log, h'.disk.trans h.disk, h'.writes.trans h.writes, h'.left.trans h.left⟩

end Kern.SameDisk

/-- The block `b` has been written, and the cache may differ. -/
structure Kern.Wrote (s t : Kern) (b : Nat) (d : Block) : Prop where
  log : t.log = s.log
  disk : t.disk = Function.update s.disk b d
  writes : t.writes = s.writes + 1
  left : s.left = none → t.left = none

theorem Kern.Wrote.congr {s s' t t' : Kern} {b : Nat} {d : Block} (h : s.Wrote t b d)
    (hs : s'.SameDisk s) (ht : t.SameDisk t') : s'.Wrote t' b d where
  log := by rw [ht.log, h.log, hs.log]
  disk := by rw [ht.disk, h.disk, hs.disk]
  writes := by rw [ht.writes, h.writes, hs.writes]
  left hnone := by rw [ht.left, h.left (hs.left.trans hnone)]

section

variable {s : Kern} {dev me b : Nat} {cont : Nat → Block} {pins : List Nat} {held : List BufId}
  {i : BufId} {α : Type} {E : Stop → Kern → Prop} {Q : Unit → Kern → Prop}

namespace Kern.At

theorem data_eq (h : s.At dev me cont pins held) (hi : i ∈ held) :
    (s.bcache.buf i).data = cont (s.bcache.buf i).blockno :=
  h.rep.data i (h.held i hi).1 (h.held i hi).2

theorem ref_pos (h : s.At dev me cont pins held) (hi : i ∈ held) : 0 < (s.bcache.buf i).refcnt := by
  rw [h.ref, if_pos hi]
  omega

theorem disk_eq (h : s.At dev me cont pins []) (hb : b ∉ pins) : s.disk b = cont b := by
  by_contra hne
  obtain ⟨i, hdev, hib, -, href⟩ := h.rep.back b hne
  rw [h.ref, if_neg (by simp [hib, hb])] at href
  exact absurd href (by simp)

section

variable (h : s.At dev me cont pins held)
include h

theorem withLog (log : Log) :
    Kern.At { s with log } dev me cont pins held := ⟨h.rep, h.ref, h.lock, h.held, h.pinned⟩

/-- **There is a free buffer** unless pins and held buffers fill the cache. -/
theorem exists_refcnt_eq_zero (hlt : pins.length + held.length < nbuf) : ∃ i,
    (s.bcache.buf i).refcnt = 0 := by
  classical
  by_contra hall
  -- every buffer is pinned or held, and a pinned block has one buffer only
  let pinned : Finset BufId :=
    {i | (s.bcache.buf i).dev = dev ∧ (s.bcache.buf i).blockno ∈ pins}
  have hcover : (Finset.univ : Finset BufId) ⊆ pinned ∪ held.toFinset := by
    intro i _
    by_contra hi
    simp only [pinned, Finset.mem_union, Finset.mem_filter, Finset.mem_univ, true_and,
      List.mem_toFinset, not_or] at hi
    exact hall ⟨i, by rw [h.ref, if_neg hi.1, if_neg hi.2]⟩
  have hpins : pinned.card ≤ pins.toFinset.card := by
    refine Finset.card_le_card_of_injOn (fun i => (s.bcache.buf i).blockno) (fun i hi => ?_) ?_
    · simpa using (Finset.mem_filter.mp hi).2.2
    · intro i hi j hj heq
      exact h.rep.uniq i j (Finset.mem_filter.mp hi).2.1 (Finset.mem_filter.mp hj).2.1 heq
  have hcard := (Finset.card_le_card hcover).trans (Finset.card_union_le _ _)
  rw [Finset.card_univ, Fintype.card_fin] at hcard
  have := pins.toFinset_card_le
  have := held.toFinset_card_le
  omega

theorem take {c : Bcache} (hrep : c.Rep dev s.disk cont)
    (hsame : ∀ j, j ≠ i → c.buf j = s.bcache.buf j) (hi : c.Cached dev b i)
    (hv : (c.buf i).valid = true) (hlock : (c.buf i).lock = some me)
    (href : (c.buf i).refcnt = (if b ∈ pins then 1 else 0) + 1)
    (hpin : ∀ b' ∈ pins, s.bcache.Cached dev b' i → b' = b) :
    Kern.At { s with bcache := c } dev me cont pins (i :: held) where
  rep := hrep
  ref j := by
    by_cases hj : j = i
    · subst hj
      simp only [href, hi.1, hi.2, List.mem_cons, true_or, if_true, true_and]
    · simp only [hsame j hj, h.ref j, List.mem_cons, hj, false_or]
  lock j := by
    by_cases hj : j = i
    · subst hj
      simp only [hlock, List.mem_cons, true_or, if_true]
    · simp only [hsame j hj, h.lock j, List.mem_cons, hj, false_or]
  held j hj := by
    by_cases hji : j = i
    · exact hji ▸ ⟨hi.1, hv⟩
    · rw [hsame j hji]
      exact h.held j ((List.mem_cons.mp hj).resolve_left hji)
  pinned b' hb' := by
    obtain ⟨j, hj⟩ := h.pinned b' hb'
    by_cases hji : j = i
    · exact ⟨i, hpin b' hb' (hji ▸ hj) ▸ hi⟩
    · exact ⟨j, by rw [Bcache.Cached, hsame j hji]; exact hj⟩

theorem change {cont' : Nat → Block} {pins' : List Nat} {held' : List BufId} {x : Buf}
    (hi : s.bcache.Cached dev b i)
    (hrep : (s.bcache.set i x).Rep dev s.disk cont') (hdev : x.dev = dev) (hb : x.blockno = b)
    (hv : x.valid = true) (hlock : x.lock = if i ∈ held' then some me else none)
    (href : x.refcnt = (if b ∈ pins' then 1 else 0) + if i ∈ held' then 1 else 0)
    (hheld : ∀ j, j ≠ i → (j ∈ held' ↔ j ∈ held)) (hpins : ∀ b', b' ≠ b → (b' ∈ pins' ↔ b' ∈ pins)) :
    Kern.At { s with bcache := s.bcache.set i x } dev me cont' pins' held' where
  rep := hrep
  ref j := by
    by_cases hj : j = i
    · subst hj
      simp only [Bcache.set_buf_self, href, hdev, hb, true_and]
    · simp only [Bcache.set_buf_of_ne _ _ hj, h.ref j, hheld j hj]
      -- a buffer of the same block would be the same buffer
      have hiff : ((s.bcache.buf j).dev = dev ∧ (s.bcache.buf j).blockno ∈ pins') ↔
          ((s.bcache.buf j).dev = dev ∧ (s.bcache.buf j).blockno ∈ pins) :=
        and_congr_right fun hjd => hpins _ fun heq =>
          hj (h.rep.uniq j i hjd hi.1 (heq.trans hi.2.symm))
      simp only [hiff]
  lock j := by
    by_cases hj : j = i
    · subst hj
      simp only [Bcache.set_buf_self, hlock]
    · simp only [Bcache.set_buf_of_ne _ _ hj, h.lock j, hheld j hj]
  held j hj := by
    by_cases hji : j = i
    · subst hji
      simp only [Bcache.set_buf_self]
      exact ⟨hdev, hv⟩
    · simp only [Bcache.set_buf_of_ne _ _ hji]
      exact h.held j ((hheld j hji).mp hj)
  pinned b' hb' := by
    by_cases hbb : b' = b
    · exact ⟨i, by simp [Bcache.Cached, hdev, hb, hbb]⟩
    · obtain ⟨j, hj⟩ := h.pinned b' ((hpins b' hbb).mp hb')
      have hji : j ≠ i := by
        rintro rfl
        exact hbb (hj.2.symm.trans hi.2)
      exact ⟨j, by rw [Bcache.Cached, Bcache.set_buf_of_ne _ _ hji]; exact hj⟩

end

theorem of_buf {c c' : Bcache} (h : Kern.At { s with bcache := c } dev me cont pins held)
    (hbuf : c'.buf = c.buf) (hlru : ∀ j, j ∈ c'.lru) :
    Kern.At { s with bcache := c' } dev me cont pins held where
  rep := h.rep.of_buf hbuf hlru
  ref := hbuf ▸ h.ref
  lock := hbuf ▸ h.lock
  held := hbuf ▸ h.held
  pinned b hb := by
    obtain ⟨i, hi⟩ := h.pinned b hb
    exact ⟨i, by rw [Bcache.Cached, hbuf]; exact hi⟩

theorem bget {c : Bcache} (h : s.At dev me cont pins held)
    (hnot : ∀ j ∈ held, (s.bcache.buf j).blockno ≠ b) (hb : s.bcache.bget dev b = some (i, c)) :
    i ∉ held ∧ (c.buf i).lock = none ∧ (∀ j, j ≠ i → c.buf j = s.bcache.buf j) ∧
      (c.buf i).refcnt = (if b ∈ pins then 1 else 0) + 1 ∧
      ∀ b' ∈ pins, s.bcache.Cached dev b' i → b' = b := by
  rcases Bcache.bget_eq_some h.rep.lru hb with ⟨hi, rfl⟩ | ⟨hnew, href, rfl⟩
  · have hnh : i ∉ held := fun hm => hnot i hm hi.2
    refine ⟨hnh, ?_, fun j hj => Bcache.set_buf_of_ne _ _ hj, ?_, fun b' _ hb' =>
      hb'.2.symm.trans hi.2⟩
    · simp [h.lock, hnh]
    · simp [h.ref i, hi.1, hi.2, hnh]
  · have hfree := h.ref i
    rw [href] at hfree
    have hnh : i ∉ held := by
      intro hm
      rw [if_pos hm] at hfree
      omega
    refine ⟨hnh, ?_, fun j hj => Bcache.set_buf_of_ne _ _ hj, ?_, fun b' hp hb' => ?_⟩
    · simp [h.lock, hnh]
    · have : b ∉ pins := fun hm => (h.pinned b hm).elim hnew
      simp [this]
    · rw [if_pos ⟨hb'.1, hb'.2 ▸ hp⟩] at hfree
      omega

end Kern.At

/-! ## The rules -/

/-- `bread` returns a buffer that the process does not hold yet, locked, with the contents of the
block, or panics when the cache is full. -/
theorem wp_bread {Q : BufId → Kern → Prop} (h : s.At dev me cont pins held)
    (hnot : ∀ j ∈ held, (s.bcache.buf j).blockno ≠ b)
    (hfree : b ∈ pins ∨ pins.length + held.length < nbuf ∨ E (.panic .bgetNoBuffers) s)
    (hQ : ∀ i t, s.SameDisk t → t.At dev me cont pins (i :: held) → t.bcache.Cached dev b i →
      i ∉ held → (∀ j ∈ held, t.bcache.buf j = s.bcache.buf j) → Q i t) :
    wp (bread me dev b) Q E s := by
  simp only [bread, Xv6.bget, wp_bind, wp_get]
  split
  · rename_i i c hb
    obtain ⟨hi, hlock, hsame, href, hpin⟩ := h.bget hnot hb
    obtain ⟨hrep, hc⟩ := h.rep.bget hb
    have hne : ∀ j ∈ held, j ≠ i := fun j hj heq => hi (heq ▸ hj)
    have finish : ∀ x : Buf, (c.set i x).Rep dev s.disk cont → x.dev = dev → x.blockno = b →
        x.valid = true → x.lock = some me → x.refcnt = (c.buf i).refcnt →
        Q i { s with bcache := c.set i x } := by
      intro x hx hdev hblock hv hl hr
      have hcx : (c.set i x).Cached dev b i := by simp [Bcache.Cached, hdev, hblock]
      refine hQ i _ ⟨rfl, rfl, rfl, rfl⟩ (h.take hx (fun j hj => ?_) hcx ?_ ?_ ?_ hpin) hcx hi
        fun j hj => ?_
      · rw [Bcache.set_buf_of_ne _ _ hj, hsame j hj]
      · rw [Bcache.set_buf_self, hv]
      · rw [Bcache.set_buf_self, hl]
      · rw [Bcache.set_buf_self, hr, href]
      · rw [Bcache.set_buf_of_ne _ _ (hne j hj), hsame j (hne j hj)]
    simp only [acquiresleep, modifyBuf, diskRead, wp_bind, wp_get, wp_set, wp_modify, wp_pure,
      wp_ite, hlock, ne_eq, not_true_eq_false, if_false, Bcache.set_buf_self, Bcache.set_set]
    split
    · rename_i hv
      exact finish _ (hrep.fill hc hv _) hc.1 hc.2 rfl rfl rfl
    · rename_i hv
      have hv : (c.buf i).valid = true := by simpa using hv
      exact finish _ (hrep.set rfl rfl (hrep.data i) fun _ _ href _ => ⟨hv, href⟩) hc.1 hc.2 hv rfl
        rfl
  · rename_i hb
    have hE : E (.panic .bgetNoBuffers) s := by
      have hnone : ¬((∃ j, s.bcache.Cached dev b j) ∨ ∃ j, (s.bcache.buf j).refcnt = 0) := by
        intro hor
        obtain ⟨i, c, hic⟩ := Bcache.exists_bget h.rep.lru hor
        exact absurd (hb.symm.trans hic) (by simp)
      rcases hfree with hp | hlt | hE
      · exact absurd (.inl (h.pinned b hp)) hnone
      · exact absurd (.inr (h.exists_refcnt_eq_zero hlt)) hnone
      · exact hE
    exact hE

theorem wp_setData (h : s.At dev me cont pins held) (hi : i ∈ held)
    (hb : (s.bcache.buf i).blockno = b) (f : Block → Block)
    (hQ : ∀ t, s.SameDisk t → t.At dev me (Function.update cont b (f (cont b))) pins held →
      (∀ j, (t.bcache.buf j).blockno = (s.bcache.buf j).blockno) → Q () t) :
    wp (modifyBuf i fun x => { x with data := f x.data }) Q E s := by
  obtain ⟨hdev, hv⟩ := h.held i hi
  have hdata : (s.bcache.buf i).data = cont b := hb ▸ h.data_eq hi
  rw [modifyBuf, wp_modify]
  refine hQ _ ⟨rfl, rfl, rfl, rfl⟩ (h.change ⟨hdev, hb⟩ ?_ hdev hb hv ?_ ?_ (fun _ _ => Iff.rfl) fun _ _ => Iff.rfl)
    fun j => Bcache.set_buf_blockno _ _ _ rfl
  · rw [hdata]
    exact h.rep.setData ⟨hdev, hb⟩ hv (h.ref_pos hi) _
  · exact h.lock i
  · simpa [hdev, hb] using h.ref i

theorem wp_bwrite (h : s.At dev me cont pins held) (hi : i ∈ held)
    (hb : (s.bcache.buf i).blockno = b) (hcrash : s.left = some 0 → E .crash s)
    (hQ : ∀ t, s.Wrote t b (cont b) → t.At dev me cont pins held → t.bcache = s.bcache → Q () t) :
    wp (bwrite me i) Q E s := by
  have hdata : (s.bcache.buf i).data = cont b := hb ▸ h.data_eq hi
  simp only [bwrite, diskWrite, wp_bind, wp_get, wp_set, wp_ite, wp_throw, h.lock i, if_pos hi,
    ne_eq, not_true_eq_false, if_false]
  split
  · exact hcrash ‹_›
  · rw [hb, hdata]
    exact hQ _ ⟨rfl, rfl, rfl, fun hnone => by rw [hnone, Option.map_none]⟩
      ⟨h.rep.diskWrite, h.ref, h.lock, h.held, h.pinned⟩ rfl

theorem wp_brelse (held' : List BufId) (h : s.At dev me cont pins held) (hi : i ∈ held)
    (hb : (s.bcache.buf i).blockno = b) (hback : b ∈ pins ∨ s.disk b = cont b)
    (hheld : ∀ j, j ∈ held' ↔ j ∈ held ∧ j ≠ i)
    (hQ : ∀ t, s.SameDisk t → t.At dev me cont pins held' →
      (∀ j, (t.bcache.buf j).blockno = (s.bcache.buf j).blockno) → Q () t) :
    wp (brelse me i) Q E s := by
  obtain ⟨hdev, hv⟩ := h.held i hi
  have hni : i ∉ held' := fun hm => ((hheld i).mp hm).2 rfl
  have href : (s.bcache.buf i).refcnt = (if b ∈ pins then 1 else 0) + 1 := by
    simp [h.ref i, hdev, hb, hi]
  -- unlocking and dropping the reference, without the change of order
  let x : Buf := { s.bcache.buf i with
    lock := none
    refcnt := Bcache.dec (s.bcache.buf i).refcnt }
  have hrep : (s.bcache.set i x).Rep dev s.disk cont := by
    refine h.rep.set rfl rfl (h.rep.data i) fun _ hv _ hne => ⟨hv, ?_⟩
    show 0 < Bcache.dec (s.bcache.buf i).refcnt
    have hb' : b ∈ pins := hback.resolve_right (hb ▸ hne)
    simp [href, hb', Bcache.dec]
  have hx : Kern.At { s with bcache := s.bcache.set i x } dev me cont pins held' := by
    refine h.change ⟨hdev, hb⟩ hrep hdev hb hv ?_ ?_ (fun j hj => ?_) fun _ _ => Iff.rfl
    · exact (if_neg hni).symm
    · show Bcache.dec (s.bcache.buf i).refcnt = _
      simp [href, hni, Bcache.dec]
    · simp [hheld j, hj]
  have hbuf : ((s.bcache.set i { s.bcache.buf i with lock := none }).brelse i).buf =
      (s.bcache.set i x).buf := by
    rw [Bcache.brelse_buf, Bcache.set_set, Bcache.set_buf_self]
  simp only [brelse, modifyBuf, wp_bind, wp_get, wp_modify, wp_ite, h.lock i, if_pos hi, ne_eq,
    not_true_eq_false, if_false]
  refine hQ _ ⟨rfl, rfl, rfl, rfl⟩ (hx.of_buf hbuf (Bcache.mem_brelse_lru (c := s.bcache.set i _) h.rep.lru i)) fun j => ?_
  rw [hbuf]
  exact Bcache.set_buf_blockno _ _ _ rfl

theorem wp_bunpin (h : s.At dev me cont (b :: pins) held) (hi : i ∈ held)
    (hb : (s.bcache.buf i).blockno = b) (hnot : b ∉ pins)
    (hQ : ∀ t, s.SameDisk t → t.At dev me cont pins held →
      (∀ j, (t.bcache.buf j).blockno = (s.bcache.buf j).blockno) → Q () t) :
    wp (bunpin i) Q E s := by
  obtain ⟨hdev, hv⟩ := h.held i hi
  have href : (s.bcache.buf i).refcnt = 2 := by simp [h.ref i, hdev, hb, hi]
  rw [bunpin, wp_modify]
  refine hQ _ ⟨rfl, rfl, rfl, rfl⟩ (h.change ⟨hdev, hb⟩ (h.rep.decr (h.ref_pos hi) fun h1 => ?_) hdev hb hv (h.lock i) ?_
    (fun _ _ => Iff.rfl) fun b' hb' => ?_) fun j => Bcache.set_buf_blockno _ _ _ rfl
  · exact absurd (h1.symm.trans href) (by simp)
  · simp [href, hnot, hi, Bcache.dec]
  · simp [hb']

end

end Xv6
