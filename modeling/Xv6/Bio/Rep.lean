import Xv6.Bio.Cache

/-!
# The cache as an array of blocks

What the buffer cache is for: together with the disk it represents a plain array of blocks
(`Bcache.Rep`).  A valid buffer holds what the array has, and where the disk is behind the array, a
buffer with a reference, which cannot be recycled, holds the block.
-/

namespace Xv6

open Function (update update_of_ne update_self)

/-- The cache over the disk represents the array `cont`. -/
structure Bcache.Rep (c : Bcache) (dev : Nat) (disk cont : Nat → Block) : Prop where
  lru : ∀ i, i ∈ c.lru
  uniq : ∀ i j, (c.buf i).dev = dev → (c.buf j).dev = dev → (c.buf i).blockno = (c.buf j).blockno →
    i = j
  data : ∀ i, (c.buf i).dev = dev → (c.buf i).valid = true →
    (c.buf i).data = cont (c.buf i).blockno
  /-- A block that the disk does not have is in a buffer that stays. -/
  back : ∀ b, disk b ≠ cont b → ∃ i, (c.buf i).dev = dev ∧ (c.buf i).blockno = b ∧
    (c.buf i).valid = true ∧ 0 < (c.buf i).refcnt

namespace Bcache

variable {c c' : Bcache} {dev b : Nat} {i j : BufId} {disk cont : Nat → Block}

def Cached (c : Bcache) (dev b : Nat) (i : BufId) : Prop :=
  (c.buf i).dev = dev ∧ (c.buf i).blockno = b

@[simp] theorem set_buf_self (c : Bcache) (i : BufId) (x : Buf) : (c.set i x).buf i = x :=
  update_self ..

theorem set_buf_of_ne (c : Bcache) {i j : BufId} (x : Buf) (h : j ≠ i) :
    (c.set i x).buf j = c.buf j := update_of_ne h ..

@[simp] theorem set_set (c : Bcache) (i : BufId) (x y : Buf) : (c.set i x).set i y = c.set i y := by
  simp [set]

theorem set_buf_dev (c : Bcache) (i j : BufId) {x : Buf} (h : x.dev = (c.buf i).dev) :
    ((c.set i x).buf j).dev = (c.buf j).dev := by
  by_cases hj : j = i
  · rw [hj, set_buf_self, h]
  · rw [set_buf_of_ne c x hj]

theorem set_buf_blockno (c : Bcache) (i j : BufId) {x : Buf} (h : x.blockno = (c.buf i).blockno) :
    ((c.set i x).buf j).blockno = (c.buf j).blockno := by
  by_cases hj : j = i
  · rw [hj, set_buf_self, h]
  · rw [set_buf_of_ne c x hj]

theorem rep_binit (hdev : dev ≠ 0) : binit.Rep dev disk disk where
  lru i := by simp [binit]
  uniq i j hi := absurd hi.symm hdev
  data i hi := absurd hi.symm hdev
  back b hb := absurd rfl hb

namespace Rep

variable (h : c.Rep dev disk cont)
include h

/-- A change of one buffer that keeps its block keeps the array, if the buffer still holds what the
array has and is not left without references while the disk is behind. -/
theorem set {x : Buf} (hdev : x.dev = (c.buf i).dev) (hb : x.blockno = (c.buf i).blockno)
    (hdata : x.dev = dev → x.valid = true → x.data = cont x.blockno)
    (hback : x.dev = dev → (c.buf i).valid = true → 0 < (c.buf i).refcnt →
      disk x.blockno ≠ cont x.blockno → x.valid = true ∧ 0 < x.refcnt) :
    (c.set i x).Rep dev disk cont where
  lru j := h.lru j
  uniq j k hj hk heq := by
    rw [set_buf_dev c i _ hdev] at hj hk
    rw [set_buf_blockno c i _ hb, set_buf_blockno c i _ hb] at heq
    exact h.uniq j k hj hk heq
  data j hj hv := by
    by_cases hji : j = i
    · subst hji
      rw [set_buf_self] at hj hv ⊢
      exact hdata hj hv
    · rw [set_buf_of_ne c x hji] at hj hv ⊢
      exact h.data j hj hv
  back b hne := by
    obtain ⟨j, hj, hjb, hv, href⟩ := h.back b hne
    refine ⟨j, ?_⟩
    by_cases hji : j = i
    · subst hji
      rw [set_buf_self, hdev, hb]
      refine ⟨hj, hjb, hback (hdev.trans hj) hv href ?_⟩
      rwa [hb, hjb]
    · rw [set_buf_of_ne c x hji]
      exact ⟨hj, hjb, hv, href⟩

theorem recycle {x : Buf} (href : (c.buf i).refcnt = 0)
    (hnew : ∀ j, ¬c.Cached dev b j) (hb : x.blockno = b) (hv : x.valid = false) : (c.set i x).Rep dev disk cont where
  lru j := h.lru j
  uniq j k hj hk heq := by
    by_cases hji : j = i <;> by_cases hki : k = i
    · rw [hji, hki]
    · subst hji
      rw [set_buf_of_ne c x hki] at hk heq
      rw [set_buf_self] at heq
      exact absurd ⟨hk, heq.symm.trans hb⟩ (hnew k)
    · subst hki
      rw [set_buf_of_ne c x hji] at hj heq
      rw [set_buf_self] at heq
      exact absurd ⟨hj, heq.trans hb⟩ (hnew j)
    · rw [set_buf_of_ne c x hji] at hj heq
      rw [set_buf_of_ne c x hki] at hk heq
      exact h.uniq j k hj hk heq
  data j hj hv' := by
    by_cases hji : j = i
    · subst hji
      rw [set_buf_self, hv] at hv'
      exact absurd hv' (by simp)
    · rw [set_buf_of_ne c x hji] at hj hv' ⊢
      exact h.data j hj hv'
  back b' hne := by
    obtain ⟨j, hj, hjb, hv', href'⟩ := h.back b' hne
    have hji : j ≠ i := by
      rintro rfl
      omega
    exact ⟨j, by rw [set_buf_of_ne c x hji]; exact ⟨hj, hjb, hv', href'⟩⟩

theorem setData (hi : c.Cached dev b i) (hv : (c.buf i).valid = true)
    (href : 0 < (c.buf i).refcnt) (d : Block) :
    (c.set i { c.buf i with data := d }).Rep dev disk (update cont b d) where
  lru j := h.lru j
  uniq j k hj hk heq :=
    h.uniq j k ((set_buf_dev c i j (by rfl)).symm.trans hj)
      ((set_buf_dev c i k (by rfl)).symm.trans hk)
      (((set_buf_blockno c i j (by rfl)).symm.trans heq).trans (set_buf_blockno c i k (by rfl)))
  data j hj hjv := by
    by_cases hji : j = i
    · subst hji
      rw [set_buf_self, hi.2, update_self]
    · rw [set_buf_of_ne c _ hji] at hj hjv ⊢
      rw [update_of_ne, h.data j hj hjv]
      exact fun heq => hji (h.uniq j i hj hi.1 (heq.trans hi.2.symm))
  back b' hne := by
    by_cases hb : b' = b
    · exact ⟨i, by simp [hi.1, hi.2, hb, hv, href]⟩
    · rw [update_of_ne hb] at hne
      obtain ⟨j, hj, hjb, hjv, hjr⟩ := h.back b' hne
      have hji : j ≠ i := by
        rintro rfl
        exact hb (hjb.symm.trans hi.2)
      exact ⟨j, by rw [set_buf_of_ne c _ hji]; exact ⟨hj, hjb, hjv, hjr⟩⟩

theorem diskWrite : c.Rep dev (update disk b (cont b)) cont where
  lru := h.lru
  uniq := h.uniq
  data := h.data
  back b' hne := by
    refine h.back b' fun heq => hne ?_
    by_cases hb : b' = b
    · rw [hb, update_self]
    · rw [update_of_ne hb, heq]

theorem of_buf (hbuf : c'.buf = c.buf) (hlru : ∀ j, j ∈ c'.lru) : c'.Rep dev disk cont where
  lru := hlru
  uniq := hbuf ▸ h.uniq
  data := hbuf ▸ h.data
  back := hbuf ▸ h.back

end Rep

/-! ## `bget` -/

theorem bget_eq_some (hlru : ∀ j, j ∈ c.lru) (h : c.bget dev b = some (i, c')) :
    (c.Cached dev b i ∧ c' = c.set i { c.buf i with refcnt := (c.buf i).refcnt + 1 }) ∨
    ((∀ j, ¬c.Cached dev b j) ∧ (c.buf i).refcnt = 0 ∧
      c' = c.set i { c.buf i with dev, blockno := b, valid := false, refcnt := 1 }) := by
  unfold bget at h
  split at h
  · rename_i j hj
    obtain ⟨rfl, rfl⟩ : j = i ∧ _ = c' := by simpa using h
    exact .inl ⟨by simpa [Cached] using List.find?_some hj, rfl⟩
  · rename_i hnone
    split at h
    · rename_i j hj
      obtain ⟨rfl, rfl⟩ : j = i ∧ _ = c' := by simpa using h
      refine .inr ⟨fun k hk => ?_, by simpa using List.find?_some hj, rfl⟩
      exact absurd (List.find?_eq_none.mp hnone k (hlru k)) (by simpa [Cached] using hk)
    · exact absurd h (by simp)

theorem exists_bget (hlru : ∀ j, j ∈ c.lru)
    (h : (∃ j, c.Cached dev b j) ∨ ∃ j, (c.buf j).refcnt = 0) :
    ∃ i c', c.bget dev b = some (i, c') := by
  unfold bget
  split
  · exact ⟨_, _, rfl⟩
  · rename_i hnone
    split
    · exact ⟨_, _, rfl⟩
    · rename_i hfull
      rcases h with ⟨j, hj⟩ | ⟨j, hj⟩
      · exact absurd (List.find?_eq_none.mp hnone j (hlru j)) (by simpa [Cached] using hj)
      · exact absurd (List.find?_eq_none.mp hfull j (by simpa using hlru j)) (by simpa using hj)

theorem Rep.bget (h : c.Rep dev disk cont) (hb : c.bget dev b = some (i, c')) :
    c'.Rep dev disk cont ∧ c'.Cached dev b i := by
  rcases bget_eq_some h.lru hb with ⟨hi, rfl⟩ | ⟨hnew, href, rfl⟩
  · exact ⟨h.set rfl rfl (h.data i) fun _ hv _ _ => ⟨hv, Nat.succ_pos _⟩,
      by simpa [Cached] using hi⟩
  · exact ⟨h.recycle href hnew rfl rfl, by simp [Cached]⟩

theorem Rep.fill (h : c.Rep dev disk cont) (hi : c.Cached dev b i)
    (hv : (c.buf i).valid = false) (lock : Option Nat) :
    (c.set i { c.buf i with data := disk (c.buf i).blockno, valid := true, lock }).Rep dev disk
      cont := by
  have hdisk : disk b = cont b := by
    by_contra hne
    obtain ⟨j, hj, hjb, hjv, -⟩ := h.back b hne
    rw [h.uniq j i hj hi.1 (hjb.trans hi.2.symm), hv] at hjv
    exact absurd hjv (by simp)
  exact h.set rfl rfl (fun _ _ => by simp only [hi.2, hdisk])
    fun _ hv' _ _ => absurd (hv.symm.trans hv') (by simp)

/-! ## `brelse` -/

theorem dec_of_pos {n : Nat} (h : 0 < n) : dec n = n - 1 := if_neg (by omega)

theorem brelse_buf (c : Bcache) (i : BufId) :
    (c.brelse i).buf = (c.set i { c.buf i with refcnt := dec (c.buf i).refcnt }).buf := by
  dsimp only [brelse]
  split <;> rfl

theorem mem_brelse_lru (h : ∀ j, j ∈ c.lru) (i j : BufId) : j ∈ (c.brelse i).lru := by
  dsimp only [brelse]
  split
  · by_cases hj : j = i
    · exact hj ▸ List.mem_cons_self
    · exact List.mem_cons_of_mem _ ((List.mem_erase_of_ne hj).mpr (h j))
  · exact h j

variable (h : c.Rep dev disk cont) (href : 0 < (c.buf i).refcnt)
  (hback : (c.buf i).refcnt = 1 → (c.buf i).dev = dev → disk (c.buf i).blockno = cont (c.buf i).blockno)
include h href hback

theorem Rep.decr : (c.set i { c.buf i with refcnt := dec (c.buf i).refcnt }).Rep dev disk cont := by
  refine h.set rfl rfl (h.data i) fun hdev hv _ hne => ⟨hv, ?_⟩
  show 0 < dec (c.buf i).refcnt
  rw [dec_of_pos href]
  have : (c.buf i).refcnt ≠ 1 := fun h1 => hne (hback h1 hdev)
  omega

theorem Rep.brelse : (c.brelse i).Rep dev disk cont :=
  (h.decr href hback).of_buf (brelse_buf c i) (mem_brelse_lru h.lru i)

end Bcache

end Xv6
