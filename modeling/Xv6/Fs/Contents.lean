import Xv6.Fs.Logged

/-!
# The contents of a file

A file is an array of bytes: byte `k` is byte `k % BSIZE` of block `k / BSIZE` of the file
(`fileByte`).  `readi` reads this array and changes nothing, and `writei` changes the bytes it is asked
to change, of this file only.
-/

namespace Xv6.Fs

open Function (update_of_ne update_self)
open Prog

-- so that programs are run by the rules only
attribute [local irreducible] wp

/-! ## Bytes of a file -/

def fileByte (L : Layout) (ino : Nat → Dinode) (d : Nat → Block) (i k : Nat) : UInt8 :=
  (d (refs L ino d (i, .data (k / bsize)))).byte (k % bsize)

def fileBytes (L : Layout) (ino : Nat → Dinode) (d : Nat → Block) (i off m : Nat) : List UInt8 :=
  (List.range m).map fun k => fileByte L ino d i (off + k)

def Unbroken (L : Layout) (ino : Nat → Dinode) (d : Nat → Block) (i : Nat) : Prop :=
  ∀ bn, bn * bsize < (ino i).size.toNat → bn < maxFile ∧ refs L ino d (i, .data bn) ≠ 0

section Bytes

variable {L : Layout} {ino : Nat → Dinode} {d : Nat → Block} {i : Nat}

theorem Place.data_ne_indirect (bn : Nat) : Place.data bn ≠ .indirect := by
  rw [Place.data]
  split
  · rename_i h
    intro heq
    have := congrArg Fin.val (Place.addrs.inj heq)
    exact Nat.ne_of_lt h this
  · simp

theorem Place.data_inj {m n : Nat} (hm : m < maxFile) (hn : n < maxFile)
    (h : Place.data m = Place.data n) : m = n := by
  rw [Place.data, Place.data] at h
  split at h
  · split at h
    · exact congrArg Fin.val (Place.addrs.inj h)
    · exact absurd h (by simp)
  · split at h
    · exact absurd h (by simp)
    · have hmod := congrArg Fin.val (Place.entry.inj h)
      simp only [ndirect, nindirect, maxFile] at *
      omega

theorem fileBytes_add (off m n : Nat) : fileBytes L ino d i off (m + n) =
    fileBytes L ino d i off m ++ fileBytes L ino d i (off + m) n := by
  rw [fileBytes, List.range_add, List.map_append, List.map_map, fileBytes, fileBytes]
  simp only [Function.comp_def, Nat.add_assoc]

theorem length_fileBytes (off m : Nat) : (fileBytes L ino d i off m).length = m := by
  rw [fileBytes, List.length_map, List.length_range]

theorem take_fileBytes {off m n : Nat} (h : n ≤ m) :
    (fileBytes L ino d i off m).take n = fileBytes L ino d i off n := by
  obtain ⟨k, rfl⟩ := Nat.exists_eq_add_of_le h
  rw [fileBytes_add, List.take_left' (length_fileBytes off n)]

theorem slice_eq {off m : Nat} (hm : off % bsize + m ≤ bsize) :
    Vol.slice (d (refs L ino d (i, .data (off / bsize)))) (off % bsize) m =
      fileBytes L ino d i off m := by
  refine List.map_congr_left fun k hk => ?_
  have hk : k < m := List.mem_range.mp hk
  have hdiv : (off + k) / bsize = off / bsize := by
    simp only [bsize] at *
    omega
  have hmod : (off + k) % bsize = off % bsize + k := by
    simp only [bsize] at *
    omega
  rw [fileByte, hdiv, hmod]

end Bytes

namespace Vol

section Readi

variable {L : Layout} {s : Vol} {i : Nat} {E : Stop → Vol → Prop}

theorem wp_readLoop {Q : Int × List UInt8 → Vol → Prop} {off n ok f tot : Nat} {acc : List UInt8}
    (h : Own L (s.ino L i) s.block []) (hi : i < L.ninodes) (ht : (s.mem i).type ≠ 0)
    (hmax : off + n ≤ maxFile * bsize)
    (hthere : ∀ k, off ≤ k → k < off + n → refs L (s.ino L i) s.block (i, .data (k / bsize)) ≠ 0)
    (hf : n ≤ tot + f) (htot : tot ≤ n) (hok : tot ≤ ok)
    (hacc : acc = fileBytes L (s.ino L i) s.block i off tot)
    (hQ : Q (if n ≤ ok then n else -1, fileBytes L (s.ino L i) s.block i off (min n ok)) s) :
    wp (readLoop L i off n ok f tot acc) Q E s := by
  induction f generalizing tot acc with
  | zero =>
    obtain rfl : tot = n := by omega
    rw [if_pos hok, Nat.min_eq_left hok] at hQ
    rw [readLoop, wp_pure, hacc]
    exact hQ
  | succ f ih =>
    rw [readLoop, wp_ite]
    split
    · rename_i hlt
      have hne := hthere (off + tot) (by omega) (by omega)
      have hbn : (off + tot) / bsize < maxFile := by
        simp only [bsize, maxFile, ndirect, nindirect] at *
        omega
      rw [wp_bind]
      refine wp_bmap h hi ht hbn (fun h0 => absurd h0 hne) (fun _ => ?_) fun _ _ h0 => absurd h0 hne
      rw [if_neg hne, wp_bind, wp_get]
      dsimp only
      -- the block has `m` bytes of what is asked for
      obtain ⟨m, hm⟩ : ∃ m, m = min (n - tot) (bsize - (off + tot) % bsize) := ⟨_, rfl⟩
      have hm0 : 0 < m := by
        have := Nat.mod_lt (off + tot) (show 0 < bsize by decide)
        omega
      have hblock : (off + tot) % bsize + m ≤ bsize := by
        have := Nat.mod_lt (off + tot) (show 0 < bsize by decide)
        omega
      rw [← hm, slice_eq hblock, hacc, wp_ite]
      split
      · have hmin : min n ok = tot + (ok - tot) := by omega
        rw [if_neg (by omega), hmin, fileBytes_add] at hQ
        rw [take_fileBytes (by omega), wp_pure]
        exact hQ
      · exact ih (by omega) (by omega) (by omega) (fileBytes_add off tot m).symm
    · obtain rfl : tot = n := by omega
      rw [if_pos hok, Nat.min_eq_left hok] at hQ
      rw [wp_pure, hacc]
      exact hQ

/-- **`readi`** of a file without holes returns its bytes, and the state stays as it is: nothing is
allocated. -/
theorem wp_readi {Q : Int × List UInt8 → Vol → Prop} {off n : UInt32} {ok : Nat}
    (h : Own L (s.ino L i) s.block []) (hi : i < L.ninodes) (ht : (s.mem i).type ≠ 0)
    (hwhole : Unbroken L (s.ino L i) s.block i)
    (hout : (s.mem i).size.toNat < off.toNat ∨ 2 ^ 32 ≤ off.toNat + n.toNat → Q (0, []) s)
    (hin : off.toNat ≤ (s.mem i).size.toNat → off.toNat + n.toNat < 2 ^ 32 →
      ∀ m, m = min n.toNat ((s.mem i).size.toNat - off.toNat) →
      Q (if m ≤ ok then m else -1, fileBytes L (s.ino L i) s.block i off.toNat (min m ok)) s) :
    wp (readi L i off n ok) Q E s := by
  rw [readi, wp_bind, wp_get, wp_ite]
  split
  · rename_i hbad
    exact .pure (hout hbad)
  · rename_i hgood
    have hoff : off.toNat ≤ (s.mem i).size.toNat := by omega
    have hm : (if (s.mem i).size.toNat < off.toNat + n.toNat then (s.mem i).size.toNat - off.toNat
        else n.toNat) = min n.toNat ((s.mem i).size.toNat - off.toNat) := by
      split <;> omega
    have hsize : (s.ino L i i).size = (s.mem i).size := by rw [ino_self]
    have hthere : ∀ k < (s.mem i).size.toNat, k / bsize < maxFile ∧
        refs L (s.ino L i) s.block (i, .data (k / bsize)) ≠ 0 := by
      intro k hk
      refine hwhole (k / bsize) ?_
      rw [hsize]
      exact Nat.lt_of_le_of_lt (Nat.div_mul_le_self k bsize) hk
    rw [hm]
    refine wp_readLoop h hi ht ?_ (fun k _ hk => (hthere k (by omega)).2) (by omega) (by omega)
      (by omega) rfl (hin hoff (by omega) _ rfl)
    -- the last byte that is read is in one of the blocks
    by_cases h0 : (s.mem i).size.toNat = 0
    · simp only [maxFile, bsize, ndirect, nindirect]
      omega
    · have := (hthere ((s.mem i).size.toNat - 1) (by omega)).1
      simp only [maxFile, bsize, ndirect, nindirect] at *
      omega

end Readi

/-! ## `writei` -/

/-- Between the two states bytes of file `i` have been written: those from `lo` up to `mid` are now
those of `f`, and those before `lo` and from `hi` on are the same.  The blocks that hold bytes from
`lo` up to `top` may have been given to `log_write`. -/
structure Wrote (L : Layout) (i lo mid hi top : Nat) (f : Nat → UInt8) (s t : Vol) : Prop
    extends Frame L i s t where
  own : Own L (t.ino L i) t.block []
  data : ∀ j ≠ i, ∀ p, p ≠ .indirect → refs L (s.ino L i) s.block (j, p) ≠ 0 →
    t.block (refs L (s.ino L i) s.block (j, p)) = s.block (refs L (s.ino L i) s.block (j, p))
  outside : ∀ k < maxFile * bsize, k < lo ∨ hi ≤ k →
    refs L (s.ino L i) s.block (i, .data (k / bsize)) ≠ 0 →
    fileByte L (t.ino L i) t.block i k = fileByte L (s.ino L i) s.block i k
  inside : ∀ k, lo ≤ k → k < mid → refs L (t.ino L i) t.block (i, .data (k / bsize)) ≠ 0 ∧
    fileByte L (t.ino L i) t.block i k = f k
  fresh : ∀ q, refs L (s.ino L i) s.block (i, q) = 0 → refs L (t.ino L i) t.block (i, q) ≠ 0 →
    ∃ k, lo ≤ k ∧ k < top ∧ (Place.data (k / bsize)).Under q
  logs : ∀ b ∈ t.logged, b ∈ s.logged ∨ (∃ c < L.size, b = L.bblock c) ∨
    Keeps L i (fun q => q = .indirect ∨ ∃ k, lo ≤ k ∧ k < top ∧ q = .data (k / bsize)) t b

namespace Wrote

variable {L : Layout} {i lo mid hi top a m : Nat} {f : Nat → UInt8} {s t u : Vol}

theorem refl (h : Own L (s.ino L i) s.block []) (lo top : Nat) (f : Nat → UInt8) :
    Wrote L i lo lo lo top f s s where
  toFrame := .refl L i s
  own := h
  data _ _ _ _ _ := rfl
  outside _ _ _ _ := rfl
  inside k hk hk' := absurd hk (by omega)
  fresh _ hq hq' := absurd hq hq'
  logs _ hb := .inl hb

theorem widen (h : Wrote L i lo mid hi top f s t) {top' : Nat} (htop : top ≤ top') :
    Wrote L i lo mid hi top' f s t :=
  { h with
    fresh := fun q hq hq' => by
      obtain ⟨k, hk, hk', hunder⟩ := h.fresh q hq hq'
      exact ⟨k, hk, by omega, hunder⟩
    logs := fun b hb => by
      refine (h.logs b hb).imp_right (Or.imp_right fun hb => hb.mono fun q hq => ?_)
      exact hq.imp_right fun ⟨k, hk, hk', heq⟩ => ⟨k, hk, by omega, heq⟩ }

theorem mapped {k : Nat} (h : Wrote L i lo mid hi top f s t) (hk : lo ≤ k) (hk' : k < top)
    (hmap : Mapped L i (.data (k / bsize)) t a u) : Wrote L i lo mid hi top f s u := by
  have hbyte : ∀ l, refs L (t.ino L i) t.block (i, .data (l / bsize)) ≠ 0 →
      fileByte L (u.ino L i) u.block i l = fileByte L (t.ino L i) t.block i l := by
    intro l hl
    rw [fileByte, hmap.grows.keep _ hl, hmap.grows.data _ (Place.data_ne_indirect _) hl, fileByte]
  refine ⟨h.toFrame.trans hmap.grows.toFrame, hmap.own, fun j hj p hp h0 => ?_,
    fun l hl hout h0 => ?_, fun l hl hl' => ?_, fun q hq hq' => ?_, fun b hb => ?_⟩
  · have hother := h.other j hj p
    have h0' : refs L (t.ino L i) t.block (j, p) ≠ 0 := by rwa [hother]
    rw [← h.data j hj p hp h0, ← hother]
    exact hmap.grows.data (j, p) hp h0'
  · have h0' : refs L (t.ino L i) t.block (i, .data (l / bsize)) ≠ 0 := by rwa [h.keep _ h0]
    rw [hbyte l h0', h.outside l hl hout h0]
  · obtain ⟨h0, hf⟩ := h.inside l hl hl'
    rw [hbyte l h0, hmap.grows.keep _ h0]
    exact ⟨h0, hf⟩
  · by_cases hqt : refs L (t.ino L i) t.block (i, q) = 0
    · exact ⟨k, hk, hk', hmap.fresh q hqt hq'⟩
    · exact h.fresh q hq hqt
  · rcases hmap.logs b hb with hb | hb | hb
    · rcases h.logs b hb with hb | hb | hb
      · exact .inl hb
      · exact .inr (.inl hb)
      · exact .inr (.inr (hmap.grows.keeps hb))
    · exact .inr (.inl hb)
    · refine .inr (.inr (hb.mono fun q hq => ?_))
      rcases hq with rfl | rfl
      · exact .inl rfl
      · exact .inr ⟨k, hk, hk', rfl⟩

end Wrote

section SetBlock

variable {L : Layout} {i j a : Nat} {p : Place} {s : Vol}

theorem ino_setBlock (ha : L.nmeta ≤ a) (e : Block) {k : Nat} (hk : k < L.ninodes) :
    (s.setBlock a e).ino L i k = s.ino L i k := by
  by_cases hki : k = i
  · subst hki
    exact (update_self ..).trans (ino_self L k s).symm
  · exact (update_of_ne hki ..).trans
      ((Layout.dinode_update_data hk ha e).trans (update_of_ne hki ..).symm)

section

variable (h : Own L (s.ino L i) s.block []) (ha : refs L (s.ino L i) s.block (j, p) = a)
  (ha0 : a ≠ 0)
include h ha ha0

theorem refs_setBlock (hp : p ≠ .indirect) (e : Block)
    (q : Nat × Place) : refs L ((s.setBlock a e).ino L i) (s.setBlock a e).block q =
      refs L (s.ino L i) s.block q := by
  subst ha
  obtain ⟨k, q⟩ := q
  by_cases hk : k < L.ninodes
  · refine refs_congr (ino_setBlock (h.range ha0).2 e hk)
      (fun _ _ ht => update_of_ne ?_ ..) q
    exact (h.ne_indirect hk ht ha0 fun heq => hp (congrArg Prod.snd heq)).symm
  · rw [refs_of_not_lt hk, refs_of_not_lt hk]

theorem frame_setBlock (hp : p ≠ .indirect) (e : Block) : Frame L i s (s.setBlock a e) where
  ref := rfl
  valid := rfl
  inuse := rfl
  inOp := rfl
  mem _ _ := rfl
  fields := rfl
  disk k hk := by
    subst ha
    exact Layout.dinode_update_data hk (h.range ha0).2 e
  other k _ q := refs_setBlock h ha ha0 hp e (k, q)
  keep q _ := refs_setBlock h ha ha0 hp e (i, q)

theorem own_setBlock (hp : p ≠ .indirect) (e : Block) :
    Own L ((s.setBlock a e).ino L i) (s.setBlock a e).block [] := by
  subst ha
  exact (h.setData ha0 hp e).of_eq fun k hk => ino_setBlock (h.range ha0).2 e hk

end

theorem fileByte_setBlock {bn k : Nat} (h : Own L (s.ino L i) s.block [])
    (ha : refs L (s.ino L i) s.block (i, .data bn) = a) (ha0 : a ≠ 0) (hbn : bn < maxFile)
    (hk : k / bsize < maxFile) (e : Block) :
    fileByte L ((s.setBlock a e).ino L i) (s.setBlock a e).block i k =
      if k / bsize = bn then e.byte (k % bsize) else fileByte L (s.ino L i) s.block i k := by
  rw [fileByte, refs_setBlock h ha ha0 (Place.data_ne_indirect bn) e]
  split
  · rename_i hkbn
    rw [hkbn, ha]
    exact congrArg (Bytes.byte · _) (update_self ..)
  · rename_i hkbn
    refine congrArg (Bytes.byte · _) (update_of_ne (fun heq => hkbn ?_) ..)
    rw [← ha] at heq ha0
    have hplace := Pool.Exact.inj h _ _ heq.symm ha0
    exact (Place.data_inj hbn hk (congrArg Prod.snd hplace)).symm

end SetBlock

namespace Wrote

variable {L : Layout} {i lo mid hi top a m : Nat} {f : Nat → UInt8} {s t u : Vol}

theorem splice (h : Wrote L i lo mid mid top f s t) (hlo : lo ≤ mid)
    (ha : refs L (t.ino L i) t.block (i, .data (mid / bsize)) = a) (ha0 : a ≠ 0)
    (hmax : mid / bsize < maxFile) (hm : mid % bsize + m ≤ bsize) :
    Wrote L i lo (mid + m) (mid + m) top f s (t.setBlock a
      ((t.block a).splice (mid % bsize) m fun k => f (mid + k))) := by
  have hp := Place.data_ne_indirect (mid / bsize)
  obtain ⟨e, he⟩ : ∃ e, e = (t.block a).splice (mid % bsize) m fun k => f (mid + k) := ⟨_, rfl⟩
  rw [← he]
  have hframe := frame_setBlock h.own ha ha0 hp e
  have hrefs := refs_setBlock h.own ha ha0 hp e
  have hblock : ∀ k, mid ≤ k → k < mid + m → k / bsize = mid / bsize := by
    intro k hk hk'
    simp only [bsize] at *
    omega
  have hbyte : ∀ k, k / bsize < maxFile →
      fileByte L ((t.setBlock a e).ino L i) (t.setBlock a e).block i k =
        if mid ≤ k ∧ k < mid + m then f k else fileByte L (t.ino L i) t.block i k := by
    intro k hk
    rw [fileByte_setBlock h.own ha ha0 hmax hk]
    by_cases hkm : k / bsize = mid / bsize
    · have hsub : mid ≤ k → mid % bsize ≤ k % bsize ∧ mid + (k % bsize - mid % bsize) = k := by
        simp only [bsize] at hkm ⊢
        omega
      have hge : k < mid → k % bsize < mid % bsize := by
        simp only [bsize] at hkm ⊢
        omega
      rw [if_pos hkm, he]
      split
      · obtain ⟨hle, heq⟩ := hsub (by omega)
        rw [Bytes.byte_splice_of_mem (Nat.mod_lt _ (by decide)) hle (by omega), heq]
      · rw [Bytes.byte_splice_of_not_mem (by omega), fileByte, hkm, ha]
    · rw [if_neg hkm, if_neg]
      exact fun hin => hkm (hblock k hin.1 hin.2)
  refine ⟨h.toFrame.trans hframe, own_setBlock h.own ha ha0 hp e, fun j hj p hp' h0 => ?_,
    fun k hk hout h0 => ?_, fun k hk hk' => ?_, fun q hq hq' => h.fresh q hq (hrefs (i, q) ▸ hq'),
    fun b hb => ?_⟩
  · have hother := h.other j hj p
    refine (update_of_ne ?_ ..).trans (h.data j hj p hp' h0)
    rw [← hother, ← ha]
    intro heq
    have hplace := Pool.Exact.inj h.own _ _ heq (by rwa [hother])
    exact hj (congrArg Prod.fst hplace)
  · rw [hbyte k (by simp only [bsize] at *; omega), if_neg (by omega)]
    exact h.outside k hk (by omega) h0
  · rw [hrefs]
    by_cases hkm : k < mid
    · obtain ⟨h0, hf⟩ := h.inside k hk hkm
      have hlt : k / bsize < maxFile := Nat.lt_of_le_of_lt (Nat.div_le_div_right hkm.le) hmax
      rw [hbyte k hlt, if_neg (by omega)]
      exact ⟨h0, hf⟩
    · have hdiv := hblock k (by omega) hk'
      rw [hbyte k (hdiv ▸ hmax), if_pos ⟨by omega, hk'⟩, hdiv, ha]
      exact ⟨ha0, rfl⟩
  · rcases h.logs b hb with hb | hb | hb
    · exact .inl hb
    · exact .inr (.inl hb)
    · exact .inr (.inr (hframe.keeps hb))

theorem log (h : Wrote L i lo mid hi top f s t) {k : Nat} (hk : lo ≤ k) (hk' : k < top)
    (ha : refs L (t.ino L i) t.block (i, .data (k / bsize)) = a) (ha0 : a ≠ 0) :
    Wrote L i lo mid hi top f s (t.log a) where
  toFrame := ⟨⟨h.ref, h.valid, h.inuse, h.inOp, h.mem⟩, h.fields, h.disk, h.other, h.keep⟩
  own := h.own
  data := h.data
  outside := h.outside
  inside := h.inside
  fresh := h.fresh
  logs b hb := by
    rcases mem_log hb with hb | rfl
    · exact h.logs b hb
    · exact .inr (.inr ⟨ha0, _, .inr ⟨k, hk, hk', rfl⟩, ha⟩)

end Wrote

section Writei

variable {L : Layout} {i : Nat} {E : Stop → Vol → Prop}

/-- The end of `writei`, where the size is at least `e`. -/
def grow (t : Vol) (i e : Nat) : Vol :=
  if (t.mem i).size.toNat < e then t.setMem i { t.mem i with size := .ofNat e } else t

/-- The end of the loop of `writei` after `r` bytes, all of them or because there is no block. -/
structure Ended (L : Layout) (i off n ok r : Nat) (t : Vol) : Prop where
  le : r ≤ n
  reach : r ≤ ok
  full : r < n → (∀ b < L.size, L.bit t.block b = true) ∧
    refs L (t.ino L i) t.block (i, .data ((off + r) / bsize)) = 0

/-- The loop of `writei` has written `r` bytes since `s₀`, and the copy to the next block, which is
`a`, fails. -/
structure Torn (L : Layout) (i off n ok r a : Nat) (s₀ t : Vol) : Prop where
  reach : r ≤ ok
  lt : ok < r + min (n - r) (bsize - (off + r) % bsize)
  start : r = 0 ∨ (off + r) % bsize = 0
  addr : refs L (t.ino L i) t.block (i, .data ((off + r) / bsize)) = a
  ne : a ≠ 0
  new : refs L (s₀.ino L i) s₀.block (i, .data ((off + r) / bsize)) = 0 → a ∈ t.logged

/-- The block `a` after the copy has failed: what could be copied is there. -/
def tear (t : Vol) (off ok r a : Nat) (src : Nat → UInt8) : Vol :=
  t.setBlock a ((t.block a).splice ((off + r) % bsize) (ok - r) fun k => src (r + k))

/-- The bytes up to which blocks have been allocated and logged when the copy of byte `k` fails. -/
def tornTop (L : Layout) (i k : Nat) (s₀ : Vol) : Nat :=
  if refs L (s₀.ino L i) s₀.block (i, .data (k / bsize)) = 0 then k + 1 else k

theorem Wrote.missing {off tot n : Nat} {f : Nat → UInt8} {s₀ s : Vol}
    (h : Wrote L i off (off + tot) (off + tot) (off + tot) f s₀ s)
    (hstart : tot = 0 ∨ tot = n ∨ (off + tot) % bsize = 0) (hlt : tot < n)
    (hbn : (off + tot) / bsize < maxFile)
    (h0 : refs L (s₀.ino L i) s₀.block (i, .data ((off + tot) / bsize)) = 0) :
    refs L (s.ino L i) s.block (i, .data ((off + tot) / bsize)) = 0 := by
  by_contra hne
  obtain ⟨k, hk, hk', hunder⟩ := h.fresh _ h0 hne
  have hle : k / bsize ≤ (off + tot) / bsize := Nat.div_le_div_right hk'.le
  rcases hunder with heq | ⟨heq, -⟩
  · have hkbn := Place.data_inj hbn (by omega) heq
    simp only [bsize] at *
    omega
  · exact Place.data_ne_indirect _ heq

theorem wp_writeLoop {Q : Nat → Vol → Prop} {off n ok f tot : Nat} {src : Nat → UInt8} {s₀ s : Vol}
    (h : Wrote L i off (off + tot) (off + tot) (off + tot) (fun k => src (k - off)) s₀ s)
    (hlog : Logs s₀ s) (hi : i < L.ninodes) (ht : (s.mem i).type ≠ 0) (hop : s.inOp = true)
    (hmax : off + n ≤ maxFile * bsize) (hf : n ≤ tot + f) (htot : tot ≤ n) (hok : tot ≤ ok)
    (hstart : tot = 0 ∨ tot = n ∨ (off + tot) % bsize = 0)
    (hdone : ∀ r t, Ended L i off n ok r t → Wrote L i off (off + r) (off + r)
      (min (off + r + 1) (off + n)) (fun k => src (k - off)) s₀ t → Logs s₀ t → Q r t)
    (htorn : ∀ r a t, Torn L i off n ok r a s₀ t → Wrote L i off (off + r) (off + r)
      (tornTop L i (off + r) s₀) (fun k => src (k - off)) s₀ t → Logs s₀ t →
      Q r (t.tear off ok r a src)) :
    wp (writeLoop L i off n ok src f tot) Q E s := by
  -- by induction on the rounds left
  induction f generalizing tot s with
  | zero =>
    obtain rfl : tot = n := by omega
    rw [writeLoop, wp_pure]
    exact hdone tot s ⟨htot, hok, fun hlt => absurd hlt (by omega)⟩ (h.widen (by omega)) hlog
  | succ f ih =>
    rw [writeLoop, wp_ite]
    split
    · rename_i hlt
      have hbn : (off + tot) / bsize < maxFile := by
        simp only [bsize, maxFile, ndirect, nindirect] at *
        omega
      -- what follows, once there is a block or the disk is full
      have hrest : ∀ a t, Wrote L i off (off + tot) (off + tot) (tornTop L i (off + tot) s₀)
          (fun k => src (k - off)) s₀ t → Logs s₀ t → (t.mem i).type ≠ 0 → t.inOp = true →
          refs L (t.ino L i) t.block (i, .data ((off + tot) / bsize)) = a →
          (a = 0 → ∀ b < L.size, L.bit t.block b = true) →
          (refs L (s₀.ino L i) s₀.block (i, .data ((off + tot) / bsize)) = 0 → a ≠ 0 →
            a ∈ t.logged) →
          wp (if a = 0 then pure tot else do
            let s ← get
            let m := min (n - tot) (bsize - (off + tot) % bsize)
            if ok < tot + m then
              modify fun s => s.setBlock a
                ((s.block a).splice ((off + tot) % bsize) (ok - tot) fun k => src (tot + k))
              return tot
            else
              write a ((s.block a).splice ((off + tot) % bsize) m fun k => src (tot + k))
              writeLoop L i off n ok src f (tot + m)) Q E t := by
        intro a t hw hl ht' hop' ha hfull hnew
        have htop : tornTop L i (off + tot) s₀ ≤ off + tot + 1 := by
          rw [tornTop]
          split <;> omega
        rw [wp_ite]
        split
        · rename_i ha0
          exact .pure (hdone tot t ⟨htot, hok, fun _ => ⟨hfull ha0, ha.trans ha0⟩⟩
            (hw.widen (by omega)) hl)
        · rename_i ha0
          obtain ⟨m, hm⟩ : ∃ m, m = min (n - tot) (bsize - (off + tot) % bsize) := ⟨_, rfl⟩
          have hmod := Nat.mod_lt (off + tot) (show 0 < bsize by decide)
          have hsrc : (fun k => src (tot + k)) = fun k => src (off + tot + k - off) := by
            funext k
            congr 1
            omega
          rw [wp_bind, wp_get]
          dsimp only
          rw [← hm, wp_ite]
          split
          · -- the copy fails: what it could copy is in the block
            rw [wp_bind, wp_modify, wp_pure]
            exact htorn tot a t ⟨hok, by omega, by omega, ha, ha0, fun h0 => hnew h0 ha0⟩ hw hl
          · rw [hsrc]
            have hw' := ((hw.widen htop).splice (m := m) (by omega) ha ha0 hbn (by omega)).log
              (k := off + tot) (by omega) (by omega)
              ((refs_setBlock hw.own ha ha0 (Place.data_ne_indirect _) _ _).trans ha) ha0
            rw [wp_bind]
            rw [Nat.add_assoc off tot m] at hw'
            refine wp_write hop' (ih (hw'.widen (by omega)) (hl.trans (.write t a _)) ht' hop'
              (by omega) (by omega) (by omega) ?_)
            simp only [bsize] at *
            omega
      rw [wp_bind]
      refine wp_bmapLogs h.own hi ht hbn (fun _ => hop) (fun hne => ?_) fun a t h0 hmap hl => ?_
      · have hne₀ : refs L (s₀.ino L i) s₀.block (i, .data ((off + tot) / bsize)) ≠ 0 :=
          fun h0 => hne (h.missing hstart hlt hbn h0)
        refine hrest _ s (h.widen ?_) hlog ht hop rfl (fun h0 => absurd h0 hne)
          fun h0 => absurd h0 hne₀
        rw [tornTop, if_neg hne₀]
      · have h0' : refs L (s₀.ino L i) s₀.block (i, .data ((off + tot) / bsize)) = 0 := by
          by_contra hne
          exact hne ((h.keep _ hne).symm.trans h0)
        have htop : tornTop L i (off + tot) s₀ = off + tot + 1 := by rw [tornTop, if_pos h0']
        refine hrest a t ?_ (hlog.trans hl) (by rwa [hmap.grows.type_eq])
          (hmap.grows.inOp.trans hop) hmap.addr hmap.full fun _ => hmap.lands
        rw [htop]
        exact (h.widen (Nat.le_succ _)).mapped (by omega) (by omega) hmap
    · obtain rfl : tot = n := by omega
      rw [wp_pure]
      exact hdone tot s ⟨htot, hok, fun hlt => absurd hlt (by omega)⟩ (h.widen (by omega)) hlog

/-- **`writei`** writes the first bytes of what it is given, all of them unless the disk is full or
they cannot be copied, and then the inode. -/
theorem wp_writei {Q : Int → Vol → Prop} {off n : UInt32} {ok : Nat} {src : Nat → UInt8} {s : Vol}
    (h : Own L (s.ino L i) s.block []) (hi : i < L.ninodes) (ht : (s.mem i).type ≠ 0)
    (hop : s.inOp = true)
    (hbad : (s.mem i).size.toNat < off.toNat ∨ 2 ^ 32 ≤ off.toNat + n.toNat ∨
      maxFile * bsize < off.toNat + n.toNat → Q (-1) s)
    (hdone : off.toNat ≤ (s.mem i).size.toNat → off.toNat + n.toNat ≤ maxFile * bsize →
      ∀ (r : Nat) (t : Vol), Ended L i off.toNat n.toNat ok r t →
      Wrote L i off.toNat (off.toNat + r) (off.toNat + r)
        (min (off.toNat + r + 1) (off.toNat + n.toNat)) (fun k => src (k - off.toNat)) s t →
      Logs s t → Q r ((t.grow i (off.toNat + r)).store L i))
    (htorn : off.toNat ≤ (s.mem i).size.toNat → off.toNat + n.toNat ≤ maxFile * bsize →
      ∀ (r a : Nat) (t : Vol), Torn L i off.toNat n.toNat ok r a s t →
      Wrote L i off.toNat (off.toNat + r) (off.toNat + r) (tornTop L i (off.toNat + r) s)
        (fun k => src (k - off.toNat)) s t →
      Logs s t → Q r (((t.tear off.toNat ok r a src).grow i (off.toNat + r)).store L i)) :
    wp (writei L i off n src ok) Q E s := by
  -- the end of `writei`, once the loop has written `r` bytes
  have hend : ∀ (r : Nat) (t : Vol), t.inOp = true →
      Q r ((t.grow i (off.toNat + r)).store L i) → wp (do
        modify fun s =>
          if (s.mem i).size.toNat < off.toNat + r then
            s.setMem i { s.mem i with size := .ofNat (off.toNat + r) }
          else s
        iupdate L i
        return (r : Int)) Q E t := by
    intro r t hop' hQ
    rw [wp_bind, wp_modify, wp_bind]
    refine wp_iupdate ?_ ?_
    · rw [← hop']
      split <;> rfl
    · exact .pure hQ
  rw [writei, wp_bind, wp_get, wp_ite]
  split
  · rename_i hout
    exact .pure (hbad (by omega))
  · rename_i hin
    rw [wp_ite]
    split
    · rename_i hlarge
      exact .pure (hbad (.inr (.inr hlarge)))
    · rename_i hsmall
      rw [wp_bind]
      refine wp_writeLoop (.refl h _ _ _) (.refl s) hi ht hop (by omega) (by omega) (by omega)
        (by omega) (.inl rfl) (fun r t hr hw hl => ?_) fun r a t hr hw hl => ?_
      · exact hend r t (hw.inOp.trans hop) (hdone (by omega) (by omega) r t hr hw hl)
      · exact hend r _ (hw.inOp.trans hop) (htorn (by omega) (by omega) r a t hr hw hl)

end Writei

end Vol

end Xv6.Fs
