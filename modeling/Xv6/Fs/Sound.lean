import Xv6.Fs.Contents

/-!
# Sound states

Between calls the inodes in the table agree with the disk, so everything can be said about the disk:
`Vol.addrOf` is the block number that an inode keeps at a place, and `Vol.byteOf` a byte of a file.
A state is `Sound` if the accounts of the blocks are exact, no file has holes, and the table agrees
with the disk.
-/

namespace Xv6.Fs

open Function (update_of_ne update_eq_self update_comm)
open Prog

attribute [local irreducible] wp

namespace Vol

def addrOf (L : Layout) (s : Vol) (q : Nat × Place) : Nat := refs L (L.dinode s.block) s.block q

def byteOf (L : Layout) (s : Vol) (i k : Nat) : UInt8 := fileByte L (L.dinode s.block) s.block i k

def bytesOf (L : Layout) (s : Vol) (i off m : Nat) : List UInt8 :=
  fileBytes L (L.dinode s.block) s.block i off m

/-- The accounts of the blocks are exact, no file has holes, and the table agrees with the disk. -/
structure Sound (L : Layout) (s : Vol) : Prop where
  own : Own L (L.dinode s.block) s.block []
  whole : ∀ i < L.ninodes, (L.dinode s.block i).type ≠ 0 → Unbroken L (L.dinode s.block) s.block i
  sync : ∀ i, s.valid i = true →
    i < L.ninodes ∧ s.mem i = L.dinode s.block i ∧ (s.mem i).type ≠ 0

section Sound

variable {L : Layout} {s t u : Vol} {i j : Nat}

variable {hi k lo m mid off ok top top' : Nat}

theorem getElem?_bytesOf (hk : k < m) :
    (s.bytesOf L i off m)[k]? = some (s.byteOf L i (off + k)) := by
  rw [bytesOf, fileBytes, List.getElem?_map, List.getElem?_range hk]
  rfl

theorem addrOf_ne_zero (h : Unbroken L (L.dinode s.block) s.block j) {k : Nat}
    (hk : k < (L.dinode s.block j).size.toNat) :
    k < maxFile * bsize ∧ s.addrOf L (j, .data (k / bsize)) ≠ 0 := by
  obtain ⟨hlt, h0⟩ := h (k / bsize) (Nat.lt_of_le_of_lt (Nat.div_mul_le_self k bsize) hk)
  exact ⟨(Nat.div_lt_iff_lt_mul (by decide)).mp hlt, h0⟩

theorem Sound.ino_eq (h : Sound L s) (hv : s.valid i = true) : s.ino L i = L.dinode s.block := by
  rw [ino, (h.sync i hv).2.1, update_eq_self]

theorem grow_eq (t : Vol) (i e : Nat) : t.grow i e = t.setMem i { t.mem i with
    size := if (t.mem i).size.toNat < e then .ofNat e else (t.mem i).size } := by
  rw [grow]
  split
  · rfl
  · rw [setMem, update_eq_self]

theorem block_setStore (L : Layout) (t : Vol) (i : Nat) (x : Dinode) :
    ((t.setMem i x).store L i).block = L.putDinode t.block i x :=
  congrArg (L.putDinode t.block i) (mem_setMem t i x)

theorem dinode_setStore (L : Layout) (t : Vol) (i : Nat) (x : Dinode) :
    L.dinode ((t.setMem i x).store L i).block = Function.update (t.ino L i) i x := by
  rw [dinode_store, ino_setMem]

theorem addrOf_setStore {x : Dinode} (h : Own L (t.ino L i) t.block []) (hi : i < L.ninodes)
    (hx : x.addrs = (t.mem i).addrs) (ht : x.type = 0 ↔ (t.mem i).type = 0) (q : Nat × Place) :
    ((t.setMem i x).store L i).addrOf L q = refs L (t.ino L i) t.block q := by
  have hsame : ∀ q, refs L (Function.update (t.ino L i) i x) t.block q =
      refs L (t.ino L i) t.block q :=
    Own.refs_setInode (by rw [hx, ino_self]) (by rw [ht, ino_self])
  rw [addrOf, dinode_setStore, ← hsame]
  obtain ⟨j, p⟩ := q
  refine refs_congr rfl (fun h0 hj hne => data_store hi ?_) p
  exact ((h.setInode (x := x) (by rw [hx, ino_self]) (by rw [ht, ino_self])).indirect_range
    hj hne h0).2

theorem own_setStore {x : Dinode} (h : Own L (t.ino L i) t.block []) (hi : i < L.ninodes)
    (hx : x.addrs = (t.mem i).addrs) (ht : x.type = 0 ↔ (t.mem i).type = 0) :
    Own L (L.dinode ((t.setMem i x).store L i).block) ((t.setMem i x).store L i).block [] := by
  refine own_store ?_ hi
  rw [ino_setMem]
  exact h.setInode (by rw [hx, ino_self]) (by rw [ht, ino_self])

theorem byteOf_setStore {x : Dinode} (h : Own L (t.ino L i) t.block [])
    (hi : i < L.ninodes) (hx : x.addrs = (t.mem i).addrs) (ht : x.type = 0 ↔ (t.mem i).type = 0)
    (h0 : refs L (t.ino L i) t.block (j, .data (k / bsize)) ≠ 0) :
    ((t.setMem i x).store L i).byteOf L j k = fileByte L (t.ino L i) t.block j k := by
  have haddr := addrOf_setStore h hi hx ht (j, .data (k / bsize))
  rw [addrOf] at haddr
  rw [byteOf, fileByte, haddr, data_store hi (h.range h0).2]
  rfl

/-! ## Writing -/

/-- What `writei` does to a sound state: bytes of file `i` have been written, those from `lo` up to
`mid` are now those of `f`, and those before `lo` and from `hi` on are the same. -/
structure Written (L : Layout) (i lo mid hi top : Nat) (f : Nat → UInt8) (s t : Vol) : Prop extends
    Others i s t where
  self : t.mem i = { s.mem i with size := (t.mem i).size, addrs := (t.mem i).addrs }
  size : (t.mem i).size.toNat = max (s.mem i).size.toNat mid
  disk : ∀ j < L.ninodes, j ≠ i → L.dinode t.block j = L.dinode s.block j
  other : ∀ j ≠ i, ∀ p, t.addrOf L (j, p) = s.addrOf L (j, p)
  keep : ∀ p, s.addrOf L (i, p) ≠ 0 → t.addrOf L (i, p) = s.addrOf L (i, p)
  bytes : ∀ j ≠ i, ∀ k, s.addrOf L (j, .data (k / bsize)) ≠ 0 → t.byteOf L j k = s.byteOf L j k
  outside : ∀ k < maxFile * bsize, k < lo ∨ hi ≤ k → s.addrOf L (i, .data (k / bsize)) ≠ 0 →
    t.byteOf L i k = s.byteOf L i k
  inside : ∀ k, lo ≤ k → k < mid → t.addrOf L (i, .data (k / bsize)) ≠ 0 ∧ t.byteOf L i k = f k
  fresh : ∀ q, s.addrOf L (i, q) = 0 → t.addrOf L (i, q) ≠ 0 →
    ∃ k, lo ≤ k ∧ k < top ∧ (Place.data (k / bsize)).Under q
  logs : ∀ b ∈ t.logged, b ∈ s.logged ∨ (∃ c < L.size, b = L.bblock c) ∨ b = L.iblock i ∨
    ∃ p, (p = .indirect ∨ ∃ k, lo ≤ k ∧ k < top ∧ p = .data (k / bsize)) ∧ t.addrOf L (i, p) = b

variable {f src : Nat → UInt8}

theorem Written.widen
    (h : Written L i lo mid hi top f s t) (htop : top ≤ top') : Written L i lo mid hi top' f s t :=
  { h with
    fresh := fun q hq hq' => by
      obtain ⟨k, hk, hk', hunder⟩ := h.fresh q hq hq'
      exact ⟨k, hk, by omega, hunder⟩
    logs := fun b hb => by
      refine (h.logs b hb).imp_right (Or.imp_right (Or.imp_right fun ⟨p, hp, hb⟩ => ⟨p, ?_, hb⟩))
      exact hp.imp_right fun ⟨k, hk, hk', heq⟩ => ⟨k, hk, by omega, heq⟩ }

theorem Wrote.written (h : Sound L s)
    (hv : s.valid i = true) (hw : Wrote L i lo mid hi top f s t)
    (hmid : mid ≤ maxFile * bsize) :
    Written L i lo mid hi top f s ((t.grow i mid).store L i) := by
  obtain ⟨hi, -, -⟩ := h.sync i hv
  have hmid32 : mid < 2 ^ 32 := Nat.lt_of_le_of_lt hmid (by decide)
  have hino := h.ino_eq hv
  have hkeep := hw.keep
  have hother := hw.other
  have hdata := hw.data
  have houtside := hw.outside
  have hfresh := hw.fresh
  rw [hino] at hkeep hother hdata houtside hfresh
  rw [grow_eq]
  -- the inode as it is written to the disk
  obtain ⟨x, hx⟩ : ∃ x : Dinode, x = { t.mem i with
    size := if (t.mem i).size.toNat < mid then .ofNat mid else (t.mem i).size } := ⟨_, rfl⟩
  rw [← hx]
  have haddrs : x.addrs = (t.mem i).addrs := by rw [hx]
  have htype : x.type = 0 ↔ (t.mem i).type = 0 := by rw [hx]
  have haddr := addrOf_setStore hw.own hi haddrs htype
  have hbyte : ∀ j k, refs L (t.ino L i) t.block (j, .data (k / bsize)) ≠ 0 →
      ((t.setMem i x).store L i).byteOf L j k = fileByte L (t.ino L i) t.block j k :=
    fun j k h0 => byteOf_setStore hw.own hi haddrs htype h0
  have hself : ((t.setMem i x).store L i).mem i = x := mem_setMem t i x
  refine ⟨(hw.setMem x).store L, ?_, ?_, fun j hj hji => ?_,
    fun j hj p => ?_, fun p hp => ?_, fun j hj k h0 => ?_, fun k hk hout h0 => ?_, fun k hk hk' => ?_,
    fun q hq hq' => hfresh q hq (haddr (i, q) ▸ hq'), fun b hb => ?_⟩
  · rw [hself, hx, hw.fields]
  · rw [hself, hx, hw.fields]
    dsimp only
    split
    · rw [UInt32.toNat_ofNat_of_lt' hmid32]
      omega
    · omega
  · rw [dinode_setStore, update_of_ne hji]
    exact (update_of_ne hji ..).trans (hw.disk j hj)
  · rw [haddr, hother j hj p]
    rfl
  · rw [haddr, hkeep p hp]
    rfl
  · have h0' := hother j hj (.data (k / bsize))
    rw [hbyte j k (by rw [h0']; exact h0), fileByte, h0',
      hdata j hj _ (Place.data_ne_indirect _) h0]
    rfl
  · have h0' := hkeep (.data (k / bsize)) h0
    rw [hbyte i k (by rw [h0']; exact h0), houtside k hk hout h0]
    rfl
  · obtain ⟨h0, hf⟩ := hw.inside k hk hk'
    rw [haddr, hbyte i k h0]
    exact ⟨h0, hf⟩
  · rcases mem_log hb with hb | hb
    · rcases hw.logs b hb with hb | hb | ⟨-, p, hp, hb⟩
      · exact .inl hb
      · exact .inr (.inl hb)
      · exact .inr (.inr (.inr ⟨p, hp, by rw [haddr, hb]⟩))
    · exact .inr (.inr (.inl hb))

theorem Wrote.sound (h : Sound L s)
    (hv : s.valid i = true) (hw : Wrote L i lo mid hi top f s t)
    (hlo : lo ≤ (s.mem i).size.toNat) (hmid : mid ≤ maxFile * bsize) :
    Sound L ((t.grow i mid).store L i) := by
  obtain ⟨hi, hmem, htype⟩ := h.sync i hv
  have hwr := hw.written h hv hmid
  have hself : L.dinode ((t.grow i mid).store L i).block i = ((t.grow i mid).store L i).mem i :=
    dinode_store_self L _ i
  refine ⟨?_, fun j hj hne => ?_, fun j hvj => ?_⟩
  · rw [grow_eq]
    exact own_setStore hw.own hi rfl Iff.rfl
  · by_cases hji : j = i
    · subst hji
      intro bn hbn
      rw [hself, hwr.size] at hbn
      by_cases hold : bn * bsize < (s.mem j).size.toNat
      · obtain ⟨hlt, h0⟩ := h.whole j hi (by rwa [← hmem]) bn (by rwa [← hmem])
        exact ⟨hlt, by rw [← addrOf, hwr.keep _ h0]; exact h0⟩
      · have hin := hwr.inside (bn * bsize) (by omega) (by omega)
        rw [Nat.mul_div_cancel _ (by decide)] at hin
        refine ⟨?_, hin.1⟩
        simp only [bsize] at *
        omega
    · intro bn hbn
      rw [hwr.disk j hj hji] at hne hbn
      obtain ⟨hlt, h0⟩ := h.whole j hj hne bn hbn
      exact ⟨hlt, by rw [← addrOf, hwr.other j hji]; exact h0⟩
  · rw [hwr.valid] at hvj
    obtain ⟨hj, hmemj, htypej⟩ := h.sync j hvj
    by_cases hji : j = i
    · subst hji
      refine ⟨hj, hself.symm, ?_⟩
      rw [hwr.self]
      exact htypej
    · rw [hwr.mem j hji, hwr.disk j hj hji]
      exact ⟨hj, hmemj, htypej⟩

/-! ### The copy fails in the middle of a block -/

theorem tear_store {off ok r a e : Nat} (hi : i < L.ninodes)
    (ha : L.nmeta ≤ a) : ((t.tear off ok r a src).grow i e).store L i =
      ((t.grow i e).store L i).tear off ok r a src := by
  have hne : a ≠ L.iblock i := (Nat.lt_of_lt_of_le (Layout.iblock_lt_nmeta hi) ha).ne'
  have hblock : ∀ (u : Vol) (d : Block), L.putDinode (Function.update u.block a d) i (u.mem i) =
      Function.update (L.putDinode u.block i (u.mem i)) a d := by
    intro u d
    rw [Layout.putDinode, Layout.putDinode, update_of_ne hne.symm,
      update_comm hne]
  have hcomm : ∀ (u : Vol), (u.tear off ok r a src).store L i =
      (u.store L i).tear off ok r a src := by
    intro u
    have hsame : (u.store L i).block a = u.block a := data_store hi ha
    rw [tear, tear, hsame]
    have := hblock u ((u.block a).splice ((off + r) % bsize) (ok - r) fun k => src (r + k))
    simp only [store, setBlock, log, this]
    rfl
  rw [← hcomm, grow_eq, grow_eq]
  rfl

section SetBlock

variable {a bn : Nat}

theorem Sound.ino_setBlock (h : Sound L t) (hv : t.valid i = true) (ha : L.nmeta ≤ a) (e : Block) :
    (t.setBlock a e).ino L i = L.dinode (t.setBlock a e).block := by
  obtain ⟨hi, hmem, -⟩ := h.sync i hv
  have hself : (t.setBlock a e).mem i = L.dinode (t.setBlock a e).block i :=
    hmem.trans (Layout.dinode_update_data hi ha e).symm
  rw [ino, hself, update_eq_self]

theorem Sound.nmeta_le (h : Sound L t) (ha : t.addrOf L (i, .data bn) = a) (ha0 : a ≠ 0) :
    L.nmeta ≤ a := by
  subst ha
  exact (h.own.range ha0).2

variable (h : Sound L t) (hv : t.valid i = true) (ha : t.addrOf L (i, .data bn) = a) (ha0 : a ≠ 0)
include h hv ha ha0

theorem Sound.addrOf_setBlock (e : Block) (q : Nat × Place) :
    (t.setBlock a e).addrOf L q = t.addrOf L q := by
  have hino := h.ino_eq hv
  have hrefs := refs_setBlock (s := t) (i := i) (by rw [hino]; exact h.own) (by rwa [hino]) ha0
    (Place.data_ne_indirect bn) e q
  rw [h.ino_setBlock hv (h.nmeta_le ha ha0), hino] at hrefs
  exact hrefs

theorem Sound.byteOf_setBlock (hbn : bn < maxFile) (e : Block) {k : Nat}
    (hk : k / bsize < maxFile) : (t.setBlock a e).byteOf L i k =
      if k / bsize = bn then e.byte (k % bsize) else t.byteOf L i k := by
  have hino := h.ino_eq hv
  have hbyte := fileByte_setBlock (s := t) (i := i) (by rw [hino]; exact h.own) (by rwa [hino]) ha0
    hbn hk e
  rw [h.ino_setBlock hv (h.nmeta_le ha ha0), hino] at hbyte
  exact hbyte

theorem Sound.byteOf_setBlock_of_ne (e : Block) (hj : j ≠ i) {k : Nat}
    (h0 : t.addrOf L (j, .data (k / bsize)) ≠ 0) :
    (t.setBlock a e).byteOf L j k = t.byteOf L j k := by
  have haddr := h.addrOf_setBlock hv ha ha0 e (j, .data (k / bsize))
  rw [byteOf, fileByte, ← addrOf, haddr, byteOf, fileByte, ← addrOf]
  refine congrArg (Bytes.byte · _) (update_of_ne (fun heq => hj ?_) ..)
  rw [← ha] at heq
  exact congrArg Prod.fst (Pool.Exact.inj h.own _ _ heq h0)

theorem Sound.setBlock (e : Block) : Sound L (t.setBlock a e) := by
  have hmeta := h.nmeta_le ha ha0
  have hdisk : ∀ j < L.ninodes, L.dinode (t.setBlock a e).block j = L.dinode t.block j :=
    fun j hj => Layout.dinode_update_data hj hmeta e
  refine ⟨?_, fun j hj htype n hn => ?_, fun j hvj => ?_⟩
  · have hino := h.ino_eq hv
    rw [← h.ino_setBlock hv hmeta]
    exact own_setBlock (by rw [hino]; exact h.own) (by rwa [hino]) ha0 (Place.data_ne_indirect bn) e
  · rw [hdisk j hj] at htype hn
    rw [← addrOf, h.addrOf_setBlock hv ha ha0]
    exact h.whole j hj htype n hn
  · rw [hdisk j (h.sync j hvj).1]
    exact h.sync j hvj

end SetBlock

theorem Sound.byteOf_tear {off n ok r a k : Nat} {s₀ : Vol} (h : Sound L t) (src : Nat → UInt8)
    (hv : t.valid i = true) (ht : Torn L i off n ok r a s₀ t) (hmax : off + n ≤ maxFile * bsize)
    (hk : k < maxFile * bsize) : (t.tear off ok r a src).byteOf L i k =
      if off + r ≤ k ∧ k < off + ok then src (k - off) else t.byteOf L i k := by
  have hlt := ht.lt
  have hle := ht.reach
  have haddr : t.addrOf L (i, .data ((off + r) / bsize)) = a := by
    rw [addrOf, ← h.ino_eq hv]
    exact ht.addr
  rw [tear, h.byteOf_setBlock hv haddr ht.ne (by simp only [bsize] at *; omega) _
    (by simp only [bsize] at *; omega)]
  by_cases hblock : k / bsize = (off + r) / bsize
  · rw [if_pos hblock]
    split
    · rename_i hin
      rw [Bytes.byte_splice_of_mem (Nat.mod_lt _ (by decide)) (by simp only [bsize] at *; omega)
        (by simp only [bsize] at *; omega)]
      congr 1
      simp only [bsize] at *
      omega
    · rw [Bytes.byte_splice_of_not_mem (by simp only [bsize] at *; omega), byteOf, fileByte, hblock,
        ← addrOf, haddr]
  · rw [if_neg hblock, if_neg (by simp only [bsize] at *; omega)]

theorem Written.tear {off n ok r a top : Nat} (h : Sound L t)
    (hv : t.valid i = true) (ht : Torn L i off n ok r a s t) (hmax : off + n ≤ maxFile * bsize)
    (hw : Written L i off (off + r) (off + r) top (fun k => src (k - off)) s t) :
    Written L i off (off + r) (off + ok) top (fun k => src (k - off)) s (t.tear off ok r a src) := by
  have hlt := ht.lt
  have hle := ht.reach
  have haddr : t.addrOf L (i, .data ((off + r) / bsize)) = a := by
    rw [addrOf, ← h.ino_eq hv]
    exact ht.addr
  have hsame := h.addrOf_setBlock hv haddr ht.ne
    ((t.block a).splice ((off + r) % bsize) (ok - r) fun k => src (r + k))
  refine ⟨⟨hw.ref, hw.valid, hw.inuse, hw.inOp, hw.mem⟩, hw.self, hw.size, fun j hj hji => ?_,
    fun j hj p => (hsame _).trans (hw.other j hj p), fun p hp => (hsame _).trans (hw.keep p hp),
    fun j hj k h0 => ?_, fun k hk hout h0 => ?_, fun k hk hk' => ?_, fun q hq hq' => ?_,
    fun b hb => ?_⟩
  · exact (Layout.dinode_update_data hj (h.nmeta_le haddr ht.ne) _).trans (hw.disk j hj hji)
  · rw [← hw.bytes j hj k h0]
    exact h.byteOf_setBlock_of_ne hv haddr ht.ne _ hj (by rwa [hw.other j hj])
  · rw [h.byteOf_tear _ hv ht hmax hk, if_neg (by omega), hw.outside k hk (by omega) h0]
  · obtain ⟨h0, hf⟩ := hw.inside k hk hk'
    rw [h.byteOf_tear _ hv ht hmax (by omega), if_neg (by omega)]
    exact ⟨by rw [Vol.tear, hsame]; exact h0, hf⟩
  · exact hw.fresh q hq (by rwa [← hsame])
  · rcases hw.logs b hb with hb | hb | hb | ⟨p, hp, hb⟩
    · exact .inl hb
    · exact .inr (.inl hb)
    · exact .inr (.inr (.inl hb))
    · exact .inr (.inr (.inr ⟨p, hp, (hsame _).trans hb⟩))

/-- **`writei`** on a sound state: it writes what it reports, and if a copy fails, more. -/
theorem Sound.wp_writeiCases {Q : Int → Vol → Prop} {E : Stop → Vol → Prop} {off n : UInt32}
    (h : Sound L s) (hv : s.valid i = true) (hop : s.inOp = true)
    (hbad : (s.mem i).size.toNat < off.toNat ∨ 2 ^ 32 ≤ off.toNat + n.toNat ∨
      maxFile * bsize < off.toNat + n.toNat → Q (-1) s)
    (hdone : off.toNat ≤ (s.mem i).size.toNat → off.toNat + n.toNat ≤ maxFile * bsize →
      ∀ (r : Nat) (t : Vol), Ended L i off.toNat n.toNat ok r t →
      Written L i off.toNat (off.toNat + r) (off.toNat + r)
        (min (off.toNat + r + 1) (off.toNat + n.toNat)) (fun k => src (k - off.toNat)) s t →
      Logs s t → Sound L t → Q r t)
    (htorn : off.toNat ≤ (s.mem i).size.toNat → off.toNat + n.toNat ≤ maxFile * bsize →
      ∀ (r a : Nat) (t : Vol), Torn L i off.toNat n.toNat ok r a s t →
      Written L i off.toNat (off.toNat + r) (off.toNat + r) (tornTop L i (off.toNat + r) s)
        (fun k => src (k - off.toNat)) s t →
      Logs s t → Sound L t → Q r (t.tear off.toNat ok r a src)) :
    wp (writei L i off n src ok) Q E s := by
  obtain ⟨hi, hmem, ht⟩ := h.sync i hv
  -- the inode is written back
  have hgrow : ∀ (u : Vol) (e : Nat), Logs u ((u.grow i e).store L i) := by
    intro u e
    refine Logs.trans (Logs.of_eq ?_ ?_) (.store _ i) <;> rw [grow] <;> split <;> rfl
  have hrefs : ∀ (u : Vol) (top mid : Nat),
      Wrote L i off.toNat mid mid top (fun k => src (k - off.toNat)) s u →
      off.toNat ≤ (s.mem i).size.toNat → mid ≤ maxFile * bsize →
      ∀ q, refs L (((u.grow i mid).store L i).ino L i) ((u.grow i mid).store L i).block q =
        refs L (u.ino L i) u.block q := by
    intro u top mid hw hoff hmid q
    have hvalid : ((u.grow i mid).store L i).valid i = true := by
      rw [(hw.written h hv hmid).valid, hv]
    rw [(hw.sound h hv hoff hmid).ino_eq hvalid, ← addrOf, grow_eq]
    refine addrOf_setStore hw.own hi ?_ ?_ q
    · rfl
    · exact Iff.rfl
  refine Vol.wp_writei (by rw [h.ino_eq hv]; exact h.own) hi ht hop hbad
    (fun hoff hmax r t hr hw hl => ?_) fun hoff hmax r a t hr hw hl => ?_
  · have hmid : off.toNat + r ≤ maxFile * bsize := by have := hr.le; omega
    refine hdone hoff hmax r _ ⟨hr.le, hr.reach, fun hlt => ?_⟩ (hw.written h hv hmid)
      (hl.trans (hgrow t _)) (hw.sound h hv hoff hmid)
    obtain ⟨hbits, h0⟩ := hr.full hlt
    refine ⟨fun b hb => ?_, (hrefs t _ _ hw hoff hmid _).trans h0⟩
    rw [← hbits b hb, grow_eq]
    exact Layout.bit_putDinode hi _ b
  · have hmid : off.toNat + r ≤ maxFile * bsize := by
      have := hr.lt
      have := hr.reach
      omega
    have hmeta : L.nmeta ≤ a := by
      have := hr.addr
      exact this ▸ (hw.own.range (by rw [this]; exact hr.ne)).2
    rw [tear_store hi hmeta]
    refine htorn hoff hmax r a _ ⟨hr.reach, hr.lt, hr.start, (hrefs t _ _ hw hoff hmid _).trans hr.addr,
      hr.ne, fun h0 => (hgrow t _).mono a (hr.new h0)⟩ (hw.written h hv hmid)
      (hl.trans (hgrow t _)) (hw.sound h hv hoff hmid)

theorem Sound.wp_writei {Q : Int → Vol → Prop} {E : Stop → Vol → Prop} {off n : UInt32}
    (h : Sound L s) (hv : s.valid i = true) (hop : s.inOp = true)
    (hbad : (s.mem i).size.toNat < off.toNat ∨ 2 ^ 32 ≤ off.toNat + n.toNat ∨
      maxFile * bsize < off.toNat + n.toNat → Q (-1) s)
    (hgood : off.toNat ≤ (s.mem i).size.toNat → off.toNat + n.toNat ≤ maxFile * bsize →
      ∀ (r hi : Nat) (t : Vol), r ≤ n.toNat → hi ≤ off.toNat + n.toNat →
      (n.toNat ≤ ok → hi = off.toNat + r) →
      (r < n.toNat → n.toNat ≤ ok → (∀ b < L.size, L.bit t.block b = true) ∧
        t.addrOf L (i, .data ((off.toNat + r) / bsize)) = 0) →
      Written L i off.toNat (off.toNat + r) hi (off.toNat + n.toNat)
        (fun k => src (k - off.toNat)) s t → Sound L t → Q r t) :
    wp (writei L i off n src ok) Q E s := by
  refine h.wp_writeiCases hv hop hbad (fun hoff hmax r t hr hw _ ht => ?_)
    fun hoff hmax r a t hr hw _ ht => ?_
  · refine hgood hoff hmax r _ t hr.le (by have := hr.le; omega) (fun _ => rfl) (fun hlt _ => ?_)
      (hw.widen (by omega)) ht
    rw [addrOf, ← ht.ino_eq (by rw [hw.valid, hv])]
    exact hr.full hlt
  · have hvt : t.valid i = true := by rw [hw.valid, hv]
    have hlt := hr.lt
    have hle := hr.reach
    have htop : tornTop L i (off.toNat + r) s ≤ off.toNat + n.toNat := by
      rw [tornTop]
      split <;> omega
    have haddr : t.addrOf L (i, .data ((off.toNat + r) / bsize)) = a := by
      rw [addrOf, ← ht.ino_eq hvt]
      exact hr.addr
    exact hgood hoff hmax r _ _ (by omega) (by omega) (by omega) (by omega)
      ((hw.tear ht hvt hr hmax).widen htop) (ht.setBlock hvt haddr hr.ne _)

theorem Sound.wp_readi {Q : Int × List UInt8 → Vol → Prop} {E : Stop → Vol → Prop} {off n : UInt32}
    (h : Sound L s) (hv : s.valid i = true)
    (hout : (s.mem i).size.toNat < off.toNat ∨ 2 ^ 32 ≤ off.toNat + n.toNat → Q (0, []) s)
    (hin : off.toNat ≤ (s.mem i).size.toNat → off.toNat + n.toNat < 2 ^ 32 →
      ∀ m, m = min n.toNat ((s.mem i).size.toNat - off.toNat) →
      Q (if m ≤ ok then m else -1, s.bytesOf L i off.toNat (min m ok)) s) :
    wp (readi L i off n ok) Q E s := by
  obtain ⟨hi, hmem, ht⟩ := h.sync i hv
  have hino := h.ino_eq hv
  refine Vol.wp_readi (by rw [hino]; exact h.own) hi ht ?_ hout fun hoff hwrap m hm => ?_
  · rw [hino]
    exact h.whole i hi (by rwa [← hmem])
  · rw [hino]
    exact hin hoff hwrap m hm

end Sound

/-! ## A small file system -/

def smallLayout : Layout where
  size := 6
  nblocks := 3
  ninodes := 3
  inodestart := 1
  bmapstart := 2
  inodestart_pos := by decide
  inodes_le := by decide
  bmap_le := by decide
  size_le := by decide
  ninodes_le := by decide
  root_lt := by decide

/-- The disk without inodes: three blocks are in use. -/
def blankDisk : Nat → Block := fun b =>
  if b = 2 then (fun k => if k.val = 0 then 7 else 0) else fun _ => 0

/-- An empty root directory and an empty file, both without blocks. -/
def smallDisk : Nat → Block :=
  smallLayout.putDinode (smallLayout.putDinode blankDisk 1
    { Dinode.zero with type := 1, nlink := 1 }) 2 { Dinode.zero with type := 2, nlink := 1 }

/-- The file is open, in a transaction. -/
def small : Vol where
  block := smallDisk
  ref i := if i = 2 then 1 else 0
  valid i := i = 2
  mem := smallLayout.dinode smallDisk
  inuse := 1
  inOp := true
  logged := []

theorem dinode_smallDisk {i : Nat} (hi : i < 3) :
    (smallLayout.dinode smallDisk i).addrs = (fun _ => 0) ∧
      (smallLayout.dinode smallDisk i).size = 0 := by
  rw [smallDisk, Layout.dinode_putDinode, Layout.dinode_putDinode]
  by_cases h2 : i = 2
  · rw [if_pos h2]
    exact ⟨rfl, rfl⟩
  · by_cases h1 : i = 1
    · rw [if_neg h2, if_pos h1]
      exact ⟨rfl, rfl⟩
    · obtain rfl : i = 0 := by omega
      rw [if_neg h2, if_neg h1]
      exact ⟨by funext k; revert k; decide, by decide⟩

theorem bit_smallDisk : ∀ b < 6, smallLayout.bit smallDisk b = decide (b < 3) := by
  intro b hb
  rw [smallDisk, Layout.bit_putDinode (by decide), Layout.bit_putDinode (by decide)]
  revert b
  decide

theorem sound_small : Sound smallLayout small := by
  have hrefs : ∀ q, refs smallLayout (smallLayout.dinode smallDisk) smallDisk q = 0 := by
    rintro ⟨i, p⟩
    by_cases hi : i < smallLayout.ninodes
    · rw [refs]
      dsimp only
      rw [Dinode.at_of_empty (dinode_smallDisk hi).1, ite_self]
    · exact refs_of_not_lt hi
  refine ⟨⟨by decide, fun p q _ hp => absurd (hrefs p) hp, fun p hp => absurd (hrefs p) hp,
    List.nodup_nil, fun b hb => absurd hb (by simp), fun b hb => ?_⟩, fun i hi _ bn hbn => ?_,
    fun i hv => ?_⟩
  · rw [show (small.block = smallDisk) from rfl, bit_smallDisk b hb, decide_eq_true_iff]
    simp only [hrefs, List.not_mem_nil, false_or]
    constructor
    · exact .inl
    · rintro (h | ⟨-, rfl⟩)
      · exact h
      · decide
  · rw [show (small.block = smallDisk) from rfl, (dinode_smallDisk hi).2] at hbn
    exact absurd hbn (by simp)
  · obtain rfl : i = 2 := of_decide_eq_true hv
    refine ⟨by decide, rfl, ?_⟩
    rw [show small.mem = smallLayout.dinode smallDisk from rfl, smallDisk,
      Layout.dinode_putDinode, if_pos rfl]
    decide

end Vol

end Xv6.Fs
