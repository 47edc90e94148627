import Xv6.Fs.Owner

/-!
# Allocating and freeing blocks

The rules of this file say what `balloc` and `bfree` do to a state, then `bmap` and `itrunc`.  While an
inode is worked on, its copy in the table is ahead of the disk; `Vol.ino i` are the inodes with that
copy in place of what is on the disk.
-/

namespace Xv6.Fs

open Function (update_of_ne update_self update_idem)
open Prog

-- so that programs are run by the rules only
attribute [local irreducible] wp

/-! ## `balloc` and `bfree` -/

namespace Vol

def log (s : Vol) (b : Nat) : Vol :=
  { s with logged := if b ∈ s.logged then s.logged else b :: s.logged }

/-- After `balloc` has found the block `a`. -/
def alloc (L : Layout) (s : Vol) (a : Nat) : Vol :=
  ((({ s with block := L.setBit s.block a }).log (L.bblock a)).setBlock a fun _ => 0).log a

def free (L : Layout) (s : Vol) (b : Nat) : Vol :=
  ({ s with block := L.clearBit s.block b }).log (L.bblock b)

section Balloc

variable {L : Layout} {s : Vol} {Q : Nat → Vol → Prop} {E : Stop → Vol → Prop}

theorem wp_write {Q : Unit → Vol → Prop} {b : Nat} {d : Block} (hop : s.inOp = true)
    (hQ : Q () ((s.setBlock b d).log b)) : wp (write b d) Q E s := by
  have hnot : ¬(s.setBlock b d).inOp = false := by
    rw [show (s.setBlock b d).inOp = s.inOp from rfl, hop]
    simp
  rw [write, wp_bind, wp_modify, logWrite, wp_bind, wp_get, if_neg hnot, wp_set]
  exact hQ

theorem freeBit_some {d : Block} {size b n bi k : Nat} (h : freeBit size d b n bi = some k) :
    bi ≤ k ∧ k < bpb ∧ b + k < size ∧ d.bit k = false ∧ ∀ j, bi ≤ j → j < k → d.bit j = true := by
  induction n generalizing bi with
  | zero => exact absurd h (by simp [freeBit])
  | succ n ih =>
    rw [freeBit] at h
    split at h
    · rename_i hbi
      split at h
      · rename_i hclear
        cases h
        exact ⟨Nat.le_refl _, hbi.1, hbi.2, hclear, fun j hj hj' => absurd hj (by omega)⟩
      · rename_i hset
        obtain ⟨hle, hk, hsize, hclear, hbefore⟩ := ih h
        refine ⟨by omega, hk, hsize, hclear, fun j hj hj' => ?_⟩
        by_cases hji : j = bi
        · rw [hji]
          simpa using hset
        · exact hbefore j (by omega) hj'
    · exact absurd h (by simp)

theorem freeBit_none {d : Block} {size b n bi : Nat} (h : freeBit size d b n bi = none)
    (hn : bpb ≤ bi + n) {j : Nat} (hj : bi ≤ j) (hjb : j < bpb) (hjs : b + j < size) : d.bit j = true := by
  induction n generalizing bi with
  | zero => omega
  | succ n ih =>
    rw [freeBit, if_pos ⟨by omega, by omega⟩] at h
    split at h
    · exact absurd h (by simp)
    · rename_i hset
      by_cases hji : j = bi
      · rw [hji]
        simpa using hset
      · exact ih h (by omega) (by omega)

theorem bit_add {d : Nat → Block} {m k : Nat} (hk : k < bpb) :
    L.bit d (m * bpb + k) = (d (L.bblock (m * bpb))).bit k := by
  have hdiv : (m * bpb + k) / bpb = m * bpb / bpb := by
    rw [Nat.mul_comm, Nat.mul_add_div (by decide), Nat.div_eq_of_lt hk,
      Nat.mul_div_cancel_left _ (by decide), Nat.add_zero]
  have hmod : (m * bpb + k) % bpb = k := by rw [Nat.mul_add_mod', Nat.mod_eq_of_lt hk]
  rw [Layout.bit, Layout.bblock, Layout.bblock, hdiv, hmod]

theorem wp_ballocFrom {n m : Nat} (hop : s.inOp = true) (hn : L.size ≤ (m + n) * bpb)
    (hbefore : ∀ c < m * bpb, c < L.size → L.bit s.block c = true)
    (hfull : (∀ b < L.size, L.bit s.block b = true) → Q 0 s)
    (hsome : ∀ a < L.size, L.bit s.block a = false → (∀ c < a, L.bit s.block c = true) →
      Q a (s.alloc L a)) : wp (ballocFrom L n (m * bpb)) Q E s := by
  -- by induction on the rounds left; the bits before `m * bpb` are set
  induction n generalizing m with
  | zero =>
    rw [ballocFrom, wp_pure]
    exact hfull fun b hb => hbefore b (by rw [Nat.add_zero] at hn; omega) hb
  | succ n ih =>
    rw [ballocFrom, wp_ite]
    split
    · rw [wp_bind, wp_get]
      dsimp only
      cases hbit : freeBit L.size (s.block (L.bblock (m * bpb))) (m * bpb) bpb 0 with
      | some k =>
        obtain ⟨-, hk, hsize, hclear, hset⟩ := freeBit_some hbit
        rw [← bit_add hk] at hclear
        have hblock : L.bblock (m * bpb + k) = L.bblock (m * bpb) := by
          rw [Layout.bblock, Layout.bblock, Nat.mul_comm, Nat.mul_add_div (by decide),
            Nat.div_eq_of_lt hk, Nat.mul_div_cancel_left _ (by decide), Nat.add_zero]
        have hmod : (m * bpb + k) % bpb = k := by rw [Nat.mul_add_mod', Nat.mod_eq_of_lt hk]
        refine .bind (wp_write hop ?_)
        rw [wp_bind, bzero]
        refine wp_write hop ?_
        have hQ := hsome (m * bpb + k) hsize hclear fun c hc => ?_
        · rw [alloc, Layout.setBit, hblock, hmod] at hQ
          exact .pure hQ
        · by_cases hcm : c < m * bpb
          · exact hbefore c hcm (by omega)
          · obtain ⟨j, rfl⟩ := Nat.exists_eq_add_of_le (Nat.le_of_not_lt hcm)
            rw [bit_add (by omega)]
            exact hset j (Nat.zero_le j) (by omega)
      | none =>
        have hnext : m * bpb + bpb = (m + 1) * bpb := by rw [Nat.add_mul, Nat.one_mul]
        rw [hnext]
        refine ih (by rw [Nat.add_assoc, Nat.add_comm 1]; exact hn) fun c hc hcs => ?_
        by_cases hcm : c < m * bpb
        · exact hbefore c hcm hcs
        · obtain ⟨j, rfl⟩ := Nat.exists_eq_add_of_le (Nat.le_of_not_lt hcm)
          rw [← hnext] at hc
          rw [bit_add (by omega)]
          exact freeBit_none hbit (by omega) (Nat.zero_le j) (by omega) hcs
    · rename_i hm
      exact .pure (hfull fun b hb => hbefore b (by omega) hb)

/-- **`balloc`** takes the first block that is not marked, if there is one. -/
theorem wp_balloc (hop : s.inOp = true)
    (hfull : (∀ b < L.size, L.bit s.block b = true) → Q 0 s)
    (hsome : ∀ a < L.size, L.bit s.block a = false → (∀ c < a, L.bit s.block c = true) →
      Q a (s.alloc L a)) : wp (balloc L) Q E s := by
  have h := wp_ballocFrom (n := L.size / bpb + 1) (m := 0) (E := E) hop ?_
    (fun c hc => absurd hc (by omega)) hfull hsome
  · rwa [Nat.zero_mul] at h
  · simp only [bpb, bsize]
    omega

theorem wp_bfree {Q : Unit → Vol → Prop} {b : Nat} (hop : s.inOp = true)
    (hb : L.bit s.block b = true) (hQ : Q () (s.free L b)) : wp (bfree L b) Q E s := by
  rw [Layout.bit] at hb
  have hnot : ¬(s.block (L.bblock b)).bit (b % bpb) = false := by
    rw [hb]
    simp
  rw [bfree, wp_bind, wp_get, if_neg hnot]
  exact wp_write hop hQ

end Balloc

/-! ## `bmap` -/

theorem mem_setMem (s : Vol) (i : Nat) (x : Dinode) : (s.setMem i x).mem i = x :=
  update_self ..

/-- The inodes, with what the table has of inode `i`. -/
def ino (L : Layout) (i : Nat) (s : Vol) : Nat → Dinode :=
  Function.update (L.dinode s.block) i (s.mem i)

/-- In the table, at most what it has of inode `i` has changed between the two states. -/
structure Others (i : Nat) (s t : Vol) : Prop where
  ref : t.ref = s.ref
  valid : t.valid = s.valid
  inuse : t.inuse = s.inuse
  inOp : t.inOp = s.inOp
  mem : ∀ j ≠ i, t.mem j = s.mem j

theorem Others.trans {i : Nat} {s t u : Vol} (h : Others i s t) (h' : Others i t u) : Others i s u where
  ref := h'.ref.trans h.ref
  valid := h'.valid.trans h.valid
  inuse := h'.inuse.trans h.inuse
  inOp := h'.inOp.trans h.inOp
  mem j hj := (h'.mem j hj).trans (h.mem j hj)

theorem Others.setMem {i : Nat} {s t : Vol} (h : Others i s t) (x : Dinode) :
    Others i s (t.setMem i x) :=
  ⟨h.ref, h.valid, h.inuse, h.inOp, fun j hj => (update_of_ne hj ..).trans (h.mem j hj)⟩

/-- Between the two states only inode `i` in the table and its blocks have changed, and it has kept
the blocks that it had. -/
structure Frame (L : Layout) (i : Nat) (s t : Vol) : Prop extends Others i s t where
  fields : t.mem i = { s.mem i with addrs := (t.mem i).addrs }
  disk : ∀ j < L.ninodes, L.dinode t.block j = L.dinode s.block j
  other : ∀ j ≠ i, ∀ p, refs L (t.ino L i) t.block (j, p) = refs L (s.ino L i) s.block (j, p)
  keep : ∀ p, refs L (s.ino L i) s.block (i, p) ≠ 0 →
    refs L (t.ino L i) t.block (i, p) = refs L (s.ino L i) s.block (i, p)

/-- Between the two states blocks have been allocated for inode `i`, and the contents of files are
the same. -/
structure Grows (L : Layout) (i : Nat) (s t : Vol) : Prop extends Frame L i s t where
  data : ∀ q : Nat × Place, q.2 ≠ .indirect → refs L (s.ino L i) s.block q ≠ 0 →
    t.block (refs L (s.ino L i) s.block q) = s.block (refs L (s.ino L i) s.block q)

section Frame

variable {L : Layout} {i : Nat} {s t u : Vol}

namespace Frame

theorem refl (L : Layout) (i : Nat) (s : Vol) : Frame L i s s :=
  ⟨⟨rfl, rfl, rfl, rfl, fun _ _ => rfl⟩, rfl, fun _ _ => rfl, fun _ _ _ => rfl, fun _ _ => rfl⟩

theorem refs_eq (h : Frame L i s t) {q : Nat × Place} (hq : refs L (s.ino L i) s.block q ≠ 0) :
    refs L (t.ino L i) t.block q = refs L (s.ino L i) s.block q := by
  obtain ⟨j, p⟩ := q
  by_cases hj : j = i
  · subst hj
    exact h.keep p hq
  · exact h.other j hj p

theorem trans (h : Frame L i s t) (h' : Frame L i t u) : Frame L i s u where
  toOthers := h.toOthers.trans h'.toOthers
  fields := by rw [h'.fields, h.fields]
  disk j hj := (h'.disk j hj).trans (h.disk j hj)
  other j hj p := (h'.other j hj p).trans (h.other j hj p)
  keep p hp := by
    have hkeep := h.keep p hp
    have hp' : refs L (t.ino L i) t.block (i, p) ≠ 0 := by rwa [hkeep]
    rw [h'.keep p hp', hkeep]

theorem type_eq (h : Frame L i s t) : (t.mem i).type = (s.mem i).type := by rw [h.fields]

end Frame

/-- Inode `i` keeps the block `b` at one of the places `P`. -/
def Keeps (L : Layout) (i : Nat) (P : Place → Prop) (t : Vol) (b : Nat) : Prop :=
  b ≠ 0 ∧ ∃ p, P p ∧ refs L (t.ino L i) t.block (i, p) = b

theorem Keeps.mono {P P' : Place → Prop} {b : Nat} (h : Keeps L i P t b) (hP : ∀ p, P p → P' p) :
    Keeps L i P' t b :=
  ⟨h.1, h.2.imp fun p hp => ⟨hP p hp.1, hp.2⟩⟩

theorem Frame.keeps {P : Place → Prop} {b : Nat} (h : Frame L i s t) (hb : Keeps L i P s b) :
    Keeps L i P t b := by
  obtain ⟨hb0, p, hp, rfl⟩ := hb
  exact ⟨hb0, p, hp, h.keep p hb0⟩

theorem Grows.trans (h : Grows L i s t) (h' : Grows L i t u) : Grows L i s u where
  toFrame := h.toFrame.trans h'.toFrame
  data q hq h0 := by
    have hq' := h.refs_eq h0
    have h0' : refs L (t.ino L i) t.block q ≠ 0 := by rwa [hq']
    rw [← h.data q hq h0, ← hq', h'.data q hq h0']

end Frame

section Bmap

variable {L : Layout} {s : Vol} {i : Nat} {Q : Nat → Vol → Prop} {E : Stop → Vol → Prop}

theorem ino_self (L : Layout) (i : Nat) (s : Vol) : s.ino L i i = s.mem i := update_self ..

theorem ino_setMem (L : Layout) (i : Nat) (s : Vol) (x : Dinode) :
    (s.setMem i x).ino L i = Function.update (s.ino L i) i x := by
  rw [ino, ino, update_idem, mem_setMem]
  rfl

theorem dinode_alloc {ino : Nat → Dinode} {loose : List Nat} {a j : Nat}
    (h : Own L ino s.block loose) (ha : a < L.size) (hbit : L.bit s.block a = false)
    (hj : j < L.ninodes) : L.dinode (s.alloc L a).block j = L.dinode s.block j :=
  (Layout.dinode_update_data hj (h.fresh ha hbit).1 _).trans (Layout.dinode_setBit hj a)

variable {a b bn c : Nat}

theorem block_alloc (ha : a < L.size) (hb : L.nmeta ≤ b) (hne : b ≠ a) :
    (s.alloc L a).block b = s.block b :=
  (update_of_ne hne ..).trans (Layout.setBit_data ha hb)

theorem refs_alloc {ino : Nat → Dinode} {loose : List Nat}
    (h : Own L ino s.block loose) (ha : a < L.size) (hbit : L.bit s.block a = false)
    (q : Nat × Place) : refs L ino (s.alloc L a).block q = refs L ino s.block q := by
  obtain ⟨j, p⟩ := q
  refine refs_congr rfl (fun h0 hj ht => block_alloc ha (h.indirect_range hj ht h0).2 fun heq => ?_) p
  refine (h.fresh ha hbit).2.2 (j, .indirect) ?_
  rw [refs_indirect hj ht, heq]

/-- What `bmap` does when it has to allocate a block for the place `p` of inode `i`; `a` is zero if
it could not. -/
structure Mapped (L : Layout) (i : Nat) (p : Place) (s : Vol) (a : Nat) (t : Vol) : Prop where
  grows : Grows L i s t
  own : Own L (t.ino L i) t.block []
  addr : refs L (t.ino L i) t.block (i, p) = a
  zero : a ≠ 0 → t.block a = fun _ => 0
  full : a = 0 → ∀ b < L.size, L.bit t.block b = true
  fresh : ∀ q, refs L (s.ino L i) s.block (i, q) = 0 → refs L (t.ino L i) t.block (i, q) ≠ 0 →
    p.Under q
  logs : ∀ b ∈ t.logged, b ∈ s.logged ∨ (∃ c < L.size, b = L.bblock c) ∨
    Keeps L i (fun q => q = .indirect ∨ q = p) t b
  lands : a ≠ 0 → a ∈ t.logged

theorem mem_log_self (s : Vol) (b : Nat) : b ∈ (s.log b).logged := by
  rw [log]
  dsimp only
  split
  · assumption
  · exact List.mem_cons_self

theorem mem_log_of_mem {s : Vol} (c : Nat) (h : b ∈ s.logged) : b ∈ (s.log c).logged := by
  rw [log]
  dsimp only
  split
  · exact h
  · exact List.mem_cons_of_mem c h

theorem mem_log {s : Vol} (h : b ∈ (s.log c).logged) : b ∈ s.logged ∨ b = c := by
  rw [log] at h
  dsimp only at h
  split at h
  · exact .inl h
  · exact (List.mem_cons.mp h).symm

theorem mem_alloc (h : b ∈ (s.alloc L a).logged) :
    b ∈ s.logged ∨ b = L.bblock a ∨ b = a := by
  rcases mem_log h with h | h
  · rcases mem_log h with h | h
    · exact .inl h
    · exact .inr (.inl h)
  · exact .inr (.inr h)

section

variable (h : Own L (s.ino L i) s.block [])
include h

theorem mapped_of_refs {p : Place} {t : Vol} (ha : a < L.size) (hbit : L.bit s.block a = false)
    (hsame : Others i s t) (hfields : t.mem i = { s.mem i with addrs := (t.mem i).addrs })
    (hdisk : ∀ j < L.ninodes, L.dinode t.block j = L.dinode s.block j)
    (h0 : refs L (s.ino L i) s.block (i, p) = 0) (hrefs : ∀ q, refs L (t.ino L i) t.block q =
      Function.update (refs L (s.ino L i) s.block) (i, p) a q)
    (hdata : ∀ b, L.nmeta ≤ b → b ≠ a → b ≠ refs L (s.ino L i) s.block (i, .indirect) →
      t.block b = s.block b) (hown : Own L (t.ino L i) t.block []) (hzero : t.block a = fun _ => 0)
    (hlogs : ∀ b ∈ t.logged, b ∈ s.logged ∨ b = L.bblock a ∨ b = a ∨
      b = refs L (s.ino L i) s.block (i, .indirect) ∧ b ≠ 0) (hlands : a ∈ t.logged) :
    Mapped L i p s a t := by
  have hfresh := h.fresh ha hbit
  have ha0 : a ≠ 0 := (Nat.lt_of_lt_of_le L.nmeta_pos hfresh.1).ne'
  have hkeep : ∀ q, refs L (s.ino L i) s.block (i, q) ≠ 0 →
      refs L (t.ino L i) t.block (i, q) = refs L (s.ino L i) s.block (i, q) := by
    intro q hq
    rw [hrefs, update_of_ne fun heq => hq (by rw [heq, h0])]
  have haddr : refs L (t.ino L i) t.block (i, p) = a := by rw [hrefs, update_self]
  refine ⟨⟨⟨hsame, hfields, hdisk, fun j hj q => ?_, hkeep⟩, fun q hq hq0 => ?_⟩, hown, haddr,
    fun _ => hzero, fun h0 => absurd h0 ha0, fun q hq hq' => ?_, fun b hb => ?_, fun _ => hlands⟩
  · rw [hrefs, update_of_ne (by simp [hj])]
  · refine hdata _ (h.range hq0).2 (hfresh.2.2 q) fun heq => hq ?_
    rw [Pool.Exact.inj h q (i, .indirect) heq hq0]
  · by_contra hne
    rw [hrefs, update_of_ne fun heq => hne (.inl (Prod.mk.inj heq).2), hq] at hq'
    exact hq' rfl
  · rcases hlogs b hb with hb | rfl | rfl | ⟨rfl, hb⟩
    · exact .inl hb
    · exact .inr (.inl ⟨a, ha, rfl⟩)
    · exact .inr (.inr ⟨ha0, p, .inr rfl, haddr⟩)
    · exact .inr (.inr ⟨hb, .indirect, .inl rfl, hkeep _ hb⟩)

variable (hi : i < L.ninodes) (ht : (s.mem i).type ≠ 0)
include hi ht

theorem mapped_addr {k : Fin (ndirect + 1)} (h0 : (s.mem i).addr k = 0) (ha : a < L.size)
    (hbit : L.bit s.block a = false) :
    Mapped L i (.addrs k) s a ((s.alloc L a).setMem i ((s.mem i).setAddr k a)) := by
  have hlt : a < 2 ^ 32 := Nat.lt_trans ha L.size_lt
  have hself : s.ino L i i = s.mem i := ino_self L i s
  have hi' : (s.ino L i i).type ≠ 0 := by rwa [hself]
  have hblock : (s.alloc L a).block a = fun _ => 0 := update_self ..
  have hzero : ∀ m : Fin nindirect, word ((s.alloc L a).block a) m = 0 := by
    intro m
    rw [hblock, word]
    simp [Bytes.read, Bytes.byte]
  have hown := (h.take ha hbit fun _ => 0).attachAddr hi hi' (by rwa [hself]) fun _ => hzero
  have hino : ∀ j < L.ninodes,
      ((s.alloc L a).setMem i ((s.mem i).setAddr k a)).ino L i j =
        Function.update (s.ino L i) i ((s.ino L i i).setAddr k a) j := by
    intro j hj
    by_cases hji : j = i
    · subst hji
      rw [update_self, hself]
      exact (update_self ..).trans (update_self ..)
    · rw [update_of_ne hji]
      refine (update_of_ne hji ..).trans ((dinode_alloc h ha hbit hj).trans ?_)
      exact (update_of_ne hji ..).symm
  refine mapped_of_refs h ha hbit ⟨rfl, rfl, rfl, rfl, fun j hj => update_of_ne hj ..⟩ ?_
    (fun j hj => dinode_alloc h ha hbit hj) ?_ ?_ (fun b hb hne _ => block_alloc ha hb hne)
    (hown.of_eq hino) hblock (fun b hb => ?_) (mem_log_self ..)
  · rw [mem_setMem]
    rfl
  · rw [refs_of_type hi hi', Dinode.at_addrs, hself, h0]
  · rintro ⟨j, p⟩
    rw [← funext (refs_alloc h ha hbit), ← Own.refs_setAddr hi hi' hlt (by rwa [hself])
      fun _ => hzero]
    by_cases hj : j < L.ninodes
    · exact refs_congr (hino j hj) (fun _ _ _ => rfl) p
    · rw [refs_of_not_lt hj, refs_of_not_lt hj]
  · rcases mem_alloc hb with hb | hb | hb
    · exact .inl hb
    · exact .inr (.inl hb)
    · exact .inr (.inr (.inl hb))

theorem mapped_entry {j : Fin nindirect} (hc : (s.mem i).addr ndirect = c) (hc0 : c ≠ 0)
    (h0 : word (s.block c) j = 0) (ha : a < L.size) (hbit : L.bit s.block a = false) :
    Mapped L i (.entry j) s a
      (((s.alloc L a).setBlock c (putWord ((s.alloc L a).block c) j a)).log c) := by
  have hlt : a < 2 ^ 32 := Nat.lt_trans ha L.size_lt
  have hself : s.ino L i i = s.mem i := ino_self L i s
  have hi' : (s.ino L i i).type ≠ 0 := by rwa [hself]
  have hc' : (s.ino L i i).addr ndirect = c := by rwa [hself]
  have hind : refs L (s.ino L i) s.block (i, .indirect) = c := by rw [refs_indirect hi hi', hc']
  have hrange : L.nmeta ≤ c := hind ▸ (h.range (by rwa [hind])).2
  have hca : c ≠ a := hind ▸ (h.fresh ha hbit).2.2 (i, .indirect)
  have htake := h.take ha hbit fun _ => 0
  have hsame : (s.alloc L a).block c = s.block c := block_alloc ha hrange hca
  have hword : word ((s.alloc L a).block c) j = 0 := by rw [hsame, h0]
  have hown := htake.attachEntry (j := j) hi hi' (by rwa [hc']) (by rw [hc']; exact hword)
  have hput := htake.refs_putWord hi hi' hlt (by rwa [hc']) j
  rw [hc'] at hown hput
  have hdisk : ∀ k < L.ninodes, L.dinode (Function.update (s.alloc L a).block c
      (putWord ((s.alloc L a).block c) j a)) k = L.dinode s.block k := fun k hk =>
    (Layout.dinode_update_data hk hrange _).trans (dinode_alloc h ha hbit hk)
  have hino : ∀ k < L.ninodes, (((s.alloc L a).setBlock c
      (putWord ((s.alloc L a).block c) j a)).log c).ino L i k = s.ino L i k := by
    intro k hk
    by_cases hki : k = i
    · subst hki
      exact (update_self ..).trans hself.symm
    · exact (update_of_ne hki ..).trans
        ((hdisk k hk).trans (update_of_ne hki ..).symm)
  refine mapped_of_refs h ha hbit ⟨rfl, rfl, rfl, rfl, fun _ _ => rfl⟩ rfl hdisk ?_ ?_
    (fun b hb hba hbc => ?_) (hown.of_eq hino) ?_ (fun b hb => ?_)
    (mem_log_of_mem c (mem_log_self ..))
  · rw [refs_of_type hi hi', Dinode.at, hc', if_neg hc0, h0]
  · rintro ⟨k, p⟩
    rw [← funext (refs_alloc h ha hbit)]
    refine Eq.trans ?_ (congrFun hput (k, p))
    by_cases hk : k < L.ninodes
    · exact refs_congr (hino k hk) (fun _ _ _ => rfl) p
    · rw [refs_of_not_lt hk, refs_of_not_lt hk]
  · exact (update_of_ne (hind ▸ hbc) ..).trans (block_alloc ha hb hba)
  · exact (update_of_ne hca.symm ..).trans (update_self ..)
  · rcases mem_log hb with hb | rfl
    · rcases mem_alloc hb with hb | hb | hb
      · exact .inl hb
      · exact .inr (.inl hb)
      · exact .inr (.inr (.inl hb))
    · exact .inr (.inr (.inr ⟨hind.symm, hc0⟩))

theorem wp_bmapAddr {k : Nat} (hk : k < ndirect + 1) (hop : (s.mem i).addr k = 0 → s.inOp = true)
    (hsame : (s.mem i).addr k ≠ 0 → Q ((s.mem i).addr k) s)
    (hfull : (s.mem i).addr k = 0 → (∀ b < L.size, L.bit s.block b = true) → Q 0 s)
    (hnew : ∀ a t, a ≠ 0 → (s.mem i).addr k = 0 → Mapped L i (.addrs ⟨k, hk⟩) s a t → Q a t) :
    wp (bmapAddr L i k) Q E s := by
  rw [bmapAddr, wp_bind, wp_get, wp_ite]
  split
  · rename_i h0
    refine .bind (wp_balloc (hop h0) (fun hb => ?_) fun a ha hbit _ => ?_)
    · rw [if_pos rfl, wp_pure]
      exact hfull h0 hb
    · have ha0 : a ≠ 0 :=
        (Nat.lt_of_lt_of_le L.nmeta_pos (h.fresh ha hbit).1).ne'
      rw [if_neg ha0, wp_bind, setAddr, wp_modify, wp_pure]
      exact hnew _ _ ha0 h0 (mapped_addr (k := ⟨k, hk⟩) h hi ht h0 ha hbit)
  · rename_i h0
    exact .pure (hsame h0)

theorem wp_bmapIndirect (hc : (s.mem i).addr ndirect = c) (hc0 : c ≠ 0) {j : Nat}
    (hj : j < nindirect) (hop : word (s.block c) j = 0 → s.inOp = true)
    (hsame : word (s.block c) j ≠ 0 → Q (word (s.block c) j) s)
    (hfull : word (s.block c) j = 0 → (∀ b < L.size, L.bit s.block b = true) → Q 0 s)
    (hnew : ∀ a t, a ≠ 0 → word (s.block c) j = 0 → Mapped L i (.entry ⟨j, hj⟩) s a t → Q a t) :
    wp (bmapIndirect L c j) Q E s := by
  rw [bmapIndirect, wp_bind, wp_get, wp_ite]
  split
  · rename_i h0
    refine .bind (wp_balloc (hop h0) (fun hb => ?_) fun a ha hbit _ => ?_)
    · rw [if_pos rfl, wp_pure]
      exact hfull h0 hb
    · have ha0 : a ≠ 0 :=
        (Nat.lt_of_lt_of_le L.nmeta_pos (h.fresh ha hbit).1).ne'
      rw [if_neg ha0, wp_bind, wp_get, wp_bind]
      refine wp_write (hop h0) ?_
      exact .pure (hnew _ _ ha0 h0 (mapped_entry (j := ⟨j, hj⟩) h hi ht hc hc0 h0 ha hbit))
  · rename_i h0
    exact .pure (hsame h0)

end

theorem Mapped.trans {t u : Vol} {j : Fin nindirect}
    (h : Mapped L i .indirect s c t) (h' : Mapped L i (.entry j) t a u) :
    Mapped L i (.entry j) s a u := by
  refine ⟨h.grows.trans h'.grows, h'.own, h'.addr, h'.zero, h'.full, fun q hq hq' => ?_,
    fun b hb => ?_, h'.lands⟩
  · by_cases hqt : refs L (t.ino L i) t.block (i, q) = 0
    · exact h'.fresh q hqt hq'
    · rcases h.fresh q hq hqt with rfl | ⟨rfl, -⟩
      · exact .inr ⟨rfl, j, rfl⟩
      · exact .inr ⟨rfl, j, rfl⟩
  rcases h'.logs b hb with hb | hb
  · rcases h.logs b hb with hb | hb | hb
    · exact .inl hb
    · exact .inr (.inl hb)
    · refine .inr (.inr (h'.grows.keeps (hb.mono fun q hq => ?_)))
      exact .inl (or_self_iff.mp hq)
  · exact .inr hb

theorem Place.data_of_le (h : ndirect ≤ bn) (hbn : bn - ndirect < nindirect) :
    Place.data bn = .entry ⟨bn - ndirect, hbn⟩ := by
  rw [Place.data, dif_neg (Nat.not_lt.mpr h)]
  simp only [Nat.mod_eq_of_lt hbn]

/-- **`bmap`** returns the block that the inode has, and then the state stays as it is; otherwise it
allocates one. -/
theorem wp_bmap (h : Own L (s.ino L i) s.block []) (hi : i < L.ninodes)
    (ht : (s.mem i).type ≠ 0) {bn : Nat} (hbn : bn < maxFile)
    (hop : refs L (s.ino L i) s.block (i, .data bn) = 0 → s.inOp = true)
    (hsame : refs L (s.ino L i) s.block (i, .data bn) ≠ 0 →
      Q (refs L (s.ino L i) s.block (i, .data bn)) s)
    (hnew : ∀ a t, refs L (s.ino L i) s.block (i, .data bn) = 0 →
      Mapped L i (.data bn) s a t → Q a t) : wp (bmap L i bn) Q E s := by
  have hself : s.ino L i i = s.mem i := ino_self L i s
  have hi' : (s.ino L i i).type ≠ 0 := by rwa [hself]
  have hrefs : ∀ p, refs L (s.ino L i) s.block (i, p) = (s.mem i).at s.block p := by
    intro p
    rw [refs_of_type hi hi', hself]
  have hstay : ∀ p, refs L (s.ino L i) s.block (i, p) = 0 →
      (∀ b < L.size, L.bit s.block b = true) → Mapped L i p s 0 s := fun p h0 hfull =>
    ⟨⟨.refl L i s, fun _ _ _ => rfl⟩, h, h0, fun hne => absurd rfl hne, fun _ => hfull,
      fun _ hq hq' => absurd hq hq', fun _ hb => .inl hb, fun hne => absurd rfl hne⟩
  rw [bmap, wp_ite]
  split
  · rename_i hlt
    have hplace : Place.data bn = .addrs ⟨bn, Nat.lt_succ_of_lt hlt⟩ := dif_pos hlt
    rw [hplace] at hop hsame hnew
    simp only [hrefs, Dinode.at_addrs] at hop hsame hnew
    exact wp_bmapAddr h hi ht (Nat.lt_succ_of_lt hlt) hop hsame
      (fun h0 hfull => hnew 0 s h0 (hstay _ (by rwa [hrefs, Dinode.at_addrs]) hfull))
      fun a t _ h0 hmap => hnew a t h0 hmap
  · rename_i hge
    have hj : bn - ndirect < nindirect := by
      simp only [maxFile, ndirect, nindirect] at *
      omega
    rw [wp_ite, if_pos hj, wp_bind]
    rw [Place.data_of_le (Nat.le_of_not_lt hge) hj] at hop hsame hnew
    simp only [hrefs, Dinode.at] at hop hsame hnew
    -- without an indirect block there is no entry either
    have hnone : (s.mem i).addr ndirect = 0 → (if (s.mem i).addr ndirect = 0 then 0 else
        word (s.block ((s.mem i).addr ndirect)) (bn - ndirect)) = 0 := fun h0 => if_pos h0
    refine wp_bmapAddr h hi ht (Nat.lt_succ_self _) (fun h0 => hop (hnone h0)) (fun hc0 => ?_)
      (fun h0 hfull => ?_) fun c t hc0 h0 hmap => ?_
    · rw [if_neg hc0] at hop hsame hnew ⊢
      exact wp_bmapIndirect h hi ht rfl hc0 hj hop hsame
        (fun h0 hfull => hnew 0 s h0 (hstay (.entry ⟨_, hj⟩)
          (by rw [hrefs, Dinode.at, if_neg hc0, h0]) hfull))
        fun a u _ h0 hmap => hnew a u h0 hmap
    · rw [if_pos rfl, wp_pure]
      exact hnew 0 s (hnone h0)
        (hstay (.entry ⟨_, hj⟩) (by rw [hrefs, Dinode.at, if_pos h0]) hfull)
    · have ht' : (t.mem i).type ≠ 0 := by rwa [hmap.grows.type_eq]
      have hself' : t.ino L i i = t.mem i := ino_self L i t
      change Mapped L i .indirect s c t at hmap
      have hc : (t.mem i).addr ndirect = c := by
        rw [← hmap.addr, refs_indirect hi (by rwa [hself']), hself']
      have hword : word (t.block c) (bn - ndirect) = 0 := by
        rw [hmap.zero hc0, word]
        simp [Bytes.read, Bytes.byte]
      rw [if_neg hc0]
      refine wp_bmapIndirect hmap.own hi ht' hc hc0 hj
        (fun _ => hmap.grows.inOp.trans (hop (hnone h0))) (fun hne => absurd hword hne)
        (fun _ hfull => hnew 0 t (hnone h0) ?_) fun a u _ _ hmap' =>
          hnew a u (hnone h0) (hmap.trans hmap')
      refine ⟨hmap.grows, hmap.own, ?_, fun hne => absurd rfl hne, fun _ => hfull,
        fun q hq hq' => ?_, fun b hb => ?_, fun hne => absurd rfl hne⟩
      · rw [refs_of_type hi (by rwa [hself']), hself', Dinode.at, hc, if_neg hc0, hword]
      · rcases hmap.fresh q hq hq' with rfl | ⟨rfl, -⟩
        · exact .inr ⟨rfl, _, rfl⟩
        · exact .inr ⟨rfl, _, rfl⟩
      · rcases hmap.logs b hb with hb | hb | hb
        · exact .inl hb
        · exact .inr (.inl hb)
        · exact .inr (.inr (hb.mono fun q hq => .inl (or_self_iff.mp hq)))

end Bmap

/-! ## `itrunc` -/

/-- Between the two states blocks of inode `i` have been freed, and nothing else has happened. -/
structure Shrinks (L : Layout) (i : Nat) (s t : Vol) : Prop extends Others i s t where
  fields : t.mem i = { s.mem i with addrs := (t.mem i).addrs }
  disk : ∀ j < L.ninodes, L.dinode t.block j = L.dinode s.block j
  data : ∀ b, L.nmeta ≤ b → t.block b = s.block b
  logs : ∀ b ∈ t.logged, b ∈ s.logged ∨ ∃ c < L.size, b = L.bblock c

namespace Shrinks

variable {L : Layout} {i : Nat} {s t u : Vol}

theorem refl (L : Layout) (i : Nat) (s : Vol) : Shrinks L i s s :=
  ⟨⟨rfl, rfl, rfl, rfl, fun _ _ => rfl⟩, rfl, fun _ _ => rfl, fun _ _ => rfl, fun _ hb => .inl hb⟩

theorem trans (h : Shrinks L i s t) (h' : Shrinks L i t u) : Shrinks L i s u where
  toOthers := h.toOthers.trans h'.toOthers
  fields := by rw [h'.fields, h.fields]
  disk j hj := (h'.disk j hj).trans (h.disk j hj)
  data b hb := (h'.data b hb).trans (h.data b hb)
  logs b hb := by
    rcases h'.logs b hb with hb | hb
    · exact h.logs b hb
    · exact .inr hb

theorem free {b : Nat} (i : Nat) (hb : b < L.size) : Shrinks L i s (s.free L b) where
  toOthers := ⟨rfl, rfl, rfl, rfl, fun _ _ => rfl⟩
  fields := rfl
  disk j hj := Layout.dinode_clearBit hj b
  data c hc := Layout.clearBit_data hb hc
  logs c hc := by
    rcases mem_log hc with hc | rfl
    · exact .inl hc
    · exact .inr ⟨b, hb, rfl⟩

theorem setAddr (L : Layout) (i k a : Nat) (s : Vol) :
    Shrinks L i s (s.setMem i ((s.mem i).setAddr k a)) where
  toOthers := (Shrinks.refl L i s).setMem _
  fields := by
    rw [mem_setMem]
    rfl
  disk _ _ := rfl
  data _ _ := rfl
  logs _ hb := .inl hb

end Shrinks

section Itrunc

variable {L : Layout} {s : Vol} {i : Nat} {Q : Unit → Vol → Prop} {E : Stop → Vol → Prop}

theorem ino_setAddr {b k : Nat} (j : Nat) (hj : j < L.ninodes) :
    ((s.free L b).setMem i ((s.mem i).setAddr k 0)).ino L i j =
      Function.update (s.ino L i) i ((s.ino L i i).setAddr k 0) j := by
  by_cases hji : j = i
  · subst hji
    rw [update_self, ino_self, ino_self]
    exact update_self ..
  · rw [update_of_ne hji]
    refine (update_of_ne hji ..).trans ((Layout.dinode_clearBit hj b).trans ?_)
    exact (update_of_ne hji ..).symm

theorem wp_truncAddr {k : Nat} (hk : k < ndirect) (h : Own L (s.ino L i) s.block [])
    (hi : i < L.ninodes) (ht : (s.mem i).type ≠ 0) (hop : s.inOp = true)
    (hQ : ∀ t, Shrinks L i s t → Own L (t.ino L i) t.block [] →
      (∀ l, (t.mem i).addr l = if l = k then 0 else (s.mem i).addr l) → Q () t) :
    wp (truncAddr L i k) Q E s := by
  have hself : s.ino L i i = s.mem i := ino_self L i s
  have hi' : (s.ino L i i).type ≠ 0 := by rwa [hself]
  rw [truncAddr, wp_bind, wp_get, wp_ite]
  split
  · rename_i h0
    let k' : Fin (ndirect + 1) := ⟨k, Nat.lt_succ_of_lt hk⟩
    have hlast : k' ≠ Fin.last ndirect := fun heq => Nat.ne_of_lt hk (Fin.ext_iff.mp heq)
    have hdetach := h.detachAddr hi hi' hlast (by rwa [hself])
    have hlt := hdetach.loose_range List.mem_cons_self
    have hbit : L.bit s.block ((s.mem i).addr k) = true := by
      have := Pool.Exact.used_of_loose hdetach List.mem_cons_self
      rwa [hself] at this
    rw [hself] at hlt
    refine .bind (wp_bfree hop hbit ?_)
    rw [setAddr, wp_modify]
    refine hQ _ ((Shrinks.free i hlt.1).trans (.setAddr L i k 0 _)) ?_ ?_
    · have hown := hdetach.release.of_eq fun j hj => ino_setAddr (s := s) (i := i)
        (b := (s.mem i).addr k) (k := k) j hj
      rwa [hself] at hown
    · intro l
      rw [mem_setMem]
      exact Dinode.addr_setAddr (Nat.lt_succ_of_lt hk) (by decide)
  · rename_i h0
    refine .pure (hQ s (.refl L i s) h fun l => ?_)
    split
    · rename_i hl
      rw [hl]
      exact not_not.mp h0
    · rfl

def entriesFrom (e : Block) (j : Nat) : List Nat :=
  (((List.finRange nindirect).drop j).map fun k : Fin nindirect => word e k).filter (· ≠ 0)

theorem entriesFrom_zero (e : Block) : entriesFrom e 0 = Own.entries e := by
  rw [entriesFrom, List.drop_zero, Own.entries]

theorem entriesFrom_of_lt {e : Block} {j : Nat} (hj : j < nindirect) :
    entriesFrom e j = if word e j ≠ 0 then word e j :: entriesFrom e (j + 1)
      else entriesFrom e (j + 1) := by
  have hlen : j < (List.finRange nindirect).length := by rwa [List.length_finRange]
  rw [entriesFrom, List.drop_eq_getElem_cons hlen, List.map_cons, List.filter_cons,
    List.getElem_finRange]
  simp only [Fin.val_cast, entriesFrom, decide_not, Bool.not_eq_true', decide_eq_false_iff_not]

theorem wp_truncEntries {ino : Nat → Dinode} {a : Nat} {loose : List Nat}
    (h : Own L ino s.block (entriesFrom (s.block a) 0 ++ loose)) (hop : s.inOp = true)
    (ha : L.nmeta ≤ a)
    (hQ : ∀ t, Shrinks L i s t → t.mem = s.mem → Own L ino t.block loose → Q () t) :
    wp (times (truncEntry L a) nindirect) Q E s := by
  have hloop := wp_times (E := E) (f := truncEntry L a) (n := nindirect)
    (fun j t => Shrinks L i s t ∧ t.mem = s.mem ∧
      Own L ino t.block (entriesFrom (s.block a) j ++ loose)) ⟨.refl L i s, rfl, h⟩
    fun j t hj ⟨hfree, hmem, hown⟩ => ?_
  · refine hloop.mono_ok fun _ t ⟨hfree, hmem, hown⟩ => ?_
    have hnil : entriesFrom (s.block a) nindirect = [] := by
      rw [entriesFrom, List.drop_eq_nil_of_le (by rw [List.length_finRange])]
      rfl
    rw [hnil, List.nil_append] at hown
    exact hQ t hfree hmem hown
  · rw [entriesFrom_of_lt hj] at hown
    rw [truncEntry, wp_bind, wp_get, hfree.data a ha, wp_ite]
    split
    · rename_i h0
      rw [if_pos h0] at hown
      have hlt := hown.loose_range List.mem_cons_self
      exact wp_bfree (hfree.inOp.trans hop) (Pool.Exact.used_of_loose hown List.mem_cons_self)
        ⟨hfree.trans (.free i hlt.1), hmem, hown.release⟩
    · rename_i h0
      rw [if_neg h0] at hown
      exact .pure ⟨hfree, hmem, hown⟩

theorem wp_truncIndirect (h : Own L (s.ino L i) s.block []) (hi : i < L.ninodes)
    (ht : (s.mem i).type ≠ 0) (hop : s.inOp = true)
    (hQ : ∀ t, Shrinks L i s t → Own L (t.ino L i) t.block [] →
      (∀ l, (t.mem i).addr l = if l = ndirect then 0 else (s.mem i).addr l) → Q () t) :
    wp (truncIndirect L i) Q E s := by
  have hself : s.ino L i i = s.mem i := ino_self L i s
  have hi' : (s.ino L i i).type ≠ 0 := by rwa [hself]
  rw [truncIndirect, wp_bind, wp_get, wp_ite]
  split
  · rename_i h0
    have hrange := h.indirect_range hi hi' (by rwa [hself])
    have hdetach := h.detachIndirect hi hi' (by rwa [hself])
    rw [hself] at hrange hdetach
    rw [List.append_nil, ← entriesFrom_zero] at hdetach
    refine .bind (wp_truncEntries (i := i) hdetach hop hrange.2 fun t hfree hmem hown => ?_)
    have hlt := hown.loose_range List.mem_cons_self
    rw [wp_bind]
    refine wp_bfree (hfree.inOp.trans hop) (Pool.Exact.used_of_loose hown List.mem_cons_self) ?_
    rw [setAddr, wp_modify]
    refine hQ _ ((hfree.trans (.free i hlt.1)).trans (.setAddr L i ndirect 0 _)) ?_ fun l => ?_
    · refine hown.release.of_eq fun j hj => ?_
      refine (ino_setAddr (s := t) j hj).trans ?_
      by_cases hji : j = i
      · subst hji
        rw [update_self, update_self, ino_self, hmem]
      · rw [update_of_ne hji, update_of_ne hji]
        exact (update_of_ne hji ..).trans
          ((hfree.disk j hj).trans (update_of_ne hji ..).symm)
    · rw [mem_setMem, ← hmem]
      exact Dinode.addr_setAddr (by decide) (by decide)
  · rename_i h0
    refine .pure (hQ s (.refl L i s) h fun l => ?_)
    split
    · rename_i hl
      rw [hl]
      exact not_not.mp h0
    · rfl

theorem wp_truncLoops (h : Own L (s.ino L i) s.block []) (hi : i < L.ninodes)
    (ht : (s.mem i).type ≠ 0) (hop : s.inOp = true)
    (hQ : ∀ t, Shrinks L i s t → Own L (t.ino L i) t.block [] →
      (t.mem i).addrs = (fun _ => 0) → Q () t) :
    wp (do times (truncAddr L i) ndirect; truncIndirect L i) Q E s := by
  have hloop := wp_times (E := E) (f := truncAddr L i) (n := ndirect)
    (fun k t => Shrinks L i s t ∧ Own L (t.ino L i) t.block [] ∧
      ∀ l, (t.mem i).addr l = if l < k then 0 else (s.mem i).addr l)
    ⟨.refl L i s, h, fun l => by simp⟩ fun k t hk ⟨hfree, hown, haddr⟩ => ?_
  · refine .bind (hloop.mono_ok fun _ t ⟨hfree, hown, haddr⟩ => ?_)
    have ht' : (t.mem i).type ≠ 0 := by rwa [hfree.fields]
    refine wp_truncIndirect hown hi ht' (hfree.inOp.trans hop) fun u hfree' hown' haddr' =>
      hQ u (hfree.trans hfree') hown' (funext fun l => UInt32.toNat_inj.mp ?_)
    rw [← Dinode.addr_eq, haddr', haddr]
    have hl : l.val < ndirect + 1 := l.isLt
    split
    · rfl
    · rw [if_pos (by omega)]
      rfl
  · have ht' : (t.mem i).type ≠ 0 := by rwa [hfree.fields]
    refine wp_truncAddr hk hown hi ht' (hfree.inOp.trans hop) fun u hfree' hown' haddr' =>
      ⟨hfree.trans hfree', hown', fun l => ?_⟩
    rw [haddr', haddr]
    split
    · rw [if_pos (by omega)]
    · simp only [show l < k + 1 ↔ l < k by omega]

end Itrunc

/-! ## Writing an inode back -/

def store (L : Layout) (s : Vol) (i : Nat) : Vol :=
  ({ s with block := L.putDinode s.block i (s.mem i) }).log (L.iblock i)

section Iupdate

variable {L : Layout} {s : Vol} {i j : Nat} {Q : Unit → Vol → Prop} {E : Stop → Vol → Prop}

theorem wp_iupdate (hop : s.inOp = true) (hQ : Q () (s.store L i)) : wp (iupdate L i) Q E s := by
  rw [iupdate, wp_bind, wp_get]
  exact wp_write hop hQ

theorem dinode_store_self (L : Layout) (s : Vol) (i : Nat) :
    L.dinode (s.store L i).block i = s.mem i := by
  refine (Layout.dinode_putDinode i i _).trans ?_
  rw [if_pos rfl]

theorem dinode_store_of_ne (hne : j ≠ i) :
    L.dinode (s.store L i).block j = L.dinode s.block j := by
  refine (Layout.dinode_putDinode i j _).trans ?_
  rw [if_neg hne]

theorem data_store (hi : i < L.ninodes) {b : Nat} (hb : L.nmeta ≤ b) :
    (s.store L i).block b = s.block b := Layout.putDinode_data hi hb _

theorem dinode_store (L : Layout) (s : Vol) (i : Nat) :
    L.dinode (s.store L i).block = s.ino L i := by
  funext j
  by_cases hji : j = i
  · rw [hji, dinode_store_self, ino_self]
  · rw [dinode_store_of_ne hji]
    exact (update_of_ne hji ..).symm

theorem own_store {loose : List Nat} (h : Own L (s.ino L i) s.block loose) (hi : i < L.ninodes) :
    Own L (L.dinode (s.store L i).block) (s.store L i).block loose := by
  rw [dinode_store]
  exact h.putDinode hi (s.mem i)

end Iupdate

theorem Others.store {i : Nat} {s t : Vol} (h : Others i s t) (L : Layout) : Others i s (t.store L i) :=
  ⟨h.ref, h.valid, h.inuse, h.inOp, h.mem⟩

structure Truncated (L : Layout) (i : Nat) (s t : Vol) : Prop extends Others i s t where
  self : t.mem i = { s.mem i with size := 0, addrs := fun _ => 0 }
  disk : ∀ j < L.ninodes, j ≠ i → L.dinode t.block j = L.dinode s.block j
  disk_self : L.dinode t.block i = t.mem i
  data : ∀ b, L.nmeta ≤ b → t.block b = s.block b
  own : Own L (L.dinode t.block) t.block []
  logs : ∀ b ∈ t.logged, b ∈ s.logged ∨ (∃ c < L.size, b = L.bblock c) ∨ b = L.iblock i

/-- **`itrunc`** frees all blocks of the inode; `bfree` finds each of them in use. -/
theorem wp_itrunc {L : Layout} {s : Vol} {i : Nat} {Q : Unit → Vol → Prop} {E : Stop → Vol → Prop}
    (h : Own L (s.ino L i) s.block []) (hi : i < L.ninodes) (ht : (s.mem i).type ≠ 0)
    (hop : s.inOp = true) (hQ : ∀ t, Truncated L i s t → Q () t) : wp (itrunc L i) Q E s := by
  rw [itrunc]
  have hassoc : (do
      times (truncAddr L i) ndirect
      truncIndirect L i
      modify fun s => s.setMem i { s.mem i with size := 0 }
      iupdate L i) = (do
      (do times (truncAddr L i) ndirect; truncIndirect L i)
      modify fun s => s.setMem i { s.mem i with size := 0 }
      iupdate L i : V Unit) := by simp only [bind_assoc]
  rw [hassoc, wp_bind]
  refine wp_truncLoops h hi ht hop fun t hfree hown haddr => ?_
  rw [wp_bind, wp_modify]
  refine wp_iupdate (hfree.inOp.trans hop) (hQ _ ?_)
  have hself : (t.mem i) = { s.mem i with addrs := fun _ => 0 } := by rw [hfree.fields, haddr]
  have hown' : Own L ((t.setMem i { t.mem i with size := 0 }).ino L i) t.block [] := by
    rw [ino_setMem]
    refine hown.setInode ?_ ?_
    · rw [ino_self]
    · rw [ino_self]
  refine ⟨(hfree.setMem _).store L, ?_, fun j hj hne => ?_, dinode_store_self ..,
    fun b hb => (data_store hi hb).trans (hfree.data b hb), own_store hown' hi, fun b hb => ?_⟩
  · refine (mem_setMem ..).trans ?_
    rw [hself]
  · exact (dinode_store_of_ne hne).trans (hfree.disk j hj)
  · rcases mem_log hb with hb | hb
    · rcases hfree.logs b hb with hb | hb
      · exact .inl hb
      · exact .inr (.inl hb)
    · exact .inr (.inr hb)

end Vol

end Xv6.Fs
