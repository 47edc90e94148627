import Xv6.Fs.Blocks
import Xv6.Lib.Pool

/-!
# Who owns a block

A block number is kept in `addrs[]` of an inode or in an indirect block: these are the places of
`refs`.  `Own` says that the accounts of the blocks are exact (`Pool.Exact`): no block is kept at two
places, and the bitmap marks the metadata, the blocks that are kept somewhere, and the blocks of a
list that are on their way from the bitmap to an inode or back.
-/

namespace Xv6.Fs

open List (mem_cons_self)
open Function (update update_of_ne update_self update_apply update_comm)
open Prog

/-! ## Places -/

inductive Place where
  | addrs (k : Fin (ndirect + 1))
  | entry (j : Fin nindirect)
  deriving DecidableEq, Repr

abbrev Place.indirect : Place := .addrs (Fin.last ndirect)

/-- The place for block `bn` of a file. -/
def Place.data (bn : Nat) : Place :=
  if h : bn < ndirect then .addrs ⟨bn, Nat.lt_succ_of_lt h⟩
  else .entry ⟨(bn - ndirect) % nindirect, Nat.mod_lt _ (by decide)⟩

/-- What has to be there for a block at a place: the place itself, and the indirect block for its
entries. -/
def Place.Under (p q : Place) : Prop := q = p ∨ q = .indirect ∧ ∃ j, p = .entry j

def Dinode.at (x : Dinode) (d : Nat → Block) : Place → Nat
  | .addrs k => (x.addrs k).toNat
  | .entry j => if x.addr ndirect = 0 then 0 else word (d (x.addr ndirect)) j

def refs (L : Layout) (ino : Nat → Dinode) (d : Nat → Block) (p : Nat × Place) : Nat :=
  if p.1 < L.ninodes ∧ (ino p.1).type ≠ 0 then (ino p.1).at d p.2 else 0

/-- The accounts of the blocks are exact, with the blocks of a list on their way. -/
def Own (L : Layout) (ino : Nat → Dinode) (d : Nat → Block) (loose : List Nat) : Prop :=
  Pool.Exact L.size (· < L.nmeta) (refs L ino d) (fun b => L.bit d b = true) loose

section Places

variable {L : Layout} {ino ino' : Nat → Dinode} {d d' : Nat → Block} {i j : Nat} {x : Dinode}
  {p : Place} {loose : List Nat}

theorem Dinode.addr_eq (x : Dinode) (k : Fin (ndirect + 1)) : x.addr k = (x.addrs k).toNat :=
  dif_pos k.isLt

theorem Dinode.at_addrs (x : Dinode) (d : Nat → Block) (k : Fin (ndirect + 1)) :
    x.at d (.addrs k) = x.addr k := (x.addr_eq k).symm

theorem Dinode.at_of_empty (hx : x.addrs = fun _ => 0) : x.at d p = 0 := by
  have haddr : x.addr ndirect = 0 :=
    (x.addr_eq (Fin.last ndirect)).trans (by rw [hx]; rfl)
  cases p with
  | addrs k => rw [Dinode.at, hx]; rfl
  | entry k => rw [Dinode.at, if_pos haddr]

theorem Dinode.addr_setAddr {x : Dinode} {k l a : Nat} (hk : k < ndirect + 1) (ha : a < 2 ^ 32) :
    (x.setAddr k a).addr l = if l = k then a else x.addr l := by
  rw [addr, addr, setAddr]
  by_cases hl : l < ndirect + 1
  · rw [dif_pos hl, dif_pos hl]
    dsimp only
    split
    · exact UInt32.toNat_ofNat_of_lt ha
    · rfl
  · rw [dif_neg hl, dif_neg hl, if_neg (by omega)]

theorem refs_of_type (hi : i < L.ninodes) (ht : (ino i).type ≠ 0) :
    refs L ino d (i, p) = (ino i).at d p := if_pos ⟨hi, ht⟩

theorem refs_of_not_lt (hi : ¬i < L.ninodes) : refs L ino d (i, p) = 0 := if_neg fun h => hi h.1

theorem refs_congr (hino : ino' i = ino i)
    (hd : (ino i).addr ndirect ≠ 0 → i < L.ninodes → (ino i).type ≠ 0 →
      d' ((ino i).addr ndirect) = d ((ino i).addr ndirect)) (p : Place) :
    refs L ino' d' (i, p) = refs L ino d (i, p) := by
  rw [refs, refs, hino]
  split
  · rename_i hi
    cases p with
    | addrs k => rfl
    | entry k =>
      rw [Dinode.at, Dinode.at]
      split
      · rfl
      · rename_i h0
        rw [hd h0 hi.1 hi.2]
  · rfl

theorem refs_indirect (hi : i < L.ninodes) (ht : (ino i).type ≠ 0) :
    refs L ino d (i, .indirect) = (ino i).addr ndirect := by
  rw [refs_of_type hi ht]
  exact Dinode.at_addrs ..

namespace Own

variable {q : Nat × Place} {b : Nat}

theorem range (h : Own L ino d loose) (hq : refs L ino d q ≠ 0) :
    refs L ino d q < L.size ∧ L.nmeta ≤ refs L ino d q := by
  obtain ⟨hlt, hfix, -⟩ := Pool.Exact.range h q hq
  exact ⟨hlt, Nat.le_of_not_lt hfix⟩

theorem indirect_range (h : Own L ino d loose) (hi : i < L.ninodes) (ht : (ino i).type ≠ 0)
    (h0 : (ino i).addr ndirect ≠ 0) :
    (ino i).addr ndirect < L.size ∧ L.nmeta ≤ (ino i).addr ndirect := by
  rw [← refs_indirect (d := d) hi ht] at h0 ⊢
  exact h.range h0

theorem congr (h : Own L ino d loose) (hrefs : ∀ q, refs L ino' d' q = refs L ino d q)
    (hbit : ∀ b < L.size, L.bit d' b = L.bit d b) : Own L ino' d' loose := by
  have heq : refs L ino' d' = refs L ino d := funext hrefs
  rw [Own, heq]
  exact Pool.Exact.congr h fun b hb => by rw [hbit b hb]

end Own

end Places

/-! ## What keeps the accounts exact -/

namespace Own

variable {L : Layout} {ino ino' : Nat → Dinode} {d d' : Nat → Block} {i j a b : Nat} {e : Block}
  {loose : List Nat}

section

variable (h : Own L ino d loose)
include h

theorem of_same (hino : ∀ j < L.ninodes, ∀ p, refs L ino' d (j, p) = refs L ino d (j, p))
    (hind : ∀ j < L.ninodes, (ino' j).type ≠ 0 → (ino' j).addr ndirect ≠ 0 →
      d' ((ino' j).addr ndirect) = d ((ino' j).addr ndirect))
    (hbit : ∀ b < L.size, L.bit d' b = L.bit d b) : Own L ino' d' loose := by
  refine h.congr (fun q => ?_) hbit
  by_cases hq : q.1 < L.ninodes
  · rw [← hino q.1 hq q.2]
    exact refs_congr rfl (fun h0 hlt ht => hind q.1 hlt ht h0) q.2
  · rw [refs_of_not_lt hq, refs_of_not_lt hq]

theorem ne_indirect (hj : j < L.ninodes) (ht : (ino j).type ≠ 0)
    {q : Nat × Place} (hq : refs L ino d q ≠ 0) (hne : q ≠ (j, .indirect)) :
    refs L ino d q ≠ (ino j).addr ndirect := by
  intro heq
  rw [← refs_indirect (d := d) hj ht] at heq
  exact hne (Pool.Exact.inj h q (j, .indirect) heq hq)

theorem loose_range (hb : b ∈ loose) : b < L.size ∧ L.nmeta ≤ b := by
  obtain ⟨hlt, hfix⟩ := Pool.Exact.loose_range h b hb
  exact ⟨hlt, Nat.le_of_not_lt hfix⟩

theorem fresh (ha : a < L.size) (hbit : L.bit d a = false) :
    L.nmeta ≤ a ∧ a ∉ loose ∧ ∀ q, refs L ino d q ≠ a := by
  obtain ⟨hfix, hrest⟩ := Pool.Exact.fresh h ha (by simp [hbit])
  exact ⟨Nat.le_of_not_lt hfix, hrest⟩

theorem setData {q : Nat × Place} (hq : refs L ino d q ≠ 0) (hdata : q.2 ≠ .indirect) (e : Block) :
    Own L ino (update d (refs L ino d q) e) loose := by
  have hrange := (h.range hq).2
  refine h.of_same (fun _ _ _ => rfl) (fun j hj ht _ => ?_) fun b hb =>
    Layout.bit_update_data hb hrange e
  exact update_of_ne (h.ne_indirect hj ht hq fun heq => hdata (by rw [heq])).symm ..

theorem putDinode (hi : i < L.ninodes) (x : Dinode) : Own L ino (L.putDinode d i x) loose :=
  h.of_same (fun _ _ _ => rfl)
    (fun _ hj ht h0 => Layout.putDinode_data hi (h.indirect_range hj ht h0).2 x)
    fun b _ => Layout.bit_putDinode hi x b

end

theorem refs_setInode {x : Dinode} (hx : x.addrs = (ino i).addrs)
    (ht : x.type = 0 ↔ (ino i).type = 0) (q : Nat × Place) :
    refs L (update ino i x) d q = refs L ino d q := by
  obtain ⟨j, p⟩ := q
  by_cases hj : j = i
  · subst hj
    have haddr : x.addr ndirect = (ino j).addr ndirect := by rw [Dinode.addr, Dinode.addr, hx]
    have hat : x.at d p = (ino j).at d p := by
      cases p with
      | addrs k => rw [Dinode.at, Dinode.at, hx]
      | entry k => rw [Dinode.at, Dinode.at, haddr]
    rw [refs, refs]
    dsimp only
    rw [update_self, hat]
    simp only [ne_eq, ht]
  · rw [refs, refs]
    dsimp only
    rw [update_of_ne hj]

theorem setInode (h : Own L ino d loose) {x : Dinode} (hx : x.addrs = (ino i).addrs)
    (ht : x.type = 0 ↔ (ino i).type = 0) : Own L (update ino i x) d loose :=
  h.congr (refs_setInode hx ht) fun _ _ => rfl

theorem setEmpty (h : Own L ino d loose) {x : Dinode} (hx : x.addrs = fun _ => 0)
    (hi : ∀ p, refs L ino d (i, p) = 0) : Own L (update ino i x) d loose := by
  refine h.congr (fun q => ?_) fun _ _ => rfl
  obtain ⟨j, p⟩ := q
  by_cases hj : j = i
  · subst hj
    rw [hi p, refs]
    dsimp only
    rw [update_self, Dinode.at_of_empty hx, ite_self]
  · rw [refs, refs]
    dsimp only
    rw [update_of_ne hj]

theorem take (h : Own L ino d loose) (ha : a < L.size) (hbit : L.bit d a = false) (e : Block) :
    Own L ino (update (L.setBit d a) a e) (a :: loose) := by
  obtain ⟨hmeta, -, hnot⟩ := h.fresh ha hbit
  have hsame : Own L ino (update d a e) loose := by
    refine h.of_same (fun _ _ _ => rfl) (fun j hj ht h0 => ?_) fun b hb =>
      Layout.bit_update_data hb hmeta e
    refine update_of_ne (fun heq => hnot (j, .indirect) ?_) ..
    rw [refs_indirect hj ht, heq]
  have hmark : Own L ino (L.setBit (update d a e) a) (a :: loose) := by
    have hrefs : ∀ q, refs L ino (L.setBit (update d a e) a) q =
        refs L ino (update d a e) q := by
      rintro ⟨j, p⟩
      exact refs_congr rfl (fun h0 hj ht => Layout.setBit_data ha (hsame.indirect_range hj ht h0).2) p
    rw [Own, funext hrefs]
    refine Pool.Exact.take hsame ha ?_ fun c _ => ?_
    · rw [Layout.bit_update_data ha hmeta, hbit]
      simp
    · rw [Layout.bit_setBit]
      simp
  -- the two changes are of different blocks
  have hne : L.bblock a ≠ a := Nat.ne_of_lt (Nat.lt_of_lt_of_le (Layout.bblock_lt ha) hmeta)
  have hcomm : L.setBit (update d a e) a = update (L.setBit d a) a e := by
    rw [Layout.setBit, Layout.setBit, update_of_ne hne, update_comm hne]
  rwa [hcomm] at hmark

theorem release (h : Own L ino d (b :: loose)) : Own L ino (L.clearBit d b) loose := by
  have hb := h.loose_range mem_cons_self
  have hrefs : ∀ q, refs L ino (L.clearBit d b) q = refs L ino d q := by
    rintro ⟨j, p⟩
    exact refs_congr rfl (fun h0 hj ht => Layout.clearBit_data hb.1 (h.indirect_range hj ht h0).2) p
  have hbit : ∀ c < L.size, L.bit (L.clearBit d b) c = true ↔ c ≠ b ∧ L.bit d c = true := by
    intro c _
    rw [Layout.bit_clearBit]
    simp
  have hrel := Pool.Exact.release h mem_cons_self hbit
  rw [List.erase_cons_head] at hrel
  rw [Own, funext hrefs]
  exact hrel

theorem at_setAddr_addrs (x : Dinode) (k l : Fin (ndirect + 1)) (ha : a < 2 ^ 32) :
    (x.setAddr k a).at d (.addrs l) = if l = k then a else x.at d (.addrs l) := by
  rw [Dinode.at_addrs, Dinode.addr_setAddr k.isLt ha, Dinode.at_addrs]
  simp only [Fin.val_inj]

theorem at_setAddr_entry (x : Dinode) (k : Fin (ndirect + 1)) (m : Fin nindirect)
    (ha : a < 2 ^ 32) : (x.setAddr k a).at d (.entry m) =
      if k = Fin.last ndirect then (if a = 0 then 0 else word (d a) m) else x.at d (.entry m) := by
  have hlast : (ndirect = k.val) ↔ k = Fin.last ndirect := by
    rw [Fin.ext_iff]
    exact eq_comm
  rw [Dinode.at, Dinode.at, Dinode.addr_setAddr k.isLt ha]
  simp only [hlast]
  split <;> rfl

theorem refs_update_self (hi : i < L.ninodes) {x : Dinode} (ht : x.type ≠ 0) (p : Place) :
    refs L (update ino i x) d (i, p) = x.at d p := by
  rw [refs, update_self]
  exact if_pos ⟨hi, ht⟩

theorem refs_update_of_ne (hj : j ≠ i) (x : Dinode) (p : Place) :
    refs L (update ino i x) d (j, p) = refs L ino d (j, p) := by
  rw [refs, refs]
  dsimp only
  rw [update_of_ne hj]

theorem refs_setAddr (hi : i < L.ninodes) (ht : (ino i).type ≠ 0) {k : Fin (ndirect + 1)}
    (hlt : a < 2 ^ 32) (h0 : (ino i).addr k = 0)
    (hz : k = Fin.last ndirect → ∀ m : Fin nindirect, word (d a) m = 0) :
    refs L (update ino i ((ino i).setAddr k a)) d =
      update (refs L ino d) (i, .addrs k) a := by
  funext ⟨j, p⟩
  by_cases hj : j = i
  · subst hj
    rw [refs_update_self hi (by exact ht)]
    cases p with
    | addrs l =>
      rw [at_setAddr_addrs _ _ _ hlt, update_apply, refs_of_type hi ht]
      simp
    | entry m =>
      rw [at_setAddr_entry _ _ _ hlt, update_of_ne (by simp), refs_of_type hi ht]
      split
      · rename_i hk
        have hnone : (ino j).addr ndirect = 0 := by rw [hk] at h0; exact h0
        rw [hz hk m, ite_self, Dinode.at, if_pos hnone]
      · rfl
  · rw [refs_update_of_ne hj, update_of_ne (by simp [hj])]

theorem attachAddr (h : Own L ino d (a :: loose)) (hi : i < L.ninodes) (ht : (ino i).type ≠ 0)
    {k : Fin (ndirect + 1)} (h0 : (ino i).addr k = 0)
    (hz : k = Fin.last ndirect → ∀ m : Fin nindirect, word (d a) m = 0) :
    Own L (update ino i ((ino i).setAddr k a)) d loose := by
  have ha := h.loose_range mem_cons_self
  have hrefs := refs_setAddr hi ht (Nat.lt_trans ha.1 L.size_lt) h0 hz
  have hzero : refs L ino d (i, .addrs k) = 0 := by rw [refs_of_type hi ht, Dinode.at_addrs, h0]
  have hatt := Pool.Exact.attach h hzero mem_cons_self
  rw [List.erase_cons_head] at hatt
  rw [Own, hrefs]
  exact hatt

theorem refs_putWord (h : Own L ino d loose) (hi : i < L.ninodes) (ht : (ino i).type ≠ 0)
    (hlt : a < 2 ^ 32) (hc : (ino i).addr ndirect ≠ 0) (j : Fin nindirect) :
    refs L ino (update d ((ino i).addr ndirect)
      (putWord (d ((ino i).addr ndirect)) j a)) =
      update (refs L ino d) (i, .entry j) a := by
  funext ⟨i', p⟩
  by_cases hi' : i' = i
  · subst hi'
    rw [refs_of_type hi ht]
    cases p with
    | addrs l => rw [update_of_ne (by simp), refs_of_type hi ht]; rfl
    | entry m =>
      rw [Dinode.at, if_neg hc, update_self, word_putWord j.isLt hlt,
        update_apply, refs_of_type hi ht, Dinode.at, if_neg hc]
      simp [Fin.val_inj]
  · rw [update_of_ne (by simp [hi'])]
    refine refs_congr rfl (fun h0' hlt' ht' => update_of_ne ?_ ..) p
    have hne := h.ne_indirect hi ht (q := (i', .indirect))
      (by rwa [refs_indirect hlt' ht']) (by simp [hi'])
    rwa [refs_indirect hlt' ht'] at hne

theorem attachEntry (h : Own L ino d (a :: loose)) (hi : i < L.ninodes) (ht : (ino i).type ≠ 0)
    (hc : (ino i).addr ndirect ≠ 0) {j : Fin nindirect}
    (h0 : word (d ((ino i).addr ndirect)) j = 0) :
    Own L ino (update d ((ino i).addr ndirect) (putWord (d ((ino i).addr ndirect)) j a))
      loose := by
  have ha := h.loose_range mem_cons_self
  have hrange := h.indirect_range hi ht hc
  have hrefs := h.refs_putWord hi ht (Nat.lt_trans ha.1 L.size_lt) hc j
  have hzero : refs L ino d (i, .entry j) = 0 := by
    rw [refs_of_type hi ht, Dinode.at, if_neg hc, h0]
  have hatt := Pool.Exact.attach h hzero mem_cons_self
  rw [List.erase_cons_head] at hatt
  rw [Own, hrefs]
  exact Pool.Exact.congr hatt fun b hb => by rw [Layout.bit_update_data hb hrange.2]

theorem detachAddr (h : Own L ino d loose) (hi : i < L.ninodes) (ht : (ino i).type ≠ 0)
    {k : Fin (ndirect + 1)} (hk : k ≠ Fin.last ndirect) (h0 : (ino i).addr k ≠ 0) :
    Own L (update ino i ((ino i).setAddr k 0)) d ((ino i).addr k :: loose) := by
  have hkeep : refs L ino d (i, .addrs k) = (ino i).addr k := by
    rw [refs_of_type hi ht, Dinode.at_addrs]
  have hrefs : ∀ q, refs L (update ino i ((ino i).setAddr k 0)) d q =
      if q = (i, .addrs k) then 0 else refs L ino d q := by
    rintro ⟨j, p⟩
    by_cases hj : j = i
    · subst hj
      rw [refs_update_self hi (by exact ht), refs_of_type hi ht]
      cases p with
      | addrs l => rw [at_setAddr_addrs _ _ _ (by decide)]; simp
      | entry m => rw [at_setAddr_entry _ _ _ (by decide), if_neg hk, if_neg (by simp)]
    · rw [refs_update_of_ne hj, if_neg (by simp [hj])]
  refine Pool.Exact.detach (l := [(ino i).addr k]) h (fun q => ?_) (List.nodup_singleton _)
    fun b => ?_
  · rw [hrefs]
    split
    · exact .inr rfl
    · exact .inl rfl
  · rw [List.mem_singleton]
    constructor
    · rintro rfl
      exact ⟨h0, (i, .addrs k), hkeep, by rw [hrefs, if_pos rfl]⟩
    · rintro ⟨hb, q, rfl, hq⟩
      rw [hrefs] at hq
      split at hq
      · rename_i hqk
        rw [hqk, hkeep]
      · exact absurd hq hb

def entries (e : Block) : List Nat :=
  ((List.finRange nindirect).map fun j : Fin nindirect => word e j).filter (· ≠ 0)

theorem mem_entries {e : Block} {b : Nat} :
    b ∈ entries e ↔ b ≠ 0 ∧ ∃ j : Fin nindirect, word e j = b := by
  simp only [entries, List.mem_filter, List.mem_map, List.mem_finRange, true_and, decide_not,
    Bool.not_eq_true', decide_eq_false_iff_not]
  exact and_comm

theorem detachIndirect (h : Own L ino d loose) (hi : i < L.ninodes) (ht : (ino i).type ≠ 0)
    (h0 : (ino i).addr ndirect ≠ 0) :
    Own L (update ino i ((ino i).setAddr ndirect 0)) d
      ((entries (d ((ino i).addr ndirect)) ++ [(ino i).addr ndirect]) ++ loose) := by
  have hind := refs_indirect (d := d) hi ht
  have hentry : ∀ j, refs L ino d (i, .entry j) = word (d ((ino i).addr ndirect)) j := fun j => by
    rw [refs_of_type hi ht, Dinode.at, if_neg h0]
  have hrefs : ∀ q, refs L (update ino i ((ino i).setAddr ndirect 0)) d q =
      if q = (i, .indirect) ∨ ∃ j, q = (i, .entry j) then 0 else refs L ino d q := by
    rintro ⟨j, p⟩
    by_cases hj : j = i
    · subst hj
      rw [refs_update_self hi (by exact ht), refs_of_type hi ht]
      cases p with
      | addrs l =>
        have := at_setAddr_addrs (d := d) (ino j) (Fin.last ndirect) l (a := 0) (by decide)
        rw [Fin.val_last] at this
        rw [this]
        simp
      | entry m =>
        have := at_setAddr_entry (d := d) (ino j) (Fin.last ndirect) m (a := 0) (by decide)
        rw [Fin.val_last] at this
        rw [this]
        simp
    · rw [refs_update_of_ne hj, if_neg (by simp [hj])]
  refine Pool.Exact.detach h (fun q => ?_) ?_ fun b => ?_
  · rw [hrefs]
    split
    · exact .inr rfl
    · exact .inl rfl
  · refine List.Nodup.append ?_ (List.nodup_singleton _) fun b hb hb' => ?_
    · -- the entries that are not zero differ, because no block is kept twice
      rw [entries, List.filter_map]
      refine List.Nodup.map_on (fun j hj k _ hjk => ?_) ((List.nodup_finRange _).filter _)
      have hne : word (d ((ino i).addr ndirect)) j ≠ 0 := by simpa using (List.mem_filter.mp hj).2
      rw [← hentry, ← hentry] at hjk
      simpa using Pool.Exact.inj h _ _ hjk (by rwa [hentry])
    · obtain ⟨hne, j, rfl⟩ := mem_entries.mp hb
      have hsame := ((hentry j).trans (List.mem_singleton.mp hb')).trans hind.symm
      exact absurd (Pool.Exact.inj h _ _ hsame (by rwa [hentry])) (by simp)
  · rw [List.mem_append, mem_entries, List.mem_singleton]
    constructor
    · rintro (⟨hb, j, rfl⟩ | rfl)
      · exact ⟨hb, (i, .entry j), hentry j, by rw [hrefs, if_pos (.inr ⟨j, rfl⟩)]⟩
      · exact ⟨h0, (i, .indirect), hind, by rw [hrefs, if_pos (.inl rfl)]⟩
    · rintro ⟨hb, q, rfl, hq⟩
      rw [hrefs] at hq
      split at hq
      · rename_i hor
        rcases hor with rfl | ⟨j, rfl⟩
        · exact .inr hind
        · exact .inl ⟨hb, j, (hentry j).symm⟩
      · exact absurd hq hb

theorem of_eq (h : Own L ino d loose) (hino : ∀ j < L.ninodes, ino' j = ino j) : Own L ino' d loose :=
  h.of_same (fun j hj p => refs_congr (hino j hj) (fun _ _ _ => rfl) p) (fun _ _ _ _ => rfl)
    fun _ _ => rfl

end Own

end Xv6.Fs
