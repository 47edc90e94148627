import Xv6.Fs.Links

/-!
# References to inodes

`Refs ext held locked busy` says what the reference counts are in the middle of a call: the references
of processes and open files (`ext`) and those that the call has (`held`).  An inode without links is
kept only by references from outside the call, except for those that the call is working on (`busy`),
so giving back a reference changes no other inode.
-/

namespace Xv6.Fs

open Function (update update_of_ne update_self)
open Prog

/-! ## Where a path leads -/

def Inode.lookup (x : Inode) (name : Name) : Option (Nat × Nat) :=
  (Tree.findName x.ents name).map fun off => ((x.ents.getD off ⟨0, []⟩).inum, off)

/-- Where the elements of a path lead from inode `ip`. -/
def follow (m : Nat → Inode) (nameiparent : Bool) : Nat → List Name → Option (Nat × Name)
  | ip, [] => if nameiparent then none else some (ip, [])
  | ip, name :: path =>
    if (m ip).type ≠ .dir then none
    else if nameiparent ∧ path = [] then some (ip, name)
    else match (m ip).lookup name with
      | none => none
      | some (next, _) => follow m nameiparent next path

/-- Where a path leads, for a process in directory `cwd`. -/
def resolve (m : Nat → Inode) (cwd : Nat) (path : List Char) (nameiparent : Bool) :
    Option (Nat × Name) :=
  follow m nameiparent (if path.head? = some '/' then rootIno else cwd) (elems path)

/-- If directories are tight, their entries refer to inodes in use. -/
def Closed (tight : Bool) (m : Nat → Inode) : Prop :=
  tight → ∀ d, (m d).type = .dir → ∀ e ∈ (m d).ents, e.inum ≠ 0 → (m e.inum).type ≠ .none

theorem Links.closed {strict tight : Bool} {m : Nat → Inode} (h : Links strict tight m) :
    Closed tight m := by
  intro ht d hd e he hne
  rw [(h.shape d hd).eq, List.mem_cons, List.mem_cons] at he
  rcases he with rfl | rfl | he
  · simp [hd]
  · simp [(h.tight ht d hd).1]
  · exact h.type_ne hd he hne

section Lookup

variable {tight nameiparent : Bool} {m m' : Nat → Inode} {x : Inode} {name last : Name}
  {ip off j : Nat} {path : List Name}

theorem Inode.lookup_eq_some (h : x.lookup name = some (ip, off)) :
    ∃ e, x.ents[off]? = some e ∧ e.inum = ip ∧ e.name = name ∧ ip ≠ 0 := by
  rw [Inode.lookup, Option.map_eq_some_iff] at h
  obtain ⟨k, hk, heq⟩ := h
  obtain ⟨rfl, rfl⟩ := Prod.mk.inj heq
  rw [Tree.findName, List.findIdx?_eq_some_iff_getElem] at hk
  obtain ⟨hlt, hp, -⟩ := hk
  rw [decide_eq_true_iff] at hp
  have hget : x.ents[k]? = some x.ents[k] := List.getElem?_eq_getElem hlt
  have hd : x.ents.getD k ⟨0, []⟩ = x.ents[k] := by rw [List.getD_eq_getElem?_getD, hget]; rfl
  rw [hd]
  exact ⟨_, hget, rfl, hp.2, hp.1⟩

theorem Inode.lookup_eq_none (h : x.lookup name = none) {e : Dirent} (he : e ∈ x.ents)
    (hne : e.inum ≠ 0) : e.name ≠ name := by
  rw [Inode.lookup, Option.map_eq_none_iff, Tree.findName, List.findIdx?_eq_none_iff] at h
  intro heq
  exact absurd (h e he) (by simp [hne, heq])

theorem follow_congr (htype : ∀ i, (m' i).type = (m i).type)
    (hents : ∀ i, (m i).type = .dir → (m' i).ents = (m i).ents) (ip : Nat) (path : List Name) :
    follow m' nameiparent ip path = follow m nameiparent ip path := by
  induction path generalizing ip with
  | nil => rfl
  | cons name path ih =>
    rw [follow, follow, htype]
    by_cases hd : (m ip).type = .dir
    · rw [Inode.lookup, hents ip hd, ← Inode.lookup]
      simp only [ih]
    · rw [if_pos hd, if_pos hd]

theorem type_of_follow (h : follow m true ip path = some (j, last)) : (m j).type = .dir := by
  induction path generalizing ip with
  | nil => exact absurd h (by simp [follow])
  | cons name path ih =>
    rw [follow] at h
    split at h
    · exact absurd h (by simp)
    split at h
    · rename_i hd _
      rw [Option.some.injEq, Prod.mk.injEq] at h
      rw [← h.1]
      exact not_not.mp hd
    split at h
    · exact absurd h (by simp)
    · exact ih h

theorem type_ne_of_lookup (hm : Closed tight m) (ht : tight) (hd : (m ip).type = .dir)
    (h : (m ip).lookup name = some (j, off)) : (m j).type ≠ .none := by
  obtain ⟨e, he, rfl, -, hne⟩ := Inode.lookup_eq_some h
  exact hm ht ip hd e (List.mem_of_getElem? he) hne

theorem type_ne_of_follow (hm : Closed tight m) (ht : tight) (hip : (m ip).type ≠ .none)
    (h : follow m nameiparent ip path = some (j, last)) : (m j).type ≠ .none := by
  induction path generalizing ip with
  | nil =>
    rw [follow] at h
    split at h
    · exact absurd h (by simp)
    · rw [Option.some.injEq, Prod.mk.injEq] at h
      exact h.1 ▸ hip
  | cons name path ih =>
    rw [follow] at h
    split at h
    · exact absurd h (by simp)
    rename_i hd
    split at h
    · rw [Option.some.injEq, Prod.mk.injEq] at h
      exact h.1 ▸ hip
    split at h
    · exact absurd h (by simp)
    · rename_i hl
      exact ih (type_ne_of_lookup hm ht (not_not.mp hd) hl) h

end Lookup

/-! ## References in the middle of a call -/

structure Refs (ext : Nat → Int) (held locked busy : List Nat) (t : Tree) : Prop where
  /-- An inode has the references from outside and those of the call. -/
  ref : ∀ i, t.ref i = ext i + held.count i
  nonneg : ∀ i, 0 ≤ ext i
  used : ∀ i, 0 < ext i → (t.inode i).type ≠ .none
  valid : ∀ i, t.valid i = true → (t.inode i).type ≠ .none
  lock : ∀ i ∈ locked, i ∈ held ∧ t.valid i = true
  /-- An inode without links is kept by references from outside. -/
  orphan : ∀ i, i ∉ busy → (t.inode i).type ≠ .none → (t.inode i).nlink = 0 →
    0 < ext i ∧ t.valid i = true

/-- The ways in which a call may stop: if directories are tight, `ilock` does not find a free
inode. -/
def Allow (tight : Bool) (e : Stop) : Prop := tight → e ≠ .panic .ilockNoType

abbrev stops (tight : Bool) : Stop → Tree → Prop := fun e _ => Allow tight e

@[simp] theorem Tree.setInode_inode (t : Tree) (i : Nat) (x : Inode) :
    (t.setInode i x).inode = update t.inode i x := rfl

namespace Refs

variable {ext : Nat → Int} {held locked busy : List Nat} {t : Tree} {i : Nat}

section

variable (h : Refs ext held locked busy t)
include h

theorem ref_pos (hi : i ∈ held) : 0 < t.ref i := by
  have := h.nonneg i
  have := List.count_pos_iff.mpr hi
  rw [h.ref]
  omega

theorem unlock {locked' : List Nat}
    (hl : ∀ j ∈ locked', j ∈ locked) : Refs ext held locked' busy t :=
  { h with lock := fun j hj => h.lock j (hl j hj) }

theorem perm {held' : List Nat} (hp : held.Perm held') : Refs ext held' locked busy t :=
  { h with
    ref := fun j => by rw [h.ref, hp.count_eq]
    lock := fun j hj => ⟨hp.mem_iff.mp (h.lock j hj).1, (h.lock j hj).2⟩ }

theorem occupy (i : Nat) : Refs ext held locked (i :: busy) t :=
  { h with orphan := fun j hj => h.orphan j fun hmem => hj (List.mem_cons_of_mem i hmem) }

end

theorem vacate (h : Refs ext held locked (i :: busy) t)
    (hi : (t.inode i).type ≠ .none → (t.inode i).nlink = 0 → 0 < ext i ∧ t.valid i = true) :
    Refs ext held locked busy t :=
  { h with
    orphan := fun j hj => by
      by_cases hji : j = i
      · rw [hji]
        exact hi
      · exact h.orphan j fun hmem => (List.mem_cons.mp hmem).elim hji hj }

theorem setInode (h : Refs ext held locked busy t) {x : Inode} (hx : x.type ≠ .none)
    (hn : i ∉ busy → x.nlink = 0 → (t.inode i).type ≠ .none ∧ (t.inode i).nlink = 0) :
    Refs ext held locked busy (t.setInode i x) := by
  have htype : ∀ j, (t.inode j).type ≠ .none → ((t.setInode i x).inode j).type ≠ .none := by
    intro j hj
    by_cases hji : j = i
    · rw [hji, Tree.setInode_inode, update_self]
      exact hx
    · rwa [Tree.setInode_inode, update_of_ne hji]
  refine ⟨h.ref, h.nonneg, fun j hj => htype j (h.used j hj), fun j hj => htype j (h.valid j hj),
    h.lock, fun j hj hty hnl => ?_⟩
  by_cases hji : j = i
  · subst hji
    rw [Tree.setInode_inode, update_self] at hnl
    exact h.orphan j hj (hn hj hnl).1 (hn hj hnl).2
  · rw [Tree.setInode_inode, update_of_ne hji] at hty hnl
    exact h.orphan j hj hty hnl

theorem takeOver (h : Refs ext held locked busy t) {ext' : Nat → Int}
    (hext : ∀ j, ext j = ext' j + if j = i then 1 else 0) (hpos : 0 ≤ ext' i) :
    Refs ext' (i :: held) locked (i :: busy) t where
  ref j := by
    rw [h.ref, hext, List.count_cons]
    by_cases hji : j = i
    · simp [hji]; omega
    · simp [hji, Ne.symm hji]
  nonneg j := by
    have := h.nonneg j
    have := hext j
    by_cases hji : j = i
    · rw [hji]; exact hpos
    · rw [if_neg hji] at this; omega
  used j hj := h.used j (by rw [hext]; split <;> omega)
  valid := h.valid
  lock j hj := ⟨List.mem_cons_of_mem i (h.lock j hj).1, (h.lock j hj).2⟩
  orphan j hj hty hn := by
    rw [List.mem_cons, not_or] at hj
    have := h.orphan j hj.2 hty hn
    rw [hext, if_neg hj.1] at this
    simpa using this

theorem handOver (h : Refs ext (i :: held) [] busy t) {ext' : Nat → Int}
    (hext : ∀ j, ext' j = ext j + if j = i then 1 else 0) (hi : (t.inode i).type ≠ .none) :
    Refs ext' held [] busy t where
  ref j := by
    rw [h.ref, hext, List.count_cons]
    by_cases hji : j = i
    · simp [hji]; omega
    · simp [hji, Ne.symm hji]
  nonneg j := by
    have := h.nonneg j
    rw [hext]
    split <;> omega
  used j hj := by
    by_cases hji : j = i
    · rwa [hji]
    · rw [hext, if_neg hji] at hj
      exact h.used j (by omega)
  valid := h.valid
  lock j hj := absurd hj (by simp)
  orphan j hj hty hn := by
    have := h.orphan j hj hty hn
    rw [hext]
    exact ⟨by split <;> omega, this.2⟩

theorem giveBack (h : Refs ext (i :: held) locked busy t) {locked' : List Nat}
    (hl : ∀ j ∈ locked', j ∈ locked ∧ j ∈ held) (n : Nat) :
    Refs ext held locked' busy
      { t with ref := update t.ref i (t.ref i - 1), inuse := n } where
  ref j := by
    have := h.ref j
    rw [List.count_cons] at this
    dsimp only
    by_cases hji : j = i
    · subst hji
      rw [update_self]
      simp at this
      omega
    · rw [update_of_ne hji]
      simpa [Ne.symm hji] using this
  nonneg := h.nonneg
  used := h.used
  valid := h.valid
  lock j hj := ⟨(hl j hj).2, (h.lock j (hl j hj).1).2⟩
  orphan := h.orphan

theorem reclaim_eq (h : Refs ext (i :: held) locked busy t) (hi : i ∉ busy) : t.reclaim i = t := by
  rw [Tree.reclaim, if_neg]
  rintro ⟨href, hv, hn⟩
  have hpos := (h.orphan i hi (h.valid i hv) hn).1
  have := h.ref i
  rw [List.count_cons_self] at this
  omega

end Refs

/-! ## The rules -/

section Rules

variable {tight : Bool} {ext : Nat → Int} {held locked busy : List Nat} {t : Tree} {i : Nat}
  {Q : Unit → Tree → Prop}

theorem wp_iget (h : Refs ext held locked busy t)
    (hQ : ∀ t', t'.inode = t.inode → Refs ext (i :: held) locked busy t' → Q () t') :
    wp (ops.iget i) Q (stops tight) t := by
  show wp (Tree.iget i) Q (stops tight) t
  rw [Tree.iget, wp_bind, wp_get, wp_ite, wp_ite, wp_set, wp_set, wp_throw]
  have href : ∀ j, update t.ref i (ext i + held.count i + 1) j =
      ext j + (i :: held).count j := by
    intro j
    rw [List.count_cons]
    by_cases hji : j = i
    · subst hji
      simp
      omega
    · rw [update_of_ne hji, h.ref]
      simp [Ne.symm hji]
  have hlock : ∀ j ∈ locked, j ∈ i :: held := fun j hj => List.mem_cons_of_mem i (h.lock j hj).1
  split
  · refine hQ _ rfl ⟨fun j => ?_, h.nonneg, h.used, h.valid, fun j hj => ⟨hlock j hj, (h.lock j hj).2⟩,
      h.orphan⟩
    rw [h.ref i]
    exact href j
  · rename_i hnot
    -- the inode was not in the table
    have hne : ∀ {j : Nat}, 0 < t.ref j → j ≠ i := fun {j} hj hji => hnot (hji ▸ hj)
    have hvalid : ∀ {j : Nat}, 0 < t.ref j → t.valid j = true →
        update t.valid i false j = true := fun {j} hj hv => by
      rwa [update_of_ne (hne hj)]
    split
    · simp [Allow]
    · refine hQ _ rfl ⟨fun j => ?_, h.nonneg, h.used, fun j hj => ?_, fun j hj => ?_, ?_⟩
      · have hzero : ext i + held.count i = 0 := by
          have := h.ref i
          have := h.nonneg i
          omega
        have := href j
        rwa [hzero] at this
      · dsimp only at hj
        by_cases hji : j = i
        · simp [hji] at hj
        · rw [update_of_ne hji] at hj
          exact h.valid j hj
      · exact ⟨hlock j hj, hvalid (h.ref_pos (h.lock j hj).1) (h.lock j hj).2⟩
      · intro j hj hty hn
        obtain ⟨hpos, hv⟩ := h.orphan j hj hty hn
        refine ⟨hpos, hvalid ?_ hv⟩
        rw [h.ref]
        omega

theorem wp_idup (h : Refs ext held locked busy t)
    (hQ : ∀ t', t'.inode = t.inode → Refs ext (i :: held) locked busy t' → Q () t') :
    wp (ops.idup i) Q (stops tight) t := by
  refine hQ _ rfl ⟨fun j => ?_, h.nonneg, h.used, h.valid,
    fun j hj => ⟨List.mem_cons_of_mem i (h.lock j hj).1, (h.lock j hj).2⟩, h.orphan⟩
  rw [List.count_cons]
  show update t.ref i (t.ref i + 1) j = _
  by_cases hji : j = i
  · subst hji
    rw [update_self, h.ref]
    simp
    omega
  · rw [update_of_ne hji, h.ref]
    simp [Ne.symm hji]

theorem wp_iunlock (h : Refs ext held locked busy t) (hi : i ∈ held) (hQ : Q () t) :
    wp (ops.iunlock i) Q (stops tight) t := by
  show wp (Tree.iunlock i) Q (stops tight) t
  have hnot : ¬t.ref i < 1 := by
    have := h.ref_pos hi
    omega
  rw [Tree.iunlock, wp_bind, wp_get, if_neg hnot]
  exact hQ

theorem wp_ilock (h : Refs ext held locked busy t) (ht : tight → (t.inode i).type ≠ .none)
    (hi : i ∈ held)
    (hQ : ∀ t', t'.inode = t.inode → (t.inode i).type ≠ .none →
      Refs ext held (i :: locked) busy t' → Q () t') :
    wp (ops.ilock i) Q (stops tight) t := by
  show wp (Tree.ilock i) Q (stops tight) t
  have hnot : ¬t.ref i < 1 := by
    have := h.ref_pos hi
    omega
  rw [Tree.ilock, wp_bind, wp_get, if_neg hnot]
  by_cases hv : t.valid i = false
  · rw [if_pos hv, wp_bind, wp_set, wp_ite, wp_throw]
    split
    · rename_i hnone
      exact fun hc => absurd hnone (ht hc)
    · rename_i hty
      have hvalid : ∀ {j : Nat}, t.valid j = true → update t.valid i true j = true := by
        intro j hj
        by_cases hji : j = i
        · rw [hji, update_self]
        · rwa [update_of_ne hji]
      refine hQ _ rfl hty ⟨h.ref, h.nonneg, h.used, fun j hj => ?_, fun j hj => ?_, ?_⟩
      · dsimp only at hj
        by_cases hji : j = i
        · exact hji ▸ hty
        · rw [update_of_ne hji] at hj
          exact h.valid j hj
      · rcases List.mem_cons.mp hj with rfl | hj
        · exact ⟨hi, update_self ..⟩
        · exact ⟨(h.lock j hj).1, hvalid (h.lock j hj).2⟩
      · intro j hj hty hn
        exact ⟨(h.orphan j hj hty hn).1, hvalid (h.orphan j hj hty hn).2⟩
  · rw [if_neg hv]
    have hv : t.valid i = true := by simpa using hv
    refine hQ t rfl (h.valid i hv) { h with lock := fun j hj => ?_ }
    rcases List.mem_cons.mp hj with rfl | hj
    · exact ⟨hi, hv⟩
    · exact h.lock j hj

theorem wp_iput (locked' : List Nat) (h : Refs ext (i :: held) locked busy t) (hi : i ∉ busy)
    (hl : ∀ j ∈ locked', j ∈ locked ∧ j ∈ held)
    (hQ : ∀ t', t'.inode = t.inode → Refs ext held locked' busy t' → Q () t') :
    wp (ops.iput i) Q (stops tight) t := by
  show Q () _
  dsimp only
  rw [h.reclaim_eq hi]
  exact hQ _ rfl (h.giveBack hl _)

theorem wp_iput_last (locked' : List Nat) (h : Refs ext (i :: held) locked (i :: busy) t)
    (hheld : i ∉ held) (hv : (t.inode i).nlink = 0 → t.valid i = true)
    (hl : ∀ j ∈ locked', j ∈ locked ∧ j ∈ held)
    (hkeep : ∀ t', (t.inode i).nlink ≠ 0 ∨ 0 < ext i → t'.inode = t.inode →
      Refs ext held locked' busy t' → Q () t')
    (hfree : ∀ t', (t.inode i).nlink = 0 →
      t'.inode = update t.inode i { t.inode i with ents := [], type := .none } →
      Refs ext held locked' busy t' → Q () t') :
    wp (ops.iput i) Q (stops tight) t := by
  have href : t.ref i = ext i + 1 := by
    rw [h.ref, List.count_cons_self, List.count_eq_zero_of_not_mem hheld]
    rfl
  have hnn := h.nonneg i
  show Q () _
  dsimp only
  by_cases hc : t.ref i = 1 ∧ t.valid i = true ∧ (t.inode i).nlink = 0
  · rw [Tree.reclaim, if_pos hc]
    have hb := h.giveBack hl (if t.ref i = 1 then t.inuse - 1 else t.inuse)
    have hof : ∀ {j : Nat} {x : Inode}, j ≠ i → update t.inode i x j = t.inode j :=
      fun hji => update_of_ne hji ..
    have hvof : ∀ {j : Nat}, j ≠ i → update t.valid i false j = t.valid j :=
      fun hji => update_of_ne hji ..
    refine hfree _ hc.2.2 rfl ⟨hb.ref, hb.nonneg, fun j hj => ?_, fun j hj => ?_, fun j hj => ?_,
      fun j hj hty hn => ?_⟩
    · have hji : j ≠ i := by
        rintro rfl
        omega
      rw [Tree.setInode_inode, hof hji]
      exact h.used j hj
    · have hji : j ≠ i := by
        rintro rfl
        simp at hj
      rw [Tree.setInode_inode, hof hji]
      exact h.valid j ((hvof hji).symm.trans hj)
    · have hji : j ≠ i := fun hji => hheld (hji ▸ (hl j hj).2)
      exact ⟨(hb.lock j hj).1, (hvof hji).trans (hb.lock j hj).2⟩
    · have hji : j ≠ i := by
        rintro rfl
        simp at hty
      rw [Tree.setInode_inode, hof hji] at hty hn
      have := h.orphan j (by simp [hji, hj]) hty hn
      exact ⟨this.1, (hvof hji).trans this.2⟩
  · rw [Tree.reclaim, if_neg hc]
    have hext : (t.inode i).nlink ≠ 0 ∨ 0 < ext i := by
      by_contra hcon
      rw [not_or, not_not] at hcon
      exact hc ⟨by omega, hv hcon.1, hcon.1⟩
    exact hkeep _ hext rfl ((h.giveBack hl _).vacate fun _ hn =>
      ⟨hext.resolve_left fun hne => hne hn, hv hn⟩)

def got {α : Type} (r : Option (Nat × α)) : List Nat := (r.map (·.1)).toList

@[simp] theorem got_none {α : Type} : got (none : Option (Nat × α)) = [] := rfl

@[simp] theorem got_some {α : Type} (r : Nat × α) : got (some r) = [r.1] := rfl

theorem wp_type {Q : FType → Tree → Prop} {E : Stop → Tree → Prop} :
    wp (ops.type i) Q E t ↔ Q (t.inode i).type t := Iff.rfl

theorem wp_nlink {Q : Int → Tree → Prop} {E : Stop → Tree → Prop} :
    wp (ops.nlink i) Q E t ↔ Q (t.inode i).nlink t := Iff.rfl

section

variable (h : Refs ext held locked busy t)
include h

theorem wp_setNlink {n : Int} (hn : int16 n = n)
    (hi : (t.inode i).type ≠ .none) (hbusy : i ∉ busy → n = 0 → (t.inode i).nlink = 0)
    (hQ : ∀ t', t'.inode = update t.inode i { t.inode i with nlink := n } →
      Refs ext held locked busy t' → Q () t') : wp (ops.setNlink i n) Q (stops tight) t := by
  show Q () (t.setInode i { t.inode i with nlink := int16 n })
  rw [hn]
  exact hQ _ rfl (h.setInode hi fun hb h0 => ⟨hi, hbusy hb h0⟩)

theorem wp_dirlookup {dp : Nat} {name : Name} {Q : Option (Nat × Nat) → Tree → Prop}
    (hd : (t.inode dp).type = .dir)
    (hQ : ∀ t', t'.inode = t.inode →
      Refs ext (got ((t.inode dp).lookup name) ++ held) locked busy t' →
      Q ((t.inode dp).lookup name) t') : wp (ops.dirlookup dp name) Q (stops tight) t := by
  show wp (Tree.dirlookup dp name) Q (stops tight) t
  rw [Tree.dirlookup, wp_bind, wp_get, if_neg (not_not.mpr hd)]
  rw [Inode.lookup] at hQ
  split
  · rename_i hf
    rw [hf] at hQ
    exact hQ t rfl h
  · rename_i off hf
    rw [hf] at hQ
    exact .bind (wp_iget h fun t' ht' h' => hQ t' ht' h')

theorem wp_dirlink {dp inum : Nat} {name : Name} {Q : Bool → Tree → Prop}
    (hd : (t.inode dp).type = .dir)
    (hfound : ∀ r ∈ (t.inode dp).lookup name, r.1 ∉ busy)
    (hfalse : ∀ t', t'.inode = t.inode → Refs ext held locked busy t' → Q false t')
    (htrue : ∀ t', (t.inode dp).lookup name = none →
      t'.inode = update t.inode dp ((t.inode dp).add ⟨inum % 2 ^ 16, name⟩) →
      Refs ext held locked busy t' → Q true t') :
    wp (ops.dirlink dp name inum) Q (stops tight) t := by
  show wp (Tree.dirlink dp name inum) Q (stops tight) t
  rw [Tree.dirlink, wp_bind]
  refine wp_dirlookup h hd fun t₁ ht₁ h₁ => ?_
  cases hlook : (t.inode dp).lookup name with
  | some r =>
    rw [hlook] at h₁
    exact .bind (wp_iput locked h₁ (hfound r hlook) (fun j hj => ⟨hj, (h.lock j hj).1⟩)
      fun t₂ ht₂ h₂ => hfalse t₂ (ht₂.trans ht₁) h₂)
  | none =>
    rw [hlook] at h₁
    replace h₁ : Refs ext held locked busy t₁ := h₁
    have hadd : ∀ x : Inode, x = (t₁.inode dp).add ⟨inum % 2 ^ 16, name⟩ → ∀ g,
        Q true { t₁.setInode dp x with grow := g } := by
      rintro x rfl g
      refine htrue _ hlook (by rw [← ht₁]; rfl) ?_
      have := h₁.setInode (i := dp) (x := (t₁.inode dp).add ⟨inum % 2 ^ 16, name⟩)
        (by rw [Inode.add, ht₁, hd]; simp) (fun _ hn => ⟨by rw [ht₁, hd]; simp, hn⟩)
      exact ⟨this.ref, this.nonneg, this.used, this.valid, this.lock, this.orphan⟩
    rw [wp_bind, wp_get, Tree.writeEntry, wp_bind, wp_get, wp_ite, wp_ite]
    split
    · rename_i hlt
      rw [wp_bind, wp_set, wp_pure]
      exact hadd _ (by rw [Inode.add, addEntry, if_pos hlt]) t₁.grow
    · rename_i hlt
      split
      · exact hfalse t₁ ht₁ h₁
      · rw [wp_ite]
        split
        · rw [wp_bind, wp_set, wp_pure]
          exact hadd _ (by rw [Inode.add, addEntry, if_neg hlt]) t₁.grow.tail
        · rw [wp_bind, wp_set, wp_pure]
          exact hfalse _ ht₁ ⟨h₁.ref, h₁.nonneg, h₁.used, h₁.valid, h₁.lock, h₁.orphan⟩

theorem wp_clearEntry {dp off : Nat} {Q : Bool → Tree → Prop}
    (hd : (t.inode dp).type = .dir) (hoff : off < (t.inode dp).ents.length)
    (hQ : ∀ t', t'.inode = update t.inode dp ((t.inode dp).clear off) →
      Refs ext held locked busy t' → Q true t') : wp (ops.clearEntry dp off) Q (stops tight) t := by
  show wp (Tree.writeEntry dp off ⟨0, []⟩) Q (stops tight) t
  rw [Tree.writeEntry, wp_bind, wp_get, wp_ite, if_pos hoff, wp_bind, wp_set, wp_pure]
  exact hQ _ rfl (h.setInode (x := (t.inode dp).clear off) (by rw [Inode.clear, hd]; simp)
    fun _ hn => ⟨by rw [hd]; simp, hn⟩)

theorem wp_ialloc {type : FType} {Q : Option Nat → Tree → Prop}
    (htype : type ≠ .none) (hheld : ∀ j ∈ held, (t.inode j).type ≠ .none) (hnone : Q none t)
    (hsome : ∀ i t', (t.inode i).type = .none → 0 < i ∧ i < ninodes → ext i = 0 → i ∉ held →
      t'.inode = update t.inode i { Inode.free with type } →
      Refs ext (i :: held) locked (i :: busy) t' → Q (some i) t') :
    wp (ops.ialloc type) Q (stops tight) t := by
  show wp (Tree.ialloc type) Q (stops tight) t
  rw [Tree.ialloc, wp_bind, wp_get]
  cases hf : t.freeInode with
  | none => exact hnone
  | some i =>
    rw [Tree.freeInode] at hf
    have hfree : (t.inode i).type = .none := by simpa using List.find?_some hf
    have hmem : 0 < i ∧ i < ninodes := by
      have := List.mem_range'.mp (List.mem_of_find?_eq_some hf)
      obtain ⟨k, hk, rfl⟩ := this
      omega
    have hext : ext i = 0 := by
      have := h.nonneg i
      have : ¬0 < ext i := fun hpos => h.used i hpos hfree
      omega
    rw [wp_bind, wp_set, wp_bind]
    refine wp_iget (t := t.setInode i { Inode.free with type })
      ((h.occupy i).setInode htype fun hb => absurd (List.mem_cons_self ..) hb) fun t' ht' h' => ?_
    exact hsome i t' hfree hmem hext (fun hmem => hheld i hmem hfree) ht' h'

end

/-! ## Paths -/

theorem wp_namexFrom {nameiparent : Bool} {Q : Option (Nat × Name) → Tree → Prop} {ip : Nat}
    {path : List Name} (h : Refs ext (ip :: held) [] [] t) (hm : Closed tight t.inode)
    (hip : tight → (t.inode ip).type ≠ .none)
    (hQ : ∀ t', t'.inode = t.inode →
      Refs ext (got (follow t.inode nameiparent ip path) ++ held) [] [] t' →
      Q (follow t.inode nameiparent ip path) t') :
    wp (namexFrom ops nameiparent ip path) Q (stops tight) t := by
  induction path generalizing ip t with
  | nil =>
    rw [namexFrom, wp_ite]
    rw [follow] at hQ
    cases nameiparent with
    | true =>
      rw [if_pos rfl, wp_bind]
      exact wp_iput [] h (by simp) (by simp) fun t' ht' h' => hQ t' ht' h'
    | false => exact hQ t rfl h
  | cons name path ih =>
    rw [namexFrom, wp_bind]
    rw [follow] at hQ
    refine wp_ilock h hip (List.mem_cons_self ..) fun t₁ ht₁ hty h₁ => ?_
    rw [wp_bind, wp_type, ht₁]
    by_cases hd : (t.inode ip).type = .dir
    · rw [if_neg (not_not.mpr hd)] at hQ ⊢
      by_cases hlast : nameiparent = true ∧ path = []
      · rw [if_pos hlast] at hQ ⊢
        exact .bind (wp_iunlock h₁ List.mem_cons_self (hQ t₁ ht₁ (h₁.unlock (by simp))))
      · rw [if_neg hlast] at hQ ⊢
        refine .bind (wp_dirlookup h₁ (ht₁ ▸ hd) fun t₂ ht₂ h₂ => ?_)
        rw [ht₁] at h₂
        rw [wp_bind, ht₁]
        cases hl : (t.inode ip).lookup name with
        | none =>
          rw [hl] at h₂ hQ
          exact wp_iput [] h₂ (by simp) (by simp) fun t₃ ht₃ h₃ =>
            hQ t₃ (ht₃.trans (ht₂.trans ht₁)) h₃
        | some r =>
          rw [hl] at h₂ hQ
          refine wp_iput [] (h₂.perm (.swap ..)) (by simp) (by simp) fun t₃ ht₃ h₃ => ?_
          have heq : t₃.inode = t.inode := ht₃.trans (ht₂.trans ht₁)
          refine ih h₃ (heq ▸ hm) (fun ht => ?_) fun t₄ ht₄ h₄ => ?_
          · rw [heq]
            exact type_ne_of_lookup hm ht hd hl
          · rw [heq] at h₄ ⊢
            exact hQ t₄ (ht₄.trans heq) h₄
    · rw [if_pos hd] at hQ ⊢
      exact .bind (wp_iput [] h₁ (by simp) (by simp) fun t₂ ht₂ h₂ => hQ t₂ (ht₂.trans ht₁) h₂)

/-- **What `namex` finds is a function of the inodes**, which it does not change; and if directories
are tight it does not run into a free inode. -/
theorem wp_namex {nameiparent : Bool} {Q : Option (Nat × Name) → Tree → Prop} {cwd : Nat}
    {path : List Char} (h : Refs ext held [] [] t) (hm : Closed tight t.inode)
    (hroot : (t.inode rootIno).type = .dir) (hcwd : (t.inode cwd).type ≠ .none)
    (hQ : ∀ t', t'.inode = t.inode →
      Refs ext (got (resolve t.inode cwd path nameiparent) ++ held) [] [] t' →
      Q (resolve t.inode cwd path nameiparent) t') :
    wp (namex ops cwd path nameiparent) Q (stops tight) t := by
  rw [namex, wp_ite]
  rw [resolve] at hQ
  split
  · rename_i hp
    rw [if_pos hp] at hQ
    rw [wp_bind]
    refine wp_iget h fun t₁ ht₁ h₁ => wp_namexFrom h₁ (ht₁ ▸ hm) (fun _ => ?_) fun t₂ ht₂ h₂ => ?_
    · rw [ht₁, hroot]
      simp
    · rw [ht₁] at h₂ ⊢
      exact hQ t₂ (ht₂.trans ht₁) h₂
  · rename_i hp
    rw [if_neg hp] at hQ
    rw [wp_bind]
    refine wp_idup h fun t₁ ht₁ h₁ => wp_namexFrom h₁ (ht₁ ▸ hm) (fun _ => ?_) fun t₂ ht₂ h₂ => ?_
    · rw [ht₁]
      exact hcwd
    · rw [ht₁] at h₂ ⊢
      exact hQ t₂ (ht₂.trans ht₁) h₂

end Rules

end Xv6.Fs
