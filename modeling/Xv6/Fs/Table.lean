import Xv6.Fs.Blocks
import Xv6.Fs.Protocol
import Xv6.Lib.Count

/-!
# The table of inodes

Most of `kernel/fs.c` leaves the table of inodes in use alone: only `iget`, `idup`, `iput`, and what
calls them, change a reference count.  `SameTable` says that nothing has changed, and `Accounts` what
the counts are.
-/

namespace Xv6.Fs.Vol

open Prog

structure SameTable (s t : Vol) : Prop where
  ref : t.ref = s.ref
  inuse : t.inuse = s.inuse

instance : Std.Refl SameTable := ⟨fun _ => ⟨rfl, rfl⟩⟩

instance : IsTrans Vol SameTable := ⟨fun _ _ _ h h' =>
  ⟨h'.ref.trans h.ref, h'.inuse.trans h.inuse⟩⟩

abbrev NotFull : Stop → Prop := (· ≠ .panic .igetNoInodes)

section Programs

variable {L : Layout}

/-! ## What leaves the table alone -/

theorem sameTable_write (b : Nat) (d : Block) : Moves SameTable NotFull (write b d) := by
  intro s
  rw [write, wp_bind, wp_modify, logWrite, wp_bind, wp_get, wp_ite]
  split
  · rw [wp_throw]
    decide
  · exact ⟨rfl, rfl⟩

theorem sameTable_ballocFrom (n b : Nat) : Moves SameTable NotFull (ballocFrom L n b) := by
  induction n generalizing b with
  | zero => exact .pure 0
  | succ n ih =>
    refine .ite (fun _ => .get fun s => ?_) fun _ => .pure 0
    dsimp only
    split
    · exact (sameTable_write _ _).bind (fun _ => (sameTable_write _ _).bind fun _ => .pure _) s
    · exact ih _ s

theorem sameTable_balloc : Moves SameTable NotFull (balloc L) := sameTable_ballocFrom _ _

theorem sameTable_bfree (b : Nat) : Moves SameTable NotFull (bfree L b) :=
  .get fun s => (Moves.ite (fun _ => .throw (by decide)) fun _ => sameTable_write _ _) s

theorem sameTable_iupdate (i : Nat) : Moves SameTable NotFull (iupdate L i) :=
  .get fun s => sameTable_write _ _ s

theorem sameTable_update (i : Nat) (f : Dinode → Dinode) : Moves SameTable NotFull (update L i f) :=
  .bind (.of_modify fun _ => ⟨rfl, rfl⟩) fun _ => sameTable_iupdate i

theorem sameTable_setAddr (i k a : Nat) : Moves SameTable NotFull (setAddr i k a) :=
  .of_modify fun _ => ⟨rfl, rfl⟩

theorem sameTable_iunlock (i : Nat) : Moves SameTable NotFull (iunlock i) := by
  refine .get fun s => ?_
  rw [wp_ite]
  split
  · rw [wp_throw]
    decide
  · exact ⟨rfl, rfl⟩

theorem sameTable_ilock (i : Nat) : Moves SameTable NotFull (ilock L i) := by
  refine .get fun s => ?_
  rw [wp_ite]
  split
  · rw [wp_throw]
    decide
  · rw [wp_ite]
    split
    · rw [wp_bind, wp_set, wp_ite]
      split
      · rw [wp_throw]
        decide
      · exact ⟨rfl, rfl⟩
    · exact ⟨rfl, rfl⟩

theorem sameTable_bmapAddr (i k : Nat) : Moves SameTable NotFull (bmapAddr L i k) := by
  refine .get fun s => (Moves.ite (fun _ => sameTable_balloc.bind fun a => ?_) fun _ => .pure _) s
  exact .ite (fun _ => .pure 0) fun _ => (sameTable_setAddr i k a).bind fun _ => .pure a

theorem sameTable_bmapIndirect (a j : Nat) : Moves SameTable NotFull (bmapIndirect L a j) := by
  refine .get fun s => (Moves.ite (fun _ => sameTable_balloc.bind fun c => ?_) fun _ => .pure _) s
  exact .ite (fun _ => .pure 0) fun _ => .get fun t => (sameTable_write _ _).bind (fun _ => .pure c) t

theorem sameTable_bmap (i bn : Nat) : Moves SameTable NotFull (bmap L i bn) := by
  refine .ite (fun _ => sameTable_bmapAddr i bn) fun _ => .ite (fun _ => ?_) fun _ => .throw (by decide)
  exact (sameTable_bmapAddr i ndirect).bind fun a =>
    .ite (fun _ => .pure 0) fun _ => sameTable_bmapIndirect a _

theorem sameTable_itrunc (i : Nat) : Moves SameTable NotFull (itrunc L i) := by
  refine (Moves.times fun k => .get fun s => ?_).bind fun _ => Moves.bind (.get fun s => ?_) fun _ =>
    Moves.bind (.of_modify fun _ => ⟨rfl, rfl⟩) fun _ => sameTable_iupdate i
  · exact (Moves.ite (fun _ => (sameTable_bfree _).bind fun _ => sameTable_setAddr i k 0)
      fun _ => .pure _) s
  · refine (Moves.ite (fun _ => (Moves.times fun j => .get fun t => ?_).bind fun _ =>
      (sameTable_bfree _).bind fun _ => sameTable_setAddr i ndirect 0) fun _ => .pure _) s
    exact (Moves.ite (fun _ => sameTable_bfree _) fun _ => .pure _) t

theorem sameTable_readLoop (i off n ok f tot : Nat) (acc : List UInt8) :
    Moves SameTable NotFull (readLoop L i off n ok f tot acc) := by
  induction f generalizing tot acc with
  | zero => exact .pure _
  | succ f ih =>
    refine .ite (fun _ => (sameTable_bmap i _).bind fun a => .ite (fun _ => .pure _) fun _ => ?_)
      fun _ => .pure _
    exact .get fun s => (Moves.ite (fun _ => .pure _) fun _ => ih _ _) s

theorem sameTable_readi (i : Nat) (off n : UInt32) (ok : Nat) :
    Moves SameTable NotFull (readi L i off n ok) :=
  .get fun s => (Moves.ite (fun _ => .pure _) fun _ => sameTable_readLoop _ _ _ _ _ _ _) s

theorem sameTable_writeLoop (i off n ok f tot : Nat) (src : Nat → UInt8) :
    Moves SameTable NotFull (writeLoop L i off n ok src f tot) := by
  induction f generalizing tot with
  | zero => exact .pure _
  | succ f ih =>
    refine .ite (fun _ => (sameTable_bmap i _).bind fun a => .ite (fun _ => .pure _) fun _ => ?_)
      fun _ => .pure _
    refine .get fun s => (Moves.ite (fun _ => ?_) fun _ => ?_) s
    · exact .bind (.of_modify fun _ => ⟨rfl, rfl⟩) fun _ => .pure _
    · exact (sameTable_write _ _).bind fun _ => ih _

theorem sameTable_writei (i : Nat) (off n : UInt32) (src : Nat → UInt8) (ok : Nat) :
    Moves SameTable NotFull (writei L i off n src ok) := by
  refine .get fun s => (Moves.ite (fun _ => .pure _) fun _ => .ite (fun _ => .pure _) fun _ => ?_) s
  refine (sameTable_writeLoop _ _ _ _ _ _ _).bind fun tot => .bind (.of_modify fun t => ?_) fun _ =>
    (sameTable_iupdate i).bind fun _ => .pure _
  split
  · exact ⟨rfl, rfl⟩
  · exact ⟨rfl, rfl⟩

theorem sameTable_emptyFrom (dp f off : Nat) : Moves SameTable NotFull (emptyFrom L dp f off) := by
  induction f generalizing off with
  | zero => exact .pure _
  | succ f ih =>
    refine .get fun s => (Moves.ite (fun _ => (sameTable_readi _ _ _ _).bind fun r => ?_) fun _ => .pure _) s
    exact .ite (fun _ => .throw (by decide)) fun _ => .ite (fun _ => .pure _) fun _ => ih _

theorem sameTable_isdiremptyFrom (dp f off : Nat) : Moves SameTable NotFull (isdiremptyFrom L dp f off) := by
  induction f generalizing off with
  | zero => exact .pure _
  | succ f ih =>
    refine .get fun s => (Moves.ite (fun _ => (sameTable_readi _ _ _ _).bind fun r => ?_) fun _ => .pure _) s
    exact .ite (fun _ => .throw (by decide)) fun _ => .ite (fun _ => .pure _) fun _ => ih _

end Programs

/-! ## The accounts of the table -/

attribute [local irreducible] wp

/-- The reference counts are what others hold, `ext`, and what the running call holds, `H`; the table
has a place taken for each inode with a reference. -/
structure Accounts (ext : Nat → Int) (H : List Nat) (s : Vol) : Prop where
  nonneg : ∀ i, 0 ≤ ext i
  ref : ∀ i, s.ref i = ext i + H.count i
  table : Counts (0 < ·) s.ref s.inuse

/-- `b` inodes are in use: those that others hold, and `c`. -/
def InUse (ext : Nat → Int) (c b : Nat) : Prop :=
  Counts (0 < ·) (fun i => ext i + [c].count i) b

/-- The kernel may panic, but because of a full table only if there is no room for three more inodes
than the `b` that are in use. -/
def Full (b : Nat) : Stop → Vol → Prop := fun e _ => e = .panic .igetNoInodes → ninode ≤ b + 2

section Accounts

variable {L : Layout} {ext : Nat → Int} {H : List Nat} {s t : Vol} {i b c : Nat}

theorem count_cons_eq (i j : Nat) (H : List Nat) :
    ((i :: H).count j : Int) = H.count j + if j = i then 1 else 0 := by
  rw [List.count_cons]
  simp only [beq_iff_eq, eq_comm (a := i)]
  split <;> simp

theorem Accounts.of_same (h : Accounts ext H s) (hs : SameTable s t) : Accounts ext H t :=
  ⟨h.nonneg, fun i => by rw [hs.ref, h.ref], by rw [hs.ref, hs.inuse]; exact h.table⟩

theorem Accounts.perm {H' : List Nat} (h : Accounts ext H s) (hH : H.Perm H') :
    Accounts ext H' s :=
  ⟨h.nonneg, fun i => by rw [h.ref, hH.count_eq], h.table⟩

theorem Accounts.ref_pos (h : Accounts ext H s) (hi : i ∈ H) : 0 < s.ref i := by
  have := h.nonneg i
  have := List.count_pos_iff.mpr hi
  rw [h.ref]
  omega

theorem Accounts.inuse_le (h : Accounts ext H s) (hb : InUse ext c b) :
    s.inuse ≤ b + (H.erase c).length := by
  obtain ⟨R, hR, hcard⟩ := h.table
  obtain ⟨B, hB, hbcard⟩ := hb
  have hsub : R ⊆ B ∪ (H.erase c).toFinset := by
    intro i hi
    have hext := h.nonneg i
    rw [hR, h.ref] at hi
    rw [Finset.mem_union, hB, List.mem_toFinset]
    by_cases hic : i = c
    · subst hic
      have : 0 < ext i + ([i].count i : Int) := by
        rw [List.count_singleton_self]
        omega
      exact .inl this
    · by_cases hmem : i ∈ H
      · exact .inr ((List.mem_erase_of_ne hic).mpr hmem)
      · rw [List.count_eq_zero_of_not_mem hmem] at hi
        have : 0 < ext i + ([c].count i : Int) := by omega
        exact .inl this
  have hle := Finset.card_le_card hsub
  have hunion := Finset.card_union_le B (H.erase c).toFinset
  have hlist := List.toFinset_card_le (H.erase c)
  omega

theorem Accounts.wp_same {α : Type} {m : V α} {Q : α → Vol → Prop} (h : Accounts ext H s)
    (hm : Moves SameTable NotFull m) (hQ : ∀ a t, Accounts ext H t → Q a t) :
    wp m Q (Full b) s :=
  (hm s).mono (fun a t ht => hQ a t (h.of_same ht)) fun _ _ he heq => absurd heq he

theorem Accounts.change {H' : List Nat} {n : Int} (h : Accounts ext H s)
    (ht : t.ref = Function.update s.ref i n) (hn : n = ext i + H'.count i)
    (hH : ∀ j ≠ i, H'.count j = H.count j)
    (htable : Counts (0 < ·) (Function.update s.ref i n) t.inuse) : Accounts ext H' t := by
  refine ⟨h.nonneg, fun j => ?_, by rwa [ht]⟩
  rw [ht]
  by_cases hj : j = i
  · rw [hj, Function.update_self, hn]
  · rw [Function.update_of_ne hj, h.ref, hH j hj]

theorem count_of_ne {j : Nat} (hj : j ≠ i) (H : List Nat) : (i :: H).count j = H.count j :=
  List.count_cons_of_ne hj.symm

theorem Accounts.again (h : Accounts ext H s) (hi : 0 < s.ref i) :
    Accounts ext (i :: H) { s with ref := Function.update s.ref i (s.ref i + 1) } := by
  refine h.change rfl ?_ (fun j hj => count_of_ne hj H) (h.table.stay (iff_of_true ?_ hi))
  · rw [h.ref, List.count_cons_self]
    omega
  · omega

theorem Accounts.wp_iget {Q : Unit → Vol → Prop} (h : Accounts ext H s) (hb : InUse ext c b)
    (hroom : (H.erase c).length ≤ 2) (hQ : ∀ t, Accounts ext (i :: H) t → Q () t) :
    wp (iget i) Q (Full b) s := by
  rw [iget, wp_bind, wp_get, wp_ite]
  split
  · rw [wp_set]
    exact hQ _ (h.again ‹_›)
  · rename_i hpos
    rw [wp_ite]
    split
    · rw [wp_throw]
      intro _
      have := h.inuse_le hb
      omega
    · rw [wp_set]
      refine hQ _ (h.change rfl ?_ (fun j hj => count_of_ne hj H) (h.table.join hpos (by decide)))
      have href := h.ref i
      have hext := h.nonneg i
      rw [List.count_cons_self]
      omega

theorem Accounts.wp_idup {Q : Unit → Vol → Prop} {E : Stop → Vol → Prop} (h : Accounts ext H s)
    (hi : i ∈ H) (hQ : ∀ t, Accounts ext (i :: H) t → Q () t) : wp (idup i) Q E s := by
  rw [idup, wp_modify]
  exact hQ _ (h.again (h.ref_pos hi))

theorem Accounts.wp_iput {Q : Unit → Vol → Prop} (h : Accounts ext (i :: H) s)
    (hQ : ∀ t, Accounts ext H t → Q () t) : wp (iput L i) Q (Full b) s := by
  -- the end of `iput`
  have hend : ∀ t, Accounts ext (i :: H) t → Q () { t with
      ref := Function.update t.ref i (t.ref i - 1)
      inuse := if t.ref i = 1 then t.inuse - 1 else t.inuse } := by
    intro t ht
    have hpos := ht.ref_pos List.mem_cons_self
    refine hQ _ (ht.change rfl ?_ (fun j hj => (count_of_ne hj H).symm) ?_)
    · rw [ht.ref, List.count_cons_self]
      omega
    · dsimp only
      split
      · have := ht.table.pos hpos
        exact (ht.table.leave hpos (by omega)).cast (by omega)
      · exact ht.table.stay (iff_of_true (by omega) hpos)
  rw [iput, wp_bind, wp_get, wp_ite]
  split
  · refine .bind (h.wp_same (sameTable_itrunc i) fun _ t ht => ?_)
    rw [wp_bind, wp_modify, wp_bind]
    refine Accounts.wp_same ⟨ht.nonneg, ht.ref, ht.table⟩ (sameTable_iupdate i) fun _ u hu => ?_
    rw [wp_bind, wp_modify, wp_modify]
    exact hend _ ⟨hu.nonneg, hu.ref, hu.table⟩
  · rw [wp_modify]
    exact hend s h

variable (h : Accounts ext H s) (hb : InUse ext c b) (hroom : (H.erase c).length ≤ 2)
include h hb hroom

theorem Accounts.wp_dirlookupFrom {Q : Option (Nat × Nat) → Vol → Prop} {dp f off : Nat}
    {name : Name} (hoff : off % 16 = 0) (hnone : ∀ t, Accounts ext H t → Q none t)
    (hsome : ∀ i off t, off % 16 = 0 → Accounts ext (i :: H) t → Q (some (i, off)) t) :
    wp (dirlookupFrom L dp name f off) Q (Full b) s := by
  -- by induction on the rounds left
  induction f generalizing off s with
  | zero =>
    rw [dirlookupFrom, wp_pure]
    exact hnone s h
  | succ f ih =>
    rw [dirlookupFrom, wp_bind, wp_get, wp_ite]
    split
    · refine .bind (h.wp_same (sameTable_readi _ _ _ _) fun r t ht => ?_)
      rw [wp_ite]
      split
      · rw [wp_throw]
        exact nofun
      · rw [wp_ite]
        split
        · exact ih ht (by omega)
        · rw [wp_ite]
          split
          · refine .bind (ht.wp_iget hb hroom fun u hu => ?_)
            exact .pure (hsome _ off u hoff hu)
          · exact ih ht (by omega)
    · exact .pure (hnone s h)

theorem Accounts.wp_dirlookup {Q : Option (Nat × Nat) → Vol → Prop} {dp : Nat} {name : Name}
    (hnone : ∀ t, Accounts ext H t → Q none t)
    (hsome : ∀ i off t, off % 16 = 0 → Accounts ext (i :: H) t → Q (some (i, off)) t) :
    wp (dirlookup L dp name) Q (Full b) s := by
  rw [dirlookup, wp_bind, wp_get, wp_ite]
  split
  · rw [wp_throw]
    exact nofun
  · exact h.wp_dirlookupFrom hb hroom rfl hnone hsome

theorem Accounts.wp_dirlink {Q : Bool → Vol → Prop} {dp inum : Nat} {name : Name}
    (hQ : ∀ r t, Accounts ext H t → Q r t) : wp (dirlink L dp name inum) Q (Full b) s := by
  rw [dirlink, wp_bind]
  refine h.wp_dirlookup hb hroom (fun t ht => ?_) fun i off t _ ht => ?_
  · dsimp only
    rw [wp_bind, wp_get, wp_bind]
    refine ht.wp_same (sameTable_emptyFrom _ _ _) fun off u hu => ?_
    refine .bind (hu.wp_same (sameTable_writei _ _ _ _ _) fun r v hv => ?_)
    exact .pure (hQ _ v hv)
  · refine .bind (ht.wp_iput fun u hu => ?_)
    exact .pure (hQ _ u hu)

theorem Accounts.wp_ialloc {Q : Option Nat → Vol → Prop} {type : FType}
    (hnone : ∀ t, Accounts ext H t → Q none t)
    (hsome : ∀ i t, Accounts ext (i :: H) t → Q (some i) t) : wp (ialloc L type) Q (Full b) s := by
  rw [ialloc, wp_bind, wp_get]
  dsimp only
  split
  · exact .pure (hnone s h)
  · refine .bind (h.wp_same (sameTable_write _ _) fun _ t ht => ?_)
    refine .bind (ht.wp_iget hb hroom fun u hu => ?_)
    exact .pure (hsome _ u hu)

end Accounts

theorem wp_look {α : Type} {f : Vol → α} {s : Vol} {Q : α → Vol → Prop} {E : Stop → Vol → Prop}
    (hQ : ∀ x, Q x s) : wp (do return f (← get)) Q E s := by
  rw [wp_bind, wp_get, wp_pure]
  exact hQ _

/-- **The calls keep the accounts of the table**, and it is full only if there is little room. -/
theorem tableRules (L : Layout) (N : Nat) {ext : Nat → Int} {c b : Nat} (hb : InUse ext c b) :
    CallRules (ops L) L.iblock N (fun H => (H.erase c).length ≤ 2) (Full b)
      (fun H _ _ s => Accounts ext H s) where
  weaken h _ _ := h
  perm h hH := h.perm hH
  iget h _ hroom hQ := h.wp_iget hb hroom hQ
  idup h hi hQ := h.wp_idup hi hQ
  ilock h _ _ hQ := h.wp_same (sameTable_ilock _) fun _ => hQ
  iunlock h _ hQ := h.wp_same (sameTable_iunlock _) fun _ => hQ
  type _ hQ := wp_look hQ
  dirlookup h _ _ hroom hnone hsome := h.wp_dirlookup hb hroom hnone hsome
  iput h _ _ _ _ hQ := h.wp_iput hQ
  major _ hQ := wp_look hQ
  nlink _ hQ := wp_look hQ
  setNlink {_ _ _ s i n Q} h _ _ hQ := by
    show wp (update L i fun x => { x with nlink := .ofInt n }) Q (Full b) s
    exact h.wp_same (sameTable_update i _) fun _ => hQ
  ialloc h _ hroom hnone hsome := h.wp_ialloc hb hroom hnone hsome
  setup {_ _ _ s i major minor Q} h _ _ hQ := by
    show wp (update L i fun x => { x with
      major := .ofInt major, minor := .ofInt minor, nlink := 1 }) Q (Full b) s
    exact h.wp_same (sameTable_update i _) fun _ => hQ
  dirlink h _ _ _ _ hroom hQ := h.wp_dirlink hb hroom fun r => hQ r 0 0
  isdirempty {_ _ _ s dp Q} h _ _ hQ := by
    show wp (isdirempty L dp) Q (Full b) s
    rw [isdirempty, wp_bind, wp_get]
    exact h.wp_same (sameTable_isdiremptyFrom dp _ _) hQ
  clearEntry {_ _ _ s dp off Q} h _ _ _ _ hQ := by
    show wp (do return decide ((← writei L dp (.ofNat off) 16 (fun _ => 0) 16) = 16)) Q (Full b) s
    refine .bind (h.wp_same (sameTable_writei dp _ _ _ _) fun r t ht => ?_)
    exact .pure (hQ _ 0 0 t ht)
  itrunc h _ _ hQ := h.wp_same (sameTable_itrunc _) fun _ => hQ
  panic _ _ hp := by
    rcases hp with rfl | rfl
    · exact nofun
    · exact nofun

section Paths

variable {L : Layout} {ext : Nat → Int} {H : List Nat} {s : Vol} {b cwd : Nat} {path : List Char}

theorem length_erase_cons (cwd : Nat) (H : List Nat) (l : List Nat) :
    ((l ++ cwd :: H).erase cwd).length = l.length + H.length := by
  rw [List.length_erase_of_mem (by simp), List.length_append, List.length_cons]
  omega

section

variable (h : Accounts ext (cwd :: H) s) (hb : InUse ext cwd b) (hH : H.length ≤ 1)
include h hb hH

theorem Accounts.wp_namex {Q : Option (Nat × Name) → Vol → Prop} {parent : Bool}
    (hQ : ∀ r t, Accounts ext (r.toList.map Prod.fst ++ cwd :: H) t → Q r t) :
    wp (namex (ops L) cwd path parent) Q (Full b) s := by
  have R := tableRules L (PathRules.pathFee 1 path) hb
  refine (R.wp_namex (m := 1) (n := PathRules.pathFee 1 path) (C := []) (V := [])
    (fun _ => Nat.le_refl 1) h (List.nil_subset _) (List.nil_subset _) ?_ (fun i => ?_)
    List.mem_cons_self (by simp) (Nat.le_refl _)).mono_ok fun r t ⟨_, _, _, ht⟩ => hQ r t ht
  · have := length_erase_cons cwd H []
    rw [List.nil_append, List.length_nil] at this
    omega
  · have := length_erase_cons cwd H [i]
    rw [List.singleton_append, List.length_singleton] at this
    omega

theorem Accounts.wp_namei {Q : Option Nat → Vol → Prop}
    (hQ : ∀ r t, Accounts ext (r.toList ++ cwd :: H) t → Q r t) :
    wp (namei (ops L) cwd path) Q (Full b) s := by
  rw [namei, wp_bind]
  refine h.wp_namex hb hH fun r t ht => ?_
  rw [wp_pure]
  cases r with
  | none => exact hQ none t ht
  | some r => exact hQ (some r.1) t ht

theorem Accounts.wp_nameiparent {Q : Option (Nat × Name) → Vol → Prop}
    (hQ : ∀ r t, Accounts ext (r.toList.map Prod.fst ++ cwd :: H) t → Q r t) :
    wp (nameiparent (ops L) cwd path) Q (Full b) s := h.wp_namex hb hH hQ

end

theorem Accounts.wp_create {Q : Option Nat → Vol → Prop} {type : FType} {major minor : Int}
    (h : Accounts ext [cwd] s) (hb : InUse ext cwd b)
    (hQ : ∀ r t, Accounts ext (r.toList ++ [cwd]) t → Q r t) :
    wp (create (ops L) cwd path type major minor) Q (Full b) s := by
  have R := tableRules L 8 hb
  refine (R.wp_create (n := 0) (C := []) (V := []) (List.nil_subset _) (fun i => ?_) (fun i j => ?_)
    (Nat.le_refl _) ?_).mono_ok fun r t ⟨_, _, _, ht⟩ => hQ r t ht
  · have := length_erase_cons cwd [] [i]
    simp only [List.singleton_append, List.length_singleton, List.length_nil] at this
    omega
  · have := length_erase_cons cwd [] [j, i]
    simp only [List.cons_append, List.nil_append, List.length_cons, List.length_nil] at this
    omega
  · refine h.wp_nameiparent hb (by simp) fun r t ht => ⟨[], List.Subset.refl _, Nat.le_refl 0, ht⟩

theorem Accounts.wp_openNamei {Q : Option Nat → Vol → Prop} {omode : Nat}
    (h : Accounts ext [cwd] s) (hb : InUse ext cwd b)
    (hQ : ∀ r t, Accounts ext (r.toList ++ [cwd]) t → Q r t) :
    wp (openNamei (ops L) cwd path omode) Q (Full b) s := by
  have R := tableRules L 1 hb
  refine (R.wp_openNamei (n := 0) (C := []) (V := []) (List.nil_subset _) (Nat.le_refl _)
    ?_).mono_ok fun r t ⟨_, _, _, ht⟩ => hQ r t ht
  exact h.wp_namei hb (by simp) fun r t ht =>
    ⟨[], List.Subset.refl _, Nat.le_refl 0, by simpa using ht⟩

end Paths

end Xv6.Fs.Vol
