import Xv6.Fs.Calls
import Xv6.Lib.Prog

/-!
# How the calls use inodes

The calls of `kernel/sysfile.c` follow a discipline: an inode is used only with a reference to it, its
fields and contents only after `ilock`, and every reference is dropped with `iput` or handed to the
caller.

`J H V C s` is what is kept: `H` are the references to inodes that somebody has, `V` those of them
that have been locked, so that their fields are known, and `C` are blocks, among which are all that
have been given to `log_write`.  `PathRules` are the rules for the operations that following a path
needs; what is kept may then depend on the references `B` that are not dropped meanwhile.
-/

namespace Xv6.Fs

open Prog
open List (length_cons mem_cons_self nil_subset subset_cons_self Subset.refl Subset.trans)

attribute [local irreducible] wp

variable {σ : Type}

abbrev Keeper (σ : Type) : Type := List Nat → List Nat → List Nat → σ → Prop

/-- The rules for following a path; `N` is the most blocks that may have been given to `log_write` when
the kernel panics, and `room H` says that another inode may be looked for when `H` are held. -/
structure PathRules (o : Ops σ) (fee : Nat → List Nat) (N : Nat)
    (room : List Nat → Prop) (E : Stop → σ → Prop) (B : List Nat) (J : Keeper σ) : Prop where
  weaken : ∀ {H V V' C C' : List Nat} {s : σ}, J H V C s → V' ⊆ V → C ⊆ C' → J H V' C' s
  perm : ∀ {H H' V C : List Nat} {s : σ}, J H V C s → H.Perm H' → J H' V C s
  iget : ∀ {H V C : List Nat} {s : σ} {Q : Unit → σ → Prop}, J H V C s → C.length ≤ N →
    room H → (∀ t, J (rootIno :: H) V C t → Q () t) → wp (o.iget rootIno) Q E s
  idup : ∀ {H V C : List Nat} {s : σ} {i : Nat} {Q : Unit → σ → Prop}, J H V C s → i ∈ H →
    (∀ t, J (i :: H) V C t → Q () t) → wp (o.idup i) Q E s
  ilock : ∀ {H V C : List Nat} {s : σ} {i : Nat} {Q : Unit → σ → Prop}, J H V C s → i ∈ H →
    C.length ≤ N → (∀ t, J H (i :: V) C t → Q () t) → wp (o.ilock i) Q E s
  iunlock : ∀ {H V C : List Nat} {s : σ} {i : Nat} {Q : Unit → σ → Prop}, J H V C s → i ∈ H →
    (∀ t, J H V C t → Q () t) → wp (o.iunlock i) Q E s
  type : ∀ {H V C : List Nat} {s : σ} {i : Nat} {Q : FType → σ → Prop}, J H V C s →
    (∀ x, Q x s) → wp (o.type i) Q E s
  dirlookup : ∀ {H V C : List Nat} {s : σ} {dp : Nat} {name : Name}
    {Q : Option (Nat × Nat) → σ → Prop}, J H V C s → dp ∈ V → C.length ≤ N →
    room H → (∀ t, J H V C t → Q none t) →
    (∀ i off t, off % 16 = 0 → J (i :: H) V C t → Q (some (i, off)) t) →
    wp (o.dirlookup dp name) Q E s
  iput : ∀ {H V V' C : List Nat} {s : σ} {i : Nat} {Q : Unit → σ → Prop}, J (i :: H) V C s →
    B ⊆ H → V' ⊆ V → V' ⊆ H → fee i ⊆ C → (∀ t, J H V' C t → Q () t) → wp (o.iput i) Q E s

structure CallRules (o : Ops σ) (blk : Nat → Nat) (N : Nat) (room : List Nat → Prop)
    (E : Stop → σ → Prop) (J : Keeper σ) : Prop extends PathRules o (fun i => [blk i]) N room E [] J where
  major : ∀ {H V C : List Nat} {s : σ} {i : Nat} {Q : Int → σ → Prop}, J H V C s →
    (∀ x, Q x s) → wp (o.major i) Q E s
  nlink : ∀ {H V C : List Nat} {s : σ} {i : Nat} {Q : Int → σ → Prop}, J H V C s →
    (∀ x, Q x s) → wp (o.nlink i) Q E s
  setNlink : ∀ {H V C : List Nat} {s : σ} {i : Nat} {n : Int} {Q : Unit → σ → Prop}, J H V C s →
    i ∈ V → blk i ∈ C → (∀ t, J H V C t → Q () t) → wp (o.setNlink i n) Q E s
  ialloc : ∀ {H V C : List Nat} {s : σ} {type : FType} {Q : Option Nat → σ → Prop}, J H V C s →
    C.length + 1 ≤ N → room H → (∀ t, J H V C t → Q none t) →
    (∀ i t, J (i :: H) V (blk i :: C) t → Q (some i) t) → wp (o.ialloc type) Q E s
  setup : ∀ {H V C : List Nat} {s : σ} {i : Nat} {major minor : Int} {Q : Unit → σ → Prop},
    J H V C s → i ∈ V → blk i ∈ C → (∀ t, J H V C t → Q () t) → wp (o.setup i major minor) Q E s
  dirlink : ∀ {H V C : List Nat} {s : σ} {dp ip : Nat} {name : Name} {Q : Bool → σ → Prop},
    J H V C s → dp ∈ V → ip ∈ H → blk dp ∈ C → C.length + 2 ≤ N → room H →
    (∀ r x y t, J H V (x :: y :: C) t → Q r t) → wp (o.dirlink dp name ip) Q E s
  isdirempty : ∀ {H V C : List Nat} {s : σ} {dp : Nat} {Q : Bool → σ → Prop}, J H V C s →
    dp ∈ V → C.length ≤ N → (∀ r t, J H V C t → Q r t) → wp (o.isdirempty dp) Q E s
  clearEntry : ∀ {H V C : List Nat} {s : σ} {dp off : Nat} {Q : Bool → σ → Prop}, J H V C s →
    dp ∈ V → off % 16 = 0 → blk dp ∈ C → C.length + 2 ≤ N →
    (∀ r x y t, J H V (x :: y :: C) t → Q r t) → wp (o.clearEntry dp off) Q E s
  itrunc : ∀ {H V C : List Nat} {s : σ} {i : Nat} {Q : Unit → σ → Prop}, J H V C s → i ∈ V →
    blk i ∈ C → (∀ t, J H V C t → Q () t) → wp (o.itrunc i) Q E s
  panic : ∀ {H V C : List Nat} {s : σ} {p : Panic}, J H V C s → C.length ≤ N →
    p = .unlinkNlink ∨ p = .unlinkWritei → E (.panic p) s

/-- What is kept when a path has been followed: a reference to the inode, if there is one. -/
def Follows (J : Keeper σ) (H V C : List Nat) (n : Nat) {α : Type} (ino : α → Nat)
    (r : Option α) (t : σ) : Prop :=
  ∃ C', C ⊆ C' ∧ C'.length ≤ n ∧ J (r.toList.map ino ++ H) V C' t

namespace PathRules

variable {o : Ops σ} {fee : Nat → List Nat} {N m n : Nat} {room : List Nat → Prop} {E : Stop → σ → Prop} {J : Keeper σ}
  {B H V C : List Nat} {s : σ}

theorem wp_iput_fee (R : PathRules o fee N room E B J) {ip : Nat} {W : List Nat}
    {Q : Unit → σ → Prop} (h : J (ip :: H) W C s) (hB : B ⊆ H) (hW : V ⊆ W)
    (hV : V ⊆ H) (hQ : ∀ t, J H V (fee ip ++ C) t → Q () t) : wp (o.iput ip) Q E s :=
  R.iput (R.weaken h (Subset.refl W) (List.subset_append_right _ C)) hB hW hV
    (List.subset_append_left _ _) hQ

theorem wp_namexFrom (R : PathRules o fee N room E B J) (hm : ∀ i, (fee i).length ≤ m)
    {parent : Bool} {ip : Nat} {path : List Name} (h : J (ip :: H) V C s) (hB : B ⊆ H)
    (hV : V ⊆ H) (hroom : ∀ i, room (i :: H)) (hn : C.length + m * (path.length + 1) ≤ n)
    (hN : n ≤ N) :
    wp (namexFrom o parent ip path) (Follows J H V C n (Prod.fst : Nat × Name → Nat)) E s := by
  -- by induction on the elements left: each step pays for the inode that it leaves
  induction path generalizing ip C s with
  | nil =>
    rw [namexFrom, wp_ite]
    split
    · refine .bind (R.wp_iput_fee h hB (Subset.refl V) hV fun t ht => ?_)
      refine .pure ⟨_, List.subset_append_right _ C, ?_, ht⟩
      have := hm ip
      rw [List.length_append]
      simp only [List.length_nil, Nat.zero_add, Nat.mul_one] at hn
      omega
    · exact .pure ⟨C, Subset.refl C, by omega, h⟩
  | cons name path ih =>
    rw [length_cons, Nat.mul_add, Nat.mul_one] at hn
    have hip := hm ip
    have hlen : (fee ip ++ C).length ≤ C.length + m := by
      rw [List.length_append]
      omega
    have hleave : ∀ t, J (ip :: H) (ip :: V) C t →
        wp (do o.iput ip; return none) (Follows J H V C n (Prod.fst : Nat × Name → Nat)) E t := by
      intro t ht
      refine .bind (R.wp_iput_fee ht hB (subset_cons_self ..) hV fun u hu => ?_)
      exact .pure ⟨_, List.subset_append_right _ C, by omega, hu⟩
    rw [namexFrom, wp_bind]
    refine R.ilock h mem_cons_self (by omega) fun t ht => ?_
    refine .bind (R.type ht fun x => ?_)
    rw [wp_ite]
    split
    · exact hleave t ht
    · rw [wp_ite]
      split
      · refine .bind (R.iunlock ht mem_cons_self fun u hu => ?_)
        exact .pure (⟨C, Subset.refl C, by omega,
          R.weaken hu (subset_cons_self ..) (Subset.refl C)⟩)
      · rw [wp_bind]
        refine R.dirlookup ht mem_cons_self (by omega) (hroom ip) hleave fun i off u _ hu => ?_
        refine .bind (R.wp_iput_fee (R.perm hu (List.Perm.swap ..))
          (Subset.trans hB (subset_cons_self ..)) (subset_cons_self ..)
          (Subset.trans hV (subset_cons_self ..)) fun v hv => ?_)
        refine (ih hv (by omega)).mono_ok fun r w ⟨C', hC, hle, hw⟩ => ⟨C', ?_, hle, hw⟩
        exact Subset.trans (List.subset_append_right _ C) hC

def pathFee (m : Nat) (path : List Char) : Nat := m * ((elems path).length + 1)

variable {cwd : Nat} {path : List Char}

theorem wp_namex (R : PathRules o fee N room E B J) (hm : ∀ i, (fee i).length ≤ m)
    {parent : Bool} (h : J H V C s)
    (hB : B ⊆ H) (hV : V ⊆ H) (hroom : room H) (hroom' : ∀ i, room (i :: H)) (hcwd : cwd ∈ H)
    (hn : C.length + pathFee m path ≤ n) (hN : n ≤ N) :
    wp (namex o cwd path parent) (Follows J H V C n (Prod.fst : Nat × Name → Nat)) E s := by
  rw [namex, wp_ite]
  split
  · exact .bind (R.iget h (by omega) hroom fun t ht => R.wp_namexFrom hm ht hB hV hroom' hn hN)
  · exact .bind (R.idup h hcwd fun t ht => R.wp_namexFrom hm ht hB hV hroom' hn hN)

theorem wp_namei (R : PathRules o fee N room E B J) (hm : ∀ i, (fee i).length ≤ m) (h : J H V C s)
    (hB : B ⊆ H) (hV : V ⊆ H) (hroom : room H) (hroom' : ∀ i, room (i :: H)) (hcwd : cwd ∈ H)
    (hn : C.length + pathFee m path ≤ n) (hN : n ≤ N) :
    wp (namei o cwd path) (Follows J H V C n id) E s := by
  rw [namei, wp_bind]
  refine (R.wp_namex hm h hB hV hroom hroom' hcwd hn hN).mono_ok fun r t ⟨C', hC, hle, ht⟩ => ?_
  refine .pure ⟨C', hC, hle, ?_⟩
  cases r with
  | none => exact ht
  | some r => exact ht

end PathRules

/-! ## The calls -/

def Opens (J : Keeper σ) (H V C : List Nat) (n : Nat) (r : Option Nat) (t : σ) : Prop :=
  ∃ C', C ⊆ C' ∧ C'.length ≤ n ∧ J (r.toList ++ H) (r.toList ++ V) C' t

def Returns (J : Keeper σ) (H V C : List Nat) (n : Nat) {α : Type} (_ : α) (t : σ) : Prop :=
  ∃ C', C ⊆ C' ∧ C'.length ≤ n ∧ J H V C' t

namespace CallRules

variable {o : Ops σ} {blk : Nat → Nat} {fee : Nat → List Nat} {N m n : Nat} {room : List Nat → Prop}
  {E : Stop → σ → Prop} {J : Keeper σ} {H V C : List Nat} {s : σ}
  {dp ip : Nat}

variable (R : CallRules o blk N room E J)
include R

theorem put {i : Nat} {W : List Nat} {Q : Unit → σ → Prop}
    (h : J (i :: H) V C s) (hV : W ⊆ V) (hH : W ⊆ H) (hblk : blk i ∈ C)
    (hQ : ∀ t, J H W C t → Q () t) : wp (o.iput i) Q E s :=
  R.iput h (nil_subset H) hV hH (by simpa using hblk) hQ

theorem put_fee {W : List Nat} {Q : Unit → σ → Prop}
    (h : J (ip :: H) W C s) (hW : V ⊆ W) (hV : V ⊆ H)
    (hQ : ∀ t, J H V (blk ip :: C) t → Q () t) : wp (o.iput ip) Q E s :=
  R.wp_iput_fee h (nil_subset H) hW hV hQ

/-! ### `create` -/

theorem wp_createDots {Q : Bool → σ → Prop}
    (h : J H V C s) (hip : ip ∈ V) (hip' : ip ∈ H) (hdp : dp ∈ H) (hblk : blk ip ∈ C)
    (hN : C.length + 4 ≤ N) (hroom : room H)
    (hQ : ∀ r C' t, C ⊆ C' → C'.length ≤ C.length + 4 → J H V C' t → Q r t) :
    wp (createDots o dp ip) Q E s := by
  rw [createDots, wp_bind]
  refine R.dirlink h hip hip' hblk (by omega) hroom fun r x y t ht => ?_
  have hC : C ⊆ x :: y :: C := fun b hb => .tail _ (.tail _ hb)
  rw [wp_ite]
  split
  · refine R.dirlink ht hip hdp (hC hblk) (by simp only [length_cons]; omega) hroom
      fun r x' y' u hu => hQ r _ u (fun b hb => .tail _ (.tail _ (hC hb))) ?_ hu
    simp only [length_cons]
    omega
  · refine .pure (hQ _ _ t hC ?_ ht)
    simp only [length_cons]
    omega

section

variable (h : J (ip :: dp :: H) (ip :: dp :: V) C s) (hV : V ⊆ H)
include h hV

theorem wp_createFail (hip : blk ip ∈ C) (hdp : blk dp ∈ C) (hn : C.length ≤ n) :
    wp (createFail o dp ip) (Opens J H V C n) E s := by
  rw [createFail, wp_bind]
  refine R.setNlink h mem_cons_self hip fun t ht => ?_
  refine .bind (R.put (W := dp :: V) ht (subset_cons_self ..) (List.cons_subset_cons _ hV)
    hip fun u hu => ?_)
  refine .bind (R.put (W := V) hu (subset_cons_self ..) hV hdp fun v hv => ?_)
  exact .pure ⟨C, Subset.refl C, hn, hv⟩

theorem wp_createDone {type : FType} (hdp : blk dp ∈ C)
    (hn : C.length ≤ n) : wp (createDone o dp ip type) (Opens J H V C n) E s := by
  have hput : ∀ t, J (ip :: dp :: H) (ip :: dp :: V) C t →
      wp (do o.iput dp; return some ip) (Opens J H V C n) E t := by
    intro t ht
    refine .bind (R.put (W := ip :: V) (R.perm ht (List.Perm.swap ..))
      (List.cons_subset_cons _ (subset_cons_self ..)) (List.cons_subset_cons _ hV)
      hdp fun u hu => ?_)
    exact .pure ⟨C, Subset.refl C, hn, hu⟩
  rw [createDone, wp_ite]
  split
  · refine .bind (R.nlink h fun x => ?_)
    exact .bind (R.setNlink h (by simp) hdp hput)
  · exact hput s h

theorem wp_createAt {type : FType} {name : Name} (hip : blk ip ∈ C)
    (hdp : blk dp ∈ C) (hroom : room (ip :: dp :: H)) (hn : C.length + 6 ≤ n) (hN : n ≤ N) :
    wp (createAt o dp name type ip) (Opens J H V C n) E s := by
  -- once the entries `.` and `..` are there, if they are needed
  have hrest : ∀ (r : Bool) C' t, C ⊆ C' → C'.length ≤ C.length + 4 →
      J (ip :: dp :: H) (ip :: dp :: V) C' t →
      wp (if r then do
        let ok ← o.dirlink dp name ip
        if ok then createDone o dp ip type else createFail o dp ip
        else createFail o dp ip) (Opens J H V C n) E t := by
    intro r C' t hC hle ht
    rw [wp_ite]
    split
    · rw [wp_bind]
      refine R.dirlink ht (by simp) (by simp) (hC hdp) (by omega) hroom fun ok x y u hu => ?_
      have hC' : C ⊆ x :: y :: C' := fun b hb => .tail _ (.tail _ (hC hb))
      have hle' : (x :: y :: C').length ≤ n := by
        simp only [length_cons]
        omega
      rw [wp_ite]
      split
      · exact (R.wp_createDone hu hV (hC' hdp) hle').mono_ok fun r w ⟨D, hD, hlen, hw⟩ =>
          ⟨D, Subset.trans hC' hD, hlen, hw⟩
      · exact (R.wp_createFail hu hV (hC' hip) (hC' hdp) hle').mono_ok fun r w ⟨D, hD, hlen, hw⟩ =>
          ⟨D, Subset.trans hC' hD, hlen, hw⟩
    · exact (R.wp_createFail ht hV (hC hip) (hC hdp) (by omega)).mono_ok
        fun r w ⟨D, hD, hlen, hw⟩ => ⟨D, Subset.trans hC hD, hlen, hw⟩
  rw [createAt, wp_ite]
  split
  · exact .bind (R.wp_createDots h (by simp) (by simp) (by simp) hip (by omega) hroom hrest)
  · rw [wp_bind, wp_pure]
    exact hrest true C s (Subset.refl C) (by omega) h

end

/-- **`create`** keeps `J`, once the directory has been found. -/
theorem wp_create {type : FType} {major minor : Int} (hV : V ⊆ H) (hroom : ∀ i, room (i :: H))
    (hroom' : ∀ i j, room (j :: i :: H)) (hn : n + 8 ≤ N)
    (hpath : wp (nameiparent o cwd path) (Follows J H V C n (Prod.fst : Nat × Name → Nat)) E s) :
    wp (create o cwd path type major minor) (Opens J H V C (n + 8)) E s := by
  rw [create, wp_bind]
  refine hpath.mono_ok fun r t ⟨C', hC, hle, ht⟩ => ?_
  cases r with
  | none =>
    exact .pure ⟨C', hC, by omega, ht⟩
  | some r =>
    obtain ⟨dp, name⟩ := r
    dsimp only
    change J (dp :: H) V C' t at ht
    -- from here on the block of `dp` is paid for
    have hdp : blk dp ∈ blk dp :: C' := mem_cons_self
    have hC' : C ⊆ blk dp :: C' := fun b hb => .tail _ (hC hb)
    refine .bind (R.ilock ht mem_cons_self (by omega) fun t ht => ?_)
    replace ht := R.weaken ht (Subset.refl _) (subset_cons_self (blk dp) C')
    have hnone : ∀ u, J (dp :: H) (dp :: V) (blk dp :: C') u →
        wp (do o.iput dp; return none) (Opens J H V C (n + 8)) E u := by
      intro u hu
      refine .bind (R.put (W := V) hu (subset_cons_self ..) hV (by simp) fun v hv => ?_)
      exact .pure ⟨_, hC', by simp only [length_cons]; omega, hv⟩
    refine .bind (R.dirlookup ht mem_cons_self (by simp only [length_cons]; omega) (hroom dp)
      (fun u hu => ?_) fun ip off u _ hu => ?_)
    · refine .bind (R.ialloc hu (by simp only [length_cons]; omega) (hroom dp) (fun v hv => ?_)
        fun ip v hv => ?_)
      · exact hnone v hv
      · refine .bind (R.ilock hv mem_cons_self (by simp only [length_cons]; omega) fun w hw => ?_)
        refine .bind (R.setup hw mem_cons_self mem_cons_self fun w hw => ?_)
        refine (R.wp_createAt (n := n + 8) hw hV mem_cons_self (.tail _ hdp)
          (hroom' dp ip) (by simp only [length_cons]; omega) hn).mono_ok fun r x ⟨D, hD, hlen, hx⟩ =>
          ⟨D, fun b hb => hD (.tail _ (hC' hb)), hlen, hx⟩
    · refine .bind (R.put (W := V) (R.perm hu (List.Perm.swap ..)) (subset_cons_self ..)
        (fun b hb => .tail _ (hV hb)) (by simp) fun v hv => ?_)
      refine .bind (R.ilock hv mem_cons_self (by simp only [length_cons]; omega) fun w hw => ?_)
      refine .bind (R.type hw fun x => ?_)
      rw [wp_ite]
      split
      · exact .pure ⟨_, hC', by simp only [length_cons]; omega, hw⟩
      · refine .bind (R.put_fee hw (subset_cons_self ..) hV fun x hx => ?_)
        refine .pure (⟨_, fun b hb => .tail _ (hC' hb), ?_, hx⟩)
        simp only [length_cons]
        omega

theorem wp_sysMake {type : FType}
    {major minor : Int} (h : J H V C s) (hV : V ⊆ H) (hroom : ∀ i, room (i :: H))
    (hroom' : ∀ i j, room (j :: i :: H)) (hCn : C.length ≤ n) (hn : n + 9 ≤ N)
    (hpath : wp (nameiparent o cwd path) (Follows J H V C n (Prod.fst : Nat × Name → Nat)) E s) :
    wp (sysMake o cwd path type major minor) (Returns J H V C (n + 9)) E s := by
  rw [sysMake, wp_ite]
  split
  · exact .pure ⟨C, Subset.refl C, by omega, h⟩
  · rw [wp_bind]
    refine (R.wp_create hV hroom hroom' (by omega) hpath).mono_ok fun r t ⟨C', hC, hle, ht⟩ => ?_
    cases r with
    | none =>
      exact .pure ⟨C', hC, by omega, ht⟩
    | some ip =>
      refine .bind (R.put_fee ht (subset_cons_self ..) hV fun u hu => ?_)
      refine .pure (⟨_, fun b hb => .tail _ (hC hb), ?_, hu⟩)
      rw [length_cons]
      omega

/-! ### `sys_open` -/

theorem wp_openNamei {omode : Nat}
    (hV : V ⊆ H) (hn : n + 1 ≤ N) (hpath : wp (namei o cwd path) (Follows J H V C n id) E s) :
    wp (openNamei o cwd path omode) (Opens J H V C (n + 1)) E s := by
  rw [openNamei, wp_bind]
  refine hpath.mono_ok fun r t ⟨C', hC, hle, ht⟩ => ?_
  cases r with
  | none =>
    exact .pure ⟨C', hC, by omega, ht⟩
  | some ip =>
    refine .bind (R.ilock (i := ip) ht mem_cons_self (by omega) fun u hu => ?_)
    refine .bind (R.type hu fun x => ?_)
    rw [wp_ite]
    split
    · refine .bind (R.put_fee hu (subset_cons_self ..) hV fun v hv => ?_)
      refine .pure (⟨_, fun b hb => .tail _ (hC hb), ?_, hv⟩)
      rw [length_cons]
      omega
    · exact .pure ⟨C', hC, by omega, hu⟩

theorem wp_openInode {omode : Nat}
    {Q : Option Nat → σ → Prop} (h : J H V C s) (hV : V ⊆ H) (hroom : ∀ i, room (i :: H))
    (hroom' : ∀ i j, room (j :: i :: H)) (hCn : C.length ≤ n) (hn : n + 9 ≤ N)
    (hpath : wp (nameiparent o cwd path) (Follows J H V C n (Prod.fst : Nat × Name → Nat)) E s)
    (hpath' : wp (namei o cwd path) (Follows J H V C n id) E s)
    (hnone : ∀ C' t, C ⊆ C' → C'.length ≤ n + 9 → J H V C' t → Q none t)
    (hsome : ∀ ip C' t, C ⊆ C' → C'.length ≤ n + 8 → J (ip :: H) (ip :: V) C' t →
      Q (some ip) t) : wp (openInode o cwd path omode) Q E s := by
  -- once there is an inode, or not
  have hrest : ∀ f : Option Nat → EStateM Stop σ (Option Nat), f none = pure none →
      (∀ ip, f (some ip) = do
        let type ← o.type ip
        let major ← o.major ip
        if type = .device ∧ (major < 0 ∨ ndev ≤ major) then
          o.iput ip
          return none
        else return some ip) → ∀ r t, Opens J H V C (n + 8) r t → wp (f r) Q E t := by
    rintro f hf hf' r t ⟨C', hC, hle, ht⟩
    cases r with
    | none =>
      rw [hf, wp_pure]
      exact hnone C' t hC (by omega) ht
    | some ip =>
      rw [hf', wp_bind]
      refine R.type ht fun x => ?_
      refine .bind (R.major ht fun y => ?_)
      rw [wp_ite]
      split
      · refine .bind (R.put_fee ht (subset_cons_self ..) hV fun u hu => ?_)
        exact .pure (hnone _ u (fun b hb => .tail _ (hC hb)) (Nat.succ_le_succ hle) hu)
      · exact .pure (hsome ip C' t hC hle ht)
  rw [openInode, wp_ite]
  split
  · exact .pure (hnone C s (Subset.refl C) (by omega) h)
  · rw [wp_ite]
    split
    · rw [wp_bind]
      exact (R.wp_create hV hroom hroom' (by omega) hpath).mono_ok (hrest _ (by rfl) fun _ => by rfl)
    · rw [wp_bind]
      have hopen : wp (openNamei o cwd path omode) (Opens J H V C (n + 8)) E s := by
        refine (R.wp_openNamei hV (by omega) hpath').mono_ok fun r t hopens => ?_
        obtain ⟨C', hC, hle, ht⟩ := hopens
        exact ⟨C', hC, by omega, ht⟩
      exact hopen.mono_ok (hrest _ (by rfl) fun _ => by rfl)

theorem wp_openTrunc {omode : Nat}
    {space : Bool} (h : J H V C s) (hV : V ⊆ H) (hroom : ∀ i, room (i :: H))
    (hroom' : ∀ i j, room (j :: i :: H)) (hCn : C.length ≤ n) (hn : n + 9 ≤ N)
    (hpath : wp (nameiparent o cwd path) (Follows J H V C n (Prod.fst : Nat × Name → Nat)) E s)
    (hpath' : wp (namei o cwd path) (Follows J H V C n id) E s) :
    wp (openTrunc o cwd path omode space) (Opens J H V C (n + 9)) E s := by
  rw [openTrunc, wp_bind]
  refine R.wp_openInode h hV hroom hroom' hCn hn hpath hpath' (fun C' t hC hle ht => ?_)
    fun ip C' t hC hle ht => ?_
  · exact .pure ⟨C', hC, hle, ht⟩
  · dsimp only
    have hC' : C ⊆ blk ip :: C' := fun b hb => .tail _ (hC hb)
    rw [wp_ite]
    split
    · refine .bind (R.type ht fun x => ?_)
      rw [wp_ite]
      split
      · refine .bind (R.itrunc (R.weaken ht (Subset.refl _) (subset_cons_self (blk ip) C'))
          mem_cons_self mem_cons_self fun u hu => ?_)
        refine .bind (R.iunlock hu mem_cons_self fun v hv => ?_)
        exact .pure ⟨_, hC', Nat.succ_le_succ hle, hv⟩
      · refine .bind (R.iunlock ht mem_cons_self fun u hu => ?_)
        exact .pure ⟨C', hC, by omega, hu⟩
    · refine .bind (R.put_fee ht (subset_cons_self ..) hV fun u hu => ?_)
      exact .pure ⟨_, hC', Nat.succ_le_succ hle, hu⟩

/-- **`sys_chdir`** keeps `J`: the reference to the old directory is dropped. -/
theorem wp_changeDir (h : J (cwd :: H) V C s) (hV : V ⊆ H) (hCn : C.length ≤ n) (hn : n + 1 ≤ N)
    (hpath : wp (namei o cwd path) (Follows J (cwd :: H) V C n id) E s) :
    wp (changeDir o cwd path) (fun r t => ∃ C', C ⊆ C' ∧ C'.length ≤ n + 1 ∧
      J (r.getD cwd :: H) V C' t) E s := by
  rw [changeDir, wp_ite]
  split
  · exact .pure ⟨C, Subset.refl C, by omega, h⟩
  · refine .bind (hpath.mono_ok fun r t ⟨C', hC, hle, ht⟩ => ?_)
    cases r with
    | none =>
      exact .pure ⟨C', hC, by omega, ht⟩
    | some ip =>
      refine .bind (R.ilock (i := ip) ht mem_cons_self (by omega) fun u hu => ?_)
      refine .bind (R.type hu fun x => ?_)
      rw [wp_ite]
      split
      · refine .bind (R.put_fee (V := V) hu (subset_cons_self ..)
          (fun b hb => .tail _ (hV hb)) fun v hv => ?_)
        exact .pure (⟨_, fun b hb => .tail _ (hC hb), Nat.succ_le_succ hle, hv⟩)
      · refine .bind (R.iunlock hu mem_cons_self fun u hu => ?_)
        refine .bind (R.put_fee (V := V) (R.perm hu (List.Perm.swap ..)) (subset_cons_self ..)
          (fun b hb => .tail _ (hV hb)) fun v hv => ?_)
        exact .pure (⟨_, fun b hb => .tail _ (hC hb), Nat.succ_le_succ hle, hv⟩)

/-! ### `sys_link` -/

theorem wp_sysLinkBad (h : J (ip :: H) V C s) (hV : V ⊆ H)
    (hip : blk ip ∈ C) (hn : C.length ≤ n) (hN : n ≤ N) :
    wp (sysLinkBad o ip) (Returns J H V C n) E s := by
  rw [sysLinkBad, wp_bind]
  refine R.ilock h mem_cons_self (by omega) fun t ht => ?_
  refine .bind (R.nlink ht fun x => ?_)
  refine .bind (R.setNlink ht mem_cons_self hip fun u hu => ?_)
  refine .bind (R.put (W := V) hu (subset_cons_self ..) hV hip fun v hv => ?_)
  exact .pure ⟨C, Subset.refl C, hn, hv⟩

/-- **`sys_link`** keeps `J`. -/
theorem wp_sysLink (P : ∀ B, PathRules o fee N room E B J)
    (hm : ∀ i, (fee i).length ≤ m) {old new : List Char} (h : J H [] C s)
    (hroom : room H) (hroom' : ∀ i, room (i :: H)) (hroom'' : ∀ i j, room (j :: i :: H))
    (hcwd : cwd ∈ H)
    (hn : C.length + PathRules.pathFee m old + PathRules.pathFee m new + 4 ≤ n) (hN : n ≤ N) :
    wp (sysLink o cwd old new) (Returns J H [] C n) E s := by
  have hnil : ∀ l : List Nat, [] ⊆ l := nil_subset
  rw [sysLink, wp_ite]
  split
  · exact .pure ⟨C, Subset.refl C, by omega, h⟩
  · rw [wp_bind]
    refine ((P H).wp_namei hm h (Subset.refl H) (hnil H) hroom hroom' hcwd (Nat.le_refl _)
      (by omega)).mono_ok fun r t ⟨C₁, hC₁, hle₁, ht⟩ => ?_
    cases r with
    | none =>
      exact .pure ⟨C₁, hC₁, by omega, ht⟩
    | some ip =>
      refine .bind ((P H).ilock (i := ip) ht mem_cons_self (by omega) fun t ht => ?_)
      refine .bind ((P H).type ht fun x => ?_)
      rw [wp_ite]
      split
      · refine .bind (R.put_fee ht (hnil _) (hnil H) fun u hu => ?_)
        refine .pure (⟨_, fun b hb => .tail _ (hC₁ hb), ?_, hu⟩)
        rw [length_cons]
        omega
      · refine .bind (R.nlink ht fun x => ?_)
        have hlen : (blk ip :: C₁).length = C₁.length + 1 := length_cons
        replace ht := (P H).weaken ht (Subset.refl _) (subset_cons_self (blk ip) C₁)
        refine .bind (R.setNlink ht mem_cons_self mem_cons_self fun u hu => ?_)
        refine .bind ((P (ip :: H)).iunlock hu mem_cons_self fun u hu => ?_)
        rw [wp_bind]
        refine ((P (ip :: H)).wp_namex hm ((P (ip :: H)).weaken hu (hnil _) (Subset.refl _))
          (Subset.refl _) (hnil _) (hroom' ip) (hroom'' ip) (.tail _ hcwd) (Nat.le_refl _) (by omega)).mono_ok
          fun r v ⟨C₂, hC₂, hle₂, hv⟩ => ?_
        have hip : blk ip ∈ C₂ := hC₂ mem_cons_self
        have hC : C ⊆ C₂ := fun b hb => hC₂ (.tail _ (hC₁ hb))
        cases r with
        | none =>
          dsimp only
          exact (R.wp_sysLinkBad (n := n) hv (hnil H) hip (by omega) hN).mono_ok
            fun r w ⟨D, hD, hlen, hw⟩ => ⟨D, Subset.trans hC hD, hlen, hw⟩
        | some r =>
          obtain ⟨dp, name⟩ := r
          refine .bind (R.ilock (i := dp) hv mem_cons_self (by omega) fun w hw => ?_)
          replace hw := R.weaken hw (Subset.refl _) (subset_cons_self (blk dp) C₂)
          have hlen₂ : (blk dp :: C₂).length = C₂.length + 1 := length_cons
          refine .bind (R.dirlink hw mem_cons_self (.tail _ mem_cons_self) mem_cons_self
            (by omega) (hroom'' ip dp) fun ok x y w hw => ?_)
          have hC' : C₂ ⊆ x :: y :: blk dp :: C₂ := fun b hb => .tail _ (.tail _ (.tail _ hb))
          have hlen' : (x :: y :: blk dp :: C₂).length ≤ n := by
            simp only [length_cons]
            omega
          refine .bind (R.put (W := []) hw (hnil _) (hnil _) (by simp) fun w hw => ?_)
          rw [wp_ite]
          split
          · refine .bind (R.put (W := []) hw (hnil _) (hnil _) (hC' hip) fun w hw => ?_)
            exact .pure ⟨_, Subset.trans hC hC', hlen', hw⟩
          · exact (R.wp_sysLinkBad (n := n) hw (hnil H) (hC' hip) hlen' hN).mono_ok
              fun r w ⟨D, hD, hlen, hw⟩ => ⟨D, Subset.trans (Subset.trans hC hC') hD, hlen, hw⟩

/-! ### `sys_unlink` -/

theorem wp_sysUnlinkDone {type : FType}
    (h : J (ip :: dp :: H) [ip, dp] C s) (hip : blk ip ∈ C) (hdp : blk dp ∈ C) (hn : C.length ≤ n) :
    wp (sysUnlinkDone o dp ip type) (Returns J H [] C n) E s := by
  have hrest : ∀ t, J (ip :: dp :: H) [ip, dp] C t → wp (do
      o.iput dp
      let n ← o.nlink ip
      o.setNlink ip (n - 1)
      o.iput ip
      return (0 : Int)) (Returns J H [] C n) E t := by
    intro t ht
    refine .bind (R.put (W := [ip]) (R.perm ht (List.Perm.swap ..)) (by simp) (by simp)
      hdp fun u hu => ?_)
    refine .bind (R.nlink hu fun x => ?_)
    refine .bind (R.setNlink hu mem_cons_self hip fun v hv => ?_)
    refine .bind (R.put (W := []) hv (nil_subset _) (nil_subset _) hip
      fun w hw => ?_)
    exact .pure ⟨C, Subset.refl C, hn, hw⟩
  rw [sysUnlinkDone, wp_ite]
  split
  · refine .bind (R.nlink h fun x => ?_)
    exact .bind (R.setNlink h (by simp) hdp hrest)
  · exact hrest s h

theorem wp_sysUnlinkAt {off : Nat} (h : J (ip :: dp :: H) [dp] C s)
    (hoff : off % 16 = 0) (hdp : blk dp ∈ C) (hn : C.length + 3 ≤ n) (hN : n ≤ N) :
    wp (sysUnlinkAt o dp ip off) (Returns J H [] C n) E s := by
  have hC : C ⊆ blk ip :: C := subset_cons_self ..
  have hlen : (blk ip :: C).length = C.length + 1 := length_cons
  rw [sysUnlinkAt, wp_bind]
  refine R.ilock h mem_cons_self (by omega) fun t ht => ?_
  replace ht := R.weaken ht (Subset.refl _) hC
  -- once it is known whether the directory is empty
  have hrest : ∀ (empty : Bool) type t, J (ip :: dp :: H) [ip, dp] (blk ip :: C) t →
      wp (if empty then do
        let ok ← o.clearEntry dp off
        if ok then sysUnlinkDone o dp ip type else throw (.panic .unlinkWritei)
        else do
          o.iput ip
          o.iput dp
          return (-1 : Int)) (Returns J H [] C n) E t := by
    intro empty type t ht
    rw [wp_ite]
    split
    · refine .bind (R.clearEntry ht (by simp) hoff (hC hdp) (by omega) fun ok x y u hu => ?_)
      have hC' : C ⊆ x :: y :: blk ip :: C := fun b hb => .tail _ (.tail _ (.tail _ hb))
      have hlen' : (x :: y :: blk ip :: C).length ≤ n := by
        simp only [length_cons]
        omega
      rw [wp_ite]
      split
      · exact (R.wp_sysUnlinkDone hu (by simp) (hC' hdp) hlen').mono_ok
          fun r w ⟨D, hD, hle, hw⟩ => ⟨D, Subset.trans hC' hD, hle, hw⟩
      · rw [wp_throw]
        exact R.panic hu (by omega) (.inr rfl)
    · refine .bind (R.put (W := []) ht (nil_subset _) (nil_subset _) (by simp) fun u hu => ?_)
      refine .bind (R.put (W := []) hu (nil_subset _) (nil_subset _) (by simpa using .inr hdp)
        fun v hv => ?_)
      exact .pure ⟨_, hC, by omega, hv⟩
  refine .bind (R.nlink ht fun x => ?_)
  refine .bind (R.type ht fun type => ?_)
  rw [wp_ite]
  split
  · rw [wp_throw]
    exact R.panic ht (by omega) (.inl rfl)
  · rw [wp_ite]
    split
    · exact .bind (R.isdirempty ht mem_cons_self (by omega) fun r u hu => hrest r type u hu)
    · rw [wp_bind, wp_pure]
      exact hrest true type t ht

/-- **`sys_unlink`** keeps `J`, once the directory has been found. -/
theorem wp_sysUnlink (h : J H [] C s) (hroom : ∀ i, room (i :: H)) (hCn : C.length ≤ n)
    (hn : n + 4 ≤ N)
    (hpath : wp (nameiparent o cwd path) (Follows J H [] C n (Prod.fst : Nat × Name → Nat)) E s) :
    wp (sysUnlink o cwd path) (Returns J H [] C (n + 4)) E s := by
  rw [sysUnlink, wp_ite]
  split
  · exact .pure ⟨C, Subset.refl C, by omega, h⟩
  · refine .bind (hpath.mono_ok fun r t ⟨C', hC, hle, ht⟩ => ?_)
    cases r with
    | none =>
      exact .pure ⟨C', hC, by omega, ht⟩
    | some r =>
      obtain ⟨dp, name⟩ := r
      dsimp only
      have hC' : C ⊆ blk dp :: C' := fun b hb => .tail _ (hC hb)
      have hlen : (blk dp :: C').length = C'.length + 1 := length_cons
      refine .bind (R.ilock (i := dp) ht mem_cons_self (by omega) fun t ht => ?_)
      replace ht := R.weaken ht (Subset.refl _) (subset_cons_self (blk dp) C')
      have hput : ∀ u, J (dp :: H) [dp] (blk dp :: C') u →
          wp (do o.iput dp; return (-1 : Int)) (Returns J H [] C (n + 4)) E u := by
        intro u hu
        refine .bind (R.put (W := []) hu (nil_subset _) (nil_subset _) (by simp) fun v hv => ?_)
        exact .pure ⟨_, hC', by omega, hv⟩
      rw [wp_ite]
      split
      · exact hput t ht
      · rw [wp_bind]
        refine R.dirlookup ht mem_cons_self (by omega) (hroom dp) hput fun ip off u hoff hu => ?_
        exact (R.wp_sysUnlinkAt (n := n + 4) hu hoff mem_cons_self (by omega) hn).mono_ok
          fun r w ⟨D, hD, hlen, hw⟩ => ⟨D, Subset.trans hC' hD, hlen, hw⟩

end CallRules

end Xv6.Fs
