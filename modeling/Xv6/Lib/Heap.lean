import Mathlib.Data.List.Perm.Basic
import Mathlib.Data.Set.BooleanAlgebra
import Mathlib.Data.Set.Insert
import Mathlib.Data.Set.Disjoint
import Mathlib.Order.CompletePartialOrder

/-!
# Pages with a free list, and who owns them

`Heap N P` is a store of pages with contents in `P`, of which those in `free` belong to nobody.  A
piece of code that owns the pages in `A` may change them, give some of them back, and take others off
the free list.  `Change s t A B` says that it did no more than that, and owns `B` afterwards: pages
outside `A` and the free list are as they were, and no page is lost or gained.
-/

structure Heap (N P : Type) where
  page : N → P
  free : List N

namespace Heap

open Function (update update_of_ne)

variable {N P : Type} {s t u : Heap N P} {A B C : Set N} {x : N}

/-- Nobody else can be handed a page of `A`. -/
structure Owns (s : Heap N P) (A : Set N) : Prop where
  nodup : s.free.Nodup
  apart : ∀ x ∈ A, x ∉ s.free

/-- What code that owns `A` before and `B` afterwards can do. -/
structure Change (s t : Heap N P) (A B : Set N) : Prop where
  same : ∀ x, x ∉ A → x ∉ s.free → t.page x = s.page x
  mem : ∀ x, x ∈ t.free ∨ x ∈ B ↔ x ∈ s.free ∨ x ∈ A
  owns : Owns t B

theorem Owns.mono (h : Owns s A) (hBA : B ⊆ A) : Owns s B := ⟨h.nodup, fun x hx => h.apart x (hBA hx)⟩

theorem Owns.union (h : Owns s A) (h' : Owns s B) : Owns s (A ∪ B) :=
  ⟨h.nodup, fun x hx => hx.elim (h.apart x) (h'.apart x)⟩

namespace Change

theorem refl (h : Owns s A) : Change s s A A := ⟨fun _ _ _ => rfl, fun _ => Iff.rfl, h⟩

theorem trans (h : Change s t A B) (h' : Change t u B C) : Change s u A C where
  same x hA hfree := by
    have hnot : ¬(x ∈ t.free ∨ x ∈ B) := fun hx => ((h.mem x).mp hx).elim hfree hA
    rw [h'.same x (fun hB => hnot (.inr hB)) fun hx => hnot (.inl hx), h.same x hA hfree]
  mem x := (h'.mem x).trans (h.mem x)
  owns := h'.owns

section

variable (h : Change s t A B) (hC : Owns s C) (hAC : Disjoint A C)
include h hC hAC

theorem owns_other : Owns t C where
  nodup := h.owns.nodup
  apart x hx hfree := ((h.mem x).mp (.inl hfree)).elim (hC.apart x hx) fun hA =>
    Set.disjoint_left.mp hAC hA hx

theorem same_other (hx : x ∈ C) : t.page x = s.page x :=
  h.same x (fun hA => Set.disjoint_left.mp hAC hA hx) (hC.apart x hx)

theorem disjoint_other : Disjoint B C :=
  Set.disjoint_left.mpr fun x hB hx => ((h.mem x).mp (.inr hB)).elim (hC.apart x hx) fun hA =>
    Set.disjoint_left.mp hAC hA hx

/-- **The frame rule**: code that owns more does the same. -/
theorem widen : Change s t (A ∪ C) (B ∪ C) where
  same x hx hfree := h.same x (fun hA => hx (.inl hA)) hfree
  mem x := by
    have hx := h.mem x
    simp only [Set.mem_union]
    tauto
  owns := h.owns.union (h.owns_other hC hAC)

end

theorem taken (h : Change s t ∅ {x}) (hC : Owns s C) : Change s t C (C ∪ {x}) := by
  have hwide := h.widen hC (Set.empty_disjoint C)
  rwa [Set.empty_union, Set.union_comm] at hwide

theorem given (h : Change s t {x} ∅) (hC : Owns s C) (hx : x ∉ C) : Change s t (C ∪ {x}) C := by
  have hwide := h.widen hC (Set.disjoint_singleton_left.mpr hx)
  rwa [Set.empty_union, Set.union_comm] at hwide

theorem widen_left (h : Change s t A B) (hC : Owns s C) (hAC : Disjoint A C) :
    Change s t (C ∪ A) (C ∪ B) := by
  have hwide := h.widen hC hAC
  rwa [Set.union_comm A, Set.union_comm B] at hwide

theorem cast {A' B' : Set N} (h : Change s t A B) (hA : A = A') (hB : B = B') :
    Change s t A' B' := by
  subst hA hB
  exact h

theorem perm (h : Change s t A A) (hs : Owns s A) : t.free.Perm s.free := by
  refine (List.perm_ext_iff_of_nodup h.owns.nodup hs.nodup).mpr fun x => ?_
  have hx := h.mem x
  have ht := h.owns.apart x
  have hs' := hs.apart x
  tauto

end Change

/-! ## The primitives -/

theorem change_page [DecidableEq N] (h : Owns s A) (hx : x ∈ A) (p : P) :
    Change s { s with page := update s.page x p } A A where
  same y hy _ := by
    have hne : y ≠ x := fun heq => hy (by rwa [heq])
    exact update_of_ne hne ..
  mem _ := Iff.rfl
  owns := ⟨h.nodup, h.apart⟩

theorem change_take [DecidableEq N] {free : List N} (h : s.free.Nodup) (hfree : s.free = x :: free)
    (p : P) : Change s ⟨update s.page x p, free⟩ ∅ {x} where
  same y _ hy := update_of_ne (fun heq => hy (by simp [hfree, heq])) ..
  mem y := by simp [hfree, or_comm]
  owns := by
    rw [hfree, List.nodup_cons] at h
    refine ⟨h.2, fun y hy => ?_⟩
    rw [Set.mem_singleton_iff.mp hy]
    exact h.1

theorem change_give [DecidableEq N] (h : Owns s {x}) (p : P) :
    Change s ⟨update s.page x p, x :: s.free⟩ {x} ∅ where
  same y hy _ := update_of_ne (fun heq => hy heq) ..
  mem y := by simp [or_comm]
  owns := ⟨List.nodup_cons.mpr ⟨h.apart x rfl, h.nodup⟩, fun y hy => hy.elim⟩

end Heap
