import Mathlib.Data.List.Nodup

/-!
# Paths through linked nodes

Every node has a link, `next`.  `Path next a xs b` says that starting from `a` and following the links
one comes through the nodes `xs` and then to `b`.  A circular list is a path from a node to itself; it
can be entered at any of its nodes (`Path.rotate`).
-/

namespace Linked

universe u

variable {α : Type u} {next next' : α → α} {a b c x : α} {xs ys : List α}

def Path (next : α → α) : α → List α → α → Prop
  | a, [], b => a = b
  | a, x :: xs, b => a = x ∧ Path next (next x) xs b

theorem path_append : Path next a (xs ++ ys) c ↔ ∃ b, Path next a xs b ∧ Path next b ys c := by
  induction xs generalizing a with
  | nil => exact ⟨fun h => ⟨a, rfl, h⟩, fun ⟨_, hab, h⟩ => hab ▸ h⟩
  | cons x xs ih =>
    constructor
    · rintro ⟨rfl, h⟩
      obtain ⟨b, hxs, hys⟩ := ih.mp h
      exact ⟨b, ⟨rfl, hxs⟩, hys⟩
    · rintro ⟨b, ⟨rfl, hxs⟩, hys⟩
      exact ⟨rfl, ih.mpr ⟨b, hxs, hys⟩⟩

theorem path_append_cons :
    Path next a (xs ++ x :: ys) b ↔ Path next a xs x ∧ Path next (next x) ys b := by
  rw [path_append]
  constructor
  · rintro ⟨c, hxs, rfl, hys⟩
    exact ⟨hxs, hys⟩
  · rintro ⟨hxs, hys⟩
    exact ⟨x, hxs, rfl, hys⟩

theorem Path.congr (h : Path next a xs b) (hnext : ∀ x ∈ xs, next' x = next x) :
    Path next' a xs b := by
  induction xs generalizing a with
  | nil => exact h
  | cons x xs ih =>
    refine ⟨h.1, ?_⟩
    rw [hnext x List.mem_cons_self]
    exact ih h.2 fun y hy => hnext y (List.mem_cons_of_mem x hy)

theorem Path.rotate (h : Path next a (xs ++ x :: ys) a) : Path next (next x) (ys ++ xs) x := by
  obtain ⟨hxs, hys⟩ := path_append_cons.mp h
  exact path_append.mpr ⟨a, hys, hxs⟩

theorem Path.exists_path {y : α} (h : Path next a xs a) (hx : x ∈ xs) (hy : y ∈ xs) :
    ∃ ys, Path next x ys y ∧ y ∉ ys ∧ ys ⊆ xs ∧ ys.length ≤ xs.length := by
  obtain ⟨us, vs, rfl⟩ := List.append_of_mem hx
  have hcircle : Path next x (x :: (vs ++ us)) x := ⟨rfl, h.rotate⟩
  have hperm : (x :: (vs ++ us)).Perm (us ++ x :: vs) :=
    (List.perm_append_comm.cons x).trans List.perm_middle.symm
  obtain ⟨ys, zs, heq, hnot⟩ := List.eq_append_cons_of_mem (hperm.mem_iff.mpr hy)
  rw [heq] at hcircle hperm
  refine ⟨ys, (path_append_cons.mp hcircle).1, hnot, fun z hz => ?_, ?_⟩
  · exact hperm.subset (List.mem_append_left _ hz)
  · rw [← hperm.length_eq, List.length_append]
    exact Nat.le_add_right ..

end Linked
