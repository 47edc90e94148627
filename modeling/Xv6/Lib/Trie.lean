import Mathlib.Data.List.Induction
import Mathlib.Order.Nat

/-!
# Trees of nodes that point to nodes

A store of nodes gives for every node and key the node it points to, if any: `child n k`.  From a
root, a list of keys leads along these pointers to a node, `descend child root ks`.

`Unique child root d` says that, down to depth `d`, no node is reached along two paths, so that the
part of the store below the root is a tree.
-/

namespace Trie

variable {N K : Type*}

def descend (child : N → K → Option N) (n : N) : List K → Option N
  | [] => some n
  | k :: ks =>
    match child n k with
    | none => none
    | some m => descend child m ks

/-- The nodes that can be reached along at most `d` pointers. -/
def Node (child : N → K → Option N) (root : N) (d : Nat) (n : N) : Prop :=
  ∃ ks : List K, ks.length ≤ d ∧ descend child root ks = some n

/-- No node is reached along two paths. -/
def Unique (child : N → K → Option N) (root : N) (d : Nat) : Prop :=
  ∀ ⦃ks ls : List K⦄ ⦃n : N⦄, ks.length ≤ d → ls.length ≤ d → descend child root ks = some n →
    descend child root ls = some n → ks = ls

variable {child child' : N → K → Option N} {root n m : N} {k : K} {ks ls : List K} {d : Nat}

@[simp] theorem descend_nil : descend child n ([] : List K) = some n := rfl

theorem descend_cons_of_some (h : child n k = some m) :
    descend child n (k :: ks) = descend child m ks := by
  rw [descend, h]

theorem descend_cons_of_none (h : child n k = none) : descend child n (k :: ks) = none := by
  rw [descend, h]

theorem descend_append (n : N) (ks ls : List K) :
    descend child n (ks ++ ls) = (descend child n ks).bind fun m => descend child m ls := by
  induction ks generalizing n with
  | nil => rfl
  | cons k ks ih =>
    rw [List.cons_append, descend, descend]
    cases child n k with
    | none => rfl
    | some m => exact ih m

theorem descend_snoc (h : descend child root ks = some n) (k : K) :
    descend child root (ks ++ [k]) = child n k := by
  rw [descend_append, h, Option.bind_some, descend]
  cases child n k <;> rfl

theorem descend_snoc_of_none (h : descend child root ks = none) (k : K) :
    descend child root (ks ++ [k]) = none := by
  rw [descend_append, h, Option.bind_none]

theorem node_root : Node child root d root := ⟨[], Nat.zero_le d, rfl⟩

theorem Node.of_descend (hlen : ks.length ≤ d) (h : descend child root ks = some n) :
    Node child root d n := ⟨ks, hlen, h⟩

theorem descend_congr (hchild : ∀ ls n, ls.length < d → descend child root ls = some n →
    child' n = child n) (hlen : ks.length ≤ d) :
    descend child' root ks = descend child root ks := by
  induction ks generalizing root d with
  | nil => rfl
  | cons k ks ih =>
    rw [List.length_cons] at hlen
    have hroot : child' root = child root := hchild [] root (by simp; omega) rfl
    rw [descend, descend, hroot]
    cases hk : child root k with
    | none => rfl
    | some m =>
      refine ih (d := d - 1) (fun ls n hls hn => ?_) (by omega)
      exact hchild (k :: ls) n (by simp; omega) ((descend_cons_of_some hk).trans hn)

theorem Unique.congr (h : Unique child root d) (hchild : ∀ ls n, ls.length < d →
    descend child root ls = some n → child' n = child n) : Unique child' root d := by
  intro ks ls n hks hls hn hn'
  rw [descend_congr hchild hks] at hn
  rw [descend_congr hchild hls] at hn'
  exact h hks hls hn hn'

theorem node_congr (hchild : ∀ ls n, ls.length < d → descend child root ls = some n →
    child' n = child n) : Node child' root d n ↔ Node child root d n := by
  constructor
  · rintro ⟨ks, hks, hn⟩
    exact ⟨ks, hks, (descend_congr hchild hks).symm.trans hn⟩
  · rintro ⟨ks, hks, hn⟩
    exact ⟨ks, hks, (descend_congr hchild hks).trans hn⟩

/-! ## A new node -/

section Grow

variable [DecidableEq K]

/-- **A pointer to a fresh node without children adds one path.** -/
theorem descend_grow (hunique : Unique child root d) (hn : descend child root ls = some n)
    (hlen : ls.length < d) (hnone : child n k = none) (hfresh : ¬Node child root d m)
    (hm : ∀ j, child' m j = none) (hk : child' n k = some m)
    (hother : ∀ x j, x ≠ m → ¬(x = n ∧ j = k) → child' x j = child x j) (hks : ks.length ≤ d) :
    descend child' root ks = if ks = ls ++ [k] then some m else descend child root ks := by
  have hend : descend child root (ls ++ [k]) = none := (descend_snoc hn k).trans hnone
  have hnm : n ≠ m := fun heq => hfresh (heq ▸ Node.of_descend hlen.le hn)
  -- along the path, from its end
  induction ks using List.reverseRecOn with
  | nil => simp
  | append_singleton ks j ih =>
    rw [List.length_append, List.length_singleton] at hks
    specialize ih (by omega)
    by_cases hpath : ks = ls ++ [k]
    · -- below the new node there is nothing
      rw [if_pos hpath] at ih
      rw [descend_snoc ih, hm, if_neg (by simp [hpath]), hpath, descend_snoc_of_none hend]
    · rw [if_neg hpath] at ih
      cases hx : descend child root ks with
      | none =>
        have hne : ks ++ [j] ≠ ls ++ [k] := by
          intro heq
          rw [(List.append_inj' heq rfl).1, hn] at hx
          exact absurd hx (by simp)
        rw [descend_snoc_of_none (ih.trans hx), if_neg hne, descend_snoc_of_none hx]
      | some x =>
        rw [descend_snoc (ih.trans hx), descend_snoc hx]
        by_cases hhere : x = n ∧ j = k
        · obtain ⟨rfl, rfl⟩ := hhere
          rw [hk, if_pos (by rw [hunique (by omega) hlen.le hx hn])]
        · have hxm : x ≠ m := fun heq => hfresh (heq ▸ Node.of_descend (by omega) hx)
          have hne : ks ++ [j] ≠ ls ++ [k] := by
            intro heq
            obtain ⟨rfl, hj⟩ := List.append_inj' heq rfl
            exact hhere ⟨Option.some_inj.mp (hx.symm.trans hn), by simpa using hj⟩
          rw [hother x j hxm hhere, if_neg hne]

variable (hdescend : ∀ ⦃ks : List K⦄, ks.length ≤ d → descend child' root ks =
  if ks = ls then some m else descend child root ks)
include hdescend

theorem Unique.grow (h : Unique child root d) (hfresh : ¬Node child root d m) :
    Unique child' root d := by
  intro ks js n hks hjs hn hn'
  rw [hdescend hks] at hn
  rw [hdescend hjs] at hn'
  split at hn <;> split at hn'
  · simp_all
  · cases hn
    exact absurd ⟨js, hjs, hn'⟩ hfresh
  · cases hn'
    exact absurd ⟨ks, hks, hn⟩ hfresh
  · exact h hks hjs hn hn'

theorem node_grow (hlen : ls.length ≤ d) (hnone : descend child root ls = none) (n : N) :
    Node child' root d n ↔ n = m ∨ Node child root d n := by
  constructor
  · rintro ⟨ks, hks, hn⟩
    rw [hdescend hks] at hn
    split at hn
    · exact .inl (Option.some_inj.mp hn).symm
    · exact .inr ⟨ks, hks, hn⟩
  · rintro (rfl | ⟨ks, hks, hn⟩)
    · exact ⟨ls, hlen, by rw [hdescend hlen, if_pos rfl]⟩
    · have hne : ks ≠ ls := by
        rintro rfl
        exact absurd (hnone.symm.trans hn) (by simp)
      exact ⟨ks, hks, by rw [hdescend hks, if_neg hne, hn]⟩

end Grow

/-! ## Subtrees -/

theorem node_zero : Node child root 0 n ↔ n = root := by
  constructor
  · rintro ⟨ks, hks, hn⟩
    rw [List.length_eq_zero_iff.mp (Nat.le_zero.mp hks)] at hn
    exact (Option.some_inj.mp hn).symm
  · rintro rfl
    exact node_root

theorem node_succ :
    Node child root (d + 1) n ↔ n = root ∨ ∃ k m, child root k = some m ∧ Node child m d n := by
  constructor
  · rintro ⟨ks, hks, hn⟩
    cases ks with
    | nil => exact .inl (Option.some_inj.mp hn).symm
    | cons k ks =>
      cases hk : child root k with
      | none => exact absurd ((descend_cons_of_none hk).symm.trans hn) (by simp)
      | some m =>
        exact .inr ⟨k, m, hk, ks, by simpa using hks, (descend_cons_of_some hk).symm.trans hn⟩
  · rintro (rfl | ⟨k, m, hk, ks, hks, hn⟩)
    · exact node_root
    · exact ⟨k :: ks, by simpa using hks, (descend_cons_of_some hk).trans hn⟩

variable (h : Unique child root (d + 1)) (hk : child root k = some m)
include h hk

theorem Unique.below : Unique child m d := by
  intro ks ls n hks hls hn hn'
  have heq := @h (k :: ks) (k :: ls) n (by simpa using hks) (by simpa using hls)
    ((descend_cons_of_some hk).trans hn) ((descend_cons_of_some hk).trans hn')
  exact (List.cons.inj heq).2

theorem Unique.root_not_node : ¬Node child m d root := by
  rintro ⟨ks, hks, hn⟩
  have heq := @h [] (k :: ks) root (by simp) (by simpa using hks) rfl
    ((descend_cons_of_some hk).trans hn)
  simp at heq

theorem Unique.key_eq {j : K} {l : N}
    (hj : child root j = some l) (hn : Node child m d n) (hn' : Node child l d n) : k = j := by
  obtain ⟨ks, hks, hn⟩ := hn
  obtain ⟨ls, hls, hn'⟩ := hn'
  have heq := @h (k :: ks) (j :: ls) n (by simpa using hks) (by simpa using hls)
    ((descend_cons_of_some hk).trans hn) ((descend_cons_of_some hj).trans hn')
  exact (List.cons.inj heq).1

end Trie
