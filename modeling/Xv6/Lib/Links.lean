import Mathlib.Data.List.Chain
import Mathlib.Data.List.Nodup
import Mathlib.Data.Option.Basic
import Mathlib.Logic.Function.Basic

/-!
# Circular doubly linked lists

A circular list runs through the nodes of type `α` and one more node, its head, which is `none`.
`Circular L l` says that following `next` from the head one comes through the nodes of `l` and back
to the head, and following `prev` one comes the other way.  `remove` and `pushFront` do to the list what
`erase` and `cons` do, and `search` is `find?`.
-/

universe u

/-- The links of all nodes; `none` is the head. -/
structure Links (α : Type u) where
  next : Option α → Option α
  prev : Option α → Option α

namespace Links

variable {α : Type u}

def Joined (L : Links α) (a b : Option α) : Prop := L.next a = b ∧ L.prev b = a

/-- The list in the order of `next`, without the head. -/
structure Circular (L : Links α) (l : List α) : Prop where
  nodup : l.Nodup
  chain : List.IsChain L.Joined (none :: (l.map some ++ [none]))

def flip (L : Links α) : Links α := ⟨L.prev, L.next⟩

/-- `for (b = from; b != head; b = next(b)) if (p(b)) return b`, with enough fuel. -/
def search (next : Option α → Option α) (p : α → Bool) : Nat → Option α → Option α
  | 0, _ => none
  | _ + 1, none => none
  | n + 1, some a => if p a then some a else search next p n (next (some a))

section Search

variable {L : Links α} {l : List α} {p : α → Bool} {n : Nat}

theorem search_of_chain {a : Option α} (h : List.IsChain L.Joined (a :: (l.map some ++ [none])))
    (hn : l.length < n) : search L.next p n (L.next a) = l.find? p := by
  induction l generalizing a n with
  | nil =>
    obtain ⟨⟨hnext, -⟩, -⟩ := List.isChain_cons_cons.mp h
    rw [hnext]
    cases n <;> rfl
  | cons x l ih =>
    obtain ⟨⟨hnext, -⟩, hrest⟩ := List.isChain_cons_cons.mp h
    obtain ⟨n, rfl⟩ : ∃ m, n = m + 1 := ⟨n - 1, by omega⟩
    rw [hnext, search, List.find?_cons]
    cases p x with
    | true => rfl
    | false => exact ih hrest (by simpa using hn)

theorem Circular.search_next (h : Circular L l) (hn : l.length < n) :
    search L.next p n (L.next none) = l.find? p := search_of_chain h.chain hn

theorem Circular.flip (h : Circular L l) : Circular L.flip l.reverse where
  nodup := List.nodup_reverse.mpr h.nodup
  chain := by
    have hrev : none :: (l.reverse.map some ++ [none]) =
        (none :: (l.map some ++ [none])).reverse := by simp
    rw [hrev, List.isChain_reverse]
    exact h.chain.imp fun a b hab => ⟨hab.2, hab.1⟩

theorem Circular.search_prev (h : Circular L l) (hn : l.length < n) :
    search L.prev p n (L.prev none) = l.reverse.find? p :=
  h.flip.search_next (by simpa using hn)

end Search

variable [DecidableEq α]

def setNext (L : Links α) (a b : Option α) : Links α :=
  { L with next := Function.update L.next a b }

def setPrev (L : Links α) (a b : Option α) : Links α :=
  { L with prev := Function.update L.prev a b }

@[simp] theorem next_setNext (L : Links α) (a b x : Option α) :
    (L.setNext a b).next x = if x = a then b else L.next x := Function.update_apply ..

@[simp] theorem prev_setNext (L : Links α) (a b : Option α) : (L.setNext a b).prev = L.prev := rfl

@[simp] theorem prev_setPrev (L : Links α) (a b x : Option α) :
    (L.setPrev a b).prev x = if x = a then b else L.prev x := Function.update_apply ..

@[simp] theorem next_setPrev (L : Links α) (a b : Option α) : (L.setPrev a b).next = L.next := rfl

def remove (L : Links α) (b : α) : Links α :=
  let L := L.setPrev (L.next (some b)) (L.prev (some b))
  L.setNext (L.prev (some b)) (L.next (some b))

def pushFront (L : Links α) (b : α) : Links α :=
  let L := L.setNext (some b) (L.next none)
  let L := L.setPrev (some b) none
  let L := L.setPrev (L.next none) (some b)
  L.setNext none (some b)

def empty (α : Type u) : Links α := ⟨fun _ => none, fun _ => none⟩

section Change

variable {L L' : Links α} {l : List α} {b : α}

omit [DecidableEq α] in
theorem isChain_congr {xs : List (Option α)} (h : List.IsChain L.Joined xs)
    (hnext : ∀ x ∈ xs.dropLast, L'.next x = L.next x) (hprev : ∀ x ∈ xs.tail, L'.prev x = L.prev x) :
    List.IsChain L'.Joined xs := by
  induction xs with
  | nil => exact .nil
  | cons x xs ih =>
    cases xs with
    | nil => exact .singleton x
    | cons y ys =>
      obtain ⟨⟨hxy, hyx⟩, hrest⟩ := List.isChain_cons_cons.mp h
      refine List.isChain_cons_cons.mpr ⟨⟨?_, ?_⟩, ih hrest (fun z hz => hnext z ?_) fun z hz => hprev z ?_⟩
      · rw [hnext x (by simp), hxy]
      · rw [hprev y (by simp), hyx]
      · rw [List.dropLast_cons_cons]
        exact List.mem_cons_of_mem x hz
      · exact List.mem_cons_of_mem y hz

omit [DecidableEq α] in
theorem circular_empty : Circular (empty α) [] where
  nodup := List.nodup_nil
  chain := List.isChain_cons_cons.mpr ⟨⟨rfl, rfl⟩, .singleton _⟩

theorem isChain_remove {xs ys : List (Option α)} {a c : Option α}
    (h : List.IsChain L.Joined (xs ++ a :: some b :: c :: ys)) (hc : c ≠ some b)
    (ha : a ∉ xs) (ha' : a ∉ (c :: ys).dropLast) (hc' : c ∉ (xs ++ [a]).tail) (hc'' : c ∉ ys) :
    List.IsChain (L.remove b).Joined (xs ++ a :: c :: ys) := by
  obtain ⟨hxs, hab, hrest⟩ := List.isChain_append_cons_cons.mp h
  obtain ⟨hbc, hys⟩ := List.isChain_cons_cons.mp hrest
  have hremove : L.remove b = (L.setPrev c a).setNext a c := by
    rw [remove, hbc.1, hab.2, prev_setPrev, if_neg hc.symm, hab.2, next_setPrev, hbc.1]
  have hnext : ∀ x, x ≠ a → (L.remove b).next x = L.next x := fun x hx => by simp [hremove, hx]
  have hprev : ∀ x, x ≠ c → (L.remove b).prev x = L.prev x := fun x hx => by simp [hremove, hx]
  refine List.isChain_append_cons_cons.mpr ⟨isChain_congr hxs (fun x hx => hnext x ?_)
    (fun x hx => hprev x fun hxc => hc' (hxc ▸ hx)), ⟨?_, ?_⟩,
    isChain_congr hys (fun x hx => hnext x fun hxa => ha' (hxa ▸ hx))
      (fun x hx => hprev x fun hxc => hc'' (hxc ▸ hx))⟩
  · rintro rfl
    exact ha (by simpa using hx)
  · simp [hremove]
  · simp [hremove]

theorem Circular.remove (h : Circular L l) (hb : b ∈ l) : Circular (L.remove b) (l.erase b) := by
  refine ⟨h.nodup.erase b, ?_⟩
  obtain ⟨l₁, l₂, rfl⟩ := List.append_of_mem hb
  obtain ⟨hb', hnodup⟩ := List.nodup_cons.mp (List.nodup_middle.mp h.nodup)
  obtain ⟨hb₁, hb₂⟩ := not_or.mp (hb' ∘ List.mem_append.mpr)
  obtain ⟨h₁, h₂, hdisj⟩ := List.nodup_append.mp hnodup
  have herase : (l₁ ++ b :: l₂).erase b = l₁ ++ l₂ := by
    rw [List.erase_append_right _ hb₁, List.erase_cons_head]
  -- the nodes before and behind
  obtain ⟨xs, a, hxs⟩ : ∃ xs a, none :: l₁.map some = xs ++ [a] :=
    (List.eq_nil_or_concat' _).resolve_left (by simp)
  obtain ⟨c, ys, hys⟩ : ∃ c ys, l₂.map some ++ [none] = c :: ys :=
    List.exists_cons_of_ne_nil (by simp)
  have hchain := h.chain
  have hold : none :: ((l₁ ++ b :: l₂).map some ++ [none]) = xs ++ a :: some b :: c :: ys := by
    rw [List.map_append, List.map_cons, List.append_assoc, List.cons_append, hys, ← List.cons_append,
      hxs, List.append_assoc, List.singleton_append]
  have hnew : none :: ((l₁ ++ l₂).map some ++ [none]) = xs ++ a :: c :: ys := by
    rw [List.map_append, List.append_assoc, hys, ← List.cons_append, hxs, List.append_assoc,
      List.singleton_append]
  rw [hold] at hchain
  rw [herase, hnew]
  have ha : a ∈ none :: l₁.map some := hxs ▸ List.mem_append_right xs List.mem_cons_self
  have hc : c ∈ l₂.map some ++ [none] := hys ▸ List.mem_cons_self
  have hxs' : (xs ++ [a]).Nodup := hxs ▸ List.nodup_cons.mpr
    ⟨by simp, h₁.map (Option.some_injective α)⟩
  have hys' : (c :: ys).Nodup := by
    rw [← hys, List.nodup_append_comm]
    exact List.nodup_cons.mpr ⟨by simp, h₂.map (Option.some_injective α)⟩
  refine isChain_remove hchain ?_ ?_ ?_ ?_ (List.nodup_cons.mp hys').1
  · rintro rfl
    exact hb₂ (by simpa using hc)
  · exact fun hmem => (List.nodup_append.mp hxs').2.2 a hmem a (by simp) rfl
  · rw [← hys, List.dropLast_concat]
    intro hmem
    obtain ⟨x, hx, rfl⟩ := List.mem_map.mp hmem
    exact hdisj x (by simpa using ha) x hx rfl
  · rw [← hxs, List.tail_cons]
    intro hmem
    obtain ⟨x, hx, rfl⟩ := List.mem_map.mp hmem
    exact hdisj x hx x (by simpa using hc) rfl

theorem Circular.pushFront (h : Circular L l) (hb : b ∉ l) : Circular (L.pushFront b) (b :: l) := by
  refine ⟨List.nodup_cons.mpr ⟨hb, h.nodup⟩, ?_⟩
  obtain ⟨c, ys, hys⟩ : ∃ c ys, l.map some ++ [none] = c :: ys :=
    List.exists_cons_of_ne_nil (by simp)
  have hchain := h.chain
  rw [hys] at hchain
  obtain ⟨⟨hnext, -⟩, hrest⟩ := List.isChain_cons_cons.mp hchain
  have hc : c ∈ l.map some ++ [none] := hys ▸ List.mem_cons_self
  have hcb : c ≠ some b := by
    rintro rfl
    exact hb (by simpa using hc)
  have hys' : (c :: ys).Nodup := by
    rw [← hys, List.nodup_append_comm]
    exact List.nodup_cons.mpr ⟨by simp, h.nodup.map (Option.some_injective α)⟩
  have hpush : L.pushFront b =
      (((L.setNext (some b) c).setPrev (some b) none).setPrev c (some b)).setNext none (some b) := by
    simp only [Links.pushFront, hnext, next_setPrev, next_setNext, reduceCtorEq, if_false]
  rw [hpush, List.map_cons, List.cons_append, hys]
  refine List.isChain_cons_cons.mpr ⟨⟨by simp, by simp [hcb.symm]⟩,
    List.isChain_cons_cons.mpr ⟨⟨by simp, by simp⟩, isChain_congr hrest (fun x hx => ?_)
      fun x hx => ?_⟩⟩
  · rw [← hys, List.dropLast_concat] at hx
    obtain ⟨y, hy, rfl⟩ := List.mem_map.mp hx
    have hyb : y ≠ b := fun heq => hb (heq ▸ hy)
    simp [hyb]
  · have hxc : x ≠ c := fun heq => (List.nodup_cons.mp hys').1 (heq ▸ hx)
    have hxb : x ≠ some b := by
      rintro rfl
      have hmem : some b ∈ l.map some ++ [none] := hys ▸ List.mem_cons_of_mem c hx
      exact hb (by simpa using hmem)
    simp [hxc, hxb]

end Change

end Links
