import Xv6.Umalloc.Calls
import Xv6.Lib.Path
import Xv6.Lib.Segment

/-!
# The free list

The free blocks are a list of segments, and `Rep base m F` says that the list in memory that starts at
`base` and comes back to it runs through their headers.
-/

namespace Xv6.Umalloc

open Linked Machine
open List (Sublist append_assoc mem_append mem_append_left mem_append_right mem_cons mem_cons_of_mem
  mem_cons_self mem_map mem_map_of_mem mem_singleton mem_singleton_self nodup_append nodup_cons
  pairwise_cons)

variable {base lo top n : Nat} {m : Mem} {s : State} {A C F L : List Seg} {b f : Seg} {p bp : Nat}

def Mem.next (m : Mem) (a : Nat) : Nat := (m a).ptr

def nodes (base : Nat) (F : List Seg) : List Nat := base :: F.map Seg.start

/-- The list that starts at `base` runs through the free blocks `F`. -/
structure Rep (base : Nat) (m : Mem) (F : List Seg) : Prop where
  path : Path m.next base (nodes base F) base
  zero : (m base).size = 0
  size : ∀ f ∈ F, (m f.start).size.toNat = f.len

/-- The last node before the blocks `C`. -/
def lastNode (base : Nat) (A : List Seg) : Nat := (A.getLast?.map Seg.start).getD base

@[simp] theorem lastNode_append (base : Nat) (A : List Seg) (a : Seg) :
    lastNode base (A ++ [a]) = a.start := by
  simp [lastNode]

theorem exists_nodes (base : Nat) (A : List Seg) :
    ∃ N, nodes base A = N ++ [lastNode base A] := by
  rcases List.eq_nil_or_concat A with rfl | ⟨A, a, rfl⟩
  · exact ⟨[], rfl⟩
  · rw [List.concat_eq_append]
    exact ⟨nodes base A, by simp [nodes]⟩

theorem nodes_append (base : Nat) (A C : List Seg) :
    nodes base (A ++ C) = nodes base A ++ C.map Seg.start := by
  simp [nodes]

/-! ## `search` -/

/-- The loop of `free` goes on at `p`. -/
def Skips (m : Mem) (bp p : Nat) : Prop :=
  ¬(bp > p ∧ bp < m.next p) ∧ ¬(p ≥ m.next p ∧ (bp > p ∨ bp < m.next p))

theorem search_path {xs : List Nat} {q : Nat} (h : Path m.next p xs q) (hskip : ∀ x ∈ xs, Skips m bp x)
    (n : Nat) : search m bp (n + xs.length) p = search m bp n q := by
  induction xs generalizing p with
  | nil => rw [h]; rfl
  | cons x xs ih =>
    obtain ⟨rfl, hpath⟩ := h
    obtain ⟨h₁, h₂⟩ := hskip p mem_cons_self
    have hstep : search m bp (n + (p :: xs).length) p = search m bp (n + xs.length) (m.next p) := by
      show search m bp (n + xs.length + 1) p = _
      rw [search]
      exact (if_neg h₁).trans (if_neg h₂)
    rw [hstep]
    exact ih hpath fun y hy => hskip y (mem_cons_of_mem p hy)

theorem lt_next_of_path {xs : List Nat} {a q : Nat} (h : Path m.next a xs q)
    (hsorted : (xs ++ [q]).Pairwise (· < ·)) : ∀ x ∈ xs, x < m.next x ∧ m.next x ≤ q := by
  induction xs generalizing a with
  | nil => nofun
  | cons x xs ih =>
    obtain ⟨hx, hrest⟩ := pairwise_cons.mp hsorted
    have hmem : m.next x ∈ xs ++ [q] := by
      cases xs with
      | nil => exact mem_singleton.mpr h.2
      | cons y xs => exact h.2.1 ▸ mem_cons_self
    intro y hy
    rcases mem_cons.mp hy with rfl | hy
    · refine ⟨hx _ hmem, ?_⟩
      rcases mem_append.mp hmem with hmem | hmem
      · exact ((List.pairwise_append.mp hrest).2.2 _ hmem q (mem_singleton_self q)).le
      · exact (mem_singleton.mp hmem).le
    · exact ih h.2 hrest y hy

theorem lt_next_or_eq_of_path {xs : List Nat} {a : Nat} (h : Path m.next a xs base)
    (hsorted : xs.Pairwise (· < ·)) : ∀ x ∈ xs, x < m.next x ∨ m.next x = base := by
  induction xs generalizing a with
  | nil => nofun
  | cons x xs ih =>
    obtain ⟨hx, hrest⟩ := pairwise_cons.mp hsorted
    intro y hy
    rcases mem_cons.mp hy with rfl | hy
    · cases xs with
      | nil => exact .inr h.2
      | cons z xs =>
        refine .inl (hx _ ?_)
        exact h.2.1 ▸ mem_cons_self
    · exact ih h.2 hrest y hy

/-- **The loop of `free` finds the last node before the block.** -/
theorem search_eq (h : Rep base m (A ++ C)) (hsorted : (nodes base (A ++ C)).Pairwise (· < ·))
    (hbase : base < bp) (hA : ∀ a ∈ A, a.start < bp) (hC : ∀ c ∈ C, bp < c.start)
    (hp : p ∈ nodes base (A ++ C)) (hn : (A ++ C).length + 2 ≤ n) :
    search m bp n p = some (lastNode base A) := by
  obtain ⟨N, hN⟩ := exists_nodes base A
  set q := lastNode base A with hq
  have hnodes : nodes base (A ++ C) = N ++ q :: C.map Seg.start := by
    rw [nodes_append, hN, append_assoc]
    rfl
  have hlen : (nodes base (A ++ C)).length = (A ++ C).length + 1 := by simp [nodes]
  obtain ⟨ys, hpath, hnot, hsub, hle⟩ := h.path.exists_path hp (y := q) (by rw [hnodes]; simp)
  have hbefore : ∀ x ∈ N ++ [q], x < bp := by
    rw [← hN]
    rintro x hx
    rcases mem_cons.mp hx with rfl | hx
    · exact hbase
    · obtain ⟨a, ha, rfl⟩ := mem_map.mp hx
      exact hA a ha
  have hleast : base ≤ q := by
    have hq : q ∈ nodes base (A ++ C) := by simp [hnodes]
    rcases mem_cons.mp hq with hq | hq
    · exact hq.ge
    · exact ((pairwise_cons.mp hsorted).1 q hq).le
  have hcircle := h.path
  rw [hnodes] at hcircle hsorted hsub
  obtain ⟨hup, hdown⟩ := path_append_cons.mp hcircle
  obtain ⟨hsortN, hsortC, -⟩ := List.pairwise_append.mp hsorted
  obtain ⟨-, hsortC⟩ := pairwise_cons.mp hsortC
  have hsortN' : (N ++ [q]).Pairwise (· < ·) := by
    refine hsorted.sublist ?_
    exact (Sublist.refl N).append (List.singleton_sublist.mpr mem_cons_self)
  have hlast : q < bp := hbefore q (mem_append_right N (mem_singleton_self q))
  have hfound : ∀ k, search m bp (k + 1) q = some q := by
    intro k
    rw [search]
    cases C with
    | nil =>
      have hnext : (m q).ptr = base := hdown
      rw [hnext, if_neg (by omega), if_pos ⟨hleast, .inl hlast⟩]
    | cons c C =>
      have hnext : (m q).ptr = c.start := hdown.1
      rw [hnext, if_pos ⟨hlast, hC c mem_cons_self⟩]
  obtain ⟨k, rfl⟩ : ∃ k, n = k + 1 + ys.length := ⟨n - 1 - ys.length, by omega⟩
  rw [search_path hpath (fun x hx => ?_), hfound]
  rcases mem_append.mp (hsub hx) with hxN | hxC
  · have hlt := lt_next_of_path hup hsortN' x hxN
    exact ⟨by omega, by omega⟩
  · rcases mem_cons.mp hxC with rfl | hxC
    · exact absurd hx hnot
    · have hlt := lt_next_or_eq_of_path hdown hsortC x hxC
      obtain ⟨c, hc, rfl⟩ := mem_map.mp hxC
      have := hC c hc
      exact ⟨by omega, by omega⟩

/-! ## Linking a block in -/

section Mem

variable (m : Mem) (a v x : Nat) (k : UInt32)

@[simp] theorem Mem.setPtr_self : (m.setPtr a v) a = { m a with ptr := v } := Function.update_self ..

@[simp] theorem Mem.setSize_self : (m.setSize a k) a = { m a with size := k } :=
  Function.update_self ..

variable {a x}

theorem Mem.setPtr_of_ne (h : x ≠ a) : (m.setPtr a v) x = m x := Function.update_of_ne h ..

theorem Mem.setSize_of_ne (h : x ≠ a) : (m.setSize a k) x = m x := Function.update_of_ne h ..

variable (a x)

@[simp] theorem Mem.setPtr_size : ((m.setPtr a v) x).size = (m x).size := by
  by_cases hx : x = a
  · rw [hx, setPtr_self]
  · rw [setPtr_of_ne _ _ hx]

@[simp] theorem Mem.setSize_next : (m.setSize a k).next x = m.next x := by
  by_cases hx : x = a
  · rw [next, hx, setSize_self]
    rfl
  · rw [next, setSize_of_ne _ _ hx]
    rfl

end Mem

theorem Mem.next_congr {m m' : Mem} {a q : Nat} {G : List Seg} (h : Path m.next a (G.map Seg.start) q)
    (hm : ∀ g ∈ G, m' g.start = m g.start) : Path m'.next a (G.map Seg.start) q := by
  refine h.congr fun x hx => ?_
  obtain ⟨g, hg, rfl⟩ := mem_map.mp hx
  rw [Mem.next, Mem.next, hm g hg]

theorem toNat_add_of_lt {x y : UInt32} (h : x.toNat + y.toNat < 2 ^ 32) :
    (x + y).toNat = x.toNat + y.toNat := by
  rw [UInt32.toNat_add, Nat.mod_eq_of_lt h]

theorem joinUpper_of_ne {x : Nat} (h : x ≠ bp) : joinUpper m p bp x = m x := by
  rw [joinUpper]
  split
  · rw [Mem.setPtr_of_ne _ _ h, Mem.setSize_of_ne _ _ h]
  · rw [Mem.setPtr_of_ne _ _ h]

theorem joinLower_of_ne {x : Nat} (h : x ≠ p) : joinLower m p bp x = m x := by
  rw [joinLower]
  split
  · rw [Mem.setPtr_of_ne _ _ h, Mem.setSize_of_ne _ _ h]
  · rw [Mem.setPtr_of_ne _ _ h]

theorem joinUpper_spec (hpath : Path m.next (m p).ptr (C.map Seg.start) base) (hbase : base < b.start)
    (hb : (m b.start).size.toNat = b.len) (hC : ∀ c ∈ C, (m c.start).size.toNat = c.len)
    (hne : ∀ c ∈ C, c.start ≠ b.start) (hlt : b.len + Seg.total C < 2 ^ 32) :
    Path (joinUpper m p b.start).next (joinUpper m p b.start b.start).ptr
      ((Seg.joinRight b C).2.map Seg.start) base ∧
    (joinUpper m p b.start b.start).size.toNat = (Seg.joinRight b C).1.len := by
  have hframe : ∀ c ∈ C, joinUpper m p b.start c.start = m c.start := fun c hc =>
    joinUpper_of_ne (hne c hc)
  have hstop : m.stop b.start = b.stop := by rw [Mem.stop, hb]; rfl
  cases C with
  | nil =>
    have hptr : (m p).ptr = base := hpath
    have hnot : ¬m.stop b.start = (m p).ptr := by
      have := b.start_lt_stop
      omega
    simp only [joinUpper, if_neg hnot, Mem.setPtr_self, Seg.joinRight]
    exact ⟨hptr, hb⟩
  | cons c C =>
    obtain ⟨hptr, hrest⟩ := hpath
    by_cases heq : b.stop = c.start
    · have hc := hC c mem_cons_self
      have hrest' := Mem.next_congr hrest fun d hd => hframe d (mem_cons_of_mem c hd)
      rw [Seg.total_cons] at hlt
      simp only [Seg.joinRight, if_pos heq]
      have hval : joinUpper m p b.start b.start =
          ⟨(m c.start).ptr, (m b.start).size + (m c.start).size⟩ := by
        rw [joinUpper, hstop, hptr, if_pos heq, Mem.setPtr_self, Mem.setSize_self]
      rw [hval]
      refine ⟨hrest', ?_⟩
      rw [toNat_add_of_lt (by omega), hb, hc]
      rfl
    · have hval : joinUpper m p b.start b.start = ⟨c.start, (m b.start).size⟩ := by
        rw [joinUpper, hstop, hptr, if_neg heq, Mem.setPtr_self]
      rw [hval]
      simp only [Seg.joinRight, if_neg heq]
      exact ⟨Mem.next_congr (G := c :: C) ⟨rfl, hrest⟩ hframe, hb⟩

theorem joinLower_spec (hpath : Path m.next base (nodes base A) (m (lastNode base A)).ptr)
    (hzero : (m base).size = 0) (hA : ∀ a ∈ A, (m a.start).size.toNat = a.len)
    (hrest : Path m.next (m b.start).ptr (C.map Seg.start) base)
    (hb : (m b.start).size.toNat = b.len) (hC : ∀ c ∈ C, (m c.start).size.toNat = c.len)
    (hsorted : (nodes base (A ++ b :: C)).Pairwise (· < ·)) (hlt : Seg.total A + b.len < 2 ^ 32) :
    Rep base (joinLower m (lastNode base A) b.start) (Seg.joinLeft A b ++ C) := by
  have hnodup : (nodes base (A ++ b :: C)).Nodup := hsorted.imp Nat.ne_of_lt
  rcases List.eq_nil_or_concat A with rfl | ⟨A, a, rfl⟩
  · have hne : ∀ f ∈ b :: C, f.start ≠ base := by
      intro f hf heq
      exact (nodup_cons.mp hnodup).1 (heq ▸ mem_map_of_mem hf)
    have hnot : ¬m.stop base = b.start := by
      rw [Mem.stop, hzero]
      exact (hne b mem_cons_self).symm
    have hframe : ∀ f ∈ b :: C, joinLower m base b.start f.start = m f.start := fun f hf =>
      joinLower_of_ne (hne f hf)
    have hval : joinLower m base b.start base = { m base with ptr := b.start } := by
      rw [joinLower, if_neg hnot, Mem.setPtr_self]
    refine ⟨⟨rfl, ?_⟩, ?_, fun f hf => ?_⟩
    · show Path _ (joinLower m base b.start base).ptr _ base
      rw [hval]
      exact Mem.next_congr (G := b :: C) ⟨rfl, hrest⟩ hframe
    · show (joinLower m base b.start base).size = 0
      rw [hval]
      exact hzero
    · show (joinLower m base b.start f.start).size.toNat = f.len
      rw [hframe f hf]
      rcases mem_cons.mp hf with rfl | hf
      · exact hb
      · exact hC f hf
  · rw [List.concat_eq_append] at hpath hA hsorted hnodup hlt ⊢
    rw [lastNode_append] at hpath ⊢
    have hsplit : nodes base (A ++ [a] ++ b :: C) =
        nodes base A ++ a.start :: (b :: C).map Seg.start := by simp [nodes]
    rw [hsplit] at hnodup
    obtain ⟨hnodes, hrest', hdisj⟩ := nodup_append.mp hnodup
    have hneA : ∀ x ∈ nodes base A, x ≠ a.start := fun x hx => hdisj x hx _ mem_cons_self
    have hneC : ∀ f ∈ b :: C, f.start ≠ a.start := fun f hf heq =>
      (nodup_cons.mp hrest').1 (heq ▸ mem_map_of_mem hf)
    have hframe : ∀ f ∈ b :: C, joinLower m a.start b.start f.start = m f.start := fun f hf =>
      joinLower_of_ne (hneC f hf)
    have hup : Path (joinLower m a.start b.start).next base (nodes base A) a.start := by
      rw [nodes_append] at hpath
      refine (path_append_cons.mp hpath).1.congr fun x hx => ?_
      rw [Mem.next, Mem.next, joinLower_of_ne (hneA x hx)]
    have hstop : m.stop a.start = a.stop := by
      rw [Mem.stop, hA a (mem_append_right A (mem_singleton_self a))]
      rfl
    have hzero' : (joinLower m a.start b.start base).size = 0 := by
      rw [joinLower_of_ne (hneA base mem_cons_self), hzero]
    have hsize : ∀ f ∈ A ++ C, (joinLower m a.start b.start f.start).size.toNat = f.len := by
      intro f hf
      rcases mem_append.mp hf with hf | hf
      · rw [joinLower_of_ne (hneA _ (mem_cons_of_mem base (mem_map_of_mem hf)))]
        exact hA f (mem_append_left _ hf)
      · rw [hframe f (mem_cons_of_mem b hf)]
        exact hC f hf
    rw [Seg.joinLeft_append_singleton]
    split
    · rename_i heq
      have hval : joinLower m a.start b.start a.start =
          ⟨(m b.start).ptr, (m a.start).size + (m b.start).size⟩ := by
        rw [joinLower, hstop, if_pos heq, Mem.setPtr_self, Mem.setSize_self]
      refine ⟨?_, hzero', fun f hf => ?_⟩
      · have hjoin : nodes base (A ++ [a.join b] ++ C) =
            nodes base A ++ a.start :: C.map Seg.start := by simp [nodes]
        rw [hjoin, path_append_cons, Mem.next, hval]
        exact ⟨hup, Mem.next_congr hrest fun c hc => hframe c (mem_cons_of_mem b hc)⟩
      · by_cases hfa : f = a.join b
        · have ha := hA a (mem_append_right A (mem_singleton_self a))
          simp only [Seg.total_append, Seg.total_cons, Seg.total_nil] at hlt
          rw [hfa, Seg.join_start, hval, toNat_add_of_lt (by omega), ha, hb]
          rfl
        · refine hsize f ?_
          simpa [hfa] using hf
    · rename_i hne
      have hval : joinLower m a.start b.start a.start = { m a.start with ptr := b.start } := by
        rw [joinLower, hstop, if_neg hne, Mem.setPtr_self]
      refine ⟨?_, hzero', fun f hf => ?_⟩
      · have hjoin : nodes base (A ++ [a, b] ++ C) =
            nodes base A ++ a.start :: (b :: C).map Seg.start := by simp [nodes]
        rw [hjoin, path_append_cons, Mem.next, hval]
        exact ⟨hup, Mem.next_congr (G := b :: C) ⟨rfl, hrest⟩ hframe⟩
      · simp only [mem_append, mem_cons, List.not_mem_nil, or_false] at hf
        rcases hf with (hf | rfl | rfl) | hf
        · exact hsize f (mem_append_left C hf)
        · rw [hval]
          exact hA f (mem_append_right A (mem_singleton_self f))
        · rw [hframe f mem_cons_self]
          exact hb
        · exact hsize f (mem_append_right A hf)

/-- **`free` puts the block into the list**, joined with its neighbours. -/
theorem Rep.link (h : Rep base m (A ++ C))
    (hsorted : (nodes base (A ++ b :: C)).Pairwise (· < ·))
    (hb : (m b.start).size.toNat = b.len) (hlt : Seg.total (A ++ C) + b.len < 2 ^ 32) :
    Rep base (joinLower (joinUpper m (lastNode base A) b.start) (lastNode base A) b.start)
      (Seg.insert A b C) := by
  rw [Seg.total_append] at hlt
  obtain ⟨N, hN⟩ := exists_nodes base A
  have hsplit : nodes base (A ++ b :: C) = nodes base A ++ b.start :: C.map Seg.start := by
    simp [nodes]
  have hnodup : (nodes base (A ++ b :: C)).Nodup := hsorted.imp Nat.ne_of_lt
  rw [hsplit] at hnodup
  obtain ⟨-, hrest', hdisj⟩ := nodup_append.mp hnodup
  have hneA : ∀ x ∈ nodes base A, x ≠ b.start := fun x hx => hdisj x hx _ mem_cons_self
  have hneC : ∀ c ∈ C, c.start ≠ b.start := fun c hc heq =>
    (nodup_cons.mp hrest').1 (heq ▸ mem_map_of_mem hc)
  have hbase : base < b.start := (pairwise_cons.mp hsorted).1 _ (by simp)
  set q := lastNode base A with hq
  have hqne : q ≠ b.start := hneA q (by rw [hN]; simp)
  have hpath := h.path
  have hnodes : nodes base (A ++ C) = N ++ q :: C.map Seg.start := by
    rw [nodes_append, hN, append_assoc]
    rfl
  rw [hnodes, path_append_cons] at hpath
  obtain ⟨hright, hsize⟩ := joinUpper_spec (p := q) hpath.2 hbase hb
    (fun c hc => h.size c (mem_append_right A hc)) hneC (by omega)
  have htotal := Seg.total_joinRight b C
  have hstart : (Seg.joinRight b C).1.start = b.start := Seg.joinRight_start b C
  have hsub := Seg.joinRight_sublist b C
  suffices hlower : Rep base (joinLower (joinUpper m q b.start) q (Seg.joinRight b C).1.start)
      (Seg.joinLeft A (Seg.joinRight b C).1 ++ (Seg.joinRight b C).2) by
    rw [hstart] at hlower
    exact hlower
  refine joinLower_spec ?_ ?_ ?_ ?_ ?_ ?_ ?_ ?_
  · rw [← hq, hN, joinUpper_of_ne hqne]
    refine path_append_cons.mpr ⟨hpath.1.congr fun x hx => ?_, ?_⟩
    · rw [Mem.next, Mem.next, joinUpper_of_ne (hneA x (hN ▸ mem_append_left _ hx))]
    · show (joinUpper m q b.start q).ptr = _
      rw [joinUpper_of_ne hqne]
  · rw [joinUpper_of_ne (hneA base mem_cons_self)]
    exact h.zero
  · intro a ha
    rw [joinUpper_of_ne (hneA _ (mem_cons_of_mem base (mem_map_of_mem ha)))]
    exact h.size a (mem_append_left C ha)
  · rw [hstart]
    exact hright
  · rw [hstart]
    exact hsize
  · intro c hc
    rw [joinUpper_of_ne (hneC c (hsub.subset hc))]
    exact h.size c (mem_append_right A (hsub.subset hc))
  · rw [hsplit] at hsorted
    have hnew : nodes base (A ++ (Seg.joinRight b C).1 :: (Seg.joinRight b C).2) =
        nodes base A ++ b.start :: (Seg.joinRight b C).2.map Seg.start := by simp [nodes, hstart]
    rw [hnew]
    exact hsorted.sublist ((Sublist.refl _).append ((hsub.map _).cons_cons _))
  · omega

theorem lastNode_mem_insert (base : Nat) (A : List Seg) (b : Seg) (C : List Seg) :
    lastNode base A ∈ nodes base (Seg.insert A b C) := by
  rcases List.eq_nil_or_concat A with rfl | ⟨A, a, rfl⟩
  · exact mem_cons_self
  · rw [List.concat_eq_append, lastNode_append, Seg.insert, Seg.joinLeft_append_singleton]
    split <;> simp [nodes]

/-! ## Taking memory away -/

variable (h : Rep base m (A ++ f :: C))
include h

theorem Rep.split : ∃ N, nodes base A = N ++ [lastNode base A] ∧
    Path m.next base N (lastNode base A) ∧ m.next (lastNode base A) = f.start ∧
    Path m.next (m.next f.start) (C.map Seg.start) base := by
  obtain ⟨N, hN⟩ := exists_nodes base A
  have hpath := h.path
  have hnodes : nodes base (A ++ f :: C) = N ++ lastNode base A :: (f :: C).map Seg.start := by
    rw [nodes_append, hN, append_assoc]
    rfl
  rw [hnodes, path_append_cons] at hpath
  exact ⟨N, hN, hpath.1, hpath.2.1, hpath.2.2⟩

theorem Rep.eq_lastNode (hsorted : (nodes base (A ++ f :: C)).Pairwise (· < ·))
    (hp : p ∈ nodes base (A ++ f :: C))
    (hnext : m.next p = f.start) : p = lastNode base A := by
  obtain ⟨N, hN, hup, -, hdown⟩ := h.split
  have hnodes : nodes base (A ++ f :: C) = N ++ [lastNode base A] ++ (f :: C).map Seg.start := by
    rw [nodes_append, hN]
  have hbase : base < f.start := (pairwise_cons.mp hsorted).1 _ (by simp)
  rw [hnodes] at hsorted hp
  obtain ⟨hsortN, hsortC, hlt⟩ := List.pairwise_append.mp hsorted
  rcases mem_append.mp hp with hp | hp
  · rcases mem_append.mp hp with hp | hp
    · have hle := (lt_next_of_path hup hsortN p hp).2
      have := hlt _ (mem_append_right N (mem_singleton_self _)) f.start mem_cons_self
      omega
    · exact mem_singleton.mp hp
  · have hpath : Path m.next f.start ((f :: C).map Seg.start) base := ⟨rfl, hdown⟩
    have hor := lt_next_or_eq_of_path hpath hsortC p hp
    have hle : f.start ≤ p := by
      rcases mem_cons.mp hp with rfl | hp
      · exact le_rfl
      · exact ((pairwise_cons.mp hsortC).1 p hp).le
    omega

theorem Rep.unlink (hnodup : (nodes base (A ++ f :: C)).Nodup) :
    Rep base (m.setPtr (lastNode base A) (m f.start).ptr) (A ++ C) := by
  obtain ⟨N, hN, hup, -, hdown⟩ := h.split
  have hnodes : nodes base (A ++ f :: C) = N ++ lastNode base A :: (f :: C).map Seg.start := by
    rw [nodes_append, hN, append_assoc]
    rfl
  rw [hnodes] at hnodup
  set q := lastNode base A
  obtain ⟨-, hrest, hdisj⟩ := nodup_append.mp hnodup
  refine ⟨?_, (m.setPtr_size ..).trans h.zero, fun g hg => ?_⟩
  · rw [nodes_append, hN, append_assoc]
    refine path_append_cons.mpr ⟨hup.congr fun x hx => ?_, ?_⟩
    · rw [Mem.next, Mem.next, Mem.setPtr_of_ne _ _ (hdisj x hx q mem_cons_self)]
    · rw [Mem.next, Mem.setPtr_self]
      refine Mem.next_congr hdown fun c hc => Mem.setPtr_of_ne _ _ fun heq => ?_
      exact (nodup_cons.mp hrest).1 (heq ▸ mem_map_of_mem (mem_cons_of_mem f hc))
  · rw [Mem.setPtr_size]
    refine h.size g ?_
    simp only [mem_append, mem_cons] at hg ⊢
    exact hg.imp_right .inr

theorem Rep.shrink {m' : Mem} {g : Seg} (hg : g.start = f.start)
    (hptr : ∀ x ∈ nodes base (A ++ f :: C), m'.next x = m.next x)
    (hsize : ∀ x ∈ nodes base (A ++ f :: C), x ≠ f.start → (m' x).size = (m x).size)
    (hf : (m' f.start).size.toNat = g.len) (hnodup : (nodes base (A ++ f :: C)).Nodup) :
    Rep base m' (A ++ g :: C) := by
  have hnodes : nodes base (A ++ g :: C) = nodes base (A ++ f :: C) := by simp [nodes, hg]
  have hne : ∀ x ∈ A ++ C, x.start ≠ f.start ∧ x.start ∈ nodes base (A ++ f :: C) := by
    intro x hx
    rw [nodes_append] at hnodup ⊢
    obtain ⟨-, hrest, hdisj⟩ := nodup_append.mp hnodup
    rcases mem_append.mp hx with hx | hx
    · have hmem := mem_cons_of_mem base (mem_map_of_mem (f := Seg.start) hx)
      exact ⟨hdisj _ hmem _ mem_cons_self, mem_append_left _ hmem⟩
    · have hmem := mem_map_of_mem (f := Seg.start) hx
      exact ⟨fun heq => (nodup_cons.mp hrest).1 (heq ▸ hmem),
        mem_append_right _ (mem_cons_of_mem _ hmem)⟩
  have hbase : base ≠ f.start := fun heq => (nodup_cons.mp hnodup).1 (by simp [heq])
  refine ⟨?_, ?_, fun x hx => ?_⟩
  · rw [hnodes]
    exact h.path.congr hptr
  · rw [hsize base mem_cons_self hbase]
    exact h.zero
  · rcases mem_append.mp hx with hx | hx
    · obtain ⟨hne, hmem⟩ := hne x (mem_append_left C hx)
      rw [hsize _ hmem hne]
      exact h.size x (mem_append_left _ hx)
    · rcases mem_cons.mp hx with rfl | hx
      · rw [hg]
        exact hf
      · obtain ⟨hne, hmem⟩ := hne x (mem_append_right A hx)
        rw [hsize _ hmem hne]
        exact h.size x (mem_append_right A (mem_cons_of_mem f hx))

end Xv6.Umalloc
