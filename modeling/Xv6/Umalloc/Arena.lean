import Xv6.Umalloc.FreeList

/-!
# The arena of `malloc`

The memory between the first break, `lo`, and the present one is divided into the free blocks `F` and
the blocks in use `L` (`Arena`).  Every call keeps it so, as long as the sizes do not wrap: `size` has
32 bits, so less than `2^32` units may come from `sbrk` in all.
-/

namespace Xv6.Umalloc

open Linked Machine
open List (Sublist append_nil forall_mem_cons mem_append mem_append_left mem_append_right mem_cons
  mem_cons_of_mem mem_cons_self mem_map pairwise_cons)

variable {base lo top n nu : Nat} {m : Mem} {s t : State} {A C F L : List Seg} {b f x : Seg} {p bp : Nat}

/-- The memory from `lo` to the break is divided into free blocks and blocks in use. -/
structure Arena (base lo : Nat) (s : State) (F L : List Seg) : Prop where
  /-- The list from `base` runs through the free blocks and back. -/
  rep : Rep base s.mem F
  size : ∀ x ∈ L, (s.mem x.start).size.toNat = x.len
  freep : s.freep ∈ nodes base F
  live : s.live.Perm (L.map Seg.start)
  spaced : Seg.Spaced F
  apart : ∀ x ∈ L, ∀ f ∈ F, x.Disjoint f
  disjoint : L.Pairwise Seg.Disjoint
  bound : ∀ x ∈ F ++ L, lo ≤ x.start ∧ x.stop ≤ s.brk
  total : lo + Seg.total F + Seg.total L = s.brk

def SameOn (x : Seg) (m m' : Mem) : Prop := ∀ k, x.start ≤ k → k < x.stop → m' k = m k

theorem SameOn.start {m m' : Mem} (h : SameOn x m m') : m' x.start = m x.start :=
  h _ le_rfl x.start_lt_stop

theorem ne_of_disjoint {k : Nat} (h : x.Disjoint f) (hk : x.start ≤ k) (hk' : k < x.stop) :
    k ≠ f.start := by
  have := f.start_lt_stop
  rcases h with h | h <;> omega

theorem sorted_nodes (hbase : base < lo) (hspaced : Seg.Spaced F) (hlo : ∀ f ∈ F, lo ≤ f.start) :
    (nodes base F).Pairwise (· < ·) := by
  refine pairwise_cons.mpr ⟨fun y hy => ?_, ?_⟩
  · obtain ⟨f, hf, rfl⟩ := mem_map.mp hy
    exact hbase.trans_le (hlo f hf)
  · exact List.pairwise_map.mpr (hspaced.imp fun {a _} h => a.start_lt_stop.trans h)

section

variable (hbase : base < lo)
include hbase

theorem Arena.sorted (h : Arena base lo s F L) : (nodes base F).Pairwise (· < ·) :=
  sorted_nodes hbase h.spaced fun f hf => (h.bound f (mem_append_left L hf)).1

theorem Arena.nodup (h : Arena base lo s F L) : (nodes base F).Nodup :=
  (h.sorted hbase).imp Nat.ne_of_lt

theorem Arena.notMem_nodes (h : Arena base lo s F L) (hx : x ∈ L) {k : Nat} (hk : x.start ≤ k)
    (hk' : k < x.stop) : k ∉ nodes base F := by
  intro hmem
  rcases mem_cons.mp hmem with rfl | hmem
  · have := (h.bound x (mem_append_right F hx)).1
    omega
  · obtain ⟨f, hf, rfl⟩ := mem_map.mp hmem
    exact ne_of_disjoint (h.apart x hx f hf) hk hk' rfl

/-! ## `free` -/

theorem free_spec (hrep : Rep base s.mem (A ++ C)) (hgap : Seg.Gap A b C)
    (hlo : ∀ x ∈ A ++ b :: C, lo ≤ x.start) (hfreep : s.freep ∈ nodes base (A ++ C))
    (hb : (s.mem b.start).size.toNat = b.len) (hlt : Seg.total (A ++ C) + b.len < 2 ^ 32)
    (hn : (A ++ C).length + 2 ≤ n) :
    ∃ m', free n s b.start = some { s with mem := m', freep := lastNode base A } ∧
      Rep base m' (Seg.insert A b C) ∧
      ∀ k, k ∉ nodes base (A ++ C) → k ≠ b.start → m' k = s.mem k := by
  obtain ⟨N, hN⟩ := exists_nodes base A
  have hA : ∀ a ∈ A, a.start < b.start := fun a ha => a.start_lt_stop.trans_le (hgap.before a ha)
  have hC : ∀ c ∈ C, b.start < c.start := fun c hc => b.start_lt_stop.trans_le (hgap.behind c hc)
  have hstarts : ((A ++ b :: C).map Seg.start).Pairwise (· < ·) := by
    obtain ⟨hspA, hspC, hAC⟩ := List.pairwise_append.mp hgap.spaced
    refine List.pairwise_map.mpr (List.pairwise_append.mpr ⟨?_, ?_, fun a ha c hc => ?_⟩)
    · exact hspA.imp fun {a _} h => a.start_lt_stop.trans h
    · exact pairwise_cons.mpr ⟨hC, hspC.imp fun {a _} h => a.start_lt_stop.trans h⟩
    · rcases mem_cons.mp hc with rfl | hc
      · exact hA a ha
      · exact a.start_lt_stop.trans (hAC a ha c hc)
  have hsorted : (nodes base (A ++ b :: C)).Pairwise (· < ·) := by
    refine pairwise_cons.mpr ⟨fun y hy => ?_, hstarts⟩
    obtain ⟨f, hf, rfl⟩ := mem_map.mp hy
    exact hbase.trans_le (hlo f hf)
  have hsorted' : (nodes base (A ++ C)).Pairwise (· < ·) := by
    refine hsorted.sublist (Sublist.cons_cons base (Sublist.map _ ?_))
    exact (Sublist.refl A).append (List.sublist_cons_self b C)
  have hbb : base < b.start := hbase.trans_le (hlo b (by simp))
  have hsearch := search_eq hrep hsorted' hbb hA hC hfreep hn
  refine ⟨_, ?_, hrep.link hsorted hb hlt, fun k hk hkb => ?_⟩
  · rw [free, hsearch]
    rfl
  · rw [joinLower_of_ne, joinUpper_of_ne hkb]
    rintro rfl
    exact hk (by rw [nodes_append, hN]; simp)

omit hbase in
theorem Arena.insert (hgap : Seg.Gap A b C) (hrep : Rep base t.mem (Seg.insert A b C))
    (hsize : ∀ x ∈ L, (t.mem x.start).size.toNat = x.len) (hfreep : t.freep = lastNode base A)
    (hlive : t.live.Perm (L.map Seg.start)) (hapart : ∀ x ∈ L, ∀ f ∈ b :: (A ++ C), x.Disjoint f)
    (hdisjoint : L.Pairwise Seg.Disjoint)
    (hbound : ∀ x ∈ b :: (A ++ C) ++ L, lo ≤ x.start ∧ x.stop ≤ t.brk)
    (htotal : lo + Seg.total (A ++ C) + b.len + Seg.total L = t.brk) :
    Arena base lo t (Seg.insert A b C) L := by
  refine ⟨hrep, hsize, ?_, hlive, hgap.spaced_insert, fun x hx => ?_, hdisjoint, ?_, ?_⟩
  · rw [hfreep]
    exact lastNode_mem_insert base A b C
  · exact Seg.disjoint_insert (hapart x hx b mem_cons_self) fun f hf =>
      hapart x hx f (mem_cons_of_mem b hf)
  · obtain ⟨hF, hL⟩ := List.forall_mem_append.mp hbound
    obtain ⟨hb, hAC⟩ := forall_mem_cons.mp hF
    exact List.forall_mem_append.mpr ⟨Seg.bound_insert hb hAC, hL⟩
  · rw [Seg.total_insert]
    omega

theorem Arena.free (h : Arena base lo s F L) (hx : x ∈ L) (hlt : s.brk < lo + 2 ^ 32)
    (hn : s.brk - lo + 2 ≤ n) :
    ∃ t F', Umalloc.free n s x.start = some t ∧ t.live = s.live ∧ t.brk = s.brk ∧
      Arena base lo { t with live := s.live.erase x.start } F' (L.erase x) ∧
      ∀ y ∈ L.erase x, SameOn y s.mem t.mem := by
  obtain ⟨A, C, rfl, hgap⟩ := Seg.exists_gap h.spaced (h.apart x hx)
  have hperm := List.perm_cons_erase hx
  have hsub : ∀ y ∈ L.erase x, y ∈ L := fun y hy => List.mem_of_mem_erase hy
  obtain ⟨hother, hrest⟩ := pairwise_cons.mp
    ((hperm.pairwise_iff Seg.Disjoint.symm).mp h.disjoint)
  have htotal : Seg.total L = x.len + Seg.total (L.erase x) := (hperm.map Seg.len).sum_eq
  have htotal' := h.total
  have hlen := Seg.length_le_total (A ++ C)
  have hx' := h.bound x (mem_append_right _ hx)
  have hlo : ∀ y ∈ A ++ x :: C, lo ≤ y.start := by
    intro y hy
    simp only [mem_append, mem_cons] at hy
    rcases hy with hy | rfl | hy
    · exact (h.bound y (by simp [hy])).1
    · exact hx'.1
    · exact (h.bound y (by simp [hy])).1
  obtain ⟨m', hfree, hrep, hframe⟩ := free_spec hbase (n := n) h.rep hgap hlo h.freep (h.size x hx)
    (by omega) (by omega)
  have hsame : ∀ y ∈ L.erase x, SameOn y s.mem m' := by
    intro y hy k hk hk'
    refine hframe k (h.notMem_nodes hbase (hsub y hy) hk hk') ?_
    exact ne_of_disjoint (hother y hy).symm hk hk'
  refine ⟨_, Seg.insert A x C, hfree, rfl, rfl, ?_, hsame⟩
  refine Arena.insert hgap hrep (fun y hy => ?_) rfl ?_ (fun y hy => ?_) hrest ?_ ?_
  · show (m' y.start).size.toNat = y.len
    rw [(hsame y hy).start]
    exact h.size y (hsub y hy)
  · have := (h.live.trans (hperm.map Seg.start)).erase x.start
    rwa [List.map_cons, List.erase_cons_head] at this
  · exact forall_mem_cons.mpr ⟨(hother y hy).symm, h.apart y (hsub y hy)⟩
  · intro y hy
    refine h.bound y ?_
    simp only [mem_append, mem_cons] at hy ⊢
    rcases hy with (rfl | hy) | hy
    · exact .inr hx
    · exact .inl hy
    · exact .inr (hsub y hy)
  · show _ = s.brk
    omega

/-! ## `malloc` -/

theorem Arena.morecore (h : Arena base lo s F L) (hle : s.brk + coreUnits nu ≤ top)
    (hlt : top < lo + 2 ^ 32) (hn : s.brk - lo + 2 ≤ n) :
    ∃ t F', morecore top n true s nu = some (some t.freep, t) ∧ Arena base lo t F' L ∧
      t.brk = s.brk + coreUnits nu ∧ t.live = s.live ∧ (∃ f ∈ F', nu ≤ f.len) ∧
      ∀ y ∈ L, SameOn y s.mem t.mem := by
  have hpos : 0 < coreUnits nu ∧ nu ≤ coreUnits nu := by
    rw [coreUnits]
    split <;> omega
  let b : Seg := ⟨s.brk, coreUnits nu, hpos.1⟩
  let s₁ : State :=
    { s with mem := s.mem.setSize s.brk (.ofNat (coreUnits nu)), brk := s.brk + coreUnits nu }
  have htotal := h.total
  have hlen := Seg.length_le_total F
  have hstop : ∀ y ∈ F ++ L, y.stop ≤ s.brk := fun y hy => (h.bound y hy).2
  have hframe₁ : ∀ k < s.brk, s₁.mem k = s.mem k := fun k hk => Mem.setSize_of_ne _ _ hk.ne
  have hnode : ∀ k ∈ nodes base F, k < s.brk := by
    intro k hk
    rcases mem_cons.mp hk with rfl | hk
    · omega
    · obtain ⟨f, hf, rfl⟩ := mem_map.mp hk
      exact f.start_lt_stop.trans_le (hstop f (mem_append_left L hf))
  have hrep₁ : Rep base s₁.mem (F ++ []) := by
    rw [append_nil]
    refine ⟨h.rep.path.congr fun k hk => ?_, ?_, fun f hf => ?_⟩
    · rw [Mem.next, Mem.next, hframe₁ k (hnode k hk)]
    · rw [hframe₁ base (hnode base mem_cons_self)]
      exact h.rep.zero
    · rw [hframe₁ _ (hnode _ (mem_cons_of_mem base (List.mem_map_of_mem hf)))]
      exact h.rep.size f hf
  have hgap : Seg.Gap F b [] := by
    refine ⟨?_, fun f hf => hstop f (mem_append_left L hf), List.forall_mem_nil _⟩
    rw [append_nil]
    exact h.spaced
  have hb : (s₁.mem b.start).size.toNat = b.len := by
    show (s.mem.setSize s.brk (.ofNat (coreUnits nu)) s.brk).size.toNat = coreUnits nu
    rw [Mem.setSize_self]
    exact UInt32.toNat_ofNat_of_lt' (by rw [UInt32.size]; omega)
  have hbound₁ : ∀ y ∈ b :: F ++ L, lo ≤ y.start ∧ y.stop ≤ s.brk + coreUnits nu := by
    refine forall_mem_cons.mpr ⟨⟨?_, le_rfl⟩, fun y hy => ?_⟩
    · show lo ≤ s.brk
      omega
    · exact ⟨(h.bound y hy).1, (hstop y hy).trans (Nat.le_add_right ..)⟩
  have hlo : ∀ y ∈ F ++ [b], lo ≤ y.start := by
    intro y hy
    refine (hbound₁ y ?_).1
    simp only [mem_append, mem_cons] at hy ⊢
    tauto
  have hlt₁ : Seg.total (F ++ []) + b.len < 2 ^ 32 := by
    rw [append_nil]
    show Seg.total F + coreUnits nu < 2 ^ 32
    omega
  obtain ⟨m', hfree, hrep, hframe⟩ := free_spec hbase (s := s₁) (n := n) hrep₁ hgap hlo
    (by rw [append_nil]; exact h.freep) hb hlt₁ (by rw [append_nil]; omega)
  have hsame : ∀ y ∈ L, SameOn y s.mem m' := by
    intro y hy k hk hk'
    have hkb : k < s.brk := hk'.trans_le (hstop y (mem_append_right F hy))
    have hknot := h.notMem_nodes hbase hy hk hk'
    rw [hframe k (by rwa [append_nil]) hkb.ne, hframe₁ k hkb]
  refine ⟨{ s₁ with mem := m', freep := lastNode base F }, Seg.insert F b [], ?_, ?_, rfl, rfl, ?_,
    hsame⟩
  · rw [Umalloc.morecore]
    dsimp only
    rw [if_pos ⟨rfl, hle⟩]
    exact congrArg (Option.map _) hfree
  · refine Arena.insert hgap hrep (fun y hy => ?_) rfl h.live (fun y hy => ?_) h.disjoint ?_ ?_
    · show (m' y.start).size.toNat = y.len
      rw [(hsame y hy).start]
      exact h.size y hy
    · rw [append_nil]
      exact forall_mem_cons.mpr ⟨.inl (hstop y (mem_append_right F hy)), h.apart y hy⟩
    · rw [append_nil]
      exact hbound₁
    · show _ = s.brk + coreUnits nu
      have : b.len = coreUnits nu := rfl
      rw [append_nil]
      omega
  · obtain ⟨f, hf, hle⟩ := Seg.le_insert F b []
    exact ⟨f, hf, hpos.2.trans hle⟩

omit hbase in
theorem Arena.carve {m' : Mem} {q : Nat} {F' : List Seg} (h : Arena base lo s F L) (hf : f ∈ F)
    (hrep : Rep base m' F') (hq : q ∈ nodes base F') (hx : x.Within f)
    (hsize : (m' x.start).size.toNat = x.len) (hsame : ∀ y ∈ L, SameOn y s.mem m')
    (hspaced : Seg.Spaced F') (hF' : ∀ g ∈ F', x.Disjoint g ∧ ∃ g' ∈ F, g.Within g')
    (htotal : Seg.total F' + x.len = Seg.total F) :
    Arena base lo ⟨m', q, s.brk, x.start :: s.live⟩ F' (x :: L) := by
  have hfb := h.bound f (mem_append_left L hf)
  refine ⟨hrep, ?_, hq, h.live.cons _, hspaced, ?_, ?_, ?_, ?_⟩
  · refine forall_mem_cons.mpr ⟨hsize, fun y hy => ?_⟩
    show (m' y.start).size.toNat = y.len
    rw [(hsame y hy).start]
    exact h.size y hy
  · refine forall_mem_cons.mpr ⟨fun g hg => (hF' g hg).1, fun y hy g hg => ?_⟩
    obtain ⟨g', hg', hwithin⟩ := (hF' g hg).2
    exact (h.apart y hy g' hg').within hwithin
  · exact pairwise_cons.mpr ⟨fun y hy => ((h.apart y hy f hf).within hx).symm, h.disjoint⟩
  · refine List.forall_mem_append.mpr ⟨fun g hg => ?_, forall_mem_cons.mpr ⟨?_, fun y hy => ?_⟩⟩
    · obtain ⟨g', hg', hwithin⟩ := (hF' g hg).2
      have := h.bound g' (mem_append_left L hg')
      exact ⟨this.1.trans hwithin.1, hwithin.2.trans this.2⟩
    · exact ⟨hfb.1.trans hx.1, hx.2.trans hfb.2⟩
    · exact h.bound y (mem_append_right F hy)
  · have := h.total
    show _ = s.brk
    rw [Seg.total_cons]
    omega

structure Taken (base lo nu : Nat) (s : State) (L : List Seg) (r : Nat × State) : Prop where
  live : r.2.live = s.live
  brk : r.2.brk = s.brk
  arena : ∃ F' x, x.start = r.1 ∧ x.len = nu ∧
    Arena base lo { r.2 with live := r.1 :: s.live } F' (x :: L)
  same : ∀ y ∈ L, SameOn y s.mem r.2.mem

omit hbase in
theorem lastNode_mem (base : Nat) (A G : List Seg) : lastNode base A ∈ nodes base (A ++ G) := by
  obtain ⟨N, hN⟩ := exists_nodes base A
  rw [nodes_append, hN]
  simp

section

variable (h : Arena base lo s (A ++ f :: C) L)
include h

theorem Arena.takeWhole (hsize : (s.mem f.start).size = .ofNat nu)
    (hnu : (UInt32.ofNat nu).toNat = nu) :
    Taken base lo nu s L (takeBlock s nu (lastNode base A) f.start) := by
  have hf : f ∈ A ++ f :: C := by simp
  have hfsize := h.rep.size f hf
  have hwhole : f.len = nu := by rw [← hfsize, hsize, hnu]
  rw [takeBlock, if_pos hsize]
  have hsame : ∀ y ∈ L, SameOn y s.mem (s.mem.setPtr (lastNode base A) (s.mem f.start).ptr) := by
    intro y hy k hk hk'
    refine Mem.setPtr_of_ne _ _ ?_
    rintro rfl
    exact h.notMem_nodes hbase hy hk hk' (lastNode_mem base A _)
  refine ⟨rfl, rfl, ⟨A ++ C, f, rfl, hwhole, ?_⟩, hsame⟩
  refine h.carve hf (h.rep.unlink (h.nodup hbase)) (lastNode_mem base A C) ⟨le_rfl, le_rfl⟩ ?_ hsame
    ?_ (fun g hg => ⟨Seg.disjoint_of_spaced h.spaced g hg, g, ?_, le_rfl, le_rfl⟩) ?_
  · rw [Mem.setPtr_size]
    exact hfsize
  · exact h.spaced.sublist ((Sublist.refl A).append (List.sublist_cons_self f C))
  · simp only [mem_append, mem_cons] at hg ⊢
    exact hg.imp_right .inr
  · simp only [Seg.total_append, Seg.total_cons]
    omega

theorem Arena.takeEnd (hsize : ¬(s.mem f.start).size = .ofNat nu)
    (hnu : (UInt32.ofNat nu).toNat = nu)
    (hpos : 0 < nu) (hle : nu ≤ f.len) :
    Taken base lo nu s L (takeBlock s nu (lastNode base A) f.start) := by
  have hf : f ∈ A ++ f :: C := by simp
  have hfsize := h.rep.size f hf
  have hlt : nu < f.len := by
    refine lt_of_le_of_ne hle fun heq => hsize ?_
    rw [← UInt32.toNat_inj, hnu, hfsize, heq]
  let g : Seg := ⟨f.start, f.len - nu, by omega⟩
  let x : Seg := ⟨f.start + (f.len - nu), nu, hpos⟩
  have hg : g.Within f := by simp only [Seg.Within, Seg.stop, g]; omega
  have hx : x.Within f := by simp only [Seg.Within, Seg.stop, x]; omega
  have hsub : ((s.mem f.start).size - .ofNat nu).toNat = f.len - nu := by
    rw [UInt32.toNat_sub_of_le _ _ (by rw [UInt32.le_iff_toNat_le, hnu, hfsize]; exact hle), hnu,
      hfsize]
  let m' := (s.mem.setSize f.start ((s.mem f.start).size - .ofNat nu)).setSize x.start (.ofNat nu)
  have htake : takeBlock s nu (lastNode base A) f.start =
      (x.start, { s with mem := m', freep := lastNode base A }) := by
    rw [takeBlock, if_neg hsize]
    dsimp only
    rw [Mem.stop, Mem.setSize_self]
    dsimp only
    rw [hsub]
  have hne : f.start ≠ x.start := by simp only [x]; omega
  have hframe : ∀ k, k ≠ f.start → k ≠ x.start → m' k = s.mem k := fun k hk hk' =>
    (Mem.setSize_of_ne _ _ hk').trans (Mem.setSize_of_ne _ _ hk)
  have hself : m' f.start = { s.mem f.start with size := (s.mem f.start).size - .ofNat nu } :=
    (Mem.setSize_of_ne _ _ hne).trans (Mem.setSize_self ..)
  have hsame : ∀ y ∈ L, SameOn y s.mem m' := by
    intro y hy k hk hk'
    have hyf := h.apart y hy f hf
    exact hframe k (ne_of_disjoint hyf hk hk') (ne_of_disjoint (hyf.within hx) hk hk')
  have hdisjoint : ∀ y ∈ A ++ g :: C, x.Disjoint y ∧ ∃ y' ∈ A ++ f :: C, y.Within y' := by
    intro y hy
    by_cases hyg : y = g
    · exact ⟨hyg ▸ .inr le_rfl, f, hf, hyg ▸ hg⟩
    · have hy' : y ∈ A ++ C := by simpa [hyg] using hy
      refine ⟨((Seg.disjoint_of_spaced h.spaced y hy').symm.within hx).symm, y, ?_, le_rfl, le_rfl⟩
      simp only [mem_append, mem_cons] at hy' ⊢
      exact hy'.imp_right .inr
  have hnode : ∀ y ∈ nodes base (A ++ f :: C), y ≠ x.start := by
    intro y hy
    rcases mem_cons.mp hy with rfl | hy
    · have := (h.bound f (mem_append_left L hf)).1
      simp only [x]
      omega
    · obtain ⟨y', hy', rfl⟩ := mem_map.mp hy
      by_cases hyf : y' = f
      · rwa [hyf]
      · have hmem : y' ∈ A ++ C := by simpa [hyf] using hy'
        refine (ne_of_disjoint (Seg.disjoint_of_spaced h.spaced y' hmem) hx.1 ?_).symm
        exact x.start_lt_stop.trans_le hx.2
  rw [htake]
  refine ⟨rfl, rfl, ⟨A ++ g :: C, x, rfl, rfl, ?_⟩, hsame⟩
  have hrep : Rep base m' (A ++ g :: C) := by
    refine h.rep.shrink (g := g) rfl (fun y _ => ?_) (fun y hy hyf => ?_) ?_ (h.nodup hbase)
    · exact (Mem.setSize_next ..).trans (Mem.setSize_next ..)
    · rw [hframe y hyf (hnode y hy)]
    · rw [hself]
      exact hsub
  refine h.carve hf hrep (lastNode_mem base A _) hx ?_ hsame (Seg.spaced_within h.spaced hg)
    hdisjoint ?_
  · show (m' x.start).size.toNat = nu
    exact (congrArg (fun c => Header.size c |>.toNat) (Mem.setSize_self ..)).trans hnu
  · simp only [Seg.total_append, Seg.total_cons, g, x]
    omega

/-- **`malloc` takes a whole block off the list, or the end of a block.** -/
theorem Arena.takeBlock (hpos : 0 < nu) (hle : nu ≤ f.len) (hnu : (UInt32.ofNat nu).toNat = nu) :
    Taken base lo nu s L (takeBlock s nu (lastNode base A) f.start) := by
  by_cases hsize : (s.mem f.start).size = .ofNat nu
  · exact h.takeWhole hbase hsize hnu
  · exact h.takeEnd hbase hsize hnu hpos hle

end

omit hbase in
theorem scan_path {xs : List Nat} {prevp : Nat} (h : Path s.mem.next p xs s.freep)
    (hprev : s.mem.next prevp = p) (hnot : s.freep ∉ xs) (top : Nat) (ok : Bool) (nu n : Nat) :
    (∃ x ∈ xs, ∃ q ∈ prevp :: xs, s.mem.next q = x ∧ .ofNat nu ≤ (s.mem x).size ∧
      scan top ok nu (n + xs.length) s prevp p =
        some (some (takeBlock s nu q x).1, (takeBlock s nu q x).2)) ∨
    ((∀ x ∈ xs, ¬.ofNat nu ≤ (s.mem x).size) ∧ ∃ q ∈ prevp :: xs, s.mem.next q = s.freep ∧
      scan top ok nu (n + xs.length) s prevp p = scan top ok nu n s q s.freep) := by
  induction xs generalizing p prevp with
  | nil => exact .inr ⟨nofun, prevp, mem_cons_self, hprev.trans h, by rw [h]; rfl⟩
  | cons x xs ih =>
    obtain ⟨rfl, hpath⟩ := h
    obtain ⟨hne, hnot⟩ := not_or.mp (mem_cons.not.mp hnot)
    by_cases hlarge : .ofNat nu ≤ (s.mem p).size
    · refine .inl ⟨p, mem_cons_self, prevp, mem_cons_self, hprev, hlarge, ?_⟩
      rw [List.length_cons, ← Nat.add_assoc, scan, scanWith, if_pos hlarge]
    · have hstep : scan top ok nu (n + (p :: xs).length) s prevp p =
          scan top ok nu (n + xs.length) s p (s.mem.next p) := by
        rw [List.length_cons, ← Nat.add_assoc, scan, scanWith, if_neg hlarge, if_neg (Ne.symm hne)]
        rfl
      rw [hstep]
      rcases ih hpath rfl hnot with ⟨y, hy, q, hq, hrest⟩ | ⟨hsmall, q, hq, hrest⟩
      · exact .inl ⟨y, mem_cons_of_mem p hy, q, mem_cons_of_mem _ hq, hrest⟩
      · exact .inr ⟨forall_mem_cons.mpr ⟨hlarge, hsmall⟩, q, mem_cons_of_mem _ hq, hrest⟩

section

variable (h : Arena base lo s F L) (hpos : 0 < nu) (hnu : (UInt32.ofNat nu).toNat = nu)
include h hpos hnu

theorem Arena.taken {q y : Nat} (hq : q ∈ nodes base F) (hy : y ∈ nodes base F)
    (hnext : s.mem.next q = y) (hlarge : .ofNat nu ≤ (s.mem y).size) :
    Taken base lo nu s L (Umalloc.takeBlock s nu q y) := by
  rw [UInt32.le_iff_toNat_le, hnu] at hlarge
  rcases mem_cons.mp hy with rfl | hy
  · rw [h.rep.zero] at hlarge
    exact absurd hlarge (Nat.not_le.mpr hpos)
  · obtain ⟨f, hf, rfl⟩ := mem_map.mp hy
    rw [h.rep.size f hf] at hlarge
    obtain ⟨A, C, rfl⟩ := List.append_of_mem hf
    rw [h.rep.eq_lastNode (h.sorted hbase) hq hnext]
    exact h.takeBlock hbase hpos hlarge hnu

theorem Arena.scan (hn : F.length + 1 ≤ n) (top : Nat) (ok : Bool) :
    (∃ r, scan top ok nu n s s.freep (s.mem s.freep).ptr = some (some r.1, r.2) ∧
      Taken base lo nu s L r) ∨
    ((∀ f ∈ F, f.len < nu) ∧ ∃ k q, k + F.length + 1 = n ∧ ¬.ofNat nu ≤ (s.mem s.freep).size ∧
      Umalloc.scan top ok nu n s s.freep (s.mem s.freep).ptr =
        Umalloc.scan top ok nu (k + 1) s q s.freep) := by
  obtain ⟨us, vs, hnodes⟩ := List.append_of_mem h.freep
  have hpath := h.rep.path
  have hnodup := h.nodup hbase
  rw [hnodes] at hpath hnodup
  have hperm : (s.freep :: (vs ++ us)).Perm (nodes base F) := by
    rw [hnodes]
    exact (List.perm_append_comm.cons _).trans List.perm_middle.symm
  have hnot : s.freep ∉ vs ++ us := (List.nodup_cons.mp (hperm.nodup_iff.mpr (h.nodup hbase))).1
  have hlen : (vs ++ us).length = F.length := by
    have := hperm.length_eq
    simpa [nodes] using this
  obtain ⟨k, rfl⟩ : ∃ k, n = k + 1 + (vs ++ us).length := ⟨n - 1 - F.length, by omega⟩
  rcases scan_path hpath.rotate rfl hnot top ok nu (k + 1) with
    ⟨y, hy, q, hq, hnext, hlarge, hres⟩ | ⟨hsmall, q, hq, hnext, hres⟩
  · exact .inl ⟨_, hres, h.taken hbase hpos hnu (hperm.subset hq)
      (hperm.subset (mem_cons_of_mem _ hy)) hnext hlarge⟩
  · by_cases hlarge : .ofNat nu ≤ (s.mem s.freep).size
    · refine .inl ⟨Umalloc.takeBlock s nu q s.freep, hres.trans ?_, ?_⟩
      · rw [Umalloc.scan, scanWith, if_pos hlarge]
      · exact h.taken hbase hpos hnu (hperm.subset hq) h.freep hnext hlarge
    · refine .inr ⟨fun f hf => ?_, k, q, by omega, hlarge, hres⟩
      have hmem : f.start ∈ s.freep :: (vs ++ us) :=
        hperm.mem_iff.mpr (mem_cons_of_mem base (List.mem_map_of_mem hf))
      have hsmall' : ¬.ofNat nu ≤ (s.mem f.start).size := by
        rcases mem_cons.mp hmem with heq | hmem
        · rwa [heq]
        · exact hsmall _ hmem
      rw [UInt32.le_iff_toNat_le, hnu, h.rep.size f hf] at hsmall'
      omega

end

structure Allocated (base lo nu : Nat) (s : State) (L : List Seg) (r : Option Nat × State) : Prop where
  live : r.2.live = s.live
  same : ∀ y ∈ L, SameOn y s.mem r.2.mem
  none : r.1 = none → ∃ F', Arena base lo r.2 F' L
  some : ∀ p, r.1 = some p → ∃ F' x, x.start = p ∧ x.len = nu ∧
    Arena base lo { r.2 with live := p :: s.live } F' (x :: L)

omit hbase in
theorem Taken.allocated {r : Nat × State} (h : Taken base lo nu s L r) :
    Allocated base lo nu s L (some r.1, r.2) := by
  refine ⟨h.live, h.same, nofun, fun p hp => ?_⟩
  obtain ⟨F', x, hx, hlen, harena⟩ := h.arena
  cases hp
  exact ⟨F', x, hx, hlen, harena⟩

/-- **The loop of `malloc` ends**, with a block or without. -/
theorem Arena.allocate (h : Arena base lo s F L) (hpos : 0 < nu)
    (hnu : (UInt32.ofNat nu).toNat = nu) (hbrk : s.brk ≤ top) (hlt : top < lo + 2 ^ 32)
    (hn : 2 * (top - lo) + 4 ≤ n) (ok : Bool) :
    ∃ r, Umalloc.scan top ok nu n s s.freep (s.mem s.freep).ptr = some r ∧ r.2.brk ≤ top ∧
      Allocated base lo nu s L r := by
  have htotal := h.total
  have hlen := Seg.length_le_total F
  rcases h.scan hbase (n := n) hpos hnu (by omega) top ok with ⟨r, hres, htaken⟩ |
    ⟨hsmall, k, q, hk, hlarge, hres⟩
  · exact ⟨_, hres, htaken.brk.trans_le hbrk, htaken.allocated⟩
  · rw [hres, Umalloc.scan, scanWith, if_neg hlarge, if_pos rfl]
    by_cases hcore : ok = true ∧ s.brk + coreUnits nu ≤ top
    · obtain ⟨rfl, hle⟩ := hcore
      obtain ⟨t, F', hmore, ht, hbrk', hlive, ⟨f, hf, hnuf⟩, hsame⟩ :=
        h.morecore hbase (n := k) hle hlt (by omega)
      rw [hmore]
      dsimp only
      have htotal' := ht.total
      have hlen' := Seg.length_le_total F'
      rcases ht.scan hbase (n := k) hpos hnu (by omega) top true with
        ⟨r, hres', htaken⟩ | ⟨hsmall', -⟩
      · refine ⟨_, hres', ?_, htaken.live.trans hlive, fun y hy => ?_, nofun, ?_⟩
        · show r.2.brk ≤ top
          rw [htaken.brk]
          omega
        · intro j hj hj'
          exact (htaken.same y hy j hj hj').trans (hsame y hy j hj hj')
        · rw [← hlive]
          exact htaken.allocated.some
      · exact absurd (hsmall' f hf) (by omega)
    · have hmore : Umalloc.morecore top k ok s nu = some (none, s) := by
        rw [Umalloc.morecore]
        exact if_neg hcore
      rw [hmore]
      exact ⟨_, rfl, hbrk, rfl, fun _ _ _ _ _ => rfl, fun _ => ⟨F, h⟩, nofun⟩

end

end Xv6.Umalloc
