import Xv6.Umalloc.Arena

/-!
# Every sequence of calls

The arena over whole runs: `Proper` is what a program can rely on after any calls of `malloc` and
`free`, and whatever it has stored in its blocks.  It depends on less than `2^32` units coming from
`sbrk`: `wrapped` is a run in which the size of a block wraps.
-/

namespace Xv6.Umalloc

open List (mem_cons_self)
open Linked Machine

variable {base lo top n nu : Nat} {m : Mem} {s t : State} {F L : List Seg} {x : Seg}

/-- `malloc` has not been called, or the memory is divided into blocks. -/
def Heap (base lo : Nat) (s : State) : Prop :=
  (s.freep = 0 ∧ s.live = [] ∧ s.brk = lo) ∨ ∃ F L, Arena base lo s F L

theorem Arena.length_le_one (h : Arena base lo s F []) : F.length ≤ 1 := by
  have htotal := h.total
  rw [Seg.total_nil] at htotal
  have : lo + Seg.total F + F.length ≤ s.brk + 1 :=
    h.spaced.total_add_length_le (by omega) fun f hf => h.bound f (List.mem_append_left [] hf)
  omega

theorem arena_init (hbrk : s.brk = lo) (hlive : s.live = []) (hfreep : s.freep = 0) :
    Arena base lo (init base s) [] [] := by
  rw [init, if_pos hfreep]
  refine ⟨⟨⟨rfl, ?_⟩, ?_, nofun⟩, nofun, mem_cons_self, ?_, .nil, nofun, .nil, nofun, ?_⟩
  · show ((s.mem.setPtr base base).setSize base 0).next base = base
    rw [Mem.setSize_next, Mem.next, Mem.setPtr_self]
  · show ((s.mem.setPtr base base).setSize base 0 base).size = 0
    rw [Mem.setSize_self]
  · show s.live.Perm []
    rw [hlive]
  · exact hbrk.symm

theorem init_live (base : Nat) (s : State) : (init base s).live = s.live := by
  rw [init]
  split <;> rfl

theorem init_brk (base : Nat) (s : State) : (init base s).brk = s.brk := by
  rw [init]
  split <;> rfl

theorem units_pos (nbytes : UInt32) : 0 < units nbytes := Nat.succ_pos _

theorem bytes_le_units (nbytes : UInt32) : nbytes.toNat ≤ 16 * (units nbytes - 1) := by
  rw [units]
  omega

section

variable (h0 : 0 < base) (hbase : base < lo)

include h0 hbase in
theorem Arena.freep_ne_zero (h : Arena base lo s F L) : s.freep ≠ 0 := by
  intro hfreep
  have hmem := h.freep
  rw [hfreep] at hmem
  rcases List.mem_cons.mp hmem with hmem | hmem
  · omega
  · obtain ⟨f, hf, hstart⟩ := List.mem_map.mp hmem
    have := (h.bound f (List.mem_append_left L hf)).1
    omega

include h0 hbase in
theorem Heap.init (h : Heap base lo s) :
    ∃ F L, Arena base lo (init base s) F L ∧ ∀ y ∈ L, SameOn y s.mem (Umalloc.init base s).mem := by
  rcases h with ⟨hfreep, hlive, hbrk⟩ | ⟨F, L, h⟩
  · exact ⟨[], [], arena_init hbrk hlive hfreep, nofun⟩
  · have heq : Umalloc.init base s = s := by
      rw [Umalloc.init, if_neg (h.freep_ne_zero h0 hbase)]
    rw [heq]
    exact ⟨F, L, h, fun _ _ _ _ _ => rfl⟩

/-- The data in the block with header `p` has not been touched. -/
def Kept (p : Nat) (s t : State) : Prop := ∀ k, p < k → k < s.mem.stop p → t.mem k = s.mem k

theorem SameOn.kept {y : Seg} (h : SameOn y s.mem t.mem) (hsize : (s.mem y.start).size.toNat = y.len) :
    Kept y.start s t := by
  intro k hk hk'
  rw [Mem.stop, hsize] at hk'
  exact h k hk.le hk'

variable (htop : top < lo + 2 ^ 32) (hn : 2 * (top - lo) + 4 ≤ n)
include h0 hbase htop hn

theorem Heap.malloc (h : Heap base lo s) (hbrk : s.brk ≤ top) (nbytes : UInt32) (ok : Bool) :
    ∃ r t, Act.exec base top n s (.malloc nbytes ok) = some (r, t) ∧ Heap base lo t ∧ t.brk ≤ top ∧
      (∀ p ∈ s.live, Kept p s t) ∧
      ∀ p, r = some p → p ∈ t.live ∧ (t.mem p).size.toNat = units nbytes := by
  obtain ⟨F, L, harena, hinit⟩ := h.init h0 hbase
  have hunits : units nbytes < 2 ^ 32 := by
    have := nbytes.toNat_lt
    rw [units]
    omega
  have hnu : (UInt32.ofNat (units nbytes)).toNat = units nbytes := UInt32.toNat_ofNat_of_lt' hunits
  obtain ⟨r, hscan, hbrk', hall⟩ := harena.allocate hbase (units_pos nbytes) hnu
    (by rwa [init_brk]) htop hn ok
  have hmalloc : Umalloc.malloc base top n ok s nbytes = some r := hscan
  refine ⟨r.1, { r.2 with live := r.1.toList ++ r.2.live }, ?_, ?_, hbrk', fun p hp => ?_,
    fun p hp => ?_⟩
  · rw [Act.exec, hmalloc]
    rfl
  · cases hr : r.1 with
    | none =>
      obtain ⟨F', h'⟩ := hall.none hr
      exact .inr ⟨F', L, h'⟩
    | some p =>
      obtain ⟨F', x, -, -, h'⟩ := hall.some p hr
      rw [← hall.live] at h'
      exact .inr ⟨F', x :: L, h'⟩
  · have hmem := harena.live.subset (by rwa [init_live])
    obtain ⟨y, hy, rfl⟩ := List.mem_map.mp hmem
    refine SameOn.kept (fun k hk hk' => ?_) ?_
    · exact (hall.same y hy k hk hk').trans (hinit y hy k hk hk')
    · rw [← (hinit y hy).start]
      exact harena.size y hy
  · obtain ⟨F', x, rfl, hlen, h'⟩ := hall.some p hp
    refine ⟨?_, ?_⟩
    · show x.start ∈ r.1.toList ++ r.2.live
      rw [hp]
      exact mem_cons_self
    · rw [← hlen]
      exact h'.size x mem_cons_self

omit h0 in
theorem Heap.free (h : Heap base lo s) (hbrk : s.brk ≤ top) {bp : Nat} (hbp : bp ∈ s.live) :
    ∃ t, Act.exec base top n s (.free bp) = some (none, t) ∧ Heap base lo t ∧ t.brk ≤ top ∧
      ∀ p ∈ s.live, p ≠ bp → Kept p s t := by
  rcases h with ⟨-, hlive, -⟩ | ⟨F, L, h⟩
  · rw [hlive] at hbp
    cases hbp
  · obtain ⟨x, hx, rfl⟩ := List.mem_map.mp (h.live.subset hbp)
    have htotal := h.total
    obtain ⟨t, F', hfree, hlive, hbrk', h', hsame⟩ := h.free hbase (n := n) hx (by omega) (by omega)
    refine ⟨{ t with live := s.live.erase x.start }, ?_, .inr ⟨F', _, h'⟩, ?_, fun p hp hne => ?_⟩
    · rw [Act.exec, hfree, Option.map_some, hlive]
    · show t.brk ≤ top
      omega
    · obtain ⟨y, hy, rfl⟩ := List.mem_map.mp (h.live.subset hp)
      have hyx : y ≠ x := fun heq => hne (congrArg Seg.start heq)
      exact SameOn.kept (hsame y ((List.mem_erase_of_ne hyx).mpr hy)) (h.size y hy)

end

theorem Heap.store (hbase : base < lo) (h : Heap base lo s) {a : Nat} (ha : s.Data a) (v : Header) :
    Heap base lo { s with mem := Function.update s.mem a v } := by
  rcases h with ⟨-, hlive, -⟩ | ⟨F, L, h⟩
  · obtain ⟨p, hp, -⟩ := ha
    rw [hlive] at hp
    cases hp
  · obtain ⟨p, hp, hlo, hhi⟩ := ha
    obtain ⟨x, hx, rfl⟩ := List.mem_map.mp (h.live.subset hp)
    rw [Mem.stop, h.size x hx] at hhi
    have hnode := h.notMem_nodes hbase hx hlo.le hhi
    have hframe : ∀ k, k ≠ a → Function.update s.mem a v k = s.mem k := fun k hk =>
      Function.update_of_ne hk ..
    have hne : ∀ k ∈ nodes base F, Function.update s.mem a v k = s.mem k := fun k hk =>
      hframe k fun heq => hnode (heq ▸ hk)
    have hlive : ∀ y ∈ L, y.start ≠ a := by
      intro y hy heq
      by_cases hyx : y = x
      · rw [hyx] at heq
        omega
      · have hxy := h.disjoint.forall hx hy (Ne.symm hyx)
        exact ne_of_disjoint hxy hlo.le hhi heq.symm
    refine .inr ⟨F, L, ⟨?_, ?_, ?_⟩, fun y hy => ?_, h.freep, h.live, h.spaced, h.apart, h.disjoint,
      h.bound, h.total⟩
    · exact h.rep.path.congr fun k hk => congrArg Header.ptr (hne k hk)
    · exact (congrArg Header.size (hne base mem_cons_self)).trans h.rep.zero
    · intro f hf
      have hmem := List.mem_cons_of_mem base (List.mem_map_of_mem (f := Seg.start) hf)
      exact (congrArg (fun c => c.size.toNat) (hne _ hmem)).trans (h.rep.size f hf)
    · show (Function.update s.mem a v y.start).size.toNat = y.len
      rw [hframe _ (hlive y hy)]
      exact h.size y hy

/-! ## Runs -/

structure Proper (base lo top n : Nat) (s : State) : Prop where
  heap : Heap base lo s
  whole : ∀ F L, Arena base lo s F L → s.live = [] → F.length ≤ 1
  ends : ∀ a : Act, a.Allowed s → ∃ r, a.exec base top n s = some r
  enough : ∀ nbytes ok p t, Act.exec base top n s (.malloc nbytes ok) = some (some p, t) →
    p ∈ t.live ∧ nbytes.toNat ≤ 16 * ((t.mem p).size.toNat - 1)
  malloc : ∀ nbytes ok r t, Act.exec base top n s (.malloc nbytes ok) = some (r, t) →
    ∀ p ∈ s.live, Kept p s t
  free : ∀ bp ∈ s.live, ∀ r t, Act.exec base top n s (.free bp) = some (r, t) →
    ∀ p ∈ s.live, p ≠ bp → Kept p s t

section

variable (h0 : 0 < base) (hbase : base < lo) (htop : top < lo + 2 ^ 32)
  (hn : 2 * (top - lo) + 4 ≤ n)
include h0 hbase htop hn

theorem Heap.next {a : Act} (h : Heap base lo s ∧ s.brk ≤ top)
    (hstep : next base top n s a = some t) : Heap base lo t ∧ t.brk ≤ top := by
  rw [Umalloc.next] at hstep
  split at hstep
  · rename_i hallowed
    cases a with
    | malloc nbytes ok =>
      obtain ⟨r, t', hexec, h', hbrk, -⟩ := h.1.malloc h0 hbase htop hn h.2 nbytes ok
      rw [hexec] at hstep
      cases hstep
      exact ⟨h', hbrk⟩
    | free bp =>
      obtain ⟨t', hexec, h', hbrk, -⟩ := h.1.free hbase htop hn h.2 hallowed
      rw [hexec] at hstep
      cases hstep
      exact ⟨h', hbrk⟩
    | store a v =>
      cases hstep
      exact ⟨h.1.store hbase hallowed v, h.2⟩
  · cases hstep

theorem Heap.proper (h : Heap base lo s) (hbrk : s.brk ≤ top) : Proper base lo top n s := by
  refine ⟨h, fun F L harena hlive => ?_, fun a ha => ?_, fun nbytes ok p t hexec => ?_,
    fun nbytes ok r t hexec => ?_, fun bp hbp r t hexec => ?_⟩
  · have hnil : L = [] := by
      have := harena.live
      rw [hlive, List.nil_perm, List.map_eq_nil_iff] at this
      exact this
    subst hnil
    exact harena.length_le_one
  · cases a with
    | malloc nbytes ok =>
      obtain ⟨r, t, hexec, -⟩ := h.malloc h0 hbase htop hn hbrk nbytes ok
      exact ⟨_, hexec⟩
    | free bp =>
      obtain ⟨t, hexec, -⟩ := h.free hbase htop hn hbrk ha
      exact ⟨_, hexec⟩
    | store a v => exact ⟨_, rfl⟩
  · obtain ⟨r, t', hexec', -, -, -, hsize⟩ := h.malloc h0 hbase htop hn hbrk nbytes ok
    cases hexec.symm.trans hexec'
    obtain ⟨hmem, hsize⟩ := hsize p rfl
    rw [hsize]
    exact ⟨hmem, bytes_le_units nbytes⟩
  · obtain ⟨r', t', hexec', -, -, hkept, -⟩ := h.malloc h0 hbase htop hn hbrk nbytes ok
    cases hexec.symm.trans hexec'
    exact hkept
  · obtain ⟨t', hexec', -, -, hkept⟩ := h.free hbase htop hn hbrk hbp
    cases hexec.symm.trans hexec'
    exact hkept

end

/-- **The arena of `malloc`**, as long as less than `2^32` units come from `sbrk`. -/
theorem arena_proper {as : List Act} (h0 : 0 < base) (hbase : base < lo) (hlo : lo ≤ top)
    (htop : top < lo + 2 ^ 32) (hn : 2 * (top - lo) + 4 ≤ n)
    (h : run (next base top n) (State.start m lo) as = some s) : Proper base lo top n s := by
  have hinv : Heap base lo s ∧ s.brk ≤ top := by
    refine Reachable.induction (I := fun s => Heap base lo s ∧ s.brk ≤ top) ⟨as, h⟩ ?_ ?_
    · exact ⟨.inl ⟨rfl, rfl, rfl⟩, hlo⟩
    · intro s t a hs hstep
      exact Heap.next h0 hbase htop hn hs hstep
  exact hinv.1.proper h0 hbase htop hn hinv.2

/-- Two blocks are allocated, and the first is given back. -/
theorem arena_proper_small : ∃ s, run (next 1 4098 8196) (State.start (fun _ => ⟨0, 0⟩) 2)
    [.malloc 20 true, .malloc 0 true, .free 4095] = some s ∧ s.live = [4094] ∧
      Proper 1 2 4098 8196 s := by
  obtain ⟨s, hs, hlive⟩ : ∃ s, run (next 1 4098 8196) (State.start (fun _ => ⟨0, 0⟩) 2)
      [.malloc 20 true, .malloc 0 true, .free 4095] = some s ∧ s.live = [4094] := by decide +kernel
  exact ⟨s, hs, hlive, arena_proper (by decide) (by decide) (by decide) (by decide)
    (by decide) hs⟩

/-- When no block is in use, the free memory is one block. -/
theorem Arena.single (h : Arena base lo s F L) (hlive : s.live = []) (hlo : lo < s.brk) :
    L = [] ∧ ∃ f, F = [f] ∧ f.len = s.brk - lo := by
  have hnil : L = [] := by
    have := h.live
    rwa [hlive, List.nil_perm, List.map_eq_nil_iff] at this
  subst hnil
  have htotal := h.total
  cases F with
  | nil => exact absurd hlo (by simp at htotal; omega)
  | cons f F =>
    obtain rfl : F = [] := List.eq_nil_of_length_eq_zero (by simpa using h.length_le_one)
    exact ⟨rfl, f, rfl, by simp at htotal; omega⟩

/-- **Memory is not fragmented for good.**  After any calls, once everything has been given back, a
request that is not larger than what the kernel has granted is served without asking it for more. -/
theorem malloc_after_free {as : List Act} (h0 : 0 < base) (hbase : base < lo) (hlo : lo ≤ top)
    (htop : top < lo + 2 ^ 32) (hn : 2 * (top - lo) + 4 ≤ n)
    (hrun : run (next base top n) (State.start m lo) as = some s) (hlive : s.live = []) (ok : Bool)
    (nbytes : UInt32) (hfits : units nbytes ≤ s.brk - lo) :
    ∃ p t, Act.exec base top n s (.malloc nbytes ok) = some (some p, t) ∧ t.brk = s.brk := by
  have hpos := units_pos nbytes
  obtain ⟨hheap, hbrk⟩ : Heap base lo s ∧ s.brk ≤ top :=
    Reachable.induction (I := fun s => Heap base lo s ∧ s.brk ≤ top) ⟨as, hrun⟩
      ⟨.inl ⟨rfl, rfl, rfl⟩, hlo⟩ fun _ _ _ => Heap.next h0 hbase htop hn
  rcases hheap with ⟨-, -, hstart⟩ | ⟨F, L, h⟩
  · omega
  · obtain ⟨-, f, rfl, hlen⟩ := h.single hlive (by omega)
    have hnu : (UInt32.ofNat (units nbytes)).toNat = units nbytes :=
      UInt32.toNat_ofNat_of_lt' (show units nbytes < 2 ^ 32 by omega)
    rcases h.scan hbase (n := n) hpos hnu (by simp; omega) top ok with ⟨r, hres, htaken⟩ | ⟨hsmall, -⟩
    · have hmalloc : Umalloc.malloc base top n ok s nbytes = some (some r.1, r.2) := by
        rw [Umalloc.malloc, Umalloc.init, if_neg (h.freep_ne_zero h0 hbase)]
        exact hres
      refine ⟨r.1, { r.2 with live := r.1 :: r.2.live }, ?_, htaken.brk⟩
      rw [Act.exec, hmalloc]
      rfl
    · exact absurd (hsmall f mem_cons_self) (by omega)

/-- The only block is given back, and all of the memory is asked for. -/
theorem malloc_after_free_small : ∃ s, run (next 1 4098 8196) (State.start (fun _ => ⟨0, 0⟩) 2)
    [.malloc 20 true, .free 4095] = some s ∧
    ∃ p t, Act.exec 1 4098 8196 s (.malloc 65520 false) = some (some p, t) ∧ t.brk = s.brk := by
  obtain ⟨s, hs, hlive, hbrk⟩ : ∃ s, run (next 1 4098 8196) (State.start (fun _ => ⟨0, 0⟩) 2)
      [.malloc 20 true, .free 4095] = some s ∧ s.live = [] ∧ s.brk = 4098 := by decide +kernel
  exact ⟨s, hs, malloc_after_free (by decide) (by decide) (by decide) (by decide) (by decide) hs hlive
    false 65520 (by rw [hbrk]; decide)⟩

/-! ## When sizes wrap -/

/-- Blocks of almost `2^27` units are allocated, and given back. -/
def wrapping : List Act :=
  .replicate 33 (.malloc (2 ^ 31 - 32) true) ++
    (List.range 33).map fun k => .free (2 + k * (2 ^ 27 - 1))

theorem Heap.size_eq (h : Heap base lo s) (hlo : lo < s.brk) (hbase : base < lo) (hlive : s.live = [])
    (hlink : s.mem.next base = lo) (hback : s.mem.next lo = base) :
    lo + (s.mem lo).size.toNat = s.brk := by
  rcases h with ⟨-, -, hbrk⟩ | ⟨F, L, h⟩
  · omega
  · have hnil : L = [] := by
      have := h.live
      rwa [hlive, List.nil_perm, List.map_eq_nil_iff] at this
    subst hnil
    have hpath := h.rep.path.2
    rw [hlink] at hpath
    have htotal := h.total
    cases F with
    | nil =>
      have : lo = base := hpath
      omega
    | cons f F =>
      obtain ⟨hf, hrest⟩ := hpath
      cases F with
      | nil =>
        rw [hf, h.rep.size f mem_cons_self]
        simpa [hf] using htotal
      | cons g F =>
        have hg : s.mem.next f.start = g.start := hrest.1
        have := (h.bound g (by simp)).1
        rw [← hf, hback] at hg
        omega

/-- After 33 blocks of almost `2^27` units have been given back, the header of the one free block has
less than `2^27` units. -/
theorem wrapped : ∃ s, run (next 1 (2 ^ 40) 8) (State.start (fun _ => ⟨0, 0⟩) 2) wrapping = some s ∧
    ¬Heap 1 2 s := by
  obtain ⟨s, hs, hlive, hlink, hback, hlo, hne⟩ : ∃ s,
      run (next 1 (2 ^ 40) 8) (State.start (fun _ => ⟨0, 0⟩) 2) wrapping = some s ∧ s.live = [] ∧
        s.mem.next 1 = 2 ∧ s.mem.next 2 = 1 ∧ 2 < s.brk ∧ 2 + (s.mem 2).size.toNat ≠ s.brk := by
    decide +kernel
  exact ⟨s, hs, fun h => hne (h.size_eq hlo (by decide) hlive hlink hback)⟩

end Xv6.Umalloc
