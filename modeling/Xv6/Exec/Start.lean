import Xv6.Exec.Load

/-!
# The stack, and the switch to the new program

After the segments come a page that is not for the user and the page of the stack; the arguments are
stored in the latter only (`Pushed`).  Up to `commit` the old program is not touched: whatever fails, the
pages that belong to the new one go back to the free list, and then memory is as it was but for the
order of that list.
-/

namespace Xv6

namespace Exec

open Heap Prog Vm

/-- What belongs to a process, and that it belongs to nobody else. -/
structure Ok (b : Boot) (s : Ram) (p : Proc) : Prop where
  space : Space b s p.pagetable (procTop b p.trapframe) (pgs p.sz)
  ram : b.RamPage p.trapframe
  owns : Owns s.toHeap {p.trapframe}
  apart : p.trapframe ∉ own s p.pagetable (pgs p.sz)

/-- The pages of a process: its tables, its memory and its trapframe. -/
def pagesOf (s : Ram) (p : Proc) : Set Nat := own s p.pagetable (pgs p.sz) ∪ {p.trapframe}

structure Pushed (b : Boot) (s t : Ram) (root : Nat) (top : Nat → Nat) (n base : Nat) : Prop where
  space : Space b t root top n
  change : Change s.toHeap t.toHeap (own s root n) (own t root n)
  entry : entry t.page root = entry s.page root
  below : ∀ va < base, ubyte t root va = ubyte s root va

/-- The process `p` has become `p'`, whose address space had been made beside the old one. -/
structure Switched (b : Boot) (s t : Ram) (p p' : Proc) (entry : Nat) : Prop where
  ok : Ok b t p'
  change : Change s.toHeap t.toHeap (own s p'.pagetable (pgs p'.sz) ∪ pagesOf s p) (pagesOf t p')
  freed : ∀ x ∈ own s p.pagetable (pgs p.sz), x ∈ t.free
  keeps : Keeps s t p'.pagetable (pgs p'.sz)
  epc : word t.page p'.trapframe tfEpc = entry

/-- The `n` pages of a program have been given a guard page and a stack. -/
structure Stacked (b : Boot) (s t : Ram) (root : Nat) (top : Nat → Nat) (n : Nat) : Prop where
  space : Space b t root top (n + 2)
  change : Change s.toHeap t.toHeap (own s root n) (own t root (n + 2))
  entry : ∀ i < n, entry t.page root i = entry s.page root i
  byte : ∀ va < n * pgsize, ubyte t root va = ubyte s root va
  guard : pteFlags (Vm.entry t.page root n) = pteR ||| pteW ||| pteV
  stack : pteFlags (Vm.entry t.page root (n + 1)) = pteR ||| pteU ||| pteW ||| pteV

section Stack

variable {b : Boot} {s t u : Ram} {root n base : Nat} {top : Nat → Nat} {E : Stop → Ram → Prop}

theorem Pushed.refl (h : Space b s root top n) (base : Nat) : Pushed b s s root top n base :=
  ⟨h, .refl h.owns_own, rfl, fun _ _ => rfl⟩

theorem Pushed.trans (h : Pushed b s t root top n base) (h' : Pushed b t u root top n base) :
    Pushed b s u root top n base :=
  ⟨h'.space, h.change.trans h'.change, h'.entry.trans h.entry,
    fun va hva => (h'.below va hva).trans (h.below va hva)⟩

variable {argc dst e f i k sp sz tf v va w : Nat}

theorem pushed_of_stored {src : Nat → UInt8} (h : Stored b s t root top n dst k src)
    (hbase : base ≤ dst) : Pushed b s t root top n base :=
  ⟨h.space, h.change, h.entry, fun va hva => by rw [h.byte, if_neg (by omega)]⟩

theorem wp_pushArgs {Q : Option (Nat × List Nat) → Ram → Prop} {argv : List (List UInt8)}
    {ustack : List Nat} (h : Space b s root top n) (htop : Supervisor top)
    (hfail : ∀ t, Pushed b s t root top n base → Q none t)
    (hok : ∀ t sp' ustack', Pushed b s t root top n base →
      ustack'.length = ustack.length + argv.length → Q (some (sp', ustack')) t) :
    wp (pushArgs root base argv sp ustack) Q E s := by
  induction argv generalizing s sp ustack with
  | nil => exact hok s sp ustack (.refl h base) rfl
  | cons arg argv ih =>
    rw [pushArgs]
    split
    · exact hfail s (.refl h base)
    simp only [wp_ite]
    split
    · exact hfail s (.refl h base)
    rename_i hbase
    have hbase := Nat.le_of_not_lt hbase
    refine .bind (wp_copyout h htop (fun t k _ _ _ ht => ?_) fun t _ ht => ?_)
    · rw [if_pos (by decide)]
      exact hfail t (pushed_of_stored ht hbase)
    · rw [if_neg (by decide)]
      have hpushed := pushed_of_stored ht hbase
      refine ih ht.space (fun u hu => hfail u (hpushed.trans hu)) fun u sp' ustack' hu hlen => ?_
      refine hok u sp' ustack' (hpushed.trans hu) ?_
      simp only [hlen, List.length_append, List.length_cons, List.length_nil]
      omega

theorem wp_pushStack {Q : Option Nat → Ram → Prop} {argv : List (List UInt8)}
    (h : Space b s root top n) (htop : Supervisor top)
    (hE : argv.length < maxArg ∨ ∀ e t, E e t)
    (hfail : ∀ t, Pushed b s t root top n base → Q none t)
    (hok : ∀ t sp', Pushed b s t root top n base → Q (some sp') t) :
    wp (pushStack root base argv sp) Q E s := by
  rw [pushStack, wp_bind]
  refine wp_pushArgs h htop hfail fun t sp' ustack ht hlen => ?_
  show wp (if _ then _ else if _ then _ else _) Q E t
  rw [wp_ite]
  split
  · refine hE.resolve_left (fun hlt => ?_) _ _
    simp only [List.length_nil] at hlen
    omega
  rw [wp_ite]
  split
  · exact hfail t ht
  rename_i hbase
  refine .bind (wp_copyout ht.space htop (fun u k _ _ _ hu => ?_) fun u _ hu => ?_)
  · rw [if_pos (by decide)]
    exact hfail u (ht.trans (pushed_of_stored hu (Nat.le_of_not_lt hbase)))
  · rw [if_neg (by decide)]
    exact hok u _ (ht.trans (pushed_of_stored hu (Nat.le_of_not_lt hbase)))

/-! ## The guard page -/

theorem pte2pa_clear (he : e < 2 ^ 64) : pte2pa (e &&& (2 ^ 64 - 1 - pteU)) = pte2pa e := by
  rw [pte2pa, Nat.shiftRight_and_distrib, pte2pa]
  rw [show (2 ^ 64 - 1 - pteU) >>> 10 = 2 ^ 54 - 1 from rfl, Nat.and_two_pow_sub_one_eq_mod,
    Nat.shiftRight_eq_div_pow, Nat.mod_eq_of_lt (by omega)]

theorem pteFlags_clear (e : Nat) :
    pteFlags (e &&& (2 ^ 64 - 1 - pteU)) = pteFlags e &&& (2 ^ 64 - 1 - pteU) := by
  rw [pteFlags, pteFlags, Nat.and_right_comm]

theorem isLeaf_of_flags (he : pteFlags e = f) (hf : f % 2 = 1) (hne : f ≠ pteV) :
    IsLeaf e := by
  subst he
  refine ⟨?_, hne⟩
  rw [valid_iff]
  rw [pteFlags_eq] at hf
  omega

theorem wp_guard {Q : Unit → Ram → Prop} (h : Space b s root top n) (hv : v < n)
    (hflags : pteFlags (entry s.page root v) = pteR ||| pteU ||| pteW ||| pteV)
    (hok : ∀ t, Space b t root top n → Change s.toHeap t.toHeap (own s root n) (own t root n) →
      (∀ i, i ≠ v → entry t.page root i = entry s.page root i) →
      (∀ i < n, t.page (pte2pa (entry t.page root i)) = s.page (pte2pa (entry s.page root i))) →
      pteFlags (entry t.page root v) = pteR ||| pteW ||| pteV → Q () t) :
    wp (uvmclear root (v * pgsize)) Q E s := by
  have hmax : maxva = tfVpn * pgsize + 2 * pgsize := rfl
  have hn := h.lt_tfVpn
  have hva : v * pgsize < maxva := by
    simp only [pgsize] at *
    omega
  have hlt := entry_lt s.page root v
  have hclear := pteFlags_clear (entry s.page root v)
  rw [hflags, show (pteR ||| pteU ||| pteW ||| pteV) &&& (2 ^ 64 - 1 - pteU) =
    pteR ||| pteW ||| pteV from rfl] at hclear
  refine wp_uvmclear h.table h.owns (.inl ⟨hva, ?_⟩) fun t _ ht => ?_
  · rw [mul_pgsize_div]
    intro hzero
    exact (h.user v hv).1 (by rw [hzero, Space.zero_invalid])
  · rw [mul_pgsize_div] at ht
    have hself : entry t.page root v = entry s.page root v &&& (2 ^ 64 - 1 - pteU) := by
      rw [ht.entry, Function.update_self]
    have hne : ∀ i, i ≠ v → entry t.page root i = entry s.page root i := fun i hi => by
      rw [ht.entry, Function.update_of_ne hi]
    have hleaf : ∀ i < n, IsLeaf (entry t.page root i) := by
      intro i hi
      by_cases hiv : i = v
      · rw [hiv, hself]
        exact isLeaf_of_flags hclear (by decide) (by decide)
      · rw [hne i hiv]
        exact h.user i hi
    have hpa : ∀ i < n, pte2pa (entry t.page root i) = pte2pa (entry s.page root i) := by
      intro i _
      by_cases hiv : i = v
      · rw [hiv, hself, pte2pa_clear hlt]
      · rw [hne i hiv]
    have hrest : ∀ i, n ≤ i → entry t.page root i = top i := by
      intro i hi
      rw [hne i (by omega)]
      exact h.rest i hi
    rw [← ht.entry] at ht
    obtain ⟨hspace, hchange, hpage⟩ := h.edited ht hleaf hpa hrest h.low
    refine hok t hspace hchange hne hpage ?_
    rw [hself]
    exact hclear

/-! ## The switch -/

theorem change_setWord (h : Owns s.toHeap {tf}) :
    Change s.toHeap { s with page := setWord s.page tf i w : Ram }.toHeap {tf} {tf} :=
  change_page h rfl _

/-- **Nothing can go wrong when the new program takes the place of the old one.** -/
theorem wp_commit {Q : Int × Proc → Ram → Prop} {p p' : Proc} {path : List UInt8} {entry : Nat} (hp : Ok b s p)
    (h : Space b s root (procTop b p.trapframe) (pgs sz))
    (hdisj : Disjoint (own s root (pgs sz)) (pagesOf s p)) (hentry : entry < 2 ^ 64)
    (hp' : p' = { p with pagetable := root, sz := sz, name := (baseName path).take 15 })
    (hok : ∀ t, Switched b s t p p' entry → Q (argc, p') t) :
    wp (commit b p path entry argc root sz sp) Q E s := by
  obtain ⟨hdisj_old, hdisj_tf⟩ := Set.disjoint_union_right.mp hdisj
  rw [commit]
  simp only [wp_bind, wp_store]
  generalize hpage : setWord (setWord (setWord s.page p.trapframe tfA1 sp) p.trapframe tfEpc entry)
    p.trapframe tfSp sp = page
  generalize hu : ({ s with page := page } : Ram) = u
  have hset : Change s.toHeap u.toHeap {p.trapframe} {p.trapframe} := by
    have h₁ := change_setWord (i := tfA1) (w := sp) hp.owns
    have h₂ := h₁.trans (change_setWord (i := tfEpc) (w := entry) h₁.owns)
    have h₃ := h₂.trans (change_setWord (i := tfSp) (w := sp) h₂.owns)
    rw [← hu, ← hpage]
    exact h₃
  have hword : word u.page p.trapframe tfEpc = entry := by
    rw [← hu, ← hpage]
    exact (word_setWord_of_ne (by simp)).trans (word_setWord_self (by decide) hentry)
  have hold := Set.disjoint_singleton_left.mpr hp.apart
  obtain ⟨hspace, hown, -⟩ := hp.space.other hset hold
  obtain ⟨hspace', hown', hkeeps'⟩ := h.other hset hdisj_tf.symm
  refine hspace.wp_procFreepagetable fun t ht => ?_
  rw [hown] at ht
  rw [wp_pure, ← hp']
  obtain ⟨hnew, hown'', hkeeps''⟩ := hspace'.other ht (by rw [hown']; exact hdisj_old.symm)
  subst hp'
  have hsame := ht.same_other hset.owns (Set.disjoint_singleton_right.mpr hp.apart) rfl
  refine hok t ⟨⟨hnew, hp.ram, ?_, ?_⟩, ?_, ?_, hkeeps'.trans hkeeps'', ?_⟩
  · exact ht.owns_other hset.owns (Set.disjoint_singleton_right.mpr hp.apart)
  · rw [hown'', hown']
    exact Set.disjoint_singleton_right.mp hdisj_tf
  · -- the new program's pages are a frame for both steps
    have hframe := hset.widen_left (hp.space.owns_own.union h.owns_own)
      (Set.disjoint_union_right.mpr ⟨hold, hdisj_tf.symm⟩)
    have hframe' := ht.widen (hset.owns.union (hset.owns_other h.owns_own hdisj_tf.symm))
      (Set.disjoint_union_right.mpr ⟨hold.symm, hdisj_old.symm⟩)
    refine (hframe.cast ?_ ?_).trans (hframe'.cast rfl ?_)
    · rw [pagesOf, Set.union_comm (own s p.pagetable _), Set.union_assoc]
    · rw [Set.union_assoc, Set.union_comm {p.trapframe}]
    · rw [pagesOf, hown'', hown', Set.empty_union, Set.union_comm]
  · intro x hx
    exact ((ht.mem x).mpr (.inr hx)).resolve_right fun h => h.elim
  · rw [word_congr hsame]
    exact hword

/-! ## From the loaded segments to the new program -/

theorem ubyte_keeps (h : Keeps s t root n) (hva : va < n * pgsize) :
    ubyte t root va = ubyte s root va := by
  have hv : va / pgsize < n := Nat.div_lt_of_lt_mul (by rwa [Nat.mul_comm])
  rw [ubyte, ubyte, uaddr, uaddr, h.entry _ hv]
  split
  · rfl
  · rw [Option.map_some, Option.map_some, h.page _ hv]

theorem wp_bad {Q : Option (Nat × Nat × Nat) → Ram → Prop}
    (h : Space b s root (procTop b tf) (pgs sz))
    (hok : ∀ t, Change s.toHeap t.toHeap (own s root (pgs sz)) ∅ → Q none t) :
    wp (bad b root sz) Q E s := by
  rw [bad, wp_bind]
  exact h.wp_procFreepagetable hok

/-- **The stack is made**, or all that has been done for the new program is undone. -/
theorem wp_start {Q : Option (Nat × Nat × Nat) → Ram → Prop} {argv : List (List UInt8)}
    (h : Space b s root (procTop b tf) (pgs sz)) (hfree : b.Free s)
    (hE : argv.length < maxArg ∨ ∀ e t, E e t)
    (hfail : ∀ t, Change s.toHeap t.toHeap (own s root (pgs sz)) ∅ → Q none t)
    (hok : ∀ t sp, Stacked b s t root (procTop b tf) (pgs sz) →
      Q (some (root, (pgs sz + 2) * pgsize, sp)) t) :
    wp (start b argv root sz) Q E s := by
  generalize hn : pgs sz = n at *
  have hle := h.le_ram
  have hround : pgroundup sz = n * pgsize := by
    have hsz := le_pgs_mul sz
    rw [← hn]
    refine pgroundup_eq ?_
    simp only [hn, pgsize] at *
    omega
  have hnew : u64 (n * pgsize + 2 * pgsize) = (n + 2) * pgsize := by
    simp only [u64, pgsize]
    omega
  have hguard : u64 ((n + 2) * pgsize + 2 ^ 64 - 2 * pgsize) = n * pgsize := by
    simp only [u64, pgsize]
    omega
  have hbase : u64 ((n + 2) * pgsize + 2 ^ 64 - pgsize) = (n + 1) * pgsize := by
    simp only [u64, pgsize]
    omega
  rw [start, hround, hnew, wp_bind]
  have hn' := pgs_mul n
  have hn'' := pgs_mul (n + 2)
  refine Space.wp_uvmalloc (by rwa [hn']) hfree (Nat.mul_le_mul_right pgsize (by omega)) (by decide)
    (fun t ht hchange _ => ?_) fun t ht hchange hkeeps hfresh => ?_
  · rw [if_pos rfl]
    refine wp_bad ht fun u hu => hfail u ?_
    rw [hn'] at hchange hu
    exact hchange.trans hu
  rw [hn', hn''] at hchange hfresh
  rw [hn''] at ht
  rw [hn'] at hkeeps
  rw [if_neg (by simp only [pgsize]; omega), hguard, hbase, wp_bind]
  have hflags := (hfresh n le_rfl (by omega)).1
  refine wp_guard ht (by omega) hflags fun u hu hchange' hne hpage hclear => ?_
  rw [wp_bind]
  have hkeeps' : Keeps t u root n :=
    ⟨fun v hv => hne v (by omega), fun v hv => by rw [← hpage v (by omega), hne v (by omega)]⟩
  have hchange := hchange.trans hchange'
  refine wp_pushStack hu (supervisor_procTop b tf) hE (fun w hw => ?_) fun w sp hw => ?_
  · refine wp_bad (by rw [hn'']; exact hw.space) fun x hx => hfail x ?_
    rw [hn''] at hx
    exact (hchange.trans hw.change).trans hx
  · refine hok w sp ⟨hw.space, hchange.trans hw.change, fun i hi => ?_, fun va hva => ?_, ?_, ?_⟩
    · rw [hw.entry, hkeeps'.entry i hi, hkeeps.entry i hi]
    · have hlow : va < (n + 1) * pgsize := hva.trans_le (Nat.mul_le_mul_right pgsize (by omega))
      rw [hw.below va hlow, ubyte_keeps hkeeps' hva, ubyte_keeps hkeeps hva]
    · rw [hw.entry]
      exact hclear
    · rw [hw.entry, hne (n + 1) (by omega)]
      exact (hfresh (n + 1) (by omega) (by omega)).1

end Stack

end Exec

end Xv6
