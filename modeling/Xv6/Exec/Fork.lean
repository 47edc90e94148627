import Xv6.Exec.Sbrk

/-!
# `fork`

What `fork` of `kernel/proc.c` does to memory, with `allocproc` and `freeproc`.  `uvmcopy` takes up to
three pages for tables and one for the copy in each round, and any of these may be missing: then the
pages copied so far, the page table and the trapframe of the child go back.
-/

namespace Xv6.Exec

open Heap Prog Vm

/-- `freeproc(p)`, for a process that has a trapframe. -/
def freeproc (b : Boot) (trapframe : Nat) (pagetable : Option Nat) (sz : Nat) : VM Unit := do
  kfree b trapframe
  match pagetable with
  | none => pure ()
  | some pagetable => procFreepagetable b pagetable sz

/-- `allocproc()`, once it has found a slot. -/
def allocproc (b : Boot) : VM (Option Proc) := do
  match ← kalloc with
  | none => pure none
  | some trapframe =>
    match ← procPagetable b trapframe with
    | none => do
      freeproc b trapframe none 0
      pure none
    | some pagetable => pure (some ⟨pagetable, 0, trapframe, []⟩)

/-- `sizeof(struct trapframe)`. -/
abbrev trapframeSize : Nat := 288

abbrev tfA0 : Nat := 14

/-- `fork()`: the child, or `none` for -1. -/
def fork (b : Boot) (p : Proc) : VM (Option Proc) := do
  match ← allocproc b with
  | none => pure none
  | some np =>
    if (← uvmcopy b p.pagetable np.pagetable p.sz) < 0 then
      freeproc b np.trapframe (some np.pagetable) np.sz
      pure none
    else
      let s ← get
      moveIn np.trapframe 0 trapframeSize (s.page p.trapframe).byte
      store np.trapframe tfA0 0
      pure (some { np with sz := p.sz, name := p.name.take 15 })

/-- `np` is a copy of `p`, on pages of its own. -/
structure Forked (b : Boot) (s t : Ram) (p np : Proc) : Prop where
  parent : Ok b t p
  child : Ok b t np
  change : Change s.toHeap t.toHeap ∅ (pagesOf t np)
  sz : np.sz = p.sz
  flags : ∀ v < pgs p.sz,
    pteFlags (entry t.page np.pagetable v) = pteFlags (entry s.page p.pagetable v)
  byte : ∀ va, ubyte t np.pagetable va = ubyte s p.pagetable va
  regs : ∀ i < trapframeSize / 8,
    word t.page np.trapframe i = if i = tfA0 then 0 else word s.page p.trapframe i

/-- The pages from `n` to `m` have been copied, with their permissions. -/
def Copied (s t : Ram) (old new n m : Nat) : Prop :=
  ∀ v, n ≤ v → v < m → pteFlags (entry t.page new v) = pteFlags (entry s.page old v) ∧
    t.page (pte2pa (entry t.page new v)) = s.page (pte2pa (entry s.page old v))

section Copy

variable {b : Boot} {s t : Ram} {old new n m k pte : Nat} {top top' : Nat → Nat} {E : Stop → Ram → Prop}

theorem pteFlags_lt (pte : Nat) : pteFlags pte < 1024 := by
  rw [pteFlags_eq]
  exact Nat.mod_lt _ (by decide)

theorem pteFlags_or_valid (h : IsLeaf pte) : pteFlags pte ||| pteV = pteFlags pte := by
  have hodd : pteFlags pte % 2 = 1 := by
    have hbit := h.1
    rw [show pteV = 1 from rfl, Nat.and_one_is_mod] at hbit
    rw [pteFlags_eq]
    omega
  have hsplit : pteFlags pte = 2 ^ 1 * (pteFlags pte / 2) ||| pteV := by
    rw [← Nat.two_pow_add_eq_or_of_lt (by decide), show pteV = 1 from rfl]
    omega
  rw [hsplit, Nat.or_assoc, Nat.or_self]

/-- **`uvmcopy` copies the pages in order, or takes those it has copied away again.** -/
theorem wp_uvmcopyFrom {Q : Int → Ram → Prop} (h : Space b s old top m) (h' : Space b s new top' n)
    (hfree : b.Free s) (hdisj : Disjoint (own s new n) (own s old m)) (hm : n + k = m)
    (hfail : ∀ t, Space b t new top' 0 → Change s.toHeap t.toHeap (own s new n) (own t new 0) → Q (-1) t)
    (hok : ∀ t, Space b t new top' m → Change s.toHeap t.toHeap (own s new n) (own t new m) →
      Keeps s t new n → Copied s t old new n m → Q 0 t) :
    wp (uvmcopyFrom b old new k (n * pgsize)) Q E s := by
  -- `k` rounds are left; one that fails takes all pages below `n` away
  induction k generalizing s n with
  | zero =>
    obtain rfl : n = m := hm
    exact hok s h' (.refl h'.owns_own) (.refl s new n) fun v hv hv' => absurd hv' (Nat.not_lt_of_le hv)
  | succ k ih =>
    have hn : n < m := by omega
    have hleaf := h.user n hn
    have hpa := h.pa_mem hn
    have hva : n * pgsize < maxva := mul_pgsize_lt ((hn.trans h.lt_tfVpn).trans (by decide))
    rw [uvmcopyFrom, wp_bind, wp_walk_false hva]
    cases hbot : bottom s.page old (n * pgsize) with
    | none =>
      have hzero := entry_of_bottom_none hbot
      rw [mul_pgsize_div] at hzero
      exact absurd (hzero ▸ hleaf.1) (by decide)
    | some pg =>
      have hentry := entry_of_bottom hbot hva
      rw [mul_pgsize_div] at hentry
      simp only [Option.map_some, wp_bind, wp_load, ← hentry]
      rw [if_neg hleaf.1, wp_bind]
      refine h'.wp_addPage hfree (pteFlags_lt _) ?_ (c := fun t => t.page (pte2pa (entry s.page old n)))
        (fun _ _ _ => Iff.rfl) (fun mem t ht => ht.same_other h.owns_own (Set.empty_disjoint _) hpa)
        (fun t ht hchange _ => ?_) fun t ht hchange hkeeps hflags hpage => ?_
      · rw [pteFlags_or_valid hleaf]
        exact hleaf.2
      · rw [if_neg (by decide), mul_pgsize_div, wp_bind, ← Nat.zero_mul pgsize]
        exact ht.wp_unmap (Nat.zero_le n) fun u hu hchange' _ => hfail u hu (hchange.trans hchange')
      · obtain ⟨hold, hown, hsame⟩ := h.other hchange hdisj
        rw [if_pos rfl, next_page h'.lt_tfVpn]
        refine ih hold ht (hfree.change hchange h'.ram_own) ?_ (by omega)
          (fun u hu hchange' => hfail u hu (hchange.trans hchange'))
          fun u hu hchange' hkeeps' hcopied => ?_
        · rw [hown]
          exact hchange.disjoint_other h.owns_own hdisj
        · refine hok u hu (hchange.trans hchange') (hkeeps.trans (hkeeps'.mono (by omega))) ?_
          intro v hv hv'
          rcases Nat.eq_or_lt_of_le hv with rfl | hlt
          · rw [hkeeps'.entry n (by omega), hkeeps'.page n (by omega), hflags, hpage]
            exact ⟨pteFlags_or_valid hleaf, rfl⟩
          · have hv := hcopied v hlt hv'
            rwa [hsame.entry v hv', hsame.page v hv'] at hv

end Copy

section Fork

variable {b : Boot} {s t : Ram} {p : Proc} {E : Stop → Ram → Prop} {A B : Set Nat}

section

variable (hp : Ok b s p)
include hp

theorem Ok.owns_pages : Owns s.toHeap (pagesOf s p) := hp.space.owns_own.union hp.owns

/-- Nothing has happened to the pages of the process. -/
theorem Ok.other (h : Change s.toHeap t.toHeap A B) (hA : Disjoint A (pagesOf s p)) :
    Ok b t p ∧ pagesOf t p = pagesOf s p ∧ Keeps s t p.pagetable (pgs p.sz) ∧
      t.page p.trapframe = s.page p.trapframe := by
  obtain ⟨hA, htf⟩ := Set.disjoint_union_right.mp hA
  obtain ⟨hspace, hown, hkeeps⟩ := hp.space.other h hA
  refine ⟨⟨hspace, hp.ram, h.owns_other hp.owns htf, ?_⟩, ?_, hkeeps, h.same_other hp.owns htf rfl⟩
  · rw [hown]
    exact hp.apart
  · rw [pagesOf, hown, pagesOf]

theorem Ok.resized {sz : Nat} (name : List UInt8)
    (ht : Space b t p.pagetable (procTop b p.trapframe) (pgs sz))
    (h : Change s.toHeap t.toHeap (own s p.pagetable (pgs p.sz)) (own t p.pagetable (pgs sz))) :
    Ok b t { p with sz, name } ∧
      Change s.toHeap t.toHeap (pagesOf s p) (pagesOf t { p with sz, name }) := by
  have hdisj := Set.disjoint_singleton_right.mpr hp.apart
  exact ⟨⟨ht, hp.ram, h.owns_other hp.owns hdisj,
    Set.disjoint_singleton_right.mp (h.disjoint_other hp.owns hdisj)⟩, h.widen hp.owns hdisj⟩

/-- **`freeproc` gives back the pages of the process**, and nothing else. -/
theorem wp_freeproc {Q : Unit → Ram → Prop} (hok : ∀ t, Change s.toHeap t.toHeap (pagesOf s p) ∅ → Q () t) :
    wp (freeproc b p.trapframe (some p.pagetable) p.sz) Q E s := by
  rw [freeproc, wp_bind]
  refine wp_kfree hp.ram hp.owns fun t ht => ?_
  obtain ⟨hspace, hown, -⟩ := hp.space.other ht (Set.disjoint_singleton_left.mpr hp.apart)
  refine hspace.wp_procFreepagetable fun u hu => hok u ((ht.given hp.space.owns_own hp.apart).trans ?_)
  rw [← hown]
  exact hu

theorem ubyte_other (h : Change s.toHeap t.toHeap A B) (hA : Disjoint A (pagesOf s p)) (va : Nat) :
    ubyte t p.pagetable va = ubyte s p.pagetable va := by
  obtain ⟨ht, -, hkeeps, -⟩ := hp.other h hA
  exact (same_of_keeps hp ht.space hkeeps).2 va

end

theorem wp_allocproc {Q : Option Proc → Ram → Prop} (hs : s.free.Nodup) (hfree : b.Free s)
    (hfail : ∀ t, Change s.toHeap t.toHeap ∅ ∅ → Q none t)
    (hok : ∀ t np, Ok b t np → np.sz = 0 → Change s.toHeap t.toHeap ∅ (pagesOf t np) → Q (some np) t) :
    wp (allocproc b) Q E s := by
  rw [allocproc, wp_bind]
  refine wp_kalloc hs (fun t ht => hfail t ?_) fun tf t htf htake => ?_
  · rw [ht]
    exact .refl ⟨hs, fun x hx => hx.elim⟩
  have hram := hfree tf htf
  have hend : tf + pgsize ≤ 2 ^ 56 := by
    have hlt := hram.2.2
    simp only [phystop, kernbase, pgsize] at *
    omega
  refine .bind (wp_procPagetable htake.owns.nodup (hfree.change htake fun x hx => hx.elim) hend
    (fun u hu => ?_) fun u root hspace hu => ?_)
  · rw [wp_bind, freeproc, wp_bind]
    have howns := hu.owns_other htake.owns (Set.empty_disjoint _)
    refine wp_kfree hram howns fun w hw => hfail w (htake.trans (.trans ?_ hw))
    exact (hu.widen htake.owns (Set.empty_disjoint _)).cast (Set.empty_union _) (Set.empty_union _)
  · have hspace : Space b u root (procTop b tf) (pgs 0) := hspace
    have hu : Change t.toHeap u.toHeap ∅ (own u root (pgs 0)) := hu
    have hdisj := Set.empty_disjoint {tf}
    refine hok u _ ⟨hspace, hram, hu.owns_other htake.owns hdisj,
      Set.disjoint_singleton_right.mp (hu.disjoint_other htake.owns hdisj)⟩ rfl (htake.trans ?_)
    exact (hu.widen htake.owns hdisj).cast (Set.empty_union _) rfl

theorem and_pteFlags {pte pte' f : Nat} (h : pteFlags pte = pteFlags pte') (hf : 0x3FF &&& f = f) :
    pte &&& f = pte' &&& f := by
  rw [← hf, ← Nat.and_assoc, ← Nat.and_assoc]
  exact congrArg (· &&& f) h

/-- A user program finds the same bytes in a copy. -/
theorem ubyte_copied {np : Proc} (hp : Ok b s p) (hnp : Ok b t np) (hsz : np.sz = p.sz)
    (h : Copied s t p.pagetable np.pagetable 0 (pgs p.sz)) (va : Nat) :
    ubyte t np.pagetable va = ubyte s p.pagetable va := by
  have hpos : ∀ pa, b.RamPage pa → pa ≠ 0 := by
    rintro _ hram rfl
    have hlow := b.tramp_le
    have := hram.2.1
    simp only [pgsize] at *
    omega
  by_cases hv : va / pgsize < pgs p.sz
  · obtain ⟨hflags, hpage⟩ := h _ (Nat.zero_le _) hv
    have hne := hpos _ (hp.space.ram_own _ (hp.space.pa_mem hv))
    have hne' := hpos _ (hnp.space.ram_own _ (hnp.space.pa_mem (hsz ▸ hv)))
    rw [ubyte, ubyte, uaddr, uaddr, and_pteFlags hflags rfl, and_pteFlags hflags rfl]
    simp only [hne, hne', or_false]
    split
    · rfl
    · rw [Option.map_some, Option.map_some, hpage]
  · have hnone : ∀ {u : Ram} {q : Proc}, Ok b u q → q.sz = p.sz → ubyte u q.pagetable va = none := by
      intro u q hq hqsz
      rw [ubyte, uaddr, hq.space.rest _ (by rw [hqsz]; omega)]
      rw [if_pos ((supervisor_procTop b q.trapframe _).imp_right .inl)]
      rfl
    rw [hnone hnp hsz, hnone hp rfl]

theorem word_splice {page : Nat → Page} {tf tf' i : Nat} (hi : i < trapframeSize / 8) :
    word (Function.update page tf ((page tf).splice 0 trapframeSize (page tf').byte)) tf i =
      word page tf' i := by
  rw [word, word, Function.update_self]
  refine Bytes.read_congr fun j hj hj' => ?_
  have hlt : j < trapframeSize := by
    simp only [trapframeSize] at *
    omega
  rw [Bytes.byte_splice_of_mem (hlt.trans (by decide)) (Nat.zero_le j) (by omega), Nat.sub_zero]

/-- The end of `fork`: the saved registers are copied. -/
theorem Forked.of_copied {np : Proc} {w : Ram} (hp : Ok b s p) (hnp : Ok b t np)
    (hchange : Change s.toHeap t.toHeap ∅ (pagesOf t np)) (hsz : np.sz = p.sz)
    (hcopied : Copied s t p.pagetable np.pagetable 0 (pgs p.sz))
    (hw : w = { t with page := setWord (Function.update t.page np.trapframe
      ((t.page np.trapframe).splice 0 trapframeSize (t.page p.trapframe).byte)) np.trapframe tfA0 0 }) :
    Forked b s w p np := by
  have htf := Set.disjoint_singleton_left.mpr hnp.apart
  have hset : Change t.toHeap w.toHeap {np.trapframe} {np.trapframe} := by
    have hmove := change_page hnp.owns rfl
      ((t.page np.trapframe).splice 0 trapframeSize (t.page p.trapframe).byte)
    rw [hw]
    exact hmove.trans (change_setWord (s := { t with page := _ }) hmove.owns)
  obtain ⟨hspace, hown, hkeeps⟩ := hnp.space.other hset htf
  have hnp' : Ok b w np := ⟨hspace, hnp.ram, hset.owns, by rw [hown]; exact hnp.apart⟩
  have hchange' : Change s.toHeap w.toHeap ∅ (pagesOf w np) := by
    rw [pagesOf, hown]
    exact hchange.trans (hset.widen_left hnp.space.owns_own htf)
  have hcopied' : Copied s w p.pagetable np.pagetable 0 (pgs p.sz) := by
    intro v hv hv'
    rw [hkeeps.entry v (hsz ▸ hv'), hkeeps.page v (hsz ▸ hv')]
    exact hcopied v hv hv'
  obtain ⟨hp', -⟩ := hp.other hchange' (Set.empty_disjoint _)
  refine ⟨hp', hnp', hchange', hsz, fun v hv => (hcopied' v (Nat.zero_le v) hv).1,
    ubyte_copied hp hnp' hsz hcopied', fun i hi => ?_⟩
  rw [hw]
  split
  · rename_i ha0
    rw [ha0]
    exact word_setWord_self (by decide) (by decide)
  · rename_i ha0
    refine (word_setWord_of_ne fun h => ha0 h.2).trans ((word_splice hi).trans ?_)
    exact word_congr (hchange.same_other hp.owns (Set.empty_disjoint _) rfl) i

/-- **`fork` makes a copy, or nothing has happened.** -/
theorem wp_fork {Q : Option Proc → Ram → Prop} (hp : Ok b s p) (hfree : b.Free s)
    (hfail : ∀ t, Change s.toHeap t.toHeap ∅ ∅ → Q none t)
    (hok : ∀ t np, Forked b s t p np → Q (some np) t) : wp (fork b p) Q E s := by
  have hcount : (p.sz + pgsize - 1) / pgsize = pgs p.sz := rfl
  rw [fork, wp_bind]
  refine wp_allocproc hp.owns.nodup hfree hfail fun t np hnp hsz halloc => ?_
  obtain ⟨hp', hdisj⟩ := hp.beside halloc
  have hempty : pgs np.sz = 0 := by rw [hsz]; rfl
  have hspace := hnp.space
  rw [hempty] at hspace
  obtain ⟨hold, -⟩ := Set.disjoint_union_right.mp (Set.disjoint_union_left.mp hdisj).1
  rw [hempty] at hold
  simp only [wp_bind, uvmcopy, hcount]
  rw [← Nat.zero_mul pgsize]
  refine wp_uvmcopyFrom hp'.space hspace (hfree.change halloc fun x hx => hx.elim) hold (Nat.zero_add _)
    (fun u hu hchange => ?_) fun u hu hchange _ hcopied => ?_
  · rw [if_pos (by decide), wp_bind]
    rw [← hempty] at hu hchange
    obtain ⟨hnp, hchange⟩ := hnp.resized np.name hu hchange
    exact wp_freeproc hnp fun w hw => hfail w ((halloc.trans hchange).trans hw)
  · rw [if_neg (by decide)]
    rw [← hempty] at hchange
    obtain ⟨hnp, hchange⟩ := hnp.resized (p.name.take 15) hu hchange
    refine hok _ _ (.of_copied hp hnp (halloc.trans hchange) rfl ?_ rfl)
    obtain ⟨-, -, hkeeps, -⟩ := hp.other halloc (Set.empty_disjoint _)
    intro v hv hv'
    have hcopy := hcopied v hv hv'
    rwa [hkeeps.entry v hv', hkeeps.page v hv'] at hcopy

/-- **`fork` makes an equal address space on other pages, or does nothing.**  It returns; if it fails,
pages that were not free are as they were, and the same pages are free.  Otherwise the child has the
memory, the permissions and, but for `a0`, the registers of the parent, and no page of it. -/
theorem fork_copies (hp : Ok b s p) (hfree : b.Free s) : ∃ r t, fork b p s = .ok r t ∧
    (r = none → (∀ x, x ∉ s.free → t.page x = s.page x) ∧ t.free.Perm s.free) ∧
    ∀ np, r = some np → Forked b s t p np ∧ Disjoint (pagesOf t np) (pagesOf t p) := by
  refine (wp_fork hp hfree (fun t ht => ?_) fun t np h => ?_).exists_ok
  · exact ⟨fun _ => ⟨fun x => ht.same x fun h => h.elim, ht.perm ⟨hp.owns.nodup, fun x hx => hx.elim⟩⟩,
      fun np hnp => absurd hnp (by simp)⟩
  · refine ⟨fun hr => absurd hr (by simp), fun np' hnp' => ?_⟩
    cases hnp'
    exact ⟨h, (hp.beside h.change).2⟩

end Fork

/-- The first process forks. -/
theorem fork_copies_first : ∃ np t, fork smallBoot firstProc (firstRam 16) = .ok (some np) t ∧
    Forked smallBoot (firstRam 16) t firstProc np := by
  obtain ⟨hok, hfree⟩ := firstProc_ok (.inr rfl)
  obtain ⟨r, t, hrun, -, hsome⟩ := fork_copies hok hfree
  have hvalue : (value (fork smallBoot firstProc) (firstRam 16)).join.isSome := by decide +kernel
  rw [value, hrun] at hvalue
  obtain ⟨np, rfl⟩ := Option.isSome_iff_exists.mp hvalue
  exact ⟨np, t, hrun, (hsome np rfl).1⟩

end Xv6.Exec
