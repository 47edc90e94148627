import Xv6.Exec.Fork
import Xv6.Lib.Machine

/-!
# The address spaces of all processes

The processes of the table share the free list.  Each call takes pages off it, and gives pages back,
for one slot of the table: its own, or the slot of a child (`wp_perform`).
-/

namespace Xv6.Exec

open Heap Prog Vm Machine Function

/-- Memory, and the slots of `proc[]`: `none` for one that is `UNUSED`. -/
structure Sys where
  ram : Ram
  proc : Fin nproc → Option Proc

inductive Call where
  | fork
  | exec (path : List UInt8) (file : Option File) (argv : List (List UInt8))
  | sbrk (n : BitVec 32)
  | copyout (dst : Nat) (src : List UInt8)
  /-- The process has exited, and its parent has found it. -/
  | reap

/-- A call of the process `p` in slot `i`; what is returned is the table after it. -/
def perform (b : Boot) (proc : Fin nproc → Option Proc) (i : Fin nproc) (p : Proc) :
    Call → VM (Fin nproc → Option Proc)
  | .fork =>
    -- the loop of `allocproc`
    match (List.finRange nproc).find? fun j => (proc j).isNone with
    | none => pure proc
    | some j => do
      match ← Exec.fork b p with
      | none => pure proc
      | some np => pure (update proc j (some np))
  | .exec path file argv =>
    -- `sys_exec` has no room for more
    if argv.length < maxArg then do
      let (_, p') ← Exec.exec b p path file argv
      pure (update proc i (some p'))
    else pure proc
  | .sbrk n => do
    let (_, p') ← sysSbrk b p n.toInt
    pure (update proc i (some p'))
  | .copyout dst src => do
    let _ ← Vm.copyout p.pagetable dst (fun k => src.getD k 0) src.length
    pure proc
  | .reap => do
    freeproc b p.trapframe (some p.pagetable) p.sz
    pure (update proc i none)

/-- A call of the process in a slot; there is no next state if the kernel panics. -/
def next (b : Boot) (s : Sys) (a : Fin nproc × Call) : Option Sys :=
  match s.proc a.1 with
  | none => none
  | some p =>
    match perform b s.proc a.1 p a.2 s.ram with
    | .ok proc t => some ⟨t, proc⟩
    | .error _ _ => none

def Sys.start (r : Ram) (p : Proc) : Sys := ⟨r, update (fun _ => none) 0 (some p)⟩

def pages (s : Ram) : Option Proc → Set Nat
  | none => ∅
  | some p => pagesOf s p

/-- The process finds its registers and its memory as they were. -/
def Unmoved (s t : Ram) (p : Proc) : Prop :=
  t.page p.trapframe = s.page p.trapframe ∧ ∀ va, ubyte t p.pagetable va = ubyte s p.pagetable va

/-- So does every process but the one in slot `i`. -/
def Undisturbed (i : Fin nproc) (s t : Sys) : Prop :=
  ∀ k, k ≠ i → ∀ q ∈ s.proc k, q ∈ t.proc k ∧ Unmoved s.ram t.ram q

/-- Every page in `A` is free or belongs to one process. -/
structure Parted (b : Boot) (A : Set Nat) (s : Sys) : Prop where
  nodup : s.ram.free.Nodup
  free : b.Free s.ram
  ok : ∀ i, ∀ p ∈ s.proc i, Ok b s.ram p
  apart : ∀ i j, i ≠ j → Disjoint (pages s.ram (s.proc i)) (pages s.ram (s.proc j))
  all : ∀ x, x ∈ A ↔ x ∈ s.ram.free ∨ ∃ i, x ∈ pages s.ram (s.proc i)

section

variable {b : Boot} {r t : Ram} {p : Proc} {A B : Set Nat} {s : Sys} {i j : Fin nproc} {x : Option Proc}

theorem Ok.ram_pages (hp : Ok b r p) : ∀ y ∈ pagesOf r p, b.RamPage y := by
  rintro y (hy | rfl)
  · exact hp.space.ram_own y hy
  · exact hp.ram

theorem Ok.idle (hp : Ok b r p) (h : Change r.toHeap t.toHeap A B) (hA : Disjoint A (pagesOf r p)) :
    Ok b t p ∧ Change r.toHeap t.toHeap (A ∪ pagesOf r p) (B ∪ pagesOf t p) := by
  obtain ⟨hok, hpages, -⟩ := hp.other h hA
  rw [hpages]
  exact ⟨hok, h.widen hp.owns_pages hA⟩

theorem wp_sysSbrk {Q : Int × Proc → Ram → Prop} {E : Stop → Ram → Prop} {n : Int} (hp : Ok b r p)
    (hfree : b.Free r) (hn : -2 ^ 31 ≤ n ∧ n < 2 ^ 31)
    (hok : ∀ a t sz, Ok b t { p with sz } →
      Change r.toHeap t.toHeap (pagesOf r p) (pagesOf t { p with sz }) → Q (a, { p with sz }) t) :
    wp (sysSbrk b p n) Q E r := by
  have hsize : ∀ a t sz, Space b t p.pagetable (procTop b p.trapframe) (pgs sz) →
      Change r.toHeap t.toHeap (own r p.pagetable (pgs p.sz)) (own t p.pagetable (pgs sz)) →
      Q (a, { p with sz }) t := by
    intro a t sz ht hchange
    obtain ⟨ht, hchange⟩ := hp.resized p.name ht hchange
    exact hok a t sz ht hchange
  exact hp.wp_sysSbrk hfree hn (fun t sz _ ht hchange _ _ => hsize _ t sz ht hchange)
    (fun t _ ht hchange _ => hsize _ t p.sz ht hchange)
    fun _ => hsize _ r p.sz hp.space (.refl hp.space.owns_own)

/-- What happens to memory and to the table: slot `j` has got the process `x`. -/
structure Puts (b : Boot) (s : Sys) (j : Fin nproc) (t : Ram) (x : Option Proc) : Prop where
  ok : ∀ p ∈ x, Ok b t p
  change : Change s.ram.toHeap t.toHeap (pages s.ram (s.proc j)) (pages t x)

section

variable (h : Parted b A s) (hput : Puts b s j t x)
include h hput

theorem Parted.other (hij : i ≠ j) : pages t (s.proc i) = pages s.ram (s.proc i) ∧
    Disjoint (pages t x) (pages s.ram (s.proc i)) ∧
    ∀ p ∈ s.proc i, Ok b t p ∧ Unmoved s.ram t p := by
  have hdisj := h.apart j i hij.symm
  cases hi : s.proc i with
  | none => exact ⟨rfl, Set.disjoint_empty _, fun p hp => absurd hp (by simp)⟩
  | some p =>
    rw [hi] at hdisj
    have hp := h.ok i p hi
    obtain ⟨hok, hpages, -, htf⟩ := hp.other hput.change hdisj
    refine ⟨hpages, hput.change.disjoint_other hp.owns_pages hdisj, ?_⟩
    rintro q ⟨⟩
    exact ⟨hok, htf, ubyte_other hp hput.change hdisj⟩

theorem Parted.put : Parted b A ⟨t, update s.proc j x⟩ := by
  have hother := fun i (hij : i ≠ j) => h.other hput hij
  refine ⟨hput.change.owns.nodup, h.free.change hput.change ?_, ?_, fun i k hik => ?_, fun y => ?_⟩
  · cases hj : s.proc j with
    | none => exact fun y hy => hy.elim
    | some p => exact (h.ok j p hj).ram_pages
  · refine (forall_update_iff s.proc fun _ x => ∀ p ∈ x, Ok b t p).mpr ⟨hput.ok, fun i hij p hp => ?_⟩
    exact ((hother i hij).2.2 p hp).1
  · dsimp only
    by_cases hij : i = j
    · have hkj : k ≠ j := fun hkj => hik (hij.trans hkj.symm)
      rw [hij, update_self, update_of_ne hkj, (hother k hkj).1]
      exact (hother k hkj).2.1
    · rw [update_of_ne hij, (hother i hij).1]
      by_cases hkj : k = j
      · rw [hkj, update_self]
        exact (hother i hij).2.1.symm
      · rw [update_of_ne hkj, (hother k hkj).1]
        exact h.apart i k hik
  · have hrest : (∃ i ≠ j, y ∈ pages t (s.proc i)) ↔ ∃ i ≠ j, y ∈ pages s.ram (s.proc i) :=
      exists_congr fun i => and_congr_right fun hij => by rw [(hother i hij).1]
    have hold := exists_update_iff s.proc (a := j) (b := s.proc j) fun _ x => y ∈ pages s.ram x
    rw [update_eq_self] at hold
    rw [h.all, hold, exists_update_iff s.proc fun _ x => y ∈ pages t x, hrest, ← or_assoc, ← or_assoc]
    exact or_congr_left (hput.change.mem y).symm

end

/-- **A call changes one slot**: that of its process, or one that was unused. -/
theorem wp_perform {Q : (Fin nproc → Option Proc) → Ram → Prop} {E : Stop → Ram → Prop} (c : Call)
    (h : Parted b A s) (hi : s.proc i = some p)
    (hok : ∀ t j x, j = i ∨ s.proc j = none → Puts b s j t x → Q (update s.proc j x) t) :
    wp (perform b s.proc i p c) Q E s.ram := by
  have hp := h.ok i p hi
  -- the process is still in its slot, with pages of which some may be new
  have hself : ∀ t q, Ok b t q → Change s.ram.toHeap t.toHeap (pagesOf s.ram p) (pagesOf t q) →
      Q (update s.proc i (some q)) t := by
    intro t q hq hchange
    refine hok t i (some q) (.inl rfl) ⟨?_, by rwa [hi]⟩
    rintro _ ⟨⟩
    exact hq
  have hsame : ∀ t, Ok b t p → Change s.ram.toHeap t.toHeap (pagesOf s.ram p) (pagesOf t p) →
      Q s.proc t := by
    intro t ht hchange
    have := hself t p ht hchange
    rwa [← hi, update_eq_self] at this
  have hidle : ∀ t, Change s.ram.toHeap t.toHeap ∅ ∅ →
      Ok b t p ∧ Change s.ram.toHeap t.toHeap (pagesOf s.ram p) (pagesOf t p) := by
    intro t ht
    obtain ⟨hok, hchange⟩ := hp.idle ht (Set.empty_disjoint _)
    exact ⟨hok, hchange.cast (Set.empty_union _) (Set.empty_union _)⟩
  cases c with
  | fork =>
    rw [perform]
    cases hj : (List.finRange nproc).find? fun j => (s.proc j).isNone with
    | none => exact hsame s.ram hp (.refl hp.owns_pages)
    | some j =>
      have hnone := Option.isNone_iff_eq_none.mp (List.find?_some (p := fun j => (s.proc j).isNone) hj)
      rw [wp_bind]
      refine wp_fork hp h.free (fun t ht => hsame t (hidle t ht).1 (hidle t ht).2) fun t np hforked => ?_
      refine hok t j (some np) (.inr hnone) ⟨?_, by rw [hnone]; exact hforked.change⟩
      rintro _ ⟨⟩
      exact hforked.child
  | exec path file argv =>
    rw [perform]
    by_cases hargv : argv.length < maxArg
    · rw [if_pos hargv, wp_bind]
      refine wp_exec hp h.free (.inl hargv) (fun t ht => hself t p (hidle t ht).1 (hidle t ht).2)
        fun f root w x u t sz _ hprep hswitch => hself t _ hswitch.ok ?_
      obtain ⟨-, hchange⟩ := hp.idle hprep.change (Set.empty_disjoint _)
      refine (hchange.cast (Set.empty_union _) ?_).trans hswitch.change
      rw [execed, pgs_mul]
    · rw [if_neg hargv]
      exact hsame s.ram hp (.refl hp.owns_pages)
  | sbrk n =>
    rw [perform, wp_bind]
    exact wp_sysSbrk hp h.free ⟨BitVec.le_toInt n, BitVec.toInt_lt⟩ fun _ t _ => hself t _
  | copyout dst src =>
    have hstored : ∀ t k, Stored b s.ram t p.pagetable (procTop b p.trapframe) (pgs p.sz) dst k
        (fun k => src.getD k 0) → Q s.proc t := by
      intro t k hst
      obtain ⟨ht, hchange⟩ := hp.resized p.name hst.space hst.change
      exact hsame t ht hchange
    rw [perform, wp_bind]
    exact wp_copyout hp.space (supervisor_procTop b p.trapframe) (fun t k _ _ _ => hstored t k)
      fun t _ => hstored t _
  | reap =>
    rw [perform, wp_bind]
    refine wp_freeproc hp fun t ht => hok t i none (.inl rfl) ⟨fun q hq => absurd hq (by simp), ?_⟩
    rwa [hi]

theorem next_isolated (c : Call) (h : Parted b A s) (hi : s.proc i = some p) :
    ∃ t, next b s (i, c) = some t ∧ Parted b A t ∧ Undisturbed i s t := by
  have hwp : wp (perform b s.proc i p c)
      (fun proc t => Parted b A ⟨t, proc⟩ ∧ Undisturbed i s ⟨t, proc⟩) (fun _ _ => False) s.ram := by
    refine wp_perform c h hi fun t j x hj hput => ⟨h.put hput, fun k hk q hq => ?_⟩
    have hkj : k ≠ j := by
      rintro rfl
      rcases hj with hj | hj
      · exact hk hj
      · exact absurd (hj.symm.trans hq) (by simp)
    refine ⟨?_, ((h.other hput hkj).2.2 q hq).2⟩
    show q ∈ update s.proc j x k
    rwa [update_of_ne hkj]
  obtain ⟨proc, t, hrun, ht⟩ := hwp.exists_ok
  refine ⟨⟨t, proc⟩, ?_, ht⟩
  rw [next, hi]
  simp only [hrun]

theorem Parted.start (hp : Ok b r p) (hfree : b.Free r) :
    Parted b {x | x ∈ r.free ∨ x ∈ pagesOf r p} (.start r p) := by
  refine ⟨hp.owns.nodup, hfree, ?_, fun i j hij => ?_, fun x => or_congr_right ?_⟩
  · refine (forall_update_iff _ fun _ x => ∀ q ∈ x, Ok b r q).mpr ⟨?_, fun _ _ q hq => absurd hq (by simp)⟩
    rintro _ ⟨⟩
    exact hp
  · dsimp only [Sys.start]
    by_cases hi : i = 0
    · have hj : j ≠ 0 := hi ▸ hij.symm
      rw [update_of_ne hj]
      exact Set.disjoint_empty _
    · rw [update_of_ne hi]
      exact Set.empty_disjoint _
  · refine Iff.trans ?_ (exists_update_iff _ fun _ x' => x ∈ pages r x').symm
    simp [pages]

/-- **Processes are isolated.**  However they call the kernel, each page that the first process had or
that was free is free or belongs to one process.  Every call returns, and leaves the memory and the
registers of the other processes alone. -/
theorem isolated (hp : Ok b r p) (hfree : b.Free r) (hs : Reachable (next b) (.start r p) s) :
    Parted b {x | x ∈ r.free ∨ x ∈ pagesOf r p} s ∧
    ∀ i c, s.proc i ≠ none → ∃ t, next b s (i, c) = some t ∧ Undisturbed i s t := by
  have hparted : Parted b {x | x ∈ r.free ∨ x ∈ pagesOf r p} s := by
    refine hs.induction (.start hp hfree) fun s a t h hnext => ?_
    cases hi : s.proc a.1 with
    | none => exact absurd hnext (by rw [next, hi]; simp)
    | some p =>
      obtain ⟨u, hu, hparted, -⟩ := next_isolated a.2 h hi
      exact Option.some_inj.mp (hu.symm.trans hnext) ▸ hparted
  refine ⟨hparted, fun i c hi => ?_⟩
  obtain ⟨q, hq⟩ := Option.ne_none_iff_exists'.mp hi
  obtain ⟨t, ht, -, hother⟩ := next_isolated c hparted hq
  exact ⟨t, ht, hother⟩

end

/-- The first process forks, and its child is reaped. -/
theorem isolated_fork : ∃ s, Reachable (next smallBoot) (.start (firstRam 16) firstProc) s ∧
    s.proc 1 ≠ none ∧ ∃ t, next smallBoot s (1, .reap) = some t ∧ t.proc 0 = s.proc 0 := by
  obtain ⟨hok, hfree⟩ := firstProc_ok (.inr rfl)
  obtain ⟨s, hs, h0, h1⟩ : ∃ s, run (next smallBoot) (.start (firstRam 16) firstProc) [(0, .fork)] =
      some s ∧ (s.proc 0).isSome ∧ (s.proc 1).isSome := by decide +kernel
  rw [Option.isSome_iff_ne_none] at h0 h1
  obtain ⟨t, ht, hother⟩ := (isolated hok hfree ⟨_, hs⟩).2 1 .reap h1
  obtain ⟨p, hp⟩ := Option.ne_none_iff_exists'.mp h0
  exact ⟨s, ⟨_, hs⟩, h1, t, ht, (hother 0 (by decide) p hp).1.trans hp.symm⟩

end Xv6.Exec
