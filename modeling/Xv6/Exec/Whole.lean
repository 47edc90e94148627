import Xv6.Exec.Start
import Xv6.Vm.Built

/-!
# `exec` as a whole

`Prepared` puts together what has happened when nothing can fail any more: the memory after
`proc_pagetable`, after the segments have been loaded and after the stack has been made.
-/

namespace Xv6

namespace Exec

open Heap Prog Vm

def elfOf (file : File) : Elfhdr := elfhdr (readi file 0 elfhdrSize)

/-- The program headers of a file, as `exec` reads them: the offset loses what does not fit 32 bits. -/
def phdrsOf (file : File) : List Proghdr := phdrs file (u32 (elfOf file).phoff) (elfOf file).phnum

/-- A new program has been prepared, beside the old one.  The memory is `s` before and `u` after that; in
between, `r` is the memory with an empty address space and `x` with the segments, of the size `sz`. -/
structure Prepared (b : Boot) (tf : Nat) (file : File) (root : Nat) (s r x u : Ram) (sz : Nat) : Prop where
  header : (readi file 0 elfhdrSize).length = elfhdrSize
  magic : (elfOf file).magic = elfMagic
  table : ∀ i < (elfOf file).phnum,
    u32 (u32 (elfOf file).phoff + i * proghdrSize) + proghdrSize ≤ file.data.length
  empty : Space b r root (procTop b tf) 0
  chain : Chain b file root (procTop b tf) (phdrsOf file) 0 r sz x
  loaded : Space b x root (procTop b tf) (pgs sz)
  stacked : Stacked b x u root (procTop b tf) (pgs sz)
  change : Change s.toHeap u.toHeap ∅ (own u root (pgs sz + 2))

/-- A process after `exec` has given it a program of the size `sz`, before the stack. -/
def execed (p : Proc) (path : List UInt8) (root sz : Nat) : Proc :=
  { p with
    pagetable := root
    sz := (pgs sz + 2) * pgsize
    name := (baseName path).take 15 }

section Whole

variable {b : Boot} {s : Ram} {p : Proc} {path : List UInt8} {argv : List (List UInt8)}
  {E : Stop → Ram → Prop}

/-- **A new program is prepared, or nothing has happened.** -/
theorem wp_prepare {Q : Option (Nat × Nat × Nat) → Ram → Prop} {file : File} {tf : Nat}
    (hs : s.free.Nodup) (hfree : b.Free s) (htf : tf + pgsize ≤ 2 ^ 56)
    (hE : argv.length < maxArg ∨ ∀ e t, E e t) (hfail : ∀ t, Change s.toHeap t.toHeap ∅ ∅ → Q none t)
    (hok : ∀ root r x u sz sp, Prepared b tf file root s r x u sz →
      Q (some (root, (pgs sz + 2) * pgsize, sp)) u) :
    wp (prepare b tf file argv) Q E s := by
  have hsame : Q none s := hfail s (.refl ⟨hs, fun x hx => hx.elim⟩)
  have hram : ∀ x ∈ (∅ : Set Nat), b.RamPage x := fun x hx => hx.elim
  rw [prepare]
  show wp (if _ then _ else if _ then _ else _) Q E s
  by_cases hheader : (readi file 0 elfhdrSize).length = elfhdrSize
  swap
  · rw [if_pos hheader]
    exact hsame
  rw [if_neg (not_not_intro hheader)]
  by_cases hmagic : (elfhdr (readi file 0 elfhdrSize)).magic = elfMagic
  swap
  · rw [if_pos hmagic]
    exact hsame
  rw [if_neg (not_not_intro hmagic), wp_bind]
  refine wp_procPagetable hs hfree htf hfail fun r root hr hcreate => ?_
  have hr : Space b r root (procTop b tf) (pgs 0) := hr
  refine .bind (wp_loadPhdrs hr (hfree.change hcreate hram) (supervisor_procTop b tf)
    (fun v hv => absurd hv (Nat.not_lt_zero v)) (u32_lt _) (fun x sz hx hload => ?_)
    fun x sz htable hchain hx huser hload => ?_)
  · rw [if_neg (by simp)]
    exact wp_bad hx fun t ht => hfail t ((hcreate.trans hload).trans ht)
  · rw [if_pos rfl]
    have hload : Change s.toHeap x.toHeap ∅ (own x root (pgs sz)) := hcreate.trans hload
    refine wp_start hx (hfree.change hload hram) hE (fun t ht => hfail t (hload.trans ht))
      fun u sp hstack => ?_
    exact hok root r x u sz sp
      ⟨hheader, hmagic, htable, hr, hchain, hx, hstack, hload.trans hstack.change⟩

theorem trapframe_le (hp : Ok b s p) : p.trapframe + pgsize ≤ 2 ^ 56 := by
  have htf := hp.ram.2.2
  simp only [phystop, kernbase, pgsize] at *
  omega

theorem Ok.beside {u : Ram} {A : Set Nat} (hp : Ok b s p) (h : Change s.toHeap u.toHeap ∅ A) :
    Ok b u p ∧ Disjoint A (pagesOf u p) := by
  have hold : Owns s.toHeap (pagesOf s p) := hp.space.owns_own.union hp.owns
  obtain ⟨hspace, hown, -⟩ := hp.space.other h (Set.empty_disjoint _)
  refine ⟨⟨hspace, hp.ram, h.owns_other hp.owns (Set.empty_disjoint _), ?_⟩, ?_⟩
  · rw [hown]
    exact hp.apart
  · rw [pagesOf, hown]
    exact h.disjoint_other hold (Set.empty_disjoint _)

theorem Prepared.wp_commit {Q : Int × Proc → Ram → Prop} {file : File} {root sz sp argc : Nat} {r x u : Ram}
    (hp : Ok b s p) (h : Prepared b p.trapframe file root s r x u sz)
    (hok : ∀ t, Switched b u t p (execed p path root sz) (elfOf file).entry →
      Q (argc, execed p path root sz) t) :
    wp (commit b p path (elfOf file).entry argc root ((pgs sz + 2) * pgsize) sp) Q E u := by
  obtain ⟨hp', hdisj⟩ := hp.beside h.change
  have hn := pgs_mul (pgs sz + 2)
  refine Exec.wp_commit hp' ?_ ?_ (le_lt _ 24 8) rfl hok
  · rw [hn]
    exact h.stacked.space
  · rw [hn]
    exact hdisj

theorem wp_exec {Q : Int × Proc → Ram → Prop} {file : Option File} (hp : Ok b s p) (hfree : b.Free s)
    (hE : argv.length < maxArg ∨ ∀ e t, E e t) (hfail : ∀ t, Change s.toHeap t.toHeap ∅ ∅ → Q (-1, p) t)
    (hok : ∀ f root r x u t sz, file = some f → Prepared b p.trapframe f root s r x u sz →
      Switched b u t p (execed p path root sz) (elfOf f).entry →
      Q (argv.length, execed p path root sz) t) :
    wp (exec b p path file argv) Q E s := by
  have hnodup := hp.owns.nodup
  cases file with
  | none => exact hfail s (.refl ⟨hnodup, fun x hx => hx.elim⟩)
  | some f =>
    rw [exec, wp_bind]
    refine wp_prepare hnodup hfree (trapframe_le hp) hE hfail fun root r x u sz sp hprep => ?_
    exact hprep.wp_commit hp fun t ht => hok f root r x u t sz rfl hprep ht

theorem exec_cases {file : Option File} {p' : Proc} {r : Int} {t : Ram} (hp : Ok b s p)
    (hfree : b.Free s) (h : exec b p path file argv s = .ok (r, p') t) :
    (r = -1 ∧ p' = p ∧ Change s.toHeap t.toHeap ∅ ∅) ∨
    (r = argv.length ∧ ∃ f root w x u sz, file = some f ∧ p' = execed p path root sz ∧
      Prepared b p.trapframe f root s w x u sz ∧ Switched b u t p p' (elfOf f).entry) := by
  have hwp : wp (exec b p path file argv)
      (fun a t => (a.1 = -1 ∧ a.2 = p ∧ Change s.toHeap t.toHeap ∅ ∅) ∨
        (a.1 = argv.length ∧ ∃ f root w x u sz, file = some f ∧ a.2 = execed p path root sz ∧
          Prepared b p.trapframe f root s w x u sz ∧ Switched b u t p a.2 (elfOf f).entry))
      (fun _ _ => True) s :=
    wp_exec hp hfree (.inr fun _ _ => trivial) (fun t ht => .inl ⟨rfl, rfl, ht⟩)
      fun f root w x u t sz hfile hprep hswitch =>
        .inr ⟨rfl, f, root, w, x, u, sz, hfile, rfl, hprep, hswitch⟩
  rwa [wp_of_ok h] at hwp

theorem exec_of_prepare {file : File} {root sz sp : Nat} (path : List UInt8) (hp : Ok b s p)
    (hfree : b.Free s)
    (h : value (prepare b p.trapframe file argv) s = some (some (root, sz, sp))) :
    ∃ p' t, exec b p path (some file) argv s = .ok ((argv.length : Int), p') t := by
  have hrun := eq_ok_of_value h
  have hprep : wp (prepare b p.trapframe file argv)
      (fun a u => ∀ root sz sp, a = some (root, sz, sp) →
        ∃ r x sz₀, Prepared b p.trapframe file root s r x u sz₀ ∧ sz = (pgs sz₀ + 2) * pgsize)
      (fun _ _ => True) s := by
    refine wp_prepare hp.owns.nodup hfree (trapframe_le hp) (.inr fun _ _ => trivial)
      (fun t _ _ _ _ h => absurd h (by simp)) fun root r x u sz sp hprep _ _ _ heq => ?_
    obtain ⟨rfl, rfl, rfl⟩ := by simpa using heq
    exact ⟨r, x, sz, hprep, rfl⟩
  obtain ⟨r, x, sz₀, hprep, rfl⟩ := (wp_of_ok hrun).mp hprep root sz sp rfl
  have hwp : wp (exec b p path (some file) argv) (fun a _ => a.1 = argv.length) (fun _ _ => False) s := by
    rw [exec, wp_bind, wp_of_ok hrun]
    exact hprep.wp_commit hp fun _ _ => rfl
  obtain ⟨⟨r, p'⟩, t, hexec, rfl⟩ := hwp.exists_ok
  exact ⟨p', t, hexec⟩

theorem ubyte_of_change {t : Ram} (hp : Ok b s p) (h : Change s.toHeap t.toHeap ∅ ∅) (va : Nat) :
    ubyte t p.pagetable va = ubyte s p.pagetable va := by
  obtain ⟨hspace, -, hkeeps⟩ := hp.space.other h (Set.empty_disjoint _)
  by_cases hva : va < pgs p.sz * pgsize
  · exact ubyte_keeps hkeeps hva
  · have hv : pgs p.sz ≤ va / pgsize := by
      simp only [pgsize] at *
      omega
    have hnone : ∀ {u : Ram}, Space b u p.pagetable (procTop b p.trapframe) (pgs p.sz) →
        ubyte u p.pagetable va = none := by
      intro u hu
      rw [ubyte]
      cases hpa : uaddr u.page p.pagetable va with
      | none => rfl
      | some pa =>
        exact absurd (hu.of_uaddr (supervisor_procTop b p.trapframe) hpa).1 (Nat.not_lt_of_le hv)
    rw [hnone hspace, hnone hp.space]

/-- **`exec` does all or nothing.**  If it fails, the process, its trapframe and its memory are as they
were, and so is the set of free pages; otherwise each page of the old program is free, once. -/
theorem exec_all_or_nothing {file : Option File} {p' : Proc} {r : Int} {t : Ram} (hp : Ok b s p)
    (hfree : b.Free s) (h : exec b p path file argv s = .ok (r, p') t) :
    (r = -1 → p' = p ∧ (∀ x, x ∉ s.free → t.page x = s.page x) ∧
      t.page p.trapframe = s.page p.trapframe ∧
      (∀ va, ubyte t p.pagetable va = ubyte s p.pagetable va) ∧ t.free.Perm s.free) ∧
    (0 ≤ r → r = argv.length ∧
      ∀ x ∈ own s p.pagetable (pgs p.sz), t.free.count x = 1) := by
  rcases exec_cases hp hfree h with ⟨rfl, rfl, hchange⟩ | ⟨rfl, f, root, w, x, u, sz, -, rfl, hprep, hswitch⟩
  · refine ⟨fun _ => ?_, fun hr => absurd hr (by decide)⟩
    have hsame : ∀ x, x ∉ s.free → t.page x = s.page x := fun x hx => hchange.same x (fun h => h.elim) hx
    exact ⟨rfl, hsame, hsame _ (hp.owns.apart _ rfl), ubyte_of_change hp hchange,
      hchange.perm ⟨hp.owns.nodup, fun x hx => hx.elim⟩⟩
  · refine ⟨fun hr => absurd hr (by omega), fun _ => ⟨rfl, fun y hy => ?_⟩⟩
    obtain ⟨-, hown, -⟩ := hp.space.other hprep.change (Set.empty_disjoint _)
    rw [← hown] at hy
    exact List.count_eq_one_of_mem hswitch.change.owns.nodup (hswitch.freed y hy)

/-- **`exec` survives any file**: it returns. -/
theorem exec_returns (path : List UInt8) (file : Option File) (hp : Ok b s p) (hfree : b.Free s)
    (hargv : argv.length < maxArg) :
    ∃ r p' t, exec b p path file argv s = .ok (r, p') t ∧ (r = -1 ∨ r = (argv.length : Int)) := by
  have hwp : wp (exec b p path file argv) (fun a _ => a.1 = -1 ∨ a.1 = (argv.length : Int))
      (fun _ _ => False) s :=
    wp_exec hp hfree (.inl hargv) (fun _ _ => .inl rfl) fun _ _ _ _ _ _ _ _ _ _ => .inr rfl
  obtain ⟨⟨r, p'⟩, t, hrun, hr⟩ := hwp.exists_ok
  exact ⟨r, p', t, hrun, hr⟩

end Whole

/-! ## A process without user memory -/

abbrev firstTf : Nat := smallBoot.kend + 100 * pgsize

def firstRam (n : Nat) : Ram := final (procPagetable smallBoot firstTf) (smallRam n)

def firstProc : Proc := ⟨smallBoot.kend, 0, firstTf, []⟩

theorem ok_of_procPagetable {b : Boot} {s t : Ram} {tf root : Nat} (hs : s.free.Nodup) (hfree : b.Free s)
    (htf : b.RamPage tf) (hnew : tf ∉ s.free) (h : procPagetable b tf s = .ok (some root) t) :
    Ok b t ⟨root, 0, tf, []⟩ ∧ b.Free t := by
  have hown : Owns s.toHeap {tf} := ⟨hs, fun x hx => by rwa [Set.mem_singleton_iff.mp hx]⟩
  have hend : tf + pgsize ≤ 2 ^ 56 := by
    have htf := htf.2.2
    simp only [phystop, kernbase, pgsize] at *
    omega
  have hwp := wp_procPagetable (Q := fun r t => ∀ root, r = some root → Ok b t ⟨root, 0, tf, []⟩ ∧ b.Free t)
    (E := fun _ _ => True) hs hfree hend (fun t _ root h => absurd h (by simp)) fun t root ht hchange => ?_
  · exact (wp_of_ok h).mp hwp root rfl
  · intro root' hroot
    rw [← Option.some_inj.mp hroot]
    have hzero : pgs 0 = 0 := rfl
    refine ⟨⟨by rwa [hzero], htf, hchange.owns_other hown (Set.empty_disjoint _), ?_⟩,
      hfree.change hchange fun x hx => hx.elim⟩
    rw [hzero]
    exact Set.disjoint_singleton_right.mp (hchange.disjoint_other hown (Set.empty_disjoint _))

theorem firstProc_ok {n : Nat} (hn : n = 8 ∨ n = 16) :
    Ok smallBoot (firstRam n) firstProc ∧ smallBoot.Free (firstRam n) := by
  rcases hn with rfl | rfl <;>
    exact ok_of_procPagetable (by decide +kernel) (by decide +kernel) (by decide) (by decide +kernel)
      (eq_ok_of_value (by decide +kernel))

/-- The bytes of a number, the least significant one first. -/
def num : Nat → Nat → List UInt8
  | 0, _ => []
  | k + 1, v => .ofNat v :: num k (v / 256)

def elfBytes (entry phoff phnum : Nat) : List UInt8 :=
  num 4 elfMagic ++ num 20 0 ++ num 8 entry ++ num 8 phoff ++ num 16 0 ++ num 2 phnum ++ num 6 0

def phBytes (type flags off vaddr filesz memsz : Nat) : List UInt8 :=
  num 4 type ++ num 4 flags ++ num 8 off ++ num 8 vaddr ++ num 8 0 ++ num 8 filesz ++ num 8 memsz ++
    num 8 0

def emptyProg : File := ⟨elfBytes 0 64 0, by decide⟩

/-- The page table of the first process is freed when it runs a program. -/
theorem exec_all_or_nothing_emptyProg : ∃ p' t,
    exec smallBoot firstProc [] (some emptyProg) [] (firstRam 16) = .ok (0, p') t ∧
      t.free.count smallBoot.kend = 1 := by
  obtain ⟨hok, hfree⟩ := firstProc_ok (.inr rfl)
  have hprep : value (prepare smallBoot firstTf emptyProg []) (firstRam 16) =
      some (some (smallBoot.kend + 3 * pgsize, 2 * pgsize, 2 * pgsize - 16)) := by decide +kernel
  obtain ⟨p', t, hrun⟩ := exec_of_prepare [] hok hfree hprep
  refine ⟨p', t, hrun, ((exec_all_or_nothing hok hfree hrun).2 (by decide)).2 _ (.inl ?_)⟩
  exact Trie.node_root

theorem exec_returns_emptyProg : ∃ r p' t,
    exec smallBoot firstProc [] (some emptyProg) [] (firstRam 16) = .ok (r, p') t ∧
      (r = -1 ∨ r = (([] : List (List UInt8)).length : Int)) := by
  obtain ⟨hok, hfree⟩ := firstProc_ok (.inr rfl)
  exact exec_returns [] (some emptyProg) hok hfree (by decide)

end Exec

end Xv6
