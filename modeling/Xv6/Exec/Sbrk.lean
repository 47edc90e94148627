import Xv6.Exec.Whole

/-!
# `sbrk`

`sys_sbrk` of `kernel/sysproc.c` and `growproc` of `kernel/proc.c`.  The new size `sz + n` is computed in
64 bits.  If `n` takes away more than there is, it is a very large number, and `uvmdealloc` leaves an
address space alone that is to become larger: the call succeeds and does nothing
(`sysSbrk_exact_iff`).
-/

namespace Xv6.Exec

open Heap Prog Vm

def growproc (b : Boot) (p : Proc) (n : Int) : VM (Int × Proc) :=
  if 0 < n then do
    let sz ← uvmalloc b p.pagetable p.sz (u64OfInt (p.sz + n)) pteW
    if sz = 0 then pure (-1, p) else pure (0, { p with sz })
  else if n < 0 then do
    let sz ← uvmdealloc b p.pagetable p.sz (u64OfInt (p.sz + n))
    pure (0, { p with sz })
  else pure (0, p)

def sysSbrk (b : Boot) (p : Proc) (n : Int) : VM (Int × Proc) := do
  let addr := p.sz
  let (r, p) ← growproc b p n
  if r < 0 then pure (-1, p) else pure (addr, p)

/-- The break moves by `n`, with new memory zero and the rest as it was; or there was an error, and
nothing has changed. -/
structure Moves (s t : Ram) (p q : Proc) (n r : Int) : Prop where
  ok : r ≠ -1 → r = p.sz ∧ (q.sz : Int) = p.sz + n ∧
    (∀ va < min p.sz q.sz, ubyte t q.pagetable va = ubyte s p.pagetable va) ∧
    ∀ v, pgs p.sz ≤ v → v < pgs q.sz → t.page (pte2pa (entry t.page q.pagetable v)) = fun _ => 0
  fail : r = -1 → q = p ∧ entry t.page p.pagetable = entry s.page p.pagetable ∧
    ∀ va, ubyte t p.pagetable va = ubyte s p.pagetable va

section Sbrk

variable {b : Boot} {s t : Ram} {p : Proc} {n : Int}

theorem Ok.sz_lt (hp : Ok b s p) : p.sz ≤ 2 ^ 15 * pgsize :=
  (le_pgs_mul p.sz).trans (Nat.mul_le_mul_right pgsize hp.space.le_ram)

theorem u64OfInt_of_nonneg (hp : Ok b s p) (hn : n < 2 ^ 31) (h : 0 ≤ p.sz + n) :
    u64OfInt (p.sz + n) = (p.sz + n).toNat := by
  have hsz := hp.sz_lt
  simp only [u64OfInt, pgsize] at *
  omega

theorem ubyte_of_keeps {sz va : Nat} (h : Keeps s t p.pagetable (pgs sz)) (hva : va < sz) :
    ubyte t p.pagetable va = ubyte s p.pagetable va :=
  ubyte_keeps h (hva.trans_le (le_pgs_mul sz))

theorem same_of_keeps (hp : Ok b s p) (ht : Space b t p.pagetable (procTop b p.trapframe) (pgs p.sz))
    (h : Keeps s t p.pagetable (pgs p.sz)) : entry t.page p.pagetable = entry s.page p.pagetable ∧
      ∀ va, ubyte t p.pagetable va = ubyte s p.pagetable va := by
  have hentry : ∀ v, entry t.page p.pagetable v = entry s.page p.pagetable v := by
    intro v
    by_cases hv : v < pgs p.sz
    · exact h.entry v hv
    · rw [ht.rest v (Nat.le_of_not_lt hv), hp.space.rest v (Nat.le_of_not_lt hv)]
  refine ⟨funext hentry, fun va => ?_⟩
  by_cases hva : va < pgs p.sz * pgsize
  · exact ubyte_keeps h hva
  · -- above the user pages nothing is for the user
    have hv : pgs p.sz ≤ va / pgsize := (Nat.le_div_iff_mul_le (by decide)).mpr (Nat.le_of_not_lt hva)
    have hnone : uaddr s.page p.pagetable va = none := by
      rw [uaddr, hp.space.rest _ hv]
      exact if_pos ((supervisor_procTop b p.trapframe _).imp_right .inl)
    rw [ubyte, ubyte, uaddr, hentry, ← uaddr, hnone]
    rfl

/-- What `sbrk` can do: the break is moved, there is no memory for it, or too much is taken away. -/
theorem Ok.wp_sysSbrk {Q : Int × Proc → Ram → Prop} {E : Stop → Ram → Prop} (hp : Ok b s p)
    (hfree : b.Free s) (hn : -2 ^ 31 ≤ n ∧ n < 2 ^ 31)
    (hmove : ∀ t (sz : Nat), (sz : Int) = p.sz + n →
      Space b t p.pagetable (procTop b p.trapframe) (pgs sz) →
      Change s.toHeap t.toHeap (own s p.pagetable (pgs p.sz)) (own t p.pagetable (pgs sz)) →
      Keeps s t p.pagetable (pgs (min p.sz sz)) →
      (∀ v, pgs p.sz ≤ v → v < pgs sz → t.page (pte2pa (entry t.page p.pagetable v)) = fun _ => 0) →
      Q (p.sz, { p with sz }) t)
    (hfail : ∀ t, 0 < n → Space b t p.pagetable (procTop b p.trapframe) (pgs p.sz) →
      Change s.toHeap t.toHeap (own s p.pagetable (pgs p.sz)) (own t p.pagetable (pgs p.sz)) →
      Keeps s t p.pagetable (pgs p.sz) → Q (-1, p) t)
    (hstay : p.sz + n < 0 → Q (p.sz, p) s) : wp (sysSbrk b p n) Q E s := by
  have hsz := hp.sz_lt
  rw [sysSbrk, growproc, wp_bind]
  rcases Int.lt_trichotomy n 0 with hneg | rfl | hpos
  · rw [if_neg (by omega), if_pos hneg, wp_bind]
    by_cases hle : 0 ≤ p.sz + n
    · rw [u64OfInt_of_nonneg hp hn.2 hle]
      have hless : (p.sz + n).toNat < p.sz := by omega
      refine hp.space.wp_uvmdealloc rfl hless fun t ht hchange hkeeps => ?_
      refine hmove t _ (by omega) ht hchange (by rwa [min_eq_right hless.le]) fun v hv hv' => ?_
      exact absurd hv' (Nat.not_lt_of_le ((pgs_mono hless.le).trans hv))
    · have hlarge : p.sz ≤ u64OfInt (p.sz + n) := by
        simp only [u64OfInt, pgsize] at *
        omega
      rw [Space.wp_uvmdealloc_of_le hlarge]
      exact hstay (by omega)
  · rw [if_neg (by decide), if_neg (by decide)]
    exact hmove s p.sz (by simp) hp.space (.refl hp.space.owns_own) (by rw [min_self]; exact .refl ..)
      fun v hv hv' => absurd hv' (Nat.not_lt_of_le hv)
  · rw [if_pos hpos, wp_bind, u64OfInt_of_nonneg hp hn.2 (by omega)]
    refine hp.space.wp_uvmalloc hfree (by omega) (by decide) (fun t ht hchange hkeeps => ?_)
      fun t ht hchange hkeeps hfresh => ?_
    · rw [if_pos rfl]
      exact hfail t hpos ht hchange hkeeps
    · rw [if_neg (by omega)]
      exact hmove t _ (by omega) ht hchange (by rwa [min_eq_left (by omega)])
        fun v hv hv' => (hfresh v hv hv').2

/-- **`sbrk` moves the break by exactly `n` or not at all**, unless it is asked to take away more
than there is. -/
theorem sysSbrk_exact_iff (hp : Ok b s p) (hfree : b.Free s) (hn : -2 ^ 31 ≤ n ∧ n < 2 ^ 31) :
    ∃ r q t, sysSbrk b p n s = .ok (r, q) t ∧ (Moves s t p q n r ↔ 0 ≤ p.sz + n) := by
  suffices hwp : wp (sysSbrk b p n) (fun x t => Moves s t p x.2 n x.1 ↔ 0 ≤ p.sz + n)
      (fun _ _ => False) s by
    obtain ⟨⟨r, q⟩, t, hrun, h⟩ := hwp.exists_ok
    exact ⟨r, q, t, hrun, h⟩
  refine hp.wp_sysSbrk hfree hn (fun t sz hsz _ _ hkeeps hfresh => ?_) (fun t hpos ht _ hkeeps => ?_)
    fun hlt => ?_
  · exact iff_of_true ⟨fun _ => ⟨rfl, hsz, fun va hva => ubyte_of_keeps hkeeps hva, hfresh⟩,
      fun h => absurd h (by dsimp only; omega)⟩ (by omega)
  · obtain ⟨hentry, hbyte⟩ := same_of_keeps hp ht hkeeps
    exact iff_of_true ⟨fun h => absurd rfl h, fun _ => ⟨rfl, hentry, hbyte⟩⟩ (by omega)
  · refine iff_of_false (fun h => ?_) (by omega)
    have hmoved := (h.ok (by dsimp only; omega)).2.1
    dsimp only at hmoved
    omega

end Sbrk

/-- The first process grows by a page. -/
theorem sysSbrk_exact_iff_page : ∃ r q t, sysSbrk smallBoot firstProc pgsize (firstRam 8) = .ok (r, q) t ∧
    Moves (firstRam 8) t firstProc q pgsize r := by
  obtain ⟨hok, hfree⟩ := firstProc_ok (.inl rfl)
  obtain ⟨r, q, t, hrun, hiff⟩ := sysSbrk_exact_iff (n := pgsize) hok hfree (by decide)
  exact ⟨r, q, t, hrun, hiff.mpr (by decide)⟩

/-- **It cannot shrink, but is told that it has.** -/
theorem sysSbrk_below : Ok smallBoot (firstRam 8) firstProc ∧
    sysSbrk smallBoot firstProc (-1) (firstRam 8) = .ok (0, firstProc) (firstRam 8) ∧
    ¬Moves (firstRam 8) (firstRam 8) firstProc firstProc (-1) 0 := by
  obtain ⟨hok, -⟩ := firstProc_ok (.inl rfl)
  refine ⟨hok, rfl, fun h => ?_⟩
  exact absurd (h.ok (by decide)).2.1 (by decide)

end Xv6.Exec
