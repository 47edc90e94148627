import Xv6.Cpu.Handoff
import Xv6.Lib.Count

/-!
# What the locks and the interrupts of a kernel thread can rely on

Consequences of the invariant of `Xv6.Cpu.Handoff`, for every run of any number of CPUs.
-/

namespace Xv6.Cpus

open Machine

/-- The `push_off`s on a CPU that have not been undone and do not belong to a lock that is held. -/
def State.unmatched (s : State) (c : Nat) : Nat := (s.current c).offs + (s.current c).pc.extra

section Inv

variable {s t : State} {c p : Nat}

theorem Inv.counts (h : Inv s) (c : Nat) :
    Counts (· = some c) s.lock ((s.cpu c).noff - s.unmatched c) := by
  have hnoff := (h.cpu c).fine.noff
  refine ⟨(s.cpu c).held.toFinset, fun l => ?_, ?_⟩
  · rw [List.mem_toFinset]
    exact (h.locks l c).symm
  · rw [List.toFinset_card_of_nodup (h.cpu c).nodup, State.unmatched]
    push_cast
    omega

theorem Fine.popPanic {st : ProcState} {x : Cpu} {t : Thread} (h : Fine st x t) (hpos : 0 < x.noff) :
    x.popPanic = none := by
  rw [Cpu.popPanic, h.off hpos, if_neg Bool.false_ne_true, if_neg (by omega)]

theorem Inv.panic (h : Inv s) (c : Nat) : s.panic c = none := by
  have hfine := (h.cpu c).fine
  have hfits := hfine.fits
  have hnoff := hfine.noff
  simp only [State.panic]
  split
  · rename_i l k _ htodo
    rw [htodo] at hfits
    rw [if_neg fun hl => hfits.2.1 ((h.locks l c).mp hl)]
  · rename_i l k _ htodo
    rw [htodo] at hfits
    rw [if_pos ((h.locks l c).mpr hfits.2.2.1)]
  · rename_i hpc
    rw [hpc] at hnoff
    exact hfine.popPanic (by simp only [Pc.extra] at hnoff; omega)
  · rename_i htodo
    rw [htodo] at hfits
    exact hfine.popPanic (by have := hfits.2.2.1; omega)
  · rename_i htodo
    rw [htodo] at hfits
    obtain ⟨hst, hoffs, q, hq, hH, -⟩ := hfits
    rw [hq]
    rw [State.status_of_proc hq] at hst
    rename_i hpc
    rw [hpc, hoffs, hH] at hnoff
    have hlock : s.lock (.proc q) = some c := (h.locks _ c).mpr (by rw [hH]; exact List.mem_cons_self)
    have hone : (s.cpu c).noff = 1 := by simpa [Pc.extra] using hnoff
    show s.schedPanic c q = none
    rw [State.schedPanic, if_neg (not_not.mpr hlock), if_neg (not_not.mpr hone), if_neg hst,
      hfine.off (by omega), if_neg Bool.false_ne_true]
  · rfl

theorem Inv.swtch_handoff (h : Inv s) (ht : Cpus.next s ⟨c, .swtch⟩ = some t)
    (hp : (t.cpu c).proc = some p) :
    t.lock (.proc p) = some c ∧ (t.thread p).todo.head? = some (.release (.proc p)) := by
  simp only [Cpus.next] at ht
  split at ht
  · rename_i q k hnone hpc htodo
    have hfits := (h.cpu c).fine.fits
    rw [htodo, hnone] at hfits
    have hH : (s.cpu c).held = [.proc q] := hfits.2.2.2.1
    have hmem : .proc q ∈ (s.cpu c).held := by
      rw [hH]
      exact List.mem_cons_self
    split at ht
    · rename_i hst
      have hoff := h.off_cpu hmem (by rw [hst]; simp) (State.status_of_none hnone)
      have hparked := h.parked q hoff (.inr (.inl hst))
      cases ht
      rw [State.setCpu_proc] at hp
      cases hp
      refine ⟨(h.locks _ c).mpr hmem, ?_⟩
      show (Function.update s.thread p _ p).todo.head? = _
      rw [Function.update_self]
      exact hparked.head
    · cases ht
      rw [hnone] at hp
      cases hp
  · cases ht

theorem Inv.sched_handoff (h : Inv s) (hp : (s.cpu c).proc = some p)
    (ht : Cpus.next s ⟨c, .sched⟩ = some t) :
    t.lock (.proc p) = some c ∧ (t.scheduler c).todo = [.release (.proc p)] := by
  simp only [Cpus.next] at ht
  split at ht
  · rename_i q k hq hpc htodo
    cases hp.symm.trans hq
    have hfits := (h.cpu c).fine.fits
    rw [htodo, hp] at hfits
    obtain ⟨-, -, r, hr, hH, -⟩ := hfits
    cases hr
    have hlock : s.lock (.proc p) = some c := (h.locks _ c).mpr (by rw [hH]; exact List.mem_cons_self)
    split at ht
    · cases ht
      exact ⟨hlock, ((h.cpu c).away p hp).todo⟩
    · cases ht
  · cases ht

theorem Inv.outermost (h : Inv s) (hp : (s.cpu c).proc = some p)
    (hpop : Cpus.next s ⟨c, .pop⟩ = some t) (h0 : (t.cpu c).noff = 0) :
    (t.cpu c).ie = (s.thread p).began := by
  have hfine := (h.cpu c).fine
  have hcpu : t.cpu c = (s.cpu c).popOff := by
    have hset : ∀ th : Thread, ((s.setCpu c (s.cpu c).popOff).setCurrent c th).cpu c =
        (s.cpu c).popOff := by
      intro th
      have hq : ((s.setCpu c (s.cpu c).popOff).cpu c).proc = some p := by
        rw [State.setCpu_proc]
        exact hp
      rw [State.setCurrent_of_proc hq]
      exact Function.update_self ..
    simp only [Cpus.next] at hpop
    split at hpop
    · split at hpop
      · cases hpop
        exact hset _
      · cases hpop
    · split at hpop
      · cases hpop
        exact hset _
      · cases hpop
    · cases hpop
  rw [hcpu] at h0 ⊢
  have hone : (s.cpu c).noff = 1 := by
    simp only [Cpu.popOff] at h0
    omega
  have hintena := (h.cpu c).intena p hp (by omega)
  simp only [Cpu.popOff]
  rw [hone, hfine.off (by omega), ← hintena]
  cases (s.cpu c).intena <;> rfl

end Inv

/-! ## Interrupts -/

structure Followed (s : State) : Prop where
  noff : ∀ c, Counts (· = some c) s.lock ((s.cpu c).noff - s.unmatched c)
  off : ∀ c, 0 < (s.cpu c).noff → (s.cpu c).ie = false
  pop : ∀ c, s.panic c ≠ some .popOff ∧ s.panic c ≠ some .popOffInterruptible
  /-- After the outermost section of a process, interrupts are what they were for it before. -/
  outermost : ∀ c p t, (s.cpu c).proc = some p → next s ⟨c, .pop⟩ = some t → (t.cpu c).noff = 0 →
    (t.cpu c).ie = (s.thread p).began

/-- **The interrupt state belongs to the kernel thread.** -/
theorem intr_followed {s : State} {as : List Act} (h : run next State.boot as = some s) :
    Followed s := by
  have hinv := inv_of_run h
  refine ⟨hinv.counts, fun c => (hinv.cpu c).fine.off, fun c => ?_, fun c p t => hinv.outermost⟩
  rw [hinv.panic c]
  exact ⟨nofun, nofun⟩

/-- The first process is started on CPU 0 with interrupts enabled, yields, and goes on on CPU 1, where
they are not. -/
def migration : List Act :=
  [⟨0, .setIe true⟩, ⟨0, .call (.schedule 0)⟩, ⟨0, .get⟩, ⟨0, .off⟩, ⟨0, .take⟩, ⟨0, .swtch⟩,
    ⟨0, .drop⟩, ⟨0, .pop⟩, ⟨0, .call .yield⟩, ⟨0, .get⟩, ⟨0, .off⟩, ⟨0, .take⟩, ⟨0, .setState⟩,
    ⟨0, .sched⟩, ⟨0, .drop⟩, ⟨0, .pop⟩, ⟨1, .call (.schedule 0)⟩, ⟨1, .get⟩, ⟨1, .off⟩, ⟨1, .take⟩,
    ⟨1, .swtch⟩, ⟨1, .drop⟩]

theorem intr_followed_migration : ∃ s t, run next State.boot migration = some s ∧
    next s ⟨1, .pop⟩ = some t ∧ (t.cpu 1).ie = true ∧ Followed s := by
  obtain ⟨s, hs, t, hst, hie⟩ : ∃ s, run next State.boot migration = some s ∧
      ∃ t, next s ⟨1, .pop⟩ = some t ∧ (t.cpu 1).ie = true := by decide
  exact ⟨s, t, hs, hst, hie, intr_followed hs⟩

/-! ## Processes -/

structure Single (s : State) : Prop where
  unique : ∀ c c' p, (s.cpu c).proc = some p → (s.cpu c').proc = some p → c = c'
  /-- A process that does not run and whose lock is free is on no CPU. -/
  off : ∀ p, s.state p = .runnable ∨ s.state p = .sleeping ∨ s.state p = .zombie →
    s.lock (.proc p) = none → ∀ c, (s.cpu c).proc ≠ some p
  /-- The lock that `scheduler` has acquired is the next thing that the process releases. -/
  swtch : ∀ c p t, next s ⟨c, .swtch⟩ = some t → (t.cpu c).proc = some p →
    t.lock (.proc p) = some c ∧ (t.thread p).todo.head? = some (.release (.proc p))
  /-- The lock that the process has acquired is the next thing that `scheduler` releases. -/
  sched : ∀ c p t, (s.cpu c).proc = some p → next s ⟨c, .sched⟩ = some t →
    t.lock (.proc p) = some c ∧ (t.scheduler c).todo = [.release (.proc p)]
  /-- There is no panic in `acquire`, `release`, `pop_off` or `sched`. -/
  panic : ∀ c, s.panic c = none

/-- **A process is executed by one CPU at a time.** -/
theorem single_execution {s : State} {as : List Act} (h : run next State.boot as = some s) :
    Single s := by
  have hinv := inv_of_run h
  refine ⟨hinv.unique, fun p hst hlock c hp => ?_, fun c p t => hinv.swtch_handoff,
    fun c p t => hinv.sched_handoff, hinv.panic⟩
  · have hmem := hinv.mem_held hp (by rcases hst with hst | hst | hst <;> rw [hst] <;> simp)
    rw [(hinv.locks _ c).mpr hmem] at hlock
    cases hlock

/-- The first process sleeps on CPU 0, is woken by an interrupt on CPU 1 and goes on there. -/
def resumption : List Act :=
  [⟨0, .call (.schedule 0)⟩, ⟨0, .get⟩, ⟨0, .off⟩, ⟨0, .take⟩, ⟨0, .swtch⟩, ⟨0, .drop⟩, ⟨0, .pop⟩,
    ⟨0, .call (.acquire .wait)⟩, ⟨0, .get⟩, ⟨0, .off⟩, ⟨0, .take⟩, ⟨0, .call (.sleep .wait)⟩,
    ⟨0, .get⟩, ⟨0, .off⟩, ⟨0, .take⟩, ⟨0, .drop⟩, ⟨0, .pop⟩, ⟨0, .setState⟩, ⟨0, .sched⟩, ⟨0, .drop⟩,
    ⟨1, .setIe true⟩, ⟨1, .trap⟩, ⟨1, .call (.acquire (.proc 0))⟩, ⟨1, .get⟩, ⟨1, .off⟩, ⟨1, .take⟩,
    ⟨1, .rouse 0⟩, ⟨1, .call (.release (.proc 0))⟩, ⟨1, .drop⟩, ⟨1, .pop⟩, ⟨1, .sret⟩,
    ⟨1, .call (.schedule 0)⟩, ⟨1, .get⟩, ⟨1, .off⟩, ⟨1, .take⟩, ⟨1, .swtch⟩]

theorem single_execution_resumption : ∃ s, run next State.boot resumption = some s ∧
    (s.cpu 1).proc = some 0 ∧ Single s := by
  obtain ⟨s, hs, hproc⟩ : ∃ s, run next State.boot resumption = some s ∧ (s.cpu 1).proc = some 0 := by
    decide
  exact ⟨s, hs, hproc, single_execution hs⟩

end Xv6.Cpus
