import Xv6.Proc.Table
import Mathlib.Data.List.Nodup

/-!
# The life of a process

The invariant has four parts, each kept by every step of the machine of `Xv6.Proc.Table`:

* `Sys.Shape`: where processes are, who holds `wait_lock`, whom a `fork` in progress works on.
* `Sys.Links`: parents are alive.  `exit` gives its children away one by one, so the invariant
  counts how far it has got (`Pc.shed`).
* `Sys.Waiters`: nobody sleeps in `wait` beside a zombie child, but for what `exit` and `reparent` have
  yet to do under `wait_lock` (`told`, `owed`).
* `Sys.Ids`: pids, exits and reaped children, by allocation number.
-/

namespace Xv6

namespace Table

open Sys Machine
open Option (some_inj)

variable {s t : Sys} {a : Act} {d : Delta}

/-! ## Who does what to whom -/

/-- The child a process inside `fork` has allocated. -/
def Pc.child : Pc → Option Slot
  | .forkParent np _ | .forkRun np _ => some np
  | _ => none

def Pc.exiting : Pc → Bool
  | .exitAcquire _ | .reparent _ _ | .wakeInit _ _ _ | .wakeParent _ _ _ => true
  | _ => false

def Proc.Dormant (x : Proc) : Prop := x.state = .unused ∨ x.state = .used ∨ x.state = .zombie

structure Sys.Shape (s : Sys) : Prop where
  dormant : ∀ q, (s.proc q).Dormant → s.pc q = .user
  used : ∀ p np, (s.pc p).child = some np → (s.proc np).state = .used
  child : ∀ p p' np, (s.pc p).child = some np → (s.pc p').child = some np → p = p'
  /-- `wait_lock` is held exactly by the process inside one of its sections. -/
  lock : ∀ p, (s.pc p).holds = true ↔ s.waitLock = some p
  init : ∀ p, (s.pc p).exiting = true → p ≠ initproc

section Moves

variable {p : Slot} {pc pc' : Pc}

theorem Move.holds_eq (h : Move s p pc pc') : pc'.holds = pc.holds := by cases h <;> rfl

theorem Move.child_eq (h : Move s p pc pc') : pc'.child = none := by cases h <;> rfl

theorem Move.exiting (h : Move s p pc pc') (he : pc'.exiting = true) :
    pc.exiting = true ∨ p ≠ initproc := by
  cases h <;> first | exact .inl rfl | exact .inr ‹_› | exact absurd he (by simp [Pc.exiting])

theorem WaitFails.holds {ok : Bool} (h : WaitFails s p ok) : (s.pc p).holds = true := by
  cases h <;> rw [‹s.pc p = _›, Pc.holds]

end Moves

/-! ### What a change does -/

/-- `p` is at the end of `exit`, about to become a zombie. -/
def Sys.Dying (s : Sys) (p : Slot) : Prop :=
  ∃ status parent j, s.pc p = .wakeParent status parent j ∧ nproc ≤ j

variable {p : Slot} {q : Slot}

theorem Sys.Dying.exiting (h : s.Dying q) : (s.pc q).exiting = true := by
  obtain ⟨status, parent, j, hq, -⟩ := h
  rw [hq, Pc.exiting]

inductive Turn (s : Sys) (d : Delta) : Prop where
  | same (h : d.x.state = (s.proc d.q).state)
  | awake (h : ¬(s.proc d.q).Dormant) (h' : ¬d.x.Dormant)
  | alloc (h : (s.proc d.q).state = .unused) (h' : d.x.state = .used)
  /-- It becomes runnable, at the end of the `fork` that made it. -/
  | fork (h : (s.proc d.q).state = .used) (h' : ¬d.x.Dormant)
      (hp : (s.pc d.p).child = some d.q) (hpc : d.pc = .user)
  | exit (hp : d.q = d.p) (h : s.Dying d.p) (hr : (s.proc d.q).state = .running)
      (h' : d.x.state = .zombie) (hpc : d.pc = .user)
  | free (h : (s.proc d.q).state = .zombie) (h' : d.x.state = .unused)

theorem turn_of_rouse {c : Option Chan} (hx : d.x = (s.proc d.q).rouse c) : Turn s d := by
  by_cases hsl : (s.proc d.q).state = .sleeping ∧ (s.proc d.q).chan = c
  · refine .awake (by simp [Proc.Dormant, hsl.1]) ?_
    rw [hx]
    simp [Proc.Dormant, Proc.rouse, hsl]
  · refine .same ?_
    rw [hx, Proc.rouse]
    exact if_neg hsl

theorem Does.turn (hs : s.Shape) (h : Does s a d) : Turn s d := by
  cases h with
  | forkAlloc hr hp hq => exact .alloc hq rfl
  | forkFail hr hp hq => exact .same hq.symm
  | @forkRun p np pid ok hr hp =>
    have hc : (s.pc p).child = some np := by rw [hp, Pc.child]
    exact .fork (hs.used p np hc) (by simp [Proc.Dormant]) hc rfl
  | exitZombie hr hp hj => exact .exit rfl ⟨_, _, _, hp, hj⟩ hr rfl rfl
  | waitReap hr hp hq hz => exact .free hz rfl
  | wakeInit => exact turn_of_rouse rfl
  | wakeParent => exact turn_of_rouse rfl
  | wakeOther => exact turn_of_rouse rfl
  | @kill p q pid ok hr hp hq =>
    by_cases hsl : (s.proc q).state = .sleeping
    · exact .awake (by simp [Sys.stay, Proc.Dormant, hsl]) (by simp [Proc.Dormant, hsl])
    · exact .same (if_neg hsl)
  | _ => first | exact .same rfl | (refine .awake ?_ ?_ <;> simp_all [Sys.stay, Proc.Dormant])

theorem Does.awake (h : Does s a d) :
    d.pc = s.pc d.p ∨ (s.proc d.p).state = .running ∨ (s.proc d.p).state = .runnable := by
  cases h <;> first
    | exact .inl rfl
    | (refine .inr (.inl ?_); assumption)
    | (refine .inr (.inr ?_); assumption)

theorem Does.pc_eq_of_dormant (h : Does s a d) (hp : (s.proc d.p).Dormant) : d.pc = s.pc d.p := by
  rcases h.awake with h | h | h
  · exact h
  · simp [Proc.Dormant, h] at hp
  · simp [Proc.Dormant, h] at hp

theorem Does.child (h : Does s a d) {np : Slot} (hc : d.pc.child = some np) :
    (s.pc d.p).child = some np ∨
      (s.proc np).state = .unused ∧ d.q = np ∧ d.x.state = .used := by
  cases h with
  | move _ _ hm => exact absurd (hm.child_eq.symm.trans hc) (by simp)
  | forkAlloc hr hp hq =>
    cases hc
    exact .inr ⟨hq, rfl, rfl⟩
  | forkParent hr hp => exact .inl (by simpa [Sys.stay, hp, Pc.child] using hc)
  | _ => first | exact .inl hc | cases hc

theorem Does.lock (h : Does s a d) :
    d.waitLock = s.waitLock ∧ d.pc.holds = (s.pc d.p).holds ∨
      s.waitLock = none ∧ d.waitLock = some d.p ∧ d.pc.holds = true ∨
      (s.pc d.p).holds = true ∧ d.waitLock = none ∧ d.pc.holds = false := by
  cases h with
  | move _ hp hm => exact .inl ⟨rfl, by rw [hm.holds_eq, ← hp]; rfl⟩
  | giveUp hr hp =>
    refine .inl ⟨rfl, ?_⟩
    rcases hp with ⟨i, hp⟩ | ⟨pid, i, hp⟩ <;> simp [Sys.stay, hp, Pc.holds]
  | waitFail hr hw => exact .inr (.inr ⟨hw.holds, rfl, rfl⟩)
  | exitAcquire hr hp hl => exact .inr (.inl ⟨hl, rfl, rfl⟩)
  | waitAcquire hr hp hl => exact .inr (.inl ⟨hl, rfl, rfl⟩)
  | _ => first
    | exact .inl ⟨rfl, rfl⟩
    | (refine .inr (.inr ⟨?_, rfl, rfl⟩); simp_all [Sys.stay, Pc.holds])
    | (refine .inl ⟨rfl, ?_⟩; simp_all [Sys.stay, Pc.holds])

theorem Does.exiting (h : Does s a d) (he : d.pc.exiting = true) :
    (s.pc d.p).exiting = true ∨ d.p ≠ initproc := by
  cases h with
  | move _ hp hm => exact (hm.exiting he).imp_left fun h => by rw [← h, ← hp]; rfl
  | _ => first | exact .inl he | simp_all [Sys.stay, Pc.exiting]

/-! ### The shape of a state -/

section

variable (h : s.Shape) (hd : Does s a d)
include h hd

theorem dormant_step (hq : ((s.apply d).proc q).Dormant) : (s.apply d).pc q = .user := by
  have hold : (s.proc q).Dormant ∨ q = d.p ∧ d.pc = .user := by
    by_cases hqd : q = d.q
    · subst hqd
      rw [s.apply_proc_self] at hq
      rcases hd.turn h with ht | ⟨-, ht⟩ | ⟨hu, -⟩ | ⟨hu, -⟩ | ⟨hqp, -, -, -, hpc⟩ | ⟨hz, -⟩
      · exact .inl (by rwa [Proc.Dormant, ht] at hq)
      · exact absurd hq ht
      · exact .inl (.inl hu)
      · exact .inl (.inr (.inl hu))
      · exact .inr ⟨hqp, hpc⟩
      · exact .inl (.inr (.inr hz))
    · exact .inl (s.apply_proc_of_ne hqd ▸ hq)
  by_cases hqp : q = d.p
  · subst hqp
    rw [s.apply_pc_self]
    rcases hold with hold | ⟨-, hpc⟩
    · rw [hd.pc_eq_of_dormant hold, h.dormant _ hold]
    · exact hpc
  · rw [s.apply_pc_of_ne hqp]
    exact h.dormant q (hold.resolve_right fun h => hqp h.1)

theorem used_step {p np : Slot}
    (hp : ((s.apply d).pc p).child = some np) : ((s.apply d).proc np).state = .used := by
  -- the child was `USED` before, unless it has just been allocated
  have hold : (s.pc p).child = some np → ((s.apply d).proc np).state = .used := by
    intro hc
    by_cases hnp : np = d.q
    · subst hnp
      have hu := h.used p _ hc
      rw [s.apply_proc_self]
      rcases hd.turn h with ht | ⟨ht, -⟩ | ⟨ht, -⟩ | ⟨-, -, hc', hpc⟩ | ⟨-, -, ht, -⟩ | ⟨ht, -⟩
      · exact ht.trans hu
      · exact absurd (.inr (.inl hu)) ht
      · exact absurd (ht.symm.trans hu) (by simp)
      · obtain rfl := h.child _ _ _ hc hc'
        rw [s.apply_pc_self, hpc] at hp
        exact absurd hp (by simp [Pc.child])
      · exact absurd (ht.symm.trans hu) (by simp)
      · exact absurd (ht.symm.trans hu) (by simp)
    · rw [s.apply_proc_of_ne hnp]
      exact h.used p np hc
  by_cases hpp : p = d.p
  · subst hpp
    rw [s.apply_pc_self] at hp
    rcases hd.child hp with hc | ⟨-, rfl, hu⟩
    · exact hold hc
    · rw [s.apply_proc_self, hu]
  · rw [s.apply_pc_of_ne hpp] at hp
    exact hold hp

theorem child_step {p p' np : Slot}
    (hp : ((s.apply d).pc p).child = some np) (hp' : ((s.apply d).pc p').child = some np) :
    p = p' := by
  -- an old child is not a newly allocated one
  have hfresh : ∀ p, (s.pc p).child = some np → (s.proc np).state ≠ .unused := fun p hc hu => by
    simp [h.used p np hc] at hu
  by_cases hpd : p = d.p <;> by_cases hpd' : p' = d.p
  · rw [hpd, hpd']
  · subst hpd
    rw [s.apply_pc_self] at hp
    rw [s.apply_pc_of_ne hpd'] at hp'
    rcases hd.child hp with hc | ⟨hu, -⟩
    · exact h.child _ _ _ hc hp'
    · exact absurd hu (hfresh p' hp')
  · subst hpd'
    rw [s.apply_pc_self] at hp'
    rw [s.apply_pc_of_ne hpd] at hp
    rcases hd.child hp' with hc | ⟨hu, -⟩
    · exact h.child _ _ _ hp hc
    · exact absurd hu (hfresh p hp)
  · rw [s.apply_pc_of_ne hpd] at hp
    rw [s.apply_pc_of_ne hpd'] at hp'
    exact h.child _ _ _ hp hp'

theorem lock_step (p : Slot) : ((s.apply d).pc p).holds = true ↔ d.waitLock = some p := by
  have hp := h.lock p
  have hdp := h.lock d.p
  by_cases hpd : p = d.p
  · subst hpd
    rw [s.apply_pc_self]
    rcases hd.lock with ⟨hl, hpc⟩ | ⟨-, hl, hpc⟩ | ⟨-, hl, hpc⟩
    · rw [hl, hpc]
      exact hp
    · simp [hl, hpc]
    · simp [hl, hpc]
  · rw [s.apply_pc_of_ne hpd, hp]
    rcases hd.lock with ⟨hl, -⟩ | ⟨hnone, hl, -⟩ | ⟨hh, hl, -⟩
    · rw [hl]
    · simp [hnone, hl, Ne.symm hpd]
    · simp [hdp.mp hh, hl, Ne.symm hpd]

theorem init_step (hp : ((s.apply d).pc p).exiting = true) : p ≠ initproc := by
  by_cases hpd : p = d.p
  · subst hpd
    rw [s.apply_pc_self] at hp
    exact (hd.exiting hp).elim (h.init _) id
  · rw [s.apply_pc_of_ne hpd] at hp
    exact h.init p hp

theorem Sys.Shape.step : (s.apply d).Shape where
  dormant _ := dormant_step h hd
  used _ _ := used_step h hd
  child _ _ _ := child_step h hd
  lock := lock_step h hd
  init _ := init_step h hd

end

theorem Sys.Shape.holder_unique (h : s.Shape) {p q : Slot} (hp : (s.pc p).holds = true)
    (hq : (s.pc q).holds = true) : p = q :=
  some_inj.mp (((h.lock p).mp hp).symm.trans ((h.lock q).mp hq))

/-! ## Parents -/

/-- How many slots of the table a process inside `exit` has already passed on to `initproc`. -/
def Pc.shed : Pc → Option Nat
  | .reparent _ i => some i
  | .wakeInit _ i _ => some (i + 1)
  | .wakeParent _ _ _ => some nproc
  | _ => none

structure Sys.Links (s : Sys) : Prop where
  /-- A parent is a live process: orphans have been given to `initproc`. -/
  live : ∀ q r, (s.proc q).parent = some r →
    (s.proc r).state ≠ .unused ∧ (s.proc r).state ≠ .zombie
  up : ∀ q r, (s.proc q).parent = some r → q ≠ r ∧ q ≠ initproc
  init : ¬(s.proc initproc).Dormant
  /-- The slots a process inside `exit` has passed are not its children any more. -/
  shed : ∀ p n, (s.pc p).shed = some n → ∀ q : Slot, q.val < n → (s.proc q).parent ≠ some p

theorem Sys.Dying.shed (h : s.Dying q) : (s.pc q).shed = some nproc := by
  obtain ⟨status, parent, j, hq, -⟩ := h
  rw [hq, Pc.shed]

/-! ### What a change does -/

theorem Does.parent (h : Does s a d) {r : Slot} (hx : d.x.parent = some r) :
    (s.proc d.q).parent = some r ∨
      (r = initproc ∧ (s.proc d.q).parent = some d.p ∧ ∃ status, s.pc d.p = .reparent status d.q ∧
        d.pc = .wakeInit status d.q 0) ∨
      d.p = r ∧ (s.proc d.p).state = .running ∧ s.waitLock = none ∧
        ∃ pid, s.pc d.p = .forkParent d.q pid := by
  cases h with
  | reparent hr hp hq => exact .inr (.inl ⟨(some_inj.mp hx).symm, hq, _, hp, rfl⟩)
  | forkParent hr hp hl => exact .inr (.inr ⟨some_inj.mp hx, hr, hl, _, hp⟩)
  | _ => first | exact .inl hx | cases hx

theorem Move.shed {pc pc' : Pc} (h : Move s p pc pc') {n : Nat} (hn : pc'.shed = some n) :
    (∃ m, pc.shed = some m ∧ n ≤ m) ∨
      ∃ k : Slot, n = k + 1 ∧ pc.shed = some k.val ∧ (s.proc k).parent ≠ some p := by
  cases h with
  | reparent hi => exact .inr ⟨_, (some_inj.mp hn).symm, rfl, hi⟩
  | reparentDone hi => exact .inl ⟨_, rfl, some_inj.mp hn ▸ hi⟩
  | _ => exact .inl ⟨_, hn, le_rfl⟩

theorem Does.shed (h : Does s a d) {n : Nat} (hn : d.pc.shed = some n) :
    n = 0 ∨ (∃ m, (s.pc d.p).shed = some m ∧ n ≤ m) ∨
      ∃ k : Slot, n = k + 1 ∧ (s.pc d.p).shed = some k.val ∧
        (d.q = k ∧ d.x.parent = some initproc ∨
          (s.proc k).parent ≠ some d.p ∧ d.x = s.proc d.q) := by
  cases h with
  | move hr hp hm =>
    subst hp
    exact .inr ((hm.shed hn).imp_right fun ⟨k, hk, hm, hpar⟩ => ⟨k, hk, hm, .inr ⟨hpar, rfl⟩⟩)
  | reparent hr hp hq =>
    refine .inr (.inr ⟨_, (some_inj.mp hn).symm, ?_, .inl ⟨rfl, rfl⟩⟩)
    simp [Sys.stay, hp, Pc.shed]
  | exitAcquire => exact .inl (some_inj.mp hn).symm
  | wakeInit hr hp =>
    exact .inr (.inl ⟨n, by rw [← hn]; simp [Sys.stay, hp, Pc.shed], le_rfl⟩)
  | wakeParent hr hp =>
    exact .inr (.inl ⟨n, by rw [← hn]; simp [Sys.stay, hp, Pc.shed], le_rfl⟩)
  | _ => first | exact .inr (.inl ⟨_, hn, le_rfl⟩) | cases hn

/-! ### The links -/

theorem parent_step (hd : Does s a d) {q r : Slot} (hq : ((s.apply d).proc q).parent = some r) :
    (s.proc q).parent = some r ∨
      (r = initproc ∧ (s.proc q).parent = some d.p ∧ ∃ status, s.pc d.p = .reparent status q ∧
        (s.apply d).pc d.p = .wakeInit status q 0) ∨
      (s.proc r).state = .running ∧ s.waitLock = none ∧ ∃ pid, s.pc r = .forkParent q pid := by
  by_cases hqd : q = d.q
  · subst hqd
    rw [s.apply_proc_self] at hq
    rcases hd.parent hq with hq | ⟨hr, hpar, status, hp, hpc⟩ | ⟨rfl, hrun, hl, pid, hp⟩
    · exact .inl hq
    · exact .inr (.inl ⟨hr, hpar, status, hp, (s.apply_pc_self d).trans hpc⟩)
    · exact .inr (.inr ⟨hrun, hl, pid, hp⟩)
  · rw [s.apply_proc_of_ne hqd] at hq
    exact .inl hq

theorem zombie_step (h : s.Shape) (hd : Does s a d)
    (hq : ((s.apply d).proc q).state = .zombie) : (s.proc q).state = .zombie ∨ s.Dying q := by
  by_cases hqd : q = d.q
  · subst hqd
    rw [s.apply_proc_self] at hq
    rcases hd.turn h with ht | ⟨-, ht⟩ | ⟨-, ht⟩ | ⟨-, ht, -⟩ | ⟨hqp, hdy, -⟩ | ⟨-, ht⟩
    · exact .inl (ht.symm.trans hq)
    · exact absurd (.inr (.inr hq)) ht
    · exact absurd (ht.symm.trans hq) (by simp)
    · exact absurd (.inr (.inr hq)) ht
    · exact .inr (hqp ▸ hdy)
    · exact absurd (ht.symm.trans hq) (by simp)
  · rw [s.apply_proc_of_ne hqd] at hq
    exact .inl hq

theorem dormant_or_dying_step (hd : Does s a d) (h : s.Shape)
    (hq : ((s.apply d).proc q).Dormant) : (s.proc q).Dormant ∨ s.Dying q := by
  by_cases hqd : q = d.q
  · subst hqd
    rw [s.apply_proc_self] at hq
    rcases hd.turn h with ht | ⟨-, ht⟩ | ⟨hu, -⟩ | ⟨hu, -⟩ | ⟨hqp, hdy, -⟩ | ⟨hz, -⟩
    · exact .inl (by rwa [Proc.Dormant, ht] at hq)
    · exact absurd hq ht
    · exact .inl (.inl hu)
    · exact .inl (.inr (.inl hu))
    · exact .inr (hqp ▸ hdy)
    · exact .inl (.inr (.inr hz))
  · rw [s.apply_proc_of_ne hqd] at hq
    exact .inl hq

theorem unused_step (h : s.Shape) (hd : Does s a d) (hq : ((s.apply d).proc q).state = .unused) :
    (s.proc q).state = .unused ∨ (s.proc q).state = .zombie := by
  by_cases hqd : q = d.q
  · subst hqd
    rw [s.apply_proc_self] at hq
    rcases hd.turn h with ht | ⟨-, ht⟩ | ⟨hu, -⟩ | ⟨-, ht, -⟩ | ⟨-, -, -, ht, -⟩ | ⟨hz, -⟩
    · exact .inl (ht.symm.trans hq)
    · exact absurd (.inl hq) ht
    · exact .inl hu
    · exact absurd (.inl hq) ht
    · exact absurd (ht.symm.trans hq) (by simp)
    · exact .inr hz
  · rw [s.apply_proc_of_ne hqd] at hq
    exact .inl hq

section

variable (h : s.Shape) (hl : s.Links) (hd : Does s a d)
include h hl hd

theorem links_init_step : ¬((s.apply d).proc initproc).Dormant := by
  intro hq
  rcases dormant_or_dying_step hd h hq with hq' | hdy
  · exact hl.init hq'
  · exact h.init _ hdy.exiting rfl

theorem live_step {q r : Slot} (hq : ((s.apply d).proc q).parent = some r) :
    ((s.apply d).proc r).state ≠ .unused ∧ ((s.apply d).proc r).state ≠ .zombie := by
  -- a live process that is not dying stays alive
  have hlive : (s.proc r).state ≠ .unused → (s.proc r).state ≠ .zombie → ¬s.Dying r →
      ((s.apply d).proc r).state ≠ .unused ∧ ((s.apply d).proc r).state ≠ .zombie := by
    intro hu hz hdy
    exact ⟨fun hu' => (unused_step h hd hu').elim hu hz, fun hz' => (zombie_step h hd hz').elim hz hdy⟩
  rcases parent_step hd hq with hq' | ⟨rfl, -⟩ | ⟨hrun, -, pid, hp⟩
  · obtain ⟨hu, hz⟩ := hl.live q r hq'
    exact hlive hu hz fun hdy => hl.shed r nproc hdy.shed q q.isLt hq'
  · have hinit := links_init_step h hl hd
    exact ⟨fun hu => hinit (.inl hu), fun hz => hinit (.inr (.inr hz))⟩
  · refine hlive (by simp [hrun]) (by simp [hrun]) fun ⟨_, _, _, hdy, _⟩ => ?_
    simp [hp] at hdy

theorem up_step {q r : Slot}
    (hq : ((s.apply d).proc q).parent = some r) : q ≠ r ∧ q ≠ initproc := by
  rcases parent_step hd hq with hq' | ⟨rfl, hq', -⟩ | ⟨hrun, -, pid, hp⟩
  · exact hl.up q r hq'
  · exact ⟨(hl.up q d.p hq').2, (hl.up q d.p hq').2⟩
  · have hused := h.used r q (by rw [hp, Pc.child])
    refine ⟨?_, ?_⟩
    · rintro rfl
      simp [hrun] at hused
    · rintro rfl
      exact hl.init (.inr (.inl hused))

end

theorem exiting_of_shed {pc : Pc} {n : Nat} (h : pc.shed = some n) : pc.exiting = true := by
  cases pc <;> first | rfl | cases h

theorem links_shed_step (h : s.Shape) (hl : s.Links) (hd : Does s a d) {n : Nat}
    (hp : ((s.apply d).pc p).shed = some n) (hqn : q.val < n) :
    ((s.apply d).proc q).parent ≠ some p := by
  intro hq
  have hinit : p ≠ initproc := (h.step hd).init p (exiting_of_shed hp)
  -- a slot that was passed before is no child now
  have hold : ∀ m, (s.pc p).shed = some m → q.val < m → False := by
    intro m hm hlt
    rcases parent_step hd hq with hq' | ⟨rfl, -⟩ | ⟨-, -, pid, hr⟩
    · exact hl.shed p m hm q hlt hq'
    · exact hinit rfl
    · simp [hr, Pc.shed] at hm
  by_cases hpd : p = d.p
  · subst hpd
    rw [s.apply_pc_self] at hp
    rcases hd.shed hp with rfl | ⟨m, hm, hle⟩ | ⟨k, rfl, hk, hpar⟩
    · exact absurd hqn (Nat.not_lt_zero _)
    · exact hold m hm (by omega)
    · by_cases hqk : q = k
      · subst hqk
        rcases hpar with ⟨rfl, hx⟩ | ⟨hne, hx⟩
        · rw [s.apply_proc_self, hx, some_inj] at hq
          exact hinit hq.symm
        · by_cases hqd : q = d.q
          · subst hqd
            exact hne (by rwa [s.apply_proc_self, hx] at hq)
          · exact hne (by rwa [s.apply_proc_of_ne hqd] at hq)
      · have hne : q.val ≠ k.val := fun he => hqk (Fin.ext he)
        exact hold k hk (by omega)
  · rw [s.apply_pc_of_ne hpd] at hp
    exact hold n hp hqn

theorem Sys.Links.step (hl : s.Links) (h : s.Shape) (hd : Does s a d) : (s.apply d).Links where
  live _ _ := live_step h hl hd
  up _ _ := up_step h hl hd
  init := links_init_step h hl hd
  shed _ _ hp _ := links_shed_step h hl hd hp

/-! ## Sleeping in `wait` -/

def Sys.Asleep (s : Sys) (p : Slot) : Prop :=
  (∃ addr, s.pc p = .waitAsleep addr) ∧ (s.proc p).state = .sleeping

/-- What the scan in `wait` has found out: whether there are children, and how many slots it has
looked at. -/
def Pc.scanned : Pc → Option (Bool × Nat)
  | .waitScan _ havekids i => some (havekids, i)
  | .waitKilled _ | .waitSleep _ => some (true, nproc)
  | _ => none

/-- What a process can rely on when it sleeps in `wait`. -/
structure Sys.Waiters (s : Sys) : Prop where
  chan : ∀ p, s.Asleep p → (s.proc p).chan = some (.proc p)
  /-- The scan has seen every child among the slots it has passed, and no zombie. -/
  scan : ∀ p havekids n, (s.pc p).scanned = some (havekids, n) → ∀ q : Slot, q.val < n →
    (s.proc q).parent = some p → havekids = true ∧ (s.proc q).state ≠ .zombie
  /-- A parent that an exiting child's `wakeup` has passed is not asleep. -/
  told : ∀ e status parent j, s.pc e = .wakeParent status parent j →
    parent = (s.proc e).parent ∧ ∀ p, parent = some p → p.val < j → ¬s.Asleep p
  /-- Asleep with a zombie child: only `initproc`, and a `wakeup` is on its way to it. -/
  owed : ∀ p q, s.Asleep p → (s.proc q).parent = some p → (s.proc q).state = .zombie →
    p = initproc ∧ ∃ e status i j, s.pc e = .wakeInit status i j ∧ j ≤ p.val

theorem holds_of_scanned {pc : Pc} {x : Bool × Nat} (h : pc.scanned = some x) :
    pc.holds = true := by
  cases pc <;> first | rfl | cases h

/-! ### What a change does -/

theorem Does.asleep (h : Does s a d) {addr : Nat} (hpc : d.pc = .waitAsleep addr) :
    s.pc d.p = .waitAsleep addr ∨ d.q = d.p ∧ s.pc d.p = .waitSleep addr ∧
      d.x = { s.proc d.p with chan := some (.proc d.p), state := .sleeping } := by
  cases h with
  | move _ _ hm => cases hm <;> cases hpc
  | waitSleep hr hp =>
    obtain rfl := Pc.waitAsleep.inj hpc
    exact .inr ⟨rfl, hp, rfl⟩
  | _ => first | exact .inl hpc | cases hpc

theorem Proc.rouse_sleeping {x : Proc} {c : Option Chan} (h : (x.rouse c).state = .sleeping) :
    x.state = .sleeping ∧ x.chan ≠ c := by
  by_cases hc : x.state = .sleeping ∧ x.chan = c
  · rw [Proc.rouse, if_pos hc] at h
    exact absurd h (by simp)
  · rw [Proc.rouse, if_neg hc] at h
    exact ⟨h, fun he => hc ⟨h, he⟩⟩

theorem Does.sleeping (h : Does s a d) (hx : d.x.state = .sleeping) :
    (s.proc d.q).state = .sleeping ∧ d.x.chan = (s.proc d.q).chan ∨
      d.q = d.p ∧ (s.pc d.p = .user ∨ ∃ addr, s.pc d.p = .waitSleep addr) := by
  cases h with
  | waitSleep hr hp => exact .inr ⟨rfl, .inr ⟨_, hp⟩⟩
  | block hr hp => exact .inr ⟨rfl, .inl hp⟩
  | wakeInit => exact .inl ⟨(Proc.rouse_sleeping hx).1, rfl⟩
  | wakeParent => exact .inl ⟨(Proc.rouse_sleeping hx).1, rfl⟩
  | wakeOther => exact .inl ⟨(Proc.rouse_sleeping hx).1, rfl⟩
  | @kill p q pid ok hr hp hq =>
    dsimp only at hx
    split at hx
    · exact absurd hx (by simp)
    · exact .inl ⟨hx, rfl⟩
  | _ => first | exact .inl ⟨hx, rfl⟩ | cases hx

theorem Move.scanned {pc pc' : Pc} (h : Move s p pc pc') {havekids : Bool} {n : Nat}
    (hn : pc'.scanned = some (havekids, n)) :
    (∃ m, pc.scanned = some (havekids, m) ∧ n ≤ m) ∨
      ∃ (k : Slot) (hk : Bool), n = k + 1 ∧ pc.scanned = some (hk, k.val) ∧
        (hk = true → havekids = true) ∧
        ((s.proc k).parent = some p → havekids = true ∧ (s.proc k).state ≠ .zombie) := by
  cases h with
  | @waitChild addr hk i hi hz =>
    obtain ⟨rfl, rfl⟩ := Prod.mk.inj (some_inj.mp hn)
    exact .inr ⟨i, hk, rfl, rfl, fun _ => rfl, fun _ => ⟨rfl, hz⟩⟩
  | @waitSkip addr hk i hi =>
    obtain ⟨rfl, rfl⟩ := Prod.mk.inj (some_inj.mp hn)
    exact .inr ⟨i, hk, rfl, rfl, id, fun h => absurd h hi⟩
  | waitDone hi =>
    obtain ⟨rfl, rfl⟩ := Prod.mk.inj (some_inj.mp hn)
    exact .inl ⟨_, rfl, hi⟩
  | waitLive => exact .inl ⟨n, hn, le_rfl⟩
  | _ => cases hn

theorem Does.scanned (h : Does s a d) {havekids : Bool} {n : Nat}
    (hn : d.pc.scanned = some (havekids, n)) :
    n = 0 ∨ (∃ m, (s.pc d.p).scanned = some (havekids, m) ∧ n ≤ m) ∨
      ∃ (k : Slot) (hk : Bool), n = k + 1 ∧ (s.pc d.p).scanned = some (hk, k.val) ∧
        (hk = true → havekids = true) ∧ s.apply d = s.goto d.p d.pc ∧
        ((s.proc k).parent = some d.p → havekids = true ∧ (s.proc k).state ≠ .zombie) := by
  cases h with
  | move hr hp hm =>
    subst hp
    refine .inr ((hm.scanned hn).imp_right ?_)
    rintro ⟨k, hk, hn, hpc, himp, hpar⟩
    exact ⟨k, hk, hn, hpc, himp, apply_stay_goto, hpar⟩
  | waitAcquire =>
    obtain ⟨-, rfl⟩ := Prod.mk.inj (some_inj.mp hn)
    exact .inl rfl
  | _ => first | exact .inr (.inl ⟨_, hn, le_rfl⟩) | cases hn

theorem Does.wakeParent_eq (h : Does s a d) {status : Int} {parent : Option Slot} {j : Nat}
    (hpc : d.pc = .wakeParent status parent j) :
    s.pc d.p = .wakeParent status parent j ∨
      j = 0 ∧ parent = (s.proc d.p).parent ∧ s.apply d = s.goto d.p d.pc ∨
      ∃ k : Slot, j = k + 1 ∧ s.pc d.p = .wakeParent status parent k ∧
        (k = d.p ∨ d.q = k ∧ d.x = (s.proc k).rouse (parent.map .proc)) := by
  cases h with
  | move hr hp hm =>
    cases hm with
    | reparentDone hi =>
      obtain ⟨rfl, rfl, rfl⟩ := Pc.wakeParent.inj hpc
      exact .inr (.inl ⟨rfl, rfl, apply_stay_goto⟩)
    | wakeParentSelf =>
      obtain ⟨rfl, rfl, rfl⟩ := Pc.wakeParent.inj hpc
      exact .inr (.inr ⟨_, rfl, hp, .inl rfl⟩)
    | _ => cases hpc
  | wakeParent hr hp hq =>
    obtain ⟨rfl, rfl, rfl⟩ := Pc.wakeParent.inj hpc
    exact .inr (.inr ⟨_, rfl, hp, .inr ⟨rfl, rfl⟩⟩)
  | _ => first | exact .inl hpc | cases hpc

theorem WaitFails.scanned {ok : Bool} (h : WaitFails s p ok) : ∃ x, (s.pc p).scanned = some x := by
  cases h <;> exact ⟨_, by rw [‹s.pc p = _›, Pc.scanned]⟩

theorem Does.wakeInit_eq (h : Does s a d) {status : Int} {i j : Nat}
    (hp : s.pc d.p = .wakeInit status i j) :
    d.pc = .wakeInit status i j ∨ nproc ≤ j ∨ j = d.p.val ∨
      ∃ k : Slot, j = k ∧ d.q = k ∧ d.x = (s.proc k).rouse (some (.proc initproc)) := by
  cases h with
  | move hr hp' hm =>
    obtain rfl := hp'.symm.trans hp
    cases hm with
    | wakeInitSelf => exact .inr (.inr (.inl rfl))
    | wakeInitDone hj => exact .inr (.inl hj)
  | wakeInit hr hp' hq =>
    obtain ⟨rfl, rfl, rfl⟩ := Pc.wakeInit.inj (hp'.symm.trans hp)
    exact .inr (.inr (.inr ⟨_, rfl, rfl, rfl⟩))
  | giveUp hr hp' =>
    rcases hp' with ⟨i, hp'⟩ | ⟨pid, i, hp'⟩ <;> exact nomatch hp'.symm.trans hp
  | waitFail hr hw =>
    obtain ⟨x, hx⟩ := hw.scanned
    exact absurd ((congrArg Pc.scanned hp).symm.trans hx) (by simp [Pc.scanned])
  | _ => first | exact .inl hp | simp_all [Sys.stay]

theorem Does.parent_eq_of_holds (h : Does s a d) (hs : s.Shape) (hl : s.Links)
    (hq : (s.pc d.q).holds = true) : d.x.parent = (s.proc d.q).parent := by
  have hnot : ¬(s.proc d.q).Dormant := fun hd => by simp [hs.dormant _ hd, Pc.holds] at hq
  cases h with
  | forkFail hr hp hu => exact absurd (.inl hu) hnot
  | waitReap hr hp hpar hz => exact absurd (.inr (.inr hz)) hnot
  | forkParent hr hp hnone => exact absurd (((hs.lock _).mp hq).symm.trans hnone) (by simp)
  | reparent hr hp hpar =>
    exact absurd (hs.holder_unique hq (by rw [hp]; rfl)) (hl.up _ _ hpar).1
  | _ => rfl

/-! ### The sleepers -/

theorem asleep_step (hd : Does s a d) (hp : (s.apply d).Asleep p) :
    s.Asleep p ∧ ((s.apply d).proc p).chan = (s.proc p).chan ∨
      p = d.p ∧ d.q = d.p ∧ (∃ addr, s.pc p = .waitSleep addr) ∧
        d.x = { s.proc p with chan := some (.proc p), state := .sleeping } := by
  obtain ⟨⟨addr, hpc⟩, hst⟩ := hp
  -- a process that was in `sleep` before was asleep before
  have hold : s.pc p = .waitAsleep addr →
      s.Asleep p ∧ ((s.apply d).proc p).chan = (s.proc p).chan := by
    intro hpc'
    by_cases hpq : p = d.q
    · subst hpq
      rw [s.apply_proc_self] at hst ⊢
      rcases hd.sleeping hst with ⟨hsl, hchan⟩ | ⟨hqp, hp⟩
      · exact ⟨⟨⟨addr, hpc'⟩, hsl⟩, hchan⟩
      · rw [← hqp, hpc'] at hp
        simp at hp
    · rw [s.apply_proc_of_ne hpq] at hst ⊢
      exact ⟨⟨⟨addr, hpc'⟩, hst⟩, rfl⟩
  by_cases hpd : p = d.p
  · subst hpd
    rw [s.apply_pc_self] at hpc
    rcases hd.asleep hpc with hpc' | ⟨hqp, hsl, hx⟩
    · exact .inl (hold hpc')
    · exact .inr ⟨rfl, hqp, ⟨addr, hsl⟩, hx⟩
  · rw [s.apply_pc_of_ne hpd] at hpc
    exact .inl (hold hpc)

theorem chan_step (hw : s.Waiters) (hd : Does s a d) (hp : (s.apply d).Asleep p) :
    ((s.apply d).proc p).chan = some (.proc p) := by
  rcases asleep_step hd hp with ⟨hp', hchan⟩ | ⟨rfl, hqp, -, hx⟩
  · rw [hchan, hw.chan p hp']
  · rw [← hqp, s.apply_proc_self, hx]
    exact congrArg (fun q => some (Chan.proc q)) hqp.symm

theorem not_asleep_of_rouse (hw : s.Waiters) (hd : Does s a d) (hq : d.q = p)
    (hx : d.x = (s.proc p).rouse (some (.proc p))) : ¬(s.apply d).Asleep p := by
  intro hp
  subst hq
  have hst := hp.2
  have hchan := chan_step hw hd hp
  rw [s.apply_proc_self, hx] at hst hchan
  exact (Proc.rouse_sleeping hst).2 hchan

theorem scan_step (h : s.Shape) (hw : s.Waiters) (hd : Does s a d) {havekids : Bool}
    {n : Nat} (hp : ((s.apply d).pc p).scanned = some (havekids, n)) (hqn : q.val < n)
    (hq : ((s.apply d).proc q).parent = some p) :
    havekids = true ∧ ((s.apply d).proc q).state ≠ .zombie := by
  -- nothing changes for a slot the scan has passed, because the scan holds `wait_lock`
  have hold : ∀ hk m, (s.pc p).scanned = some (hk, m) → q.val < m →
      hk = true ∧ ((s.apply d).proc q).state ≠ .zombie := by
    intro hk m hm hlt
    have hh := holds_of_scanned hm
    have hpar : (s.proc q).parent = some p := by
      rcases parent_step hd hq with hq' | ⟨-, -, status, he, -⟩ | ⟨-, hnone, -⟩
      · exact hq'
      · obtain rfl := h.holder_unique hh (q := d.p) (by rw [he, Pc.holds])
        simp [he, Pc.scanned] at hm
      · exact absurd (hnone.symm.trans ((h.lock p).mp hh)) (by simp)
    obtain ⟨hk', hz⟩ := hw.scan p hk m hm q hlt hpar
    refine ⟨hk', fun hz' => ?_⟩
    rcases zombie_step h hd hz' with hz' | ⟨_, _, _, hdy, -⟩
    · exact hz hz'
    · obtain rfl := h.holder_unique hh (q := q) (by rw [hdy, Pc.holds])
      simp [hdy, Pc.scanned] at hm
  by_cases hpd : p = d.p
  · subst hpd
    rw [s.apply_pc_self] at hp
    rcases hd.scanned hp with rfl | ⟨m, hm, hle⟩ | ⟨k, hk, rfl, hk', himp, happly, hpk⟩
    · exact absurd hqn (Nat.not_lt_zero _)
    · exact hold _ m hm (by omega)
    · by_cases hqk : q = k
      · subst hqk
        rw [happly] at hq ⊢
        exact hpk hq
      · have hne : q.val ≠ k.val := fun he => hqk (Fin.ext he)
        obtain ⟨h1, h2⟩ := hold hk k hk' (by omega)
        exact ⟨himp h1, h2⟩
  · rw [s.apply_pc_of_ne hpd] at hp
    exact hold _ n hp hqn

theorem told_step (h : s.Shape) (hl : s.Links) (hw : s.Waiters) (hd : Does s a d) {e : Slot}
    {status : Int} {parent : Option Slot} {j : Nat}
    (he : (s.apply d).pc e = .wakeParent status parent j) :
    parent = ((s.apply d).proc e).parent ∧
      ∀ p, parent = some p → p.val < j → ¬(s.apply d).Asleep p := by
  -- while `e` holds `wait_lock`, nobody falls asleep in `wait` and its parent stays
  have hold : ∀ i, s.pc e = .wakeParent status parent i →
      parent = ((s.apply d).proc e).parent ∧
        ∀ p, parent = some p → p.val < i → ¬(s.apply d).Asleep p := by
    intro i hi
    have hh : (s.pc e).holds = true := by rw [hi, Pc.holds]
    obtain ⟨hpar, hno⟩ := hw.told e status parent i hi
    refine ⟨?_, fun p hp hlt hasl => ?_⟩
    · by_cases heq : e = d.q
      · subst heq
        rw [s.apply_proc_self, hd.parent_eq_of_holds h hl hh]
        exact hpar
      · rwa [s.apply_proc_of_ne heq]
    · rcases asleep_step hd hasl with ⟨hasl', -⟩ | ⟨-, -, ⟨addr, hsl⟩, -⟩
      · exact hno p hp hlt hasl'
      · obtain rfl := h.holder_unique hh (q := p) (by rw [hsl, Pc.holds])
        simp [hsl] at hi
  by_cases hed : e = d.p
  · subst hed
    rw [s.apply_pc_self] at he
    rcases hd.wakeParent_eq he with he' | ⟨rfl, hpar, happly⟩ | ⟨k, rfl, he', hk⟩
    · exact hold j he'
    · rw [happly]
      exact ⟨hpar, fun p _ hlt => absurd hlt (Nat.not_lt_zero _)⟩
    · obtain ⟨hpar, hno⟩ := hold k he'
      refine ⟨hpar, fun p hp hlt => ?_⟩
      by_cases hpk : p = k
      · subst hpk
        rcases hk with rfl | ⟨hq, hx⟩
        · exact absurd rfl (hl.up _ _ ((hw.told _ status parent _ he').1.symm.trans hp)).1
        · exact not_asleep_of_rouse hw hd hq (by rw [hx, hp, Option.map_some])
      · have hne : p.val ≠ k.val := fun he => hpk (Fin.ext he)
        exact hno p hp (by omega)
  · rw [s.apply_pc_of_ne hed] at he
    exact hold j he

theorem owed_step (h : s.Shape) (hw : s.Waiters) (hd : Does s a d) {p q : Slot}
    (hp : (s.apply d).Asleep p) (hq : ((s.apply d).proc q).parent = some p)
    (hz : ((s.apply d).proc q).state = .zombie) :
    p = initproc ∧ ∃ e status i j, (s.apply d).pc e = .wakeInit status i j ∧ j ≤ p.val := by
  rcases asleep_step hd hp with ⟨hp', -⟩ | ⟨rfl, hqp, ⟨addr, hsl⟩, hx⟩
  swap
  · -- `p` has just scanned the table, and only its own slot changes
    have hqd : q ≠ d.q := by
      rintro rfl
      rw [s.apply_proc_self, hx] at hz
      exact absurd hz (by simp)
    rw [s.apply_proc_of_ne hqd] at hq hz
    exact absurd hz (hw.scan _ true nproc (by rw [hsl, Pc.scanned]) q q.isLt hq).2
  rcases parent_step hd hq with hq' | ⟨rfl, -, status, -, he⟩ | ⟨-, -, pid, hr⟩
  · rcases zombie_step h hd hz with hz' | ⟨status, parent, j, hdy, hj⟩
    · obtain ⟨rfl, e, status, i, j, he, hj⟩ := hw.owed p q hp' hq' hz'
      by_cases hed : e = d.p
      · subst hed
        rcases hd.wakeInit_eq he with he' | hge | hself | ⟨k, rfl, hk, hx⟩
        · exact ⟨rfl, d.p, status, i, j, (s.apply_pc_self d).trans he', hj⟩
        · exact absurd (hge.trans hj) (by decide)
        · exact absurd (Fin.le_zero_iff.mp (Fin.le_def.mpr (hself ▸ hj)))
            (h.init d.p (by rw [he, Pc.exiting]))
        · obtain rfl : k = initproc := Fin.le_zero_iff.mp hj
          exact absurd hp (not_asleep_of_rouse hw hd hk hx)
      · exact ⟨rfl, e, status, i, j, (s.apply_pc_of_ne hed).trans he, hj⟩
    · obtain ⟨hpar, hno⟩ := hw.told q status parent j hdy
      exact absurd hp' (hno p (hpar.trans hq') (lt_of_lt_of_le p.isLt hj))
  · exact ⟨rfl, d.p, status, q, 0, he, Nat.zero_le _⟩
  · obtain ⟨addr, hasl⟩ := hp'.1
    simp [hr] at hasl

theorem Sys.Waiters.step (hw : s.Waiters) (h : s.Shape) (hl : s.Links) (hd : Does s a d) :
    (s.apply d).Waiters where
  chan _ := chan_step hw hd
  scan _ _ _ hp _ := scan_step h hw hd hp
  told _ _ _ _ := told_step h hl hw hd
  owed _ _ := owed_step h hw hd

/-! ## Identities -/

def Proc.toExit (x : Proc) : Exit := ⟨x.uid, x.pid, x.xstate⟩

inductive Census (s t : Sys) : Act → Prop where
  /-- `allocproc` takes the free slot `q`, and may give it back. -/
  | alloc {a : Act} {q : Slot} (hq : (s.proc q).state = .unused)
      (hallocs : t.allocs = s.allocs + 1) (hnext : t.nextpid = int32 (s.nextpid + 1))
      (hexits : t.exits = s.exits) (hreaped : t.reaped = s.reaped)
      (hnew : (t.proc q).state = .unused ∨ (t.proc q).state = .used ∧
        (t.proc q).uid = s.allocs + 1 ∧ (t.proc q).pid = s.nextpid)
      (hrest : ∀ r, r ≠ q → t.proc r = s.proc r) : Census s t a
  | exit {a : Act} {p : Slot} (hp : (s.proc p).state = .running)
      (hallocs : t.allocs = s.allocs) (hnext : t.nextpid = s.nextpid)
      (hzombie : (t.proc p).state = .zombie) (huid : (t.proc p).uid = (s.proc p).uid)
      (hpid : (t.proc p).pid = (s.proc p).pid)
      (hexits : t.exits = (t.proc p).toExit :: s.exits) (hreaped : t.reaped = s.reaped)
      (hrest : ∀ r, r ≠ p → t.proc r = s.proc r) : Census s t a
  | reap {p q : Slot} {addr : Nat} {havekids ok : Bool} (hp : s.pc p = .waitScan addr havekids q)
      (hq : (s.proc q).parent = some p) (hz : (s.proc q).state = .zombie)
      (hret : t.pc p = .user ∧ t.ret p = some (s.proc q).pid)
      (hallocs : t.allocs = s.allocs) (hnext : t.nextpid = s.nextpid) (hexits : t.exits = s.exits)
      (hreaped : t.reaped = (s.proc q).toExit :: s.reaped) (hfree : (t.proc q).state = .unused)
      (hrest : ∀ r, r ≠ q → t.proc r = s.proc r) : Census s t (.step p ok)
  | stay {a : Act} (hallocs : t.allocs = s.allocs) (hnext : t.nextpid = s.nextpid)
      (hexits : t.exits = s.exits) (hreaped : t.reaped = s.reaped)
      (hrest : ∀ r, (t.proc r).toExit = (s.proc r).toExit ∧
        ((t.proc r).state = .unused ↔ (s.proc r).state = .unused) ∧
        ((t.proc r).state = .zombie ↔ (s.proc r).state = .zombie)) : Census s t a

theorem Proc.rouse_state_eq_iff (x : Proc) (c : Option Chan) {st : ProcState}
    (hsl : st ≠ .sleeping) (hrun : st ≠ .runnable) : (x.rouse c).state = st ↔ x.state = st := by
  by_cases hc : x.state = .sleeping ∧ x.chan = c
  · rw [Proc.rouse, if_pos hc, hc.1]
    exact iff_of_false (Ne.symm hrun) (Ne.symm hsl)
  · rw [Proc.rouse, if_neg hc]

theorem census_of_does (h : s.Shape) (hd : Does s a d) : Census s (s.apply d) a := by
  have hrest : ∀ r, r ≠ d.q → (s.apply d).proc r = s.proc r := fun r hr => s.apply_proc_of_ne hr
  have hself := s.apply_proc_self d
  -- a step that keeps the record of the slot it changes, and whether it is free or a zombie
  have hstay : d.allocs = s.allocs → d.nextpid = s.nextpid → d.exits = s.exits →
      d.reaped = s.reaped → d.x.toExit = (s.proc d.q).toExit →
      (d.x.state = .unused ↔ (s.proc d.q).state = .unused) →
      (d.x.state = .zombie ↔ (s.proc d.q).state = .zombie) → Census s (s.apply d) a := by
    intro h1 h2 h3 h4 h5 h6 h7
    refine .stay h1 h2 h3 h4 fun r => ?_
    by_cases hr : r = d.q
    · rw [hr, hself]
      exact ⟨h5, h6, h7⟩
    · simp [hrest r hr]
  cases hd with
  | forkAlloc hr hp hq =>
    exact .alloc hq rfl rfl rfl rfl
      (.inr ⟨congrArg Proc.state hself, congrArg Proc.uid hself, congrArg Proc.pid hself⟩) hrest
  | forkFail hr hp hq => exact .alloc hq rfl rfl rfl rfl (.inl (congrArg Proc.state hself)) hrest
  | exitZombie hr hp hj =>
    exact .exit hr rfl rfl (congrArg Proc.state hself) ((congrArg Proc.uid hself).trans rfl)
      ((congrArg Proc.pid hself).trans rfl) (congrArg (fun x : Proc => x.toExit :: s.exits) hself.symm)
      rfl hrest
  | waitReap hr hp hq hz =>
    exact .reap hp hq hz ⟨s.apply_pc_self _, Function.update_self ..⟩ rfl rfl rfl rfl
      (congrArg Proc.state hself) hrest
  | @forkRun p np pid ok hr hp =>
    have hu := h.used p np (by rw [hp, Pc.child])
    exact hstay rfl rfl rfl rfl rfl (by simp [Sys.stay, hu]) (by simp [Sys.stay, hu])
  | @kill p q pid ok hr hp hq =>
    refine hstay rfl rfl rfl rfl rfl ?_ ?_
    all_goals
      by_cases hsl : (s.proc q).state = .sleeping <;> simp [Sys.stay, hsl]
  | _ => first
    | exact hstay rfl rfl rfl rfl rfl Iff.rfl Iff.rfl
    | exact hstay rfl rfl rfl rfl rfl (Proc.rouse_state_eq_iff _ _ (by decide) (by decide))
        (Proc.rouse_state_eq_iff _ _ (by decide) (by decide))
    | (refine hstay rfl rfl rfl rfl rfl ?_ ?_ <;> simp_all [Sys.stay])

structure Sys.Ids (s : Sys) : Prop where
  next : s.nextpid = int32 (s.allocs + 1)
  /-- The pid of a process is the number of its allocation, as a 32-bit `int`. -/
  born : ∀ q, (s.proc q).state ≠ .unused →
    0 < (s.proc q).uid ∧ (s.proc q).uid ≤ s.allocs ∧ (s.proc q).pid = int32 (s.proc q).uid
  distinct : ∀ p q, (s.proc p).state ≠ .unused → (s.proc q).state ≠ .unused →
    (s.proc p).uid = (s.proc q).uid → p = q
  exits : (s.exits.map Exit.uid).Nodup
  past : ∀ e ∈ s.exits, e.uid ≤ s.allocs
  alive : ∀ q, (s.proc q).state ≠ .unused → (s.proc q).state ≠ .zombie →
    (s.proc q).uid ∉ s.exits.map Exit.uid
  zombie : ∀ q, (s.proc q).state = .zombie →
    (s.proc q).toExit ∈ s.exits ∧ (s.proc q).uid ∉ s.reaped.map Exit.uid
  reaped : (s.reaped.map Exit.uid).Nodup
  sub : ∀ e ∈ s.reaped, e ∈ s.exits

theorem Sys.Ids.alloc (hi : s.Ids) (hallocs : t.allocs = s.allocs + 1)
    (hnext : t.nextpid = int32 (s.nextpid + 1)) (hexits : t.exits = s.exits)
    (hreaped : t.reaped = s.reaped) (hnew : (t.proc q).state = .unused ∨ (t.proc q).state = .used ∧
      (t.proc q).uid = s.allocs + 1 ∧ (t.proc q).pid = s.nextpid)
    (hrest : ∀ r, r ≠ q → t.proc r = s.proc r) : t.Ids := by
  -- a slot in use afterwards is the new one or is as before
  have hcase : ∀ r, (t.proc r).state ≠ .unused → (r = q ∧ (t.proc r).state = .used ∧
      (t.proc r).uid = s.allocs + 1 ∧ (t.proc r).pid = s.nextpid) ∨ r ≠ q ∧ t.proc r = s.proc r := by
    intro r hr
    by_cases hrq : r = q
    · subst hrq
      exact .inl ⟨rfl, hnew.resolve_left hr⟩
    · exact .inr ⟨hrq, hrest r hrq⟩
  have hpast : s.allocs + 1 ∉ s.exits.map Exit.uid := by
    intro hmem
    obtain ⟨e, he, heq⟩ := List.mem_map.mp hmem
    have := hi.past e he
    omega
  refine ⟨?_, ?_, ?_, ?_, ?_, ?_, ?_, ?_, ?_⟩
  · rw [hnext, hallocs, hi.next, int32, int32, Int.bmod_add_bmod, int32]
    push_cast
    rfl
  · intro r hr
    rcases hcase r hr with ⟨rfl, -, huid, hpid⟩ | ⟨-, hrr⟩
    · rw [huid, hpid, hallocs, hi.next]
      exact ⟨by omega, le_rfl, by push_cast; rfl⟩
    · rw [hrr] at hr ⊢
      obtain ⟨h1, h2, h3⟩ := hi.born r hr
      exact ⟨h1, by omega, h3⟩
  · intro p r hp hr heq
    rcases hcase p hp with ⟨rfl, -, hup, -⟩ | ⟨-, hpp⟩ <;>
      rcases hcase r hr with ⟨rfl, -, hur, -⟩ | ⟨-, hrr⟩
    · rfl
    · rw [hrr] at hr heq
      have := (hi.born r hr).2.1
      omega
    · rw [hpp] at hp heq
      have := (hi.born p hp).2.1
      omega
    · rw [hpp] at hp heq
      rw [hrr] at hr heq
      exact hi.distinct p r hp hr heq
  · rw [hexits]
    exact hi.exits
  · rw [hexits, hallocs]
    exact fun e he => (hi.past e he).trans (Nat.le_succ _)
  · intro r hr hz
    rw [hexits]
    rcases hcase r hr with ⟨-, -, huid, -⟩ | ⟨-, hrr⟩
    · rwa [huid]
    · rw [hrr] at hr hz ⊢
      exact hi.alive r hr hz
  · intro r hz
    rw [hexits, hreaped]
    rcases hcase r (by simp [hz]) with ⟨-, hused, -⟩ | ⟨-, hrr⟩
    · exact absurd (hz.symm.trans hused) (by simp)
    · rw [hrr] at hz ⊢
      exact hi.zombie r hz
  · rw [hreaped]
    exact hi.reaped
  · rw [hexits, hreaped]
    exact hi.sub

theorem Sys.Ids.exit (hi : s.Ids) (hp : (s.proc p).state = .running)
    (hallocs : t.allocs = s.allocs) (hnext : t.nextpid = s.nextpid)
    (hzombie : (t.proc p).state = .zombie) (huid : (t.proc p).uid = (s.proc p).uid)
    (hpid : (t.proc p).pid = (s.proc p).pid)
    (hexits : t.exits = (t.proc p).toExit :: s.exits) (hreaped : t.reaped = s.reaped)
    (hrest : ∀ r, r ≠ p → t.proc r = s.proc r) : t.Ids := by
  have halive := hi.alive p (by simp [hp]) (by simp [hp])
  have hsame : ∀ r, (t.proc r).uid = (s.proc r).uid ∧ (t.proc r).pid = (s.proc r).pid ∧
      ((t.proc r).state = .unused ↔ (s.proc r).state = .unused) := by
    intro r
    by_cases hrp : r = p
    · subst hrp
      exact ⟨huid, hpid, by simp [hzombie, hp]⟩
    · simp [hrest r hrp]
  have huidx : (t.proc p).toExit.uid = (s.proc p).uid := huid
  refine ⟨?_, ?_, ?_, ?_, ?_, ?_, ?_, ?_, ?_⟩
  · rw [hnext, hallocs]
    exact hi.next
  · intro r hr
    obtain ⟨h1, h2, h3⟩ := hsame r
    rw [h1, h2, hallocs]
    exact hi.born r (fun h => hr (h3.mpr h))
  · intro r r' hr hr' heq
    rw [(hsame r).1, (hsame r').1] at heq
    exact hi.distinct r r' (fun h => hr ((hsame r).2.2.mpr h))
      (fun h => hr' ((hsame r').2.2.mpr h)) heq
  · rw [hexits, List.map_cons, huidx, List.nodup_cons]
    exact ⟨halive, hi.exits⟩
  · rw [hexits, hallocs]
    intro e he
    rcases List.mem_cons.mp he with rfl | he
    · rw [huidx]
      exact (hi.born p (by simp [hp])).2.1
    · exact hi.past e he
  · intro r hr hz
    have hrp : r ≠ p := by
      rintro rfl
      exact hz hzombie
    rw [hrest r hrp] at hr hz ⊢
    rw [hexits, List.map_cons, huidx, List.mem_cons, not_or]
    exact ⟨fun heq => hrp (hi.distinct r p hr (by simp [hp]) heq), hi.alive r hr hz⟩
  · intro r hz
    rw [hexits, hreaped]
    by_cases hrp : r = p
    · subst hrp
      refine ⟨List.mem_cons_self .., ?_⟩
      rw [huid]
      intro hmem
      obtain ⟨e, he, heq⟩ := List.mem_map.mp hmem
      exact halive (heq ▸ List.mem_map_of_mem (hi.sub e he))
    · rw [hrest r hrp] at hz ⊢
      obtain ⟨h1, h2⟩ := hi.zombie r hz
      exact ⟨List.mem_cons_of_mem _ h1, h2⟩
  · rw [hreaped]
    exact hi.reaped
  · rw [hexits, hreaped]
    exact fun e he => List.mem_cons_of_mem _ (hi.sub e he)

theorem Sys.Ids.reap (hi : s.Ids) (hz : (s.proc q).state = .zombie)
    (hallocs : t.allocs = s.allocs) (hnext : t.nextpid = s.nextpid) (hexits : t.exits = s.exits)
    (hreaped : t.reaped = (s.proc q).toExit :: s.reaped) (hfree : (t.proc q).state = .unused)
    (hrest : ∀ r, r ≠ q → t.proc r = s.proc r) : t.Ids := by
  obtain ⟨hexit, hnot⟩ := hi.zombie q hz
  -- a slot in use afterwards is as before
  have hcase : ∀ r, (t.proc r).state ≠ .unused → r ≠ q ∧ t.proc r = s.proc r := by
    intro r hr
    have hrq : r ≠ q := by
      rintro rfl
      exact hr hfree
    exact ⟨hrq, hrest r hrq⟩
  refine ⟨?_, ?_, ?_, ?_, ?_, ?_, ?_, ?_, ?_⟩
  · rw [hnext, hallocs]
    exact hi.next
  · intro r hr
    obtain ⟨-, hrr⟩ := hcase r hr
    rw [hrr] at hr ⊢
    rw [hallocs]
    exact hi.born r hr
  · intro r r' hr hr' heq
    obtain ⟨-, hrr⟩ := hcase r hr
    obtain ⟨-, hrr'⟩ := hcase r' hr'
    rw [hrr, hrr'] at heq
    exact hi.distinct r r' (hrr ▸ hr) (hrr' ▸ hr') heq
  · rw [hexits]
    exact hi.exits
  · rw [hexits, hallocs]
    exact hi.past
  · intro r hr hz'
    obtain ⟨-, hrr⟩ := hcase r hr
    rw [hrr] at hr hz' ⊢
    rw [hexits]
    exact hi.alive r hr hz'
  · intro r hz'
    obtain ⟨hrq, hrr⟩ := hcase r (by simp [hz'])
    rw [hrr] at hz' ⊢
    obtain ⟨h1, h2⟩ := hi.zombie r hz'
    rw [hexits, hreaped, List.map_cons, List.mem_cons, not_or]
    exact ⟨h1, fun heq => hrq (hi.distinct r q (by simp [hz']) (by simp [hz]) heq), h2⟩
  · rw [hreaped, List.map_cons, List.nodup_cons]
    exact ⟨hnot, hi.reaped⟩
  · rw [hexits, hreaped]
    intro e he
    rcases List.mem_cons.mp he with rfl | he
    · exact hexit
    · exact hi.sub e he

theorem Sys.Ids.stay (hi : s.Ids) (hallocs : t.allocs = s.allocs) (hnext : t.nextpid = s.nextpid)
    (hexits : t.exits = s.exits) (hreaped : t.reaped = s.reaped)
    (hrest : ∀ r, (t.proc r).toExit = (s.proc r).toExit ∧
      ((t.proc r).state = .unused ↔ (s.proc r).state = .unused) ∧
      ((t.proc r).state = .zombie ↔ (s.proc r).state = .zombie)) : t.Ids := by
  have huid : ∀ r, (t.proc r).uid = (s.proc r).uid := fun r => congrArg Exit.uid (hrest r).1
  have hpid : ∀ r, (t.proc r).pid = (s.proc r).pid := fun r => congrArg Exit.pid (hrest r).1
  have hunused : ∀ r, (t.proc r).state = .unused ↔ (s.proc r).state = .unused :=
    fun r => (hrest r).2.1
  have hzombie : ∀ r, (t.proc r).state = .zombie ↔ (s.proc r).state = .zombie :=
    fun r => (hrest r).2.2
  constructor <;> simp only [hallocs, hnext, hexits, hreaped, huid, hpid, hunused, hzombie,
    (hrest _).1, ne_eq]
  exacts [hi.next, hi.born, hi.distinct, hi.exits, hi.past, hi.alive, hi.zombie, hi.reaped, hi.sub]

theorem Sys.Ids.step (hi : s.Ids) (h : s.Shape) (hd : Does s a d) : (s.apply d).Ids := by
  cases census_of_does h hd with
  | alloc _ hallocs hnext hexits hreaped hnew hrest =>
    exact hi.alloc hallocs hnext hexits hreaped hnew hrest
  | exit hp hallocs hnext hzombie huid hpid hexits hreaped hrest =>
    exact hi.exit hp hallocs hnext hzombie huid hpid hexits hreaped hrest
  | reap _ _ hz _ hallocs hnext hexits hreaped hfree hrest =>
    exact hi.reap hz hallocs hnext hexits hreaped hfree hrest
  | stay hallocs hnext hexits hreaped hrest => exact hi.stay hallocs hnext hexits hreaped hrest

/-! ## The whole run -/

structure Sys.Inv (s : Sys) : Prop where
  shape : s.Shape
  links : s.Links
  waiters : s.Waiters
  ids : s.Ids

theorem Sys.Inv.step (hi : s.Inv) (hs : Step s a t) : t.Inv := by
  obtain ⟨d, hd, rfl⟩ := hs
  exact ⟨hi.shape.step hd, hi.links.step hi.shape hd, hi.waiters.step hi.shape hi.links hd,
    hi.ids.step hi.shape hd⟩

theorem inv_init : init.Inv := by
  have hpc : ∀ p, init.pc p = .user := fun _ => rfl
  have hstate : ∀ p, (init.proc p).state = .unused ∧ p ≠ initproc ∨
      (init.proc p).state = .runnable ∧ p = initproc := by
    intro p
    by_cases hp : p = initproc <;> simp [init, hp]
  have hparent : ∀ p, (init.proc p).parent = none := by
    intro p
    by_cases hp : p = initproc <;> simp [init, hp]
  have hrunnable : (init.proc initproc).state = .runnable := rfl
  have hzombie : ∀ p, (init.proc p).state ≠ .zombie := by
    intro p
    rcases hstate p with ⟨h, -⟩ | ⟨h, -⟩ <;> simp [h]
  have hasleep : ∀ p, ¬init.Asleep p := by
    rintro p ⟨-, hsl⟩
    rcases hstate p with ⟨h, -⟩ | ⟨h, -⟩ <;> simp [h] at hsl
  have hinit : ∀ p, (init.proc p).state ≠ .unused → p = initproc := fun p hp =>
    (hstate p).elim (fun h => absurd h.1 hp) fun h => h.2
  refine ⟨⟨?_, ?_, ?_, ?_, ?_⟩, ⟨?_, ?_, ?_, ?_⟩, ⟨?_, ?_, ?_, ?_⟩, ?_⟩
  · exact fun q _ => hpc q
  · simp [hpc, Pc.child]
  · simp [hpc, Pc.child]
  · simp [hpc, Pc.holds, show init.waitLock = none from rfl]
  · simp [hpc, Pc.exiting]
  · simp [hparent]
  · simp [hparent]
  · simp [Proc.Dormant, hrunnable]
  · simp [hparent]
  · exact fun p hp => absurd hp (hasleep p)
  · simp [hparent]
  · simp [hpc]
  · exact fun p q hp => absurd hp (hasleep p)
  · refine ⟨by decide, ?_, ?_, List.nodup_nil, by simp [init], by simp [init], ?_, List.nodup_nil,
      by simp [init]⟩
    · intro q hq
      rw [hinit q hq]
      decide
    · intro p q hp hq _
      rw [hinit p hp, hinit q hq]
    · exact fun q hq => absurd hq (hzombie q)

theorem inv_of_reachable (h : Reachable next init s) : s.Inv :=
  h.induction inv_init fun _ _ _ hs hn => hs.step (step_of_next hn)

def Pc.inWait : Pc → Bool
  | .waitAcquire _ | .waitScan _ _ _ | .waitKilled _ | .waitSleep _ | .waitAsleep _ => true
  | _ => false

/-- The step is the end of a call of `wait` that hands out the exit of a child of the caller. -/
def Delivers (s t : Sys) (a : Act) : Prop :=
  ∃ p q ok, a = .step p ok ∧ (s.pc p).inWait = true ∧ (s.proc q).parent = some p ∧
    (s.proc q).state = .zombie ∧ (s.proc q).toExit ∈ s.exits ∧
    t.reaped = (s.proc q).toExit :: s.reaped ∧ (t.proc q).state = .unused ∧
    t.pc p = .user ∧ t.ret p = some (s.proc q).pid

/-- Why a `wait` of `p` that ends with this step may return `-1`. -/
def WaitFailed (s t : Sys) (p : Slot) (a : Act) : Prop :=
  (∀ q, (t.proc q).parent ≠ some p) ∨ (t.proc p).killed = true ∨
    -- `copyout` failed, and the zombie is as it was
    a = .step p false ∧ ∃ addr havekids, ∃ q : Slot, s.pc p = .waitScan addr havekids q ∧
      addr ≠ 0 ∧ t.proc = s.proc ∧ (t.proc q).parent = some p ∧ (t.proc q).state = .zombie ∧
      t.waitLock = none

theorem delivers_of_step (hi : s.Inv) (hs : Step s a t) :
    t.reaped = s.reaped ∨ Delivers s t a := by
  obtain ⟨d, hd, rfl⟩ := hs
  cases census_of_does hi.shape hd with
  | alloc _ _ _ _ hreaped => exact .inl hreaped
  | exit _ _ _ _ _ _ _ hreaped => exact .inl hreaped
  | stay _ _ _ hreaped => exact .inl hreaped
  | @reap p q addr havekids ok hp hq hz hret _ _ _ hreaped hfree =>
    exact .inr ⟨p, q, ok, rfl, by rw [hp, Pc.inWait], hq, hz, (hi.ids.zombie q hz).1, hreaped, hfree,
      hret.1, hret.2⟩

theorem WaitFails.waitFailed {ok : Bool} (hi : s.Inv)
    (h : WaitFails s p ok) : WaitFailed s ({ s with waitLock := none }.sysret p none) p
      (.step p ok) := by
  cases h with
  | @childless addr i hp hlt =>
    refine .inl fun q hq => ?_
    exact absurd (hi.waiters.scan p false i (by rw [hp, Pc.scanned]) q
      (lt_of_lt_of_le q.isLt hlt) hq).1 (by simp)
  | killed hp hk => exact .inr (.inl hk)
  | @copyout addr havekids q hp hq hz ha hok =>
    exact .inr (.inr ⟨by rw [hok], addr, havekids, q, hp, ha, rfl, hq, hz, rfl⟩)

theorem Does.waitFails (h : Does s a d) (hp : (s.pc d.p).inWait = true) (hpc : d.pc = .user)
    (hret : d.ret = none) :
    ∃ ok, a = .step d.p ok ∧ WaitFails s d.p ok ∧
      s.apply d = { s with waitLock := none }.sysret d.p none := by
  cases h with
  | @waitFail p ok hr hw => exact ⟨ok, rfl, hw, by simp [Sys.apply, Sys.stay, Sys.sysret]⟩
  | move hr hp' hm => cases hm <;> cases hpc
  | giveUp hr hp' => rcases hp' with ⟨i, hp'⟩ | ⟨pid, i, hp'⟩ <;> simp_all [Sys.stay, Pc.inWait]
  | _ => simp_all [Sys.stay, Pc.inWait]

theorem waitFailed_of_step (hi : s.Inv) (hs : Step s a t)
    (hp : (s.pc p).inWait = true) (ht : t.pc p = .user) (hret : t.ret p = none) :
    WaitFailed s t p a := by
  obtain ⟨d, hd, rfl⟩ := hs
  by_cases hpd : p = d.p
  · subst hpd
    rw [s.apply_pc_self] at ht
    rw [s.apply_ret_self] at hret
    obtain ⟨ok, rfl, hw, happly⟩ := hd.waitFails hp ht hret
    exact happly ▸ hw.waitFailed hi
  · rw [s.apply_pc_of_ne hpd] at ht
    simp [ht, Pc.inWait] at hp

theorem pid_injective (hi : s.Inv) (hallocs : s.allocs < 2 ^ 31 - 1) {p q : Slot}
    (hp : (s.proc p).state ≠ .unused) (hq : (s.proc q).state ≠ .unused)
    (heq : (s.proc p).pid = (s.proc q).pid) : p = q := by
  obtain ⟨-, hp2, hp3⟩ := hi.ids.born p hp
  obtain ⟨-, hq2, hq3⟩ := hi.ids.born q hq
  have hid : ∀ n : Nat, n ≤ s.allocs → int32 n = n := by
    intro n hn
    exact Int.bmod_eq_of_le_mul_two (by omega) (by omega)
  rw [hp3, hq3, hid _ hp2, hid _ hq2] at heq
  exact hi.ids.distinct p q hp hq (by exact_mod_cast heq)

/-- **The life of a process**, in every reachable state.

* A parent is alive, so orphans have been given to `initproc`.
* No two processes exit under one allocation number and none is reaped twice.  A step that hands
  out an exit is the end of a `wait` by the zombie's parent, and frees the slot.
* `wait` returns `-1` only to a process without children, to a killed one, or because `copyout`
  failed, and then the zombie is still there.
* While `wait_lock` is free, nobody sleeps in `wait` beside a zombie child.
* Pids are distinct until they wrap. -/
theorem lifecycle (h : Reachable next init s) :
    (∀ q r, (s.proc q).parent = some r →
      (s.proc r).state ≠ .unused ∧ (s.proc r).state ≠ .zombie) ∧
    ((s.exits.map Exit.uid).Nodup ∧ (s.reaped.map Exit.uid).Nodup ∧ (∀ e ∈ s.reaped, e ∈ s.exits) ∧
      ∀ a t, next s a = some t → t.reaped = s.reaped ∨ Delivers s t a) ∧
    (∀ a t p, next s a = some t → (s.pc p).inWait = true → t.pc p = .user → t.ret p = none →
      WaitFailed s t p a) ∧
    (s.waitLock = none → ∀ p q, s.Asleep p → (s.proc q).parent = some p →
      (s.proc q).state ≠ .zombie) ∧
    (s.allocs < 2 ^ 31 - 1 → ∀ p q, (s.proc p).state ≠ .unused → (s.proc q).state ≠ .unused →
      (s.proc p).pid = (s.proc q).pid → p = q) := by
  have hi := inv_of_reachable h
  refine ⟨hi.links.live, ⟨hi.ids.exits, hi.ids.reaped, hi.ids.sub, ?_⟩, ?_, ?_, ?_⟩
  · exact fun a t hn => delivers_of_step hi (step_of_next hn)
  · exact fun a t p hn => waitFailed_of_step hi (step_of_next hn)
  · intro hlock p q hp hq hz
    obtain ⟨-, e, status, i, j, he, -⟩ := hi.waiters.owed p q hp hq hz
    exact absurd (hlock.symm.trans ((hi.shape.lock e).mp (by rw [he, Pc.holds]))) (by simp)
  · exact fun hallocs p q hp hq heq => pid_injective hi hallocs hp hq heq

/-- `initproc` forks a child, which exits with status 7 and is reaped. -/
theorem lifecycle_reaped : ∃ s, Reachable next init s ∧ s.reaped = [⟨2, 2, 7⟩] ∧
    (s.exits.map Exit.uid).Nodup ∧ (s.reaped.map Exit.uid).Nodup ∧ ∀ e ∈ s.reaped, e ∈ s.exits := by
  obtain ⟨s, hs, hreaped⟩ : ∃ s, run next init ([.schedule 0, .fork 0] ++ .replicate 4 (.step 0 true) ++
      [.schedule 1, .exit 1 7] ++ .replicate 131 (.step 1 true) ++ [.wait 0 0] ++
      .replicate 3 (.step 0 true)) = some s ∧ s.reaped = [⟨2, 2, 7⟩] := by decide +kernel
  obtain ⟨-, ⟨hexits, hnodup, hsub, -⟩, -⟩ := lifecycle ⟨_, hs⟩
  exact ⟨s, ⟨_, hs⟩, hreaped, hexits, hnodup, hsub⟩

end Table

end Xv6
