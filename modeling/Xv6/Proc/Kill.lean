import Xv6.Proc.Table
import Mathlib.Data.List.FinRange
import Mathlib.Data.List.Induction

/-!
# Killing by pid

`kill` looks for a pid in all slots of the table, whatever their state, and `allocproc` relies on
`freeproc` having cleared the fields of a free slot.  The pid of a free slot is zero, so the two
agree as long as nobody calls `kill(0)` (`not_bornUnkilled`).
-/

namespace Xv6

open Function (update update_of_ne update_self)
open Option (ite_none_right_eq_some some_inj)

namespace Table

open Sys Machine

/-! ## `kill` as a function of the table -/

def Proc.kill (x : Proc) : Proc :=
  { x with killed := true, state := if x.state = .sleeping then .runnable else x.state }

def findPid (proc : Slot → Proc) (pid : Int) : Option Slot :=
  (List.finRange nproc).find? fun q => (proc q).pid = pid

/-- `kill`, with nothing else happening in between: the table afterwards and the result, `none` for
`-1`. -/
def kill (proc : Slot → Proc) (pid : Int) : (Slot → Proc) × Option Int :=
  match findPid proc pid with
  | some q => (update proc q (proc q).kill, some 0)
  | none => (proc, none)

/-- `kill(pid)` returns 0 iff a process has the pid, and changes nothing but that process. -/
structure KillsLive (proc : Slot → Proc) (pid : Int) : Prop where
  ret : (kill proc pid).2 = some 0 ↔ ∃ q, (proc q).state ≠ .unused ∧ (proc q).pid = pid
  changes : (kill proc pid).2 = some 0 → ∃ q, (proc q).state ≠ .unused ∧ (proc q).pid = pid ∧
    (kill proc pid).1 = update proc q (proc q).kill
  fails : (kill proc pid).2 ≠ some 0 → (kill proc pid).2 = none ∧ (kill proc pid).1 = proc

section Kill

variable {proc : Slot → Proc} {pid : Int} {q : Slot}

theorem kill_of_some (h : findPid proc pid = some q) :
    kill proc pid = (update proc q (proc q).kill, some 0) := by rw [kill, h]

theorem kill_of_none (h : findPid proc pid = none) : kill proc pid = (proc, none) := by rw [kill, h]

theorem pid_of_findPid (h : findPid proc pid = some q) : (proc q).pid = pid := by
  simpa using List.find?_some h

theorem pid_ne_of_findPid (h : findPid proc pid = none) (q : Slot) : (proc q).pid ≠ pid := by
  simpa using List.find?_eq_none.mp h q (List.mem_finRange q)

theorem killsLive_of_findPid (h : ∀ q, findPid proc pid = some q → (proc q).state ≠ .unused) :
    KillsLive proc pid := by
  cases hf : findPid proc pid with
  | some q =>
    have hq := pid_of_findPid hf
    refine ⟨?_, fun _ => ⟨q, h q hf, hq, ?_⟩, fun hne => ?_⟩
    · rw [kill_of_some hf]
      exact iff_of_true rfl ⟨q, h q hf, hq⟩
    · rw [kill_of_some hf]
    · rw [kill_of_some hf] at hne
      exact absurd rfl hne
  | none =>
    have hne := pid_ne_of_findPid hf
    refine ⟨?_, fun hret => ?_, fun _ => ?_⟩
    · rw [kill_of_none hf]
      exact iff_of_false (by simp) fun ⟨q, _, hq⟩ => hne q hq
    · rw [kill_of_none hf] at hret
      exact absurd hret (by simp)
    · rw [kill_of_none hf]
      exact ⟨rfl, rfl⟩

theorem not_killsLive (h : findPid proc pid = some q) (hq : (proc q).state = .unused)
    (hk : (proc q).killed = false) : ¬KillsLive proc pid := by
  intro hl
  have hkill := kill_of_some h
  obtain ⟨r, hr, -, heq⟩ := hl.changes (by rw [hkill])
  have hqr : q ≠ r := fun hqr => hr (hqr ▸ hq)
  rw [hkill] at heq
  have hkilled : (proc q).kill = proc q :=
    (update_self ..).symm.trans ((congrFun heq q).trans (update_of_ne hqr ..))
  exact absurd (congrArg Proc.killed hkilled) (by simp [Proc.kill, hk])

end Kill

/-! ## Free slots -/

/-- Free slots have been cleared, and nobody looks for pid 0. -/
structure Sys.Clean (s : Sys) : Prop where
  free : ∀ q, (s.proc q).state = .unused → (s.proc q).pid = 0 ∧ (s.proc q).killed = false
  scan : ∀ p pid i, s.pc p = .killScan pid i → pid ≠ 0

section Clean

variable {s t : Sys} {a : Act} {d : Delta} {p q : Slot} {pid : Int} {i : Nat}

theorem state_of_rouse {x : Proc} {c : Option Chan} (h : (x.rouse c).state = .unused) :
    x.state = .unused := by
  rw [Proc.rouse] at h
  dsimp only at h
  split at h
  · exact absurd h (by simp)
  · exact h

theorem state_of_kill {x : Proc} (h : x.kill.state = .unused) : x.state = .unused := by
  rw [Proc.kill] at h
  dsimp only at h
  split at h
  · exact absurd h (by simp)
  · exact h

theorem Does.free (h : s.Clean) (hd : Does s a d) (hx : d.x.state = .unused) :
    d.x.pid = 0 ∧ d.x.killed = false := by
  cases hd with
  | forkFail | waitReap => exact ⟨rfl, rfl⟩
  | @kill p q pid ok hr hp hq =>
    exact absurd (hq.symm.trans (h.free q (state_of_kill hx)).1) (h.scan p pid q hp)
  | wakeInit | wakeParent | wakeOther => exact h.free _ (state_of_rouse hx)
  | forkParent hr hp hl => exact h.free _ hx
  | reparent hr hp hq => exact h.free _ hx
  | _ => first | exact h.free _ hx | exact absurd hx (by simp)

/-- The state after a step is one in which the process has gone to `pc`. -/
def Goes (s : Sys) (q : Slot) (pc : Pc) (t : Sys) : Prop := t.pc = update s.pc q pc

theorem goes_of_step {ok : Bool} (h : s.step q ok = some t) :
    ∃ pc, Goes s q pc t ∧ ∀ pid i, pc = .killScan pid i → ∃ j, s.pc q = .killScan pid j := by
  have hgoes : ∀ {pc : Pc} {t' : Sys}, some t' = some t → Goes s q pc t' →
      (∀ pid i, pc ≠ .killScan pid i) →
      ∃ pc, Goes s q pc t ∧ ∀ pid i, pc = .killScan pid i → ∃ j, s.pc q = .killScan pid j :=
    fun ht hg hne => ⟨_, some_inj.mp ht ▸ hg, fun pid i heq => absurd heq (hne pid i)⟩
  have hscan : ∀ {pid : Int} {n : Nat} {t' : Sys}, s.pc q = .killScan pid n → some t' = some t →
      Goes s q (.killScan pid (n + 1)) t' →
      ∃ pc, Goes s q pc t ∧ ∀ pid i, pc = .killScan pid i → ∃ j, s.pc q = .killScan pid j :=
    fun hq ht hg => ⟨_, some_inj.mp ht ▸ hg, fun pid i heq =>
      ⟨_, (Pc.killScan.inj heq).1 ▸ hq⟩⟩
  unfold Sys.step Sys.forkAlloc Sys.waitReap at h
  dsimp only at h
  repeat' split at h
  all_goals first
    | exact hscan ‹_› h rfl
    | exact hgoes h rfl (by simp)
    | exact absurd h (by simp)

theorem killScan_of_next (h : next s a = some t) (ht : t.pc p = .killScan pid i) :
    (∃ j, s.pc p = .killScan pid j) ∨ a = .kill p pid := by
  have hgoes : ∀ {q : Slot} {pc : Pc}, Goes s q pc t →
      (p = q → pc = .killScan pid i → (∃ j, s.pc p = .killScan pid j) ∨ a = .kill p pid) →
      (∃ j, s.pc p = .killScan pid j) ∨ a = .kill p pid := by
    intro q pc hg hq
    rw [hg] at ht
    by_cases hp : p = q
    · subst hp
      rw [update_self] at ht
      exact hq rfl ht
    · rw [update_of_ne hp] at ht
      exact .inl ⟨i, ht⟩
  have hsame : t.pc = s.pc → (∃ j, s.pc p = .killScan pid j) ∨ a = .kill p pid :=
    fun hpc => .inl ⟨i, hpc ▸ ht⟩
  have hother : ∀ {q : Slot} {pc : Pc} {t' : Sys}, some t' = some t → Goes s q pc t' →
      pc ≠ .killScan pid i → (∃ j, s.pc p = .killScan pid j) ∨ a = .kill p pid :=
    fun ht hg hne => hgoes (some_inj.mp ht ▸ hg) fun _ heq => absurd heq hne
  unfold next at h
  rw [Option.ite_none_left_eq_some] at h
  replace h := h.2
  cases a with
  | step q ok =>
    obtain ⟨pc, hg, hpc⟩ := goes_of_step (ite_none_right_eq_some.mp h).2
    exact hgoes hg fun hp heq => .inl (hp ▸ hpc pid i heq)
  | kill q pid' =>
    have hg : Goes s q (.killScan pid' 0) t :=
      some_inj.mp (ite_none_right_eq_some.mp h).2 ▸ rfl
    refine hgoes hg fun hp heq => ?_
    rw [hp, (Pc.killScan.inj heq).1]
    exact .inr rfl
  | fork q => exact hother (ite_none_right_eq_some.mp h).2 rfl (by simp)
  | exit q status =>
    replace h := (ite_none_right_eq_some.mp h).2
    split at h
    · exact hsame (some_inj.mp h ▸ rfl)
    · exact hother h rfl (by simp)
  | wait q addr => exact hother (ite_none_right_eq_some.mp h).2 rfl (by simp)
  | yield q => exact hsame (some_inj.mp (ite_none_right_eq_some.mp h).2 ▸ rfl)
  | schedule q =>
    replace h := (ite_none_right_eq_some.mp h).2
    rw [Sys.resume] at h
    split at h
    · exact hother h rfl (by simp)
    · exact hother h rfl (by simp)
    · exact hsame (some_inj.mp h ▸ rfl)
  | block q n => exact hother (ite_none_right_eq_some.mp h).2 rfl (by simp)
  | wakeOther q n => exact hsame (some_inj.mp h ▸ rfl)

theorem Sys.Clean.next (h : s.Clean) (hn : next s a = some t) (ha : ∀ p, a ≠ .kill p 0) :
    t.Clean where
  free q hq := by
    obtain ⟨d, hd, rfl⟩ := step_of_next hn
    by_cases hqd : q = d.q
    · subst hqd
      rw [s.apply_proc_self] at hq ⊢
      exact hd.free h hq
    · rw [s.apply_proc_of_ne hqd] at hq ⊢
      exact h.free q hq
  scan p pid i hp := by
    rcases killScan_of_next hn hp with ⟨j, hj⟩ | rfl
    · exact h.scan p pid j hj
    · rintro rfl
      exact ha p rfl

theorem clean_init : Sys.init.Clean where
  free q hq := by
    rw [Sys.init] at hq ⊢
    dsimp only at hq ⊢
    split at hq
    · exact absurd hq (by simp)
    · rename_i hne
      rw [if_neg hne]
      exact ⟨rfl, rfl⟩
  scan p pid i hp := absurd hp (by simp [Sys.init])

theorem clean_of_run {as : List Act} (hrun : run Table.next init as = some s)
    (has : ∀ p, .kill p 0 ∉ as) : s.Clean :=
  run_induction_of_forall_mem hrun (P := fun a => ∀ p, a ≠ .kill p 0)
    (fun _ ha p heq => has p (heq ▸ ha)) clean_init fun _ _ _ hs ha hn => hs.next hn ha

end Clean

/-! ## Who has been killed -/

/-- In the run, a call of `kill` with this pid finds the process that was made by the allocation
`uid`. -/
def KilledIn (as : List Act) (uid : Nat) (pid : Int) : Prop :=
  ∃ (as₁ : List Act) (p : Slot) (ok : Bool) (as₂ : List Act) (s : Sys) (q : Slot),
    as = as₁ ++ .step p ok :: as₂ ∧ run next init as₁ = some s ∧ s.pc p = .killScan pid q ∧
      (s.proc q).state ≠ .unused ∧ (s.proc q).pid = pid ∧ (s.proc q).uid = uid

section Killed

variable {s t : Sys} {a : Act} {d : Delta} {as : List Act}

theorem KilledIn.append {uid : Nat} {pid : Int} (h : KilledIn as uid pid) (bs : List Act) :
    KilledIn (as ++ bs) uid pid := by
  obtain ⟨as₁, p, ok, as₂, s, q, rfl, hrest⟩ := h
  exact ⟨as₁, p, ok, as₂ ++ bs, s, q, by simp, hrest⟩

theorem Does.killed (h : s.Clean) (hd : Does s a d) (hx : d.x.killed = true)
    (hu : d.x.state ≠ .unused) :
    (s.proc d.q).state ≠ .unused ∧ d.x.uid = (s.proc d.q).uid ∧ d.x.pid = (s.proc d.q).pid ∧
      ((s.proc d.q).killed = true ∨
        ∃ ok, a = .step d.p ok ∧ s.pc d.p = .killScan (s.proc d.q).pid d.q) := by
  -- the slot of a killed process is not free
  have hsame : (s.proc d.q).killed = true → (s.proc d.q).state ≠ .unused := fun hk hfree =>
    absurd ((h.free d.q hfree).2.symm.trans hk) (by simp)
  cases hd with
  | @kill p q pid ok hr hp hq =>
    refine ⟨fun hfree => hu ?_, rfl, rfl, .inr ⟨ok, rfl, hq ▸ hp⟩⟩
    have hsl : (s.proc q).state ≠ .sleeping := fun h => absurd (hfree.symm.trans h) (by simp)
    exact (if_neg hsl).trans hfree
  | @forkAlloc p q ok hr hp hq => exact absurd ((h.free q hq).2.symm.trans hx) (by simp)
  | forkFail | waitReap => exact absurd rfl hu
  | _ => exact ⟨hsame hx, rfl, rfl, .inl hx⟩

/-- **A killed process has been killed by a call with its pid**, in every run without `kill(0)`. -/
theorem killedIn_of_run (hrun : run next init as = some s) (has : ∀ p, .kill p 0 ∉ as) :
    ∀ q, (s.proc q).state ≠ .unused → (s.proc q).killed = true →
      KilledIn as (s.proc q).uid (s.proc q).pid := by
  -- by induction on the run, with the last step taken off
  induction as using List.reverseRecOn generalizing s with
  | nil =>
    intro q hq hk
    rw [← some_inj.mp hrun, init] at hk
    dsimp only at hk
    split at hk <;> exact absurd hk (by simp)
  | append_singleton as a ih =>
    obtain ⟨m, hm, hrun'⟩ := run_append_eq_some.mp hrun
    obtain ⟨t, hn, ht⟩ := run_cons_eq_some.mp hrun'
    cases ht
    have hclean : m.Clean := clean_of_run hm fun p hp => has p (by simp [hp])
    obtain ⟨d, hd, rfl⟩ := step_of_next hn
    intro q hq hk
    by_cases hqd : q = d.q
    · subst hqd
      rw [m.apply_proc_self] at hq hk ⊢
      obtain ⟨hold, huid, hpid, hcase⟩ := hd.killed hclean hk hq
      rw [huid, hpid]
      rcases hcase with hk' | ⟨ok, rfl, hscan⟩
      · exact (ih hm (fun p hp => has p (by simp [hp])) d.q hold hk').append [a]
      · exact ⟨as, d.p, ok, [], m, d.q, rfl, hm, hscan, hold, rfl, rfl⟩
    · rw [m.apply_proc_of_ne hqd] at hq hk ⊢
      exact (ih hm (fun p hp => has p (by simp [hp])) q hq hk).append [a]

/-- **`kill` only touches live processes, and processes are born unkilled**, in every run in which
nobody calls `kill(0)`: a call is as it should be for exactly those pids for which the first slot
found is not free, and a process that is marked as killed has been killed by a call with its pid. -/
theorem kill_only_live (hrun : run next init as = some s) (has : ∀ p, .kill p 0 ∉ as) :
    (∀ pid, KillsLive s.proc pid ↔
      (pid = 0 → ∀ q, findPid s.proc 0 = some q → (s.proc q).state ≠ .unused)) ∧
    ∀ q, (s.proc q).state ≠ .unused → (s.proc q).killed = true →
      KilledIn as (s.proc q).uid (s.proc q).pid := by
  have hclean := clean_of_run hrun has
  refine ⟨fun pid => ⟨fun hl h0 q hq hu => ?_, fun h => killsLive_of_findPid fun q hq hu => ?_⟩,
    killedIn_of_run hrun has⟩
  · subst h0
    exact not_killsLive hq hu (hclean.free q hu).2 hl
  · have h0 : pid = 0 := (pid_of_findPid hq).symm.trans (hclean.free q hu).1
    subst h0
    exact h rfl q hq hu

/-- `initproc` makes a child and kills it before it has run. -/
def killChild : List Act :=
  [.schedule 0, .fork 0] ++ .replicate 4 (.step 0 true) ++
    [.kill 0 2] ++ .replicate 2 (.step 0 true)

theorem kill_only_live_killChild : ∃ s, run next init killChild = some s ∧
    (s.proc 1).killed = true ∧ KillsLive s.proc 2 ∧
      KilledIn killChild (s.proc 1).uid (s.proc 1).pid := by
  obtain ⟨s, hs, hk, hu⟩ : ∃ s, run next init killChild = some s ∧
      (s.proc 1).killed = true ∧ (s.proc 1).state ≠ .unused := by decide +kernel
  obtain ⟨hlive, hin⟩ := kill_only_live hs (by decide)
  exact ⟨s, hs, hk, (hlive 2).mpr (by simp), hin 1 hu hk⟩

/-- `initproc` calls `kill(0)`, and then makes a child. -/
def killFree : List Act :=
  [.schedule 0, .kill 0 0] ++ .replicate 2 (.step 0 true) ++
    [.fork 0] ++ .replicate 4 (.step 0 true)

/-- The pid that a process is looking for in `kill`. -/
def Pc.victim : Pc → Option Int
  | .killScan pid _ => some pid
  | _ => none

theorem victim_killFree : ∀ n ≤ killFree.length, (run next init (killFree.take n)).all fun m =>
    ∀ p, (m.pc p).victim ≠ some 2 := by decide +kernel

/-- `kill(0)` marks a free slot and returns 0, and the child made in that slot is born killed
although no call of `kill` was given its pid. -/
theorem not_bornUnkilled : ¬∀ (as : List Act) (s : Sys), run next init as = some s →
    (∀ pid, KillsLive s.proc pid) ∧ ∀ q, (s.proc q).state ≠ .unused → (s.proc q).killed = true →
      KilledIn as (s.proc q).uid (s.proc q).pid := by
  intro h
  obtain ⟨s, hs, hk, hu, hpid⟩ : ∃ s, run next init killFree = some s ∧
      (s.proc 1).killed = true ∧ (s.proc 1).state ≠ .unused ∧ (s.proc 1).pid = 2 := by
    decide +kernel
  obtain ⟨as₁, p, ok, as₂, m, q, heq, hm, hscan, -⟩ := (h killFree s hs).2 1 hu hk
  have htake : killFree.take as₁.length = as₁ := by rw [heq, List.take_left]
  have hlen : as₁.length ≤ killFree.length := by rw [heq, List.length_append]; omega
  have hall := victim_killFree _ hlen
  rw [htake, hm] at hall
  exact of_decide_eq_true hall p (by rw [hscan, hpid]; rfl)

end Killed

end Table

end Xv6
