import Xv6.Lib.Machine
import Mathlib.Algebra.Group.Int.Defs
import Mathlib.Algebra.Group.Nat.Defs

/-!
# `sys_sleep`

`sys_sleep(n)` of `kernel/sysproc.c` notes `ticks` and sleeps on `&ticks` until `ticks - ticks0 < n` is
false.  `clockintr` of `kernel/trap.c` counts a tick and wakes the sleepers.  Both hold `tickslock`, so
each look at the condition is a step.  A process that has been woken runs when the scheduler likes, and
it can be woken at any time.  In the condition `ticks` is unsigned, so `n` is converted, and
`ticks - ticks0` is the number of ticks modulo 2³².
-/

namespace Xv6.Ticks

open Machine

inductive Pc where
  | asleep
  | woken
  | returned
  deriving DecidableEq, Repr

/-- The clock, and a process in `sys_sleep(n)`. -/
structure Sys where
  ticks : UInt32
  ticks0 : UInt32
  n : Int
  pc : Pc
  elapsed : Nat
  deriving DecidableEq, Repr

inductive Act where
  | tick
  | wake
  | look
  deriving DecidableEq, Repr

namespace Sys

/-- The condition of the loop, and `sleep` or `return 0`. -/
def look (s : Sys) : Sys :=
  if s.ticks - s.ticks0 < UInt32.ofInt s.n then { s with pc := .asleep } else { s with pc := .returned }

/-- `sys_sleep(n)` up to the first look. -/
def call (ticks : UInt32) (n : Int) : Sys := look ⟨ticks, ticks, n, .woken, 0⟩

def wakeup (s : Sys) : Sys := if s.pc = .asleep then { s with pc := .woken } else s

end Sys

def next (s : Sys) : Act → Option Sys
  | .tick => some { s.wakeup with ticks := s.ticks + 1, elapsed := s.elapsed + 1 }
  | .wake => some s.wakeup
  | .look => if s.pc = .woken then some s.look else none

/-- A look: how many ticks have elapsed, and whether the call returns. -/
def label (s : Sys) : Act → Sys → Option (Nat × Bool)
  | .look, t => some (s.elapsed, t.pc = .returned)
  | _, _ => none

/-- The call returns at the first look at which `max(n, 0)` ticks have elapsed, and does not sleep
if there is nothing to wait for. -/
def Exact (ticks : UInt32) (n : Int) (as : List Act) : Prop :=
  ((Sys.call ticks n).pc = .returned ↔ n ≤ 0) ∧
    ∀ x ∈ trace next label (Sys.call ticks n) as, x.2 = true ↔ max n 0 ≤ x.1

section Proofs

variable {s t : Sys} {n : Int}

theorem look_returned (hs : s.ticks = s.ticks0 + .ofNat s.elapsed) :
    s.look.pc = .returned ↔ s.n % 2 ^ 32 ≤ (s.elapsed % 2 ^ 32 : Nat) := by
  have hdiff : s.ticks - s.ticks0 = .ofNat s.elapsed := by
    rw [hs]
    grind
  have hlt : s.ticks - s.ticks0 < UInt32.ofInt s.n ↔ (s.elapsed % 2 ^ 32 : Nat) < s.n % 2 ^ 32 := by
    have hn : (UInt32.ofInt s.n).toNat = (s.n % 2 ^ 32).toNat := by
      rw [UInt32.ofInt, UInt32.toNat_ofNat']
      omega
    rw [hdiff, UInt32.lt_iff_toNat_lt, UInt32.toNat_ofNat', hn]
    omega
  rw [Sys.look]
  split
  · rename_i h
    exact iff_of_false (by simp) (Int.not_le.mpr (hlt.mp h))
  · rename_i h
    exact iff_of_true rfl (Int.not_lt.mp fun hlt' => h (hlt.mpr hlt'))

theorem next_ticks {a : Act} (hs : s.ticks = s.ticks0 + .ofNat s.elapsed) (h : next s a = some t) :
    t.ticks = t.ticks0 + .ofNat t.elapsed ∧ t.n = s.n := by
  cases a with
  | tick =>
    cases h
    have hsucc : UInt32.ofNat (s.elapsed + 1) = .ofNat s.elapsed + 1 := UInt32.ofNat_add ..
    rw [Sys.wakeup]
    split <;> exact ⟨by dsimp only; rw [hs, hsucc, UInt32.add_assoc], rfl⟩
  | wake =>
    cases h
    rw [Sys.wakeup]
    split <;> exact ⟨hs, rfl⟩
  | look =>
    rw [next, Option.ite_none_right_eq_some, Option.some_inj] at h
    obtain ⟨-, rfl⟩ := h
    rw [Sys.look]
    split <;> exact ⟨hs, rfl⟩

theorem trace_looks (as : List Act) (hs : s.ticks = s.ticks0 + .ofNat s.elapsed) :
    ∀ x ∈ trace next label s as, x.2 = true ↔ s.n % 2 ^ 32 ≤ (x.1 % 2 ^ 32 : Nat) := by
  induction as generalizing s with
  | nil => exact fun x hx => absurd hx (by simp [trace])
  | cons a as ih =>
    intro x hx
    rw [trace] at hx
    cases hnext : next s a with
    | none => simp [hnext] at hx
    | some t =>
      obtain ⟨ht, hn⟩ := next_ticks hs hnext
      simp only [hnext, List.mem_append, Option.mem_toList] at hx
      rcases hx with hx | hx
      · cases a with
        | tick | wake => cases hx
        | look =>
          cases hx
          rw [next, Option.ite_none_right_eq_some, Option.some_inj] at hnext
          obtain ⟨-, rfl⟩ := hnext
          simpa using look_returned hs
      · rw [← hn]
        exact ih ht x hx

theorem call_ticks (ticks : UInt32) (n : Int) :
    (Sys.call ticks n).ticks = (Sys.call ticks n).ticks0 + .ofNat (Sys.call ticks n).elapsed ∧
      (Sys.call ticks n).n = n := by
  rw [Sys.call, Sys.look]
  split <;> exact ⟨(UInt32.add_zero ticks).symm, rfl⟩

/-- **`sys_sleep(n)` waits for `n` ticks**, exactly if `n` is not negative, and whenever the process
looks after `n` ticks, the ticks modulo 2³² are at least `n` too. -/
theorem sysSleep_exact_iff (ticks : UInt32) (hn : -2 ^ 31 ≤ n ∧ n < 2 ^ 31) (as : List Act) :
    Exact ticks n as ↔ 0 ≤ n ∧
      ∀ x ∈ trace next label (Sys.call ticks n) as, n ≤ x.1 → n ≤ (x.1 % 2 ^ 32 : Nat) := by
  obtain ⟨hticks, hcall⟩ := call_ticks ticks n
  have hlooks := trace_looks as hticks
  rw [hcall] at hlooks
  have hfirst : (Sys.call ticks n).pc = .returned ↔ n % 2 ^ 32 ≤ 0 :=
    look_returned (s := ⟨ticks, ticks, n, .woken, 0⟩) (UInt32.add_zero ticks).symm
  rw [Exact, hfirst]
  by_cases hneg : 0 ≤ n
  · have hmod : n % 2 ^ 32 = n := Int.emod_eq_of_lt hneg (by omega)
    rw [hmod] at hlooks ⊢
    refine ⟨fun h => ⟨hneg, fun x hx hle => ?_⟩, fun h => ⟨Iff.rfl, fun x hx => ?_⟩⟩
    · exact (hlooks x hx).mp ((h.2 x hx).mpr (by omega))
    · rw [hlooks x hx]
      exact ⟨fun hle => by omega, fun hle => h.2 x hx (by omega)⟩
  · refine iff_of_false (fun h => ?_) fun h => hneg h.1
    have := h.1.mpr (by omega)
    omega

/-- Two ticks, with a look after each of them. -/
theorem sysSleep_exact_iff_two : Exact 4294967295 2 [.tick, .look, .tick, .look] :=
  (sysSleep_exact_iff 4294967295 (by decide) _).mpr ⟨by decide, by decide⟩

/-- **`sys_sleep(-1)` goes to sleep.** -/
theorem sysSleep_negative : ¬Exact 0 (-1) [] := by
  refine fun h => absurd (h.1.mpr (by decide)) ?_
  decide

end Proofs

end Xv6.Ticks
