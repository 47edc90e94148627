import Xv6.Files.Refs

/-!
# The table of inodes can be full

`iget` panics if the table has no place left, and nothing keeps the table from filling up: there are
`NINODE = 50` places, but `NPROC = 64` current directories and `NFILE = 100` open files.  A call needs
up to three places of its own, so that three free places before it are enough, and two are not.
-/

namespace Xv6.Files

open Prog Fs

def stopped (L : Layout) (s : State) (a : Act) : Option Stop :=
  match s.cwd a.p with
  | none => none
  | some cwd =>
    if s.alive a.p = true ∧ a.call.Enabled s then
      match a.call.run L a.p cwd s with
      | .ok _ _ => none
      | .error e _ => some e
    else none

theorem Good.not_full {L : Layout} {s : State} {a : Act} (h : Good s)
    (hroom : s.vol.inuse + 3 ≤ ninode) : stopped L s a ≠ some (.panic .igetNoInodes) := by
  intro hstop
  rw [stopped] at hstop
  split at hstop
  · cases hstop
  · rename_i c hc
    split at hstop
    · rename_i hen
      have hcall := h.wp_call (L := L) hc hen.1 hen.2
      unfold wp at hcall
      split at hstop
      · cases hstop
      · rename_i e t hrun
        rw [hrun] at hcall
        have hfull : ninode ≤ s.vol.inuse + 2 := hcall (Option.some.inj hstop)
        omega
    · cases hstop

/-! ## Runs that fill the table -/

/-- Each process is forked by the one before it and moves to the next directory. -/
def descend : Nat → List Act
  | 0 => []
  | n + 1 => descend n ++ [⟨n, .fork (some (n + 1)) true⟩, ⟨n + 1, .chdir (some ['a'])⟩]

/-- Two free places are not enough: `link` has the file, the directory and the inode that already has
the new name. -/
theorem link_full : ∃ s, Machine.run (next mkfsLayout) (State.boot nested) (descend 47) = some s ∧
    s.vol.inuse = 48 ∧
    stopped mkfsLayout s ⟨47, .link (some ['a', '/', 'f']) (some ['a', '/', 'a'])⟩ =
      some (.panic .igetNoInodes) := by
  decide +kernel

/-- **The table of inodes is never full in a call exactly if three places are free before it.** -/
theorem no_inodes_iff (n : Nat) :
    (∀ (L : Layout) (disk : Nat → Block) (as : List Act) (s : State) (a : Act),
      Machine.run (next L) (State.boot disk) as = some s → s.vol.inuse ≤ n →
        stopped L s a ≠ some (.panic .igetNoInodes)) ↔ n + 3 ≤ ninode := by
  refine ⟨fun h => ?_, fun hn L disk as s a hrun hs => (good_of_run hrun).not_full (by omega)⟩
  by_contra hn
  obtain ⟨s, hrun, hs, hstop⟩ := link_full
  have hle : s.vol.inuse ≤ n := by
    rw [hs]
    simp only [ninode] at hn
    omega
  exact h _ _ _ s _ hrun hle hstop

/-- 51 processes, each in its own directory, and no open files: the last one gets no inode. -/
theorem chdir_full : ∃ s,
    Machine.run (next mkfsLayout) (State.boot nested)
      (descend 49 ++ [⟨49, .fork (some 50) true⟩]) = some s ∧
    stopped mkfsLayout s ⟨50, .chdir (some ['a'])⟩ = some (.panic .igetNoInodes) := by
  decide +kernel

end Xv6.Files
