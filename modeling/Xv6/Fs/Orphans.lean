import Xv6.Fs.LinkCount

/-!
# What a crash leaves behind

An inode that is removed while a process uses it keeps its type and its blocks until the last
reference goes, in a later transaction than the one that removed its name.  After a crash there are
no references, and `fsinit` only replays the log: it does not look for such inodes.

`nextEvent` is the machine of `Xv6.Fs.next` with crashes.  A transaction is on the disk as a whole or
not at all (`Xv6.Log.Crash`), and every call is one transaction, except `exit`, which is one for
every open file and one for the current directory; so the machine can go down between two calls
(`Event.crash`) or in the middle of `exit` (`Event.crashExit`).
-/

namespace Xv6.Fs

open Prog

inductive Event where
  | call (a : Act)
  | crash
  /-- The machine goes down when process `p`, in `exit`, has closed `n` of its descriptors, and is
  booted. -/
  | crashExit (p n : Nat)
  deriving DecidableEq, Repr

/-- The state in which the machine goes down. -/
def down (s : Sys) : Event → Option Sys
  | .call _ => none
  | .crash => if s.stop = none then some s else none
  | .crashExit p n =>
    if s.stop = none ∧ s.alive p = true ∧ p ≠ 0 ∧ n ≤ nofile then
      match times (closeFd p) n s with
      | .ok _ t => some t
      | .error _ _ => none
    else none

def nextEvent (s : Sys) : Event → Option Sys
  | .call a => next s a
  | .crash => (down s .crash).map fun u => .boot u.tree.inode
  | .crashExit p n => (down s (.crashExit p n)).map fun u => .boot u.tree.inode

def OrphanFree (m : Nat → Inode) : Prop := ∀ i, (m i).type ≠ .none →
  0 < (m i).nlink ∧ ∃ d, (m d).type = .dir ∧ ∃ e ∈ (m d).ents, e.inum = i ∧ e.Counted (m d)

/-- Every inode that a process has open or as its current directory has a link. -/
def NoneRemoved (s : Sys) : Prop := ∀ i, InUse s i → (s.tree.inode i).nlink ≠ 0

/-- The calls are made with care, and the machine only goes down when no inode has been removed that
is still in use. -/
def CarefulEvent (s : Sys) : Event → Prop
  | .call a => Careful true false s a
  | .crash => ∀ u ∈ down s .crash, NoneRemoved u
  | .crashExit p n => ∀ u ∈ down s (.crashExit p n), NoneRemoved u

section Crash

variable {strict tight : Bool} {s t u : Sys} {e : Event} {names : List Name}

theorem Inv.sound_down (h : Inv strict tight s) (hu : down s e = some u) :
    Sound strict tight u := by
  cases e with
  | call a => exact absurd hu (by simp [down])
  | crash =>
    obtain ⟨-, rfl⟩ := Option.ite_some_none_eq_some.mp hu
    exact h.sound
  | crashExit p n =>
    obtain ⟨⟨-, hp, -⟩, hu⟩ := Option.ite_none_right_eq_some.mp hu
    have hclose : wp (times (closeFd p) n) (fun _ => Sound strict tight) (sysStops tight) s :=
      wp_times (fun _ => Sound strict tight) h.sound fun _ _ _ hs =>
        wp_closeFd hs fun _ hs' _ _ _ => hs'
    rw [wp] at hclose
    split at hu
    · rename_i t ht
      rw [ht] at hclose
      exact Option.some_inj.mp hu ▸ hclose
    · exact absurd hu (by simp)

theorem stop_of_down (hu : down s e = some u) : s.stop = none := by
  cases e with
  | call a => exact absurd hu (by simp [down])
  | crash => exact (Option.ite_none_right_eq_some.mp hu).1
  | crashExit p n => exact (Option.ite_none_right_eq_some.mp hu).1.1

/-- An inode without links is only kept by a process. -/
theorem Sound.noneRemoved_iff (h : Sound strict tight u) : NoneRemoved u ↔
    ∀ i < ninodes, (u.tree.inode i).type ≠ .none → (u.tree.inode i).nlink ≠ 0 := by
  refine ⟨fun hnone i _ hi hn => hnone i (h.inUse hi hn) hn, fun hall i hi => ?_⟩
  have htype := h.type_of_inUse hi
  obtain ⟨_, _, _, hg⟩ := h
  exact hall i (hg.links.bound i htype).2 htype

theorem Sound.nlink_ne_zero (h : Sound strict tight u) (hnone : NoneRemoved u) (i : Nat)
    (hi : (u.tree.inode i).type ≠ .none) : (u.tree.inode i).nlink ≠ 0 :=
  fun hn => hnone i (h.inUse hi hn) hn

theorem Sound.orphanFree_iff (h : Sound true tight u) :
    OrphanFree u.tree.inode ↔ NoneRemoved u := by
  constructor
  · intro ho i hi
    exact Int.ne_of_gt (ho i (h.type_of_inUse hi)).1
  · intro hnone i hi
    have hn := h.nlink_ne_zero hnone i hi
    obtain ⟨_, _, _, hg⟩ := h
    have hnonneg := hg.links.nlink_nonneg i
    exact ⟨by omega, hg.links.exists_name hi hn⟩

theorem down_of_nextEvent (hn : nextEvent s e = some t) (he : ∀ a, e ≠ .call a) :
    ∃ u, down s e = some u ∧ t = .boot u.tree.inode ∧ (CarefulEvent s e → NoneRemoved u) := by
  cases e with
  | call a => exact absurd rfl (he a)
  | crash | crashExit =>
    obtain ⟨u, hu, rfl⟩ := Option.map_eq_some_iff.mp hn
    exact ⟨u, hu, rfl, fun hc => hc u hu⟩

theorem Along.nextEvent (h : Along true false s) (hc : CarefulEvent s e)
    (hn : nextEvent s e = some t) : Along true false t := by
  by_cases he : ∃ a, e = .call a
  · obtain ⟨a, rfl⟩ := he
    exact h.next hc hn
  · obtain ⟨u, hu, rfl, hnone⟩ := down_of_nextEvent hn fun a ha => he ⟨a, ha⟩
    have hsound := (h.inv (stop_of_down hu)).sound_down hu
    have hne := hsound.nlink_ne_zero (hnone hc)
    obtain ⟨_, _, _, hg⟩ := hsound
    exact .inl (inv_boot hg.links hne)

theorem along_of_events {es : List Event} (hnames : MkfsOk names)
    (hrun : Machine.run nextEvent (Sys.init names) es = some s)
    (hC : Machine.Along nextEvent CarefulEvent (Sys.init names) es) : Along true false s :=
  Machine.run_induction hrun hC (.inl (inv_init true false hnames))
    fun _ _ _ hs hc ht => hs.nextEvent hc ht

/-- **No orphan survives a crash**, iff no inode was removed and still in use when the machine went
down (`u`), unless something is created in a removed directory, a link count overflows, or an earlier
crash left an orphan. -/
theorem no_orphan_survives {es : List Event} (hnames : MkfsOk names)
    (hrun : Machine.run nextEvent (Sys.init names) es = some s)
    (hC : Machine.Along nextEvent CarefulEvent (Sys.init names) es)
    (hdown : down s e = some u) (hcrash : nextEvent s e = some t) :
    OrphanFree t.tree.inode ↔ NoneRemoved u := by
  have hal := along_of_events hnames hrun hC
  have he : ∀ a, e ≠ .call a := by
    rintro a rfl
    cases hdown
  obtain ⟨u', hu', rfl, -⟩ := down_of_nextEvent hcrash he
  obtain rfl := Option.some_inj.mp (hu'.symm.trans hdown)
  exact ((hal.inv (stop_of_down hdown)).sound_down hdown).orphanFree_iff

/-- A file is made and kept open. -/
def openX : Act := ⟨0, .open "/x".toList 0x200, []⟩

def openFileRun : List Event := [.call openX]

theorem no_orphan_survives_openFileRun : ∃ s t,
    Machine.run nextEvent (Sys.init []) openFileRun = some s ∧ nextEvent s .crash = some t ∧
      OrphanFree t.tree.inode := by
  obtain ⟨s, hs, hstop, hall⟩ : ∃ s, Machine.run nextEvent (Sys.init []) openFileRun = some s ∧
      s.stop = none ∧ ∀ i < ninodes, (s.tree.inode i).type ≠ .none → (s.tree.inode i).nlink ≠ 0 := by
    decide +kernel
  have hcareful : Machine.Along nextEvent CarefulEvent (Sys.init []) openFileRun := by
    have hopen : Careful true false (Sys.init []) openX := by decide +kernel
    refine ⟨hopen, ?_⟩
    split
    all_goals trivial
  have hdown : down s .crash = some s := if_pos hstop
  have hcrash : nextEvent s .crash = some (.boot s.tree.inode) := by rw [nextEvent, hdown]; rfl
  have hsound := ((along_of_events (by decide) hs hcareful).inv hstop).sound
  exact ⟨s, _, hs, hcrash, (no_orphan_survives (by decide) hs hcareful hdown hcrash).mpr
    (hsound.noneRemoved_iff.mpr hall)⟩

/-- Not every crash leaves the file system in order: a file that was open when it was removed stays
allocated for ever. -/
theorem not_orphanFree : ¬∀ (names : List Name) (es : List Event) (s : Sys) (e : Event) (t : Sys),
    MkfsOk names → Machine.run nextEvent (Sys.init names) es = some s → nextEvent s e = some t →
      (∀ a, e ≠ .call a) → OrphanFree t.tree.inode := by
  intro h
  obtain ⟨s, hs, t, ht, hty, hn⟩ : ∃ s, Machine.run nextEvent (Sys.init [])
      (openFileRun ++ [.call ⟨0, .unlink "/x".toList, []⟩]) = some s ∧ ∃ t,
        nextEvent s .crash = some t ∧ (t.tree.inode 2).type ≠ .none ∧ (t.tree.inode 2).nlink = 0 := by
    decide +kernel
  exact Int.ne_of_gt (h [] _ s .crash t (by decide) hs ht (by simp) 2 hty).1 hn

end Crash

end Xv6.Fs
