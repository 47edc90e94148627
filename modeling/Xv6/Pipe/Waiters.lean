import Xv6.Pipe.Calls

/-!
# Nobody is left waiting for a pipe

A process sleeps on a channel of the pipe only while it has to.  In between, the process that changed
the pipe has the lock and has yet to call `wakeup`.  The one exit of the loops that does not do so is
that of a killed writer: `pipewrite` returns when it finds itself killed, also when it has just stored
bytes.
-/

namespace Xv6

open Function (update update_of_ne update_self update_apply)

namespace Pipes

open Machine

/-- What a process that sleeps on a channel waits for has not happened. -/
def Chan.Waits (pi : Pipe) : Chan → Prop
  | .nread => pi.Empty ∧ pi.writeopen = true
  | .nwrite => pi.Full ∧ pi.readopen = true

/-- A process at this point, which holds the lock, is going to look at `q` and wake it up if it
sleeps on the channel. -/
def Pc.Owes (chan : Chan) (q : Slot) : Pc → Prop
  | .write _ i told | .writeKilled _ i told | .writeFull _ i told => chan = .nread ∧ told < i
  | .copy _ i => chan = .nwrite ∧ 0 < i
  | .wakeup chan' j _ => chan' = chan ∧ j ≤ q
  | _ => False

def Served (s : Sys) : Prop :=
  ∀ q chan, s.sleeping q = some chan →
    chan.Waits s.pipe ∨ ∃ p, s.lock = some p ∧ (s.pc p).Owes chan q

/-- A writer that finds itself killed has stored nothing since it acquired the lock. -/
def Unhurried (s : Sys) : Act → Prop
  | .run p _ => match s.pc p with
    | .writeKilled _ i told => s.killed p = true → told = i
    | _ => True
  | _ => True

instance decidableUnhurried (s : Sys) : ∀ a, Decidable (Unhurried s a)
  | .run p mem =>
    match h : s.pc p with
    | .writeKilled _ i told =>
      decidable_of_iff (s.killed p = true → told = i) (by rw [Unhurried, h])
    | .user | .acquire _ | .write .. | .writeFull .. | .read _ | .readKilled _ | .readSleep _
    | .copy .. | .close _ | .wakeup .. | .asleep _ => .isTrue (by rw [Unhurried, h]; trivial)
  | .pipewrite .. | .piperead .. | .pipeclose .. | .kill _ | .renew _ => .isTrue trivial

section Served

variable {s t : Sys} {p : Slot} {pc : Pc}

theorem Chan.Waits.eq_nread {pi : Pipe} {chan : Chan} (h : chan.Waits pi) (hfull : ¬pi.Full) :
    chan = .nread := by
  cases chan with
  | nread => rfl
  | nwrite => exact absurd h.1 hfull

theorem Chan.Waits.eq_nwrite {pi : Pipe} {chan : Chan} (h : chan.Waits pi) (hempty : ¬pi.Empty) :
    chan = .nwrite := by
  cases chan with
  | nread => exact absurd h.1 hempty
  | nwrite => rfl

theorem Chan.Waits.close {pi : Pipe} {chan : Chan} (h : chan.Waits pi) (w : Bool) :
    chan.Waits (pi.close w) ∨ chan = if w then .nread else .nwrite := by
  cases w <;> cases chan
  · exact .inl h
  · exact .inr rfl
  · exact .inr rfl
  · exact .inl h

theorem Go.owes {pi : Pipe} {pc' : Pc} {chan : Chan} {q : Slot} (h : Go pi pc pc')
    (howes : pc.Owes chan q) : pc'.Owes chan q := by
  cases h with
  | writeMore => exact howes
  | writeEnd => exact ⟨howes.1.symm, Nat.zero_le _⟩
  | writeAlive => exact howes
  | writeFull => exact ⟨howes.1.symm, Nat.zero_le _⟩
  | writeFault => exact ⟨howes.1.symm, Nat.zero_le _⟩
  | readEmpty => exact howes.elim
  | readStart => exact howes.elim
  | readAlive => exact howes.elim
  | readEnd => exact ⟨howes.1.symm, Nat.zero_le _⟩

theorem Served.keep (h : Served s) (hp : s.lock = some p) (hlock : t.lock = some p)
    (hpc : t.pc p = pc)
    (hsleep : ∀ q chan, t.sleeping q = some chan → s.sleeping q = some chan)
    (hwaits : ∀ q chan, t.sleeping q = some chan → chan.Waits s.pipe →
      chan.Waits t.pipe ∨ pc.Owes chan q)
    (howes : ∀ q chan, t.sleeping q = some chan → (s.pc p).Owes chan q → pc.Owes chan q) :
    Served t := by
  intro q chan hq
  rcases h q chan (hsleep q chan hq) with hw | ⟨p', hp', ho⟩
  · exact (hwaits q chan hq hw).imp id fun ho => ⟨p, hlock, hpc ▸ ho⟩
  · rw [hp, Option.some_inj] at hp'
    exact .inr ⟨p, hlock, hpc ▸ howes q chan hq (hp' ▸ ho)⟩

/-- A step of the process that has the lock and gives it up: it must owe nothing, and have a reason
to sleep if it does. -/
theorem Served.drop (h : Served s) (hp : s.lock = some p) (hpipe : t.pipe = s.pipe)
    (hnone : ∀ q chan, ¬(s.pc p).Owes chan q)
    (hsleep : ∀ q chan, t.sleeping q = some chan →
      s.sleeping q = some chan ∨ chan.Waits s.pipe) : Served t := by
  intro q chan hq
  rw [hpipe]
  rcases hsleep q chan hq with hs | hw
  · rcases h q chan hs with hw | ⟨p', hp', ho⟩
    · exact .inl hw
    · rw [hp, Option.some_inj] at hp'
      exact absurd (hp' ▸ ho) (hnone q chan)
  · exact .inl hw

theorem Served.outside (h : Served s) (hheld : Held s) (hold : (s.pc p).holds = false)
    (hlock : s.lock = none ∨ t.lock = s.lock) (hpipe : t.pipe = s.pipe)
    (hpc : ∀ q ≠ p, t.pc q = s.pc q)
    (hsleep : ∀ q chan, t.sleeping q = some chan → s.sleeping q = some chan) : Served t := by
  intro q chan hq
  rw [hpipe]
  refine (h q chan (hsleep q chan hq)).imp id fun ⟨p', hp', ho⟩ => ?_
  have hne : p' ≠ p := by
    rintro rfl
    rw [(hheld.lock p').mpr hp'] at hold
    exact absurd hold (by simp)
  rcases hlock with hlock | hlock
  · rw [hlock] at hp'
    exact absurd hp' (by simp)
  · exact ⟨p', hlock.trans hp', (hpc p' hne).symm ▸ ho⟩

theorem Leaves.not_owes {pi : Pipe} {killed : Bool} (h : Leaves pi killed pc) (hknows : pc.Knows pi)
    (hun : killed = true → ∀ n i told, pc = .writeKilled n i told → told = i) (q : Slot)
    (chan : Chan) : ¬pc.Owes chan q := by
  cases h with
  | noReader hclosed =>
    intro howes
    rw [hknows.2 howes.2] at hclosed
    exact absurd hclosed (by simp)
  | writeKilled hkilled =>
    intro howes
    exact absurd howes.2 (by rw [hun hkilled _ _ _ rfl]; exact Int.lt_irrefl _)
  | readKilled => exact id

theorem Served.step (h : Served s) (hheld : Held s) (hstep : Step s t)
    (hun : ∀ p, s.killed p = true → ∀ n i told, s.pc p = .writeKilled n i told →
      t = s.release p → told = i) : Served t := by
  have hmine : ∀ {p : Slot}, (s.pc p).holds = true → s.lock = some p :=
    fun {p} => (hheld.lock p).mp
  cases hstep with
  | call p c hpc =>
    exact h.outside hheld (by rw [hpc]; rfl) (.inr rfl) rfl (fun q hq => update_of_ne hq ..)
      fun q chan hq => hq
  | acquire p c hpc hfree =>
    exact h.outside hheld (by rw [hpc]; rfl) (.inl hfree) rfl
      (fun q hq => update_of_ne hq ..) fun q chan hq => hq
  | go p pc hgo =>
    have hp := hmine (hgo.knows (hheld.knows p)).1
    exact h.keep hp hp (update_self ..) (fun q chan hq => hq) (fun q chan _ hw => .inl hw)
      fun q chan _ ho => hgo.owes ho
  | leave p hleave =>
    exact h.drop (hmine hleave.holds) rfl
      (fun q chan => hleave.not_owes (hheld.knows p) (fun hk n i told hpc => hun p hk n i told hpc rfl)
        q chan) fun q chan hq => .inl hq
  | store p n i told ch hpc hfull =>
    have hp := hmine (p := p) (by rw [hpc]; rfl)
    have hknows := hheld.knows p
    rw [hpc] at hknows
    have htold : told < i + 1 := Int.lt_add_one_of_le hknows.1
    refine h.keep hp hp (update_self ..) (fun q chan hq => hq)
      (fun q chan _ hw => .inr ⟨hw.eq_nread hfull, htold⟩) fun q chan _ ho => ?_
    rw [hpc] at ho
    exact ⟨ho.1, htold⟩
  | take p n i pc hpc hi hempty hor =>
    have hp := hmine (p := p) (by rw [hpc]; rfl)
    have hknows := hheld.knows p
    rw [hpc] at hknows
    have howes : ∀ q, pc.Owes .nwrite q := by
      intro q
      rcases hor with rfl | rfl
      · exact ⟨rfl, Int.lt_add_one_of_le hknows.1⟩
      · exact ⟨rfl, Nat.zero_le _⟩
    refine h.keep hp hp (update_self ..) (fun q chan hq => hq)
      (fun q chan _ hw => .inr (hw.eq_nwrite hempty ▸ howes q)) fun q chan _ ho => ?_
    rw [hpc] at ho
    exact ho.1 ▸ howes q
  | close p w hpc =>
    have hp := hmine (p := p) (by rw [hpc]; rfl)
    refine h.keep hp hp (update_self ..) (fun q chan hq => hq)
      (fun q chan _ hw => (hw.close w).imp id fun heq => ⟨heq.symm, Nat.zero_le _⟩)
      fun q chan _ ho => ?_
    rw [hpc] at ho
    exact ho.elim
  | rouse p chan j k hj hpc =>
    have hp := hmine (p := p) (by rw [hpc]; rfl)
    refine h.keep hp hp (update_self ..) (fun q chan' hq => Sys.sleeping_of_rouse hq)
      (fun q chan' _ hw => .inl hw) fun q chan' hq ho => ?_
    rw [hpc] at ho
    have hne : q.val ≠ j := by
      rintro rfl
      change (s.rouse q chan).sleeping q = some chan' at hq
      rw [Sys.rouse_sleeping, ho.1] at hq
      split at hq
      · exact absurd hq (by simp)
      · rename_i hneg
        exact hneg ⟨rfl, hq⟩
    exact ⟨ho.1, Nat.lt_of_le_of_ne ho.2 hne.symm⟩
  | finish p chan j k hpc hj =>
    have hp := hmine (p := p) (by rw [hpc]; rfl)
    have hknows := hheld.knows p
    have hnone : ∀ q chan, ¬(s.pc p).Owes chan q := by
      intro q chan' ho
      rw [hpc] at ho
      exact absurd (Nat.le_trans hj ho.2) (Nat.not_le.mpr q.isLt)
    cases k with
    | sleep n i =>
      rw [hpc] at hknows
      refine h.drop hp rfl hnone fun q chan' hq => ?_
      rw [Sys.finish, Sys.sleep_sleeping] at hq
      split at hq
      · cases hq
        exact .inr hknows
      · exact .inl hq
    | wrote i => exact h.drop hp rfl hnone fun q chan' hq => .inl hq
    | read n i fault => exact h.drop hp rfl hnone fun q chan' hq => .inl hq
    | closed => exact h.drop hp rfl hnone fun q chan' hq => .inl hq
  | sleep p n hpc =>
    have hp := hmine (p := p) (by rw [hpc]; rfl)
    have hknows := hheld.knows p
    rw [hpc] at hknows
    refine h.drop hp rfl (fun q chan => by rw [hpc]; exact id) fun q chan hq => ?_
    rw [Sys.sleep_sleeping] at hq
    split at hq
    · cases hq
      exact .inr hknows
    · exact .inl hq
  | awake p c hpc hs =>
    exact h.outside hheld (by rw [hpc]; rfl) (.inr rfl) rfl (fun q hq => update_of_ne hq ..)
      fun q chan hq => hq
  | kill q =>
    intro p chan hp
    change update s.sleeping q none p = some chan at hp
    rw [update_apply] at hp
    split at hp
    · exact absurd hp (by simp)
    · exact h p chan hp
  | renew q => exact h

theorem Held.eq_run (hheld : Held s) {a : Act} (hnext : next s a = some t) (hp : s.lock = some p)
    (hfree : t.lock = none) : ∃ mem, a = .run p mem := by
  have hcall : ∀ {q c}, s.call q c = some t → False := by
    intro q c h
    rw [Sys.call, Option.ite_none_right_eq_some, Option.some_inj] at h
    exact absurd (hp.symm.trans (h.2 ▸ hfree)) (by simp)
  cases a with
  | pipewrite q n => exact (hcall hnext).elim
  | piperead q n => exact (hcall hnext).elim
  | pipeclose q w => exact (hcall hnext).elim
  | run q mem =>
    refine ⟨mem, ?_⟩
    by_contra hne
    have hholds := hheld.lock.not_holds hp (q := q) fun heq => hne (heq ▸ rfl)
    rw [next, Sys.step] at hnext
    -- What `q` can do without the lock is wait for it or get up.
    cases hpc : s.pc q with
    | user => simp [hpc] at hnext
    | acquire c => simp [hpc, hp] at hnext
    | asleep c =>
      simp only [hpc, Option.ite_none_right_eq_some, Option.some_inj] at hnext
      exact absurd (hp.symm.trans (hnext.2 ▸ hfree)) (by simp)
    | _ => exact absurd (hpc ▸ hholds) (by simp [Pc.holds])
  | kill q =>
    cases hnext
    exact absurd (hp.symm.trans hfree) (by simp)
  | renew q =>
    rw [next, Option.ite_none_right_eq_some, Option.some_inj] at hnext
    exact absurd (hp.symm.trans (hnext.2 ▸ hfree)) (by simp)

theorem Served.next {a : Act} (h : Served s) (hheld : Held s) (hun : Unhurried s a)
    (hnext : next s a = some t) : Served t := by
  refine h.step hheld (step_of_next hnext) fun p hkilled n i told hpc ht => ?_
  have hp : s.lock = some p := (hheld.lock p).mp (by rw [hpc]; rfl)
  obtain ⟨mem, rfl⟩ := hheld.eq_run hnext hp (ht ▸ rfl)
  simpa [Unhurried, hpc, hkilled] using hun

theorem served_init (data : Fin pipesize → UInt8) : Served (Sys.init data) :=
  fun _ _ hq => absurd hq (by simp [Sys.init])

end Served

/-- **Nobody is left waiting for a pipe**, unless a writer is killed after it has stored bytes. -/
theorem no_stranded {data : Fin pipesize → UInt8} {as : List Act} {s : Sys}
    (hrun : run next (Sys.init data) as = some s) (hun : Along next Unhurried (Sys.init data) as)
    (hfree : s.lock = none) (q : Slot) :
    ¬(s.sleeping q = some .nread ∧ (s.pipe.nread ≠ s.pipe.nwrite ∨ s.pipe.writeopen = false)) ∧
    ¬(s.sleeping q = some .nwrite ∧
      (s.pipe.nwrite ≠ s.pipe.nread + .ofNat pipesize ∨ s.pipe.readopen = false)) := by
  have hinv : Held s ∧ Served s :=
    run_induction (I := fun s => Held s ∧ Served s) hrun hun ⟨held_init data, served_init data⟩
      fun s a t hs hun hnext => ⟨hs.1.step (step_of_next hnext), hs.2.next hs.1 hun hnext⟩
  have hwaits : ∀ chan, s.sleeping q = some chan → chan.Waits s.pipe := by
    intro chan hq
    rcases hinv.2 q chan hq with hw | ⟨p, hp, -⟩
    · exact hw
    · exact absurd (hfree.symm.trans hp) (by simp)
  constructor
  · rintro ⟨hq, hne | hclosed⟩
    · exact hne (hwaits _ hq).1
    · exact absurd ((hwaits _ hq).2.symm.trans hclosed) (by simp)
  · rintro ⟨hq, hne | hclosed⟩
    · exact hne (hwaits _ hq).1
    · exact absurd ((hwaits _ hq).2.symm.trans hclosed) (by simp)

/-- A process goes to sleep in `piperead`. -/
def sleeper : List Act := .piperead 1 1 :: List.replicate 4 (.run 1 none)

theorem no_stranded_sleeper : ∃ s, run next (Sys.init fun _ => 0) sleeper = some s ∧
    s.sleeping 1 = some .nread ∧
    ¬(s.sleeping 1 = some .nread ∧ (s.pipe.nread ≠ s.pipe.nwrite ∨ s.pipe.writeopen = false)) := by
  have heval : ((run next (Sys.init fun _ => 0) sleeper).map fun s => (s.lock, s.sleeping 1)) =
      some (none, some .nread) := by decide +kernel
  obtain ⟨s, hrun, hs⟩ := Option.map_eq_some_iff.mp heval
  obtain ⟨hfree, hsleep⟩ := Prod.mk.inj hs
  have hun : Along next Unhurried (Sys.init fun _ => 0) sleeper := by decide +kernel
  exact ⟨s, hrun, hsleep, (no_stranded hrun hun hfree 1).1⟩

/-- A reader sleeps, and a writer is killed when it has written one byte of two. -/
def hurried : List Act :=
  sleeper ++ .pipewrite 0 2 :: List.replicate 5 (.run 0 (some 7)) ++ [.kill 0, .run 0 none]

theorem stranded : ∃ s, run next (Sys.init fun _ => 0) hurried = some s ∧ s.lock = none ∧
    s.sleeping 1 = some .nread ∧ s.pipe.nread ≠ s.pipe.nwrite := by
  have heval : ((run next (Sys.init fun _ => 0) hurried).map fun s =>
      (s.lock, s.sleeping 1, decide (s.pipe.nread ≠ s.pipe.nwrite))) =
      some (none, some .nread, true) := by decide +kernel
  obtain ⟨s, hrun, hs⟩ := Option.map_eq_some_iff.mp heval
  simp only [Prod.mk.injEq, decide_eq_true_eq] at hs
  exact ⟨s, hrun, hs.1, hs.2.1, hs.2.2⟩

end Pipes

end Xv6
