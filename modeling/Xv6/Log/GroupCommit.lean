import Xv6.Lib.Count
import Xv6.Lib.Machine
import Xv6.Log.Sections
import Mathlib.Algebra.Order.BigOperators.Group.Finset
import Mathlib.Data.Finset.Card
import Mathlib.Data.List.Count

/-!
# Group commit

A call joins the current transaction in `begin_op`, logs blocks, and leaves in `end_op`; whoever leaves
last runs `commit()` without holding `log.lock`, while others may already be queueing for the next
transaction.  This file puts the critical sections of `Xv6.Log.Sections` together into one machine in
which any number of processes take those steps in any order, and `commit()` is a sequence of steps of
its own.

The admission test of `begin_op` and the capacity test of `log_write` disagree by one block
(`not_admissionSound`, `no_tooBig_iff`).
-/

namespace Xv6

open Function (update update_of_ne update_self)

namespace GroupCommit

inductive CommitPc where
  | start
  | writeLog (tail : Nat)
  | writeHead
  /-- In `install_trans`, about to install the block in slot `tail`. -/
  | install (tail : Nat)
  | clear
  | eraseHead
  | done
  deriving DecidableEq, Repr

inductive Phase where
  | idle
  | waiting
  | sleeping
  | running
  | committing (pc : CommitPc)
  deriving DecidableEq, Repr

structure Sys (P : Type) where
  log : Log
  phase : P → Phase
  pin : Nat → Nat
  /-- History: the blocks logged by the current call of each process. -/
  wrote : P → Finset Nat
  logged : Finset Nat
  panic : Option Panic

inductive Act (P : Type) where
  | beginOp (p : P)
  /-- Be made runnable while asleep in `begin_op`, as `kill` does. -/
  | wake (p : P)
  | logWrite (p : P) (b : Nat)
  | endOp (p : P)
  | commit (p : P)
  deriving DecidableEq, Repr

namespace Sys

variable {P : Type} [DecidableEq P]

def init (P : Type) (start size dev : Nat) : Sys P :=
  { log := Log.init start size dev, phase := fun _ => .idle, pin := fun _ => 0,
    wrote := fun _ => ∅, logged := ∅, panic := none }

def goto (s : Sys P) (p : P) (ph : Phase) : Sys P :=
  { s with phase := update s.phase p ph }

@[simp] theorem goto_self (s : Sys P) (p : P) (ph : Phase) : (s.goto p ph).phase p = ph := by
  simp [goto]

theorem goto_of_ne (s : Sys P) {p q : P} (ph : Phase) (h : q ≠ p) :
    (s.goto p ph).phase q = s.phase q := by
  simp [goto, h]

theorem committing_of_goto {s : Sys P} {p q : P} {ph : Phase} {pc : CommitPc}
    (hph : ∀ pc, ph ≠ .committing pc) (h : (s.goto p ph).phase q = .committing pc) :
    s.phase q = .committing pc := by
  by_cases hqp : q = p
  · subst hqp
    rw [goto_self] at h
    exact absurd h (hph pc)
  · rwa [goto_of_ne s ph hqp] at h

def wakeup (s : Sys P) : Sys P :=
  { s with phase := fun q => if s.phase q = .sleeping then .waiting else s.phase q }

omit [DecidableEq P] in
theorem wakeup_eq_iff (s : Sys P) (q : P) {ph : Phase} (hs : ph ≠ .sleeping) (hw : ph ≠ .waiting) :
    s.wakeup.phase q = ph ↔ s.phase q = ph := by
  rw [wakeup]
  dsimp only
  split
  · rename_i hq
    exact iff_of_false hw.symm (hq ▸ hs.symm)
  · rfl

/-- The log block that `write_log` fills from slot `tail`. -/
def logBlock (s : Sys P) (tail : Nat) : Nat := s.log.start + tail + 1

/-- One step of `commit()`, or of what follows it in `end_op`, taken by `p`. -/
def commitStep (s : Sys P) (p : P) : CommitPc → Sys P
  | .start => s.goto p (.committing (if s.log.lh.length > 0 then .writeLog 0 else .done))
  | .writeLog tail =>
    s.goto p (.committing (if tail < s.log.lh.length then .writeLog (tail + 1) else .writeHead))
  | .writeHead => s.goto p (.committing (.install 0))
  | .install tail => match s.log.lh[tail]? with
    | some b =>  -- `bunpin`
      { s with pin := update s.pin b (s.pin b - 1) }.goto p
        (.committing (.install (tail + 1)))
    | none => s.goto p (.committing .clear)
  | .clear => { s with log := { s.log with lh := [] } }.goto p (.committing .eraseHead)
  | .eraseHead => s.goto p (.committing .done)
  | .done =>
    ({ s with log := { s.log with committing := false }, logged := ∅ }.goto p .idle).wakeup

end Sys

open Sys

variable {P : Type} [DecidableEq P]

/-- One step of the system.  Only an admitted call logs blocks or ends. -/
def next (s : Sys P) (a : Act P) : Option (Sys P) :=
  if s.panic.isSome then none
  else match a with
    | .beginOp p =>
      if s.phase p = .idle ∨ s.phase p = .waiting then
        match s.log.beginOp with
        | some l => some ({ s with log := l, wrote := update s.wrote p ∅ }.goto p .running)
        | none => some (s.goto p .sleeping)
      else none
    | .wake p => if s.phase p = .sleeping then some (s.goto p .waiting) else none
    | .logWrite p b =>
      if s.phase p = .running then
        match s.log.logWrite b with
        | .ok (l, pin) => some { s with
            log := l
            pin := if pin then update s.pin b (s.pin b + 1) else s.pin
            wrote := update s.wrote p (insert b (s.wrote p))
            logged := insert b s.logged }
        | .error e => some { s with panic := some e }
      else none
    | .endOp p =>
      if s.phase p = .running then
        match s.log.endOp with
        | .ok (l, true) => some ({ s with log := l }.goto p (.committing .start))
        | .ok (l, false) => some ({ s with log := l }.goto p .idle).wakeup
        | .error e => some { s with panic := some e }
      else none
    | .commit p => match s.phase p with
      | .committing pc => some (s.commitStep p pc)
      | _ => none

/-- Everything a step can do, one constructor for each way through `next`. -/
inductive Step (s : Sys P) : Act P → Sys P → Prop where
  | enter {p : P} {l : Log} (hp : s.phase p = .idle ∨ s.phase p = .waiting)
      (hl : s.log.beginOp = some l) :
      Step s (.beginOp p) ({ s with log := l, wrote := update s.wrote p ∅ }.goto p .running)
  | sleep {p : P} (hp : s.phase p = .idle ∨ s.phase p = .waiting) (hl : s.log.beginOp = none) :
      Step s (.beginOp p) (s.goto p .sleeping)
  | wake {p : P} (hp : s.phase p = .sleeping) : Step s (.wake p) (s.goto p .waiting)
  | logWrite {p : P} {b : Nat} {l : Log} {pin : Bool} (hp : s.phase p = .running)
      (hl : s.log.logWrite b = .ok (l, pin)) :
      Step s (.logWrite p b) { s with
        log := l
        pin := if pin then update s.pin b (s.pin b + 1) else s.pin
        wrote := update s.wrote p (insert b (s.wrote p))
        logged := insert b s.logged }
  | logPanic {p : P} {b : Nat} {e : Panic} (hp : s.phase p = .running)
      (hl : s.log.logWrite b = .error e) : Step s (.logWrite p b) { s with panic := some e }
  | endLast {p : P} {l : Log} (hp : s.phase p = .running) (hl : s.log.endOp = .ok (l, true)) :
      Step s (.endOp p) ({ s with log := l }.goto p (.committing .start))
  | endOther {p : P} {l : Log} (hp : s.phase p = .running) (hl : s.log.endOp = .ok (l, false)) :
      Step s (.endOp p) ({ s with log := l }.goto p .idle).wakeup
  | endPanic {p : P} {e : Panic} (hp : s.phase p = .running) (hl : s.log.endOp = .error e) :
      Step s (.endOp p) { s with panic := some e }
  | commit {p : P} {pc : CommitPc} (hp : s.phase p = .committing pc) :
      Step s (.commit p) (s.commitStep p pc)

variable {s t : Sys P}

theorem step_of_next {a : Act P} (h : next s a = some t) :
    s.panic = none ∧ Step s a t := by
  unfold next at h
  split at h
  · cases h
  rename_i hp
  refine ⟨Option.not_isSome_iff_eq_none.mp hp, ?_⟩
  cases a with dsimp only at h
  | beginOp p =>
    split at h
    · split at h
      · cases h; exact .enter ‹_› ‹_›
      · cases h; exact .sleep ‹_› ‹_›
    · cases h
  | wake p =>
    split at h
    · cases h; exact .wake ‹_›
    · cases h
  | logWrite p b =>
    split at h
    · split at h
      · cases h; exact .logWrite ‹_› ‹_›
      · cases h; exact .logPanic ‹_› ‹_›
    · cases h
  | endOp p =>
    split at h
    · split at h
      · cases h; exact .endLast ‹_› ‹_›
      · cases h; exact .endOther ‹_› ‹_›
      · cases h; exact .endPanic ‹_› ‹_›
    · cases h
  | commit p =>
    split at h
    · cases h; exact .commit ‹_›
    · cases h

variable {phase : P → Phase} {p : P}

/-! ## The invariant -/

/-- The blocks whose buffers still carry a log pin when a commit is at `pc`. -/
def CommitPc.pinned (lh : List Nat) : CommitPc → List Nat
  | .start | .writeLog _ | .writeHead => lh
  | .install tail => lh.drop tail
  | .clear | .eraseHead | .done => []

/-- No commit is running: the current transaction is open to new calls. -/
structure Sys.Open (s : Sys P) : Prop where
  flag : s.log.committing = false
  nobody : ∀ p pc, s.phase p ≠ .committing pc
  empty : s.log.outstanding = 0 → s.log.lh = []
  pins : ∀ b, s.pin b = s.log.lh.count b
  logged : s.logged = s.log.lh.toFinset

structure Sys.Closed (s : Sys P) (p : P) (pc : CommitPc) : Prop where
  flag : s.log.committing = true
  quiet : s.log.outstanding = 0
  here : s.phase p = .committing pc
  alone : ∀ q pc', s.phase q = .committing pc' → q = p
  pins : ∀ b, s.pin b = (pc.pinned s.log.lh).count b
  cleared : pc = .eraseHead ∨ pc = .done → s.log.lh = []

structure Sys.Inv (s : Sys P) : Prop where
  /-- `outstanding` counts the processes between `begin_op` and `end_op`. -/
  count : Counts (· = Phase.running) s.phase s.log.outstanding
  nodup : s.log.lh.Nodup
  fits : s.log.lh.length ≤ s.log.size - 1
  fitsHead : s.log.lh.length ≤ logSize
  mode : s.Open ∨ ∃ p pc, s.Closed p pc
  sound : s.panic ≠ some .logCommitting ∧ s.panic ≠ some .logWriteOutsideOfTrans

omit [DecidableEq P] in
theorem Sys.Inv.init (start size dev : Nat) : (Sys.init P start size dev).Inv where
  count := ⟨∅, by simp [Sys.init], rfl⟩
  nodup := List.nodup_nil
  fits := Nat.zero_le _
  fitsHead := Nat.zero_le _
  mode := .inl ⟨rfl, by simp [Sys.init], fun _ => rfl, fun _ => rfl, rfl⟩
  sound := by simp [Sys.init]

omit [DecidableEq P] in
theorem Sys.Inv.open_of_running (h : s.Inv) (hp : s.phase p = .running) : s.Open := by
  rcases h.mode with ho | ⟨q, pc, hc⟩
  · exact ho
  · have := h.count.pos hp
    rw [hc.quiet] at this
    omega

omit [DecidableEq P] in
theorem Sys.Inv.closed_of_committing (h : s.Inv) {pc : CommitPc}
    (hp : s.phase p = .committing pc) : s.Closed p pc := by
  rcases h.mode with ho | ⟨q, pc', hc⟩
  · exact absurd hp (ho.nobody p pc)
  · obtain rfl := hc.alone p pc hp
    rw [hc.here, Phase.committing.injEq] at hp
    exact hp ▸ hc

/-! ## Every step keeps the invariant -/

/-- Outside the log altogether, or in `begin_op`. -/
def Phase.Calm (ph : Phase) : Prop := ph ≠ .running ∧ ∀ pc, ph ≠ .committing pc

theorem Sys.Inv.goto_calm (h : s.Inv) (hp : (s.phase p).Calm) {ph : Phase}
    (hph : ph.Calm) : (s.goto p ph).Inv where
  count := h.count.stay (by simp [hp.1, hph.1])
  nodup := h.nodup
  fits := h.fits
  fitsHead := h.fitsHead
  sound := h.sound
  mode := by
    rcases h.mode with ho | ⟨q, pc, hc⟩
    · exact .inl { ho with nobody := fun q pc hq => ho.nobody q pc (committing_of_goto hph.2 hq) }
    · have hqp : q ≠ p := by
        rintro rfl
        exact hp.2 pc hc.here
      exact .inr ⟨q, pc, { hc with
        here := (goto_of_ne s ph hqp).trans hc.here
        alone := fun r pc' hr => hc.alone r pc' (committing_of_goto hph.2 hr) }⟩

theorem Sys.Inv.beginOp (h : s.Inv) (hp : (s.phase p).Calm) {l : Log}
    (hl : s.log.beginOp = some l) (w : P → Finset Nat) :
    ({ s with log := l, wrote := w }.goto p .running : Sys P).Inv := by
  obtain ⟨hc, -, rfl⟩ := Log.beginOp_eq_some hl
  have ho : s.Open := by
    rcases h.mode with ho | ⟨q, pc, hcl⟩
    · exact ho
    · rw [hcl.flag] at hc; cases hc
  refine ⟨h.count.join hp.1 rfl, h.nodup, h.fits, h.fitsHead, .inl ⟨hc, ?_, ?_, ho.pins, ho.logged⟩,
    h.sound⟩
  · exact fun q pc hq => ho.nobody q pc (committing_of_goto (by simp) hq)
  · intro hout
    have hn := h.count.nonneg
    simp only [goto] at hout
    omega

omit [DecidableEq P] in
theorem Sys.Inv.logWrite (h : s.Inv) (hp : s.phase p = .running) {b : Nat}
    {l : Log} {pin : Bool} (hl : s.log.logWrite b = .ok (l, pin)) (w : P → Finset Nat) :
    ({ s with log := l, pin := if pin then update s.pin b (s.pin b + 1) else s.pin,
              wrote := w, logged := insert b s.logged } : Sys P).Inv := by
  have ho := h.open_of_running hp
  obtain ⟨hhead, hcap, hout, ⟨hmem, rfl, rfl⟩ | ⟨hmem, rfl, rfl⟩⟩ := Log.logWrite_eq_ok hl
  · -- absorbed: the block is in the header already, and only the history would change
    have hins : insert b s.logged = s.log.lh.toFinset := by
      rw [ho.logged]
      exact Finset.insert_eq_of_mem (by simpa using hmem)
    exact { h with mode := .inl { ho with logged := hins } }
  · refine ⟨h.count, ?_, ?_, ?_, .inl ⟨ho.flag, ho.nobody, ?_, ?_, ?_⟩, h.sound⟩
    · exact List.nodup_append.mpr ⟨h.nodup, List.nodup_singleton b,
        fun x hx y hy => by rw [List.mem_singleton] at hy; rintro rfl; exact hmem (hy ▸ hx)⟩
    · simp only [List.length_append, List.length_singleton]
      omega
    · simp only [List.length_append, List.length_singleton]
      omega
    · intro h0
      dsimp only at h0
      omega
    · intro c
      dsimp only
      rw [if_pos rfl, List.count_append, ← ho.pins c]
      by_cases hcb : c = b
      · subst hcb
        rw [update_self, List.count_singleton_self]
      · rw [update_of_ne hcb, List.count_singleton, if_neg (by simpa using Ne.symm hcb),
          Nat.add_zero]
    · rw [ho.logged]
      ext c
      simp

omit [DecidableEq P] in
theorem Sys.Inv.wakeup (h : s.Inv) : s.wakeup.Inv := by
  have hcomm : ∀ q pc, s.wakeup.phase q = .committing pc ↔ s.phase q = .committing pc :=
    fun q pc => wakeup_eq_iff s q (by simp) (by simp)
  refine ⟨h.count.congr fun q => wakeup_eq_iff s q (by simp) (by simp), h.nodup, h.fits, h.fitsHead, ?_, h.sound⟩
  rcases h.mode with ho | ⟨q, pc, hc⟩
  · exact .inl { ho with nobody := fun q pc => (hcomm q pc).not.mpr (ho.nobody q pc) }
  · exact .inr ⟨q, pc, { hc with
      here := (hcomm q pc).mpr hc.here, alone := fun r pc' hr => hc.alone r pc' ((hcomm r pc').mp hr) }⟩

theorem Sys.Inv.endOp_last (h : s.Inv) (hp : s.phase p = .running) (hlast : s.log.outstanding = 1) :
    ({ s with log := { s.log with outstanding := s.log.outstanding - 1, committing := true } }.goto p
      (.committing .start) : Sys P).Inv := by
  have ho := h.open_of_running hp
  refine ⟨h.count.leave hp (by simp), h.nodup, h.fits, h.fitsHead,
    .inr ⟨p, .start, rfl, ?_, ?_, ?_, ho.pins, ?_⟩, h.sound⟩
  · simp [goto, hlast]
  · simp
  · intro q pc hq
    by_contra hqp
    rw [goto_of_ne _ _ hqp] at hq
    exact ho.nobody q pc hq
  · rintro (h | h) <;> cases h

theorem Sys.Inv.endOp_other (h : s.Inv) (hp : s.phase p = .running)
    (hmore : s.log.outstanding - 1 ≠ 0) :
    ({ s with log := { s.log with outstanding := s.log.outstanding - 1 } }.goto p .idle :
      Sys P).Inv := by
  have ho := h.open_of_running hp
  exact ⟨h.count.leave hp (by simp), h.nodup, h.fits, h.fitsHead,
    .inl ⟨ho.flag, fun q pc hq => ho.nobody q pc (committing_of_goto (by simp) hq),
      fun h0 => absurd h0 hmore, ho.pins, ho.logged⟩, h.sound⟩

theorem Sys.Inv.advance (h : s.Inv) {pc : CommitPc}
    (hp : s.phase p = .committing pc) (pc' : CommitPc) {lh : List Nat} {pin : Nat → Nat}
    (hnd : lh.Nodup) (hlen : lh.length ≤ s.log.lh.length)
    (hpins : ∀ b, pin b = (pc'.pinned lh).count b) (hcl : pc' = .eraseHead ∨ pc' = .done → lh = []) :
    ({ s with log := { s.log with lh := lh }, pin := pin }.goto p (.committing pc') : Sys P).Inv := by
  have hc := h.closed_of_committing hp
  refine ⟨h.count.stay (by simp [hp]), hnd, hlen.trans h.fits, hlen.trans h.fitsHead,
    .inr ⟨p, pc', hc.flag, hc.quiet, goto_self _ _ _, fun q pc'' hq => ?_, hpins, hcl⟩, h.sound⟩
  by_contra hqp
  rw [goto_of_ne _ _ hqp] at hq
  exact hqp (hc.alone q pc'' hq)

theorem Sys.Inv.reopen (h : s.Inv) (hp : s.phase p = .committing .done) :
    ({ s with log := { s.log with committing := false }, logged := ∅ }.goto p .idle : Sys P).Inv := by
  have hc := h.closed_of_committing hp
  have hlh : s.log.lh = [] := hc.cleared (.inr rfl)
  refine ⟨h.count.stay (by simp [hp]), h.nodup, h.fits, h.fitsHead,
    .inl ⟨rfl, fun q pc hq => ?_, fun _ => hlh, fun b => ?_, ?_⟩, h.sound⟩
  · have hqp : q = p := hc.alone q pc (committing_of_goto (by simp) hq)
    subst hqp
    rw [goto_self] at hq
    cases hq
  · simpa [goto, hlh, CommitPc.pinned] using hc.pins b
  · simp [goto, hlh]

theorem Sys.Inv.commitStep (h : s.Inv) {pc : CommitPc}
    (hp : s.phase p = .committing pc) : (s.commitStep p pc).Inv := by
  have hc := h.closed_of_committing hp
  cases pc with
  | start =>
    rw [Sys.commitStep]
    split
    · exact h.advance hp _ h.nodup le_rfl hc.pins (by simp)
    · rename_i hn
      have hlh : s.log.lh = [] := List.length_eq_zero_iff.mp (by omega)
      refine h.advance hp _ h.nodup le_rfl (fun b => ?_) fun _ => hlh
      rw [hc.pins b, hlh]
      rfl
  | writeLog tail =>
    rw [Sys.commitStep]
    split <;> exact h.advance hp _ h.nodup le_rfl hc.pins (by simp)
  | writeHead => exact h.advance hp _ h.nodup le_rfl hc.pins (by simp)
  | install tail =>
    rw [Sys.commitStep]
    split
    · -- the pin dropped is the first of those left
      rename_i b hb
      obtain ⟨htail, rfl⟩ := List.getElem?_eq_some_iff.mp hb
      refine h.advance hp _ h.nodup le_rfl (fun c => ?_) (by simp)
      have hdrop := List.drop_eq_getElem_cons htail
      have hpin := hc.pins c
      simp only [CommitPc.pinned] at hpin ⊢
      rw [hdrop, List.count_cons] at hpin
      by_cases hcb : c = s.log.lh[tail]
      · rw [← hcb, update_self, hpin, hcb]
        simp
      · rw [update_of_ne hcb, hpin, if_neg (by simpa using Ne.symm hcb), Nat.add_zero]
    · rename_i hb
      refine h.advance hp _ h.nodup le_rfl (fun c => ?_) (by simp)
      rw [hc.pins c, CommitPc.pinned, CommitPc.pinned,
        List.drop_eq_nil_of_le (List.getElem?_eq_none_iff.mp hb)]
  | clear => exact h.advance hp _ List.nodup_nil (Nat.zero_le _) hc.pins fun _ => rfl
  | eraseHead =>
    exact h.advance hp _ h.nodup le_rfl hc.pins fun _ => hc.cleared (.inl rfl)
  | done => exact (h.reopen hp).wakeup

omit [DecidableEq P] in
theorem Sys.Inv.endOp_eq (h : s.Inv) (hp : s.phase p = .running) :
    s.log.endOp = if s.log.outstanding - 1 = 0 then
        .ok ({ s.log with outstanding := s.log.outstanding - 1, committing := true }, true)
      else .ok ({ s.log with outstanding := s.log.outstanding - 1 }, false) := by
  simp [Log.endOp, (h.open_of_running hp).flag]

omit [DecidableEq P] in
theorem Sys.Inv.logWrite_error (h : s.Inv) {p : P} (hp : s.phase p = .running)
    {b : Nat} {e : Panic} (hl : s.log.logWrite b = .error e) : e = .tooBigATransaction := by
  have hout := h.count.pos hp
  rw [Log.logWrite] at hl
  split at hl
  · exact (Except.error.inj hl).symm
  · rw [if_neg (by omega)] at hl
    dsimp only at hl
    split at hl <;> cases hl

theorem Sys.Inv.step {a : Act P} (h : s.Inv) (hs : Step s a t) : t.Inv := by
  cases hs with
  | enter hp hl => exact h.beginOp (by rcases hp with hp | hp <;> simp [hp, Phase.Calm]) hl _
  | sleep hp hl =>
    exact h.goto_calm (by rcases hp with hp | hp <;> simp [hp, Phase.Calm]) (by simp [Phase.Calm])
  | wake hp => exact h.goto_calm (by simp [hp, Phase.Calm]) (by simp [Phase.Calm])
  | logWrite hp hl => exact h.logWrite hp hl _
  | logPanic hp hl =>
    obtain rfl := h.logWrite_error hp hl
    have ho := h.open_of_running hp
    exact { h with
      mode := .inl ⟨ho.flag, ho.nobody, ho.empty, ho.pins, ho.logged⟩
      sound := by simp }
  | endLast hp hl =>
    rw [h.endOp_eq hp] at hl
    split at hl
    · cases hl
      exact h.endOp_last hp (by omega)
    · cases hl
  | endOther hp hl =>
    rw [h.endOp_eq hp] at hl
    split at hl
    · cases hl
    · cases hl
      exact (h.endOp_other hp ‹_›).wakeup
  | endPanic hp hl =>
    rw [h.endOp_eq hp] at hl
    split at hl <;> cases hl
  | commit hp => exact h.commitStep hp

theorem inv_of_reachable {start size dev : Nat}
    (h : Machine.Reachable next (Sys.init P start size dev) s) : s.Inv :=
  h.induction (Sys.Inv.init start size dev) fun _ _ _ hs ht => hs.step (step_of_next ht).2

/-- **Group commit.**  In every reachable state, while `log.committing` is set no call is admitted
and no block can be logged; between transactions the header is empty; it never holds a block twice
nor more blocks than the log area has room for; and the blocks in it are exactly those whose buffers
carry a log pin, one pin each, until `install_trans` drops the pins slot by slot. -/
theorem group_commit {start size dev : Nat} {s : Sys P}
    (h : Machine.Reachable next (Sys.init P start size dev) s) :
    (s.log.committing = true → s.log.outstanding = 0 ∧ (∀ p, s.phase p ≠ .running) ∧
      ∀ p b, next s (.logWrite p b) = none) ∧
    (∀ p pc, s.phase p = .committing pc → s.log.committing = true) ∧
    s.panic ≠ some .logCommitting ∧
    (s.log.outstanding = 0 → s.log.committing = false → s.log.lh = []) ∧
    s.log.lh.Nodup ∧ s.log.lh.length ≤ s.log.size - 1 ∧
    (∀ p tail, s.phase p = .committing (.writeLog tail) → tail < s.log.lh.length →
      s.log.start < s.logBlock tail ∧ s.logBlock tail < s.log.start + s.log.size) ∧
    ((∀ p tail, s.phase p ≠ .committing (.install tail)) →
      (∀ p, s.phase p ≠ .committing .clear) →
      ∀ b, s.pin b = if b ∈ s.log.lh then 1 else 0) ∧
    (∀ p tail, s.phase p = .committing (.install tail) →
      ∀ b, s.pin b = if b ∈ s.log.lh.drop tail then 1 else 0) ∧
    (∀ p, s.phase p = .committing .clear → ∀ b, s.pin b = 0) := by
  have hI := inv_of_reachable h
  refine ⟨fun hc => ?_, fun p pc hp => (hI.closed_of_committing hp).flag, hI.sound.1, ?_, hI.nodup,
    hI.fits, fun p tail hp htail => ?_, fun hi hcl b => ?_, fun p tail hp b => ?_, fun p hp b => ?_⟩
  · have hno : s.log.outstanding = 0 := by
      rcases hI.mode with ho | ⟨q, pc, hcl⟩
      · rw [ho.flag] at hc; cases hc
      · exact hcl.quiet
    have hrun : ∀ p, s.phase p ≠ .running := (hno ▸ hI.count).not_of_zero
    refine ⟨hno, hrun, fun p b => ?_⟩
    simp [GroupCommit.next, hrun p]
  · intro hout hflag
    rcases hI.mode with ho | ⟨q, pc, hcl⟩
    · exact ho.empty hout
    · rw [hcl.flag] at hflag; cases hflag
  · have := hI.fits
    rw [Sys.logBlock]
    omega
  · rcases hI.mode with ho | ⟨q, pc, hc⟩
    · rw [ho.pins b, hI.nodup.count]
    · have hpin := hc.pins b
      cases pc with
      | start | writeLog | writeHead => rw [hpin, CommitPc.pinned, hI.nodup.count]
      | install tail => exact absurd hc.here (hi q tail)
      | clear => exact absurd hc.here (hcl q)
      | eraseHead => rw [hpin, hc.cleared (.inl rfl)]; rfl
      | done => rw [hpin, hc.cleared (.inr rfl)]; rfl
  · rw [(hI.closed_of_committing hp).pins b, CommitPc.pinned,
      (hI.nodup.sublist (List.drop_sublist tail _)).count]
  · rw [(hI.closed_of_committing hp).pins b, CommitPc.pinned, List.count_nil]

/-- A lone call that logs one block and ends finds itself committing, with nobody admitted. -/
theorem group_commit_single :
    ∃ s : Sys (Fin 1), Machine.run next (Sys.init (Fin 1) 2 nlog rootDev)
        [.beginOp 0, .logWrite 0 50, .endOp 0] = some s ∧
      s.log.committing = true ∧ s.log.outstanding = 0 := by
  obtain ⟨s, hs, hc⟩ := Option.map_eq_some_iff.mp
    (show (Machine.run next (Sys.init (Fin 1) 2 nlog rootDev)
      [.beginOp 0, .logWrite 0 50, .endOp 0]).map (·.log.committing) = some true by decide)
  exact ⟨s, hs, hc, ((group_commit ⟨_, hs⟩).1 hc).1⟩

/-! ## The capacity of the log -/

/-- Each call passes at most `n` distinct blocks to `log_write`. -/
def Budget (n : Nat) (s : Sys P) : Act P → Prop
  | .logWrite p b => (insert b (s.wrote p)).card ≤ n
  | _ => True

instance (n : Nat) (s : Sys P) : (a : Act P) → Decidable (Budget n s a)
  | .logWrite p b => inferInstanceAs (Decidable ((insert b (s.wrote p)).card ≤ n))
  | .beginOp _ | .wake _ | .endOp _ | .commit _ => inferInstanceAs (Decidable True)

/-- `log_write` is not called once `LOGSIZE - 1` distinct blocks have been logged since the last
commit. -/
def Room (s : Sys P) : Act P → Prop
  | .logWrite _ _ => s.logged.card < logSize - 1
  | _ => True

theorem Step.size {a : Act P} (hs : Step s a t) : t.log.size = s.log.size := by
  cases hs with
  | enter hp hl => obtain ⟨-, -, rfl⟩ := Log.beginOp_eq_some hl; rfl
  | logWrite hp hl =>
    obtain ⟨-, -, -, ⟨-, rfl, -⟩ | ⟨-, rfl, -⟩⟩ := Log.logWrite_eq_ok hl <;> rfl
  | endLast hp hl => exact Log.endOp_size hl
  | endOther hp hl => exact Log.endOp_size hl
  | @commit p pc hp =>
    cases pc with
    | install tail => rw [Sys.commitStep]; split <;> rfl
    | start | writeLog | writeHead | clear | eraseHead | done => rfl
  | sleep | wake | logPanic | endPanic => rfl

omit [DecidableEq P] in
theorem Sys.Inv.room_iff (h : s.Inv) (hsize : s.log.size = nlog) {p : P}
    (hp : s.phase p = .running) (b : Nat) :
    Room s (.logWrite p b) ↔ s.log.logWrite b ≠ .error .tooBigATransaction := by
  have hcard : s.logged.card = s.log.lh.length := by
    rw [(h.open_of_running hp).logged, List.toFinset_card_of_nodup h.nodup]
  rw [Ne, Log.logWrite_tooBig_iff, Room, hcard, hsize]
  simp only [logSize, nlog, maxOpBlocks]
  omega

theorem Step.panic {a : Act P} (hs : Step s a t) (h : s.Inv)
    (hsize : s.log.size = nlog) (hnone : s.panic = none) :
    (t.panic = none ∧ Room s a) ∨ (t.panic = some .tooBigATransaction ∧ ¬ Room s a) := by
  cases hs with
  | logWrite hp hl => exact .inl ⟨hnone, (h.room_iff hsize hp _).mpr (by simp [hl])⟩
  | logPanic hp hl =>
    obtain rfl := h.logWrite_error hp hl
    exact .inr ⟨rfl, (h.room_iff hsize hp _).not.mpr (by simp [hl])⟩
  | endPanic hp hl =>
    rw [h.endOp_eq hp] at hl
    split at hl <;> cases hl
  | @commit p pc hp =>
    refine .inl ⟨?_, trivial⟩
    cases pc with
    | install tail => rw [Sys.commitStep]; split <;> exact hnone
    | start | writeLog | writeHead | clear | eraseHead | done => exact hnone
  | enter | sleep | wake | endLast | endOther => exact .inl ⟨hnone, trivial⟩

/-- **Exactly the runs that keep a slot free avoid the panic.**  On the log `mkfs` lays out, `log_write`
panics if and only if it is called when `LOGSIZE - 1` distinct blocks have already been logged since
the last commit. -/
theorem no_tooBig_iff {start dev : Nat} {as : List (Act P)} {s : Sys P}
    (h : Machine.run next (Sys.init P start nlog dev) as = some s) :
    s.panic ≠ some .tooBigATransaction ↔
      Machine.Along next Room (Sys.init P start nlog dev) as := by
  -- from any state of a run that has not panicked yet
  suffices hgen : ∀ s₀ : Sys P, s₀.Inv → s₀.log.size = nlog → s₀.panic = none →
      Machine.run next s₀ as = some s →
      (s.panic ≠ some .tooBigATransaction ↔ Machine.Along next Room s₀ as) from
    hgen _ (Sys.Inv.init start nlog dev) rfl rfl h
  clear h
  induction as with
  | nil =>
    intro s₀ _ _ hp h
    rw [Machine.run, Option.some_inj] at h
    subst h
    simp [Machine.Along, hp]
  | cons a as ih =>
    intro s₀ hI hsize hp h
    obtain ⟨m, hm, hrest⟩ := Machine.run_cons_eq_some.mp h
    have hstep := (step_of_next hm).2
    rw [Machine.along_cons hm]
    rcases hstep.panic hI hsize hp with ⟨hpm, hroom⟩ | ⟨hpm, hroom⟩
    · rw [ih m (hI.step hstep) (hstep.size.trans hsize) hpm hrest]
      exact (and_iff_right hroom).symm
    · -- a panicked machine takes no further step
      have hlast : as = [] := by
        cases as with
        | nil => rfl
        | cons b bs =>
          obtain ⟨m', hm', -⟩ := Machine.run_cons_eq_some.mp hrest
          simp [next, hpm] at hm'
      subst hlast
      rw [Machine.run, Option.some_inj] at hrest
      subst hrest
      exact iff_of_false (fun hne => hne hpm) fun hal => hroom hal.1

/-! ### The reservation does not fit the log -/

/-- What `begin_op`'s reservation is meant to give: on the log `mkfs` lays out, calls that keep to
`MAXOPBLOCKS` blocks each never overflow the log. -/
def AdmissionSound : Prop :=
  ∀ (P : Type) [DecidableEq P] (start dev : Nat) (as : List (Act P)) (s : Sys P),
    Machine.Along next (Budget maxOpBlocks) (Sys.init P start nlog dev) as →
    Machine.run next (Sys.init P start nlog dev) as = some s →
    s.panic ≠ some .tooBigATransaction

/-- Three calls are admitted together and each logs its ten blocks. -/
def fullLog : List (Act (Fin 3)) :=
  [.beginOp 0, .beginOp 1, .beginOp 2] ++
    (List.range 30).map fun i => .logWrite (Fin.ofNat 3 (i / 10)) (100 + i)

instance (s : Sys P) : (a : Act P) → Decidable (Room s a)
  | .logWrite _ _ => inferInstanceAs (Decidable (s.logged.card < logSize - 1))
  | .beginOp _ | .wake _ | .endOp _ | .commit _ => inferInstanceAs (Decidable True)

/-- Without its last block the same run is fine. -/
theorem fullLog_dropLast_ok :
    ∃ s, Machine.run next (Sys.init (Fin 3) 2 nlog rootDev) fullLog.dropLast = some s ∧
      s.panic ≠ some .tooBigATransaction := by
  obtain ⟨s, hs⟩ := Option.isSome_iff_exists.mp
    (show (Machine.run next (Sys.init (Fin 3) 2 nlog rootDev) fullLog.dropLast).isSome by
      decide +kernel)
  exact ⟨s, hs, (no_tooBig_iff hs).mpr (by decide +kernel)⟩

/-- The thirtieth block panics. -/
theorem not_admissionSound : ¬ AdmissionSound := by
  intro h
  have hp : (Machine.run next (Sys.init (Fin 3) 2 nlog rootDev) fullLog).map Sys.panic =
      some (some .tooBigATransaction) := by decide +kernel
  obtain ⟨s, hs, hp⟩ := Option.map_eq_some_iff.mp hp
  exact h (Fin 3) 2 rootDev fullLog s (by decide +kernel) hs hp

end GroupCommit

end Xv6
