import Xv6.Cpu.Threads
import Mathlib.Data.List.Nodup

/-!
# Locks and interrupts follow the threads

A lock is acquired by one thread and released by another: `scheduler` acquires `p->lock`, the process
releases it, and the other way round when it gives up the CPU.  `Fits` says that the statements that
a thread still has to execute go with the locks that its CPU holds, `Fine` that the counters of the
CPU do, and `Parked` and `Waits` what is true of a thread that is not on a CPU.
-/

namespace Xv6.Cpus

open Function (update update_of_ne update_self update_eq_self)
open Machine

/-! ## What a thread has to do goes with the locks -/

/-- The statements of thread `self` go with its state, the `push_off`s that are not undone, and the
locks that the CPU holds. -/
def Fits (self : Option Nat) : ProcState → Nat → List Lock → List Instr → Prop
  | st, _, _, [] => st = .running
  | st, offs, H, .pushOff :: k =>
    st = .running ∧ (self = none → k = []) ∧ Fits self st (offs + 1) H k
  | st, offs, H, .popOff :: k =>
    st = .running ∧ (self = none → k = []) ∧ 0 < offs ∧ Fits self st (offs - 1) H k
  | st, offs, H, .acquire l :: k => st = .running ∧ l ∉ H ∧ Fits self st offs (l :: H) k
  | st, offs, H, .release l :: k =>
    (st ≠ .running → ∃ p, self = some p ∧ l ≠ .proc p ∧ .proc p ∈ H) ∧ (self = none → k = []) ∧
      l ∈ H ∧ Fits self st offs (H.erase l) k
  | st, offs, H, .setState st' :: k =>
    st = .running ∧ (st' = .runnable ∨ st' = .sleeping ∨ st' = .zombie) ∧
      (∃ p, self = some p ∧ .proc p ∈ H) ∧ Fits self st' offs H k
  | st, offs, H, .sched :: k =>
    st ≠ .running ∧ offs = 0 ∧ ∃ p, self = some p ∧ H = [.proc p] ∧
      (st = .zombie ∨ k.head? = some (.release (.proc p)) ∧ Fits self .running 0 [.proc p] k)
  | st, offs, H, .swtch p :: k =>
    self = none ∧ st = .running ∧ offs = 0 ∧ H = [.proc p] ∧ k = [.release (.proc p)]

variable {p : Nat} {k : List Instr}

theorem Fits.mem_of_ne {p offs : Nat} {st : ProcState} {H : List Lock}
    (h : Fits (some p) st offs H k) (hst : st ≠ .running) : .proc p ∈ H := by
  cases k with
  | nil => exact absurd h hst
  | cons i k =>
    cases i with
    | release l =>
      obtain ⟨q, hq, -, hmem⟩ := h.1 hst
      rwa [Option.some.inj hq]
    | sched =>
      obtain ⟨q, hq, hH, -⟩ := h.2.2
      rw [hH, Option.some.inj hq]
      exact List.mem_singleton_self _
    | swtch q => exact absurd h.1 (by simp)
    | pushOff => exact absurd h.1 hst
    | popOff => exact absurd h.1 hst
    | acquire l => exact absurd h.1 hst
    | setState st' => exact absurd h.1 hst

def Pushes : List Instr → Prop
  | .pushOff :: _ | .acquire _ :: _ => True
  | _ => False

def Suspended (self : Option Nat) (y : Pc × List Instr) : Prop :=
  (y.1 = .idle ∨ y.1 = .begun true ∧ Pushes y.2) ∧ Fits self .running 0 [] y.2

/-- How much more `noff` is than the locks and the `push_off`s of the caller. -/
def Pc.extra : Pc → Nat
  | .idle | .begun _ => 0
  | .spin | .popping => 1

def Pc.Fine (x : Cpu) (todo : List Instr) : Pc → Prop
  | .idle => True
  | .begun old => x.ie = old ∧ Pushes todo
  | .spin => ∃ l k, todo = .acquire l :: k
  | .popping => x.proc = none → todo = []

/-- A thread in state `st` is on a CPU. -/
structure Fine (st : ProcState) (x : Cpu) (t : Thread) : Prop where
  noff : x.noff = x.held.length + t.offs + t.pc.extra
  off : 0 < x.noff → x.ie = false
  fits : Fits x.proc st t.offs x.held t.todo
  pc : t.pc.Fine x t.todo
  levels : ∀ y ∈ t.levels, Suspended x.proc y

/-- The thread of process `p` is not on a CPU, and can be. -/
structure Parked (p : Nat) (t : Thread) : Prop where
  pc : t.pc = .idle
  offs : t.offs = 0
  head : t.todo.head? = some (.release (.proc p))
  fits : Fits (some p) .running 0 [.proc p] t.todo
  levels : ∀ y ∈ t.levels, Suspended (some p) y
  saved : ∀ b, t.saved = some b → b = t.began

/-- The scheduler waits for process `p` to give up the CPU. -/
structure Waits (p : Nat) (t : Thread) : Prop where
  pc : t.pc = .idle
  offs : t.offs = 0
  todo : t.todo = [.release (.proc p)]
  levels : ∀ y ∈ t.levels, Suspended none y

def State.status (s : State) (c : Nat) : ProcState :=
  match (s.cpu c).proc with
  | some p => s.state p
  | none => .running

/-- A scheduler has called `acquire`, and will look at the process when it has the lock. -/
def Chosen (t : Thread) : Prop :=
  match t.pc, t.todo with
  | .idle, .swtch _ :: _ => True
  | .spin, .acquire _ :: .swtch _ :: _ => True
  | _, _ => False

structure OnCpu (s : State) (c : Nat) : Prop where
  fine : Fine (s.status c) (s.cpu c) (s.current c)
  nodup : (s.cpu c).held.Nodup
  away : ∀ p, (s.cpu c).proc = some p → Waits p (s.scheduler c)
  intena : ∀ p, (s.cpu c).proc = some p → 0 < (s.cpu c).noff →
    (s.cpu c).intena = (s.thread p).began
  chosen : (s.cpu c).proc = none → Chosen (s.scheduler c) → (s.cpu c).intena = (s.scheduler c).began

structure Inv (s : State) : Prop where
  cpu : ∀ c, OnCpu s c
  locks : ∀ l c, s.lock l = some c ↔ l ∈ (s.cpu c).held
  unique : ∀ c c' p, (s.cpu c).proc = some p → (s.cpu c').proc = some p → c = c'
  parked : ∀ p, (∀ c, (s.cpu c).proc ≠ some p) →
    s.state p = .used ∨ s.state p = .runnable ∨ s.state p = .sleeping → Parked p (s.thread p)
  found : ∀ p q, s.found p = some q → s.state q = .used
  finder : ∀ p p' q, s.found p = some q → s.found p' = some q → p = p'

section Steps

variable {s u : State} {c : Nat}

theorem State.current_of_proc (h : (s.cpu c).proc = some p) : s.current c = s.thread p := by
  rw [State.current, h]

theorem State.current_of_none (h : (s.cpu c).proc = none) : s.current c = s.scheduler c := by
  rw [State.current, h]

theorem State.status_of_proc (h : (s.cpu c).proc = some p) : s.status c = s.state p := by
  rw [State.status, h]

theorem State.status_of_none (h : (s.cpu c).proc = none) : s.status c = .running := by
  rw [State.status, h]

theorem State.setCurrent_of_proc (h : (s.cpu c).proc = some p) (t : Thread) :
    s.setCurrent c t = { s with thread := update s.thread p t } := by
  rw [State.setCurrent, h]

theorem State.setCurrent_of_none (h : (s.cpu c).proc = none) (t : Thread) :
    s.setCurrent c t = { s with scheduler := update s.scheduler c t } := by
  rw [State.setCurrent, h]

theorem State.setCpu_proc (s : State) (c : Nat) (x : Cpu) : ((s.setCpu c x).cpu c).proc = x.proc :=
  congrArg Cpu.proc (update_self ..)

theorem OnCpu.congr (h : OnCpu s c) (hcpu : u.cpu c = s.cpu c)
    (hsched : u.scheduler c = s.scheduler c)
    (hproc : ∀ p, (s.cpu c).proc = some p → u.thread p = s.thread p ∧ u.state p = s.state p) :
    OnCpu u c := by
  have hcurrent : u.current c = s.current c := by
    cases hp : (s.cpu c).proc with
    | none => rw [State.current_of_none hp, State.current_of_none (hcpu ▸ hp), hsched]
    | some p => rw [State.current_of_proc hp, State.current_of_proc (hcpu ▸ hp), (hproc p hp).1]
  have hstatus : u.status c = s.status c := by
    cases hp : (s.cpu c).proc with
    | none => rw [State.status_of_none hp, State.status_of_none (hcpu ▸ hp)]
    | some p => rw [State.status_of_proc hp, State.status_of_proc (hcpu ▸ hp), (hproc p hp).2]
  refine ⟨?_, ?_, fun p hp => ?_, fun p hp hpos => ?_, fun hp => ?_⟩
  · rw [hcurrent, hstatus, hcpu]
    exact h.fine
  · rw [hcpu]
    exact h.nodup
  · rw [hsched]
    exact h.away p (hcpu ▸ hp)
  · rw [hcpu] at hp hpos ⊢
    rw [(hproc p hp).1]
    exact h.intena p hp hpos
  · rw [hcpu] at hp ⊢
    rw [hsched]
    exact h.chosen hp

variable {x : Cpu} {t t' : Thread} {st : ProcState}

theorem OnCpu.of_proc (hx : u.cpu c = x)
    (ht : u.thread p = t) (hst : u.state p = st) (hp : x.proc = some p) (hfine : Fine st x t)
    (hnodup : x.held.Nodup) (hwaits : Waits p (u.scheduler c))
    (hintena : 0 < x.noff → x.intena = t.began) : OnCpu u c := by
  subst hx ht hst
  refine ⟨?_, hnodup, fun q hq => ?_, fun q hq => ?_, fun hnone => ?_⟩
  · rw [State.status_of_proc hp, State.current_of_proc hp]
    exact hfine
  · rwa [← Option.some.inj (hp.symm.trans hq)]
  · rwa [← Option.some.inj (hp.symm.trans hq)]
  · rw [hp] at hnone
    cases hnone

theorem OnCpu.of_none (hx : u.cpu c = x) (ht : u.scheduler c = t)
    (hp : x.proc = none) (hfine : Fine .running x t) (hnodup : x.held.Nodup)
    (hchosen : Chosen t → x.intena = t.began) : OnCpu u c := by
  subst hx ht
  refine ⟨?_, hnodup, fun q hq => ?_, fun q hq => ?_, fun _ => hchosen⟩
  · rw [State.status_of_none hp, State.current_of_none hp]
    exact hfine
  · rw [hp] at hq
    cases hq
  · rw [hp] at hq
    cases hq

theorem Inv.mem_held (h : Inv s) (hp : (s.cpu c).proc = some p)
    (hst : s.state p ≠ .running) : .proc p ∈ (s.cpu c).held := by
  have hfits := (h.cpu c).fine.fits
  rw [hp, State.status_of_proc hp] at hfits
  exact hfits.mem_of_ne hst

theorem Inv.off_cpu {q : Nat} (h : Inv s) (hheld : .proc q ∈ (s.cpu c).held)
    (hq : s.state q ≠ .running) (hst : s.status c = .running) (c' : Nat) :
    (s.cpu c').proc ≠ some q := by
  intro hc'
  have hmem := h.mem_held hc' hq
  have heq : c = c' := by
    have h₁ := (h.locks _ _).mpr hheld
    have h₂ := (h.locks _ _).mpr hmem
    exact Option.some.inj (h₁.symm.trans h₂)
  subst heq
  rw [State.status_of_proc hc'] at hst
  exact hq hst

/-! ## Steps of one thread -/

theorem Inv.local {lock : Lock → Option Nat} (h : Inv s)
    (hproc : x.proc = (s.cpu c).proc) (hfine : Fine (s.status c) x t)
    (hlocks : ∀ l c', lock l = some c' ↔ l ∈ (update s.cpu c x c').held)
    (hnodup : x.held.Nodup) (hintena : x.proc ≠ none → 0 < x.noff → x.intena = t.began)
    (hchosen : x.proc = none → Chosen t → x.intena = t.began) :
    Inv (({ s with lock := lock }.setCpu c x).setCurrent c t) := by
  have hsame : ∀ c' p, (update s.cpu c x c').proc = some p ↔ (s.cpu c').proc = some p := by
    intro c' p
    by_cases hc : c' = c
    · rw [hc, update_self, hproc]
    · rw [update_of_ne hc]
  cases hp : x.proc with
  | none =>
    have hu : ({ s with lock := lock }.setCpu c x).setCurrent c t =
        { s with
          lock := lock, cpu := update s.cpu c x
          scheduler := update s.scheduler c t } :=
      State.setCurrent_of_none ((State.setCpu_proc ..).trans hp) t
    rw [hu]
    refine ⟨fun c' => ?_, hlocks, fun c₁ c₂ p h₁ h₂ => ?_, fun p hp' => ?_, h.found, h.finder⟩
    · by_cases hc : c' = c
      · subst hc
        rw [State.status_of_none (hproc ▸ hp)] at hfine
        exact .of_none (update_self ..) (update_self ..) hp hfine hnodup (hchosen hp)
      · exact (h.cpu c').congr (update_of_ne hc ..) (update_of_ne hc ..)
          fun p _ => ⟨rfl, rfl⟩
    · exact h.unique c₁ c₂ p ((hsame c₁ p).mp h₁) ((hsame c₂ p).mp h₂)
    · exact h.parked p fun c' hc' => hp' c' ((hsame c' p).mpr hc')
  | some p =>
    have hpc : (s.cpu c).proc = some p := hproc ▸ hp
    have hu : ({ s with lock := lock }.setCpu c x).setCurrent c t =
        { s with
          lock := lock, cpu := update s.cpu c x
          thread := update s.thread p t } :=
      State.setCurrent_of_proc ((State.setCpu_proc ..).trans hp) t
    rw [hu]
    refine ⟨fun c' => ?_, hlocks, fun c₁ c₂ p h₁ h₂ => ?_, fun q hq => ?_, h.found, h.finder⟩
    · by_cases hc : c' = c
      · subst hc
        rw [State.status_of_proc hpc] at hfine
        exact .of_proc (update_self ..) (update_self ..) rfl hp hfine hnodup
          ((h.cpu c').away p hpc) (hintena (by simp [hp]))
      · refine (h.cpu c').congr (update_of_ne hc ..) rfl fun q hq => ⟨?_, rfl⟩
        refine update_of_ne ?_ ..
        rintro rfl
        exact hc (h.unique c' c q hq hpc)
    · exact h.unique c₁ c₂ p ((hsame c₁ p).mp h₁) ((hsame c₂ p).mp h₂)
    · have hne : q ≠ p := by
        rintro rfl
        exact hq c ((hsame c q).mpr hpc)
      dsimp only
      rw [update_of_ne hne]
      exact h.parked q fun c' hc' => hq c' ((hsame c' q).mpr hc')

theorem Inv.locks_same (h : Inv s) (hheld : x.held = (s.cpu c).held) (l : Lock) (c' : Nat) :
    s.lock l = some c' ↔ l ∈ (update s.cpu c x c').held := by
  rw [h.locks]
  by_cases hc : c' = c
  · rw [hc, update_self, hheld]
  · rw [update_of_ne hc]

theorem Inv.localThread (h : Inv s) (hfine : Fine (s.status c) (s.cpu c) t)
    (hintena : (s.cpu c).proc ≠ none → 0 < (s.cpu c).noff → (s.cpu c).intena = t.began)
    (hchosen : (s.cpu c).proc = none → Chosen t → (s.cpu c).intena = t.began) :
    Inv (s.setCurrent c t) := by
  have hu := h.local rfl hfine (h.locks_same rfl) (h.cpu c).nodup hintena hchosen
  rwa [State.setCpu, update_eq_self] at hu

theorem State.setCpu_current (hx : x.proc = (s.cpu c).proc) :
    (s.setCpu c x).setCurrent c (s.current c) = s.setCpu c x := by
  cases hp : (s.cpu c).proc with
  | none =>
    rw [State.setCurrent_of_none ((State.setCpu_proc ..).trans (hx.trans hp)),
      State.current_of_none hp]
    show { s.setCpu c x with scheduler := update s.scheduler c (s.scheduler c) } = _
    rw [update_eq_self]
    rfl
  | some p =>
    rw [State.setCurrent_of_proc ((State.setCpu_proc ..).trans (hx.trans hp)),
      State.current_of_proc hp]
    show { s.setCpu c x with thread := update s.thread p (s.thread p) } = _
    rw [update_eq_self]
    rfl

theorem Inv.intena_current (h : Inv s) (hp : (s.cpu c).proc ≠ none) (hpos : 0 < (s.cpu c).noff) :
    (s.cpu c).intena = (s.current c).began := by
  obtain ⟨p, hp⟩ := Option.ne_none_iff_exists'.mp hp
  rw [State.current_of_proc hp]
  exact (h.cpu c).intena p hp hpos

theorem Inv.chosen_current (h : Inv s) (hp : (s.cpu c).proc = none) (ht : Chosen (s.current c)) :
    (s.cpu c).intena = (s.current c).began := by
  rw [State.current_of_none hp] at ht ⊢
  exact (h.cpu c).chosen hp ht

theorem Fine.closed (h : Fine st x t) (h0 : x.noff = 0) :
    x.held = [] ∧ t.offs = 0 ∧ t.pc.extra = 0 := by
  have := h.noff
  refine ⟨List.length_eq_zero_iff.mp ?_, ?_, ?_⟩ <;> omega

theorem Fine.noff_nonneg (h : Fine st x t) : 0 ≤ x.noff := by
  have := h.noff
  omega

theorem Fine.noff_of_ie (h : Fine st x t)
    (hie : x.ie = true) : x.noff = 0 := by
  have := h.noff_nonneg
  by_contra hne
  rw [h.off (by omega)] at hie
  cases hie

theorem Inv.status_of_nil (h : Inv s) (hheld : (s.cpu c).held = []) : s.status c = .running := by
  cases hp : (s.cpu c).proc with
  | none => exact State.status_of_none hp
  | some p =>
    rw [State.status_of_proc hp]
    by_contra hst
    have := h.mem_held hp hst
    rw [hheld] at this
    cases this

theorem Inv.setIe (h : Inv s) {b : Bool} (hpc : (s.current c).pc = .idle)
    (h0 : (s.cpu c).noff = 0) : Inv (s.setCpu c { s.cpu c with ie := b }) := by
  have hfine := (h.cpu c).fine
  rw [← State.setCpu_current (s := s) (c := c) (x := { s.cpu c with ie := b }) rfl]
  exact h.local rfl
    ⟨hfine.noff, fun hpos => by dsimp only at hpos; omega, hfine.fits, by rw [hpc]; trivial,
      hfine.levels⟩
    (h.locks_same rfl) (h.cpu c).nodup (fun hp => h.intena_current hp) fun hp => h.chosen_current hp

theorem Inv.trap (h : Inv s) (hie : (s.cpu c).ie = true) :
    Inv ((s.setCpu c { s.cpu c with ie := false }).setCurrent c { s.current c with
      pc := .idle, todo := []
      levels := ((s.current c).pc, (s.current c).todo) :: (s.current c).levels }) := by
  have hfine := (h.cpu c).fine
  have h0 := hfine.noff_of_ie hie
  obtain ⟨hheld, hoffs, hextra⟩ := hfine.closed h0
  have hst := h.status_of_nil hheld
  have hfits := hfine.fits
  rw [hst, hoffs, hheld] at hfits
  refine h.local rfl ⟨?_, fun _ => rfl, hst, trivial, ?_⟩ (h.locks_same rfl) (h.cpu c).nodup
    (fun _ hpos => ?_) fun _ ht => absurd ht id
  · have := hfine.noff
    rw [hextra] at this
    exact this
  · intro y hy
    rcases List.mem_cons.mp hy with rfl | hy
    · refine ⟨?_, hfits⟩
      have hpc := hfine.pc
      cases hcase : (s.current c).pc with
      | idle => exact .inl rfl
      | begun old =>
        rw [hcase] at hpc
        refine .inr ⟨?_, hpc.2⟩
        rw [← hpc.1, hie]
      | spin =>
        rw [hcase] at hextra
        cases hextra
      | popping =>
        rw [hcase] at hextra
        cases hextra
    · exact hfine.levels y hy
  · dsimp only at hpos
    omega

theorem Inv.sret (h : Inv s) {pc : Pc} {levels : List (Pc × List Instr)}
    (hlevels : (s.current c).levels = (pc, k) :: levels) (h0 : (s.cpu c).noff = 0) :
    Inv ((s.setCpu c { s.cpu c with ie := true }).setCurrent c { s.current c with
      pc := pc, todo := k, levels := levels }) := by
  have hfine := (h.cpu c).fine
  obtain ⟨hheld, hoffs, -⟩ := hfine.closed h0
  obtain ⟨hpc, hfits⟩ := hfine.levels (pc, k) (by rw [hlevels]; exact List.mem_cons_self)
  have hextra : pc.extra = 0 := by
    rcases hpc with hpc | ⟨hpc, -⟩
    · rw [show pc = .idle from hpc]
      rfl
    · rw [show pc = .begun true from hpc]
      rfl
  have hfits' : Fits (s.cpu c).proc (s.status c) (s.current c).offs (s.cpu c).held k := by
    rw [h.status_of_nil hheld, hoffs, hheld]
    exact hfits
  refine h.local rfl ⟨?_, fun hpos => ?_, hfits', ?_, fun y hy => ?_⟩ (h.locks_same rfl)
    (h.cpu c).nodup (fun _ hpos => ?_) fun hp ht => ?_
  · have := hfine.noff
    dsimp only
    rw [hextra]
    omega
  · dsimp only at hpos
    omega
  · rcases hpc with hpc | ⟨hpc, hpush⟩
    · rw [show pc = .idle from hpc]
      trivial
    · rw [show pc = .begun true from hpc]
      exact ⟨rfl, hpush⟩
  · exact hfine.levels y (by rw [hlevels]; exact List.mem_cons_of_mem _ hy)
  · dsimp only at hpos
    omega
  · -- the scheduler has no lock, so it has not chosen a process
    exfalso
    rw [Chosen] at ht
    split at ht
    · rename_i hk
      dsimp only at hk
      subst hk
      exact absurd hfits.2.2.2.1 (by simp)
    · rename_i hspin hk
      dsimp only at hspin
      rw [hspin] at hextra
      cases hextra
    · exact ht

/-! ### Calls -/

theorem fits_code {f : Call} (hf : f.Allowed x t)
    (h : Fine st x t) (hst : st = .running) :
    Fits x.proc st t.offs x.held (f.code (x.proc.getD 0)) := by
  subst hst
  have hclosed : x.noff = 0 → x.held = [] ∧ t.offs = 0 := fun h0 =>
    ⟨(h.closed h0).1, (h.closed h0).2.1⟩
  cases f with
  | pushOff => exact ⟨rfl, fun _ => rfl, rfl⟩
  | popOff => exact ⟨rfl, fun _ => rfl, hf, rfl⟩
  | acquire l => exact ⟨rfl, hf.1, rfl⟩
  | release l => exact ⟨fun hne => absurd rfl hne, fun _ => rfl, hf, rfl⟩
  | yield =>
    obtain ⟨hp, h0⟩ := hf
    obtain ⟨p, hp⟩ := Option.ne_none_iff_exists'.mp hp
    obtain ⟨hheld, hoffs⟩ := hclosed h0
    rw [hp, hheld, hoffs]
    refine ⟨rfl, by simp, rfl, .inl rfl, ⟨p, rfl, by simp⟩, by simp, rfl, p, rfl, rfl, .inr ⟨rfl, ?_⟩⟩
    exact ⟨fun hne => absurd rfl hne, by simp, by simp, rfl⟩
  | sleep lk =>
    obtain ⟨⟨p, hp, hlk⟩, hheld, hoffs⟩ := hf
    rw [Option.mem_def] at hp
    rw [hp, hheld, hoffs]
    refine ⟨rfl, by simpa using Ne.symm hlk, fun hne => absurd rfl hne, by simp, by simp, rfl,
      .inr (.inl rfl), ⟨p, rfl, ?_⟩, by simp, rfl, p, rfl, ?_, .inr ⟨rfl, ?_⟩⟩
    · simp [Ne.symm hlk]
    · simp [Ne.symm hlk]
    · exact ⟨fun hne => absurd rfl hne, by simp, by simp, rfl, by simp, rfl⟩
  | exit =>
    obtain ⟨hp, hheld, hoffs⟩ := hf
    obtain ⟨p, hp⟩ := Option.ne_none_iff_exists'.mp hp
    rw [hp, hheld, hoffs]
    refine ⟨rfl, by simp, rfl, .inr (.inr rfl), ⟨p, rfl, by simp⟩,
      fun _ => ⟨p, rfl, by simp, by simp⟩, by simp, by simp, by simp, rfl, p, rfl, ?_, .inl rfl⟩
    simp
  | schedule q =>
    obtain ⟨hp, -, h0⟩ := hf
    obtain ⟨hheld, hoffs⟩ := hclosed h0
    rw [hp, hheld, hoffs]
    exact ⟨rfl, by simp, rfl, rfl, rfl, rfl, rfl⟩

section

variable (h : Inv s)
include h

theorem Inv.call {f : Call} (hpc : (s.current c).pc = .idle)
    (htodo : (s.current c).todo = []) (hf : f.Allowed (s.cpu c) (s.current c)) :
    Inv (s.setCurrent c { s.current c with todo := f.code ((s.cpu c).proc.getD 0) }) := by
  have hfine := (h.cpu c).fine
  have hst : s.status c = .running := by
    have := hfine.fits
    rwa [htodo] at this
  have hcode := fits_code hf hfine hst
  refine h.localThread ⟨hfine.noff, hfine.off, hcode, ?_, hfine.levels⟩
    (fun hp => h.intena_current hp) fun _ ht => ?_
  · rw [hpc]
    trivial
  · rw [Chosen, hpc] at ht
    cases f <;> exact absurd ht id

/-! ### `push_off` and `pop_off` -/

theorem Inv.get (hpc : (s.current c).pc = .idle) (hpush : Pushes (s.current c).todo) :
    Inv (s.setCurrent c { s.current c with pc := .begun (s.cpu c).ie }) := by
  have hfine := (h.cpu c).fine
  refine h.localThread ⟨?_, hfine.off, hfine.fits, ⟨rfl, hpush⟩, hfine.levels⟩
    (fun hp => h.intena_current hp) fun _ ht => absurd ht id
  have := hfine.noff
  rw [hpc] at this
  exact this

theorem Inv.intena_pushOff {old : Bool} (hpc : (s.current c).pc = .begun old)
    (hp : (s.cpu c).proc ≠ none ∨ (s.cpu c).noff = 0) : ((s.cpu c).pushOff old).intena =
      if (s.cpu c).noff = 0 then (s.cpu c).ie else (s.current c).began := by
  have hfine := (h.cpu c).fine
  have hold := hfine.pc
  rw [hpc] at hold
  show (if (s.cpu c).noff = 0 then old else (s.cpu c).intena) = _
  split
  · exact hold.1.symm
  · have := hfine.noff_nonneg
    rcases hp with hp | h0
    · exact h.intena_current hp (by omega)
    · exact absurd h0 ‹_›

theorem Inv.pushOff {old : Bool}
    (hpc : (s.current c).pc = .begun old) (htodo : (s.current c).todo = .pushOff :: k) :
    Inv ((s.setCpu c ((s.cpu c).pushOff old)).setCurrent c { s.current c with
      pc := .idle, todo := k, offs := (s.current c).offs + 1
      began := if (s.cpu c).noff = 0 then (s.cpu c).ie else (s.current c).began }) := by
  have hfine := (h.cpu c).fine
  have hfits := hfine.fits
  rw [htodo] at hfits
  refine h.local rfl ⟨?_, fun _ => rfl, hfits.2.2, trivial, hfine.levels⟩ (h.locks_same rfl)
    (h.cpu c).nodup (fun hp _ => h.intena_pushOff hpc (.inl hp)) fun hp ht => ?_
  · have := hfine.noff
    rw [hpc] at this
    simp only [Cpu.pushOff, Pc.extra] at this ⊢
    omega
  · rw [Chosen, hfits.2.1 hp] at ht
    exact absurd ht id

theorem Inv.acquire {old : Bool} {l : Lock}
    (hpc : (s.current c).pc = .begun old) (htodo : (s.current c).todo = .acquire l :: k) :
    Inv ((s.setCpu c ((s.cpu c).pushOff old)).setCurrent c { s.current c with
      pc := .spin
      began := if (s.cpu c).noff = 0 then (s.cpu c).ie else (s.current c).began }) := by
  have hfine := (h.cpu c).fine
  have hfits := hfine.fits
  have hnoff := hfine.noff
  rw [hpc] at hnoff
  refine h.local rfl ⟨?_, fun _ => rfl, hfits, ⟨l, k, htodo⟩, hfine.levels⟩ (h.locks_same rfl)
    (h.cpu c).nodup (fun hp _ => h.intena_pushOff hpc (.inl hp)) fun hp ht => ?_
  · simp only [Cpu.pushOff, Pc.extra] at hnoff ⊢
    omega
  · -- the scheduler had no lock
    refine h.intena_pushOff hpc (.inr ?_)
    rw [Chosen, htodo] at ht
    split at ht
    · rename_i hk
      cases hk
    · rename_i q k' _ hk
      cases hk
      rw [htodo] at hfits
      obtain ⟨-, -, -, -, hoffs, hH, -⟩ := hfits
      have hnil : (s.cpu c).held = [] := (List.cons.inj hH).2
      rw [hnil, hoffs] at hnoff
      simpa [Pc.extra] using hnoff
    · exact absurd ht id

theorem Inv.take {l : Lock} (hpc : (s.current c).pc = .spin)
    (htodo : (s.current c).todo = .acquire l :: k) (hl : s.lock l = none) :
    Inv (({ s with lock := update s.lock l (some c) }.setCpu c
      { s.cpu c with held := l :: (s.cpu c).held }).setCurrent c { s.current c with
        pc := .idle, todo := k }) := by
  have hfine := (h.cpu c).fine
  have hfits := hfine.fits
  rw [htodo] at hfits
  have hfree : ∀ c', l ∉ (s.cpu c').held := fun c' hmem => by
    have := (h.locks l c').mpr hmem
    rw [hl] at this
    cases this
  refine h.local rfl ⟨?_, hfine.off, hfits.2.2, trivial, hfine.levels⟩ (fun l' c' => ?_)
    (List.nodup_cons.mpr ⟨hfree c, (h.cpu c).nodup⟩) (fun hp => h.intena_current hp) fun hp ht => ?_
  · have := hfine.noff
    rw [hpc] at this
    simp only [Pc.extra, List.length_cons] at this ⊢
    push_cast
    omega
  · by_cases hl' : l' = l
    · rw [hl', update_self, Option.some_inj]
      by_cases hc : c' = c
      · rw [hc, update_self]
        exact iff_of_true rfl List.mem_cons_self
      · rw [update_of_ne hc]
        exact iff_of_false (Ne.symm hc) (hfree c')
    · rw [update_of_ne hl', h.locks]
      by_cases hc : c' = c
      · rw [hc, update_self, List.mem_cons, or_iff_right hl']
      · rw [update_of_ne hc]
  · refine h.chosen_current hp ?_
    rw [Chosen] at ht
    rw [Chosen, hpc, htodo]
    split at ht
    · rename_i hk
      dsimp only at hk
      rw [hk]
      trivial
    · rename_i hspin _
      cases hspin
    · exact absurd ht id

theorem Inv.drop {l : Lock} (hpc : (s.current c).pc = .idle)
    (htodo : (s.current c).todo = .release l :: k) :
    Inv (({ s with lock := update s.lock l none }.setCpu c
      { s.cpu c with held := (s.cpu c).held.erase l }).setCurrent c { s.current c with
        pc := .popping, todo := k }) := by
  have hfine := (h.cpu c).fine
  have hfits := hfine.fits
  rw [htodo] at hfits
  obtain ⟨-, hlast, hmem, hfits⟩ := hfits
  have hnodup := (h.cpu c).nodup
  refine h.local rfl ⟨?_, hfine.off, hfits, hlast, hfine.levels⟩ (fun l' c' => ?_)
    (hnodup.erase l) (fun hp => h.intena_current hp) fun _ ht => absurd ht id
  · have := hfine.noff
    have hlen := List.length_pos_of_mem hmem
    rw [hpc] at this
    simp only [Pc.extra, List.length_erase_of_mem hmem] at this ⊢
    omega
  · by_cases hl' : l' = l
    · rw [hl', update_self]
      refine iff_of_false nofun ?_
      by_cases hc : c' = c
      · rw [hc, update_self]
        exact fun hin => (List.Nodup.mem_erase_iff hnodup).mp hin |>.1 rfl
      · rw [update_of_ne hc]
        intro hin
        have h₁ := (h.locks l c').mpr hin
        rw [(h.locks l c).mpr hmem] at h₁
        exact hc (Option.some.inj h₁).symm
    · rw [update_of_ne hl', h.locks]
      by_cases hc : c' = c
      · rw [hc, update_self]
        exact (List.mem_erase_of_ne hl').symm
      · rw [update_of_ne hc]

end

theorem Fine.popOff (h : Fine st x t)
    (hnoff : x.noff = x.held.length + t'.offs + 1) (hpc : t'.pc = .idle)
    (hfits : Fits x.proc st t'.offs x.held t'.todo) (hlevels : t'.levels = t.levels) :
    Fine st x.popOff t' := by
  refine ⟨?_, fun hpos => ?_, hfits, by rw [hpc]; trivial, by rw [hlevels]; exact h.levels⟩
  · rw [hpc]
    simp only [Cpu.popOff, Pc.extra]
    omega
  · simp only [Cpu.popOff] at hpos ⊢
    rw [if_neg (by omega)]
    exact h.off (by omega)

section

variable (h : Inv s)
include h

theorem Inv.popping (hpc : (s.current c).pc = .popping) :
    Inv ((s.setCpu c (s.cpu c).popOff).setCurrent c { s.current c with pc := .idle }) := by
  have hfine := (h.cpu c).fine
  have hnoff := hfine.noff
  rw [hpc] at hnoff
  refine h.local rfl (hfine.popOff hnoff rfl hfine.fits rfl) (h.locks_same rfl) (h.cpu c).nodup
    (fun hp hpos => ?_) fun hp ht => ?_
  · refine h.intena_current hp ?_
    simp only [Cpu.popOff] at hpos
    omega
  · have hlast := hfine.pc
    rw [hpc] at hlast
    rw [Chosen, hlast hp] at ht
    exact absurd ht id

theorem Inv.pop (hpc : (s.current c).pc = .idle) (htodo : (s.current c).todo = .popOff :: k) :
    Inv ((s.setCpu c (s.cpu c).popOff).setCurrent c { s.current c with
      todo := k, offs := (s.current c).offs - 1 }) := by
  have hfine := (h.cpu c).fine
  have hnoff := hfine.noff
  have hfits := hfine.fits
  rw [htodo] at hfits
  obtain ⟨-, hlast, hpos, hfits⟩ := hfits
  refine h.local rfl (hfine.popOff ?_ hpc hfits rfl) (h.locks_same rfl) (h.cpu c).nodup
    (fun hp hpos => ?_) fun hp ht => ?_
  · rw [hpc] at hnoff
    simp only [Pc.extra] at hnoff ⊢
    omega
  · refine h.intena_current hp ?_
    simp only [Cpu.popOff] at hpos
    omega
  · rw [Chosen, hlast hp, hpc] at ht
    exact absurd ht id

/-! ## Switching -/

theorem Inv.setState {st : ProcState}
    (hp : (s.cpu c).proc = some p) (hpc : (s.current c).pc = .idle)
    (htodo : (s.current c).todo = .setState st :: k) :
    Inv { s with
      state := update s.state p st
      thread := update s.thread p { s.current c with todo := k } } := by
  have hfine := (h.cpu c).fine
  have hfits := hfine.fits
  rw [htodo, hp] at hfits
  obtain ⟨hst, -, -, hfits⟩ := hfits
  rw [State.status_of_proc hp] at hst
  refine ⟨fun c' => ?_, h.locks, h.unique, fun q hq => ?_, fun r q hr => ?_, h.finder⟩
  · by_cases hc : c' = c
    · subst hc
      refine .of_proc rfl (update_self ..) (update_self ..) hp
        ⟨hfine.noff, hfine.off, by rw [hp]; exact hfits, by rw [hpc]; trivial, hfine.levels⟩
        (h.cpu c').nodup ((h.cpu c').away p hp) fun hpos => ?_
      exact h.intena_current (by rw [hp]; simp) hpos
    · refine (h.cpu c').congr rfl rfl fun q hq => ?_
      have hne : q ≠ p := by
        rintro rfl
        exact hc (h.unique c' c q hq hp)
      exact ⟨update_of_ne hne .., update_of_ne hne ..⟩
  · have hne : q ≠ p := by
      rintro rfl
      exact hq c hp
    dsimp only
    rw [update_of_ne hne, update_of_ne hne]
    exact h.parked q hq
  · have hne : q ≠ p := by
      rintro rfl
      have := h.found r q hr
      rw [hst] at this
      cases this
    dsimp only
    rw [update_of_ne hne]
    exact h.found r q hr

theorem Inv.sched (hp : (s.cpu c).proc = some p)
    (hpc : (s.current c).pc = .idle) (htodo : (s.current c).todo = .sched :: k) :
    Inv ({ s with
      thread := update s.thread p
        { s.current c with todo := k, saved := some (s.cpu c).intena } }.setCpu c
          { s.cpu c with proc := none }) := by
  have hfine := (h.cpu c).fine
  have hfits := hfine.fits
  have hnoff := hfine.noff
  rw [htodo, hp, State.status_of_proc hp] at hfits
  obtain ⟨hst, hoffs, q, hq, hH, hresume⟩ := hfits
  cases hq
  have hwaits := (h.cpu c).away p hp
  have hpos : 0 < (s.cpu c).noff := by
    rw [hnoff, hH]
    simp
    omega
  refine ⟨fun c' => ?_, fun l c' => ?_, fun c₁ c₂ q h₁ h₂ => ?_, fun q hq hstate => ?_, h.found,
    h.finder⟩
  · by_cases hc : c' = c
    · subst hc
      refine .of_none (t := s.scheduler c') (update_self ..) rfl rfl
        ⟨?_, hfine.off, ?_, ?_, hwaits.levels⟩ (h.cpu c').nodup fun ht => ?_
      · rw [hwaits.pc, hwaits.offs]
        rw [hpc, hoffs] at hnoff
        exact hnoff
      · rw [hwaits.todo, hwaits.offs]
        dsimp only
        rw [hH]
        exact ⟨fun hne => absurd rfl hne, fun _ => rfl, by simp, rfl⟩
      · rw [hwaits.pc]
        trivial
      · rw [Chosen, hwaits.pc, hwaits.todo] at ht
        exact absurd ht id
    · refine (h.cpu c').congr (update_of_ne hc ..) rfl fun q hq => ⟨?_, rfl⟩
      refine update_of_ne ?_ ..
      rintro rfl
      exact hc (h.unique c' c q hq hp)
  · exact h.locks_same (x := { s.cpu c with proc := none }) rfl l c'
  · have hold : ∀ c', ((update s.cpu c { s.cpu c with proc := none }) c').proc = some q →
        (s.cpu c').proc = some q := by
      intro c' hc'
      by_cases hc : c' = c
      · rw [hc, update_self] at hc'
        cases hc'
      · rwa [update_of_ne hc] at hc'
    exact h.unique c₁ c₂ q (hold c₁ h₁) (hold c₂ h₂)
  · by_cases hqp : q = p
    · subst hqp
      show Parked q (update s.thread q _ q)
      rw [update_self]
      have hstate' : s.state q = .used ∨ s.state q = .runnable ∨ s.state q = .sleeping := hstate
      have hres := hresume.resolve_left fun hz => by
        rw [hz] at hstate'
        simp at hstate'
      refine ⟨hpc, hoffs, hres.1, hres.2, ?_, fun b hb => ?_⟩
      · have := hfine.levels
        rwa [hp] at this
      · rw [← Option.some.inj hb]
        exact h.intena_current (by rw [hp]; simp) hpos
    · show Parked q (update s.thread p _ q)
      rw [update_of_ne hqp]
      refine h.parked q (fun c' hc' => ?_) hstate
      have hc : c' ≠ c := by
        rintro rfl
        exact hqp (Option.some.inj (hc'.symm.trans hp))
      refine hq c' ?_
      show (update s.cpu c _ c').proc = some q
      rw [update_of_ne hc]
      exact hc'

theorem Inv.skip (hp : (s.cpu c).proc = none)
    (hpc : (s.current c).pc = .idle) (htodo : (s.current c).todo = .swtch p :: k) :
    Inv { s with scheduler := update s.scheduler c { s.current c with todo := k } } := by
  have hfine := (h.cpu c).fine
  have hfits := hfine.fits
  rw [htodo, hp] at hfits
  obtain ⟨-, -, hoffs, hH, rfl⟩ := hfits
  rw [← State.setCurrent_of_none hp]
  refine h.localThread ⟨hfine.noff, hfine.off, ?_, ?_, hfine.levels⟩
    (fun hne => absurd hp hne) fun _ ht => ?_
  · rw [hp, State.status_of_none hp]
    dsimp only
    rw [hoffs, hH]
    exact ⟨fun hne => absurd rfl hne, fun _ => rfl, by simp, rfl⟩
  · rw [hpc]
    trivial
  · rw [Chosen, hpc] at ht
    exact absurd ht id

theorem Inv.swtch (hp : (s.cpu c).proc = none)
    (hpc : (s.current c).pc = .idle) (htodo : (s.current c).todo = .swtch p :: k)
    (hst : s.state p = .runnable) :
    Inv ({ s with
      state := update s.state p .running
      scheduler := update s.scheduler c { s.current c with todo := k }
      thread := update s.thread p { s.thread p with
        began := if (s.thread p).saved = none then (s.current c).began else (s.thread p).began }
      }.setCpu c { s.cpu c with
        proc := some p, intena := (s.thread p).saved.getD (s.cpu c).intena }) := by
  have hfine := (h.cpu c).fine
  have hfits := hfine.fits
  have hnoff := hfine.noff
  rw [htodo, hp] at hfits
  obtain ⟨-, -, hoffs, hH, rfl⟩ := hfits
  rw [hpc, hoffs] at hnoff
  have hoff : ∀ c', (s.cpu c').proc ≠ some p :=
    h.off_cpu (by rw [hH]; exact List.mem_cons_self) (by rw [hst]; simp) (State.status_of_none hp)
  have hparked := h.parked p hoff (.inr (.inl hst))
  have hchosen : (s.cpu c).intena = (s.current c).began := by
    refine h.chosen_current hp ?_
    rw [Chosen, hpc, htodo]
    trivial
  have hold : ∀ c' q, (update s.cpu c { s.cpu c with
      proc := some p, intena := (s.thread p).saved.getD (s.cpu c).intena } c').proc = some q →
      c' = c ∧ q = p ∨ c' ≠ c ∧ (s.cpu c').proc = some q := by
    intro c' q hq
    by_cases hc : c' = c
    · rw [hc, update_self] at hq
      exact .inl ⟨hc, (Option.some.inj hq).symm⟩
    · rw [update_of_ne hc] at hq
      exact .inr ⟨hc, hq⟩
  refine ⟨fun c' => ?_, fun l c' => ?_, fun c₁ c₂ q h₁ h₂ => ?_, fun q hq hstate => ?_, fun r q hr => ?_,
    h.finder⟩
  · by_cases hc : c' = c
    · subst hc
      refine .of_proc (p := p) (update_self ..) (update_self ..)
        (update_self ..) rfl ⟨?_, hfine.off, ?_, ?_, hparked.levels⟩ (h.cpu c').nodup
        ?_ fun _ => ?_
      · dsimp only
        rw [hparked.pc, hparked.offs]
        exact hnoff
      · dsimp only
        rw [hparked.offs, hH]
        exact hparked.fits
      · dsimp only
        rw [hparked.pc]
        trivial
      · show Waits p (update s.scheduler c' _ c')
        rw [update_self]
        refine ⟨hpc, hoffs, rfl, ?_⟩
        have := hfine.levels
        rwa [hp] at this
      · dsimp only
        cases hsaved : (s.thread p).saved with
        | none => exact hchosen
        | some b => exact hparked.saved b hsaved
    · refine (h.cpu c').congr (update_of_ne hc ..) (update_of_ne hc ..)
        fun q hq => ?_
      have hne : q ≠ p := by
        rintro rfl
        exact hoff c' hq
      exact ⟨update_of_ne hne .., update_of_ne hne ..⟩
  · exact h.locks_same (x := { s.cpu c with
      proc := some p, intena := (s.thread p).saved.getD (s.cpu c).intena }) rfl l c'
  · rcases hold c₁ q h₁ with ⟨hc₁, hq⟩ | ⟨-, hold₁⟩
    · rcases hold c₂ q h₂ with ⟨hc₂, -⟩ | ⟨-, hold₂⟩
      · rw [hc₁, hc₂]
      · exact absurd (hq ▸ hold₂) (hoff c₂)
    · rcases hold c₂ q h₂ with ⟨-, hq⟩ | ⟨-, hold₂⟩
      · exact absurd (hq ▸ hold₁) (hoff c₁)
      · exact h.unique c₁ c₂ q hold₁ hold₂
  · have hqp : q ≠ p := by
      rintro rfl
      exact hq c (State.setCpu_proc ..)
    have hstate' : update s.state p .running q = .used ∨
      update s.state p .running q = .runnable ∨
      update s.state p .running q = .sleeping := hstate
    rw [update_of_ne hqp] at hstate'
    show Parked q (update s.thread p _ q)
    rw [update_of_ne hqp]
    refine h.parked q (fun c' hc' => hq c' ?_) hstate'
    have hc : c' ≠ c := by
      rintro rfl
      rw [hp] at hc'
      cases hc'
    show (update s.cpu c _ c').proc = some q
    rw [update_of_ne hc]
    exact hc'
  · have hqp : q ≠ p := by
      rintro rfl
      have := h.found r q hr
      rw [hst] at this
      cases this
    show update s.state p _ q = .used
    rw [update_of_ne hqp]
    exact h.found r q hr

/-! ## Steps that change another process -/

theorem Inv.remote {q : Nat} (st : ProcState) (t : Thread) (found : Nat → Option Nat)
    (hoff : ∀ c, (s.cpu c).proc ≠ some q)
    (hparked : st = .used ∨ st = .runnable ∨ st = .sleeping → Parked q t)
    (hfound : ∀ p r, found p = some r → update s.state q st r = .used)
    (hfinder : ∀ p p' r, found p = some r → found p' = some r → p = p') :
    Inv { s with
      state := update s.state q st
      thread := update s.thread q t
      found := found } := by
  refine ⟨fun c => (h.cpu c).congr rfl rfl fun p hp => ?_, h.locks, h.unique, fun p hp hst => ?_,
    hfound, hfinder⟩
  · have hne : p ≠ q := by
      rintro rfl
      exact hoff c hp
    exact ⟨update_of_ne hne .., update_of_ne hne ..⟩
  · by_cases hpq : p = q
    · subst hpq
      simp only [update_self] at hst ⊢
      exact hparked hst
    · simp only [update_of_ne hpq] at hst ⊢
      exact h.parked p hp hst

end

theorem parked_forkret (q : Nat) : Parked q (.forkret q) where
  pc := rfl
  offs := rfl
  head := rfl
  fits := ⟨fun hne => absurd rfl hne, by simp, by simp, rfl⟩
  levels := by simp [Thread.forkret]
  saved := nofun

variable (h : Inv s) (htodo : (s.current c).todo = [])
include h htodo

theorem Inv.status_of_todo : s.status c = .running := by
  have := (h.cpu c).fine.fits
  rwa [htodo] at this

theorem Inv.rouse {q : Nat} (hheld : .proc q ∈ (s.cpu c).held) (hst : s.state q = .sleeping) :
    Inv { s with state := update s.state q .runnable } := by
  have hoff := h.off_cpu hheld (by rw [hst]; simp) (h.status_of_todo htodo)
  have hu := h.remote .runnable (s.thread q) s.found hoff
    (fun _ => h.parked q hoff (.inr (.inr hst))) (fun p r hr => ?_) h.finder
  · rwa [update_eq_self] at hu
  · have hne : r ≠ q := by
      rintro rfl
      have := h.found p r hr
      rw [hst] at this
      cases this
    rw [update_of_ne hne]
    exact h.found p r hr

theorem Inv.alloc {p q : Nat} (hheld : .proc q ∈ (s.cpu c).held) (hst : s.state q = .unused) :
    Inv { s with
      state := update s.state q .used
      thread := update s.thread q (.forkret q)
      found := update (update s.found q none) p (some q) } := by
  have hoff := h.off_cpu hheld (by rw [hst]; simp) (h.status_of_todo htodo)
  -- nobody else has found `q`
  have hnew : ∀ r, s.found r ≠ some q := fun r hr => by
    have := h.found r q hr
    rw [hst] at this
    cases this
  have hcases : ∀ r r', update (update s.found q none) p (some q) r = some r' →
      r = p ∧ r' = q ∨ r ≠ p ∧ s.found r = some r' := by
    intro r r' hr
    by_cases hrp : r = p
    · rw [hrp, update_self] at hr
      exact .inl ⟨hrp, (Option.some.inj hr).symm⟩
    · rw [update_of_ne hrp] at hr
      by_cases hrq : r = q
      · rw [hrq, update_self] at hr
        cases hr
      · rw [update_of_ne hrq] at hr
        exact .inr ⟨hrp, hr⟩
  refine h.remote _ _ _ hoff (fun _ => parked_forkret q) (fun r r' hr => ?_) fun r₁ r₂ r' h₁ h₂ => ?_
  · rcases hcases r r' hr with ⟨-, hr'⟩ | ⟨-, hold⟩
    · rw [hr', update_self]
    · have hne : r' ≠ q := by
        rintro rfl
        exact hnew r hold
      rw [update_of_ne hne]
      exact h.found r r' hold
  · rcases hcases r₁ r' h₁ with ⟨hr₁, hr'⟩ | ⟨-, hold₁⟩
    · rcases hcases r₂ r' h₂ with ⟨hr₂, -⟩ | ⟨-, hold₂⟩
      · rw [hr₁, hr₂]
      · exact absurd (hr' ▸ hold₂) (hnew r₂)
    · rcases hcases r₂ r' h₂ with ⟨-, hr'⟩ | ⟨-, hold₂⟩
      · exact absurd (hr' ▸ hold₁) (hnew r₁)
      · exact h.finder r₁ r₂ r' hold₁ hold₂

theorem Inv.settle {p q : Nat} {st : ProcState}
    (hheld : .proc q ∈ (s.cpu c).held) (hfound : s.found p = some q) :
    Inv { s with
      state := update s.state q st
      found := update s.found p none } := by
  have hst := h.found p q hfound
  have hoff := h.off_cpu hheld (by rw [hst]; simp) (h.status_of_todo htodo)
  have hcases : ∀ r r', update s.found p none r = some r' →
      r ≠ p ∧ s.found r = some r' := by
    intro r r' hr
    by_cases hrp : r = p
    · rw [hrp, update_self] at hr
      cases hr
    · rw [update_of_ne hrp] at hr
      exact ⟨hrp, hr⟩
  have hu := h.remote st (s.thread q) (update s.found p none) hoff
    (fun _ => h.parked q hoff (.inl hst)) (fun r r' hr => ?_) fun r₁ r₂ r' h₁ h₂ => ?_
  · rwa [update_eq_self] at hu
  · obtain ⟨hrp, hr⟩ := hcases r r' hr
    have hne : r' ≠ q := by
      rintro rfl
      exact hrp (h.finder r p r' hr hfound)
    rw [update_of_ne hne]
    exact h.found r r' hr
  · exact h.finder r₁ r₂ r' (hcases r₁ r' h₁).2 (hcases r₂ r' h₂).2

theorem Inv.free {q : Nat} (hheld : .proc q ∈ (s.cpu c).held) (hst : s.state q = .zombie) :
    Inv { s with state := update s.state q .unused } := by
  have hoff := h.off_cpu hheld (by rw [hst]; simp) (h.status_of_todo htodo)
  have hu := h.remote .unused (s.thread q) s.found hoff (by simp)
    (fun p r hr => ?_) h.finder
  · rwa [update_eq_self] at hu
  · have hne : r ≠ q := by
      rintro rfl
      have := h.found p r hr
      rw [hst] at this
      cases this
    rw [update_of_ne hne]
    exact h.found p r hr

end Steps

/-! ## Runs -/

theorem Inv.next {s u : State} {a : Act} (h : Inv s) (hstep : next s a = some u) : Inv u := by
  obtain ⟨c, op⟩ := a
  cases op with simp only [Cpus.next] at hstep
  | setIe b =>
    split at hstep
    · cases hstep
      rename_i hg
      exact h.setIe hg.1 hg.2.2
    · cases hstep
  | trap =>
    split at hstep
    · cases hstep
      exact h.trap ‹_›
    · cases hstep
  | sret =>
    split at hstep
    · cases hstep
    · rename_i hlevels
      split at hstep
      · cases hstep
        rename_i hg
        exact h.sret hlevels hg.2.2
      · cases hstep
  | call f =>
    split at hstep
    · cases hstep
      rename_i hg
      exact h.call hg.1 hg.2.1 hg.2.2
    · cases hstep
  | get =>
    split at hstep
    · cases hstep
      rename_i hpc htodo
      exact h.get hpc (by rw [htodo]; trivial)
    · cases hstep
      rename_i hpc htodo
      exact h.get hpc (by rw [htodo]; trivial)
    · cases hstep
  | off =>
    split at hstep
    · cases hstep
      rename_i hpc htodo
      exact h.pushOff hpc htodo
    · rename_i hpc htodo
      split at hstep
      · cases hstep
      · cases hstep
        exact h.acquire hpc htodo
    · cases hstep
  | take =>
    split at hstep
    · rename_i hpc htodo
      split at hstep
      · cases hstep
        exact h.take hpc htodo ‹_›
      · cases hstep
    · cases hstep
  | drop =>
    split at hstep
    · rename_i hpc htodo
      split at hstep
      · cases hstep
        exact h.drop hpc htodo
      · cases hstep
    · cases hstep
  | pop =>
    split at hstep
    · rename_i hpc
      split at hstep
      · cases hstep
        exact h.popping hpc
      · cases hstep
    · rename_i hpc htodo
      split at hstep
      · cases hstep
        exact h.pop hpc htodo
      · cases hstep
    · cases hstep
  | setState =>
    split at hstep
    · rename_i hp hpc htodo
      cases hstep
      exact h.setState hp hpc htodo
    · cases hstep
  | sched =>
    split at hstep
    · rename_i hp hpc htodo
      split at hstep
      · cases hstep
        exact h.sched hp hpc htodo
      · cases hstep
    · cases hstep
  | swtch =>
    split at hstep
    · rename_i hp hpc htodo
      split at hstep
      · cases hstep
        exact h.swtch hp hpc htodo ‹_›
      · cases hstep
        exact h.skip hp hpc htodo
    · cases hstep
  | rouse q =>
    split at hstep
    · cases hstep
      rename_i hg
      exact h.rouse hg.2.1 hg.2.2.1 hg.2.2.2
    · cases hstep
  | alloc q =>
    split at hstep
    · cases hstep
    · split at hstep
      · cases hstep
        rename_i hg
        exact h.alloc hg.2.1 hg.2.2.1 hg.2.2.2.2
      · cases hstep
  | start q =>
    split at hstep
    · cases hstep
    · split at hstep
      · cases hstep
        rename_i hg
        exact h.settle hg.2.1 hg.2.2.1 hg.2.2.2
      · cases hstep
  | unalloc q =>
    split at hstep
    · cases hstep
    · split at hstep
      · cases hstep
        rename_i hg
        exact h.settle hg.2.1 hg.2.2.1 hg.2.2.2
      · cases hstep
  | free q =>
    split at hstep
    · cases hstep
      rename_i hg
      exact h.free hg.2.1 hg.2.2.1 hg.2.2.2
    · cases hstep

theorem inv_boot : Inv State.boot := by
  refine ⟨fun c => ?_, ?_, nofun, fun p _ _ => parked_forkret p, nofun, nofun⟩
  · exact .of_none rfl rfl rfl ⟨rfl, by simp [State.boot], rfl, trivial, by simp [State.boot]⟩
      List.nodup_nil fun ht => absurd ht id
  · simp [State.boot]

theorem inv_of_run {s : State} {as : List Act} (h : run next State.boot as = some s) : Inv s :=
  Reachable.induction ⟨as, h⟩ inv_boot fun _ _ _ hs ht => hs.next ht

end Xv6.Cpus
