import Xv6.Lib.Ring
import Xv6.Virtio.Descriptors
import Mathlib.Data.List.Nodup
import Mathlib.Data.List.Perm.Subperm

/-!
# The protocol between the driver and the device

`Inv` is what holds in every state.  Each call of `virtio_disk_rw` has its buffer and its descriptors
to itself (`Lock.Exclusive`), and `Here` says what it knows about them at the point where it is.  The
chains in flight are listed as `todo`, those that the device has still to complete, and `reply`, those
that `virtio_disk_intr` has still to process; the two rings hold what is in between (`Rings`).
A step of one process does not touch what another knows (`Apart`).
-/

namespace Xv6.Virtio

open Function (update update_eq_self update_of_ne update_self)
open Option (some_inj)

variable {P B : Type}

/-- The buffer and the descriptors that a process has to itself. -/
def Pc.Uses : Pc B → B ⊕ Nat → Prop
  | .acquire r, x | .alloc r, x | .sleepFree r, x => x = .inl r.b
  | .chain _ r c, x => x = .inl r.b ∨ ∃ i ∈ c.toList, x = .inr i
  | _, _ => False

def Pc.inRw : Pc B → Bool
  | .acquire _ | .alloc _ | .sleepFree _ | .chain _ _ _ => true
  | _ => false

def Point.Published : Point → Prop
  | .wait | .asleep | .woken | .finish => True
  | _ => False

/-- The process has told the device about the chain `h`. -/
def Pc.Flight : Pc B → Nat → Prop
  | .chain pt _ c, h => pt.Published ∧ c.head = h
  | _, _ => False

namespace State

def todo (s : State P B) : List Nat := s.hist.avail.drop s.hist.taken ++ s.dev.pending

/-- The chains that `virtio_disk_intr` has to process. -/
def reply (s : State P B) : List Nat := s.hist.used.drop s.hist.handled

/-- How far a request is that the device has been told about. -/
inductive Progress (s : State P B) (r : Call B) (c : Chain) : Prop where
  | todo (hmem : c.head ∈ s.todo) (hbusy : s.busy r.b = true) (hdone : s.completed r.b = [])
  | reply (hmem : c.head ∈ s.reply) (hbusy : s.busy r.b = true)
      (hdone : s.completed r.b = [r.request]) (hstatus : (s.disk.info c.head).status = 0)
  | done (htodo : c.head ∉ s.todo) (hreply : c.head ∉ s.reply) (hbusy : s.busy r.b = false)
      (hdone : s.completed r.b = [r.request])

/-- What a call with the chain `c` knows at a point. -/
def Stage (s : State P B) (r : Call B) (c : Chain) : Point → Prop
  | .format => s.completed r.b = []
  | .ring => s.disk.Formatted r c ∧ s.busy r.b = true ∧ s.completed r.b = []
  | .publish => s.disk.Formatted r c ∧ s.busy r.b = true ∧ s.completed r.b = [] ∧
      s.disk.avail.ring (slot s.disk.avail.idx) = c.head
  | .wait | .asleep | .woken => s.disk.Formatted r c ∧ s.Progress r c
  | .finish => s.disk.Formatted r c ∧ s.Progress r c ∧ s.busy r.b = false

def Here (s : State P B) : Pc B → Prop
  | .idle | .intrAcquire | .intrLoop => True
  | .intrEntry => s.hist.handled < s.hist.counted
  | .acquire r | .alloc r | .sleepFree r => s.locked r.b = true ∧ s.completed r.b = []
  | .chain k r c => s.locked r.b = true ∧ c.toList.Nodup ∧
      (∀ i ∈ c.toList, i < num ∧ s.disk.free i = false) ∧ s.Stage r c k

structure Rings (av us : Vring) (seenIdx : UInt16) (dev : Device) (hist : Hist) : Prop where
  avail : Ring.Holds av.ring hist.avail hist.taken
  availIdx : av.idx.toNat = hist.avail.length % 2 ^ 16
  lastAvail : dev.lastAvail.toNat = hist.taken % 2 ^ 16
  used : Ring.Holds us.ring hist.used hist.handled
  usedIdx : us.idx.toNat = hist.counted % 2 ^ 16
  seen : seenIdx.toNat = hist.handled % 2 ^ 16
  handled_le : hist.handled ≤ hist.counted
  ahead : hist.counted + dev.ahead = hist.used.length

structure Inv (s : State P B) : Prop where
  panic : s.panic = none
  held : Lock.Held Pc.holds s.lock s.pc
  alone : Lock.Exclusive Pc.Uses s.pc
  owned : ∀ i < num, s.disk.free i = false → ∃ p, (s.pc p).Uses (.inr i)
  here : ∀ p, s.Here (s.pc p)
  rings : Rings s.disk.avail s.disk.used s.disk.usedIdx s.dev s.hist
  nodup : (s.todo ++ s.reply).Nodup
  known : ∀ h ∈ s.todo ++ s.reply, ∃ p, (s.pc p).Flight h

section Lemmas

variable {s t : State P B} {k : Pc B} {pt : Point} {r : Call B} {c : Chain} {h i : Nat} {p q : P}

theorem Flight.exists (hk : k.Flight h) : ∃ pt r c, k = .chain pt r c ∧ pt.Published ∧ c.head = h := by
  cases k with
  | chain pt r c => exact ⟨pt, r, c, rfl, hk⟩
  | _ => exact hk.elim

theorem Flight.uses (hk : k.Flight h) : k.Uses (.inr h) := by
  obtain ⟨pt, r, c, rfl, -, rfl⟩ := Flight.exists hk
  exact .inr ⟨c.head, by simp [Chain.toList], rfl⟩

/-! ## What a step does not touch -/

/-- A step does not touch what a process at `k` knows. -/
structure Apart (s t : State P B) (k : Pc B) : Prop where
  buf : ∀ b, k.Uses (.inl b) → t.locked b = s.locked b ∧ t.busy b = s.busy b ∧
    t.completed b = s.completed b
  cell : ∀ i, k.Uses (.inr i) → t.disk.free i = s.disk.free i ∧ t.disk.desc i = s.disk.desc i ∧
    t.disk.ops i = s.disk.ops i ∧ t.disk.info i = s.disk.info i
  flow : ∀ i, k.Uses (.inr i) → (i ∈ t.todo ↔ i ∈ s.todo) ∧ (i ∈ t.reply ↔ i ∈ s.reply)
  lock : k.holds = true → t.disk.avail = s.disk.avail ∧ t.hist.handled = s.hist.handled ∧
    s.hist.counted ≤ t.hist.counted

theorem Apart.of_eq (hdisk : t.disk = s.disk) (hlocked : t.locked = s.locked)
    (hbusy : t.busy = s.busy) (hdone : t.completed = s.completed) (hdev : t.dev = s.dev)
    (hhist : t.hist = s.hist) : Apart s t k where
  buf b _ := by rw [hlocked, hbusy, hdone]; exact ⟨rfl, rfl, rfl⟩
  cell i _ := by rw [hdisk]; exact ⟨rfl, rfl, rfl, rfl⟩
  flow i _ := by rw [todo, todo, reply, reply, hdev, hhist]; exact ⟨Iff.rfl, Iff.rfl⟩
  lock _ := by rw [hdisk, hhist]; exact ⟨rfl, rfl, Nat.le_refl _⟩

theorem Progress.frame (hs : s.Progress r c) (ha : Apart s t (.chain pt r c)) : t.Progress r c := by
  have hhead : (Pc.chain pt r c).Uses (.inr c.head) := .inr ⟨_, by simp [Chain.toList], rfl⟩
  obtain ⟨-, hbusy, hdone⟩ := ha.buf r.b (.inl rfl)
  obtain ⟨htodo, hreply⟩ := ha.flow c.head hhead
  obtain ⟨-, -, -, hinfo⟩ := ha.cell c.head hhead
  cases hs with
  | todo h1 h2 h3 => exact .todo (htodo.mpr h1) (hbusy.trans h2) (hdone.trans h3)
  | reply h1 h2 h3 h4 =>
    exact .reply (hreply.mpr h1) (hbusy.trans h2) (hdone.trans h3) (by rw [hinfo, h4])
  | done h1 h2 h3 h4 =>
    exact .done (fun h => h1 (htodo.mp h)) (fun h => h2 (hreply.mp h)) (hbusy.trans h3)
      (hdone.trans h4)

theorem Formatted.frame (hs : s.disk.Formatted r c) (ha : Apart s t (.chain pt r c)) :
    t.disk.Formatted r c := by
  have hcell := fun i (hi : i ∈ c.toList) => ha.cell i (.inr ⟨i, hi, rfl⟩)
  have hhead := hcell c.head (by simp [Chain.toList])
  exact hs.congr (fun i hi => (hcell i hi).2.1) hhead.2.2.1 (by rw [hhead.2.2.2])

theorem Stage.frame (hs : s.Stage r c pt) (ha : Apart s t (.chain pt r c)) : t.Stage r c pt := by
  obtain ⟨-, hbusy, hdone⟩ := ha.buf r.b (.inl rfl)
  cases pt with
  | format => exact hdone.trans hs
  | ring => exact ⟨Formatted.frame hs.1 ha, hbusy.trans hs.2.1, hdone.trans hs.2.2⟩
  | publish =>
    refine ⟨Formatted.frame hs.1 ha, hbusy.trans hs.2.1, hdone.trans hs.2.2.1, ?_⟩
    rw [(ha.lock rfl).1]
    exact hs.2.2.2
  | wait | asleep | woken => exact ⟨Formatted.frame hs.1 ha, hs.2.frame ha⟩
  | finish => exact ⟨Formatted.frame hs.1 ha, hs.2.1.frame ha, hbusy.trans hs.2.2⟩

/-- **What a process knows stays true** if a step does not touch it. -/
theorem Here.frame (hs : s.Here k) (ha : Apart s t k) : t.Here k := by
  cases k with
  | idle | intrAcquire | intrLoop => trivial
  | intrEntry =>
    obtain ⟨-, hhandled, hcounted⟩ := ha.lock rfl
    rw [Here] at hs ⊢
    omega
  | acquire r | alloc r | sleepFree r =>
    obtain ⟨hlocked, -, hdone⟩ := ha.buf r.b rfl
    exact ⟨hlocked.trans hs.1, hdone.trans hs.2⟩
  | chain pt r c =>
    refine ⟨(ha.buf r.b (.inl rfl)).1.trans hs.1, hs.2.1, fun i hi => ⟨(hs.2.2.1 i hi).1, ?_⟩,
      hs.2.2.2.frame ha⟩
    rw [(ha.cell i (.inr ⟨i, hi, rfl⟩)).1]
    exact (hs.2.2.1 i hi).2

variable [DecidableEq P]

theorem here_of_ne (hpc : t.pc = update s.pc p k) (hs : ∀ q ≠ p, t.Here (s.pc q)) (hp : t.Here k)
    (q : P) : t.Here (t.pc q) := by
  rw [hpc]
  by_cases hq : q = p
  · rw [hq, update_self]
    exact hp
  · rw [update_of_ne hq]
    exact hs q hq

theorem here_update (hs : ∀ q, s.Here (s.pc q)) (hpc : t.pc = update s.pc p k)
    (ha : ∀ q ≠ p, Apart s t (s.pc q)) (hp : t.Here k) : ∀ q, t.Here (t.pc q) :=
  here_of_ne hpc (fun q hq => (hs q).frame (ha q hq)) hp

theorem known_update (hs : ∀ h ∈ s.todo ++ s.reply, ∃ q, (s.pc q).Flight h)
    (hpc : t.pc = update s.pc p k)
    (hk : ∀ h ∈ t.todo ++ t.reply, k.Flight h ∨ h ∈ s.todo ++ s.reply ∧ ¬(s.pc p).Flight h) :
    ∀ h ∈ t.todo ++ t.reply, ∃ q, (t.pc q).Flight h := by
  intro h hh
  rw [hpc]
  rcases hk h hh with hp | ⟨hmem, hnot⟩
  · exact ⟨p, by rwa [update_self]⟩
  · obtain ⟨q, hq⟩ := hs h hmem
    have hqp : q ≠ p := by
      rintro rfl
      exact hnot hq
    exact ⟨q, by rwa [update_of_ne hqp]⟩

theorem owned_update (hs : ∀ i < num, s.disk.free i = false → ∃ p, (s.pc p).Uses (.inr i))
    (hpc : t.pc = update s.pc p k)
    (hk : ∀ i < num, t.disk.free i = false →
      k.Uses (.inr i) ∨ s.disk.free i = false ∧ ¬(s.pc p).Uses (.inr i)) :
    ∀ i < num, t.disk.free i = false → ∃ q, (t.pc q).Uses (.inr i) := by
  intro i hi hfree
  rw [hpc]
  rcases hk i hi hfree with hp | ⟨hmem, hnot⟩
  · exact ⟨p, by rwa [update_self]⟩
  · obtain ⟨q, hq⟩ := hs i hi hmem
    have hqp : q ≠ p := by
      rintro rfl
      exact hnot hq
    exact ⟨q, by rwa [update_of_ne hqp]⟩

/-- **A step that changes only the point of `p` and the lock.** -/
theorem Inv.move (hs : s.Inv) {l : Option P} (huses : ∀ x, k.Uses x ↔ (s.pc p).Uses x)
    (hflight : ∀ h, k.Flight h ↔ (s.pc p).Flight h)
    (hheld : Lock.Held Pc.holds l (update s.pc p k)) (hhere : s.Here k) :
    Inv { s.goto p k with lock := l } where
  panic := hs.panic
  held := hheld
  alone := hs.alone.update fun x hx => .inl ((huses x).mp hx)
  owned := owned_update hs.owned rfl fun i _ hfree => by
    rw [huses]
    exact (em _).imp_right fun hnot => ⟨hfree, hnot⟩
  here := here_update hs.here rfl (fun _ _ => .of_eq rfl rfl rfl rfl rfl rfl)
    (hhere.frame (.of_eq rfl rfl rfl rfl rfl rfl))
  rings := hs.rings
  nodup := hs.nodup
  known := known_update hs.known rfl fun h hh => by
    rw [hflight]
    exact (em _).imp_right fun hnot => ⟨hh, hnot⟩

/-! ## The steps of a call -/

omit [DecidableEq P] in
theorem Here.locked {b : B} (hs : s.Here k) (hu : k.Uses (.inl b)) : s.locked b = true := by
  cases k with
  | idle | intrAcquire | intrLoop | intrEntry => exact hu.elim
  | acquire r | alloc r | sleepFree r =>
    rw [Sum.inl.inj hu]
    exact hs.1
  | chain pt r c =>
    rcases hu with hu | ⟨i, -, hu⟩
    · rw [Sum.inl.inj hu]
      exact hs.1
    · exact absurd hu (by simp)

omit [DecidableEq P] in
theorem uses_chain : (Pc.chain pt r c).Uses (.inr i) ↔ i ∈ c.toList := by simp [Pc.Uses]

omit [DecidableEq P] in
theorem uses_inr (hk : k.Uses (.inr i)) : ∃ pt r c, k = .chain pt r c ∧ i ∈ c.toList := by
  cases k with
  | idle | intrAcquire | intrLoop | intrEntry => exact hk.elim
  | acquire r | alloc r | sleepFree r => exact absurd hk (by simp [Pc.Uses])
  | chain pt r c => exact ⟨pt, r, c, rfl, uses_chain.mp hk⟩

omit [DecidableEq P] in
theorem Here.not_free (hs : s.Here k) (hu : k.Uses (.inr i)) : i < num ∧ s.disk.free i = false := by
  obtain ⟨pt, r, c, rfl, hi⟩ := uses_inr hu
  exact hs.2.2.1 i hi

omit [DecidableEq P] in
theorem Inv.lt_num (hs : s.Inv) (hmem : h ∈ s.todo ++ s.reply) : h < num := by
  obtain ⟨p, hp⟩ := hs.known h hmem
  exact ((hs.here p).not_free (Flight.uses hp)).1

omit [DecidableEq P] in
theorem Inv.notMem_of_not_published (hs : s.Inv) (hpc : s.pc p = .chain pt r c)
    (hpt : ¬pt.Published) : c.head ∉ s.todo ++ s.reply := by
  intro hmem
  obtain ⟨q, hq⟩ := hs.known c.head hmem
  have hp : (s.pc p).Uses (.inr c.head) := by
    rw [hpc, uses_chain]
    simp [Chain.toList]
  obtain rfl := hs.alone q p _ (Flight.uses hq) hp
  rw [hpc] at hq
  exact hpt hq.1

theorem length_lt_of_notMem {l : List Nat} {n : Nat} (hnodup : l.Nodup) (hlt : ∀ j ∈ l, j < n)
    (hi : i < n) (hnot : i ∉ l) : l.length < n := by
  have hsub : (i :: l) ⊆ List.range n := by
    intro j hj
    rcases List.mem_cons.mp hj with rfl | hj
    · exact List.mem_range.mpr hi
    · exact List.mem_range.mpr (hlt j hj)
  have hle := (List.subperm_of_subset (List.nodup_cons.mpr ⟨hnot, hnodup⟩) hsub).length_le
  rw [List.length_cons, List.length_range] at hle
  exact hle

theorem Inv.rw [DecidableEq B] (hs : s.Inv) (hpc : s.pc p = .idle) (hfree : s.locked r.b = false) :
    Inv { s.goto p (.acquire r) with
      locked := update s.locked r.b true
      completed := update s.completed r.b [] } := by
  have hnobody : ∀ q, ¬(s.pc q).Uses (.inl r.b) := by
    intro q hq
    exact absurd ((hs.here q).locked hq) (by simp [hfree])
  exact {
    panic := hs.panic
    held := hs.held.outside (by rw [hpc]; rfl) rfl
    alone := hs.alone.update fun x hx => .inr fun q hq => hnobody q (hx ▸ hq)
    owned := owned_update hs.owned rfl fun i _ hi => .inr ⟨hi, by rw [hpc]; exact id⟩
    here := by
      refine here_update hs.here rfl (fun q _ => ⟨fun b hb => ?_, fun i _ => ⟨rfl, rfl, rfl, rfl⟩,
        fun i _ => ⟨Iff.rfl, Iff.rfl⟩, fun _ => ⟨rfl, rfl, Nat.le_refl _⟩⟩)
        ⟨update_self .., update_self ..⟩
      have hne : b ≠ r.b := by
        rintro rfl
        exact hnobody q hb
      exact ⟨update_of_ne hne .., rfl, update_of_ne hne ..⟩
    rings := hs.rings
    nodup := hs.nodup
    known := known_update hs.known rfl fun h hh => .inr ⟨hh, by rw [hpc]; exact id⟩ }

theorem Inv.alloc (hs : s.Inv) (hpc : s.pc p = .alloc r) (hnodup : c.toList.Nodup)
    (hc : ∀ i ∈ c.toList, i < num ∧ s.disk.free i = true) :
    Inv { s.goto p (.chain .format r c) with disk := s.disk.take c } := by
  have hhere : s.locked r.b = true ∧ s.completed r.b = [] := by simpa [hpc, Here] using hs.here p
  have hnobody : ∀ q, ∀ i ∈ c.toList, ¬(s.pc q).Uses (.inr i) := by
    intro q i hi hq
    exact absurd ((hs.here q).not_free hq).2 (by simp [(hc i hi).2])
  exact {
    panic := hs.panic
    held := hs.held.keep ((hs.held p).mp (by rw [hpc]; rfl)) rfl
    alone := hs.alone.update fun x hx => by
      rcases hx with rfl | ⟨i, hi, rfl⟩
      · exact .inl (by rw [hpc]; rfl)
      · exact .inr fun q => hnobody q i hi
    owned := owned_update hs.owned rfl fun i _ hi => by
      rw [uses_chain]
      by_cases hmem : i ∈ c.toList
      · exact .inl hmem
      · refine .inr ⟨?_, by rw [hpc]; simp [Pc.Uses]⟩
        simpa [Disk.take, hmem] using hi
    here := by
      refine here_update hs.here rfl (fun q _ => ⟨fun b _ => ⟨rfl, rfl, rfl⟩,
        fun i hi => ⟨if_neg fun hmem => hnobody q i hmem hi, rfl, rfl, rfl⟩,
        fun i _ => ⟨Iff.rfl, Iff.rfl⟩, fun _ => ⟨rfl, rfl, Nat.le_refl _⟩⟩)
        ⟨hhere.1, hnodup, fun i hi => ⟨(hc i hi).1, if_pos hi⟩, hhere.2⟩
    rings := hs.rings
    nodup := hs.nodup
    known := known_update hs.known rfl fun h hh => .inr ⟨hh, by rw [hpc]; exact id⟩ }

theorem Inv.sleepFree (hs : s.Inv) (hpc : s.pc p = .alloc r) {desc : Nat → Desc B}
    (hdesc : ∀ i, s.disk.free i = false → desc i = s.disk.desc i) :
    Inv { s.release p (.sleepFree r) with disk := { s.disk with desc := desc } } := by
  have hhere : s.locked r.b = true ∧ s.completed r.b = [] := by simpa [hpc, Here] using hs.here p
  exact {
    panic := hs.panic
    held := hs.held.drop ((hs.held p).mp (by rw [hpc]; rfl)) rfl
    alone := hs.alone.update fun x hx => .inl (by rw [hpc]; exact hx)
    owned := owned_update hs.owned rfl fun i _ hi => .inr ⟨hi, by rw [hpc]; simp [Pc.Uses]⟩
    here := by
      exact here_update hs.here rfl (fun q _ => ⟨fun b _ => ⟨rfl, rfl, rfl⟩,
        fun i hi => ⟨rfl, hdesc i ((hs.here q).not_free hi).2, rfl, rfl⟩,
        fun i _ => ⟨Iff.rfl, Iff.rfl⟩, fun _ => ⟨rfl, rfl, Nat.le_refl _⟩⟩) hhere
    rings := hs.rings
    nodup := hs.nodup
    known := known_update hs.known rfl fun h hh => .inr ⟨hh, by rw [hpc]; exact id⟩ }

theorem Inv.format [DecidableEq B] (hs : s.Inv) (hpc : s.pc p = .chain .format r c) :
    Inv { s.goto p (.chain .ring r c) with
      disk := s.disk.format r c
      busy := update s.busy r.b true } := by
  have hhere := hs.here p
  rw [hpc] at hhere
  exact {
    panic := hs.panic
    held := hs.held.keep ((hs.held p).mp (by rw [hpc]; rfl)) rfl
    alone := hs.alone.update fun x hx => .inl (by rw [hpc]; exact hx)
    owned := owned_update hs.owned rfl fun i _ hi => by
      rw [hpc]
      exact (em _).imp_right fun hnot => ⟨hi, hnot⟩
    here := by
      refine here_update hs.here rfl (fun q hq => ⟨fun b hb => ⟨rfl, ?_, rfl⟩, fun i hi => ⟨rfl, ?_⟩,
        fun i _ => ⟨Iff.rfl, Iff.rfl⟩, fun _ => ⟨rfl, rfl, Nat.le_refl _⟩⟩)
        ⟨hhere.1, hhere.2.1, hhere.2.2.1, Disk.formatted_format hhere.2.1,
          update_self .., hhere.2.2.2⟩
      · refine update_of_ne ?_ ..
        rintro rfl
        exact hs.alone.not_uses (by rw [hpc]; exact .inl rfl) hq hb
      · refine Disk.format_of_notMem fun hmem => ?_
        exact hs.alone.not_uses (by rw [hpc, uses_chain]; exact hmem) hq hi
    rings := hs.rings
    nodup := hs.nodup
    known := known_update hs.known rfl fun h hh => .inr ⟨hh, by rw [hpc]; exact And.left⟩ }

omit [DecidableEq P] in
theorem Inv.avail_room (hs : s.Inv) (hpc : s.pc p = .chain pt r c) (hpt : ¬pt.Published) :
    s.hist.avail.length < s.hist.taken + num := by
  have hhead : c.head < num := by
    refine ((hs.here p).not_free (i := c.head) ?_).1
    rw [hpc, uses_chain]
    simp [Chain.toList]
  have hlt := length_lt_of_notMem hs.nodup (fun _ => hs.lt_num) hhead
    (hs.notMem_of_not_published hpc hpt)
  simp only [todo, List.length_append, List.length_drop] at hlt
  omega

omit [DecidableEq P] in
theorem Rings.slot_avail (hs : s.Inv) :
    slot s.disk.avail.idx = Fin.ofNat num s.hist.avail.length := by
  rw [slot, hs.rings.availIdx]
  exact Ring.slot_of_word (by decide) _

theorem Inv.ring (hs : s.Inv) (hpc : s.pc p = .chain .ring r c) :
    Inv { s.goto p (.chain .publish r c) with
      disk.avail.ring := update s.disk.avail.ring (slot s.disk.avail.idx) c.head } := by
  have hhere := hs.here p
  rw [hpc] at hhere
  have hlock := (hs.held p).mp (by rw [hpc]; rfl)
  exact {
    panic := hs.panic
    held := hs.held.keep hlock rfl
    alone := hs.alone.update fun x hx => .inl (by rw [hpc]; exact hx)
    owned := owned_update hs.owned rfl fun i _ hi => by
      rw [hpc]
      exact (em _).imp_right fun hnot => ⟨hi, hnot⟩
    here := by
      obtain ⟨hformat, hbusy, hdone⟩ := hhere.2.2.2
      refine here_update hs.here rfl (fun q hq => ⟨fun b hb => ⟨rfl, rfl, rfl⟩,
        fun i hi => ⟨rfl, rfl, rfl, rfl⟩, fun i _ => ⟨Iff.rfl, Iff.rfl⟩, fun hholds => ?_⟩)
        ⟨hhere.1, hhere.2.1, hhere.2.2.1,
          hformat.congr (fun _ _ => rfl) rfl rfl, hbusy, hdone, update_self ..⟩
      exact absurd hholds (by simp [hs.held.not_holds hlock hq])
    rings := { hs.rings with
      avail := by
        rw [Rings.slot_avail hs]
        exact hs.rings.avail.write (hs.avail_room hpc id) _ }
    nodup := hs.nodup
    known := known_update hs.known rfl fun h hh => .inr ⟨hh, by rw [hpc]; exact And.left⟩ }

theorem Inv.publish (hs : s.Inv) (hpc : s.pc p = .chain .publish r c) :
    Inv { s.goto p (.chain .wait r c) with
      disk.avail.idx := s.disk.avail.idx + 1
      hist.avail := s.hist.avail ++ [c.head] } := by
  have hhere := hs.here p
  rw [hpc] at hhere
  obtain ⟨hformat, hbusy, hdone, hslot⟩ := hhere.2.2.2
  have hlock := (hs.held p).mp (by rw [hpc]; rfl)
  have hnot := hs.notMem_of_not_published hpc id
  have hperm : ((s.hist.avail ++ [c.head]).drop s.hist.taken ++ s.dev.pending).Perm
      (c.head :: s.todo) := by
    rw [List.drop_append_of_le_length hs.rings.avail.le, List.append_assoc]
    exact List.perm_middle
  exact {
    panic := hs.panic
    held := hs.held.keep hlock rfl
    alone := hs.alone.update fun x hx => .inl (by rw [hpc]; exact hx)
    owned := owned_update hs.owned rfl fun i _ hi => by
      rw [hpc]
      exact (em _).imp_right fun hnot => ⟨hi, hnot⟩
    here := by
      refine here_update hs.here rfl (fun q hq => ⟨fun b hb => ⟨rfl, rfl, rfl⟩,
        fun i hi => ⟨rfl, rfl, rfl, rfl⟩, fun i hi => ⟨?_, Iff.rfl⟩, fun hholds => ?_⟩)
        ⟨hhere.1, hhere.2.1, hhere.2.2.1, hformat.congr (fun _ _ => rfl) rfl rfl,
          .todo (hperm.mem_iff.mpr List.mem_cons_self) hbusy hdone⟩
      · refine hperm.mem_iff.trans (List.mem_cons.trans (or_iff_right ?_))
        rintro rfl
        refine hs.alone.not_uses ?_ hq hi
        rw [hpc, uses_chain]
        simp [Chain.toList]
      · exact absurd hholds (by simp [hs.held.not_holds hlock hq])
    rings := { hs.rings with
      avail := by
        have hpush := hs.rings.avail.push (hs.avail_room hpc id) c.head
        rwa [← Rings.slot_avail hs, ← hslot, update_eq_self, hslot] at hpush
      availIdx := by
        have hidx := hs.rings.availIdx
        rw [UInt16.toNat_add, hidx, List.length_append]
        simp }
    nodup := by
      refine (hperm.append_right _).nodup_iff.mpr (List.nodup_cons.mpr ⟨hnot, hs.nodup⟩)
    known := known_update hs.known rfl fun h hh => by
      rcases List.mem_cons.mp ((hperm.append_right _).mem_iff.mp hh) with rfl | hh
      · exact .inl ⟨trivial, rfl⟩
      · exact .inr ⟨hh, by rw [hpc]; exact And.left⟩ }

omit [DecidableEq P] in
theorem Progress.done_of_not_busy (hs : s.Progress r c) (hbusy : s.busy r.b = false) :
    c.head ∉ s.todo ++ s.reply ∧ s.completed r.b = [r.request] := by
  cases hs with
  | todo _ h _ | reply _ h _ _ => exact absurd h (by simp [hbusy])
  | done htodo hreply _ hdone =>
    exact ⟨fun h => (List.mem_append.mp h).elim htodo hreply, hdone⟩

theorem Inv.finish [DecidableEq B] (hs : s.Inv) (hpc : s.pc p = .chain .finish r c) :
    Inv { s.release p .idle with
      disk := (s.disk.forget c.head).give c
      locked := update s.locked r.b false } := by
  have hhere := hs.here p
  rw [hpc] at hhere
  obtain ⟨-, hprogress, hbusy⟩ := hhere.2.2.2
  have hnot := (hprogress.done_of_not_busy hbusy).1
  have hlock := (hs.held p).mp (by rw [hpc]; rfl)
  exact {
    panic := hs.panic
    held := hs.held.drop hlock rfl
    alone := hs.alone.update fun x hx => hx.elim
    owned := owned_update hs.owned rfl fun i _ hi => by
      have hmem : i ∉ c.toList := by
        intro hmem
        exact absurd hi (by simp [Disk.give, hmem])
      refine .inr ⟨by simpa [Disk.give, Disk.forget, hmem] using hi, ?_⟩
      rwa [hpc, uses_chain]
    here := by
      refine here_update hs.here rfl (fun q hq => ⟨fun b hb => ⟨?_, rfl, rfl⟩, fun i hi => ?_,
        fun i _ => ⟨Iff.rfl, Iff.rfl⟩, fun _ => ⟨rfl, rfl, Nat.le_refl _⟩⟩) trivial
      · refine update_of_ne ?_ ..
        rintro rfl
        exact hs.alone.not_uses (by rw [hpc]; exact .inl rfl) hq hb
      · have hmem : i ∉ c.toList := fun hmem =>
          hs.alone.not_uses (by rw [hpc, uses_chain]; exact hmem) hq hi
        have hne : i ≠ c.head := by
          rintro rfl
          exact hmem (by simp [Chain.toList])
        exact ⟨if_neg hmem, if_neg hmem, rfl, update_of_ne hne ..⟩
    rings := hs.rings
    nodup := hs.nodup
    known := known_update hs.known rfl fun h hh => .inr ⟨hh, by
      rw [hpc]
      rintro ⟨-, rfl⟩
      exact hnot hh⟩ }

/-! ## Requests in flight -/

section Flight

omit [DecidableEq P]

theorem Stage.formatted (hs : s.Stage r c pt) (hpt : pt ≠ .format) : s.disk.Formatted r c := by
  cases pt with
  | format => exact absurd rfl hpt
  | ring | publish | wait | asleep | woken | finish => exact hs.1

theorem Stage.published (hs : s.Stage r c pt) (hpt : pt.Published) :
    s.disk.Formatted r c ∧ s.Progress r c ∧ (pt = .finish → s.busy r.b = false) := by
  cases pt with
  | format | ring | publish => exact hpt.elim
  | wait | asleep | woken => exact ⟨hs.1, hs.2, nofun⟩
  | finish => exact ⟨hs.1, hs.2.1, fun _ => hs.2.2⟩

theorem Stage.of_published (hpt : pt.Published) (hformat : s.disk.Formatted r c)
    (hprogress : s.Progress r c) (hbusy : pt = .finish → s.busy r.b = false) : s.Stage r c pt := by
  cases pt with
  | format | ring | publish => exact hpt.elim
  | wait | asleep | woken => exact ⟨hformat, hprogress⟩
  | finish => exact ⟨hformat, hprogress, hbusy rfl⟩

theorem Inv.call_of_todo (hs : s.Inv) (hmem : h ∈ s.todo) : ∃ q pt r c, s.pc q = .chain pt r c ∧
    pt.Published ∧ pt ≠ .finish ∧ c.head = h ∧ s.disk.Formatted r c ∧ s.busy r.b = true ∧
      s.completed r.b = [] := by
  obtain ⟨q, hq⟩ := hs.known h (List.mem_append_left _ hmem)
  obtain ⟨pt, r, c, hpc, hpt, rfl⟩ := Flight.exists hq
  have hhere := hs.here q
  rw [hpc] at hhere
  obtain ⟨hformat, hprogress, hfinish⟩ := hhere.2.2.2.published hpt
  cases hprogress with
  | todo _ hbusy hdone =>
    refine ⟨q, pt, r, c, hpc, hpt, fun hpt => ?_, rfl, hformat, hbusy, hdone⟩
    exact absurd (hfinish hpt) (by simp [hbusy])
  | reply hreply _ _ _ => exact absurd hreply (List.disjoint_of_nodup_append hs.nodup hmem)
  | done htodo _ _ _ => exact absurd hmem htodo

theorem Inv.call_of_reply (hs : s.Inv) (hmem : h ∈ s.reply) : ∃ q pt r c, s.pc q = .chain pt r c ∧
    pt.Published ∧ pt ≠ .finish ∧ c.head = h ∧ s.disk.Formatted r c ∧
      s.completed r.b = [r.request] ∧ (s.disk.info h).status = 0 := by
  obtain ⟨q, hq⟩ := hs.known h (List.mem_append_right _ hmem)
  obtain ⟨pt, r, c, hpc, hpt, rfl⟩ := Flight.exists hq
  have hhere := hs.here q
  rw [hpc] at hhere
  obtain ⟨hformat, hprogress, hfinish⟩ := hhere.2.2.2.published hpt
  cases hprogress with
  | todo htodo _ _ => exact absurd hmem (List.disjoint_of_nodup_append hs.nodup htodo)
  | reply _ hbusy hdone hstatus =>
    refine ⟨q, pt, r, c, hpc, hpt, fun hpt => ?_, rfl, hformat, hdone, hstatus⟩
    exact absurd (hfinish hpt) (by simp [hbusy])
  | done _ hreply _ _ => exact absurd hmem hreply

theorem Inv.reply_eq (hs : s.Inv) (hlt : s.hist.handled < s.hist.counted) :
    s.reply = s.disk.used.ring (slot s.disk.usedIdx) :: s.hist.used.drop (s.hist.handled + 1) := by
  have hlen : s.hist.handled < s.hist.used.length := by
    have := hs.rings.ahead
    omega
  have hslot : slot s.disk.usedIdx = Fin.ofNat num s.hist.handled := by
    rw [slot, hs.rings.seen]
    exact Ring.slot_of_word (by decide) _
  rw [reply, hslot, hs.rings.used.head hlen]
  exact List.drop_eq_getElem_cons hlen

end Flight

/-- **`virtio_disk_intr` processes an entry.**  There is a buffer for it. -/
theorem Inv.intrEntry [DecidableEq B] (hs : s.Inv) (hpc : s.pc p = .intrEntry) {id : Nat}
    (hid : id = s.disk.used.ring (slot s.disk.usedIdx)) :
    id < num ∧ (s.disk.info id).status = 0 ∧ ∃ b, (s.disk.info id).b = some b ∧
    Inv { s.goto p .intrLoop with
      busy := update s.busy b false
      disk.usedIdx := s.disk.usedIdx + 1
      hist.handled := s.hist.handled + 1 } := by
  have hlt : s.hist.handled < s.hist.counted := by simpa [hpc, Here] using hs.here p
  have hreply := hs.reply_eq hlt
  rw [← hid] at hreply
  have hmem : id ∈ s.reply := by
    rw [hreply]
    exact List.mem_cons_self
  have hnodup := hs.nodup
  rw [hreply] at hnodup
  have hnot : id ∉ s.hist.used.drop (s.hist.handled + 1) :=
    (List.nodup_cons.mp (List.nodup_append.mp hnodup).2.1).1
  have hnot' : id ∉ s.todo := fun h => List.disjoint_of_nodup_append hs.nodup h hmem
  have hsub : ∀ h ∈ s.todo ++ s.hist.used.drop (s.hist.handled + 1), h ∈ s.todo ++ s.reply := by
    intro h hh
    rw [hreply]
    exact List.mem_append.mpr ((List.mem_append.mp hh).imp_right (List.mem_cons_of_mem _))
  obtain ⟨q, pt, r, c, hq, hpt, hfinish, rfl, hformat, hdone, hstatus⟩ := hs.call_of_reply hmem
  have hhere := hs.here q
  rw [hq] at hhere
  have huses : (s.pc q).Uses (.inl r.b) := by rw [hq]; exact .inl rfl
  have huses' : (s.pc q).Uses (.inr c.head) := by
    rw [hq, uses_chain]
    simp [Chain.toList]
  refine ⟨(hhere.2.2.1 c.head (by simp [Chain.toList])).1, hstatus, r.b, hformat.buf, ?_⟩
  exact {
    panic := hs.panic
    held := hs.held.keep ((hs.held p).mp (by rw [hpc]; rfl)) rfl
    alone := hs.alone.update fun x hx => hx.elim
    owned := owned_update hs.owned rfl fun i _ hi => .inr ⟨hi, by rw [hpc]; exact id⟩
    here := by
      refine here_of_ne rfl (fun q' hq' => ?_) trivial
      by_cases hqq : q' = q
      · -- the call whose request has finished
        rw [hqq, hq]
        exact ⟨hhere.1, hhere.2.1, hhere.2.2.1, .of_published hpt
          (hformat.congr (fun _ _ => rfl) rfl rfl)
          (.done hnot' hnot (update_self ..) hdone) fun hpt => absurd hpt hfinish⟩
      · refine (hs.here q').frame ⟨fun b hb => ⟨rfl, update_of_ne ?_ .., rfl⟩,
          fun i _ => ⟨rfl, rfl, rfl, rfl⟩, fun i hi => ⟨Iff.rfl, ?_⟩, fun hholds => ?_⟩
        · rintro rfl
          exact hs.alone.not_uses huses hqq hb
        · rw [hreply]
          refine (List.mem_cons.trans (or_iff_right ?_)).symm
          rintro rfl
          exact hs.alone.not_uses huses' hqq hi
        · have hlock := (hs.held p).mp (by rw [hpc]; rfl)
          exact absurd hholds (by simp [hs.held.not_holds hlock hq'])
    rings := { hs.rings with
      used := hs.rings.used.pop (by have := hs.rings.ahead; omega)
      seen := by
        rw [UInt16.toNat_add, hs.rings.seen]
        simp
      handled_le := hlt }
    nodup := (List.nodup_middle.mp hnodup).of_cons
    known := known_update hs.known rfl fun h hh => .inr ⟨hsub h hh, by rw [hpc]; exact id⟩ }

/-! ## The steps of the device -/

section Device

omit [DecidableEq P]

theorem Inv.take (hs : s.Inv) (hne : s.dev.lastAvail ≠ s.disk.avail.idx) :
    Inv { s with
      dev.lastAvail := s.dev.lastAvail + 1
      dev.pending := s.dev.pending ++ [s.disk.avail.ring (slot s.dev.lastAvail)]
      hist.taken := s.hist.taken + 1 } := by
  have hlt : s.hist.taken < s.hist.avail.length := by
    refine Nat.lt_of_le_of_ne hs.rings.avail.le fun heq => hne (UInt16.toNat_inj.mp ?_)
    rw [hs.rings.lastAvail, hs.rings.availIdx, heq]
  have hslot : slot s.dev.lastAvail = Fin.ofNat num s.hist.taken := by
    rw [slot, hs.rings.lastAvail]
    exact Ring.slot_of_word (by decide) _
  have hperm : (s.hist.avail.drop (s.hist.taken + 1) ++
      (s.dev.pending ++ [s.disk.avail.ring (slot s.dev.lastAvail)])).Perm s.todo := by
    rw [todo, List.drop_eq_getElem_cons hlt, hslot, hs.rings.avail.head hlt, ← List.append_assoc]
    exact List.perm_append_singleton ..
  exact { hs with
    here := fun q => (hs.here q).frame ⟨fun b _ => ⟨rfl, rfl, rfl⟩, fun i _ => ⟨rfl, rfl, rfl, rfl⟩,
      fun i _ => ⟨hperm.mem_iff, Iff.rfl⟩, fun _ => ⟨rfl, rfl, Nat.le_refl _⟩⟩
    rings := { hs.rings with
      avail := hs.rings.avail.pop hlt
      lastAvail := by
        rw [UInt16.toNat_add, hs.rings.lastAvail]
        simp }
    nodup := (hperm.append_right _).nodup_iff.mpr hs.nodup
    known := fun h hh => hs.known h ((hperm.append_right _).mem_iff.mp hh) }

theorem Inv.count (hs : s.Inv) {n : Nat} (hn : n ≤ s.dev.ahead) :
    Inv { s with
      disk.used.idx := s.disk.used.idx + UInt16.ofNat n
      dev.ahead := s.dev.ahead - n
      hist.counted := s.hist.counted + n } :=
  { hs with
    here := fun q => (hs.here q).frame ⟨fun b _ => ⟨rfl, rfl, rfl⟩, fun i _ => ⟨rfl, rfl, rfl, rfl⟩,
      fun i _ => ⟨Iff.rfl, Iff.rfl⟩, fun _ => ⟨rfl, rfl, Nat.le_add_right ..⟩⟩
    rings := { hs.rings with
      usedIdx := by
        rw [UInt16.toNat_add, hs.rings.usedIdx, UInt16.toNat_ofNat']
        exact (Nat.add_mod ..).symm
      handled_le := Nat.le_add_right_of_le hs.rings.handled_le
      ahead := by
        have := hs.rings.ahead
        dsimp only
        omega } }

/-- **The device completes a chain.**  It finds the request of the call that waits for it. -/
theorem Inv.complete [DecidableEq B] (hs : s.Inv) (hmem : h ∈ s.dev.pending) :
    ∃ q k, s.disk.request h = some (q, k) ∧
    Inv { s with
      disk.info := update s.disk.info k { s.disk.info k with status := 0 }
      disk.used.ring :=
        update s.disk.used.ring (slot (s.disk.used.idx + UInt16.ofNat s.dev.ahead)) h
      dev.pending := s.dev.pending.erase h
      dev.ahead := s.dev.ahead + 1
      hist.used := s.hist.used ++ [h]
      completed := update s.completed q.b (s.completed q.b ++ [q]) } := by
  have htodo : h ∈ s.todo := List.mem_append_right _ hmem
  have hnot : h ∉ s.reply := List.disjoint_of_nodup_append hs.nodup htodo
  obtain ⟨p, pt, r, c, hp, hpt, hfinish, rfl, hformat, hbusy, hdone⟩ := hs.call_of_todo htodo
  refine ⟨r.request, c.head, hformat.request_eq, ?_⟩
  have hhere := hs.here p
  rw [hp] at hhere
  have huses : (s.pc p).Uses (.inl r.b) := by rw [hp]; exact .inl rfl
  have huses' : (s.pc p).Uses (.inr c.head) := by
    rw [hp, uses_chain]
    simp [Chain.toList]
  have hslot : slot (s.disk.used.idx + UInt16.ofNat s.dev.ahead) =
      Fin.ofNat num s.hist.used.length := by
    rw [slot, UInt16.toNat_add, hs.rings.usedIdx, UInt16.toNat_ofNat', ← Nat.add_mod, hs.rings.ahead]
    exact Ring.slot_of_word (by decide) _
  have hroom : s.hist.used.length < s.hist.handled + num := by
    have hlt := length_lt_of_notMem (List.nodup_append.mp hs.nodup).2.1
      (fun j hj => hs.lt_num (List.mem_append_right _ hj))
      (hs.lt_num (List.mem_append_left _ htodo)) hnot
    rw [reply, List.length_drop] at hlt
    omega
  have hreply : (s.hist.used ++ [c.head]).drop s.hist.handled = s.reply ++ [c.head] :=
    List.drop_append_of_le_length hs.rings.used.le
  have hperm : (c.head :: (s.hist.avail.drop s.hist.taken ++ s.dev.pending.erase c.head)).Perm
      s.todo :=
    List.perm_middle.symm.trans ((List.perm_cons_erase hmem).symm.append_left _)
  have hall : (s.hist.avail.drop s.hist.taken ++ s.dev.pending.erase c.head ++
      (s.hist.used ++ [c.head]).drop s.hist.handled).Perm (s.todo ++ s.reply) := by
    rw [hreply, ← List.append_assoc]
    exact (List.perm_append_singleton ..).trans (hperm.append_right _)
  have hnodup := hperm.nodup_iff.mpr (List.nodup_append.mp hs.nodup).1
  exact { hs with
    here := by
      intro q
      by_cases hqp : q = p
      · rw [hqp]
        change Here _ (s.pc p)
        rw [hp]
        refine ⟨hhere.1, hhere.2.1, hhere.2.2.1, .of_published hpt
          (hformat.congr (fun _ _ => rfl) rfl ?_) (.reply ?_ hbusy ?_ ?_) fun hpt => absurd hpt hfinish⟩
        · simp
        · rw [reply]
          dsimp only
          rw [hreply]
          exact List.mem_append_right _ (List.mem_singleton_self _)
        · simp [Call.request, hdone]
        · simp
      · refine (hs.here q).frame ⟨fun b hb => ⟨rfl, rfl, update_of_ne ?_ ..⟩,
          fun i hi => ⟨rfl, rfl, rfl, update_of_ne ?_ ..⟩, fun i hi => ⟨?_, ?_⟩,
          fun _ => ⟨rfl, rfl, Nat.le_refl _⟩⟩
        · rintro rfl
          exact hs.alone.not_uses huses hqp hb
        · rintro rfl
          exact hs.alone.not_uses huses' hqp hi
        · have hne : i ≠ c.head := by
            rintro rfl
            exact hs.alone.not_uses huses' hqp hi
          exact (or_iff_right hne).symm.trans (List.mem_cons.symm.trans hperm.mem_iff)
        · have hne : i ≠ c.head := by
            rintro rfl
            exact hs.alone.not_uses huses' hqp hi
          change i ∈ (s.hist.used ++ [c.head]).drop s.hist.handled ↔ _
          rw [hreply, List.mem_append, List.mem_singleton]
          exact or_iff_left hne
    rings := { hs.rings with
      used := by
        rw [hslot]
        exact hs.rings.used.push hroom c.head
      ahead := by
        have := hs.rings.ahead
        dsimp only
        rw [List.length_append, List.length_singleton]
        omega }
    nodup := hall.nodup_iff.mpr hs.nodup
    known := fun h hh => hs.known h (hall.mem_iff.mp hh) }

end Device

/-! ## All steps -/

theorem inv_init (P B : Type) : Inv (init P B) where
  panic := rfl
  held := .of_none fun _ => rfl
  alone _ _ _ h := h.elim
  owned i hi hfree := absurd hfree (by simp [init, hi])
  here _ := trivial
  rings := ⟨.nil _, rfl, rfl, .nil _, rfl, rfl, Nat.le_refl _, rfl⟩
  nodup := List.nodup_nil
  known h hh := absurd hh (by simp [todo, reply, init])

variable [DecidableEq B]

theorem Inv.stepChain (hs : s.Inv) (hpc : s.pc p = .chain pt r c)
    (hstep : s.stepChain p r c pt = some t) : t.Inv := by
  have hhere := hs.here p
  rw [hpc] at hhere
  have huses : ∀ pt' x, (Pc.chain pt' r c).Uses x ↔ (s.pc p).Uses x := fun _ _ => by rw [hpc]; rfl
  cases pt with
  | format =>
    cases hstep
    exact hs.format hpc
  | ring =>
    cases hstep
    exact hs.ring hpc
  | publish =>
    cases hstep
    exact hs.publish hpc
  | wait =>
    have hlock := (hs.held p).mp (by rw [hpc]; rfl)
    rw [State.stepChain] at hstep
    split at hstep
    · cases hstep
      exact hs.move (huses _) (fun _ => by rw [hpc]; rfl) (hs.held.drop hlock rfl) hhere
    · rename_i hbusy
      cases hstep
      exact hs.move (huses _) (fun _ => by rw [hpc]; rfl) (hs.held.keep hlock rfl)
        ⟨hhere.1, hhere.2.1, hhere.2.2.1, hhere.2.2.2.1, hhere.2.2.2.2, by simpa using hbusy⟩
  | asleep => cases hstep
  | woken =>
    rw [State.stepChain, State.acquire] at hstep
    split at hstep
    · rename_i hlock
      cases hstep
      exact hs.move (huses _) (fun _ => by rw [hpc]; rfl) ((hlock ▸ hs.held).take rfl) hhere
    · cases hstep
  | finish =>
    obtain ⟨-, hnodup, hfree, hformat, -⟩ := hhere
    rw [State.stepChain, hformat.freeChain_eq hnodup (fun i hi => (hfree i hi).1)
      fun i hi => (hfree i hi).2] at hstep
    cases hstep
    exact hs.finish hpc

theorem Inv.step (hs : s.Inv) (hstep : s.step p = some t) : t.Inv := by
  have hhere := hs.here p
  rw [State.step] at hstep
  split at hstep
  · cases hstep
  · cases hstep
  · -- the lock is acquired
    rename_i r hpc
    rw [State.acquire] at hstep
    split at hstep
    · rename_i hlock
      cases hstep
      rw [hpc] at hhere
      exact hs.move (fun _ => by rw [hpc]; rfl) (fun _ => by rw [hpc]; rfl)
        ((hlock ▸ hs.held).take rfl) hhere
    · cases hstep
  · rename_i r hpc
    rcases s.disk.alloc3Desc_cases with ⟨c, heq, hnodup, hc⟩ | ⟨desc, heq, hdesc⟩
    · rw [heq] at hstep
      cases hstep
      exact hs.alloc hpc hnodup hc
    · rw [heq] at hstep
      cases hstep
      exact hs.sleepFree hpc hdesc
  · rename_i pt r c hpc
    exact hs.stepChain hpc hstep
  · rename_i hpc
    rw [State.acquire] at hstep
    split at hstep
    · rename_i hlock
      cases hstep
      exact hs.move (fun _ => by rw [hpc]; rfl) (fun _ => by rw [hpc]; rfl)
        ((hlock ▸ hs.held).take rfl) trivial
    · cases hstep
  · -- are there entries to process?
    rename_i hpc
    have hlock := (hs.held p).mp (by rw [hpc]; rfl)
    split at hstep
    · rename_i hne
      cases hstep
      refine hs.move (fun _ => by rw [hpc]; rfl) (fun _ => by rw [hpc]; rfl)
        (hs.held.keep hlock rfl) ?_
      refine Nat.lt_of_le_of_ne hs.rings.handled_le fun heq => hne (UInt16.toNat_inj.mp ?_)
      rw [hs.rings.seen, hs.rings.usedIdx, heq]
    · cases hstep
      exact hs.move (fun _ => by rw [hpc]; rfl) (fun _ => by rw [hpc]; rfl)
        (hs.held.drop hlock rfl) trivial
  · rename_i hpc
    obtain ⟨-, hstatus, b, hb, ht⟩ := hs.intrEntry hpc rfl
    dsimp only at hstep
    rw [if_neg (by simp [hstatus]), hb] at hstep
    cases hstep
    exact ht

theorem Inv.next (hs : s.Inv) {a : Act P B} (hstep : s.next a = some t) : t.Inv := by
  unfold State.next at hstep
  rw [if_neg (by simp [hs.panic])] at hstep
  cases a with
  | rw p r =>
    dsimp only at hstep
    split at hstep
    · rename_i hpc
      split at hstep
      · cases hstep
      · rename_i hlocked
        cases hstep
        exact hs.rw hpc (by simpa using hlocked)
    · cases hstep
  | intr p =>
    dsimp only at hstep
    split at hstep
    · rename_i hpc
      cases hstep
      exact hs.move (fun _ => by rw [hpc]; rfl) (fun _ => by rw [hpc]; rfl)
        (hs.held.outside (by rw [hpc]; rfl) rfl) trivial
    · cases hstep
  | step p => exact hs.step hstep
  | wake p =>
    have hhere := hs.here p
    dsimp only at hstep
    split at hstep
    · rename_i r hpc
      cases hstep
      rw [hpc] at hhere
      exact hs.move (fun _ => by rw [hpc]; rfl) (fun _ => by rw [hpc]; rfl)
        (hs.held.outside (by rw [hpc]; rfl) rfl) hhere
    · rename_i r c hpc
      cases hstep
      rw [hpc] at hhere
      exact hs.move (fun _ => by rw [hpc]; rfl) (fun _ => by rw [hpc]; rfl)
        (hs.held.outside (by rw [hpc]; rfl) rfl) hhere
    · cases hstep
  | take =>
    dsimp only at hstep
    split at hstep
    · rename_i hne
      cases hstep
      exact hs.take hne
    · cases hstep
  | complete h =>
    dsimp only at hstep
    split at hstep
    · rename_i hmem
      obtain ⟨q, k, hq, ht⟩ := hs.complete hmem
      rw [hq] at hstep
      cases hstep
      exact ht
    · cases hstep
  | count n =>
    dsimp only at hstep
    split at hstep
    · rename_i hn
      cases hstep
      exact hs.count hn
    · cases hstep

end Lemmas

section Main

variable [DecidableEq P] [DecidableEq B] {s : State P B}

/-- **The virtio request protocol**, in every state that the driver and the device can reach.

* Nothing has panicked.
* Each call that has descriptors has three, which are not free and belong to no other call; they are
  chained once they are formatted.  Every descriptor is free or belongs to a call, so all are free when
  no call is in progress.
* When a call is about to return, the device has completed its request, once.
* An entry of the used ring that is processed has a buffer and the status 0.
* The entries of the rings that have not been consumed are still there.
* The device can always complete what it has taken. -/
theorem virtio_protocol {as : List (Act P B)} (hrun : Machine.run next (init P B) as = some s) :
    s.panic = none ∧
    (∀ p k r c, s.pc p = .chain k r c → c.toList.Nodup ∧
      (∀ i ∈ c.toList, i < num ∧ s.disk.free i = false ∧
        ∀ q k' r' c', s.pc q = .chain k' r' c' → i ∈ c'.toList → q = p) ∧
      (k ≠ .format → s.disk.Formatted r c)) ∧
    (∀ i < num, s.disk.free i = true ∨ ∃ p k r c, s.pc p = .chain k r c ∧ i ∈ c.toList) ∧
    ((∀ p, (s.pc p).inRw = false) → ∀ i < num, s.disk.free i = true) ∧
    (∀ p r c, s.pc p = .chain .finish r c → s.completed r.b = [r.request]) ∧
    (∀ p id, s.pc p = .intrEntry → id = s.disk.used.ring (slot s.disk.usedIdx) →
      id < num ∧ (s.disk.info id).status = 0 ∧ (s.disk.info id).b ≠ none) ∧
    Ring.Holds s.disk.avail.ring s.hist.avail s.hist.taken ∧
    Ring.Holds s.disk.used.ring s.hist.used s.hist.handled ∧
    (∀ h ∈ s.dev.pending, (s.next (.complete h)).isSome) := by
  have hs : s.Inv := Machine.Reachable.induction ⟨as, hrun⟩ (inv_init P B) fun _ _ _ hs ht => hs.next ht
  have hfree : ∀ i < num, s.disk.free i = true ∨ ∃ p k r c, s.pc p = .chain k r c ∧ i ∈ c.toList := by
    intro i hi
    rcases Bool.eq_false_or_eq_true (s.disk.free i) with hfree | hfree
    · exact .inl hfree
    · obtain ⟨p, hp⟩ := hs.owned i hi hfree
      obtain ⟨k, r, c, hpc, hmem⟩ := uses_inr hp
      exact .inr ⟨p, k, r, c, hpc, hmem⟩
  refine ⟨hs.panic, fun p k r c hpc => ?_, hfree, fun hidle i hi => ?_, fun p r c hpc => ?_,
    fun p id hpc hid => ?_, hs.rings.avail, hs.rings.used, fun h hh => ?_⟩
  · have hhere := hs.here p
    rw [hpc] at hhere
    refine ⟨hhere.2.1, fun i hi => ⟨(hhere.2.2.1 i hi).1, (hhere.2.2.1 i hi).2,
      fun q k' r' c' hq hi' => ?_⟩, hhere.2.2.2.formatted⟩
    exact hs.alone q p (.inr i) (by rwa [hq, uses_chain]) (by rwa [hpc, uses_chain])
  · refine (hfree i hi).resolve_right ?_
    rintro ⟨p, k, r, c, hpc, -⟩
    exact absurd (hidle p) (by simp [hpc, Pc.inRw])
  · have hhere := hs.here p
    rw [hpc] at hhere
    obtain ⟨-, hprogress, hbusy⟩ := hhere.2.2.2
    exact (hprogress.done_of_not_busy hbusy).2
  · obtain ⟨hlt, hstatus, b, hb, -⟩ := hs.intrEntry hpc hid
    exact ⟨hlt, hstatus, by simp [hb]⟩
  · obtain ⟨q, k, hq, -⟩ := hs.complete hh
    simp only [next, hs.panic, Option.isSome_none, Bool.false_eq_true, if_false, if_pos hh, hq,
      Option.isSome_some]

end Main

instance : NeZero 3 := ⟨by decide⟩

/-- Two calls, whose requests are completed in the other order, and an interrupt. -/
def twoCalls : List (Act (Fin 3) Bool) :=
  [.rw 0 ⟨true, 5, true⟩, .rw 1 ⟨false, 7, false⟩] ++ List.replicate 6 (.step 0) ++
    List.replicate 6 (.step 1) ++
  [.take, .take, .complete 3, .complete 0, .count 2, .intr 2] ++ List.replicate 6 (.step 2) ++
  [.wake 1, .step 1, .step 1, .step 1, .wake 0, .step 0, .step 0, .step 0]

theorem virtio_protocol_twoCalls : ∃ s, Machine.run next (init (Fin 3) Bool) twoCalls = some s ∧
    ∀ i < num, s.disk.free i = true := by
  have heval : ((Machine.run next (init (Fin 3) Bool) twoCalls).map fun s =>
      ((s.pc 0).inRw, (s.pc 1).inRw, (s.pc 2).inRw)) = some (false, false, false) := by
    decide +kernel
  obtain ⟨s, hs, hpc⟩ := Option.map_eq_some_iff.mp heval
  simp only [Prod.mk.injEq] at hpc
  refine ⟨s, hs, (virtio_protocol hs).2.2.2.1 fun p => ?_⟩
  match p with
  | 0 => exact hpc.1
  | 1 => exact hpc.2.1
  | 2 => exact hpc.2.2

end State

end Xv6.Virtio
