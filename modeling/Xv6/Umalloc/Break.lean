import Xv6.Umalloc.Runs

/-!
# `malloc` and the break

`morecore` computes `nu * sizeof(Header)` in 64 bits, and `sbrk` takes an `int`.  From 2³¹ bytes on the
kernel is asked for something else: to take memory away, which it does as far as there is any, or for
nothing, or for a few bytes.  It returns the old break all the same.
-/

namespace Xv6.Umalloc

open Machine

variable {base lo top n nu : Nat} {m : Mem} {s t : State} {ok : Bool}

/-- `sys_sbrk(arg)` when the break is at `brk` units: the new break, or `none` for -1.  `growproc` leaves
the break where it is if more is to be taken away than there is. -/
def sbrk (top : Nat) (ok : Bool) (brk : Nat) (arg : Int) : Option Nat :=
  if 0 < arg then
    if ok = true ∧ brk + (arg / 16).toNat ≤ top then some (brk + (arg / 16).toNat) else none
  else if 0 ≤ 16 * (brk : Int) + arg then some (brk + arg / 16).toNat
  else some brk

/-- There are 256 units in a page, and pages are there up to the break. -/
def mapped (brk a : Nat) : Prop := a < (brk + 255) / 256 * 256

instance (brk a : Nat) : Decidable (mapped brk a) := inferInstanceAs (Decidable (_ < _))

/-- `morecore` with the kernel's `sbrk`.  It does not return if the header cannot be stored. -/
def morecoreInt (top n : Nat) (ok : Bool) (s : State) (nu : Nat) : Option (Option Nat × State) :=
  let nu := coreUnits nu
  match sbrk top ok s.brk (BitVec.ofNat 32 (nu * 16)).toInt with
  | none => some (none, s)
  | some brk =>
    let hp := s.brk
    if mapped brk hp then
      (free n { s with mem := s.mem.setSize hp (.ofNat nu), brk } hp).map fun s => (some s.freep, s)
    else none

def scanInt (top : Nat) (ok : Bool) (nunits : Nat) : Nat → State → Nat → Nat →
    Option (Option Nat × State) :=
  scanWith (fun n s => morecoreInt top n ok s nunits) nunits

/-- `malloc`: the result is null or the header of the block. -/
def mallocInt (base top n : Nat) (ok : Bool) (s : State) (nbytes : UInt32) :
    Option (Option Nat × State) :=
  let s := init base s
  scanInt top ok (units nbytes) n s s.freep (s.mem s.freep).ptr

/-- One step; `free` and stores are for blocks in use. -/
def nextInt (base top n : Nat) (s : State) : Act → Option State
  | .malloc nbytes ok =>
    (mallocInt base top n ok s nbytes).map fun (r, s) => { s with live := r.toList ++ s.live }
  | a => next base top n s a

/-- `morecore` asks for less than 2³¹ bytes. -/
def Small (nbytes : UInt32) : Prop := coreUnits (units nbytes) * 16 < 2 ^ 31

instance : DecidablePred Small := fun _ => inferInstanceAs (Decidable (_ < _))

/-- The call returns and does not lower the break, and the `nbytes` bytes behind the header of its block
are below it. -/
def Granted (base top n : Nat) (ok : Bool) (s : State) (nbytes : UInt32) : Prop :=
  ∃ r t, mallocInt base top n ok s nbytes = some (r, t) ∧ s.brk ≤ t.brk ∧
    ∀ p, r = some p → 16 * (p + 1) + nbytes.toNat ≤ 16 * t.brk

/-! ## Small requests -/

theorem coreUnits_pos (nu : Nat) : 0 < coreUnits nu := by
  rw [coreUnits]
  split <;> omega

theorem morecoreInt_eq (h : coreUnits nu * 16 < 2 ^ 31) :
    morecoreInt top n ok s nu = morecore top n ok s nu := by
  have hpos := coreUnits_pos nu
  have harg : (BitVec.ofNat 32 (coreUnits nu * 16)).toInt = (coreUnits nu * 16 : Nat) := by
    rw [BitVec.toInt_eq_toNat_cond, BitVec.toNat_ofNat, Nat.mod_eq_of_lt (by omega),
      if_pos (by omega)]
  have hunits : (((coreUnits nu * 16 : Nat) : Int) / 16).toNat = coreUnits nu := by omega
  rw [morecoreInt, morecore, harg, sbrk, if_pos (by omega), hunits]
  dsimp only
  by_cases hok : ok = true ∧ s.brk + coreUnits nu ≤ top
  · have hmapped : mapped (s.brk + coreUnits nu) s.brk := by
      rw [mapped]
      omega
    rw [if_pos hok, if_pos hok]
    exact if_pos hmapped
  · rw [if_neg hok, if_neg hok]

theorem mallocInt_eq {nbytes : UInt32} (h : Small nbytes) :
    mallocInt base top n ok s nbytes = malloc base top n ok s nbytes := by
  simp only [mallocInt, scanInt, morecoreInt_eq h, malloc, scan]

theorem nextInt_eq {a : Act} (h : ∀ nbytes ok, a = .malloc nbytes ok → Small nbytes) :
    nextInt base top n s a = next base top n s a := by
  cases a with
  | malloc nbytes ok =>
    have hallowed : Act.Allowed s (.malloc nbytes ok) := h nbytes ok rfl
    rw [nextInt, mallocInt_eq hallowed, next, if_pos hallowed, Act.exec, Option.map_map]
    rfl
  | free bp => rfl
  | store a v => rfl

/-! ## The break -/

theorem free_brk {bp : Nat} (h : free n s bp = some t) : t.brk = s.brk := by
  obtain ⟨p, -, rfl⟩ := Option.map_eq_some_iff.mp h
  rfl

theorem takeBlock_brk (s : State) (nu prevp p : Nat) : (takeBlock s nu prevp p).2.brk = s.brk := by
  rw [takeBlock]
  split <;> rfl

theorem brk_le_of_morecore {r : Option Nat} (h : morecore top n ok s nu = some (r, t)) :
    s.brk ≤ t.brk := by
  rw [morecore] at h
  dsimp only at h
  split at h
  · obtain ⟨u, hu, he⟩ := Option.map_eq_some_iff.mp h
    cases he
    rw [free_brk hu]
    exact Nat.le_add_right _ _
  · cases h
    exact le_rfl

theorem brk_le_of_scan {prevp p : Nat} {r : Option Nat} (h : scan top ok nu n s prevp p = some (r, t)) :
    s.brk ≤ t.brk := by
  induction n generalizing s prevp p with
  | zero => cases h
  | succ n ih =>
    rw [scan, scanWith] at h
    split at h
    · cases h
      exact (takeBlock_brk ..).ge
    · split at h
      · split at h
        · cases h
        · rename_i hmore
          cases h
          exact brk_le_of_morecore hmore
        · rename_i hmore
          exact (brk_le_of_morecore hmore).trans (ih h)
      · exact ih h

theorem Heap.stop_le (h : Heap base lo s) {p : Nat} (hp : p ∈ s.live) : s.mem.stop p ≤ s.brk := by
  rcases h with ⟨-, hlive, -⟩ | ⟨F, L, h⟩
  · rw [hlive] at hp
    cases hp
  · obtain ⟨x, hx, rfl⟩ := List.mem_map.mp (h.live.subset hp)
    rw [Mem.stop, h.size x hx]
    exact (h.bound x (List.mem_append_right F hx)).2

section

variable (h0 : 0 < base) (hbase : base < lo) (htop : top < lo + 2 ^ 32) (hn : 2 * (top - lo) + 4 ≤ n)
include h0 hbase htop hn

theorem Heap.granted (h : Heap base lo s) (hbrk : s.brk ≤ top) {nbytes : UInt32}
    (hsmall : Small nbytes) : Granted base top n ok s nbytes := by
  obtain ⟨r, t, hexec, ht, -, -, hblock⟩ := h.malloc h0 hbase htop hn hbrk nbytes ok
  obtain ⟨⟨r', t'⟩, hmalloc, he⟩ := Option.map_eq_some_iff.mp hexec
  cases he
  refine ⟨r, t', (mallocInt_eq hsmall).trans hmalloc, ?_, fun p hp => ?_⟩
  · exact (init_brk base s).symm.trans_le (brk_le_of_scan hmalloc)
  · obtain ⟨hmem, hsize⟩ := hblock p hp
    have hstop := ht.stop_le hmem
    have hbytes := bytes_le_units nbytes
    have hpos := units_pos nbytes
    rw [Mem.stop, hsize] at hstop
    dsimp only at hstop
    omega

theorem heap_of_run {as : List Act} (hlo : lo ≤ top)
    (hsmall : ∀ nbytes ok, Act.malloc nbytes ok ∈ as → Small nbytes)
    (h : run (nextInt base top n) (State.start m lo) as = some s) : Heap base lo s ∧ s.brk ≤ top := by
  refine run_induction_of_forall_mem (I := fun s => Heap base lo s ∧ s.brk ≤ top) (P := (· ∈ as)) h
    (fun _ ha => ha) ⟨.inl ⟨rfl, rfl, rfl⟩, hlo⟩ ?_
  intro s a t hs ha hstep
  rw [nextInt_eq fun nbytes ok he => hsmall nbytes ok (he ▸ ha)] at hstep
  exact Heap.next h0 hbase htop hn hs hstep

end

/-- **`malloc` hands out what the kernel has granted**, in every run whose requests are below 2³¹
bytes.  The kernel has 2²³ units of memory. -/
theorem malloc_granted {as : List Act} (h0 : 0 < base) (hbase : base < lo) (hlo : lo ≤ top)
    (htop : top ≤ 2 ^ 23) (hn : 2 * (top - lo) + 4 ≤ n)
    (hsmall : ∀ nbytes ok, Act.malloc nbytes ok ∈ as → Small nbytes)
    (h : run (nextInt base top n) (State.start m lo) as = some s) (ok : Bool) (nbytes : UInt32)
    (hnbytes : Small nbytes) : Granted base top n ok s nbytes := by
  have htop' : top < lo + 2 ^ 32 := by omega
  obtain ⟨hheap, hbrk⟩ := heap_of_run h0 hbase htop' hn hlo hsmall h
  exact hheap.granted h0 hbase htop' hn hbrk hnbytes

theorem malloc_granted_small : ∃ s, run (nextInt 1 8192 16388) (State.start (fun _ => ⟨0, 0⟩) 256)
    [.malloc 70000 true] = some s ∧ Granted 1 8192 16388 true s 20 := by
  have hrun : (run (nextInt 1 8192 16388) (State.start (fun _ => ⟨0, 0⟩) 256)
      [.malloc 70000 true]).isSome = true := by decide +kernel
  obtain ⟨s, hs⟩ := Option.isSome_iff_exists.mp hrun
  refine ⟨s, hs, malloc_granted (by decide) (by decide) (by decide) (by decide) (by decide) ?_ hs true
    20 (by decide)⟩
  intro nbytes ok hmem
  obtain ⟨rfl, -⟩ := Act.malloc.inj (List.mem_singleton.mp hmem)
  decide

/-- The block reaches above the break, or the break is lower than before. -/
def Short (s : State) (nbytes : UInt32) (x : Option Nat × State) : Bool :=
  x.2.brk < s.brk || x.1.any fun p => 16 * x.2.brk < 16 * (p + 1) + nbytes.toNat

theorem not_granted_of_short {nbytes : UInt32}
    (h : (mallocInt base top n ok s nbytes).any (Short s nbytes) = true) :
    ¬ Granted base top n ok s nbytes := by
  rintro ⟨r, t, hmalloc, hbrk, hblock⟩
  rw [hmalloc, Option.any_some, Short, Bool.or_eq_true, decide_eq_true_eq] at h
  rcases h with h | h
  · exact absurd hbrk (Nat.not_le.mpr h)
  · obtain ⟨p, hp, hlt⟩ := (Option.any_eq_true ..).mp h
    exact absurd (hblock p hp) (Nat.not_le.mpr (of_decide_eq_true hlt))

/-- After 70000 bytes the break is inside a page.  The next request, for 2³¹ bytes, is granted nothing
and gets a block at the break; one for 2³² - 48 bytes lowers the break. -/
theorem malloc_not_granted :
    ∃ s, run (nextInt 1 8192 16388) (State.start (fun _ => ⟨0, 0⟩) 256) [.malloc 70000 true] = some s ∧
      ¬ Granted 1 8192 16388 true s (2 ^ 31) ∧ ¬ Granted 1 8192 16388 true s (2 ^ 32 - 48) := by
  have hrun : (run (nextInt 1 8192 16388) (State.start (fun _ => ⟨0, 0⟩) 256)
      [.malloc 70000 true]).any (fun s =>
        (mallocInt 1 8192 16388 true s (2 ^ 31)).any (Short s (2 ^ 31)) &&
          (mallocInt 1 8192 16388 true s (2 ^ 32 - 48)).any (Short s (2 ^ 32 - 48))) = true := by
    decide +kernel
  obtain ⟨s, hs, hshort⟩ := (Option.any_eq_true ..).mp hrun
  obtain ⟨h₁, h₂⟩ := Bool.and_eq_true_iff.mp hshort
  exact ⟨s, hs, not_granted_of_short h₁, not_granted_of_short h₂⟩

end Xv6.Umalloc
