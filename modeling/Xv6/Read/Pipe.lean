import Xv6.Exec.Whole
import Xv6.Read.Copyout

/-!
# Reading a pipe into memory that may not be there

`piperead` takes a byte out of the pipe before it knows whether it can be stored.  The loop ends in one of
two ways: it has moved as many bytes as it could, or it has met an address that is not mapped, and then
one byte more is gone from the pipe than has been stored (`wp_pipeCopy`).
-/

namespace Xv6

namespace Read

open Heap Prog Vm Pipes

def avail (pi : Pipe) : Nat := (pi.nwrite - pi.nread).toNat

/-- The pipe after `k` bytes have been taken out. -/
def skip (pi : Pipe) (k : Nat) : Pipe := { pi with nread := pi.nread + .ofNat k }

def byteAt (pi : Pipe) (k : Nat) : UInt8 := (skip pi k).front

section Pipe

variable {b : Boot} {s t : State} {root n addr : Nat} {top : Nat → Nat} {E : Stop → State → Prop}
  {pi : Pipe}

theorem skip_zero (pi : Pipe) : skip pi 0 = pi := by
  rw [skip]
  congr 1
  exact UInt32.add_zero _

theorem skip_advance (pi : Pipe) (k : Nat) : skip pi.advance k = skip pi (k + 1) := by
  rw [skip, skip, Pipe.advance]
  congr 1
  simp only [UInt32.ofNat_add, UInt32.add_assoc, UInt32.add_comm 1]
  rfl

theorem byteAt_advance (pi : Pipe) (k : Nat) : byteAt pi.advance k = byteAt pi (k + 1) := by
  rw [byteAt, byteAt, skip_advance]

theorem byteAt_zero (pi : Pipe) : byteAt pi 0 = pi.front := by rw [byteAt, skip_zero]

theorem empty_iff (pi : Pipe) : pi.Empty ↔ avail pi = 0 := by
  have hr := pi.nread.toNat_lt
  have hw := pi.nwrite.toNat_lt
  rw [Pipe.Empty, avail, ← UInt32.toNat_inj, UInt32.toNat_sub]
  omega

theorem avail_advance (h : ¬pi.Empty) : avail pi = avail pi.advance + 1 := by
  have hr := pi.nread.toNat_lt
  have hw := pi.nwrite.toNat_lt
  have hone : (1 : UInt32).toNat = 1 := rfl
  have hnext : avail pi.advance = (pi.nwrite - (pi.nread + 1)).toNat := rfl
  rw [Pipe.Empty, ← UInt32.toNat_inj] at h
  rw [hnext, avail, UInt32.toNat_sub, UInt32.toNat_sub, UInt32.toNat_add, hone]
  omega

theorem skip_succ_ne (pi : Pipe) (k : Nat) :
    (skip pi (k + 1)).nread ≠ pi.nread + .ofNat k := by
  have hr := pi.nread.toNat_lt
  rw [skip, ← UInt32.toNat_inj.ne]
  simp only [ne_eq, UInt32.toNat_add, UInt32.toNat_ofNat']
  omega

theorem wp_pipeWait {fuel : Nat} :
    wp (pipeWait fuel) (fun _ u => u.ram = s.ram ∧ u.stored = s.stored) (fun _ _ => True) s := by
  induction fuel generalizing s with
  | zero => trivial
  | succ fuel ih =>
    rw [pipeWait, wp_bind, wp_get, wp_ite]
    split
    · refine .bind (wp_killedOrSleep trivial ⟨rfl, rfl⟩ fun t hram hlog => ?_)
      rw [if_neg (by simp), ← hram, ← hlog]
      exact ih
    · exact ⟨rfl, rfl⟩

/-- **The loop that copies** stops when it has moved as many bytes as it could, or at an address that is
not mapped. -/
theorem wp_pipeCopy {Q : Int → State → Prop} {k i : Nat} (h : Space b s.ram root top n)
    (htop : Supervisor top) (haddr : addr + i < 2 ^ 64)
    (hfull : ∀ t j, j = min k (avail s.pipe) → (∀ m < j, uaddr s.ram.page root (addr + i + m) ≠ none) →
      t.pipe = skip s.pipe j → Stored b s.ram t.ram root top n (addr + i) j (byteAt s.pipe) →
      Within b s t root top n (addr + i) (addr + i + k) → Q (i + j : Nat) t)
    (hfault : ∀ t j, j < min k (avail s.pipe) → uaddr s.ram.page root (addr + i + j) = none →
      t.pipe = skip s.pipe (j + 1) → Stored b s.ram t.ram root top n (addr + i) j (byteAt s.pipe) →
      Within b s t root top n (addr + i) (addr + i + k) → Q (i + j : Nat) t) :
    wp (pipeCopy root addr k i) Q E s := by
  have hstay : ∀ k', Within b s s root top n (addr + i) k' := fun k' => .of_eq h rfl rfl _ _
  induction k generalizing s i with
  | zero =>
    exact hfull s 0 (Nat.zero_min _).symm (fun m hm => absurd hm (Nat.not_lt_zero m))
      (skip_zero _).symm (.refl h ..) (hstay _)
  | succ k ih =>
    rw [pipeCopy, wp_bind, wp_get, wp_ite]
    split
    · rename_i hempty
      rw [empty_iff] at hempty
      refine hfull s 0 (by rw [hempty, Nat.min_zero]) (fun m hm => absurd hm (Nat.not_lt_zero m))
        (skip_zero _).symm (.refl h ..) (hstay _)
    · rename_i hne
      have havail := avail_advance hne
      rw [wp_bind, wp_set, wp_bind, u64_of_lt haddr]
      refine wp_copyOut h htop fun r u hst hr hpipe hlog => ?_
      have hpipe : u.pipe = s.pipe.advance := hpipe
      have hwithin : Within b s u root top n (addr + i) (addr + i + (k + 1)) :=
        within_of_stored hst le_rfl (Nat.add_le_add_left ((reach_le ..).trans (by omega)) _) hlog
      rcases hr with ⟨rfl, hstop, hlt⟩ | ⟨rfl, hreach⟩
      · -- the byte is gone, and has not been stored
        rw [if_pos rfl]
        rw [Nat.lt_one_iff.mp hlt] at hst hstop
        refine hfault u 0 (by omega) hstop ?_ (hst.congr fun m hm => absurd hm (Nat.not_lt_zero m)) hwithin
        rw [hpipe, Nat.zero_add, ← skip_advance, skip_zero]
      · rw [if_neg (by decide)]
        have hhere : uaddr s.ram.page root (addr + i) ≠ none :=
          mapped_of_reach (hreach ▸ Nat.one_pos)
        have hnext : addr + (i + 1) < 2 ^ 64 := by
          obtain ⟨pa, hpa⟩ := Option.ne_none_iff_exists'.mp hhere
          have hv := (h.of_uaddr htop hpa).1
          have hn := h.le_ram
          simp only [pgsize] at hv
          omega
        rw [hreach] at hst
        have hsame : ∀ va, uaddr u.ram.page root va = uaddr s.ram.page root va := fun va =>
          uaddr_congr hst.entry rfl
        -- what the other rounds store comes after the first byte
        have hjoin : ∀ {t : State} {j : Nat},
            Stored b u.ram t.ram root top n (addr + (i + 1)) j (byteAt u.pipe) →
            Stored b s.ram t.ram root top n (addr + i) (j + 1) (byteAt s.pipe) := by
          intro t j ht
          rw [Nat.add_comm j]
          refine (hst.congr fun m hm => ?_).trans (ht.congr fun m _ => ?_)
          · rw [Nat.lt_one_iff.mp hm, byteAt_zero]
          · rw [hpipe, byteAt_advance]
        have hafter : ∀ {t : State},
            Within b u t root top n (addr + (i + 1)) (addr + (i + 1) + k) →
            Within b s t root top n (addr + i) (addr + i + (k + 1)) := fun ht =>
          hwithin.trans (ht.mono (by omega) (by omega))
        refine ih hst.space hnext (fun t j hj hmapped htpipe ht hin => ?_)
          (fun t j hj hstop htpipe ht hin => ?_) fun k' => .of_eq hst.space rfl rfl _ _
        · have hq := hfull t (j + 1) (by rw [hj, hpipe]; omega) (fun m hm => ?_) ?_ (hjoin ht) (hafter hin)
          · rwa [show i + (j + 1) = i + 1 + j by omega] at hq
          · cases m with
            | zero => exact hhere
            | succ m =>
              have hm := hmapped m (by omega)
              rwa [hsame, show addr + (i + 1) + m = addr + i + (m + 1) by omega] at hm
          · rw [htpipe, hpipe, skip_advance]
        · have hq := hfault t (j + 1) (by rw [hpipe] at hj; omega) ?_ ?_ (hjoin ht) (hafter hin)
          · rwa [show i + (j + 1) = i + 1 + j by omega] at hq
          · rwa [hsame, show addr + (i + 1) + j = addr + i + (j + 1) by omega] at hstop
          · rw [htpipe, hpipe, skip_advance]

/-- **`piperead` loses nothing if and only if every byte that it takes can be stored.**  Here `u` is the
state when it starts to copy. -/
theorem piperead_loses_nothing_iff {len r : Int} (h : Space b s.ram root top n) (htop : Supervisor top)
    (haddr : addr < 2 ^ 64) (hrun : piperead root addr len s = .ok r t) (hr : 0 ≤ r) :
    ∃ u, pipeWait (s.wakes.length + 1) s = .ok true u ∧ u.ram = s.ram ∧
      ((t.pipe.nread = u.pipe.nread + .ofNat r.toNat ∧
        Stored b s.ram t.ram root top n addr r.toNat (byteAt u.pipe)) ↔
      ∀ i < min len.toNat (avail u.pipe), uaddr s.ram.page root (addr + i) ≠ none) := by
  refine (wp_of_ok (Q := fun r t => 0 ≤ r →
    ∃ u, pipeWait (s.wakes.length + 1) s = .ok true u ∧ u.ram = s.ram ∧
      ((t.pipe.nread = u.pipe.nread + .ofNat r.toNat ∧
        Stored b s.ram t.ram root top n addr r.toNat (byteAt u.pipe)) ↔
      ∀ i < min len.toNat (avail u.pipe), uaddr s.ram.page root (addr + i) ≠ none))
    (E := fun _ _ => True) hrun).mp ?_ hr
  rw [piperead, wp_bind, wp_get, wp_bind]
  refine wp_pipeWait.exec.mono_ok ?_
  rintro go u ⟨⟨hram, -⟩, hwait⟩
  cases go with
  | false =>
    rw [if_neg (by simp)]
    exact fun hneg => absurd hneg (by decide)
  | true =>
    rw [if_pos rfl]
    have hspace : Space b u.ram root top n := by rwa [hram]
    refine wp_pipeCopy hspace htop haddr (fun t j hj hmapped hpipe hst _ => ?_)
      fun t j hj hstop hpipe hst _ => ?_
    · rw [hram] at hst hmapped
      simp only [Nat.add_zero] at hst hmapped
      refine fun _ => ⟨u, hwait, hram, fun _ i hi => ?_, fun _ => ⟨?_, ?_⟩⟩
      · exact hmapped i (by omega)
      · rw [hpipe, Int.toNat_natCast, Nat.zero_add]
        rfl
      · rwa [Int.toNat_natCast, Nat.zero_add]
    · rw [hram] at hstop
      simp only [Nat.add_zero] at hstop
      refine fun _ => ⟨u, hwait, hram, fun hgood => ?_, fun hall => absurd hstop (hall j hj)⟩
      have hread := hgood.1
      rw [hpipe, Int.toNat_natCast, Nat.zero_add] at hread
      exact absurd hread (skip_succ_ne u.pipe j)

end Pipe

/-! ## A pipe with one byte -/

def onePipe : Pipe := ⟨fun _ => 7, 0, 1, true, true⟩

/-- A process that reads it, with the memory `ram`. -/
def onePipeState (ram : Ram) : State where
  ram := ram
  vol := ⟨fun _ _ => 0, fun _ => 0, fun _ => false, fun _ => Fs.Dinode.zero, 0, false, []⟩
  file := ⟨.pipe, 1, true, false, 0, 0, 0, 0⟩
  pipe := onePipe
  cons := ⟨fun _ => 0, 0, 0, 0⟩
  wakes := []
  stored := []

def pageRam : Ram := final (uvmalloc smallBoot smallBoot.kend 0 pgsize pteW) (Exec.firstRam 8)

theorem space_firstRam : Space smallBoot (Exec.firstRam 8) smallBoot.kend (procTop smallBoot Exec.firstTf) 0 ∧
    smallBoot.Free (Exec.firstRam 8) := by
  obtain ⟨hok, hfree⟩ := Exec.firstProc_ok (.inl rfl)
  exact ⟨hok.space, hfree⟩

theorem space_pageRam : Space smallBoot pageRam smallBoot.kend (procTop smallBoot Exec.firstTf) 1 := by
  obtain ⟨hspace, hfree⟩ := space_firstRam
  have hrun : uvmalloc smallBoot smallBoot.kend 0 pgsize pteW (Exec.firstRam 8) = .ok pgsize pageRam :=
    eq_ok_of_value (by decide +kernel)
  have hwp : wp (uvmalloc smallBoot smallBoot.kend 0 pgsize pteW)
      (fun r t => r = pgsize → Space smallBoot t smallBoot.kend (procTop smallBoot Exec.firstTf) 1)
      (fun _ _ => True) (Exec.firstRam 8) :=
    Space.wp_uvmalloc hspace hfree (by decide) (by decide) (fun _ _ _ _ h => absurd h (by decide))
      fun _ ht _ _ _ _ => ht
  exact (wp_of_ok hrun).mp hwp rfl

/-- With a page for the byte, it is stored, and gone from the pipe. -/
theorem piperead_loses_nothing_iff_page : ∃ t,
    piperead smallBoot.kend 0 1 (onePipeState pageRam) = .ok 1 t ∧ t.pipe.nread = 1 := by
  have hrun : piperead smallBoot.kend 0 1 (onePipeState pageRam) = .ok 1 (final _ _) :=
    eq_ok_of_value (by decide +kernel)
  obtain ⟨u, hu, -, hiff⟩ := piperead_loses_nothing_iff space_pageRam (supervisor_procTop _ _) (by decide)
    hrun (by decide)
  obtain rfl : onePipeState pageRam = u := by
    have hwait : pipeWait 1 (onePipeState pageRam) = .ok true (onePipeState pageRam) := rfl
    have heq := hwait.symm.trans hu
    injection heq
  refine ⟨_, hrun, (hiff.mpr fun i hi => ?_).1⟩
  have hi : i = 0 := by
    have havail : avail (onePipeState pageRam).pipe = 1 := rfl
    rw [havail] at hi
    omega
  subst hi
  decide +kernel

/-- **Without one, it is gone from the pipe as well**: the call returns 0, but `nread` has moved. -/
theorem piperead_loses_byte : ∃ t,
    Space smallBoot (Exec.firstRam 8) smallBoot.kend (procTop smallBoot Exec.firstTf) 0 ∧
    piperead smallBoot.kend 0 1 (onePipeState (Exec.firstRam 8)) = .ok 0 t ∧
    (onePipeState (Exec.firstRam 8)).pipe.nread = 0 ∧ t.pipe.nread = 1 :=
  ⟨final _ _, space_firstRam.1, eq_ok_of_value (by decide +kernel), rfl, by decide +kernel⟩

end Read

end Xv6
