import Xv6.Fs.Sound
import Xv6.Read.Pipe

/-!
# `read` stores no more than was asked for

For a pipe and for the console this is so for every `n`: their loops compare it as an `int`.  `readi` takes it
for a `uint`, and a negative number is then a very large one.
-/

namespace Xv6

namespace Read

open Heap Prog Vm

/-- The inodes once the inode of the file has been locked, with its size read from the disk. -/
def locked (L : Fs.Layout) (s : State) : Fs.Vol := final (Fs.Vol.ilock L s.file.ip) s.vol

/-- A read of an inode that does not go beyond what was asked for: the number is not negative, or it is
caught, or there is nothing to read, or nothing can be stored or read. -/
def Fits (L : Fs.Layout) (vol : Fs.Vol) (page : Nat → Page) (root addr i : Nat) (off : UInt32) (len : Int) :
    Prop :=
  0 ≤ len ∨ -len ≤ off.toNat ∨ (vol.mem i).size.toNat ≤ off.toNat ∨ uaddr page root addr = none ∨
    ∃ v, Fs.Vol.bmap L i (off.toNat / bsize) vol = .ok 0 v

section Bounds

variable {b : Boot} {L : Fs.Layout} {s t : State} {root n addr : Nat} {top : Nat → Nat}

theorem int32_le (k : Nat) : int32 k ≤ k := by
  rw [int32, Int.bmod]
  split <;> omega

section

variable (h : Space b s.ram root top n) (htop : Supervisor top)
include h htop

theorem add_lt_of_mapped {va k : Nat}
    (hva : uaddr s.ram.page root va ≠ none) (hk : k < 2 ^ 63) : va + k < 2 ^ 64 := by
  obtain ⟨pa, hpa⟩ := Option.ne_none_iff_exists'.mp hva
  have hv := (h.of_uaddr htop hpa).1
  have hn := h.le_ram
  simp only [pgsize] at hv
  omega

theorem wp_consoleFrom {target fuel k : Nat} (haddr : addr < 2 ^ 64) (hk : k ≤ target) :
    wp (consoleFrom root target fuel addr k)
      (fun r t => r ≤ target ∧ Within b s t root top n addr (addr + k)) (fun _ _ => True) s := by
  induction fuel generalizing s addr k with
  | zero => trivial
  | succ fuel ih =>
    have hstay : ∀ {t : State}, t.ram = s.ram → t.stored = s.stored →
        Within b s t root top n addr (addr + k) := fun hram hlog => .of_eq h hram hlog _ _
    cases k with
    | zero => exact ⟨le_rfl, hstay rfl rfl⟩
    | succ k =>
      rw [consoleFrom, wp_bind, wp_get, wp_ite]
      split
      · refine .bind (wp_killedOrSleep trivial ⟨by omega, hstay rfl rfl⟩ fun u hram hlog => ?_)
        rw [if_neg (by simp)]
        refine (ih (by rwa [hram]) haddr hk).mono_ok fun r t ht => ⟨ht.1, ?_⟩
        exact (hstay hram hlog).trans ht.2
      · rw [wp_bind, wp_set, wp_ite]
        split
        · -- `^D`
          show wp (if _ then _ else _) _ _ _
          rw [wp_ite]
          split
          · exact ⟨by omega, hstay rfl rfl⟩
          · exact ⟨by omega, hstay rfl rfl⟩
        · refine .bind (wp_copyOut h htop fun r u hst hr _ hlog => ?_)
          have hle := reach_le s.ram.page root addr 1
          have hbyte : Within b s u root top n addr (addr + (k + 1)) :=
            within_of_stored hst le_rfl (Nat.add_le_add_left (by omega) addr) hlog
          rw [wp_ite]
          split
          · exact ⟨by omega, hbyte⟩
          rename_i hne
          obtain ⟨rfl, hreach⟩ := hr.resolve_left fun hr => hne hr.1
          rw [wp_ite]
          split
          · exact ⟨by omega, hbyte⟩
          · have hhere : uaddr s.ram.page root addr ≠ none :=
              mapped_of_reach (hreach ▸ Nat.one_pos)
            have hnext := add_lt_of_mapped (k := 1) h htop hhere (by decide)
            rw [u64_of_lt hnext]
            refine (ih hst.space hnext (by omega)).mono_ok fun r t ht => ⟨ht.1, ?_⟩
            exact hbyte.trans (ht.2.mono (by omega) (by omega))

theorem wp_readFrom {i off m fuel tot : Nat}
    (haddr : addr + tot < 2 ^ 64) (htot : tot ≤ m) (hm : m < 2 ^ 32) :
    wp (readFrom L root addr i off m fuel tot)
      (fun r t => r ≤ m ∧ Within b s t root top n addr (addr + m)) (fun _ _ => True) s := by
  induction fuel generalizing s tot with
  | zero => exact ⟨(int32_le tot).trans (by omega), .of_eq h rfl rfl _ _⟩
  | succ fuel ih =>
    have hret : int32 tot ≤ m := (int32_le tot).trans (by omega)
    rw [readFrom, wp_ite]
    split
    swap
    · exact ⟨hret, .of_eq h rfl rfl _ _⟩
    rename_i hlt
    rw [wp_bind, wp_onVol]
    refine (wp_true _).mono_ok fun a v _ => ?_
    generalize hu : ({ s with vol := v } : State) = u
    have hstay : Within b s u root top n addr (addr + m) := .of_eq h (by rw [← hu]) (by rw [← hu]) _ _
    rw [wp_ite]
    split
    · exact ⟨hret, hstay⟩
    rw [wp_bind, wp_get, wp_bind, u64_of_lt haddr]
    generalize hc : min (m - tot) (bsize - (off + tot) % bsize) = c
    have hmod : (off + tot) % bsize < bsize := Nat.mod_lt _ (by decide)
    have hcle : tot + c ≤ m ∧ 0 < c := by omega
    refine wp_copyOut hstay.space htop fun r w hst hr _ hlog => ?_
    have hle := reach_le u.ram.page root (addr + tot) c
    have hbytes : Within b s w root top n addr (addr + m) :=
      hstay.trans (within_of_stored hst (Nat.le_add_right ..) (by omega) hlog)
    rw [wp_ite]
    split
    · exact ⟨by omega, hbytes⟩
    rename_i hne
    obtain ⟨rfl, hreach⟩ := hr.resolve_left fun hr => hne hr.1
    have hlast : uaddr u.ram.page root (addr + tot) ≠ none :=
      mapped_of_reach (hreach.symm ▸ hcle.2)
    have hnext := add_lt_of_mapped (k := c) hstay.space htop hlast (by omega)
    exact (ih hst.space (by omega) hcle.1).mono_ok fun r t ht => ⟨ht.1, hbytes.trans ht.2⟩

theorem wp_readFrom_first {i off m : Nat}
    (haddr : addr < 2 ^ 64) (hm : m < 2 ^ 32) (hpos : 0 < m) (hmapped : uaddr s.ram.page root addr ≠ none)
    (hblock : ∀ v, Fs.Vol.bmap L i (off / bsize) s.vol ≠ .ok 0 v) :
    wp (readFrom L root addr i off m m 0) (fun _ t => addr ∈ t.stored) (fun _ _ => True) s := by
  obtain ⟨fuel, rfl⟩ := Nat.exists_eq_succ_of_ne_zero hpos.ne'
  rw [readFrom, if_pos hpos, wp_bind, wp_onVol]
  refine (wp_true _).exec.mono_ok ?_
  rintro a v ⟨-, hrun⟩
  rw [Nat.add_zero] at hrun
  have ha : a ≠ 0 := by
    rintro rfl
    exact hblock v hrun
  generalize hu : ({ s with vol := v } : State) = u
  have hram : u.ram = s.ram := by rw [← hu]
  have hspace : Space b u.ram root top n := by rwa [hram]
  rw [if_neg ha, wp_bind, wp_get, wp_bind, Nat.add_zero, u64_of_lt haddr]
  generalize hc : min (fuel + 1 - 0) (bsize - (off + 0) % bsize) = c
  have hmod : (off + 0) % bsize < bsize := Nat.mod_lt _ (by decide)
  have hcle : 0 + c ≤ fuel + 1 ∧ 0 < c := by omega
  refine wp_copyOut hspace htop fun r w hst hr _ hlog => ?_
  have hreach : 0 < reach u.ram.page root addr c := reach_pos (by rwa [hram]) hcle.2
  have hmem : addr ∈ w.stored := by
    rw [hlog]
    exact List.mem_append_right _ (List.mem_map.mpr ⟨0, List.mem_range.mpr hreach, Nat.add_zero addr⟩)
  rw [wp_ite]
  split
  · exact hmem
  · have hnext := add_lt_of_mapped (k := c) hspace htop (by rwa [hram]) (by omega)
    refine (wp_readFrom hst.space htop (by omega) hcle.1 hm).mono_ok fun _ t ht => ?_
    obtain ⟨l, hl, -⟩ := ht.2.log
    rw [hl]
    exact List.mem_append_left _ hmem

theorem wp_readFrom_none {i off m : Nat} (haddr : addr < 2 ^ 64)
    (hnone : uaddr s.ram.page root addr = none ∨ ∃ v, Fs.Vol.bmap L i (off / bsize) s.vol = .ok 0 v) :
    wp (readFrom L root addr i off m m 0)
      (fun r t => r ≤ 0 ∧ Within b s t root top n addr addr) (fun _ _ => True) s := by
  have hzero : int32 (0 : Nat) ≤ 0 := by decide
  cases m with
  | zero => exact ⟨hzero, .of_eq h rfl rfl _ _⟩
  | succ fuel =>
    rw [readFrom, if_pos (Nat.succ_pos fuel), wp_bind, wp_onVol]
    refine (wp_true _).exec.mono_ok ?_
    rintro a v ⟨-, hrun⟩
    rw [Nat.add_zero] at hrun
    generalize hu : ({ s with vol := v } : State) = u
    have hram : u.ram = s.ram := by rw [← hu]
    have hstay : Within b s u root top n addr addr := .of_eq h hram (by rw [← hu]) _ _
    rw [wp_ite]
    split
    · exact ⟨hzero, hstay⟩
    rename_i ha
    have hnone : uaddr u.ram.page root addr = none := by
      rw [hram]
      refine hnone.resolve_right ?_
      rintro ⟨v', hrun'⟩
      rw [hrun] at hrun'
      injection hrun' with ha'
      exact ha ha'
    rw [wp_bind, wp_get, wp_bind, Nat.add_zero, u64_of_lt haddr]
    generalize hc : min (fuel + 1 - 0) (bsize - (off + 0) % bsize) = c
    have hmod : (off + 0) % bsize < bsize := Nat.mod_lt _ (by decide)
    have hreach : reach u.ram.page root addr c = 0 := by
      by_contra hne
      exact mapped_of_reach (Nat.pos_of_ne_zero hne) hnone
    refine wp_copyOut hstay.space htop fun r w hst hr _ hlog => ?_
    have hw : Within b s w root top n addr addr :=
      hstay.trans (within_of_stored hst le_rfl (by omega) hlog)
    rcases hr with ⟨rfl, -⟩ | ⟨rfl, hfull⟩
    · rw [if_pos rfl]
      exact ⟨by decide, hw⟩
    · exact absurd hfull (by omega)

end

theorem toNat_ofInt {len : Int} (hlen : -2 ^ 31 ≤ len ∧ len < 2 ^ 31) :
    (UInt32.ofInt len).toNat = if 0 ≤ len then len.toNat else (2 ^ 32 + len).toNat := by
  rw [UInt32.ofInt, UInt32.toNat_ofNat']
  split <;> omega

/-- **`readi`** keeps to the buffer if and only if the number fits. -/
theorem wp_readi {i : Nat} {off : UInt32} {len : Int} (h : Space b s.ram root top n)
    (htop : Supervisor top) (haddr : addr < 2 ^ 64) (hlen : -2 ^ 31 ≤ len ∧ len < 2 ^ 31) :
    wp (readi L root addr i off (.ofInt len)) (fun r t =>
      (∃ hi, Within b s t root top n addr hi) ∧
      (Fits L s.vol s.ram.page root addr i off len →
        r ≤ max len 0 ∧ Within b s t root top n addr (addr + len.toNat)) ∧
      (¬Fits L s.vol s.ram.page root addr i off len → len < 0 ∧ addr ∈ t.stored)) (fun _ _ => True) s := by
  have hn := toNat_ofInt hlen
  have hsize := (s.vol.mem i).size.toNat_lt
  rw [readi, wp_bind, wp_get, wp_ite]
  split
  · rename_i hout
    refine ⟨⟨addr, .of_eq h rfl rfl _ _⟩, fun _ => ⟨le_max_right .., .of_eq h rfl rfl _ _⟩, fun hfit => ?_⟩
    refine absurd ?_ hfit
    rw [Fits]
    split at hn <;> omega
  · rename_i hin
    generalize hm : (if (s.vol.mem i).size.toNat < off.toNat + (UInt32.ofInt len).toNat then
      (s.vol.mem i).size.toNat - off.toNat else (UInt32.ofInt len).toNat) = m
    have hmlt : m < 2 ^ 32 := by
      have hlt := (UInt32.ofInt len).toNat_lt
      split at hm <;> omega
    by_cases hneg : 0 ≤ len
    · rw [if_pos hneg] at hn
      have hle : m ≤ len.toNat := by split at hm <;> omega
      refine (wp_readFrom h htop haddr (Nat.zero_le m) hmlt).mono_ok fun r t ht => ?_
      refine ⟨⟨_, ht.2⟩, fun _ => ⟨by omega, ht.2.mono le_rfl (by omega)⟩, fun hfit => ?_⟩
      exact absurd (.inl hneg) hfit
    · rw [if_neg hneg] at hn
      have hpos : len.toNat = 0 := by omega
      rw [hpos, Nat.add_zero]
      have hloop : wp (readFrom L root addr i off.toNat m m 0)
          (fun r t => r ≤ m ∧ Within b s t root top n addr (addr + m)) (fun _ _ => True) s :=
        wp_readFrom h htop haddr (Nat.zero_le m) hmlt
      by_cases hfit : Fits L s.vol s.ram.page root addr i off len
      · have hnothing : wp (readFrom L root addr i off.toNat m m 0)
            (fun r t => r ≤ 0 ∧ Within b s t root top n addr addr) (fun _ _ => True) s := by
          rcases hfit with hlen | hcaught | hend | hnone
          · exact absurd hlen hneg
          · exact absurd hcaught (by omega)
          · have hm0 : m = 0 := by split at hm <;> omega
            rw [hm0] at hloop ⊢
            exact hloop
          · exact wp_readFrom_none h htop haddr hnone
        refine hnothing.mono_ok fun r t ht => ⟨⟨_, ht.2⟩, fun _ => ⟨by omega, ht.2⟩, ?_⟩
        exact fun hnot => absurd hfit hnot
      · have hnot := hfit
        rw [Fits, not_or, not_or, not_or, not_or] at hnot
        obtain ⟨-, -, hend, hmapped, hblock⟩ := hnot
        have hpos : 0 < m := by split at hm <;> omega
        have hfirst := wp_readFrom_first (L := L) h htop haddr hmlt hpos hmapped
          fun v hrun => hblock ⟨v, hrun⟩
        refine (hloop.and hfirst).mono (fun r t ht => ?_) fun _ _ _ => trivial
        exact ⟨⟨_, ht.1.2⟩, fun hyes => absurd hyes hfit, fun _ => ⟨by omega, ht.2⟩⟩

def Bounded (L : Fs.Layout) (s : State) (root addr : Nat) (len : Int) : Prop :=
  s.file.readable = true → s.file.type = .inode →
    Fits L (locked L s) s.ram.page root addr s.file.ip s.file.off len

theorem wp_fileread {len : Int} (h : Space b s.ram root top n) (htop : Supervisor top)
    (haddr : addr < 2 ^ 64) (hlen : -2 ^ 31 ≤ len ∧ len < 2 ^ 31) :
    wp (fileread L root addr len) (fun r t =>
      (∃ hi, Within b s t root top n addr hi) ∧
      (Bounded L s root addr len → r ≤ max len 0 ∧ Within b s t root top n addr (addr + len.toNat)) ∧
      (¬Bounded L s root addr len → len < 0 ∧ addr ∈ t.stored)) (fun _ _ => True) s := by
  -- pipes and devices keep to the buffer, and so does a file that cannot be read
  have hgood : ∀ {r : Int} {t : State}, Bounded L s root addr len → r ≤ max len 0 →
      Within b s t root top n addr (addr + len.toNat) →
      (∃ hi, Within b s t root top n addr hi) ∧
      (Bounded L s root addr len → r ≤ max len 0 ∧ Within b s t root top n addr (addr + len.toNat)) ∧
      (¬Bounded L s root addr len → len < 0 ∧ addr ∈ t.stored) := fun hb hr ht =>
    ⟨⟨_, ht⟩, fun _ => ⟨hr, ht⟩, fun hnot => absurd hb hnot⟩
  have hstay : Within b s s root top n addr (addr + len.toNat) := .of_eq h rfl rfl _ _
  rw [fileread, wp_bind, wp_get, wp_ite]
  split
  · rename_i hread
    exact hgood (fun hr => absurd (hr.symm.trans hread) (by decide)) (by omega) hstay
  rename_i hread
  cases htype : s.file.type with
  | none => trivial
  | pipe =>
    have hb : Bounded L s root addr len := fun _ hi => absurd (htype.symm.trans hi) (by decide)
    rw [piperead, wp_bind, wp_get, wp_bind]
    refine wp_pipeWait.mono_ok fun go u hu => ?_
    have hu' : Within b s u root top n addr (addr + len.toNat) := .of_eq h hu.1 hu.2 _ _
    rw [wp_ite]
    split
    · refine wp_pipeCopy hu'.space htop haddr (fun t j hj _ _ _ ht => ?_) fun t j hj _ _ _ ht => ?_
      · exact hgood hb (by omega) (hu'.trans ht)
      · exact hgood hb (by omega) (hu'.trans ht)
    · exact hgood hb (by omega) hu'
  | device =>
    have hb : Bounded L s root addr len := fun _ hi => absurd (htype.symm.trans hi) (by decide)
    rw [wp_ite]
    split
    · exact hgood hb (by omega) hstay
    · rw [consoleread, wp_bind, wp_get]
      refine (wp_consoleFrom h htop haddr le_rfl).mono_ok fun r t ht => ?_
      exact hgood hb (by omega) ht.2
  | inode =>
    rw [wp_bind, wp_onVol]
    refine (wp_true _).exec.mono_ok ?_
    rintro _ v ⟨-, hlock⟩
    have hlocked : locked L s = v := by rw [locked, final, hlock]
    have hb : Bounded L s root addr len ↔ Fits L v s.ram.page root addr s.file.ip s.file.off len := by
      rw [Bounded, hlocked]
      exact ⟨fun hb => hb (Bool.eq_true_of_not_eq_false hread) htype, fun hf _ _ => hf⟩
    have hlock' : ∀ hi, Within b s { s with vol := v } root top n addr hi := fun hi =>
      .of_eq (t := { s with vol := v }) h rfl rfl addr hi
    refine .bind ((wp_readi (s := { s with vol := v }) h htop haddr hlen).mono_ok fun r t ht => ?_)
    obtain ⟨⟨hi, hin⟩, hgood, hbad⟩ := ht
    -- moving the offset leaves memory alone
    have hend : ∀ {t' : State}, t'.ram = t.ram → t'.stored = t.stored →
        (∃ hi, Within b s t' root top n addr hi) ∧
        (Bounded L s root addr len → r ≤ max len 0 ∧
          Within b s t' root top n addr (addr + len.toNat)) ∧
        (¬Bounded L s root addr len → len < 0 ∧ addr ∈ t'.stored) := by
      intro t' hram hlog
      rw [hb]
      refine ⟨⟨hi, ?_⟩, fun hf => ⟨(hgood hf).1, ?_⟩, fun hnot => ?_⟩
      · exact (hlock' hi).trans (hin.congr hram hlog)
      · exact (hlock' _).trans ((hgood hf).2.congr hram hlog)
      · rw [hlog]
        exact hbad hnot
    show wp (if _ then _ else _) _ _ t
    rw [wp_ite]
    split
    · exact hend rfl rfl
    · exact hend rfl rfl

/-- **`fileread` keeps to the buffer, in what it stores and in what it returns, if and only if the number
of bytes is not a negative one that gets through.** -/
theorem fileread_bounded_iff {len r : Int} (h : Space b s.ram root top n) (htop : Supervisor top)
    (haddr : addr < 2 ^ 64) (hlen : -2 ^ 31 ≤ len ∧ len < 2 ^ 31) (hlog : s.stored = [])
    (hrun : fileread L root addr len s = .ok r t) :
    (∀ va, va ∉ t.stored → ubyte t.ram root va = ubyte s.ram root va) ∧
    ((r ≤ max len 0 ∧ ∀ a ∈ t.stored, addr ≤ a ∧ a < addr + len.toNat) ↔ Bounded L s root addr len) := by
  obtain ⟨⟨hi, hin⟩, hgood, hbad⟩ := (wp_of_ok hrun).mp (wp_fileread (L := L) h htop haddr hlen)
  refine ⟨hin.same, fun hkept => ?_, fun hb => ⟨(hgood hb).1, fun a ha => ?_⟩⟩
  · by_contra hnot
    obtain ⟨hneg, hmem⟩ := hbad hnot
    have hlt := (hkept.2 addr hmem).2
    omega
  · obtain ⟨l, hl, hrange⟩ := (hgood hb).2.log
    rw [hl, hlog, List.nil_append] at ha
    exact hrange a ha

end Bounds

/-! ## A file of one byte -/

/-- A process with one page of memory, and an open file that has one byte. -/
def oneByte : State :=
  { onePipeState pageRam with
    vol := {
      block := fun _ _ => 7
      ref := fun _ => 1
      valid := fun _ => true
      mem := fun _ => { Fs.Dinode.zero with type := 2, nlink := 1, size := 1, addrs := fun _ => 5 }
      inuse := 1
      inOp := false
      logged := [] }
    file := ⟨.inode, 1, true, false, 0, 2, 0, 0⟩ }

/-- One byte is asked for. -/
theorem fileread_bounded_iff_oneByte : ∃ t,
    fileread Fs.Vol.smallLayout smallBoot.kend 0 1 oneByte = .ok 1 t ∧ ∀ a ∈ t.stored, a < 1 := by
  have hrun : fileread Fs.Vol.smallLayout smallBoot.kend 0 1 oneByte = .ok 1 (final _ _) :=
    eq_ok_of_value (by decide +kernel)
  have hiff := (fileread_bounded_iff (b := smallBoot) (n := 1) space_pageRam
    (supervisor_procTop smallBoot Exec.firstTf) (by decide) (by decide) rfl hrun).2
  exact ⟨_, hrun, fun a ha => ((hiff.mpr fun _ _ => .inl (by decide)).2 a ha).2⟩

/-- **Minus one byte is asked for, and the byte is stored.** -/
theorem fileread_negative : ∃ t,
    Space smallBoot oneByte.ram smallBoot.kend (procTop smallBoot Exec.firstTf) 1 ∧
    fileread Fs.Vol.smallLayout smallBoot.kend 0 (-1) oneByte = .ok 1 t ∧ t.stored = [0] ∧
    ubyte oneByte.ram smallBoot.kend 0 = some 0 ∧ ubyte t.ram smallBoot.kend 0 = some 7 :=
  ⟨final _ _, space_pageRam, eq_ok_of_value (by decide +kernel), by decide +kernel, by decide +kernel,
    by decide +kernel⟩

end Read

end Xv6
