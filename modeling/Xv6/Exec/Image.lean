import Xv6.Exec.Whole

/-!
# The memory image of a program

What a file says about the memory of its program, and that `exec` makes it so.  The invariant of the
loop over the headers is `Image`: the segments so far are in place with their permissions, everything
else below the size is zero.  A segment that has pages starts at or above the size that has been
reached, so neither the pages that are added for it nor its bytes touch the earlier ones.
-/

namespace Xv6

namespace Exec

open Heap Prog Vm

/-! ## What the file says -/

def headerAt (file : File) (i : Nat) : Proghdr :=
  proghdr ((file.data.drop ((elfOf file).phoff + i * proghdrSize)).take proghdrSize)

def headers (file : File) : List Proghdr := (List.range (elfOf file).phnum).map (headerAt file)

def loads (l : List Proghdr) : List Proghdr := l.filter (·.type = elfProgLoad)

def Proghdr.HasPage (ph : Proghdr) (v : Nat) : Prop :=
  ph.vaddr / pgsize ≤ v ∧ v * pgsize < ph.vaddr + ph.memsz

/-- The address `va` is one of those that get bytes of the file. -/
def Proghdr.HasByte (ph : Proghdr) (va : Nat) : Prop := ph.vaddr ≤ va ∧ va < ph.vaddr + ph.filesz

def Proghdr.Before (ph ph' : Proghdr) : Prop :=
  ph.vaddr ≤ ph'.vaddr ∧ ∀ v, ph.HasPage v → ¬ph'.HasPage v

def endOf (l : List Proghdr) : Nat := l.foldl (fun e ph => max e (ph.vaddr + ph.memsz)) 0

/-- The permissions that a segment asks for, with `PTE_V`. -/
def asked (flags : Nat) : Nat :=
  pteV + pteR + pteU + (if flags.testBit 0 then pteX else 0) + if flags.testBit 1 then pteW else 0

structure Inside (file : File) : Prop where
  table : 0 < (elfOf file).phnum →
    (elfOf file).phoff + (elfOf file).phnum * proghdrSize ≤ file.data.length
  inside : ∀ ph ∈ loads (headers file), 0 < ph.filesz → ph.off + ph.filesz ≤ file.data.length

/-- `Inside`, once what does not fit 32 bits has been cut off the offsets. -/
structure Inside32 (file : File) : Prop where
  table : 0 < (elfOf file).phnum →
    u32 (elfOf file).phoff + (elfOf file).phnum * proghdrSize ≤ file.data.length
  inside : ∀ ph ∈ loads (phdrsOf file), 0 < ph.filesz → u32 ph.off + ph.filesz ≤ file.data.length

structure Regular (file : File) : Prop extends Inside file where
  aligned : ∀ ph ∈ loads (headers file), ph.vaddr % pgsize = 0
  ascending : (loads (headers file)).Pairwise Proghdr.Before

theorem asked_eq (flags : Nat) : pteR ||| pteU ||| flags2perm flags ||| pteV = asked flags := by
  have hX : flags &&& 1 ≠ 0 ↔ flags.testBit 0 = true := by
    rw [show (1 : Nat) = 2 ^ 0 from rfl, Nat.and_two_pow]
    cases flags.testBit 0 <;> decide
  have hW : flags &&& 2 ≠ 0 ↔ flags.testBit 1 = true := by
    rw [show (2 : Nat) = 2 ^ 1 from rfl, Nat.and_two_pow]
    cases flags.testBit 1 <;> decide
  simp only [flags2perm, asked, hX, hW]
  split <;> split <;> decide

section Image

variable {b : Boot} {file : File} {root sz sz' : Nat} {top : Nat → Nat} {s t : Ram}
  {done phs : List Proghdr} {ph : Proghdr}

/-- The segments of a list have been loaded, and the size `sz` has been reached. -/
structure Image (b : Boot) (file : File) (root : Nat) (top : Nat → Nat) (l : List Proghdr) (sz : Nat)
    (t : Ram) : Prop where
  space : Space b t root top (pgs sz)
  user : User t root (pgs sz)
  size : sz = endOf l
  filesz : ∀ ph ∈ l, ph.filesz ≤ ph.memsz
  flags : ∀ ph ∈ l, ∀ v, ph.HasPage v → pteFlags (entry t.page root v) = asked ph.flags
  byte : ∀ ph ∈ l, ∀ i < ph.filesz, ubyte t root (ph.vaddr + i) = some (fileAt file ph.off i)
  zero : ∀ va < pgs sz * pgsize, (∀ ph ∈ l, ¬ph.HasByte va) → ubyte t root va = some 0

theorem endOf_append (l : List Proghdr) (ph : Proghdr) :
    endOf (l ++ [ph]) = max (endOf l) (ph.vaddr + ph.memsz) := by
  rw [endOf, List.foldl_append]
  rfl

theorem le_endOf (h : ph ∈ phs) : ph.vaddr + ph.memsz ≤ endOf phs := by
  induction phs using List.reverseRecOn with
  | nil => exact absurd h (by simp)
  | append_singleton l q ih =>
    rw [endOf_append]
    rcases List.mem_append.mp h with h | h
    · exact (ih h).trans (Nat.le_max_left ..)
    · rw [List.mem_singleton.mp h]
      exact Nat.le_max_right ..

theorem endOf_le {e : Nat} (h : ∀ ph ∈ phs, ph.vaddr + ph.memsz ≤ e) : endOf phs ≤ e := by
  induction phs using List.reverseRecOn with
  | nil => exact Nat.zero_le e
  | append_singleton l q ih =>
    rw [endOf_append]
    exact Nat.max_le.mpr ⟨ih fun ph hph => h ph (List.mem_append_left _ hph),
      h q (List.mem_append_right l (List.mem_singleton.mpr rfl))⟩

/-- **A segment with pages starts above all earlier ones.** -/
theorem endOf_le_vaddr (h : ∀ q ∈ done, q.Before ph) (halign : ph.vaddr % pgsize = 0)
    (hmem : 0 < ph.memsz) : endOf done ≤ ph.vaddr := by
  refine endOf_le fun q hq => ?_
  obtain ⟨hle, hapart⟩ := h q hq
  by_contra hlt
  have hpage : ph.vaddr / pgsize * pgsize = ph.vaddr := Nat.div_mul_cancel (Nat.dvd_of_mod_eq_zero halign)
  exact hapart (ph.vaddr / pgsize) ⟨Nat.div_le_div_right hle, by omega⟩ ⟨le_rfl, by omega⟩

theorem ubyte_fresh {u : Ram} {n n' perm va : Nat} (h : Space b t root top n') (huser : User t root n')
    (hentry : entry t.page root = entry u.page root) (hfresh : Fresh u root n n' perm)
    (hlow : n * pgsize ≤ va) (hva : va < n' * pgsize) : ubyte u root va = some 0 := by
  have hv : va / pgsize < n' := Nat.div_lt_of_lt_mul (by rwa [Nat.mul_comm])
  have hv' : n ≤ va / pgsize := (Nat.le_div_iff_mul_le (by decide)).mpr hlow
  have huaddr := uaddr_of_user h huser hva
  rw [uaddr_congr hentry rfl, hentry] at huaddr
  rw [ubyte, huaddr, Option.map_some, (hfresh _ hv' hv).2, Bytes.byte, dif_pos (Nat.mod_lt va (by decide))]

theorem Image.load (h : Image b file root top done sz s) (hload : Loaded b file root top ph sz s sz' t)
    (hinside : 0 < ph.filesz → ph.off + ph.filesz ≤ file.data.length)
    (hbefore : ∀ q ∈ done, q.Before ph) : Image b file root top (done ++ [ph]) sz' t := by
  obtain ⟨u, hkeeps, hfresh, hstored⟩ := hload.steps
  have hspace := hstored.space
  have huser : User t root (pgs sz') := (h.user.grow hkeeps hfresh).stored hstored
  have hsize : sz' = max sz (ph.vaddr + ph.memsz) := hload.size
  have hmono : pgs sz ≤ pgs sz' := pgs_mono (by omega)
  have hfit : ph.vaddr + ph.memsz ≤ pgs sz' * pgsize := (le_pgs_mul sz').trans' (by omega)
  have hfilesz : u32 ph.filesz = ph.filesz := by
    have hram := hspace.le_ram
    have hle := hload.filesz
    refine u32_of_lt ?_
    simp only [pgsize] at *
    omega
  have hoff : 0 < ph.filesz → u32 ph.off = ph.off := by
    intro hpos
    have hlen := file.le
    refine u32_of_lt ?_
    simp only [maxFile, ndirect, nindirect, bsize] at *
    omega
  -- a segment with pages starts above the others
  have habove : 0 < ph.memsz → sz ≤ ph.vaddr := by
    intro hpos
    rw [h.size]
    exact endOf_le_vaddr hbefore hload.aligned hpos
  have hbyte : ∀ va, ¬ph.HasByte va → ubyte t root va = ubyte u root va := by
    intro va hva
    rw [hstored.byte, if_neg (by rw [hfilesz]; exact hva)]
  have hold : ∀ q ∈ done, q.vaddr + q.memsz ≤ sz := by
    intro q hq
    rw [h.size]
    exact le_endOf hq
  refine ⟨hspace, huser, ?_, ?_, ?_, ?_, ?_⟩
  · rw [endOf_append, hsize, h.size]
  · intro q hq
    rcases List.mem_append.mp hq with hq | hq
    · exact h.filesz q hq
    · rw [List.mem_singleton.mp hq]
      exact hload.filesz
  · intro q hq v hv
    rcases List.mem_append.mp hq with hq | hq
    · have hlt : v < pgs sz := by
        have hq := hold q hq
        have hv := hv.2
        have hsz := le_pgs_mul sz
        exact Nat.lt_of_mul_lt_mul_right (a := pgsize) (by omega)
      rw [hstored.entry, hkeeps.entry v hlt]
      exact h.flags q hq v hv
    · rw [List.mem_singleton.mp hq] at hv ⊢
      have hge : pgs sz ≤ v := by
        have hle := hv.1
        have hlt := hv.2
        have halign := hload.aligned
        have habove := habove
        rw [pgs_le_iff]
        simp only [pgsize] at *
        omega
      have hlt : v < pgs sz' := by
        have hlt := hv.2
        exact Nat.lt_of_mul_lt_mul_right (a := pgsize) (by omega)
      rw [hstored.entry, (hfresh v hge hlt).1, asked_eq]
  · intro q hq i hi
    rcases List.mem_append.mp hq with hq | hq
    · have hle := h.filesz q hq
      have hend := hold q hq
      have hout : ¬ph.HasByte (q.vaddr + i) := by
        rintro ⟨hge, hlt⟩
        have hle := hload.filesz
        have habove := habove (by omega)
        omega
      rw [hbyte _ hout, ubyte_keeps hkeeps ((le_pgs_mul sz).trans_lt' (by omega))]
      exact h.byte q hq i hi
    · rw [List.mem_singleton.mp hq] at hi ⊢
      rw [hstored.byte, if_pos (by omega), Nat.add_sub_cancel_left, hoff (by omega)]
  · intro va hva hno
    rw [hbyte va (hno ph (List.mem_append_right done (List.mem_singleton.mpr rfl)))]
    by_cases hlow : va < pgs sz * pgsize
    · rw [ubyte_keeps hkeeps hlow]
      exact h.zero va hlow fun q hq => hno q (List.mem_append_left _ hq)
    · exact ubyte_fresh hspace huser hstored.entry hfresh (Nat.le_of_not_lt hlow) hva

theorem Image.chain (h : Image b file root top done sz s) (hchain : Chain b file root top phs sz s sz' t)
    (hinside : ∀ ph ∈ loads phs, 0 < ph.filesz → ph.off + ph.filesz ≤ file.data.length)
    (hbefore : (done ++ loads phs).Pairwise Proghdr.Before) :
    Image b file root top (done ++ loads phs) sz' t := by
  induction hchain generalizing done with
  | nil sz s =>
    rw [loads, List.filter_nil, List.append_nil]
    exact h
  | skip hskip _ ih =>
    rw [loads, List.filter_cons_of_neg (by simpa using hskip), ← loads] at hinside hbefore ⊢
    exact ih h hinside hbefore
  | @load ph phs sz sz₁ sz' s u t htype hload _ ih =>
    rw [loads, List.filter_cons_of_pos (by simpa using htype), ← loads] at hinside hbefore ⊢
    rw [← List.singleton_append, ← List.append_assoc] at hbefore ⊢
    refine ih (h.load hload (hinside ph (by simp)) fun q hq => ?_)
      (fun q hq => hinside q (List.mem_cons_of_mem ph hq)) hbefore
    exact (List.pairwise_append.mp (List.pairwise_append.mp hbefore).1).2.2 q hq ph (by simp)

end Image

/-! ## The headers, as they are in the file and as they are read -/

section Headers

variable {file : File} {off n : Nat}

theorem phdrs_eq (h : 0 < n → off + n * proghdrSize ≤ file.data.length) :
    phdrs file (u32 off) n = (List.range n).map fun i =>
      proghdr ((file.data.drop (off + i * proghdrSize)).take proghdrSize) := by
  induction n generalizing off with
  | zero => rfl
  | succ n ih =>
    have hlen := file.le
    have hend := h (Nat.succ_pos n)
    rw [Nat.succ_mul] at hend
    simp only [maxFile, ndirect, nindirect, bsize] at hlen
    have hoff : u32 off = off := u32_of_lt (by omega)
    have hread : readi file off proghdrSize = (file.data.drop off).take proghdrSize := by
      rw [readi, if_neg (by omega)]
    rw [phdrs, hoff, hread, ih fun _ => by omega, List.range_succ_eq_map, List.map_cons, List.map_map,
      Nat.zero_mul, Nat.add_zero]
    congr 2
    funext i
    rw [Function.comp_apply, Nat.succ_mul, Nat.add_assoc, Nat.add_comm proghdrSize]

theorem phdrsOf_eq (h : 0 < (elfOf file).phnum →
    (elfOf file).phoff + (elfOf file).phnum * proghdrSize ≤ file.data.length) :
    phdrsOf file = headers file := phdrs_eq h

end Headers

section Programs

variable {b : Boot} {file : File} {s t : Ram} {p p' : Proc} {path : List UInt8} {argv : List (List UInt8)}
  {r : Int}

theorem Prepared.image {tf root sz : Nat} {w x u : Ram} (h : Prepared b tf file root s w x u sz)
    (hfile : Regular file) :
    Image b file root (procTop b tf) (loads (headers file)) sz x := by
  have hinit : Image b file root (procTop b tf) [] 0 w :=
    ⟨h.empty, fun v hv => absurd hv (Nat.not_lt_zero v), rfl, by simp, by simp, by simp,
      fun va hva => absurd hva (Nat.not_lt_zero va)⟩
  have hchain := h.chain
  rw [phdrsOf_eq hfile.table] at hchain
  exact hinit.chain hchain hfile.inside hfile.ascending

/-- **`exec` loads the right image**: the bytes of the file and zeros elsewhere, the permissions of each
segment, a guard page and the stack above, the size and the entry point. -/
theorem exec_image (hp : Ok b s p) (hfree : b.Free s) (hfile : Regular file)
    (h : exec b p path (some file) argv s = .ok (r, p') t) (hr : 0 ≤ r) :
    let n := pgs (endOf (loads (headers file)))
    (∀ ph ∈ loads (headers file), ∀ i < ph.filesz,
      ubyte t p'.pagetable (ph.vaddr + i) = file.data[ph.off + i]?) ∧
    (∀ va < n * pgsize, (∀ ph ∈ loads (headers file), ¬ph.HasByte va) →
      ubyte t p'.pagetable va = some 0) ∧
    (∀ ph ∈ loads (headers file), ∀ v, ph.HasPage v →
      pteFlags (entry t.page p'.pagetable v) = asked ph.flags) ∧
    entry t.page p'.pagetable n &&& pteV ≠ 0 ∧ entry t.page p'.pagetable n &&& pteU = 0 ∧
    pteFlags (entry t.page p'.pagetable (n + 1)) = pteV + pteR + pteU + pteW ∧
    p'.sz = (n + 2) * pgsize ∧ word t.page p'.trapframe tfEpc = (elfOf file).entry := by
  rcases exec_cases hp hfree h with ⟨rfl, -⟩ | ⟨-, f, root, w, x, u, sz, hf, rfl, hprep, hswitch⟩
  · exact absurd hr (by decide)
  cases hf
  have himage := hprep.image hfile
  have hstack := hprep.stacked
  intro n
  have hn : pgs sz = n := by rw [himage.size]
  have hkeeps : Keeps u t root (n + 2) := by
    have hkeeps := hswitch.keeps
    rw [execed, pgs_mul, hn] at hkeeps
    exact hkeeps
  rw [hn] at hstack
  -- what has been loaded is not touched afterwards
  have hentry : ∀ v < n, entry t.page root v = entry x.page root v := fun v hv =>
    (hkeeps.entry v (by omega)).trans (hstack.entry v hv)
  have hbyte : ∀ va < n * pgsize, ubyte t root va = ubyte x root va := by
    intro va hva
    have hva' : va < (n + 2) * pgsize := hva.trans_le (Nat.mul_le_mul_right pgsize (by omega))
    exact (ubyte_keeps hkeeps hva').trans (hstack.byte va hva)
  have hseg : ∀ ph ∈ loads (headers file), ph.vaddr + ph.memsz ≤ n * pgsize := by
    intro ph hph
    rw [← hn, himage.size]
    exact (le_endOf hph).trans (le_pgs_mul _)
  refine ⟨fun ph hph i hi => ?_, fun va hva hno => ?_, fun ph hph v hv => ?_, ?_, ?_, ?_, ?_, hswitch.epc⟩
  · have hle := himage.filesz ph hph
    have hend := hseg ph hph
    have hin := hfile.inside ph hph (by omega)
    rw [execed, hbyte _ (by omega), himage.byte ph hph i hi, fileAt, List.getD_eq_getElem?_getD,
      List.getElem?_eq_getElem (by omega), Option.getD_some]
  · rw [execed, hbyte va hva]
    exact himage.zero va (by rwa [hn]) hno
  · have hlt : v < n := by
      have hend := hseg ph hph
      have hv := hv.2
      exact Nat.lt_of_mul_lt_mul_right (a := pgsize) (by omega)
    rw [execed, hentry v hlt]
    exact himage.flags ph hph v hv
  · rw [execed, hkeeps.entry n (by omega)]
    exact (hstack.space.user n (by omega)).1
  · rw [execed, hkeeps.entry n (by omega), ← pteFlags_and_pteU, hstack.guard]
    rfl
  · rw [execed, hkeeps.entry (n + 1) (by omega), hstack.stack]
    decide
  · rw [execed, hn]

/-! ## What is checked -/

/-- A header that has been loaded could be read, with what did not fit 32 bits cut off. -/
theorem Chain.inside {root sz sz' : Nat} {top : Nat → Nat} {phs : List Proghdr}
    (h : Chain b file root top phs sz s sz' t) :
    ∀ ph ∈ loads phs, 0 < ph.filesz → u32 ph.off + ph.filesz ≤ file.data.length := by
  induction h with
  | nil sz s => exact fun ph hph => absurd hph (by simp [loads])
  | skip hskip _ ih =>
    rw [loads, List.filter_cons_of_neg (by simpa using hskip), ← loads]
    exact ih
  | @load ph phs sz sz₁ sz' s u t htype hload _ ih =>
    rw [loads, List.filter_cons_of_pos (by simpa using htype), ← loads]
    intro q hq hpos
    rcases List.mem_cons.mp hq with rfl | hq
    · obtain ⟨v, -, -, hstored⟩ := hload.steps
      have hfilesz : u32 q.filesz = q.filesz := by
        have hram := hstored.space.le_ram
        have hle := hload.filesz
        have hsz := le_pgs_mul sz₁
        have hsize := hload.size
        refine u32_of_lt ?_
        simp only [pgsize] at *
        omega
      have hinside := hload.inside
      rw [hfilesz] at hinside
      exact hinside hpos
    · exact ih q hq hpos

theorem table_of_reads {off n : Nat}
    (h : ∀ i < n, u32 (u32 off + i * proghdrSize) + proghdrSize ≤ file.data.length) (hn : 0 < n) :
    u32 off + n * proghdrSize ≤ file.data.length := by
  induction n with
  | zero => exact absurd hn (Nat.lt_irrefl 0)
  | succ n ih =>
    have hlast := h n (by omega)
    have hlen := file.le
    have hsum : u32 (u32 off + n * proghdrSize) = u32 off + n * proghdrSize := by
      refine u32_of_lt ?_
      simp only [maxFile, ndirect, nindirect, bsize] at hlen
      rcases Nat.eq_zero_or_pos n with rfl | hpos
      · have hoff := u32_lt off
        omega
      · have hprev := ih (fun i hi => h i (by omega)) hpos
        omega
    rw [hsum] at hlast
    rw [Nat.succ_mul]
    omega

theorem Prepared.inside32 {tf root sz : Nat} {w x u : Ram} (h : Prepared b tf file root s w x u sz) :
    Inside32 file := ⟨table_of_reads h.table, h.chain.inside⟩

end Programs

/-! ## Some files -/

/-- A program of ten bytes at the address 0, in twenty bytes of memory. -/
def oneSegment : File :=
  ⟨elfBytes 4 64 1 ++ phBytes 1 5 120 0 10 20 ++ List.replicate 10 7, by decide +kernel⟩

theorem loads_oneSegment : loads (headers oneSegment) = [⟨1, 5, 120, 0, 10, 20⟩] := by decide +kernel

theorem exec_image_oneSegment : ∃ p' t,
    exec smallBoot firstProc [] (some oneSegment) [] (firstRam 16) = .ok (0, p') t ∧
      ubyte t p'.pagetable 9 = some 7 ∧ ubyte t p'.pagetable 10 = some 0 ∧
      entry t.page p'.pagetable 1 &&& pteU = 0 ∧ p'.sz = 3 * pgsize := by
  obtain ⟨hok, hfree⟩ := firstProc_ok (.inr rfl)
  have hprep : value (prepare smallBoot firstTf oneSegment []) (firstRam 16) =
      some (some (smallBoot.kend + 3 * pgsize, 3 * pgsize, 3 * pgsize - 16)) := by decide +kernel
  obtain ⟨p', t, hrun⟩ := exec_of_prepare [] hok hfree hprep
  have hregular : Regular oneSegment := by
    refine ⟨⟨fun _ => by decide +kernel, ?_⟩, ?_, ?_⟩ <;> rw [loads_oneSegment]
    · simp only [List.mem_singleton, forall_eq]
      exact fun _ => by decide +kernel
    · simp only [List.mem_singleton, forall_eq]
      decide
    · exact List.pairwise_singleton ..
  obtain ⟨hbytes, hzero, -, -, hguard, -, hsz, -⟩ := exec_image hok hfree hregular hrun (by decide)
  rw [loads_oneSegment] at hbytes hzero hguard hsz
  refine ⟨p', t, hrun, ?_, ?_, hguard, hsz⟩
  · exact (hbytes _ (List.mem_singleton.mpr rfl) 9 (by decide)).trans (by decide +kernel)
  · refine hzero 10 (by decide) fun ph hph => ?_
    rw [List.mem_singleton.mp hph]
    exact fun hin => absurd hin.2 (by decide)

/-- The same program, but the header says that the program headers are 2³² bytes further on. -/
def farTable : File :=
  ⟨elfBytes 4 (2 ^ 32 + 64) 1 ++ phBytes 1 5 120 0 10 20 ++ List.replicate 10 7, by decide +kernel⟩

def noTable : File := ⟨elfBytes 0 64 1, by decide +kernel⟩

end Exec

end Xv6
