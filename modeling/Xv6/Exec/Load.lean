import Xv6.Exec.Calls
import Xv6.Vm.Copy

/-!
# What loading the segments does

One program header makes the address space grow, with pages that are zero, and then puts the bytes of
the file into it (`Loaded`); the loop over the headers is a chain of such steps (`Chain`).  Nothing
here depends on the headers being sensible: segments may overlap, descend or be empty.
-/

namespace Xv6

namespace Exec

open Heap Prog Vm

def User (s : Ram) (root n : Nat) : Prop := ∀ v < n, entry s.page root v &&& pteU ≠ 0

def fileAt (file : File) (off i : Nat) : UInt8 := file.data.getD (off + i) 0

/-- What a segment adds to an address space of the size `sz`. -/
structure Loaded (b : Boot) (file : File) (root : Nat) (top : Nat → Nat) (ph : Proghdr) (sz : Nat) (s : Ram)
    (sz' : Nat) (t : Ram) : Prop where
  filesz : ph.filesz ≤ ph.memsz
  aligned : ph.vaddr % pgsize = 0
  size : sz' = max sz (ph.vaddr + ph.memsz)
  inside : 0 < u32 ph.filesz → u32 ph.off + u32 ph.filesz ≤ file.data.length
  steps : ∃ u, Keeps s u root (pgs sz) ∧
    Fresh u root (pgs sz) (pgs sz') (pteR ||| pteU ||| flags2perm ph.flags) ∧
    Stored b u t root top (pgs sz') ph.vaddr (u32 ph.filesz) (fileAt file (u32 ph.off))

/-- What the loop over the program headers does. -/
inductive Chain (b : Boot) (file : File) (root : Nat) (top : Nat → Nat) :
    List Proghdr → Nat → Ram → Nat → Ram → Prop
  | nil (sz : Nat) (s : Ram) : Chain b file root top [] sz s sz s
  | skip {ph : Proghdr} {phs : List Proghdr} {sz sz' : Nat} {s t : Ram} (h : ph.type ≠ elfProgLoad)
      (rest : Chain b file root top phs sz s sz' t) : Chain b file root top (ph :: phs) sz s sz' t
  | load {ph : Proghdr} {phs : List Proghdr} {sz sz₁ sz' : Nat} {s u t : Ram} (h : ph.type = elfProgLoad)
      (step : Loaded b file root top ph sz s sz₁ u) (rest : Chain b file root top phs sz₁ u sz' t) :
      Chain b file root top (ph :: phs) sz s sz' t

def phdrs (file : File) (off : Nat) : Nat → List Proghdr
  | 0 => []
  | n + 1 => proghdr (readi file off proghdrSize) :: phdrs file (u32 (off + proghdrSize)) n

section Numbers

theorem le_lt (l : List UInt8) (off k : Nat) : le l off k < 256 ^ k := by
  induction k generalizing off with
  | zero => exact Nat.one_pos
  | succ k ih =>
    have hbyte : (l.getD off 0).toNat < 256 := (l.getD off 0).toNat_lt
    have hrest := ih (off + 1)
    rw [le, Nat.pow_succ]
    omega

theorem flags2perm_lt (flags : Nat) : pteR ||| pteU ||| flags2perm flags < 1024 := by
  rw [flags2perm]
  split <;> split <;> decide

theorem u64_end {l : List UInt8} (h : ¬u64 ((proghdr l).vaddr + (proghdr l).memsz) < (proghdr l).vaddr) :
    u64 ((proghdr l).vaddr + (proghdr l).memsz) = (proghdr l).vaddr + (proghdr l).memsz := by
  have hva : (proghdr l).vaddr < 256 ^ 8 := le_lt l 16 8
  have hmem : (proghdr l).memsz < 256 ^ 8 := le_lt l 40 8
  simp only [u64] at *
  omega

variable {file : File} {off n : Nat}

theorem readi_length_le : (readi file off n).length ≤ n := by
  rw [readi]
  split
  · exact Nat.zero_le n
  · rw [List.length_take]
    exact Nat.min_le_left ..

theorem of_readi_length (h : (readi file off n).length = n) (hn : 0 < n) :
    off + n ≤ file.data.length := by
  rw [readi] at h
  split at h
  · exact absurd h (by simp; omega)
  · rw [List.length_take, List.length_drop] at h
    omega

theorem readi_getD {i : Nat} (hi : i < (readi file off n).length) :
    (readi file off n).getD i 0 = fileAt file off i := by
  rw [readi] at hi ⊢
  split at hi
  · exact absurd hi (by simp)
  · rename_i hoff
    rw [if_neg hoff]
    rw [List.length_take, List.length_drop] at hi
    rw [fileAt, List.getD_eq_getElem?_getD, List.getD_eq_getElem?_getD, List.getElem?_take_of_lt (by omega),
      List.getElem?_drop]

end Numbers

section Segments

variable {b : Boot} {s t u : Ram} {root n : Nat} {top : Nat → Nat} {file : File} {E : Stop → Ram → Prop}

theorem uaddr_of_user (h : Space b s root top n) (huser : User s root n) {va : Nat}
    (hva : va < n * pgsize) :
    uaddr s.page root va = some (pte2pa (entry s.page root (va / pgsize))) := by
  have hv : va / pgsize < n := Nat.div_lt_of_lt_mul (by rwa [Nat.mul_comm])
  have hpa : b.RamPage (pte2pa (entry s.page root (va / pgsize))) := h.ram_own _ (h.pa_mem hv)
  have hne : pte2pa (entry s.page root (va / pgsize)) ≠ 0 := by
    have hge := b.tramp_ge
    have hle := b.tramp_le
    have hpa := hpa.2.1
    simp only [kernbase, pgsize] at *
    omega
  rw [uaddr]
  exact if_neg fun h0 => h0.elim (h.user _ hv).1 fun h0 => h0.elim (huser _ hv) hne

variable {dst fuel i k m offset perm sz va : Nat}

theorem wp_loadsegFrom_of_le {Q : Bool → Ram → Prop} (h : sz ≤ i)
    (hfuel : 0 < fuel) : wp (loadsegFrom root va file offset sz fuel i) Q E s ↔ Q true s := by
  obtain ⟨fuel, rfl⟩ := Nat.exists_eq_succ_of_ne_zero hfuel.ne'
  rw [loadsegFrom, if_pos h, wp_pure]

/-- **`loadseg` stores the bytes of the file in order**, up to the end of the file. -/
theorem wp_loadsegFrom {Q : Bool → Ram → Prop} (h : Space b s root top n)
    (htop : Supervisor top) (huser : User s root n) (hva : va % pgsize = 0) (hend : va + sz ≤ n * pgsize)
    (hoff : offset < 2 ^ 32) (hi : i % pgsize = 0) (hsz : i ≤ sz)
    (hfuel : sz + pgsize ≤ i + fuel * pgsize) (hin : i = 0 ∨ offset + i ≤ file.data.length)
    (hfail : ∀ t k, k < sz - i → Stored b s t root top n (va + i) k (fileAt file (offset + i)) →
      Q false t)
    (hok : ∀ t, (i < sz → offset + sz ≤ file.data.length) →
      Stored b s t root top n (va + i) (sz - i) (fileAt file (offset + i)) → Q true t) :
    wp (loadsegFrom root va file offset sz fuel i) Q E s := by
  induction fuel generalizing s i with
  | zero => exact absurd hfuel (by simp only [pgsize]; omega)
  | succ fuel ih =>
    by_cases hdone : sz ≤ i
    · rw [wp_loadsegFrom_of_le hdone (by omega)]
      refine hok s (fun hlt => absurd hlt (by omega)) ?_
      rw [Nat.sub_eq_zero_of_le hdone]
      exact .refl h ..
    · have hlen := file.le
      have hn := h.le_ram
      have hu64 : u64 (va + i) = va + i := u64_of_lt (by simp only [pgsize] at *; omega)
      have hu32 : u32 (offset + i) = offset + i := by
        simp only [u32, maxFile, ndirect, nindirect, bsize] at *
        omega
      have hva' : va + i < n * pgsize := by omega
      have hpa := uaddr_of_user h huser hva'
      rw [loadsegFrom, if_neg hdone]
      simp only [wp_bind, wp_walkaddr, hu64, hu32, hpa]
      generalize hm : (if sz - i < pgsize then sz - i else pgsize) = m
      have hmin : m = min (sz - i) pgsize := by
        split at hm <;> omega
      have hmpos : 0 < m := by
        simp only [pgsize] at hmin
        omega
      have hmod : (va + i) % pgsize = 0 := by
        simp only [pgsize] at *
        omega
      have hle : (readi file (offset + i) m).length ≤ m := readi_length_le
      refine h.wp_moveIn htop hpa hmod (by omega) fun w hstored => ?_
      have hstored := hstored.congr fun j hj => (readi_getD hj).symm
      by_cases hshort : (readi file (offset + i) m).length = m
      · have hread := of_readi_length hshort hmpos
        have hnext : u32 (i + pgsize) = i + pgsize := by
          simp only [u32, maxFile, ndirect, nindirect, bsize, pgsize] at *
          omega
        rw [hshort] at hstored ⊢
        rw [if_neg (by simp), hnext]
        by_cases hlast : sz ≤ i + pgsize
        · -- that was the last round
          have hm' : m = sz - i := by omega
          rw [wp_loadsegFrom_of_le hlast (by simp only [pgsize] at *; omega)]
          rw [hm'] at hstored hread
          exact hok _ (fun _ => by omega) hstored
        · -- a whole page has been read
          have hm' : m = pgsize := by omega
          rw [hm'] at hstored hread
          have huser' : User w root n := fun v hv => by
            rw [hstored.entry]
            exact huser v hv
          have hjoin : ∀ {t : Ram} {k : Nat},
              Stored b w t root top n (va + (i + pgsize)) k (fileAt file (offset + (i + pgsize))) →
              Stored b s t root top n (va + i) (pgsize + k) (fileAt file (offset + i)) := by
            intro t k ht
            refine hstored.trans ?_
            rw [Nat.add_assoc va]
            refine ht.congr fun j _ => ?_
            rw [fileAt, fileAt, show offset + (i + pgsize) + j = offset + i + (j + pgsize) by omega]
          have hin' : i + pgsize = 0 ∨ offset + (i + pgsize) ≤ file.data.length := by omega
          refine ih hstored.space huser' (by simp only [pgsize] at *; omega) (by omega)
            (by simp only [pgsize] at *; omega) hin' (fun t k hk ht => ?_) fun t hin' ht => ?_
          · have hall := hjoin ht
            exact hfail t _ (by omega) hall
          · refine hok t (fun _ => hin' (by omega)) ?_
            have hall := hjoin ht
            rwa [show pgsize + (sz - (i + pgsize)) = sz - i by omega] at hall
      · rw [if_pos hshort]
        exact hfail _ _ (by omega) hstored

theorem wp_loadseg {Q : Bool → Ram → Prop} (h : Space b s root top n)
    (htop : Supervisor top) (huser : User s root n) (hva : va % pgsize = 0) (hend : va + sz ≤ n * pgsize)
    (hoff : offset < 2 ^ 32)
    (hfail : ∀ t k, Stored b s t root top n va k (fileAt file offset) → Q false t)
    (hok : ∀ t, (0 < sz → offset + sz ≤ file.data.length) →
      Stored b s t root top n va sz (fileAt file offset) → Q true t) :
    wp (loadseg root va file offset sz) Q E s :=
  wp_loadsegFrom h htop huser hva hend hoff rfl (Nat.zero_le sz)
    (by simp only [pgsize]; omega) (.inl rfl) (fun t k _ ht => hfail t k ht) hok

theorem pteFlags_and_pteU (e : Nat) : pteFlags e &&& pteU = e &&& pteU := by
  rw [pteFlags, Nat.and_assoc]
  rfl

theorem User.grow (huser : User s root n) (hkeeps : Keeps s t root n)
    (hfresh : Fresh t root n m (pteR ||| pteU ||| perm)) : User t root m := by
  intro v hv
  by_cases hold : v < n
  · rw [hkeeps.entry v hold]
    exact huser v hold
  · have hflags := (hfresh v (by omega) hv).1
    rw [← pteFlags_and_pteU, hflags]
    intro hzero
    have hbit := congrArg (Nat.testBit · 4) hzero
    simp only [Nat.testBit_and, Nat.testBit_or] at hbit
    rw [show Nat.testBit pteU 4 = true from rfl] at hbit
    simp at hbit

theorem User.stored {src : Nat → UInt8} (huser : User s root n)
    (h : Stored b s t root top n dst k src) : User t root n := fun v hv => by
  rw [h.entry]
  exact huser v hv

/-- **One program header.**  `uvmalloc` gives back the old size when the segment ends below it. -/
theorem wp_loadPhdr {Q : Bool × Nat → Ram → Prop} {l : List UInt8}
    (h : Space b s root top (pgs sz)) (hfree : b.Free s) (htop : Supervisor top)
    (huser : User s root (pgs sz))
    (hfail : ∀ t sz', Space b t root top (pgs sz') →
      Change s.toHeap t.toHeap (own s root (pgs sz)) (own t root (pgs sz')) → Q (false, sz') t)
    (hskip : (proghdr l).type ≠ elfProgLoad → Q (true, sz) s)
    (hload : ∀ t sz', (proghdr l).type = elfProgLoad → Loaded b file root top (proghdr l) sz s sz' t →
      User t root (pgs sz') →
      Change s.toHeap t.toHeap (own s root (pgs sz)) (own t root (pgs sz')) → Q (true, sz') t) :
    wp (loadPhdr b root file (proghdr l) sz) Q E s := by
  generalize hph : proghdr l = ph at *
  have hsame : Q (false, sz) s := hfail s sz h (.refl h.owns_own)
  rw [loadPhdr]
  by_cases htype : ph.type = elfProgLoad
  swap
  · rw [if_pos htype]
    exact hskip htype
  rw [if_neg (not_not_intro htype)]
  by_cases hsize : ph.memsz < ph.filesz
  · rw [if_pos hsize]
    exact hsame
  rw [if_neg hsize]
  by_cases hwrap : u64 (ph.vaddr + ph.memsz) < ph.vaddr
  · rw [if_pos hwrap]
    exact hsame
  rw [if_neg hwrap]
  by_cases halign : ph.vaddr % pgsize = 0
  swap
  · rw [if_pos halign]
    exact hsame
  rw [if_neg (not_not_intro halign)]
  have hend : u64 (ph.vaddr + ph.memsz) = ph.vaddr + ph.memsz := by
    subst hph
    exact u64_end hwrap
  rw [hend, wp_bind]
  -- the bytes go to pages that are there
  have hseg : ∀ u sz', sz' = max sz (ph.vaddr + ph.memsz) → Space b u root top (pgs sz') →
      User u root (pgs sz') → Change s.toHeap u.toHeap (own s root (pgs sz)) (own u root (pgs sz')) →
      Keeps s u root (pgs sz) →
      Fresh u root (pgs sz) (pgs sz') (pteR ||| pteU ||| flags2perm ph.flags) →
      wp (do
        let ok ← loadseg root ph.vaddr file (u32 ph.off) (u32 ph.filesz)
        pure (ok, sz')) Q E u := by
    intro u sz' hsz' hu huser' hchange hkeeps hfresh
    have hle : ph.vaddr + u32 ph.filesz ≤ pgs sz' * pgsize := by
      have hroom := le_pgs_mul sz'
      have hmod : u32 ph.filesz ≤ ph.filesz := Nat.mod_le ..
      omega
    rw [wp_bind]
    refine wp_loadseg hu htop huser' halign hle (u32_lt _) (fun t k ht => ?_) fun t hin ht => ?_
    · exact hfail t sz' ht.space (hchange.trans ht.change)
    · exact hload t sz' htype ⟨by omega, halign, hsz', hin, u, hkeeps, hfresh, ht⟩ (huser'.stored ht)
        (hchange.trans ht.change)
  by_cases hlt : ph.vaddr + ph.memsz < sz
  · rw [Space.wp_uvmalloc_of_lt hlt, if_neg (by omega)]
    refine hseg s sz (by omega) h huser (.refl h.owns_own) (.refl ..) fun v hv hv' => ?_
    exact absurd hv' (by omega)
  · refine h.wp_uvmalloc hfree (by omega) (flags2perm_lt _) (fun t ht hchange _ => ?_)
      fun t ht hchange hkeeps hfresh => ?_
    · rw [if_pos rfl]
      exact hfail t sz ht hchange
    · by_cases hzero : ph.vaddr + ph.memsz = 0
      · rw [if_pos hzero]
        have hsz : sz = 0 := by omega
        subst hsz
        rw [hzero] at ht hchange
        exact hfail t 0 ht hchange
      · rw [if_neg hzero]
        exact hseg t _ (by omega) ht (huser.grow hkeeps hfresh) hchange hkeeps hfresh

theorem wp_loadPhdrs {Q : Bool × Nat → Ram → Prop} {k off sz : Nat}
    (h : Space b s root top (pgs sz)) (hfree : b.Free s) (htop : Supervisor top)
    (huser : User s root (pgs sz)) (hoff : off < 2 ^ 32)
    (hfail : ∀ t sz', Space b t root top (pgs sz') →
      Change s.toHeap t.toHeap (own s root (pgs sz)) (own t root (pgs sz')) → Q (false, sz') t)
    (hok : ∀ t sz', (∀ i < k, u32 (off + i * proghdrSize) + proghdrSize ≤ file.data.length) →
      Chain b file root top (phdrs file off k) sz s sz' t → Space b t root top (pgs sz') →
      User t root (pgs sz') →
      Change s.toHeap t.toHeap (own s root (pgs sz)) (own t root (pgs sz')) → Q (true, sz') t) :
    wp (loadPhdrs b root file k off sz) Q E s := by
  induction k generalizing s off sz with
  | zero => exact hok s sz (fun i hi => absurd hi (Nat.not_lt_zero i)) (.nil sz s) h huser (.refl h.owns_own)
  | succ k ih =>
    rw [loadPhdrs]
    by_cases hshort : (readi file off proghdrSize).length = proghdrSize
    swap
    · rw [if_pos hshort]
      exact hfail s sz h (.refl h.owns_own)
    have hhead := of_readi_length hshort (by decide)
    -- the headers from the second one on
    have hnext : ∀ {u : Ram} {sz₁ : Nat}, Space b u root top (pgs sz₁) → User u root (pgs sz₁) →
        Change s.toHeap u.toHeap (own s root (pgs sz)) (own u root (pgs sz₁)) →
        (∀ {t : Ram} {sz' : Nat},
          Chain b file root top (phdrs file (u32 (off + proghdrSize)) k) sz₁ u sz' t →
          Chain b file root top (phdrs file off (k + 1)) sz s sz' t) →
        wp (loadPhdrs b root file k (u32 (off + proghdrSize)) sz₁) Q E u := by
      intro u sz₁ hu huser' hchange hcons
      refine ih hu (hfree.change hchange h.ram_own) huser' (u32_lt _) (fun t sz' ht hchange' => ?_)
        fun t sz' hin hchain ht huser'' hchange' => ?_
      · exact hfail t sz' ht (hchange.trans hchange')
      · refine hok t sz' (fun i hi => ?_) (hcons hchain) ht huser'' (hchange.trans hchange')
        cases i with
        | zero =>
          rw [Nat.zero_mul, Nat.add_zero, u32_of_lt hoff]
          exact hhead
        | succ i =>
          have hi := hin i (by omega)
          have hsum : u32 (u32 (off + proghdrSize) + i * proghdrSize) =
              u32 (off + (i + 1) * proghdrSize) := by
            rw [u32, u32, Nat.mod_add_mod, u32, Nat.succ_mul, Nat.add_assoc,
              Nat.add_comm proghdrSize]
          rwa [hsum] at hi
    rw [if_neg (not_not_intro hshort), wp_bind]
    refine wp_loadPhdr h hfree htop huser (fun t sz' ht hchange => ?_) (fun hskip => ?_)
      fun t sz' htype hload huser' hchange => ?_
    · rw [if_neg (by simp)]
      exact hfail t sz' ht hchange
    · rw [if_pos rfl]
      exact hnext h huser (.refl h.owns_own) (.skip hskip)
    · rw [if_pos rfl]
      obtain ⟨u, hkeeps, hfresh, hstored⟩ := hload.steps
      exact hnext hstored.space huser' hchange (.load htype hload)

end Segments

end Exec

end Xv6
