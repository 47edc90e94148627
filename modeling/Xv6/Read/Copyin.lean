import Xv6.Read.Pipe

/-!
# Reading user memory

`copyin` copies page by page.  What it returns is what a program would find byte by byte
(`ubytes`), so it agrees with `copyout`: bytes that have been stored are read back.
-/

namespace Xv6.Read

open Prog Vm

/-- `len` bytes of user memory, unless one of them is not mapped. -/
def ubytes (s : Ram) (root : Nat) : Nat → Nat → Option (List UInt8)
  | _, 0 => some []
  | va, len + 1 => (ubyte s root va).bind fun c => (ubytes s root (va + 1) len).map (c :: ·)

section Copyin

variable {b : Boot} {s : Ram} {root n va len m pa fuel : Nat} {top : Nat → Nat}

theorem ubytes_add : ubytes s root va (m + len) =
    (ubytes s root va m).bind fun l => (ubytes s root (va + m) len).map (l ++ ·) := by
  induction m generalizing va with
  | zero => simp [ubytes]
  | succ m ih =>
    rw [Nat.succ_add, ubytes, ubytes, ih, Nat.add_right_comm va 1 m]
    cases ubyte s root va with
    | none => rfl
    | some c => cases ubytes s root (va + 1) m <;> cases ubytes s root (va + m + 1) len <;> rfl

theorem ubytes_eq {f : Nat → UInt8} (h : ∀ i < len, ubyte s root (va + i) = some (f i)) :
    ubytes s root va len = some ((List.range len).map f) := by
  induction len generalizing va f with
  | zero => rfl
  | succ len ih =>
    rw [ubytes, ← Nat.add_zero va, h 0 (by omega), Option.bind_some, Nat.add_zero,
      ih (f := fun i => f (i + 1)) fun i hi => ?_, List.range_succ_eq_map]
    · simp [Function.comp_def]
    · rw [Nat.add_assoc, Nat.add_comm 1 i]
      exact h (i + 1) (by omega)

theorem ubyte_of_page (h : uaddr s.page root va = some pa) {i : Nat} (hi : va % pgsize + i < pgsize) :
    ubyte s root (va + i) = some ((s.page pa).byte (va % pgsize + i)) := by
  have hpage : (va + i) / pgsize = va / pgsize := by
    simp only [pgsize] at *
    omega
  have hmod : (va + i) % pgsize = va % pgsize + i := by
    simp only [pgsize] at *
    omega
  rw [ubyte, uaddr_congr rfl hpage, h, hmod]
  rfl

theorem wp_copyinFrom {Q : Option (List UInt8) → Ram → Prop} {E : Stop → Ram → Prop} {dst : List UInt8}
    (h : Space b s root top n) (htop : Supervisor top) (hfuel : len ≤ fuel) :
    wp (copyinFrom root fuel dst va len) Q E s ↔ Q ((ubytes s root va len).map (dst ++ ·)) s := by
  induction fuel generalizing dst va len with
  | zero =>
    obtain rfl : len = 0 := by omega
    simp [copyinFrom, ubytes]
  | succ fuel ih =>
    rw [copyinFrom]
    by_cases hlen : len = 0
    · subst hlen
      simp [ubytes]
    · have hround : pgrounddown va / pgsize = va / pgsize := mul_pgsize_div _
      have hoff : va - pgrounddown va = va % pgsize := by
        simp only [pgrounddown, pgsize]
        omega
      rw [if_neg hlen]
      simp only [wp_bind, wp_walkaddr, uaddr_congr rfl hround, hoff]
      cases hpa : uaddr s.page root va with
      | none =>
        obtain ⟨len, rfl⟩ := Nat.exists_eq_succ_of_ne_zero hlen
        rw [ubytes, ubyte, hpa]
        rfl
      | some pa =>
        simp only [wp_bind, wp_get]
        set m := min (pgsize - va % pgsize) len with hm
        have hhere : ubytes s root va m =
            some ((List.range m).map fun i => (s.page pa).byte (va % pgsize + i)) :=
          ubytes_eq fun i hi => ubyte_of_page hpa (by omega)
        have hmod : va % pgsize < pgsize := Nat.mod_lt va (by decide)
        have hsplit : ubytes s root va (m + (len - m)) = _ := ubytes_add
        rw [hhere, Option.bind_some, Nat.add_sub_cancel' (by omega)] at hsplit
        rw [ih (by omega), hsplit]
        by_cases hlast : len - m = 0
        · rw [hlast]
          simp [ubytes]
        · -- the page has been read to its end, and it is not the last one
          obtain ⟨hv, -⟩ := h.of_uaddr htop hpa
          have hnext : u64 (pgrounddown va + pgsize) = va + m := by
            have hn := h.le_ram
            simp only [pgrounddown, u64, pgsize] at *
            omega
          rw [hnext]
          simp [Function.comp_def]

theorem copyin_eq (h : Space b s root top n) (htop : Supervisor top) (va len : Nat) :
    copyin root va len s = .ok (ubytes s root va len) s := by
  have hwp : wp (copyin root va len) (fun r t => r = ubytes s root va len ∧ t = s)
      (fun _ _ => False) s := by
    rw [copyin, wp_copyinFrom h htop le_rfl]
    simp
  obtain ⟨r, t, hrun, rfl, rfl⟩ := hwp.exists_ok
  exact hrun

theorem ubytes_eq_none {k : Nat} (hk : k < len) (h : uaddr s.page root (va + k) = none) :
    ubytes s root va len = none := by
  obtain ⟨l, rfl⟩ : ∃ l, len = k + (l + 1) := ⟨len - k - 1, by omega⟩
  rw [ubytes_add, ubytes, ubyte, h]
  cases ubytes s root va k <;> rfl

theorem ubytes_isSome (h : ∀ i < len, uaddr s.page root (va + i) ≠ none) :
    (ubytes s root va len).isSome := by
  rw [ubytes_eq (f := fun i => (ubyte s root (va + i)).getD 0) fun i hi => ?_]
  · rfl
  · obtain ⟨pa, hpa⟩ := Option.ne_none_iff_exists'.mp (h i hi)
    simp [ubyte, hpa]

/-- **`copyin` reads back what `copyout` has stored.**  It returns the bytes of user memory, or fails if
one of them is not mapped, and changes nothing.  `copyout` fails in the same places, and otherwise
`copyin` then returns what was stored. -/
theorem copyin_copyout (h : Space b s root top n) (htop : Supervisor top) (va len : Nat)
    (src : Nat → UInt8) : copyin root va len s = .ok (ubytes s root va len) s ∧
    ∃ r t, copyout root va src len s = .ok r t ∧
      (r = 0 ∧ (ubytes s root va len).isSome ∧
          copyin root va len t = .ok (some ((List.range len).map src)) t ∨
        r = -1 ∧ ubytes s root va len = none) := by
  refine ⟨copyin_eq h htop va len, (wp_copyout h htop (fun t k hk _ hnone _ => ?_)
    fun t hmapped hst => ?_).exists_ok⟩
  · exact .inr ⟨rfl, ubytes_eq_none hk hnone⟩
  · refine .inl ⟨rfl, ubytes_isSome hmapped, ?_⟩
    rw [copyin_eq hst.space htop, ubytes_eq fun i hi => ?_]
    rw [hst.byte, if_pos (by omega), Nat.add_sub_cancel_left]

end Copyin

/-- A byte is stored in the only page, and read. -/
theorem copyin_copyout_page : ∃ t, copyout smallBoot.kend 0 (fun _ => 7) 1 pageRam = .ok 0 t ∧
    copyin smallBoot.kend 0 1 t = .ok (some [7]) t := by
  obtain ⟨-, r, t, hrun, ⟨rfl, -, hread⟩ | ⟨-, hnone⟩⟩ :=
    copyin_copyout space_pageRam (supervisor_procTop _ _) 0 1 fun _ => 7
  · exact ⟨t, hrun, hread⟩
  · exact absurd hnone (by decide +kernel)

end Xv6.Read
