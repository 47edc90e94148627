import Xv6.Param
import Mathlib.Data.Nat.Bitwise
import Mathlib.Order.Nat

/-!
# Pages and page table entries

The macros of `kernel/riscv.h` and `kernel/memlayout.h`.  Addresses and page table entries are
64-bit numbers; `u64` reduces a result that may not fit.
-/

namespace Xv6

def u64 (n : Nat) : Nat := n % 2 ^ 64

def u32 (n : Nat) : Nat := n % 2 ^ 32

theorem u64_of_lt {n : Nat} (h : n < 2 ^ 64) : u64 n = n := Nat.mod_eq_of_lt h

theorem u32_of_lt {n : Nat} (h : n < 2 ^ 32) : u32 n = n := Nat.mod_eq_of_lt h

theorem u32_lt (n : Nat) : u32 n < 2 ^ 32 := Nat.mod_lt n (by decide)

namespace Vm

abbrev pgsize : Nat := 4096
abbrev pgshift : Nat := 12

def pgroundup (sz : Nat) : Nat := u64 (sz + pgsize - 1) / pgsize * pgsize

def pgrounddown (a : Nat) : Nat := a / pgsize * pgsize

abbrev pteV : Nat := 1 <<< 0
abbrev pteR : Nat := 1 <<< 1
abbrev pteW : Nat := 1 <<< 2
abbrev pteX : Nat := 1 <<< 3
abbrev pteU : Nat := 1 <<< 4

def pa2pte (pa : Nat) : Nat := (pa >>> 12) <<< 10

def pte2pa (pte : Nat) : Nat := u64 ((pte >>> 10) <<< 12)

def pteFlags (pte : Nat) : Nat := pte &&& 0x3FF

def pxshift (level : Nat) : Nat := pgshift + 9 * level

def px (level va : Nat) : Nat := (va >>> pxshift level) &&& 0x1FF

/-- `MAXVA`: one beyond the highest possible virtual address. -/
abbrev maxva : Nat := 1 <<< (9 + 9 + 9 + 12 - 1)

abbrev kernbase : Nat := 0x80000000
abbrev phystop : Nat := kernbase + 128 * 1024 * 1024
abbrev trampoline : Nat := maxva - pgsize
abbrev trapframe : Nat := trampoline - pgsize

/-! ## Rounding -/

variable {a f pa sz va va' : Nat}

theorem pgroundup_of_le (h : sz ≤ 2 ^ 64 - pgsize) :
    pgroundup sz = (sz + 4095) / 4096 * 4096 := by
  simp only [pgroundup, u64, pgsize] at h ⊢
  omega

theorem pgrounddown_of_mod (h : a % pgsize = 0) : pgrounddown a = a := by
  simp only [pgrounddown, pgsize] at h ⊢
  omega

/-! ## Entries -/

theorem valid_iff (pte : Nat) : pte &&& pteV ≠ 0 ↔ pte % 2 = 1 := by
  rw [show pteV = 1 from rfl, Nat.and_one_is_mod]
  omega

theorem pteFlags_eq (pte : Nat) : pteFlags pte = pte % 1024 :=
  Nat.and_two_pow_sub_one_eq_mod pte 10

theorem pte2pa_eq (pte : Nat) : pte2pa pte = pte / 1024 * 4096 % 2 ^ 64 := by
  rw [pte2pa, u64, Nat.shiftRight_eq_div_pow, Nat.shiftLeft_eq]

theorem pa2pte_or (hf : f < 1024) : pa2pte pa ||| f = pa / 4096 * 1024 + f := by
  rw [pa2pte, ← Nat.shiftLeft_add_eq_or_of_lt (by exact hf), Nat.shiftLeft_eq,
    Nat.shiftRight_eq_div_pow]

theorem pa2pte_and (hf : f < 1024) : pa2pte pa &&& f = 0 := by
  refine Nat.eq_of_testBit_eq fun i => ?_
  rw [Nat.testBit_and, pa2pte, Nat.testBit_shiftLeft, Nat.zero_testBit]
  by_cases hi : 10 ≤ i
  · rw [Nat.testBit_lt_two_pow (hf.trans_le (Nat.pow_le_pow_right (n := 2) (by decide) hi)), Bool.and_false]
  · simp [hi]

theorem pte2pa_or (hpa : pa < 2 ^ 56) (hf : f < 1024) :
    pte2pa (pa2pte pa ||| f) = pgrounddown pa := by
  rw [pa2pte_or hf, pte2pa_eq, pgrounddown]
  simp only [pgsize]
  omega

theorem pteFlags_or (hf : f < 1024) : pteFlags (pa2pte pa ||| f) = f := by
  rw [pa2pte_or hf, pteFlags_eq]
  omega

theorem pa2pte_or_lt (hpa : pa < 2 ^ 56) (hf : f < 1024) :
    pa2pte pa ||| f < 2 ^ 64 := by
  rw [pa2pte_or hf]
  omega

theorem valid_or (pte : Nat) : (pte ||| pteV) &&& pteV ≠ 0 := by
  rw [valid_iff, Nat.mod_two_eq_one_iff_testBit_zero, Nat.testBit_or]
  simp

/-! ## Indices -/

abbrev maxvpn : Nat := maxva / pgsize

theorem px_eq (level va : Nat) : px level va = va / 2 ^ (12 + 9 * level) % 512 := by
  rw [px, pxshift, Nat.shiftRight_eq_div_pow, show (0x1FF : Nat) = 2 ^ 9 - 1 from rfl,
    Nat.and_two_pow_sub_one_eq_mod]

theorem px_lt (level va : Nat) : px level va < 512 := by
  rw [px_eq]
  exact Nat.mod_lt _ (by decide)

theorem px_two_lt (h : va < maxva) : px 2 va < 256 := by
  rw [px_eq]
  have hmax : maxva = 2 ^ 38 := rfl
  omega

/-- **The three indices tell pages below `MAXVA` apart.** -/
theorem eq_of_px (hva : va < maxva) (hva' : va' < maxva)
    (h2 : px 2 va = px 2 va') (h1 : px 1 va = px 1 va') (h0 : px 0 va = px 0 va') :
    va / pgsize = va' / pgsize := by
  simp only [px_eq] at h2 h1 h0
  simp only [pgsize]
  have hmax : maxva = 2 ^ 38 := rfl
  omega

theorem px_congr (h : va / pgsize = va' / pgsize) (level : Nat) :
    px level va = px level va' := by
  rw [px_eq, px_eq, pow_add, ← Nat.div_div_eq_div_mul, ← Nat.div_div_eq_div_mul]
  rw [show va / 2 ^ 12 = va' / 2 ^ 12 from h]

end Vm

end Xv6
