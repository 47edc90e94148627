import Xv6.Lib.CopyLoop
import Xv6.Vm.Built
import Xv6.Vm.Uvm

/-!
# `memmove`

The two functions of this name, in `kernel/string.c` and `user/ulib.c`.  The kernel's goes down only
if the source begins below the destination and reaches into it; the library's goes down unless the
source begins above the destination.  As long as neither range wraps around, each test keeps the loop
from reading what it has written, and both make the copy of `CopyLoop.moved`.

The model of the page tables copies a page, or a part of one, in a single step (`page_copies`).
-/

namespace Xv6.Memmove

open CopyLoop
open BitVec (ofNat)
open Function (update update_self update_of_ne)

abbrev Addr : Type := BitVec 64

abbrev Mem : Type := Addr → UInt8

variable {mem : Mem} {dst src : Addr} {n : BitVec 32}

/-- The kernel's `memmove(dst, src, n)`: the result, and memory afterwards. -/
def Kernel.memmove (mem : Mem) (dst src : Addr) (n : BitVec 32) : Addr × Mem :=
  if n = 0 then (dst, mem)
  else if src < dst ∧ src + n.setWidth 64 > dst then
    (dst, down mem (dst + n.setWidth 64) (src + n.setWidth 64) n.toNat)
  else (dst, up mem dst src n.toNat)

/-- The library's `memmove(vdst, vsrc, n)`, with the `int` `n`: it is extended with its sign, and the
loops make no round if it is negative. -/
def Ulib.memmove (mem : Mem) (dst src : Addr) (n : BitVec 32) : Addr × Mem :=
  if src > dst then (dst, up mem dst src n.toInt.toNat)
  else (dst, down mem (dst + n.signExtend 64) (src + n.signExtend 64) n.toInt.toNat)

/-! ## Ranges that do not wrap around -/

theorem apart_of_not_lt (h : ¬dst < src) (hdst : dst.toNat + n.toNat ≤ 2 ^ 64) :
    dst = src ∨ n.toNat ≤ (src - dst).toNat := by
  by_cases heq : dst = src
  · exact .inl heq
  · right
    bv_omega

theorem Kernel.memmove_eq (hdst : dst.toNat + n.toNat ≤ 2 ^ 64)
    (hsrc : src.toNat + n.toNat ≤ 2 ^ 64) :
    Kernel.memmove mem dst src n = (dst, moved mem dst src n.toNat) := by
  have hn : n.toNat ≤ 2 ^ 64 := by omega
  have hlen : n.setWidth 64 = ofNat 64 n.toNat := by simp
  rw [Kernel.memmove]
  split
  · rename_i hzero
    subst hzero
    rfl
  · split
    · rename_i htest
      have hlt : ¬dst < src := by bv_omega
      rw [hlen, down_eq_moved hn (apart_of_not_lt hlt hdst)]
    · rename_i htest
      -- `src + n` does not wrap around where it is compared, for `dst + n` does not
      have hapart : dst = src ∨ n.toNat ≤ (dst - src).toNat := by
        by_cases heq : dst = src
        · exact .inl heq
        · right
          bv_omega
      rw [up_eq_moved hn hapart]

theorem Ulib.memmove_eq (hint : n.toNat < 2 ^ 31) (hdst : dst.toNat + n.toNat ≤ 2 ^ 64)
    (hsrc : src.toNat + n.toNat ≤ 2 ^ 64) :
    Ulib.memmove mem dst src n = (dst, moved mem dst src n.toNat) := by
  have hn : n.toNat ≤ 2 ^ 64 := by omega
  have htoInt : n.toInt = n.toNat := BitVec.toInt_eq_toNat_of_lt (by omega)
  have hlen : n.signExtend 64 = ofNat 64 n.toNat := by
    rw [BitVec.signExtend, htoInt, BitVec.ofInt_natCast]
  rw [Ulib.memmove, htoInt, Int.toNat_natCast, hlen]
  split
  · rename_i htest
    have hapart : n.toNat ≤ (dst - src).toNat := by bv_omega
    rw [up_eq_moved hn (.inr hapart)]
  · rename_i htest
    rw [down_eq_moved hn (apart_of_not_lt htest hdst)]

/-- The `n` bytes at `dst` are those that were at `src`, and the others are as they were. -/
structure Copied (mem mem' : Mem) (dst src : Addr) (n : Nat) : Prop where
  bytes : ∀ i < n, mem' (dst + ofNat 64 i) = mem (src + ofNat 64 i)
  others : ∀ a : Addr, a.toNat < dst.toNat ∨ dst.toNat + n ≤ a.toNat → mem' a = mem a

theorem copied_moved {n : Nat} (hdst : dst.toNat + n ≤ 2 ^ 64) :
    Copied mem (moved mem dst src n) dst src n where
  bytes _ hi := moved_add hi (by omega)
  others a ha := moved_of_le (by bv_omega)

/-- Each `memmove` copies as if all at once, in whatever way the two ranges overlap, and the two
functions do the same. -/
theorem memmove_overlapSafe (mem : Mem) (dst src : Addr) (n : BitVec 32) (hint : n.toNat < 2 ^ 31)
    (hdst : dst.toNat + n.toNat ≤ 2 ^ 64) (hsrc : src.toNat + n.toNat ≤ 2 ^ 64) :
    Copied mem (Kernel.memmove mem dst src n).2 dst src n.toNat ∧
      Copied mem (Ulib.memmove mem dst src n).2 dst src n.toNat ∧
      Kernel.memmove mem dst src n = Ulib.memmove mem dst src n := by
  rw [Kernel.memmove_eq hdst hsrc, Ulib.memmove_eq hint hdst hsrc]
  exact ⟨copied_moved hdst, copied_moved hdst, rfl⟩

theorem memmove_overlapSafe_top :
    let mem : Mem := fun a => UInt8.ofNat a.toNat
    Copied mem (Kernel.memmove mem (-3) (-4) 3).2 (-3) (-4) 3 ∧
      Copied mem (Ulib.memmove mem (-3) (-4) 3).2 (-3) (-4) 3 ∧
      Kernel.memmove mem (-3) (-4) 3 = Ulib.memmove mem (-3) (-4) 3 :=
  memmove_overlapSafe _ (-3) (-4) 3 (by decide) (by decide) (by decide)

/-! ## Copies of pages -/

open Vm Prog

variable {b : Boot} {page : Nat → Page} {s : Ram} {pa off m : Nat}

/-- RAM as memory. -/
def flat (page : Nat → Page) : Mem := fun a =>
  (page (pgrounddown a.toNat)).byte (a.toNat % pgsize)

theorem flat_splice (hpa : b.RamPage pa) (hdst : dst.toNat = pa + off) (hoff : off + m ≤ pgsize) :
    flat (update page pa ((page pa).splice off m fun i => flat page (src + ofNat 64 i))) =
      moved (flat page) dst src m := by
  have hlt := hpa.lt
  have hmod := hpa.1
  funext a
  rw [flat]
  by_cases hin : pa + off ≤ a.toNat ∧ a.toNat < pa + off + m
  · have hround : pgrounddown a.toNat = pa := by
      simp only [pgrounddown, pgsize] at *
      omega
    have hdiff : a.toNat % pgsize = a.toNat - pa := by
      simp only [pgsize] at *
      omega
    have hdist : a - dst = ofNat 64 (a.toNat % pgsize - off) := by
      rw [hdiff]
      bv_omega
    have hm : (a - dst).toNat < m := by bv_omega
    rw [hround, update_self, moved, if_pos hm, hdist,
      Bytes.byte_splice_of_mem (Nat.mod_lt _ (by decide)) (by omega) (by omega)]
  · have hle : m ≤ (a - dst).toNat := by
      simp only [pgsize] at *
      bv_omega
    rw [moved_of_le hle, flat]
    by_cases hround : pgrounddown a.toNat = pa
    · rw [hround, update_self, Bytes.byte_splice_of_not_mem]
      simp only [pgrounddown, pgsize] at *
      omega
    · rw [update_of_ne hround]

theorem wp_moveIn_flat {E : Stop → Ram → Prop} (hpa : b.RamPage pa) (hdst : dst.toNat = pa + off)
    (hoff : off + n.toNat ≤ pgsize) (hsrc : src.toNat + n.toNat ≤ 2 ^ 64) :
    wp (moveIn pa off n.toNat fun i => flat s.page (src + ofNat 64 i))
      (fun _ t => flat t.page = (Kernel.memmove (flat s.page) dst src n).2) E s := by
  have hlt := hpa.lt
  have hend : dst.toNat + n.toNat ≤ 2 ^ 64 := by
    simp only [pgsize] at hoff
    omega
  rw [moveIn, wp_modify, Kernel.memmove_eq hend hsrc]
  exact flat_splice hpa hdst hoff

theorem splice_flat (page : Nat → Page) (old : Page) (hpa : b.RamPage pa) :
    (old.splice 0 pgsize fun i => flat page (ofNat 64 pa + ofNat 64 i)) = page pa := by
  have hlt := hpa.lt
  have hmod := hpa.1
  funext i
  have hi : i.val < 4096 := i.isLt
  have hsum : (ofNat 64 pa + ofNat 64 i).toNat = pa + i := by bv_omega
  have hround : pgrounddown (pa + i) = pa := by
    simp only [pgrounddown, pgsize] at *
    omega
  have hoff : (pa + i) % pgsize = i := by
    simp only [pgsize] at *
    omega
  rw [Bytes.splice, if_pos (by simp), Nat.sub_zero, flat, hsum, hround, hoff, Bytes.byte,
    dif_pos i.isLt]

theorem wp_memmove_flat {E : Stop → Ram → Prop} {pa' : Nat} (hpa : b.RamPage pa)
    (hpa' : b.RamPage pa') :
    wp (Vm.memmove pa pa') (fun _ t => flat t.page =
      (Kernel.memmove (flat s.page) (ofNat 64 pa) (ofNat 64 pa') pgsize).2) E s := by
  have hlt := hpa.lt
  have hlt' := hpa'.lt
  have hdst : (ofNat 64 pa).toNat = pa + 0 := by bv_omega
  have hcopy : flat (update s.page pa (s.page pa')) =
      moved (flat s.page) (ofNat 64 pa) (ofNat 64 pa') pgsize := by
    rw [← splice_flat s.page (s.page pa) hpa']
    exact flat_splice hpa hdst (by simp)
  rw [wp_memmove, Kernel.memmove_eq (by simp; omega) (by simp; omega)]
  exact hcopy

/-- **Copies of pages are made by the kernel's `memmove`**: what the model does to a page in one step,
the loop does to the bytes of RAM. -/
theorem page_copies {pa' : Nat} (hpa : b.RamPage pa) (hpa' : b.RamPage pa')
    (hdst : dst.toNat = pa + off) (hoff : off + n.toNat ≤ pgsize) (hsrc : src.toNat + n.toNat ≤ 2 ^ 64) :
    (∃ r t, Vm.memmove pa pa' s = .ok r t ∧ flat t.page =
      (Kernel.memmove (flat s.page) (ofNat 64 pa) (ofNat 64 pa') pgsize).2) ∧
    ∃ r t, moveIn pa off n.toNat (fun i => flat s.page (src + ofNat 64 i)) s = .ok r t ∧
      flat t.page = (Kernel.memmove (flat s.page) dst src n).2 :=
  ⟨(wp_memmove_flat hpa hpa').exists_ok, (wp_moveIn_flat hpa hdst hoff hsrc).exists_ok⟩

/-- The first free page gets four bytes of the second. -/
theorem page_copies_small : ∃ r t, moveIn smallBoot.kend 8 4
      (fun i => flat (smallRam 2).page (ofNat 64 (smallBoot.kend + pgsize) + ofNat 64 i)) (smallRam 2) =
        .ok r t ∧ flat t.page = (Kernel.memmove (flat (smallRam 2).page)
          (ofNat 64 (smallBoot.kend + 8)) (ofNat 64 (smallBoot.kend + pgsize)) 4).2 := by
  have hpa : smallBoot.RamPage smallBoot.kend := by decide
  have hoff : 8 + (4 : BitVec 32).toNat ≤ pgsize := by decide
  exact (page_copies hpa hpa (by decide) hoff (by decide)).2

end Xv6.Memmove
