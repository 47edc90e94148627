import Xv6.Lib.Bytes
import Xv6.Lib.Heap
import Xv6.Lib.Prog
import Xv6.Vm.Riscv

/-!
# Physical memory

`kernel/kalloc.c`.  RAM is a page of bytes for every page-aligned physical address, and the free list
of `kalloc` and `kfree`.  Where other processors hold memory at the moment, `kalloc` finds the list
empty although there are pages on it later; `out` says for the calls to come whether that is so.
-/

namespace Xv6

open Function (update update_of_ne update_self)

namespace Vm

open Heap Prog

abbrev Page : Type := Bytes pgsize

structure Boot where
  kend : Nat
  /-- `trampoline`: the page with the code for entering and leaving the kernel. -/
  tramp : Nat
  tramp_mod : tramp % pgsize = 0
  tramp_ge : kernbase ≤ tramp
  tramp_le : tramp + pgsize ≤ kend
  kend_le : kend ≤ phystop

/-- The pages that `kfree` accepts. -/
def Boot.RamPage (b : Boot) (pa : Nat) : Prop := pa % pgsize = 0 ∧ b.kend ≤ pa ∧ pa < phystop

instance (b : Boot) (pa : Nat) : Decidable (b.RamPage pa) := inferInstanceAs (Decidable (_ ∧ _))

/-- Physical memory and `kmem`. -/
structure Ram extends Heap Nat Page where
  /-- Whether the calls of `kalloc` to come find nothing, whatever is on the free list. -/
  out : List Bool

abbrev VM : Type → Type := EStateM Stop Ram

def memset (pa : Nat) (c : UInt8) : VM Unit :=
  modify fun s => { s with page := update s.page pa fun _ => c }

def memmove (dst src : Nat) : VM Unit :=
  modify fun s => { s with page := update s.page dst (s.page src) }

/-- Entry number `i` of the 512 64-bit words in a page. -/
def word (page : Nat → Page) (pa i : Nat) : Nat := (page pa).read (8 * i) 8

def load (pa i : Nat) : VM Nat := do
  let s ← get
  pure (word s.page pa i)

/-- The pages after `pagetable[i] = w`. -/
def setWord (page : Nat → Page) (pa i w : Nat) : Nat → Page :=
  update page pa ((page pa).write (8 * i) 8 w)

def store (pa i w : Nat) : VM Unit := modify fun s => { s with page := setWord s.page pa i w }

def kalloc : VM (Option Nat) := do
  let s ← get
  match s.out, s.free with
  | true :: out, _ => do
    set { s with out := out }
    pure none
  | _, [] => do
    set { s with out := s.out.tail }
    pure none
  | _, r :: free => do
    set { page := update s.page r fun _ => 5, free := free, out := s.out.tail : Ram }
    pure (some r)

def kfree (b : Boot) (pa : Nat) : VM Unit := do
  if pa % pgsize ≠ 0 ∨ pa < b.kend ∨ phystop ≤ pa then throw (.panic .kfree)
  modify fun s => { s with page := update s.page pa fun _ => 1, free := pa :: s.free }

/-! ## Words -/

section Words

variable {page : Nat → Page} {pa i w : Nat}

theorem word_lt (page : Nat → Page) (pa i : Nat) : word page pa i < 2 ^ 64 :=
  Bytes.read_lt (page pa) (8 * i) 8

theorem word_of_le (h : 512 ≤ i) : word page pa i = 0 := by
  have hzero : ∀ (n off : Nat), pgsize ≤ off → (page pa).read off n = 0 := by
    intro n
    induction n with
    | zero => exact fun _ _ => rfl
    | succ n ih =>
      intro off hoff
      rw [Bytes.read, ih (off + 1) (by omega), Bytes.byte, dif_neg (by omega)]
      rfl
  exact hzero 8 (8 * i) (by simp only [pgsize]; omega)

theorem word_const (h : page pa = fun _ => 0) (i : Nat) : word page pa i = 0 := by
  have hzero : ∀ (n off : Nat), (page pa).read off n = 0 := by
    intro n
    induction n with
    | zero => exact fun _ => rfl
    | succ n ih =>
      intro off
      rw [Bytes.read, ih, Bytes.byte, h]
      split <;> rfl
  exact hzero 8 (8 * i)

theorem word_congr {page' : Nat → Page} (h : page' pa = page pa) (i : Nat) :
    word page' pa i = word page pa i := by
  rw [word, word, h]

theorem setWord_of_ne {x : Nat} (h : x ≠ pa) : setWord page pa i w x = page x :=
  update_of_ne h ..

theorem word_setWord_self (hi : i < 512) (hw : w < 2 ^ 64) :
    word (setWord page pa i w) pa i = w := by
  rw [word, setWord, update_self, Bytes.read_write (by simp only [pgsize]; omega)]
  exact Nat.mod_eq_of_lt hw

theorem word_setWord_of_ne {x j : Nat} (h : ¬(x = pa ∧ j = i)) :
    word (setWord page pa i w) x j = word page x j := by
  by_cases hx : x = pa
  · subst hx
    rw [word, word, setWord, update_self, Bytes.read_write_of_disjoint]
    have hj : j ≠ i := fun heq => h ⟨rfl, heq⟩
    omega
  · exact word_congr (setWord_of_ne hx) j

end Words

/-! ## Taking and giving back pages -/

section Alloc

variable {b : Boot} {s : Ram} {pa i w : Nat} {c : UInt8} {E : Stop → Ram → Prop}

theorem Boot.RamPage.lt {b : Boot} {pa : Nat} (h : b.RamPage pa) : pa < 2 ^ 56 :=
  h.2.2.trans (by decide)

variable {Q : Unit → Ram → Prop}

@[simp] theorem wp_memset : wp (memset pa c) Q E s ↔
    Q () { s with page := update s.page pa fun _ => c } := Iff.rfl

@[simp] theorem wp_memmove {src : Nat} : wp (memmove pa src) Q E s ↔
    Q () { s with page := update s.page pa (s.page src) } := Iff.rfl

@[simp] theorem wp_load {Q : Nat → Ram → Prop} :
    wp (load pa i) Q E s ↔ Q (word s.page pa i) s := Iff.rfl

@[simp] theorem wp_store :
    wp (store pa i w) Q E s ↔ Q () { s with page := setWord s.page pa i w } := Iff.rfl

theorem wp_kalloc {Q : Option Nat → Ram → Prop} (hs : s.free.Nodup)
    (hnone : ∀ t : Ram, t.toHeap = s.toHeap → Q none t)
    (hsome : ∀ (r : Nat) (t : Ram), r ∈ s.free → Change s.toHeap t.toHeap ∅ {r} → Q (some r) t) :
    wp kalloc Q E s := by
  simp only [kalloc, wp_bind, wp_get]
  split
  · exact hnone _ rfl
  · exact hnone _ rfl
  · rename_i r free hfree _
    refine hsome r _ (by simp [hfree]) ?_
    exact change_take (s := s.toHeap) hs hfree fun _ => 5

theorem wp_kfree (hpa : b.RamPage pa) (hs : Owns s.toHeap {pa})
    (h : ∀ t : Ram, Change s.toHeap t.toHeap {pa} ∅ → Q () t) : wp (kfree b pa) Q E s := by
  obtain ⟨hmod, hge, hlt⟩ := hpa
  have hcheck : ¬(pa % pgsize ≠ 0 ∨ pa < b.kend ∨ phystop ≤ pa) := by
    rintro (hne | hlow | hhigh)
    · exact hne hmod
    · exact absurd hge (Nat.not_le_of_lt hlow)
    · exact absurd hlt (Nat.not_lt_of_le hhigh)
  rw [kfree, if_neg hcheck]
  exact h _ (change_give (s := s.toHeap) hs fun _ => 1)

end Alloc

end Vm

end Xv6
