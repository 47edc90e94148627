import Xv6.Vm.Map

/-!
# User address spaces

`uvmalloc`, `uvmdealloc`, `freewalk`, `uvmfree`, `uvmcopy`, `copyout` and `copyin` of `kernel/vm.c`,
and `proc_pagetable` and `proc_freepagetable` of `kernel/proc.c`.

The loops over pages count their rounds.  They differ from the loops of the source only where an
address would pass the end of 64 bits, and `walk` panics long before.
-/

namespace Xv6

namespace Vm

open Prog

/-- An `int` that is passed for a `uint64`. -/
def u64OfInt (n : Int) : Nat := (n % 2 ^ 64).toNat

def uvmdealloc (b : Boot) (pagetable oldsz newsz : Nat) : VM Nat := do
  if oldsz ≤ newsz then pure oldsz
  else
    if pgroundup newsz < pgroundup oldsz then
      let npages := int32 ((pgroundup oldsz - pgroundup newsz) / pgsize : Nat)
      uvmunmap b pagetable (pgroundup newsz) (u64OfInt npages) true
    pure newsz

/-- A new page is filled and mapped at `a`, as in the loops of `uvmalloc` and `uvmcopy`; `false` if
there is no memory for it or for a table. -/
def addPage (b : Boot) (pagetable a perm : Nat) (fill : Nat → VM Unit) : VM Bool := do
  match ← kalloc with
  | none => pure false
  | some mem => do
    fill mem
    if (← mappages pagetable a pgsize mem perm) ≠ 0 then
      kfree b mem
      pure false
    else pure true

/-- The loop in `uvmalloc`, with `n` rounds to go; `false` if it returns 0. -/
def uvmallocFrom (b : Boot) (pagetable oldsz xperm : Nat) : Nat → Nat → VM Bool
  | 0, _ => pure true
  | n + 1, a => do
    if ← addPage b pagetable a (pteR ||| pteU ||| xperm) fun mem => memset mem 0 then
      uvmallocFrom b pagetable oldsz xperm n (u64 (a + pgsize))
    else
      let _ ← uvmdealloc b pagetable a oldsz
      pure false

def uvmalloc (b : Boot) (pagetable oldsz newsz xperm : Nat) : VM Nat := do
  if newsz < oldsz then pure oldsz
  else
    let oldsz := pgroundup oldsz
    if ← uvmallocFrom b pagetable oldsz xperm ((newsz - oldsz + pgsize - 1) / pgsize) oldsz then
      pure newsz
    else pure 0

@[irreducible] def ptes : Nat := 2 ^ 9

/-- One round of the loop in `freewalk`, which calls itself as `rec`. -/
def freewalkRound (rec : Nat → VM Unit) (pagetable i : Nat) : VM Unit := do
  let pte ← load pagetable i
  if pte &&& pteV ≠ 0 ∧ pte &&& (pteR ||| pteW ||| pteX) = 0 then
    rec (pte2pa pte)
    store pagetable i 0
  else if pte &&& pteV ≠ 0 then throw (.panic .freewalkLeaf)
  else pure ()

/-- `freewalk(pagetable)`, for a table with at most the given number of levels. -/
def freewalk (b : Boot) : Nat → Nat → VM Unit
  | 0, _ => throw .fault
  | level + 1, pagetable => do
    times (freewalkRound (freewalk b level) pagetable) ptes
    kfree b pagetable

def uvmfree (b : Boot) (pagetable sz : Nat) : VM Unit := do
  if 0 < sz then uvmunmap b pagetable 0 (pgroundup sz / pgsize) true
  freewalk b 3 pagetable

/-- The loop in `uvmcopy`, with `n` rounds to go. -/
def uvmcopyFrom (b : Boot) (old new : Nat) : Nat → Nat → VM Int
  | 0, _ => pure 0
  | n + 1, i => do
    match ← walk old i false with
    | none => throw (.panic .uvmcopyPte)
    | some (pg, k) => do
      let pte ← load pg k
      if pte &&& pteV = 0 then throw (.panic .uvmcopyPage)
      if ← addPage b new i (pteFlags pte) fun mem => memmove mem (pte2pa pte) then
        uvmcopyFrom b old new n (u64 (i + pgsize))
      else
        uvmunmap b new 0 (i / pgsize) true
        pure (-1)

def uvmcopy (b : Boot) (old new sz : Nat) : VM Int :=
  uvmcopyFrom b old new ((sz + pgsize - 1) / pgsize) 0

/-- `proc_pagetable(p)`, where `tf` is `p->trapframe`. -/
def procPagetable (b : Boot) (tf : Nat) : VM (Option Nat) := do
  match ← uvmcreate with
  | none => pure none
  | some pagetable =>
    if (← mappages pagetable trampoline pgsize b.tramp (pteR ||| pteX)) < 0 then
      uvmfree b pagetable 0
      pure none
    else if (← mappages pagetable trapframe pgsize tf (pteR ||| pteW)) < 0 then
      uvmunmap b pagetable trampoline 1 false
      uvmfree b pagetable 0
      pure none
    else pure (some pagetable)

def procFreepagetable (b : Boot) (pagetable sz : Nat) : VM Unit := do
  uvmunmap b pagetable trampoline 1 false
  uvmunmap b pagetable trapframe 1 false
  uvmfree b pagetable sz

/-! ## Copies -/

/-- `memmove` of `n` bytes to the offset `off` of a page. -/
def moveIn (pa off n : Nat) (src : Nat → UInt8) : VM Unit :=
  modify fun s => { s with page := Function.update s.page pa ((s.page pa).splice off n src) }

/-- The loop in `copyout`; each round copies at least one of the `len` bytes, so `len` rounds are
enough. -/
def copyoutFrom (pagetable : Nat) : Nat → Nat → (Nat → UInt8) → Nat → VM Int
  | 0, _, _, _ => pure 0
  | fuel + 1, dstva, src, len =>
    if len = 0 then pure 0
    else do
      let va0 := pgrounddown dstva
      match ← walkaddr pagetable va0 with
      | none => pure (-1)
      | some pa0 => do
        let n := min (pgsize - (dstva - va0)) len
        moveIn pa0 (dstva - va0) n src
        copyoutFrom pagetable fuel (u64 (va0 + pgsize)) (fun i => src (i + n)) (len - n)

def copyout (pagetable dstva : Nat) (src : Nat → UInt8) (len : Nat) : VM Int :=
  copyoutFrom pagetable len dstva src len

/-- The loop in `copyin`, with the bytes copied so far. -/
def copyinFrom (pagetable : Nat) : Nat → List UInt8 → Nat → Nat → VM (Option (List UInt8))
  | 0, dst, _, _ => pure (some dst)
  | fuel + 1, dst, srcva, len =>
    if len = 0 then pure (some dst)
    else do
      let va0 := pgrounddown srcva
      match ← walkaddr pagetable va0 with
      | none => pure none
      | some pa0 => do
        let n := min (pgsize - (srcva - va0)) len
        let s ← get
        let got := (List.range n).map fun i => (s.page pa0).byte (srcva - va0 + i)
        copyinFrom pagetable fuel (dst ++ got) (u64 (va0 + pgsize)) (len - n)

/-- `copyin(pagetable, dst, srcva, len)`: the bytes, or `none` for -1. -/
def copyin (pagetable srcva len : Nat) : VM (Option (List UInt8)) :=
  copyinFrom pagetable len [] srcva len

end Vm

end Xv6
