import Xv6.Vm.Map

/-!
# Page tables refine finite maps

`mapOf s root` is the map from virtual pages to physical addresses and flags that `walk(.., 0)` reads
off a page table.  `Built l s` says that the page table in the state `s` was made by `uvmcreate` and
the calls in `l`, with any other use of memory by others in between.  Then the map comes from the
empty one by the insertions and deletions in `l` (`MapRun`).
-/

namespace Xv6

namespace Vm

open Heap Prog Trie

abbrev PageMap : Type := Nat → Option (Nat × Nat)

/-- What `walk(pagetable, va, 0)` reads. -/
def readEntry (pagetable va : Nat) : VM (Option (Nat × Nat)) := do
  match ← walk pagetable va false with
  | none => pure none
  | some (pg, i) => do
    let pte ← load pg i
    if pte &&& pteV = 0 then pure none else pure (some (pte2pa pte, pteFlags pte))

def mapOf (s : Ram) (root : Nat) : PageMap := fun v =>
  match readEntry root (v * pgsize) s with
  | .ok r _ => r
  | .error _ _ => none

namespace PageMap

def insertRange (M : PageMap) (v n pa perm : Nat) : PageMap := fun x =>
  if v ≤ x ∧ x < v + n then some (pgrounddown pa + (x - v) * pgsize, perm ||| pteV) else M x

def eraseRange (M : PageMap) (v n : Nat) : PageMap := fun x => if v ≤ x ∧ x < v + n then none else M x

/-- The page `v` is no longer for the user. -/
def clearUser (M : PageMap) (v : Nat) : PageMap := fun x =>
  if x = v then (M x).map fun p => (p.1, p.2 &&& (2 ^ 10 - 1 - pteU)) else M x

end PageMap

inductive Op where
  | mappages (va size pa perm : Nat)
  | uvmunmap (va npages : Nat) (doFree : Bool)
  | uvmclear (va : Nat)
  deriving DecidableEq, Repr

namespace Op

def run (b : Boot) (root : Nat) : Op → VM Int
  | mappages va size pa perm => Vm.mappages root va size pa perm
  | uvmunmap va npages doFree => do
    Vm.uvmunmap b root va npages doFree
    pure 0
  | uvmclear va => do
    Vm.uvmclear root va
    pure 0

/-- The number of pages that cover `[va, va + size)`. -/
def span (va size : Nat) : Nat := (va + size - 1) / pgsize - va / pgsize + 1

/-- What callers see to: numbers fit, physical addresses are below `2^56`, and pages that are given
back are their own. -/
def Legal (b : Boot) (s : Ram) (root : Nat) : Op → Prop
  | mappages va size pa perm =>
    va < 2 ^ 64 ∧ size < 2 ^ 64 ∧ pa + span va size * pgsize ≤ 2 ^ 56 ∧ perm < 2 ^ 10
  | uvmunmap va npages doFree =>
    va + npages * pgsize < 2 ^ 64 ∧ (doFree = true → Private b s root (va / pgsize) npages)
  | uvmclear _ => True

/-- What a call that returns `r` does to the map. -/
def Effect (r : Int) (M M' : PageMap) : Op → Prop
  | mappages va size pa perm =>
    ∃ n, M' = M.insertRange (va / pgsize) n pa perm ∧
      (r = 0 ∧ n = span va size ∨ r = -1 ∧ n < span va size)
  | uvmunmap va npages _ => M' = M.eraseRange (va / pgsize) npages
  | uvmclear va => M' = M.clearUser (va / pgsize)

end Op

/-- The page table at `root` was made by `uvmcreate` and the calls in the list. -/
inductive Built (b : Boot) (root : Nat) : List (Op × Int) → Ram → Prop where
  | create {s₀ s : Ram} : s₀.free.Nodup → b.Free s₀ → uvmcreate s₀ = .ok (some root) s →
    Built b root [] s
  | call {l : List (Op × Int)} {s t : Ram} {op : Op} {r : Int} : Built b root l s →
    op.Legal b s root → op.run b root s = .ok r t → Built b root (l ++ [(op, r)]) t
  | others {l : List (Op × Int)} {s t : Ram} {A B : Set Nat} : Built b root l s →
    Change s.toHeap t.toHeap A B → Disjoint A (tables s.page root) → (∀ x ∈ A, b.RamPage x) →
    Built b root l t

/-- The map comes from the empty one by the calls in the list. -/
inductive MapRun : List (Op × Int) → PageMap → Prop where
  | empty : MapRun [] fun _ => none
  | call {l : List (Op × Int)} {M M' : PageMap} {op : Op} {r : Int} : MapRun l M →
    op.Effect r M M' → MapRun (l ++ [(op, r)]) M'

/-! ## Reading an entry -/

def decode (pte : Nat) : Option (Nat × Nat) :=
  if pte &&& pteV = 0 then none else some (pte2pa pte, pteFlags pte)

section Decode

variable {e : Nat → Nat} {v n pa perm pte : Nat}

theorem mapOf_eq (s : Ram) (root : Nat) : mapOf s root = fun v => decode (entry s.page root v) := by
  funext v
  by_cases hv : v < maxvpn
  · have hva := mul_pgsize_lt hv
    have hread : wp (readEntry root (v * pgsize)) (fun r _ => r = decode (entry s.page root v))
        (fun _ _ => False) s := by
      rw [readEntry, wp_bind, wp_walk_false hva]
      cases hn : bottom s.page root (v * pgsize) with
      | none =>
        have hentry := entry_of_bottom_none hn
        rw [mul_pgsize_div] at hentry
        rw [hentry]
        rfl
      | some n =>
        have hentry := entry_of_bottom hn hva
        rw [mul_pgsize_div] at hentry
        simp only [Option.map_some, wp_bind, wp_load, wp_ite, wp_pure]
        rw [hentry, decode]
        split <;> rfl
    obtain ⟨r, t, hok, hr⟩ := hread.exists_ok
    rw [mapOf, hok, hr]
  · have hva : maxva ≤ v * pgsize := by
      have hmax : maxva = 2 ^ 38 := rfl
      simp only [maxvpn, pgsize, hmax] at *
      omega
    rw [entry_of_le (Nat.le_of_not_lt hv), mapOf, readEntry, walk, if_pos hva]
    rfl

theorem decode_mkpte (hpa : pa < 2 ^ 56) (hperm : perm < 1024) :
    decode (mkpte pa perm) = some (pgrounddown pa, perm ||| pteV) := by
  rw [decode, if_neg (mkpte_valid pa perm), pte2pa_mkpte hpa hperm, pteFlags_mkpte hperm]

theorem decode_clear (hpte : pte < 2 ^ 64) : decode (pte &&& (2 ^ 64 - 1 - pteU)) =
    (decode pte).map fun p => (p.1, p.2 &&& (2 ^ 10 - 1 - pteU)) := by
  have hV : pte &&& (2 ^ 64 - 1 - pteU) &&& pteV = pte &&& pteV := Nat.and_assoc ..
  have hflags : pteFlags (pte &&& (2 ^ 64 - 1 - pteU)) = pteFlags pte &&& (2 ^ 10 - 1 - pteU) := by
    rw [pteFlags, pteFlags, Nat.and_assoc, Nat.and_assoc]
    rfl
  have hpa : pte2pa (pte &&& (2 ^ 64 - 1 - pteU)) = pte2pa pte := by
    have hshift : (2 ^ 64 - 1 - pteU) >>> 10 = 2 ^ 54 - 1 := rfl
    rw [pte2pa, pte2pa, Nat.shiftRight_and_distrib, hshift, Nat.and_two_pow_sub_one_eq_mod,
      Nat.mod_eq_of_lt]
    rw [Nat.shiftRight_eq_div_pow]
    omega
  rw [decode, decode, hV, hflags, hpa]
  split <;> rfl

theorem decode_insertRange (hpa : pa + n * pgsize ≤ 2 ^ 56) (hperm : perm < 1024) :
    (fun x => decode (insertRange e v n pa perm x)) =
      PageMap.insertRange (fun x => decode (e x)) v n pa perm := by
  funext x
  rw [insertRange, PageMap.insertRange]
  split
  · rename_i hx
    have hmul : (x - v) * pgsize + pgsize ≤ n * pgsize := by
      rw [← Nat.succ_mul]
      exact Nat.mul_le_mul_right _ (by omega)
    have hround : pgrounddown (pa + (x - v) * pgsize) = pgrounddown pa + (x - v) * pgsize := by
      rw [pgrounddown, pgrounddown, Nat.add_mul_div_right _ _ (by decide), Nat.add_mul]
    rw [decode_mkpte (by simp only [pgsize] at *; omega) hperm, hround]
  · rfl

theorem decode_eraseRange : (fun x => decode (eraseRange e v n x)) =
    PageMap.eraseRange (fun x => decode (e x)) v n := by
  funext x
  rw [eraseRange, PageMap.eraseRange]
  split <;> rfl

end Decode

/-! ## The refinement -/

structure Inv (b : Boot) (root : Nat) (s : Ram) : Prop where
  table : Table b s.page root
  owns : Owns s.toHeap (tables s.page root)
  free : b.Free s

section Steps

variable {b : Boot} {s t : Ram} {root : Nat} {l : List (Op × Int)}

theorem Edited.inv {e : Nat → Nat} (h : Edited b s t root e) (hs : Inv b root s) : Inv b root t :=
  ⟨h.table, h.change.owns, h.free hs.table hs.free⟩

theorem Edited.mapOf_eq {e : Nat → Nat} (h : Edited b s t root e) :
    mapOf t root = fun v => decode (e v) := by rw [Vm.mapOf_eq, h.entry]

theorem Inv.mappages {va size pa perm : Nat} (h : Inv b root s)
    (hlegal : (Op.mappages va size pa perm).Legal b s root) :
    wp (Vm.mappages root va size pa perm)
      (fun r t => Inv b root t ∧
        (Op.mappages va size pa perm).Effect r (mapOf s root) (mapOf t root))
      (fun _ _ => True) s := by
  obtain ⟨hva, hsize, hpa, hperm⟩ := hlegal
  rw [Vm.mappages]
  by_cases hzero : size = 0
  · rw [if_pos hzero]
    trivial
  · rw [if_neg hzero]
    have hcount : u64 (pgrounddown (u64 (va + size - 1)) + 2 ^ 64 - pgrounddown va) / pgsize =
        Op.span va size - 1 := by
      simp only [pgrounddown, u64, Op.span, pgsize] at *
      omega
    have hspan : Op.span va size = Op.span va size - 1 + 1 := by simp [Op.span]
    show wp (mappagesFrom root perm _ (va / pgsize * pgsize) pa) _ _ s
    rw [hcount]
    have hdecode : ∀ t j, j ≤ Op.span va size → Edited b s t root
        (insertRange (entry s.page root) (va / pgsize) j pa perm) →
        mapOf t root = (mapOf s root).insertRange (va / pgsize) j pa perm := by
      intro t j hj ht
      have hle : j * pgsize ≤ Op.span va size * pgsize := Nat.mul_le_mul_right _ hj
      rw [ht.mapOf_eq, decode_insertRange ((Nat.add_le_add_left hle pa).trans hpa) hperm,
        ← Vm.mapOf_eq]
    rw [hspan] at hpa
    refine wp_mappagesFrom h.table h.owns h.free hperm hpa (.inr fun _ _ => trivial)
      (fun t j hj ht => ⟨ht.inv h, j, hdecode t j (by omega) ht, .inr ⟨rfl, by omega⟩⟩)
      fun t ht => ⟨ht.inv h, _, hdecode t _ (by omega) ht, .inl ⟨rfl, by omega⟩⟩

theorem Inv.uvmunmap {va npages : Nat} {doFree : Bool} (h : Inv b root s)
    (hlegal : (Op.uvmunmap va npages doFree).Legal b s root) :
    wp (Vm.uvmunmap b root va npages doFree)
      (fun _ t => Inv b root t ∧
        mapOf t root = (mapOf s root).eraseRange (va / pgsize) npages)
      (fun _ _ => True) s := by
  obtain ⟨hva, hfree⟩ := hlegal
  rw [Vm.uvmunmap]
  by_cases hmod : va % pgsize ≠ 0
  · rw [if_pos hmod]
    trivial
  · rw [if_neg hmod]
    have hcount : (u64 (va + npages * pgsize) - va) / pgsize = npages := by
      rw [u64_of_lt hva, Nat.add_sub_cancel_left, mul_pgsize_div]
    have hmul : va = va / pgsize * pgsize := by
      simp only [pgsize] at *
      omega
    show wp (uvmunmapFrom b root doFree _ va) _ _ s
    rw [hcount]
    nth_rewrite 1 [hmul]
    refine wp_uvmunmapFrom h.table h.owns hfree (.inr fun _ _ => trivial) fun t ht => ?_
    refine ⟨⟨ht.table, ht.change.owns, h.free.change ht.change fun x hx => ?_⟩, ?_⟩
    · rcases hx with hx | hx
      · exact h.table.ram x hx
      · rw [freed] at hx
        split at hx
        · exact (hfree ‹_›).ram x hx
        · exact hx.elim
    · rw [Vm.mapOf_eq, ht.entry, decode_eraseRange, ← Vm.mapOf_eq]

theorem Inv.uvmclear {va : Nat} (h : Inv b root s) :
    wp (Vm.uvmclear root va)
      (fun _ t => Inv b root t ∧ mapOf t root = (mapOf s root).clearUser (va / pgsize))
      (fun _ _ => True) s := by
  refine wp_uvmclear h.table h.owns (.inr fun _ _ => trivial) fun t _ ht => ⟨ht.inv h, ?_⟩
  rw [ht.mapOf_eq, Vm.mapOf_eq]
  funext x
  rw [PageMap.clearUser]
  split
  · rename_i hx
    rw [hx, Function.update_self, decode_clear (entry_lt ..)]
  · rename_i hx
    rw [Function.update_of_ne hx]

theorem Inv.call {op : Op} (h : Inv b root s) (hlegal : op.Legal b s root) :
    wp (op.run b root) (fun r t => Inv b root t ∧ op.Effect r (mapOf s root) (mapOf t root))
      (fun _ _ => True) s := by
  cases op with
  | mappages va size pa perm => exact h.mappages hlegal
  | uvmunmap va npages doFree =>
    rw [Op.run, wp_bind]
    exact (h.uvmunmap hlegal).mono_ok fun _ _ ht => ht
  | uvmclear va =>
    rw [Op.run, wp_bind]
    exact h.uvmclear.mono_ok fun _ _ ht => ht

theorem Built.inv (h : Built b root l s) : Inv b root s ∧ MapRun l (mapOf s root) := by
  induction h with
  | @create s₀ s hnodup hfree hrun =>
    have hspec : wp uvmcreate (fun r t => ∀ root, r = some root →
        Inv b root t ∧ MapRun [] (mapOf t root)) (fun _ _ => True) s₀ := by
      refine wp_uvmcreate hnodup hfree (fun _ _ _ h => by cases h) fun t r hchange ht hentry => ?_
      rintro _ ⟨⟩
      refine ⟨⟨ht, hchange.owns, hfree.change hchange fun x hx => hx.elim⟩, ?_⟩
      have hempty : mapOf t r = fun _ => none := by
        rw [mapOf_eq, hentry]
        exact funext fun _ => (by decide : decode 0 = none)
      rw [hempty]
      exact .empty
    exact (wp_of_ok hrun).mp hspec root rfl
  | call _ hlegal hrun ih =>
    obtain ⟨hinv, heffect⟩ := (wp_of_ok hrun).mp (ih.1.call hlegal)
    exact ⟨hinv, .call ih.2 heffect⟩
  | others _ hchange hdisj hram ih =>
    have hkept := ih.1.table.kept ih.1.owns hchange hdisj
    refine ⟨⟨hkept.table, hkept.owns, ih.1.free.change hchange hram⟩, ?_⟩
    rw [mapOf_eq, hkept.entry, ← mapOf_eq]
    exact ih.2

/-- **A page table is the finite map that its calls make.** -/
theorem built_mapRun (h : Built b root l s) : MapRun l (mapOf s root) := h.inv.2

end Steps

def smallBoot : Boot where
  kend := kernbase + 16 * pgsize
  tramp := kernbase
  tramp_mod := by decide
  tramp_ge := by decide
  tramp_le := by decide
  kend_le := by decide

def smallRam (n : Nat) : Ram where
  page := fun _ _ => 0
  free := (List.range n).map fun i => smallBoot.kend + i * pgsize
  out := []

/-- The last page below `MAXVA` is mapped, and unmapped again after there was no memory for the tables
of another one. -/
theorem built_mapRun_small :
    let l := [(Op.mappages trampoline pgsize kernbase (pteR ||| pteX), (0 : Int)),
      (.mappages 0 pgsize 0 pteR, -1), (.uvmunmap trampoline 1 false, 0)]
    ∃ s, Built smallBoot smallBoot.kend l s ∧ MapRun l (mapOf s smallBoot.kend) := by
  intro l
  have hbuilt : ∃ s, Built smallBoot smallBoot.kend l s := by
    have hnodup : (smallRam 3).free.Nodup := by decide
    have hcreate : Built smallBoot smallBoot.kend [] (final uvmcreate (smallRam 3)) :=
      .create hnodup (by decide +kernel) (eq_ok_of_value (by decide +kernel))
    have hmap : Built smallBoot smallBoot.kend
        [(Op.mappages trampoline pgsize kernbase (pteR ||| pteX), 0)] _ :=
      hcreate.call ⟨by decide, by decide, by decide, by decide⟩ (eq_ok_of_value (by decide +kernel))
    have hfail : Built smallBoot smallBoot.kend
        [(Op.mappages trampoline pgsize kernbase (pteR ||| pteX), 0), (.mappages 0 pgsize 0 pteR, -1)]
        _ := hmap.call ⟨by decide, by decide, by decide, by decide⟩
      (eq_ok_of_value (by decide +kernel))
    exact ⟨_, hfail.call ⟨by decide, by simp⟩ (eq_ok_of_value (by decide +kernel))⟩
  obtain ⟨s, hs⟩ := hbuilt
  exact ⟨s, hs, built_mapRun hs⟩

end Vm

end Xv6
