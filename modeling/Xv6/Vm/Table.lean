import Xv6.Lib.Trie
import Xv6.Vm.Kalloc

/-!
# Page tables

`walk`, `walkaddr`, `mappages`, `uvmunmap`, `uvmcreate` and `uvmclear` of `kernel/vm.c`.

`child page n k` is the table that entry `k` of the table `n` points to, so that the tables are the
nodes of a tree of depth two (`tables`), and `entry page root v` is the entry that the walk finds for the
virtual page `v`.  `Table` says that the tree is one, and `Grown` what `walk` may do to it when it
makes new tables: the entries stay as they are.
-/

namespace Xv6

namespace Vm

open Function (update update_of_ne update_self)
open Heap Prog Trie

/-- One round of the loop in `walk`: from a table to the one below it. -/
def walkLevel (pagetable k : Nat) (alloc : Bool) : VM (Option Nat) := do
  let pte ← load pagetable k
  if pte &&& pteV ≠ 0 then pure (some (pte2pa pte))
  else if alloc then
    match ← kalloc with
    | none => pure none
    | some pg => do
      memset pg 0
      store pagetable k (pa2pte pg ||| pteV)
      pure (some pg)
  else pure none

/-- `walk(pagetable, va, alloc)`: the table and the index in it of the entry for `va`. -/
def walk (pagetable va : Nat) (alloc : Bool) : VM (Option (Nat × Nat)) := do
  if maxva ≤ va then throw (.panic .walk)
  match ← walkLevel pagetable (px 2 va) alloc with
  | none => pure none
  | some pagetable =>
    match ← walkLevel pagetable (px 1 va) alloc with
    | none => pure none
    | some pagetable => pure (some (pagetable, px 0 va))

/-- `walkaddr(pagetable, va)`: `none` is 0. -/
def walkaddr (pagetable va : Nat) : VM (Option Nat) := do
  if maxva ≤ va then pure none
  else
    match ← walk pagetable va false with
    | none => pure none
    | some (pg, i) => do
      let pte ← load pg i
      if pte &&& pteV = 0 then pure none
      else if pte &&& pteU = 0 then pure none
      else if pte2pa pte = 0 then pure none
      else pure (some (pte2pa pte))

/-- One round of the loop in `mappages`; `false` if there is no memory for a table. -/
def mappage (pagetable perm a pa : Nat) : VM Bool := do
  match ← walk pagetable a true with
  | none => pure false
  | some (pg, i) => do
    let pte ← load pg i
    if pte &&& pteV ≠ 0 then throw (.panic .mappagesRemap)
    store pg i (pa2pte pa ||| perm ||| pteV)
    pure true

/-- The loop in `mappages`, with `n` rounds to go after this one. -/
def mappagesFrom (pagetable perm : Nat) : Nat → Nat → Nat → VM Int
  | 0, a, pa => do
    if ← mappage pagetable perm a pa then pure 0 else pure (-1)
  | n + 1, a, pa => do
    if ← mappage pagetable perm a pa then
      mappagesFrom pagetable perm n (u64 (a + pgsize)) (u64 (pa + pgsize))
    else pure (-1)

/-- `mappages(pagetable, va, size, pa, perm)`.  The loop ends when `a` is `last`, which is after
`(last - a) / PGSIZE` rounds; should `last` have wrapped around, `walk` panics before `a` does. -/
def mappages (pagetable va size pa perm : Nat) : VM Int := do
  if size = 0 then throw (.panic .mappagesSize)
  let a := pgrounddown va
  let last := pgrounddown (u64 (va + size - 1))
  mappagesFrom pagetable perm (u64 (last + 2 ^ 64 - a) / pgsize) a pa

/-- One round of the loop in `uvmunmap`. -/
def unmapPage (b : Boot) (pagetable : Nat) (doFree : Bool) (a : Nat) : VM Unit := do
  match ← walk pagetable a false with
  | none => throw (.panic .uvmunmapWalk)
  | some (pg, i) => do
    let pte ← load pg i
    if pte &&& pteV = 0 then throw (.panic .uvmunmapNotMapped)
    if pteFlags pte = pteV then throw (.panic .uvmunmapNotALeaf)
    if doFree then kfree b (pte2pa pte)
    store pg i 0

/-- The loop in `uvmunmap`, with `n` rounds to go. -/
def uvmunmapFrom (b : Boot) (pagetable : Nat) (doFree : Bool) : Nat → Nat → VM Unit
  | 0, _ => pure ()
  | n + 1, a => do
    unmapPage b pagetable doFree a
    uvmunmapFrom b pagetable doFree n (u64 (a + pgsize))

/-- `uvmunmap(pagetable, va, npages, do_free)`.  The loop runs while `a` is below
`va + npages*PGSIZE`; `walk` panics before `a` wraps around. -/
def uvmunmap (b : Boot) (pagetable va npages : Nat) (doFree : Bool) : VM Unit := do
  if va % pgsize ≠ 0 then throw (.panic .uvmunmapNotAligned)
  uvmunmapFrom b pagetable doFree ((u64 (va + npages * pgsize) - va) / pgsize) va

def uvmcreate : VM (Option Nat) := do
  match ← kalloc with
  | none => pure none
  | some pagetable => do
    memset pagetable 0
    pure (some pagetable)

def uvmclear (pagetable va : Nat) : VM Unit := do
  match ← walk pagetable va false with
  | none => throw (.panic .uvmclear)
  | some (pg, i) => do
    let pte ← load pg i
    store pg i (pte &&& (2 ^ 64 - 1 - pteU))

/-! ## The tree -/

def child (page : Nat → Page) (n k : Nat) : Option Nat :=
  if word page n k &&& pteV ≠ 0 then some (pte2pa (word page n k)) else none

def tables (page : Nat → Page) (root : Nat) : Set Nat := { n | Node (child page) root 2 n }

def bottom (page : Nat → Page) (root va : Nat) : Option Nat :=
  descend (child page) root [px 2 va, px 1 va]

/-- The entry for a virtual page, 0 if there is no table for it. -/
def entry (page : Nat → Page) (root v : Nat) : Nat :=
  if v < maxvpn then
    match bottom page root (v * pgsize) with
    | none => 0
    | some n => word page n (px 0 (v * pgsize))
  else 0

structure Table (b : Boot) (page : Nat → Page) (root : Nat) : Prop where
  unique : Unique (child page) root 2
  ram : ∀ n ∈ tables page root, b.RamPage n
  link : ∀ ks n k m, ks.length < 2 → descend (child page) root ks = some n → child page n k = some m →
    word page n k = pa2pte m ||| pteV
  /-- The part of the root for addresses from `MAXVA` on is not used. -/
  upper : ∀ k, 256 ≤ k → child page root k = none

section Tree

variable {b : Boot} {page page' : Nat → Page} {root va v n m k : Nat} {ks : List Nat}

theorem child_eq_none : child page n k = none ↔ word page n k &&& pteV = 0 := by
  rw [child]
  split <;> simp_all

theorem child_congr (h : page' n = page n) : child page' n = child page n := by
  funext k
  rw [child, child, word_congr h]

theorem mem_tables_root : root ∈ tables page root := node_root

theorem mem_tables_of_descend (hlen : ks.length ≤ 2) (h : descend (child page) root ks = some n) :
    n ∈ tables page root := ⟨ks, hlen, h⟩

theorem mem_tables_of_bottom (h : bottom page root va = some n) : n ∈ tables page root :=
  mem_tables_of_descend (by simp) h

theorem bottom_congr_va {va' : Nat} (h : va / pgsize = va' / pgsize) :
    bottom page root va = bottom page root va' := by
  rw [bottom, bottom, px_congr h, px_congr h]

theorem mul_pgsize_div (v : Nat) : v * pgsize / pgsize = v := Nat.mul_div_cancel v (by decide)

theorem div_lt_maxvpn (h : va < maxva) : va / pgsize < maxvpn := by
  have hmax : maxva = 2 ^ 38 := rfl
  simp only [maxvpn, pgsize, hmax] at *
  omega

theorem mul_pgsize_lt (h : v < maxvpn) : v * pgsize < maxva := by
  have hmax : maxva = 2 ^ 38 := rfl
  simp only [maxvpn, pgsize, hmax] at *
  omega

theorem entry_of_bottom (h : bottom page root va = some n) (hva : va < maxva) :
    entry page root (va / pgsize) = word page n (px 0 va) := by
  have hpage : va / pgsize * pgsize / pgsize = va / pgsize := mul_pgsize_div _
  rw [entry, if_pos (div_lt_maxvpn hva), bottom_congr_va hpage, h, px_congr hpage]

theorem entry_of_bottom_none (h : bottom page root va = none) : entry page root (va / pgsize) = 0 := by
  rw [entry, bottom_congr_va (mul_pgsize_div _), h]
  split <;> rfl

theorem entry_of_le (h : maxvpn ≤ v) : entry page root v = 0 := by
  rw [entry, if_neg (Nat.not_lt_of_le h)]

theorem entry_lt (page : Nat → Page) (root v : Nat) : entry page root v < 2 ^ 64 := by
  rw [entry]
  split
  · split
    · decide
    · exact word_lt ..
  · decide

section

variable (h : ∀ x ∈ tables page root, page' x = page x)
include h

theorem tables_congr : tables page' root = tables page root := by
  ext n
  exact node_congr fun _ x hls hx => child_congr (h x (mem_tables_of_descend hls.le hx))

theorem descend_congr_tables (hks : ks.length ≤ 2) :
    descend (child page') root ks = descend (child page) root ks :=
  descend_congr (fun _ x hls hx => child_congr (h x (mem_tables_of_descend hls.le hx))) hks

theorem entry_congr : entry page' root = entry page root := by
  funext v
  have hbottom : bottom page' root (v * pgsize) = bottom page root (v * pgsize) :=
    descend_congr_tables h (by simp)
  rw [entry, entry, hbottom]
  cases hn : bottom page root (v * pgsize) with
  | none => rfl
  | some n => simp only [word_congr (h n (mem_tables_of_bottom hn))]

end

variable (ht : Table b page root)
include ht

theorem Table.congr (h : ∀ x ∈ tables page root, page' x = page x) : Table b page' root where
  unique := ht.unique.congr fun _ x hls hx => child_congr (h x (mem_tables_of_descend hls.le hx))
  ram n hn := ht.ram n (tables_congr h ▸ hn)
  link ks n k m hks hn hm := by
    rw [descend_congr_tables h hks.le] at hn
    have hsame := h n (mem_tables_of_descend hks.le hn)
    rw [child_congr hsame] at hm
    rw [word_congr hsame]
    exact ht.link ks n k m hks hn hm
  upper k hk := by
    rw [child_congr (h root mem_tables_root)]
    exact ht.upper k hk

variable (hn : bottom page root va = some n)
include hn

theorem Table.child_setWord (i w : Nat)
    (ls : List Nat) (x : Nat) (hls : ls.length < 2) (hx : descend (child page) root ls = some x) :
    child (setWord page n i w) x = child page x := by
  refine child_congr (setWord_of_ne ?_)
  rintro rfl
  have heq := ht.unique hls.le (by simp) hx hn
  simp [heq] at hls

theorem Table.bottom_setWord (i w va' : Nat) : bottom
    (setWord page n i w) root va' = bottom page root va' :=
  descend_congr (ht.child_setWord hn i w) (by simp)

theorem Table.tables_setWord (i w : Nat) : tables (setWord page n i w) root = tables page root := by
  ext x
  exact node_congr (ht.child_setWord hn i w)

theorem Table.stored (i w : Nat) : Table b (setWord page n i w) root where
  unique := ht.unique.congr (ht.child_setWord hn i w)
  ram x hx := ht.ram x (ht.tables_setWord hn i w ▸ hx)
  link ks x k m hks hx hm := by
    rw [descend_congr (ht.child_setWord hn i w) hks.le] at hx
    have hsame := ht.child_setWord hn i w ks x hks hx
    rw [hsame] at hm
    have hne : x ≠ n := by
      rintro rfl
      have heq := ht.unique hks.le (by simp) hx hn
      simp [heq] at hks
    rw [word_congr (setWord_of_ne hne)]
    exact ht.link ks x k m hks hx hm
  upper k hk := by
    rw [ht.child_setWord hn i w [] root (by simp) rfl]
    exact ht.upper k hk

/-- **Storing an entry changes that entry and no other.** -/
theorem Table.entry_setWord (hva : va < maxva) {w : Nat} (hw : w < 2 ^ 64) :
    entry (setWord page n (px 0 va) w) root =
      update (entry page root) (va / pgsize) w := by
  funext v
  by_cases hv : v = va / pgsize
  · rw [hv, update_self, entry_of_bottom ((ht.bottom_setWord hn _ _ _).trans hn) hva,
      word_setWord_self (px_lt 0 va) hw]
  · rw [update_of_ne hv, entry, entry, ht.bottom_setWord hn]
    split
    · rename_i hlt
      cases hx : bottom page root (v * pgsize) with
      | none => rfl
      | some x =>
        refine word_setWord_of_ne ?_
        rintro ⟨rfl, h0⟩
        -- the same table and the same index are the same page
        have hpath := ht.unique (by simp) (by simp) hx hn
        have hva' := mul_pgsize_lt hlt
        simp only [List.cons.injEq, and_true] at hpath
        exact hv ((mul_pgsize_div v).symm.trans (eq_of_px hva' hva hpath.1 hpath.2 h0))
    · rfl

end Tree

/-! ## What the functions do to it -/

structure Grown (b : Boot) (s t : Ram) (root : Nat) : Prop where
  change : Change s.toHeap t.toHeap (tables s.page root) (tables t.page root)
  table : Table b t.page root
  entry : entry t.page root = entry s.page root

/-- The pages that `kalloc` hands out are pages of RAM. -/
def Boot.Free (b : Boot) (s : Ram) : Prop := ∀ x ∈ s.free, b.RamPage x

instance (b : Boot) (s : Ram) : Decidable (b.Free s) :=
  inferInstanceAs (Decidable (∀ x ∈ s.free, b.RamPage x))

section Walk

variable {b : Boot} {s t u : Ram} {root va n k : Nat} {ks : List Nat} {E : Stop → Ram → Prop}

theorem Grown.refl (ht : Table b s.page root) (ho : Owns s.toHeap (tables s.page root)) :
    Grown b s s root := ⟨.refl ho, ht, rfl⟩

theorem Grown.of_eq (ht : Table b s.page root) (ho : Owns s.toHeap (tables s.page root))
    (h : t.toHeap = s.toHeap) : Grown b s t root := by
  refine ⟨?_, ?_, ?_⟩
  · rw [h]
    exact .refl ho
  · rw [h]
    exact ht
  · rw [h]

theorem Grown.trans (h : Grown b s t root) (h' : Grown b t u root) : Grown b s u root :=
  ⟨h.change.trans h'.change, h'.table, h'.entry.trans h.entry⟩

theorem Boot.Free.change {A B : Set Nat} (hfree : b.Free s) (h : Change s.toHeap t.toHeap A B)
    (hA : ∀ x ∈ A, b.RamPage x) : b.Free t := fun x hx =>
  ((h.mem x).mp (.inl hx)).elim (hfree x) (hA x)

theorem Grown.free (h : Grown b s t root) (ht : Table b s.page root) (hfree : b.Free s) :
    b.Free t := hfree.change h.change ht.ram

/-- The pages after `walk` has put the new table `pg` below the table `n`. -/
def hang (page : Nat → Page) (n k pg : Nat) : Nat → Page :=
  setWord (update page pg fun _ => 0) n k (pa2pte pg ||| pteV)

theorem Table.grow {page : Nat → Page} {pg : Nat} (ht : Table b page root)
    (hn : descend (child page) root ks = some n) (hlen : ks.length < 2)
    (hnone : child page n k = none) (hk : k < 512) (hroot : ks = [] → k < 256)
    (hpg : b.RamPage pg) (hfresh : pg ∉ tables page root) :
    Table b (hang page n k pg) root ∧
      (∀ x, x ∈ tables (hang page n k pg) root ↔ x = pg ∨ x ∈ tables page root) ∧
      entry (hang page n k pg) root = entry page root ∧
      descend (child (hang page n k pg)) root (ks ++ [k]) = some pg := by
  set page' := hang page n k pg with hpage
  have hmem : n ∈ tables page root := mem_tables_of_descend hlen.le hn
  have hne : n ≠ pg := fun heq => hfresh (heq ▸ hmem)
  have hzero : page' pg = fun _ => 0 := by
    rw [hpage, hang, setWord_of_ne hne.symm, update_self]
  have hpte : pa2pte pg ||| pteV < 2 ^ 64 := pa2pte_or_lt hpg.lt (by decide)
  have hword : word page' n k = pa2pte pg ||| pteV := word_setWord_self hk hpte
  have hother : ∀ x j, x ≠ pg → ¬(x = n ∧ j = k) → word page' x j = word page x j := by
    intro x j hx hxj
    exact (word_setWord_of_ne hxj).trans (word_congr (update_of_ne hx ..) j)
  have hpa : pte2pa (pa2pte pg ||| pteV) = pg := by
    rw [pte2pa_or hpg.lt (by decide), pgrounddown_of_mod hpg.1]
  have hchild : child page' n k = some pg := by
    rw [child, hword, if_pos (valid_or _), hpa]
  have hchild' : ∀ x j, x ≠ pg → ¬(x = n ∧ j = k) → child page' x j = child page x j := by
    intro x j hx hxj
    rw [child, child, hother x j hx hxj]
  have hempty : ∀ j, child page' pg j = none := fun j => by
    rw [child_eq_none, word_const hzero]
    rfl
  have hend : descend (child page) root (ks ++ [k]) = none := (descend_snoc hn k).trans hnone
  have hdescend : ∀ ⦃ls : List Nat⦄, ls.length ≤ 2 → descend (child page') root ls =
      if ls = ks ++ [k] then some pg else descend (child page) root ls := fun ls hls =>
    descend_grow ht.unique hn hlen hnone hfresh hempty hchild hchild' hls
  have hks : (ks ++ [k]).length ≤ 2 := by simp; omega
  have hnodes : ∀ x, x ∈ tables page' root ↔ x = pg ∨ x ∈ tables page root :=
    node_grow hdescend hks hend
  refine ⟨⟨ht.unique.grow hdescend hfresh, ?_, ?_, ?_⟩, hnodes, ?_, ?_⟩
  · intro x hx
    rcases (hnodes x).mp hx with rfl | hx
    · exact hpg
    · exact ht.ram x hx
  · intro ls x j m hls hx hm
    rw [hdescend hls.le] at hx
    split at hx
    · cases hx
      exact absurd ((hempty j).symm.trans hm) (by simp)
    · have hxpg : x ≠ pg := fun heq => hfresh (heq ▸ mem_tables_of_descend hls.le hx)
      by_cases hhere : x = n ∧ j = k
      · obtain ⟨rfl, rfl⟩ := hhere
        rw [hword, Option.some_inj.mp (hchild.symm.trans hm)]
      · rw [hother x j hxpg hhere]
        exact ht.link ls x j m hls hx (hchild' x j hxpg hhere ▸ hm)
  · intro j hj
    have hrootpg : root ≠ pg := fun heq => hfresh (heq ▸ mem_tables_root)
    have hhere : ¬(root = n ∧ j = k) := by
      rintro ⟨rfl, rfl⟩
      have hlt := hroot (ht.unique hlen.le (by simp) hn rfl)
      omega
    rw [hchild' root j hrootpg hhere]
    exact ht.upper j hj
  · funext v
    by_cases hv : v < maxvpn
    · rw [← mul_pgsize_div v]
      have hva := mul_pgsize_lt hv
      have hbottom := @hdescend [px 2 (v * pgsize), px 1 (v * pgsize)] (by simp)
      by_cases hpath : [px 2 (v * pgsize), px 1 (v * pgsize)] = ks ++ [k]
      · rw [if_pos hpath] at hbottom
        rw [entry_of_bottom hbottom hva, word_const hzero, entry_of_bottom_none]
        rw [bottom, hpath, hend]
      · rw [if_neg hpath] at hbottom
        cases hx : bottom page root (v * pgsize) with
        | none => rw [entry_of_bottom_none hx, entry_of_bottom_none (hbottom.trans hx)]
        | some x =>
          rw [entry_of_bottom hx hva, entry_of_bottom (hbottom.trans hx) hva]
          have hxpg : x ≠ pg := fun heq => hfresh (heq ▸ mem_tables_of_bottom hx)
          refine hother x _ hxpg ?_
          rintro ⟨rfl, -⟩
          have heq := ht.unique (by simp) hlen.le hx hn
          simp [← heq] at hlen
    · rw [entry_of_le (Nat.le_of_not_lt hv), entry_of_le (Nat.le_of_not_lt hv)]
  · rw [hdescend hks, if_pos rfl]

structure Kept (b : Boot) (s t : Ram) (root : Nat) : Prop where
  table : Table b t.page root
  tables : tables t.page root = tables s.page root
  entry : entry t.page root = entry s.page root
  owns : Owns t.toHeap (Vm.tables t.page root)
  same : ∀ x ∈ Vm.tables s.page root, t.page x = s.page x

section

variable (ht : Table b s.page root) (ho : Owns s.toHeap (tables s.page root))
include ht ho

theorem Table.kept {A B : Set Nat} (h : Change s.toHeap t.toHeap A B)
    (hA : Disjoint A (tables s.page root)) : Kept b s t root := by
  have hsame : ∀ x ∈ tables s.page root, t.page x = s.page x := fun x hx => h.same_other ho hA hx
  have htables := tables_congr hsame
  refine ⟨ht.congr hsame, htables, entry_congr hsame, ?_, hsame⟩
  rw [htables]
  exact h.owns_other ho hA

theorem Table.hung {pg : Nat}
    (hfree : b.Free s) (hn : descend (child s.page) root ks = some n) (hlen : ks.length < 2)
    (hnone : child s.page n k = none) (hk : k < 512) (hroot : ks = [] → k < 256) (hpg : pg ∈ s.free)
    (hchange : Change s.toHeap t.toHeap ∅ {pg}) :
    Grown b s { t with page := hang t.page n k pg } root ∧
      descend (child (hang t.page n k pg)) root (ks ++ [k]) = some pg := by
  have hmem : n ∈ tables s.page root := mem_tables_of_descend hlen.le hn
  have hdisj : Disjoint (∅ : Set Nat) (tables s.page root) := Set.empty_disjoint _
  have hkept := ht.kept ho hchange hdisj
  have hfresh : pg ∉ tables t.page root := by
    rw [hkept.tables]
    exact fun hmem => ho.apart pg hmem hpg
  obtain ⟨htable, hnodes, hentry, hend⟩ := hkept.table.grow
    ((descend_congr_tables hkept.same hlen.le).trans hn) hlen
    ((congrFun (child_congr (hkept.same n hmem)) k).trans hnone) hk hroot (hfree pg hpg) hfresh
  refine ⟨⟨?_, htable, hentry.trans hkept.entry⟩, hend⟩
  -- first the page is taken, then it and the table above it are written
  have hown : Owns t.toHeap ({pg} ∪ tables s.page root) := by
    refine hchange.owns.union ?_
    rw [← hkept.tables]
    exact hkept.owns
  have hstep : Change t.toHeap ⟨hang t.page n k pg, t.free⟩ ({pg} ∪ tables s.page root)
      ({pg} ∪ tables s.page root) := by
    have hzero := change_page hown (.inl rfl : pg ∈ {pg} ∪ tables s.page root) fun _ => 0
    exact hzero.trans (change_page hzero.owns (.inr hmem) _)
  have htake := (hchange.widen ho hdisj).trans hstep
  have hunion : tables (hang t.page n k pg) root = {pg} ∪ tables s.page root := by
    ext x
    rw [hnodes, hkept.tables]
    rfl
  exact htake.cast (Set.empty_union _) hunion.symm

theorem wp_walkLevel_true {Q : Option Nat → Ram → Prop} (hfree : b.Free s)
    (hn : descend (child s.page) root ks = some n) (hlen : ks.length < 2) (hk : k < 512)
    (hroot : ks = [] → k < 256) (hnone : ∀ t, Grown b s t root → Q none t)
    (hsome : ∀ t m, Grown b s t root →
      descend (child t.page) root (ks ++ [k]) = some m → Q (some m) t) :
    wp (walkLevel n k true) Q E s := by
  rw [walkLevel, wp_bind, wp_load, wp_ite]
  split
  · rename_i hvalid
    refine hsome s _ (.refl ht ho) ?_
    rw [descend_snoc hn, child, if_pos hvalid]
  · rename_i hvalid
    rw [if_pos rfl, wp_bind]
    refine wp_kalloc ho.nodup (fun t hst => ?_) fun pg t hpg hchange => ?_
    · exact hnone t (.of_eq ht ho hst)
    · have hchild : child s.page n k = none := child_eq_none.mpr (not_not.mp hvalid)
      obtain ⟨hgrown, hend⟩ := ht.hung ho hfree hn hlen hchild hk hroot hpg hchange
      exact hsome _ pg hgrown hend

/-- **A walk that may make tables leaves every entry as it was.** -/
theorem wp_walk_true {Q : Option (Nat × Nat) → Ram → Prop} (hfree : b.Free s) (hva : va < maxva)
    (hnone : ∀ t, Grown b s t root → Q none t)
    (hsome : ∀ t m, Grown b s t root → bottom t.page root va = some m → Q (some (m, px 0 va)) t) :
    wp (walk root va true) Q E s := by
  rw [walk, if_neg (Nat.not_le_of_lt hva)]
  simp only [wp_bind]
  have hroot : descend (child s.page) root [] = some root := rfl
  refine wp_walkLevel_true ht ho hfree hroot (by simp) (px_lt 2 va)
    (fun _ => px_two_lt hva) hnone fun t m hgrown hm => ?_
  simp only [wp_bind]
  refine wp_walkLevel_true hgrown.table hgrown.change.owns (hgrown.free ht hfree) hm (by simp)
    (px_lt 1 va) (fun h => absurd h (by simp)) (fun u hu => hnone u (hgrown.trans hu)) fun u m' hu hm' => ?_
  exact hsome u m' (hgrown.trans hu) hm'

end

theorem wp_walk_false {Q : Option (Nat × Nat) → Ram → Prop} (hva : va < maxva) :
    wp (walk root va false) Q E s ↔ Q ((bottom s.page root va).map fun n => (n, px 0 va)) s := by
  have hlevel : ∀ {Q : Option Nat → Ram → Prop} {n k : Nat},
      wp (walkLevel n k false) Q E s ↔ Q (child s.page n k) s := by
    intro Q n k
    rw [walkLevel, child, wp_bind, wp_load, wp_ite]
    split
    · rfl
    · rfl
  rw [walk, if_neg (Nat.not_le_of_lt hva)]
  simp only [wp_bind, hlevel]
  rw [bottom, descend]
  cases h2 : child s.page root (px 2 va) with
  | none => rfl
  | some n =>
    simp only [wp_bind, hlevel]
    rw [descend]
    cases child s.page n (px 1 va) <;> rfl

def uaddr (page : Nat → Page) (root va : Nat) : Option Nat :=
  let pte := entry page root (va / pgsize)
  if pte &&& pteV = 0 ∨ pte &&& pteU = 0 ∨ pte2pa pte = 0 then none else some (pte2pa pte)

theorem wp_walkaddr {Q : Option Nat → Ram → Prop} :
    wp (walkaddr root va) Q E s ↔ Q (uaddr s.page root va) s := by
  rw [walkaddr, wp_ite, uaddr]
  split
  · rename_i hva
    have hle : maxvpn ≤ va / pgsize := Nat.div_le_div_right hva
    rw [entry_of_le hle]
    rfl
  · rename_i hva
    have hlt := Nat.lt_of_not_le hva
    rw [wp_bind, wp_walk_false hlt]
    cases hn : bottom s.page root va with
    | none =>
      rw [entry_of_bottom_none hn]
      rfl
    | some n =>
      rw [entry_of_bottom hn hlt]
      simp only [Option.map_some, wp_bind, wp_load, wp_ite, wp_pure]
      by_cases hV : word s.page n (px 0 va) &&& pteV = 0
      · simp only [hV, if_true, true_or]
      · by_cases hU : word s.page n (px 0 va) &&& pteU = 0
        · simp only [hU, if_true, true_or, or_true, ite_self]
        · simp only [hV, hU, if_false, false_or]
          split <;> rfl

theorem Table.write {w : Nat} (ht : Table b s.page root) (ho : Owns s.toHeap (tables s.page root))
    (hn : bottom s.page root va = some n) (hva : va < maxva) (hw : w < 2 ^ 64) :
    let t : Ram := { s with page := setWord s.page n (px 0 va) w }
    Change s.toHeap t.toHeap (tables s.page root) (tables t.page root) ∧ Table b t.page root ∧
      Vm.entry t.page root = update (Vm.entry s.page root) (va / pgsize) w := by
  refine ⟨?_, ht.stored hn _ _, ht.entry_setWord hn hva hw⟩
  exact (change_page ho (mem_tables_of_bottom hn) _).cast rfl (ht.tables_setWord hn _ _).symm

end Walk

end Vm

end Xv6
