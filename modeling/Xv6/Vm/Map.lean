import Xv6.Vm.Table

/-!
# Page tables as finite maps

What `mappages` and `uvmunmap` do to the entries of a page table: `insertRange e v n pa perm` is `e` with `n`
pages from the virtual page `v` on mapped to consecutive physical pages, and `eraseRange e v n` is `e` with `n`
entries cleared.
-/

namespace Xv6

open Function (update update_of_ne update_self)

namespace Vm

open Heap Prog Trie

/-- The entry that `mappages` stores. -/
def mkpte (pa perm : Nat) : Nat := pa2pte pa ||| perm ||| pteV

def insertRange (e : Nat → Nat) (v n pa perm : Nat) : Nat → Nat := fun x =>
  if v ≤ x ∧ x < v + n then mkpte (pa + (x - v) * pgsize) perm else e x

def eraseRange (e : Nat → Nat) (v n : Nat) : Nat → Nat := fun x => if v ≤ x ∧ x < v + n then 0 else e x

/-- The physical pages that the valid ones of `n` entries from `v` on refer to. -/
def pages (e : Nat → Nat) (v n : Nat) : Set Nat :=
  { x | ∃ i, v ≤ i ∧ i < v + n ∧ e i &&& pteV ≠ 0 ∧ pte2pa (e i) = x }

def IsLeaf (pte : Nat) : Prop := pte &&& pteV ≠ 0 ∧ pteFlags pte ≠ pteV

instance (pte : Nat) : Decidable (IsLeaf pte) := inferInstanceAs (Decidable (_ ∧ _))

section Ranges

variable {e : Nat → Nat} {v n pa perm : Nat}

theorem perm_or_lt (h : perm < 1024) : perm ||| pteV < 1024 :=
  Nat.or_lt_two_pow (n := 10) h (by decide)

theorem mkpte_eq (pa perm : Nat) : mkpte pa perm = pa2pte pa ||| (perm ||| pteV) := Nat.lor_assoc ..

theorem mkpte_lt (hpa : pa < 2 ^ 56) (hperm : perm < 1024) : mkpte pa perm < 2 ^ 64 := by
  rw [mkpte_eq]
  exact pa2pte_or_lt hpa (perm_or_lt hperm)

theorem pte2pa_mkpte (hpa : pa < 2 ^ 56) (hperm : perm < 1024) :
    pte2pa (mkpte pa perm) = pgrounddown pa := by
  rw [mkpte_eq, pte2pa_or hpa (perm_or_lt hperm)]

theorem pteFlags_mkpte (hperm : perm < 1024) : pteFlags (mkpte pa perm) = perm ||| pteV := by
  rw [mkpte_eq, pteFlags_or (perm_or_lt hperm)]

theorem mkpte_valid (pa perm : Nat) : mkpte pa perm &&& pteV ≠ 0 := valid_or _

theorem insertRange_zero (e : Nat → Nat) (v pa perm : Nat) : insertRange e v 0 pa perm = e := by
  funext x
  rw [insertRange, if_neg (by omega)]

theorem insertRange_update (e : Nat → Nat) (v n pa perm : Nat) :
    insertRange (update e v (mkpte pa perm)) (v + 1) n (pa + pgsize) perm =
      insertRange e v (n + 1) pa perm := by
  funext x
  rw [insertRange, insertRange]
  by_cases hx : v + 1 ≤ x ∧ x < v + 1 + n
  · rw [if_pos hx, if_pos (by omega)]
    congr 1
    have hsub : x - v = x - (v + 1) + 1 := by omega
    rw [hsub, Nat.add_mul]
    simp only [pgsize]
    omega
  · rw [if_neg hx]
    by_cases hv : x = v
    · subst hv
      rw [update_self, if_pos (by omega), Nat.sub_self, Nat.zero_mul, Nat.add_zero]
    · rw [update_of_ne hv, if_neg (by omega)]

theorem eraseRange_zero (e : Nat → Nat) (v : Nat) : eraseRange e v 0 = e := by
  funext x
  rw [eraseRange, if_neg (by omega)]

theorem eraseRange_update (e : Nat → Nat) (v n : Nat) :
    eraseRange (update e v 0) (v + 1) n = eraseRange e v (n + 1) := by
  funext x
  rw [eraseRange, eraseRange]
  by_cases hv : x = v
  · subst hv
    rw [if_neg (by omega), update_self, if_pos (by omega)]
  · rw [update_of_ne hv]
    by_cases hx : v + 1 ≤ x ∧ x < v + 1 + n
    · rw [if_pos hx, if_pos (by omega)]
    · rw [if_neg hx, if_neg (by omega)]

theorem pages_zero (e : Nat → Nat) (v : Nat) : pages e v 0 = ∅ := by
  ext x
  simp only [pages, Set.mem_ofPred_eq, Set.mem_empty_iff_false, iff_false]
  rintro ⟨i, hi, hi', -⟩
  omega

theorem pages_congr {e' : Nat → Nat} (h : ∀ i, v ≤ i → i < v + n → e' i = e i) :
    pages e' v n = pages e v n := by
  ext x
  constructor
  · rintro ⟨i, hi, hi', hv, rfl⟩
    rw [h i hi hi'] at hv
    exact ⟨i, hi, hi', hv, by rw [h i hi hi']⟩
  · rintro ⟨i, hi, hi', hv, rfl⟩
    rw [← h i hi hi'] at hv
    exact ⟨i, hi, hi', hv, by rw [h i hi hi']⟩

theorem pages_succ (hv : e v &&& pteV ≠ 0) :
    pages e v (n + 1) = {pte2pa (e v)} ∪ pages e (v + 1) n := by
  ext x
  constructor
  · rintro ⟨i, hi, hi', hvalid, rfl⟩
    rcases Nat.eq_or_lt_of_le hi with rfl | hlt
    · exact .inl rfl
    · exact .inr ⟨i, hlt, by omega, hvalid, rfl⟩
  · rintro (rfl | ⟨i, hi, hi', hvalid, rfl⟩)
    · exact ⟨v, le_rfl, by omega, hv, rfl⟩
    · exact ⟨i, by omega, by omega, hvalid, rfl⟩

end Ranges

section Specs

variable {b : Boot} {s : Ram} {root v n pa perm : Nat} {E : Stop → Ram → Prop}

/-- What a function that only changes tables and entries does. -/
structure Edited (b : Boot) (s t : Ram) (root : Nat) (e : Nat → Nat) : Prop where
  change : Change s.toHeap t.toHeap (tables s.page root) (tables t.page root)
  table : Table b t.page root
  entry : entry t.page root = e

theorem Grown.edited {t : Ram} (h : Grown b s t root) : Edited b s t root (Vm.entry s.page root) :=
  ⟨h.change, h.table, h.entry⟩

theorem Edited.trans {t u : Ram} {e e' : Nat → Nat} (h : Edited b s t root e)
    (h' : Edited b t u root e') : Edited b s u root e' :=
  ⟨h.change.trans h'.change, h'.table, h'.entry⟩

theorem Edited.free {t : Ram} {e : Nat → Nat} (h : Edited b s t root e) (ht : Table b s.page root)
    (hfree : b.Free s) : b.Free t := hfree.change h.change ht.ram

section

variable (ht : Table b s.page root) (ho : Owns s.toHeap (tables s.page root)) (hfree : b.Free s)
include ht ho hfree

theorem wp_mappage {Q : Bool → Ram → Prop} (hperm : perm < 1024) (hpa : pa < 2 ^ 56)
    (hE : (v < maxvpn ∧ entry s.page root v &&& pteV = 0) ∨ ∀ p t, E p t)
    (hfail : ∀ t, Edited b s t root (entry s.page root) → Q false t) (hok : ∀ t, v < maxvpn →
      Edited b s t root (update (entry s.page root) v (mkpte pa perm)) → Q true t) :
    wp (mappage root perm (v * pgsize) pa) Q E s := by
  by_cases hv : v < maxvpn
  · have hva := mul_pgsize_lt hv
    rw [mappage, wp_bind]
    refine wp_walk_true ht ho hfree hva (fun t ht' => hfail t ht'.edited) fun t m hgrown hm => ?_
    have hentry := entry_of_bottom hm hva
    rw [mul_pgsize_div, hgrown.entry] at hentry
    simp only [wp_bind, wp_load, wp_ite, wp_throw, wp_store, wp_pure]
    rw [← hentry]
    split
    · rename_i hvalid
      exact hE.elim (fun h => absurd h.2 hvalid) fun h => h _ _
    · obtain ⟨hchange, htable, hupdate⟩ := hgrown.table.write hgrown.change.owns hm hva
        (mkpte_lt hpa hperm)
      refine hok _ hv ⟨hgrown.change.trans hchange, htable, hupdate.trans ?_⟩
      rw [mul_pgsize_div, hgrown.entry]
  · have hva : maxva ≤ v * pgsize := by
      have hmax : maxva = 2 ^ 38 := rfl
      simp only [maxvpn, pgsize, hmax] at *
      omega
    rw [mappage, walk, if_pos hva]
    exact (hE.resolve_left fun h => hv h.1) _ _

/-- **`mappages` maps its pages in order**, and stops early only when there is no memory for a
table. -/
theorem wp_mappagesFrom {Q : Int → Ram → Prop} (hperm : perm < 1024)
    (hpa : pa + (n + 1) * pgsize ≤ 2 ^ 56)
    (hE : (∀ i, v ≤ i → i < v + (n + 1) → i < maxvpn ∧ entry s.page root i &&& pteV = 0) ∨
      ∀ p t, E p t)
    (hfail : ∀ t j, j ≤ n → Edited b s t root (insertRange (entry s.page root) v j pa perm) →
      Q (-1) t)
    (hok : ∀ t, Edited b s t root (insertRange (entry s.page root) v (n + 1) pa perm) → Q 0 t) :
    wp (mappagesFrom root perm n (v * pgsize) pa) Q E s := by
  have hpage : pa < 2 ^ 56 := by
    simp only [pgsize] at hpa
    omega
  induction n generalizing s v pa with
  | zero =>
    rw [mappagesFrom, wp_bind]
    refine wp_mappage ht ho hfree hperm hpage (hE.imp_left fun h => h v le_rfl (by omega))
      (fun t h => hfail t 0 le_rfl ?_) fun t _ h => hok t ?_
    · rw [insertRange_zero]
      exact h
    · rw [← insertRange_update, insertRange_zero]
      exact h
  | succ n ih =>
    rw [mappagesFrom, wp_bind]
    refine wp_mappage ht ho hfree hperm hpage (hE.imp_left fun h => h v le_rfl (by omega))
      (fun t h => hfail t 0 (by omega) ?_) fun t hv h => ?_
    · rw [insertRange_zero]
      exact h
    · have hnext : u64 (v * pgsize + pgsize) = (v + 1) * pgsize := by
        have hmax : maxvpn = 2 ^ 26 := rfl
        simp only [hmax, pgsize, u64] at *
        omega
      have hpa' : u64 (pa + pgsize) = pa + pgsize := by
        simp only [pgsize, u64] at *
        omega
      have hrest : ∀ i, v + 1 ≤ i → entry t.page root i = entry s.page root i := by
        intro i hi
        rw [h.entry, update_of_ne (by omega)]
      have hinsert : ∀ j, insertRange (entry t.page root) (v + 1) j (pa + pgsize) perm =
          insertRange (entry s.page root) v (j + 1) pa perm := by
        intro j
        rw [h.entry, insertRange_update]
      rw [if_pos rfl, hnext, hpa']
      refine ih h.table h.change.owns (h.free ht hfree) ?_ ?_ (fun u j hj hu => ?_)
        (fun u hu => ?_) ?_
      · simp only [pgsize] at *
        omega
      · refine hE.imp_left fun hall i hi hi' => ?_
        rw [hrest i hi]
        exact hall i (by omega) (by omega)
      · refine hfail u (j + 1) (by omega) (h.trans ?_)
        rw [← hinsert]
        exact hu
      · refine hok u (h.trans ?_)
        rw [← hinsert]
        exact hu
      · simp only [pgsize] at *
        omega

end

/-- The pages that `uvmunmap` gives back. -/
def freed (doFree : Bool) (e : Nat → Nat) (v n : Nat) : Set Nat := if doFree then pages e v n else ∅

/-- What `uvmunmap` does: it clears entries, and gives back the pages in `A`. -/
structure Unmapped (b : Boot) (s t : Ram) (root : Nat) (A : Set Nat) (e : Nat → Nat) : Prop where
  change : Change s.toHeap t.toHeap (tables s.page root ∪ A) (tables t.page root)
  table : Table b t.page root
  entry : entry t.page root = e

/-- The pages that are given back belong to the page table alone: each is mapped once, is not one of
the tables, and nobody else can be handed it. -/
structure Private (b : Boot) (s : Ram) (root v n : Nat) : Prop where
  ram : ∀ x ∈ pages (entry s.page root) v n, b.RamPage x
  apart : Disjoint (tables s.page root) (pages (entry s.page root) v n)
  owns : Owns s.toHeap (pages (entry s.page root) v n)
  once : ∀ i j, v ≤ i → i < v + n → v ≤ j → j < v + n → entry s.page root i &&& pteV ≠ 0 →
    entry s.page root j &&& pteV ≠ 0 → pte2pa (entry s.page root i) = pte2pa (entry s.page root j) →
    i = j

theorem pages_mono {e : Nat → Nat} {v' n' : Nat} (hv : v ≤ v') (hn : v' + n' ≤ v + n) :
    pages e v' n' ⊆ pages e v n := by
  rintro x ⟨i, hi, hi', hvalid, hx⟩
  exact ⟨i, by omega, by omega, hvalid, hx⟩

theorem Private.mono {v' n' : Nat} (h : Private b s root v n) (hv : v ≤ v') (hn : v' + n' ≤ v + n) :
    Private b s root v' n' where
  ram x hx := h.ram x (pages_mono hv hn hx)
  apart := h.apart.mono_right (pages_mono hv hn)
  owns := h.owns.mono (pages_mono hv hn)
  once i j hi hi' hj hj' := h.once i j (by omega) (by omega) (by omega) (by omega)

theorem Private.after {t : Ram} {A : Set Nat} {e : Nat → Nat} (h : Private b s root v n)
    (hA : Disjoint (tables s.page root ∪ A) (pages (entry s.page root) v n))
    (ht : Unmapped b s t root A e) (he : ∀ i, v ≤ i → i < v + n → e i = entry s.page root i) :
    Private b t root v n := by
  have hentry : ∀ i, v ≤ i → i < v + n → entry t.page root i = entry s.page root i := by
    intro i hi hi'
    rw [ht.entry, he i hi hi']
  have hpages := pages_congr hentry
  refine ⟨?_, ?_, ?_, fun i j hi hi' hj hj' => ?_⟩
  · rw [hpages]
    exact h.ram
  · rw [hpages]
    exact ht.change.disjoint_other h.owns hA
  · rw [hpages]
    exact ht.change.owns_other h.owns hA
  · rw [hentry i hi hi', hentry j hj hj']
    exact h.once i j hi hi' hj hj'

theorem wp_unmapPage {Q : Unit → Ram → Prop} {doFree : Bool} (ht : Table b s.page root)
    (ho : Owns s.toHeap (tables s.page root)) (hfree : doFree = true → Private b s root v 1)
    (hE : (v < maxvpn ∧ IsLeaf (entry s.page root v)) ∨ ∀ p t, E p t)
    (hok : ∀ t, v < maxvpn → IsLeaf (entry s.page root v) → Unmapped b s t root
      (freed doFree (entry s.page root) v 1) (update (entry s.page root) v 0) → Q () t) :
    wp (unmapPage b root doFree (v * pgsize)) Q E s := by
  by_cases hv : v < maxvpn
  · have hva := mul_pgsize_lt hv
    rw [unmapPage, wp_bind, wp_walk_false hva]
    cases hm : bottom s.page root (v * pgsize) with
    | none =>
      have hzero := entry_of_bottom_none hm
      rw [mul_pgsize_div] at hzero
      refine (hE.resolve_left fun h => ?_) _ _
      rw [hzero] at h
      exact absurd h.2 (by decide)
    | some m =>
      have hentry := entry_of_bottom hm hva
      rw [mul_pgsize_div] at hentry
      simp only [Option.map_some, wp_bind, wp_load, wp_ite, wp_throw]
      rw [← hentry]
      split
      · rename_i hvalid
        exact (hE.resolve_left fun h => h.2.1 hvalid) _ _
      · rename_i hvalid
        split
        · rename_i hflags
          exact (hE.resolve_left fun h => h.2.2 hflags) _ _
        · rename_i hflags
          cases doFree with
          | false =>
            obtain ⟨hchange, htable, hupdate⟩ := ht.write ho hm hva (w := 0) (by decide)
            refine hok _ hv ⟨hvalid, hflags⟩ ⟨hchange.cast ?_ rfl, htable, hupdate.trans ?_⟩
            · rw [freed, if_neg (by simp), Set.union_empty]
            · rw [mul_pgsize_div]
          | true =>
            have hpriv := hfree rfl
            have hone : pages (entry s.page root) v 1 = {pte2pa (entry s.page root v)} := by
              rw [pages_succ hvalid, pages_zero, Set.union_empty]
            have hdisj := hpriv.apart
            have hpage := hpriv.ram
            have hown := hpriv.owns
            rw [hone] at hdisj hpage hown
            simp only [if_true]
            refine wp_kfree (hpage _ rfl) hown fun t hchange => ?_
            have hkept := ht.kept ho hchange hdisj.symm
            obtain ⟨hchange', htable, hupdate⟩ := hkept.table.write hkept.owns (n := m)
              ((descend_congr_tables hkept.same (by simp)).trans hm) hva (w := 0) (by decide)
            refine hok _ hv ⟨hvalid, hflags⟩ ⟨?_, htable, hupdate.trans ?_⟩
            · have hwide := hchange.widen ho hdisj.symm
              rw [Set.empty_union, Set.union_comm, ← hkept.tables] at hwide
              refine (hwide.trans hchange').cast ?_ rfl
              rw [freed, if_pos rfl, hone, hkept.tables]
            · rw [mul_pgsize_div, hkept.entry]
  · have hva : maxva ≤ v * pgsize := by
      have hmax : maxva = 2 ^ 38 := rfl
      simp only [maxvpn, pgsize, hmax] at *
      omega
    rw [unmapPage, walk, if_pos hva]
    exact (hE.resolve_left fun h => hv h.1) _ _

/-- **`uvmunmap` clears its entries**, and gives the pages back if it is told to. -/
theorem wp_uvmunmapFrom {Q : Unit → Ram → Prop} {doFree : Bool} (ht : Table b s.page root)
    (ho : Owns s.toHeap (tables s.page root)) (hfree : doFree = true → Private b s root v n)
    (hE : (∀ i, v ≤ i → i < v + n → i < maxvpn ∧ IsLeaf (entry s.page root i)) ∨ ∀ p t, E p t)
    (hok : ∀ t, Unmapped b s t root (freed doFree (entry s.page root) v n)
      (eraseRange (entry s.page root) v n) → Q () t) :
    wp (uvmunmapFrom b root doFree n (v * pgsize)) Q E s := by
  induction n generalizing s v with
  | zero =>
    refine hok s ⟨(Change.refl ho).cast ?_ rfl, ht, ?_⟩
    · rw [freed, pages_zero, ite_self, Set.union_empty]
    · rw [eraseRange_zero]
  | succ n ih =>
    rw [uvmunmapFrom, wp_bind]
    refine wp_unmapPage ht ho (fun hd => (hfree hd).mono le_rfl (by omega))
      (hE.imp_left fun h => h v le_rfl (by omega)) fun t hv hleaf hun => ?_
    have hnext : u64 (v * pgsize + pgsize) = (v + 1) * pgsize := by
      have hmax : maxvpn = 2 ^ 26 := rfl
      simp only [hmax, pgsize, u64] at *
      omega
    have hrest : ∀ i, v + 1 ≤ i → i < v + 1 + n → entry t.page root i = entry s.page root i := by
      intro i hi _
      rw [hun.entry, update_of_ne (by omega)]
    have hone : pages (entry s.page root) v 1 = {pte2pa (entry s.page root v)} := by
      rw [pages_succ hleaf.1, pages_zero, Set.union_empty]
    -- the page that has been given back is none of the others
    have hdisj : doFree = true → Disjoint
        (tables s.page root ∪ freed doFree (entry s.page root) v 1)
        (pages (entry s.page root) (v + 1) n) := by
      intro hd
      have hpriv := hfree hd
      refine Set.disjoint_union_left.mpr ⟨hpriv.apart.mono_right (pages_mono (by omega) (by omega)),
        ?_⟩
      rw [freed, if_pos hd, hone, Set.disjoint_singleton_left]
      rintro ⟨i, hi, hi', hvalid, heq⟩
      have := hpriv.once i v (by omega) (by omega) le_rfl (by omega) hvalid hleaf.1 heq
      omega
    rw [hnext]
    refine ih hun.table hun.change.owns (fun hd => ?_) ?_ fun u hu => hok u ⟨?_, hu.table, ?_⟩
    · refine ((hfree hd).mono (by omega) (by omega)).after (hdisj hd) hun fun i hi hi' => ?_
      rw [update_of_ne (by omega)]
    · refine hE.imp_left fun h i hi hi' => ?_
      rw [hrest i hi hi']
      exact h i (by omega) (by omega)
    · cases hd : doFree with
      | false =>
        refine (hun.change.cast ?_ rfl).trans (hu.change.cast ?_ rfl)
        · rw [hd, freed, freed]
          rfl
        · rw [hd, freed, if_neg (by simp), Set.union_empty]
      | true =>
        have hrest' : Private b s root (v + 1) n := (hfree hd).mono (by omega) (by omega)
        have howns := hrest'.owns
        refine ((hun.change.widen howns (hdisj hd)).cast ?_ rfl).trans (hu.change.cast ?_ rfl)
        · rw [hd, freed, freed, if_pos rfl, if_pos rfl, hone, pages_succ hleaf.1, Set.union_assoc]
        · rw [hd, freed, if_pos rfl, pages_congr hrest]
    · rw [hu.entry, hun.entry, eraseRange_update]

theorem wp_uvmcreate {Q : Option Nat → Ram → Prop} (hs : s.free.Nodup) (hfree : b.Free s)
    (hnone : ∀ t : Ram, t.toHeap = s.toHeap → Q none t)
    (hsome : ∀ (t : Ram) (r : Nat), Change s.toHeap t.toHeap ∅ (tables t.page r) →
      Table b t.page r → entry t.page r = (fun _ => 0) → Q (some r) t) : wp uvmcreate Q E s := by
  rw [uvmcreate, wp_bind]
  refine wp_kalloc hs hnone fun r t hr hchange => ?_
  simp only [wp_bind, wp_memset, wp_pure]
  set page' : Nat → Page := update t.page r fun _ => 0 with hpage
  have hzero : page' r = fun _ => 0 := update_self ..
  have hchild : ∀ k, child page' r k = none := fun k => by
    rw [child_eq_none, word_const hzero]
    rfl
  have hdescend : ∀ ks n, descend (child page') r ks = some n → ks = [] := by
    intro ks n h
    cases ks with
    | nil => rfl
    | cons k ks => exact absurd ((descend_cons_of_none (hchild k)).symm.trans h) (by simp)
  have htables : tables page' r = {r} := by
    ext n
    constructor
    · rintro ⟨ks, -, hn⟩
      have hks := hdescend ks n hn
      subst hks
      exact (Option.some_inj.mp hn).symm
    · rintro rfl
      exact mem_tables_root
  refine hsome _ r ?_ ⟨?_, ?_, ?_, fun k _ => hchild k⟩ ?_
  · exact (hchange.trans (change_page hchange.owns rfl _)).cast rfl htables.symm
  · intro ks ls n _ _ hn hn'
    rw [hdescend ks n hn, hdescend ls n hn']
  · intro n hn
    change n ∈ tables page' r at hn
    rw [htables, Set.mem_singleton_iff] at hn
    rw [hn]
    exact hfree r hr
  · intro ks n k m _ hn hm
    have hks := hdescend ks n hn
    subst hks
    cases hn
    exact absurd ((hchild k).symm.trans hm) (by simp)
  · funext v
    rw [← mul_pgsize_div v]
    exact entry_of_bottom_none (descend_cons_of_none (hchild _))

theorem wp_uvmclear {Q : Unit → Ram → Prop} {va : Nat} (ht : Table b s.page root)
    (ho : Owns s.toHeap (tables s.page root))
    (hE : (va < maxva ∧ entry s.page root (va / pgsize) ≠ 0) ∨ ∀ p t, E p t)
    (hok : ∀ t, va < maxva → Edited b s t root (update (entry s.page root) (va / pgsize)
      (entry s.page root (va / pgsize) &&& (2 ^ 64 - 1 - pteU))) → Q () t) :
    wp (uvmclear root va) Q E s := by
  by_cases hva : va < maxva
  · rw [uvmclear, wp_bind, wp_walk_false hva]
    cases hm : bottom s.page root va with
    | none => exact (hE.resolve_left fun h => h.2 (entry_of_bottom_none hm)) _ _
    | some m =>
      have hlt : word s.page m (px 0 va) &&& (2 ^ 64 - 1 - pteU) < 2 ^ 64 :=
        Nat.and_lt_two_pow (word s.page m (px 0 va)) (n := 64) (by decide)
      obtain ⟨hchange, htable, hupdate⟩ := ht.write ho hm hva hlt
      simp only [Option.map_some, wp_bind, wp_load, wp_store]
      refine hok _ hva ⟨hchange, htable, hupdate.trans ?_⟩
      rw [entry_of_bottom hm hva]
  · rw [uvmclear, walk, if_pos (Nat.le_of_not_lt hva)]
    exact (hE.resolve_left fun h => hva h.1) _ _

end Specs

end Vm

end Xv6
