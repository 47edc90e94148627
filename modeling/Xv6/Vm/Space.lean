import Xv6.Vm.Uvm
import Mathlib.Data.Finset.Card
import Mathlib.Data.Finset.Range

/-!
# The shape of an address space

`Space b s root top n` says that the page table at `root` maps exactly the first `n` pages, each to a
page of RAM of its own, and has above them the entries `top` (for a process, those of `TRAPFRAME` and
`TRAMPOLINE`).  There are never more pages than RAM has, so growing an address space cannot reach
`TRAPFRAME`.  `own s root n` are the pages that belong to the address space: its tables and its user
pages.
-/

namespace Xv6

namespace Vm

open Heap Prog Trie

/-- The number of pages that `sz` bytes take. -/
def pgs (sz : Nat) : Nat := (sz + 4095) / 4096

abbrev tfVpn : Nat := trapframe / pgsize

def own (s : Ram) (root n : Nat) : Set Nat := tables s.page root ∪ pages (entry s.page root) 0 n

/-- An address space with `n` user pages. -/
structure Space (b : Boot) (s : Ram) (root : Nat) (top : Nat → Nat) (n : Nat) : Prop where
  table : Table b s.page root
  owns : Owns s.toHeap (tables s.page root)
  priv : Private b s root 0 n
  user : ∀ v < n, IsLeaf (entry s.page root v)
  rest : ∀ v, n ≤ v → entry s.page root v = top v
  low : ∀ v < tfVpn, top v = 0

/-- The first `n` pages are mapped as before, and hold what they held. -/
structure Keeps (s t : Ram) (root n : Nat) : Prop where
  entry : ∀ v < n, entry t.page root v = entry s.page root v
  page : ∀ v < n, t.page (pte2pa (Vm.entry s.page root v)) = s.page (pte2pa (Vm.entry s.page root v))

section Sizes

variable {sz n : Nat}

theorem pgroundup_eq (h : sz ≤ 2 ^ 64 - pgsize) : pgroundup sz = pgs sz * pgsize := pgroundup_of_le h

theorem pgs_mul (n : Nat) : pgs (n * pgsize) = n := by
  simp only [pgs, pgsize]
  omega

theorem le_pgs_mul (sz : Nat) : sz ≤ pgs sz * pgsize := by
  simp only [pgs, pgsize]
  omega

theorem pgs_le_iff : pgs sz ≤ n ↔ sz ≤ n * pgsize := by
  simp only [pgs, pgsize]
  omega

theorem pgs_mono {sz' : Nat} (h : sz ≤ sz') : pgs sz ≤ pgs sz' := by
  simp only [pgs]
  omega

theorem u64OfInt_int32 {k : Nat} (h : k < 2 ^ 31) : u64OfInt (int32 k) = k := by
  have hint : int32 k = k := Int.bmod_eq_of_le (by omega) (by omega)
  rw [hint, u64OfInt]
  omega

end Sizes

section Spaces

variable {b : Boot} {s t u : Ram} {root n m k mem perm : Nat} {top : Nat → Nat}
  {E : Stop → Ram → Prop}

theorem Keeps.refl (s : Ram) (root n : Nat) : Keeps s s root n := ⟨fun _ _ => rfl, fun _ _ => rfl⟩

theorem Keeps.trans (h : Keeps s t root n) (h' : Keeps t u root n) : Keeps s u root n where
  entry v hv := (h'.entry v hv).trans (h.entry v hv)
  page v hv := by
    have hpage := h'.page v hv
    rw [h.entry v hv] at hpage
    exact hpage.trans (h.page v hv)

theorem Keeps.mono (h : Keeps s t root n) (hm : m ≤ n) : Keeps s t root m :=
  ⟨fun v hv => h.entry v (by omega), fun v hv => h.page v (by omega)⟩

theorem mem_pages {e : Nat → Nat} {v : Nat} (hv : v < n) (hvalid : e v &&& pteV ≠ 0) :
    pte2pa (e v) ∈ pages e 0 n := ⟨v, by omega, by omega, hvalid, rfl⟩

theorem pages_snoc {e : Nat → Nat} (h : e n &&& pteV ≠ 0) :
    pages e 0 (n + 1) = pages e 0 n ∪ {pte2pa (e n)} := by
  ext x
  constructor
  · rintro ⟨i, hi, hi', hvalid, rfl⟩
    rcases Nat.eq_or_lt_of_le (show i ≤ n by omega) with rfl | hlt
    · exact .inr rfl
    · exact .inl (mem_pages hlt hvalid)
  · rintro (⟨i, hi, hi', hvalid, rfl⟩ | rfl)
    · exact mem_pages (by omega) hvalid
    · exact mem_pages (by omega) h

namespace Space

variable (h : Space b s root top n)
include h

theorem owns_own : Owns s.toHeap (own s root n) :=
  h.owns.union h.priv.owns

theorem ram_own : ∀ x ∈ own s root n, b.RamPage x := fun x hx =>
  hx.elim (h.table.ram x) (h.priv.ram x)

theorem pa_mem {v : Nat} (hv : v < n) :
    pte2pa (entry s.page root v) ∈ own s root n := .inr (mem_pages hv (h.user v hv).1)

/-- **There are no more user pages than pages of RAM.** -/
theorem le_ram : n ≤ 2 ^ 15 := by
  have hram : ∀ v < n, b.RamPage (pte2pa (entry s.page root v)) := fun v hv =>
    h.ram_own _ (h.pa_mem hv)
  have hlow := b.tramp_le
  have hlow' := b.tramp_ge
  have hcard := Finset.card_le_card_of_injOn (s := Finset.range n) (t := Finset.range (2 ^ 15))
    (fun v => (pte2pa (entry s.page root v) - kernbase) / pgsize) ?_ ?_
  · simpa using hcard
  · intro v hv
    obtain ⟨-, hge, hlt⟩ := hram v (by simpa using hv)
    simp only [phystop, pgsize, kernbase, Finset.coe_range, Set.mem_Iio] at *
    omega
  · intro v hv w hw heq
    simp only [Finset.coe_range, Set.mem_Iio] at hv hw
    obtain ⟨hmod, hge, hlt⟩ := hram v hv
    obtain ⟨hmod', hge', hlt'⟩ := hram w hw
    refine h.priv.once v w (by omega) (by omega) (by omega) (by omega) (h.user v hv).1
      (h.user w hw).1 ?_
    simp only [phystop, pgsize, kernbase] at *
    omega

theorem lt_tfVpn : n < tfVpn := h.le_ram.trans_lt (by decide)

theorem other {A B : Set Nat} (hchange : Change s.toHeap t.toHeap A B)
    (hA : Disjoint A (own s root n)) :
    Space b t root top n ∧ own t root n = own s root n ∧ Keeps s t root n := by
  have hkept := h.table.kept h.owns hchange (hA.mono_right Set.subset_union_left)
  have hpages : pages (entry t.page root) 0 n = pages (entry s.page root) 0 n := by rw [hkept.entry]
  have hdisj : Disjoint A (pages (entry s.page root) 0 n) := hA.mono_right Set.subset_union_right
  refine ⟨⟨hkept.table, hkept.owns, ⟨?_, ?_, ?_, ?_⟩, ?_, ?_, h.low⟩, ?_, ⟨fun v _ => ?_, fun v hv => ?_⟩⟩
  · rw [hpages]
    exact h.priv.ram
  · rw [hpages, hkept.tables]
    exact h.priv.apart
  · rw [hpages]
    exact hchange.owns_other h.priv.owns hdisj
  · rw [hkept.entry]
    exact h.priv.once
  · rw [hkept.entry]
    exact h.user
  · rw [hkept.entry]
    exact h.rest
  · rw [own, own, hpages, hkept.tables]
  · rw [hkept.entry]
  · exact hchange.same_other h.owns_own hA (h.pa_mem hv)

theorem edited {e top' : Nat → Nat} (hed : Edited b s t root e) (hleaf : ∀ v < n, IsLeaf (e v))
    (hpa : ∀ v < n, pte2pa (e v) = pte2pa (entry s.page root v)) (hrest : ∀ v, n ≤ v → e v = top' v)
    (hlow : ∀ v < tfVpn, top' v = 0) :
    Space b t root top' n ∧ Change s.toHeap t.toHeap (own s root n) (own t root n) ∧
      ∀ v < n, t.page (pte2pa (e v)) = s.page (pte2pa (entry s.page root v)) := by
  have hpages : pages (entry t.page root) 0 n = pages (entry s.page root) 0 n := by
    rw [hed.entry]
    ext x
    constructor
    · rintro ⟨v, -, hv, -, rfl⟩
      rw [hpa v (by omega)]
      exact mem_pages (by omega) (h.user v (by omega)).1
    · rintro ⟨v, -, hv, -, rfl⟩
      rw [← hpa v (by omega)]
      exact mem_pages (by omega) (hleaf v (by omega)).1
  refine ⟨⟨hed.table, hed.change.owns, ⟨?_, ?_, ?_, ?_⟩, ?_, ?_, hlow⟩, ?_, fun v hv => ?_⟩
  · rw [hpages]
    exact h.priv.ram
  · rw [hpages]
    exact hed.change.disjoint_other h.priv.owns h.priv.apart
  · rw [hpages]
    exact hed.change.owns_other h.priv.owns h.priv.apart
  · intro i j hi hi' hj hj' _ _ heq
    rw [hed.entry, hpa i (by omega), hpa j (by omega)] at heq
    exact h.priv.once i j hi hi' hj hj' (h.user i (by omega)).1 (h.user j (by omega)).1 heq
  · rw [hed.entry]
    exact hleaf
  · rw [hed.entry]
    exact hrest
  · rw [own, own, hpages]
    exact hed.change.widen h.priv.owns h.priv.apart
  · rw [hpa v hv]
    exact hed.change.same_other h.priv.owns h.priv.apart (mem_pages hv (h.user v hv).1)

theorem grown (hed : Edited b s t root (entry s.page root)) :
    Space b t root top n ∧ Change s.toHeap t.toHeap (own s root n) (own t root n) ∧
      Keeps s t root n := by
  obtain ⟨hspace, hchange, hpage⟩ := h.edited hed h.user (fun _ _ => rfl) h.rest h.low
  exact ⟨hspace, hchange, fun v _ => by rw [hed.entry], hpage⟩

theorem mapped (hmem : b.RamPage mem) (hown : Owns s.toHeap {mem})
    (hnew : mem ∉ own s root n) (hperm : perm < 1024) (hleaf : perm ||| pteV ≠ pteV)
    (hed : Edited b s t root (Function.update (entry s.page root) n (mkpte mem perm))) :
    Space b t root top (n + 1) ∧
      Change s.toHeap t.toHeap (own s root n ∪ {mem}) (own t root (n + 1)) ∧ Keeps s t root n ∧
      t.page mem = s.page mem ∧ entry t.page root n = mkpte mem perm := by
  have hne : ∀ v < n, entry t.page root v = entry s.page root v := fun v hv => by
    rw [hed.entry, Function.update_of_ne (by omega)]
  have hn : entry t.page root n = mkpte mem perm := by rw [hed.entry, Function.update_self]
  have hpa : pte2pa (mkpte mem perm) = mem := by
    rw [pte2pa_mkpte hmem.lt hperm, pgrounddown_of_mod hmem.1]
  have hvalid : entry t.page root n &&& pteV ≠ 0 := by
    rw [hn]
    exact mkpte_valid mem perm
  have hpages : pages (entry t.page root) 0 (n + 1) = pages (entry s.page root) 0 n ∪ {mem} := by
    rw [pages_snoc hvalid, hn, hpa, pages_congr fun v _ hv => hne v (by omega)]
  have hC : Owns s.toHeap (pages (entry s.page root) 0 n ∪ {mem}) := h.priv.owns.union hown
  have hdisj : Disjoint (tables s.page root) (pages (entry s.page root) 0 n ∪ {mem}) :=
    Set.disjoint_union_right.mpr ⟨h.priv.apart, Set.disjoint_singleton_right.mpr fun hm =>
      hnew (.inl hm)⟩
  have huser : ∀ v < n + 1, IsLeaf (entry t.page root v) := by
    intro v hv
    rcases Nat.eq_or_lt_of_le (show v ≤ n by omega) with rfl | hlt
    · refine ⟨hvalid, ?_⟩
      rw [hn, pteFlags_mkpte hperm]
      exact hleaf
    · rw [hne v hlt]
      exact h.user v hlt
  have hother : ∀ v < n, pte2pa (entry t.page root v) ≠ mem := by
    intro v hv heq
    rw [hne v hv] at heq
    exact hnew (heq ▸ h.pa_mem hv)
  refine ⟨⟨hed.table, hed.change.owns, ⟨?_, ?_, ?_, ?_⟩, huser, ?_, h.low⟩, ?_, ⟨hne, fun v hv => ?_⟩,
    ?_, hn⟩
  · rw [hpages]
    rintro x (hx | rfl)
    · exact h.priv.ram x hx
    · exact hmem
  · rw [hpages]
    exact hed.change.disjoint_other hC hdisj
  · rw [hpages]
    exact hed.change.owns_other hC hdisj
  · -- only the last page is new
    intro i j _ hi _ hj _ _ heq
    rcases Nat.eq_or_lt_of_le (show i ≤ n by omega) with rfl | hi'
    · rcases Nat.eq_or_lt_of_le (show j ≤ i by omega) with rfl | hj'
      · rfl
      · rw [hn, hpa] at heq
        exact absurd heq.symm (hother j hj')
    · rcases Nat.eq_or_lt_of_le (show j ≤ n by omega) with rfl | hj'
      · rw [hn, hpa] at heq
        exact absurd heq (hother i hi')
      · rw [hne i hi', hne j hj'] at heq
        exact h.priv.once i j (by omega) (by omega) (by omega) (by omega) (h.user i hi').1
          (h.user j hj').1 heq
  · intro v hv
    rw [hed.entry, Function.update_of_ne (by omega)]
    exact h.rest v (by omega)
  · rw [own, own, hpages, Set.union_assoc]
    exact hed.change.widen hC hdisj
  · exact hed.change.same_other h.priv.owns h.priv.apart (mem_pages hv (h.user v hv).1)
  · exact hed.change.same_other hown (Set.disjoint_singleton_right.mpr fun hm => hnew (.inl hm)) rfl

end Space

/-! ## Mapping and unmapping pages -/

theorem wp_mappages_one {Q : Int → Ram → Prop} {v pa : Nat} (ht : Table b s.page root)
    (ho : Owns s.toHeap (tables s.page root)) (hfree : b.Free s) (hperm : perm < 1024)
    (hpa : pa + pgsize ≤ 2 ^ 56) (hv : v < maxvpn) (hnone : entry s.page root v &&& pteV = 0)
    (hfail : ∀ t, Edited b s t root (entry s.page root) → Q (-1) t)
    (hok : ∀ t, Edited b s t root (Function.update (entry s.page root) v (mkpte pa perm)) → Q 0 t) :
    wp (mappages root (v * pgsize) pgsize pa perm) Q E s := by
  have hcount : u64 (pgrounddown (u64 (v * pgsize + pgsize - 1)) + 2 ^ 64 -
      pgrounddown (v * pgsize)) / pgsize = 0 := by
    have hmax : maxvpn = 2 ^ 26 := rfl
    simp only [pgrounddown, u64, pgsize, hmax] at *
    omega
  have hround : pgrounddown (v * pgsize) = v * pgsize :=
    pgrounddown_of_mod (Nat.mul_mod_left v pgsize)
  rw [mappages, if_neg (by decide)]
  show wp (mappagesFrom root perm _ _ pa) Q E s
  rw [hcount, hround]
  refine wp_mappagesFrom ht ho hfree hperm (by simpa using hpa) (.inl fun i hi hi' => ?_)
    (fun t j hj ht' => hfail t ?_) fun t ht' => hok t ?_
  · have heq : i = v := by omega
    rw [heq]
    exact ⟨hv, hnone⟩
  · rw [Nat.le_zero.mp hj, insertRange_zero] at ht'
    exact ht'
  · rw [← insertRange_update, insertRange_zero] at ht'
    exact ht'

namespace Space

theorem entry_eq_zero (h : Space b s root top n) {v : Nat} (hv : n ≤ v) (hv' : v < tfVpn) :
    entry s.page root v = 0 := (h.rest v hv).trans (h.low v hv')

theorem zero_invalid : 0 &&& pteV = 0 := by decide

theorem wp_map {Q : Int → Ram → Prop} (h : Space b s root top n) (hfree : b.Free s)
    (hmem : b.RamPage mem) (hown : Owns s.toHeap {mem}) (hnew : mem ∉ own s root n)
    (hperm : perm < 1024) (hleaf : perm ||| pteV ≠ pteV)
    (hfail : ∀ t, Space b t root top n →
      Change s.toHeap t.toHeap (own s root n) (own t root n) → Keeps s t root n → Q (-1) t)
    (hok : ∀ t, Space b t root top (n + 1) →
      Change s.toHeap t.toHeap (own s root n ∪ {mem}) (own t root (n + 1)) → Keeps s t root n →
      t.page mem = s.page mem → entry t.page root n = mkpte mem perm → Q 0 t) :
    wp (mappages root (n * pgsize) pgsize mem perm) Q E s := by
  have hn := h.lt_tfVpn
  have hmax : n < maxvpn := hn.trans (by decide)
  have hle : mem + pgsize ≤ 2 ^ 56 := by
    have hlt := hmem.2.2
    simp only [phystop, kernbase, pgsize] at *
    omega
  refine wp_mappages_one h.table h.owns hfree hperm hle hmax ?_ (fun t ht => ?_) fun t ht => ?_
  · rw [h.entry_eq_zero le_rfl hn]
    exact zero_invalid
  · obtain ⟨hspace, hchange, hkeeps⟩ := h.grown ht
    exact hfail t hspace hchange hkeeps
  · obtain ⟨hspace, hchange, hkeeps, hpage, hentry⟩ := h.mapped hmem hown hnew hperm hleaf ht
    exact hok t hspace hchange hkeeps hpage hentry

theorem unmapped (h : Space b s root top n) (hm : m ≤ n)
    (hun : Unmapped b s t root (pages (entry s.page root) m (n - m))
      (eraseRange (entry s.page root) m (n - m))) :
    Space b t root top m ∧ Change s.toHeap t.toHeap (own s root n) (own t root m) ∧
      Keeps s t root m := by
  have hne : ∀ v < m, entry t.page root v = entry s.page root v := fun v hv => by
    rw [hun.entry, eraseRange, if_neg (by omega)]
  have hpages : pages (entry t.page root) 0 m = pages (entry s.page root) 0 m :=
    pages_congr fun v _ hv => hne v (by omega)
  have hsub : pages (entry s.page root) 0 m ⊆ pages (entry s.page root) 0 n :=
    pages_mono le_rfl (by omega)
  have hC := h.priv.owns.mono hsub
  have hdisj : Disjoint (tables s.page root ∪ pages (entry s.page root) m (n - m))
      (pages (entry s.page root) 0 m) := by
    refine Set.disjoint_union_left.mpr ⟨h.priv.apart.mono_right hsub, Set.disjoint_left.mpr ?_⟩
    rintro x ⟨i, hi, hi', hvalid, rfl⟩ ⟨j, hj, hj', hvalid', heq⟩
    have := h.priv.once j i (by omega) (by omega) (by omega) (by omega) hvalid' hvalid heq
    omega
  have hsplit : pages (entry s.page root) m (n - m) ∪ pages (entry s.page root) 0 m =
      pages (entry s.page root) 0 n := by
    ext x
    constructor
    · rintro (hx | hx)
      · exact pages_mono (by omega) (by omega) hx
      · exact hsub hx
    · rintro ⟨i, hi, hi', hvalid, hx⟩
      by_cases him : m ≤ i
      · exact .inl ⟨i, him, by omega, hvalid, hx⟩
      · exact .inr ⟨i, hi, by omega, hvalid, hx⟩
  refine ⟨⟨hun.table, hun.change.owns, ⟨?_, ?_, ?_, ?_⟩, ?_, fun v hv => ?_, h.low⟩, ?_,
    ⟨hne, fun v hv => ?_⟩⟩
  · rw [hpages]
    exact fun x hx => h.priv.ram x (hsub hx)
  · rw [hpages]
    exact hun.change.disjoint_other hC hdisj
  · rw [hpages]
    exact hun.change.owns_other hC hdisj
  · intro i j hi hi' hj hj'
    rw [hne i (by omega), hne j (by omega)]
    exact h.priv.once i j (by omega) (by omega) (by omega) (by omega)
  · intro v hv
    rw [hne v hv]
    exact h.user v (by omega)
  · rw [hun.entry, eraseRange]
    split
    · exact (h.low v (by have := h.lt_tfVpn; omega)).symm
    · exact h.rest v (by omega)
  · refine (hun.change.widen hC hdisj).cast ?_ ?_
    · rw [own, Set.union_assoc, hsplit]
    · rw [own, hpages]
  · exact hun.change.same_other hC hdisj (mem_pages hv (h.user v (by omega)).1)

theorem wp_unmap {Q : Unit → Ram → Prop} (h : Space b s root top n) (hm : m ≤ n)
    (hok : ∀ t, Space b t root top m →
      Change s.toHeap t.toHeap (own s root n) (own t root m) → Keeps s t root m → Q () t) :
    wp (uvmunmap b root (m * pgsize) (n - m) true) Q E s := by
  have hn := h.lt_tfVpn
  have hmul : m * pgsize % pgsize = 0 := Nat.mul_mod_left m pgsize
  have hsum : m * pgsize + (n - m) * pgsize = n * pgsize := by rw [← Nat.add_mul, Nat.add_sub_cancel' hm]
  have hlt : n * pgsize < 2 ^ 64 := by
    have htf : tfVpn < 2 ^ 26 := by decide
    simp only [pgsize]
    omega
  have hcount : (u64 (m * pgsize + (n - m) * pgsize) - m * pgsize) / pgsize = n - m := by
    rw [hsum, u64_of_lt hlt, ← hsum, Nat.add_sub_cancel_left, mul_pgsize_div]
  rw [uvmunmap, if_neg (not_not.mpr hmul)]
  show wp (uvmunmapFrom b root true _ _) Q E s
  rw [hcount]
  refine wp_uvmunmapFrom h.table h.owns (fun _ => h.priv.mono (by omega) (by omega))
    (.inl fun i _ hi => ⟨?_, h.user i (by omega)⟩) fun t ht => ?_
  · exact (show i < n by omega).trans (hn.trans (by decide))
  · rw [freed, if_pos rfl] at ht
    obtain ⟨hspace, hchange, hkeeps⟩ := h.unmapped hm ht
    exact hok t hspace hchange hkeeps

theorem wp_uvmdealloc {Q : Nat → Ram → Prop} {oldsz newsz : Nat} (h : Space b s root top n)
    (hold : pgs oldsz = n) (hle : newsz < oldsz)
    (hok : ∀ t, Space b t root top (pgs newsz) →
      Change s.toHeap t.toHeap (own s root n) (own t root (pgs newsz)) →
      Keeps s t root (pgs newsz) → Q newsz t) :
    wp (uvmdealloc b root oldsz newsz) Q E s := by
  have hn := h.le_ram
  have hsz : oldsz ≤ 2 ^ 64 - pgsize := by
    have := le_pgs_mul oldsz
    simp only [pgsize] at *
    omega
  have hm : pgs newsz ≤ n := hold ▸ pgs_mono hle.le
  rw [uvmdealloc, if_neg (by omega), pgroundup_eq hsz, pgroundup_eq (hle.le.trans hsz), hold]
  by_cases hlt : pgs newsz * pgsize < n * pgsize
  · have hnp : u64OfInt (int32 ((n * pgsize - pgs newsz * pgsize) / pgsize : Nat)) =
        n - pgs newsz := by
      rw [← Nat.sub_mul, mul_pgsize_div, u64OfInt_int32 (by omega)]
    rw [if_pos hlt]
    simp only [hnp, wp_bind]
    exact h.wp_unmap hm hok
  · rw [if_neg hlt]
    have heq : pgs newsz = n := by
      simp only [pgsize] at hlt
      omega
    refine hok s (heq ▸ h) ?_ (.refl s root _)
    rw [heq]
    exact .refl h.owns_own

theorem wp_uvmdealloc_of_le {Q : Nat → Ram → Prop} {oldsz newsz : Nat} (h : oldsz ≤ newsz) :
    wp (uvmdealloc b root oldsz newsz) Q E s ↔ Q oldsz s := by
  rw [uvmdealloc, if_pos h, wp_pure]

theorem wp_shrink {Q : Nat → Ram → Prop} (h : Space b s root top n) (hm : m ≤ n)
    (hok : ∀ r t, Space b t root top m →
      Change s.toHeap t.toHeap (own s root n) (own t root m) → Keeps s t root m → Q r t) :
    wp (uvmdealloc b root (n * pgsize) (m * pgsize)) Q E s := by
  rcases Nat.eq_or_lt_of_le hm with rfl | hlt
  · rw [wp_uvmdealloc_of_le le_rfl]
    exact hok _ s h (.refl h.owns_own) (.refl s root m)
  · refine h.wp_uvmdealloc (pgs_mul n) (Nat.mul_lt_mul_of_pos_right hlt (by decide))
      fun t ht hchange hkeeps => ?_
    rw [pgs_mul] at ht hchange hkeeps
    exact hok _ t ht hchange hkeeps

theorem beside (h : Space b s root top n) (hchange : Change s.toHeap t.toHeap ∅ {mem})
    (hmem : mem ∈ s.free) :
    Space b t root top n ∧ mem ∉ own t root n ∧
      Change s.toHeap t.toHeap (own s root n) (own t root n ∪ {mem}) ∧ Keeps s t root n := by
  obtain ⟨hspace, hown, hkeeps⟩ := h.other hchange (Set.empty_disjoint _)
  refine ⟨hspace, ?_, ?_, hkeeps⟩
  · rw [hown]
    exact fun hx => h.owns_own.apart mem hx hmem
  · rw [hown]
    exact hchange.taken h.owns_own

end Space

end Spaces

end Vm

end Xv6
