import Xv6.Vm.Grow

/-!
# Taking an address space down

`freewalk` gives back every table of a page table without user pages, once each, and `uvmfree` and
`proc_freepagetable` the user pages before them.
-/

namespace Xv6

open Function (update update_of_ne update_self update_eq_self update_idem)

namespace Vm

open Heap Prog Trie

/-- The tables below and including `n`, down to depth `d`. -/
def nodesAt (page : Nat → Page) (n d : Nat) : Set Nat := { x | Node (child page) n d x }

/-- A part of a page table, `d` levels above the lowest, that maps no page. -/
structure Bare (b : Boot) (page : Nat → Page) (n d : Nat) : Prop where
  unique : Unique (child page) n d
  ram : ∀ x ∈ nodesAt page n d, b.RamPage x
  link : ∀ ks x k m, ks.length < d → descend (child page) n ks = some x → child page x k = some m →
    word page x k = pa2pte m ||| pteV
  none : ∀ ks x k, ks.length = d → descend (child page) n ks = some x → child page x k = none

section Freewalk

variable {b : Boot} {s t : Ram} {page page' : Nat → Page} {n m d k : Nat} {E : Stop → Ram → Prop}

theorem nodesAt_congr (h : ∀ x ∈ nodesAt page n d, page' x = page x) :
    nodesAt page' n d = nodesAt page n d := by
  ext x
  exact node_congr fun ls x hls hx => child_congr (h x ⟨ls, hls.le, hx⟩)

theorem Bare.congr (hb : Bare b page n d) (h : ∀ x ∈ nodesAt page n d, page' x = page x) :
    Bare b page' n d := by
  have hdesc : ∀ {ks : List Nat}, ks.length ≤ d →
      descend (child page') n ks = descend (child page) n ks := fun hks =>
    descend_congr (fun ls x hls hx => child_congr (h x ⟨ls, hls.le, hx⟩)) hks
  refine ⟨hb.unique.congr fun ls x hls hx => child_congr (h x ⟨ls, hls.le, hx⟩), ?_, ?_, ?_⟩
  · rw [nodesAt_congr h]
    exact hb.ram
  · intro ks x k m hks hx hm
    rw [hdesc hks.le] at hx
    have hsame := h x ⟨ks, hks.le, hx⟩
    rw [child_congr hsame] at hm
    rw [word_congr hsame]
    exact hb.link ks x k m hks hx hm
  · intro ks x k hks hx
    rw [hdesc hks.le] at hx
    rw [child_congr (h x ⟨ks, hks.le, hx⟩)]
    exact hb.none ks x k hks hx

theorem Bare.below (hb : Bare b page n (d + 1)) (hm : child page n k = some m) :
    Bare b page m d where
  unique := hb.unique.below hm
  ram x hx := hb.ram x (node_succ.mpr (.inr ⟨k, m, hm, hx⟩))
  link ks x j l hks hx hl :=
    hb.link (k :: ks) x j l (by simpa using hks) ((descend_cons_of_some hm).trans hx) hl
  none ks x j hks hx :=
    hb.none (k :: ks) x j (by simpa using hks) ((descend_cons_of_some hm).trans hx)

/-- The tables that are left when the entries below `i` have been dealt with. -/
def leftOver (page : Nat → Page) (n d i : Nat) : Set Nat :=
  {n} ∪ { x | ∃ k m, i ≤ k ∧ child page n k = some m ∧ Node (child page) m d x }

theorem leftOver_zero : leftOver page n d 0 = nodesAt page n (d + 1) := by
  ext x
  refine Iff.trans ?_ node_succ.symm
  constructor
  · rintro (rfl | ⟨k, m, -, hm, hx⟩)
    · exact .inl rfl
    · exact .inr ⟨k, m, hm, hx⟩
  · rintro (rfl | ⟨k, m, hm, hx⟩)
    · exact .inl rfl
    · exact .inr ⟨k, m, Nat.zero_le k, hm, hx⟩

theorem child_of_le (hk : 512 ≤ k) : child page n k = none := by
  rw [child_eq_none, word_of_le hk]
  decide

theorem ptes_eq : ptes = 512 := by
  unfold ptes
  rfl

theorem leftOver_end : leftOver page n d ptes = {n} := by
  ext x
  constructor
  · rintro (hx | ⟨k, m, hk, hm, -⟩)
    · exact hx
    · rw [ptes_eq] at hk
      exact absurd ((child_of_le hk).symm.trans hm) (by simp)
  · exact .inl

theorem leftOver_skip {i : Nat} (h : child page n i = none) :
    leftOver page n d i = leftOver page n d (i + 1) := by
  ext x
  constructor
  · rintro (hx | ⟨k, m, hk, hm, hx⟩)
    · exact .inl hx
    · have hne : k ≠ i := by
        rintro rfl
        exact absurd (h.symm.trans hm) (by simp)
      exact .inr ⟨k, m, by omega, hm, hx⟩
  · rintro (hx | ⟨k, m, hk, hm, hx⟩)
    · exact .inl hx
    · exact .inr ⟨k, m, by omega, hm, hx⟩

theorem leftOver_split {i : Nat} (h : child page n i = some m) :
    leftOver page n d i = nodesAt page m d ∪ leftOver page n d (i + 1) := by
  ext x
  constructor
  · rintro (hx | ⟨k, l, hk, hl, hx⟩)
    · exact .inr (.inl hx)
    · rcases Nat.eq_or_lt_of_le hk with rfl | hlt
      · rw [h, Option.some_inj] at hl
        exact .inl (hl ▸ hx)
      · exact .inr (.inr ⟨k, l, hlt, hl, hx⟩)
  · rintro (hx | hx | ⟨k, l, hk, hl, hx⟩)
    · exact .inr ⟨i, m, le_rfl, h, hx⟩
    · exact .inl hx
    · exact .inr ⟨k, l, by omega, hl, hx⟩

theorem Bare.disjoint {i : Nat} (hb : Bare b page n (d + 1)) (h : child page n i = some m) :
    Disjoint (nodesAt page m d) (leftOver page n d (i + 1)) := by
  refine Set.disjoint_left.mpr fun x hx => ?_
  rintro (rfl | ⟨k, l, hk, hl, hx'⟩)
  · exact hb.unique.root_not_node h hx
  · have := hb.unique.key_eq h hl hx hx'
    omega

/-- What holds in the loop of `freewalk` before the round `i`. -/
structure Walking (s t : Ram) (n d i : Nat) : Prop where
  change : Change s.toHeap t.toHeap (nodesAt s.page n (d + 1)) (leftOver s.page n d i)
  word : ∀ k, i ≤ k → Vm.word t.page n k = Vm.word s.page n k
  same : ∀ x ∈ leftOver s.page n d i, x ≠ n → t.page x = s.page x

theorem Walking.init (ho : Owns s.toHeap (nodesAt s.page n (d + 1))) : Walking s s n d 0 where
  change := (Change.refl ho).cast rfl leftOver_zero.symm
  word _ _ := rfl
  same _ _ _ := rfl

theorem Walking.round {i : Nat} (hb : Bare b s.page n (d + 1)) (ht : Walking s t n d i)
    (ih : ∀ {m : Nat} {Q : Unit → Ram → Prop}, Bare b t.page m d →
      Owns t.toHeap (nodesAt t.page m d) →
      (∀ u, Change t.toHeap u.toHeap (nodesAt t.page m d) ∅ → Q () u) →
      wp (freewalk b (d + 1) m) Q E t) :
    wp (freewalkRound (freewalk b (d + 1)) n i) (fun _ u => Walking s u n d (i + 1)) E t := by
  rw [freewalkRound, wp_bind, wp_load, ht.word i le_rfl, wp_ite]
  cases hm : child s.page n i with
  | none =>
    have hinvalid := child_eq_none.mp hm
    rw [if_neg (fun h => h.1 hinvalid), if_neg (not_not.mpr hinvalid)]
    have hskip := leftOver_skip (d := d) hm
    exact ⟨ht.change.cast rfl hskip, fun k hk => ht.word k (by omega), hskip ▸ ht.same⟩
  | some m =>
    have hword := hb.link [] n i m (by simp) rfl hm
    have hmem : m ∈ nodesAt s.page n (d + 1) := node_succ.mpr (.inr ⟨i, m, hm, node_root⟩)
    have hram := hb.ram m hmem
    have hptr : Vm.word s.page n i &&& pteV ≠ 0 ∧
        Vm.word s.page n i &&& (pteR ||| pteW ||| pteX) = 0 := by
      rw [hword]
      refine ⟨valid_or _, ?_⟩
      rw [Nat.and_or_distrib_right, pa2pte_and (by decide)]
      decide
    have hpa : pte2pa (Vm.word s.page n i) = m := by
      rw [hword, pte2pa_or hram.lt (by decide), pgrounddown_of_mod hram.1]
    rw [if_pos hptr, hpa, wp_bind]
    have hdisj := hb.disjoint hm
    have hsplit := leftOver_split (d := d) hm
    -- below the entry nothing has been touched
    have hsame : ∀ x ∈ nodesAt s.page m d, t.page x = s.page x := by
      intro x hx
      refine ht.same x (hsplit ▸ .inl hx) ?_
      rintro rfl
      exact hb.unique.root_not_node hm hx
    have hnodes := nodesAt_congr hsame
    have hown : Owns t.toHeap (nodesAt s.page m d ∪ leftOver s.page n d (i + 1)) :=
      hsplit ▸ ht.change.owns
    refine ih ((hb.below hm).congr hsame) ?_ fun u hu => ?_
    · rw [hnodes]
      exact hown.mono Set.subset_union_left
    · rw [hnodes] at hu
      have hrest := hown.mono Set.subset_union_right
      have hwide := hu.widen hrest hdisj
      rw [Set.empty_union] at hwide
      have hstore := change_page hwide.owns (.inl rfl : n ∈ leftOver s.page n d (i + 1))
        ((u.page n).write (8 * i) 8 0)
      have hkeep : ∀ x ∈ leftOver s.page n d (i + 1), u.page x = t.page x := fun x hx =>
        hu.same_other hrest hdisj hx
      refine ⟨?_, fun k hk => ?_, fun x hx hne => ?_⟩
      · exact ((ht.change.cast rfl hsplit).trans hwide).trans hstore
      · have hne : ¬(n = n ∧ k = i) := fun h => by omega
        exact ((word_setWord_of_ne hne).trans (word_congr (hkeep n (.inl rfl)) k)).trans
          (ht.word k (by omega))
      · refine (setWord_of_ne hne).trans ((hkeep x hx).trans (ht.same x ?_ hne))
        rw [hsplit]
        exact .inr hx

theorem wp_freewalk {Q : Unit → Ram → Prop} (hb : Bare b s.page n d)
    (ho : Owns s.toHeap (nodesAt s.page n d))
    (hok : ∀ t, Change s.toHeap t.toHeap (nodesAt s.page n d) ∅ → Q () t) :
    wp (freewalk b (d + 1) n) Q E s := by
  induction d generalizing s n Q with
  | zero =>
    have hnodes : nodesAt s.page n 0 = {n} := by
      ext x
      exact node_zero
    have hloop : wp (times (freewalkRound (freewalk b 0) n) ptes) (fun _ t => t = s) E s := by
      refine wp_times (n := ptes) (fun _ t => t = s) rfl fun i t _ ht => ?_
      subst ht
      have hinvalid := child_eq_none.mp (hb.none [] n i rfl rfl)
      rw [freewalkRound, wp_bind, wp_load, if_neg (fun h => h.1 hinvalid),
        if_neg (not_not.mpr hinvalid), wp_pure]
    rw [freewalk, wp_bind]
    refine hloop.mono_ok fun _ t ht => ?_
    subst ht
    rw [hnodes] at ho hok
    exact wp_kfree (hb.ram n node_root) ho hok
  | succ d ih =>
    have hloop : wp (times (freewalkRound (freewalk b (d + 1)) n) ptes)
        (fun _ t => Walking s t n d ptes) E s :=
      wp_times (n := ptes) (fun i t => Walking s t n d i) (.init ho) fun i t _ ht =>
        ht.round hb fun hb' ho' hok' => ih hb' ho' hok'
    rw [freewalk, wp_bind]
    refine hloop.mono_ok fun _ t ht => ?_
    have hchange := ht.change
    rw [leftOver_end] at hchange
    exact wp_kfree (hb.ram n node_root) hchange.owns fun u hu => hok u (hchange.trans hu)

end Freewalk

section Free

variable {b : Boot} {s : Ram} {root n : Nat} {top : Nat → Nat} {E : Stop → Ram → Prop}

theorem Table.bare (ht : Table b s.page root) (hzero : ∀ v, entry s.page root v &&& pteV = 0) :
    Bare b s.page root 2 where
  unique := ht.unique
  ram := ht.ram
  link := ht.link
  none ks x k hks hx := by
    obtain ⟨i, j, rfl⟩ := List.length_eq_two.mp hks
    have hi : i < 256 := by
      by_contra hle
      rw [descend_cons_of_none (ht.upper i (by omega))] at hx
      exact absurd hx (by simp)
    have hj : j < 512 := by
      by_contra hle
      rw [descend] at hx
      split at hx
      · exact absurd hx (by simp)
      · rw [descend_cons_of_none (child_of_le (by omega))] at hx
        exact absurd hx (by simp)
    by_cases hk : k < 512
    · -- the entry is that of the page with these three indices
      set va := ((i * 512 + j) * 512 + k) * pgsize with hva
      have h2 : px 2 va = i := by
        rw [px_eq]
        simp only [hva, pgsize]
        omega
      have h1 : px 1 va = j := by
        rw [px_eq]
        simp only [hva, pgsize]
        omega
      have h0 : px 0 va = k := by
        rw [px_eq]
        simp only [hva, pgsize]
        omega
      have hlt : va < maxva := by
        have hmax : maxva = 2 ^ 38 := rfl
        simp only [hva, pgsize, hmax]
        omega
      have hbottom : bottom s.page root va = some x := by rw [bottom, h2, h1, hx]
      have hentry := hzero (va / pgsize)
      rw [entry_of_bottom hbottom hlt, h0] at hentry
      exact child_eq_none.mpr hentry
    · exact child_of_le (by omega)

namespace Space

theorem wp_uvmfree {Q : Unit → Ram → Prop} {sz : Nat} (h : Space b s root (fun _ => 0) (pgs sz))
    (hok : ∀ t, Change s.toHeap t.toHeap (own s root (pgs sz)) ∅ → Q () t) :
    wp (uvmfree b root sz) Q E s := by
  have hwalk : ∀ {u : Ram}, Space b u root (fun _ => 0) 0 →
      Change s.toHeap u.toHeap (own s root (pgs sz)) (own u root 0) →
      wp (freewalk b 3 root) Q E u := by
    intro u hu hchange
    have hzero : ∀ v, entry u.page root v &&& pteV = 0 := by
      intro v
      rw [hu.rest v (Nat.zero_le v)]
      exact zero_invalid
    have hown : own u root 0 = nodesAt u.page root 2 := by
      rw [own, pages_zero, Set.union_empty]
      rfl
    rw [hown] at hchange
    exact wp_freewalk (hu.table.bare hzero) hchange.owns fun t ht => hok t (hchange.trans ht)
  rw [uvmfree]
  split
  · have hsz : sz ≤ 2 ^ 64 - pgsize := by
      have hn := h.le_ram
      have hle := le_pgs_mul sz
      simp only [pgsize] at *
      omega
    rw [wp_bind, pgroundup_eq hsz, mul_pgsize_div]
    have hstart : 0 = 0 * pgsize := by simp
    rw [hstart]
    exact h.wp_unmap (Nat.zero_le _) fun u hu hchange _ => hwalk hu hchange
  · rename_i hsz
    have hn : pgs sz = 0 := by
      rw [show sz = 0 by omega]
      rfl
    rw [hn] at h
    refine hwalk h ?_
    rw [hn]
    exact .refl h.owns_own

theorem top_edited {t : Ram} {v w : Nat} (h : Space b s root top n) (hv : tfVpn ≤ v)
    (hed : Edited b s t root (update (entry s.page root) v w)) :
    Space b t root (update top v w) n ∧
      Change s.toHeap t.toHeap (own s root n) (own t root n) ∧ Keeps s t root n := by
  have hn := h.lt_tfVpn
  have hne : ∀ i < n, update (entry s.page root) v w i = entry s.page root i := fun i hi =>
    update_of_ne (by omega) ..
  have hrest : ∀ i, n ≤ i →
      update (entry s.page root) v w i = update top v w i := by
    intro i hi
    by_cases hiv : i = v
    · rw [hiv, update_self, update_self]
    · rw [update_of_ne hiv, update_of_ne hiv]
      exact h.rest i hi
  have hlow : ∀ i < tfVpn, update top v w i = 0 := by
    intro i hi
    rw [update_of_ne (by omega)]
    exact h.low i hi
  obtain ⟨hspace, hchange, hpage⟩ := h.edited hed (fun i hi => by rw [hne i hi]; exact h.user i hi)
    (fun i hi => by rw [hne i hi]) hrest hlow
  refine ⟨hspace, hchange, fun i hi => ?_, fun i hi => ?_⟩
  · rw [hed.entry, hne i hi]
  · rw [← hpage i hi, hne i hi]

theorem wp_unmap_top {Q : Unit → Ram → Prop} {v : Nat} (h : Space b s root top n) (hv : tfVpn ≤ v)
    (hmax : v < maxvpn) (hleaf : IsLeaf (top v))
    (hok : ∀ t, Space b t root (update top v 0) n →
      Change s.toHeap t.toHeap (own s root n) (own t root n) → Keeps s t root n → Q () t) :
    wp (uvmunmap b root (v * pgsize) 1 false) Q E s := by
  have hn := h.lt_tfVpn
  have hentry : entry s.page root v = top v := h.rest v (by omega)
  have hcount : (u64 (v * pgsize + 1 * pgsize) - v * pgsize) / pgsize = 1 := by
    have hmax' : maxvpn = 2 ^ 26 := rfl
    simp only [u64, pgsize, hmax'] at *
    omega
  rw [uvmunmap, if_neg (not_not.mpr (Nat.mul_mod_left v pgsize))]
  show wp (uvmunmapFrom b root false _ _) Q E s
  rw [hcount]
  refine wp_uvmunmapFrom h.table h.owns (fun hd => absurd hd (by simp)) (.inl fun i hi hi' => ?_)
    fun t ht => ?_
  · have heq : i = v := by omega
    rw [heq, hentry]
    exact ⟨hmax, hleaf⟩
  · rw [freed, if_neg (by simp), ← eraseRange_update, eraseRange_zero] at ht
    have hchange := ht.change
    rw [Set.union_empty] at hchange
    obtain ⟨hspace, hchange, hkeeps⟩ := h.top_edited hv ⟨hchange, ht.table, ht.entry⟩
    exact hok t hspace hchange hkeeps

theorem wp_map_top {Q : Int → Ram → Prop} {v pa perm : Nat} (h : Space b s root top n)
    (hfree : b.Free s) (hv : tfVpn ≤ v) (hmax : v < maxvpn) (hnone : top v = 0) (hperm : perm < 1024)
    (hpa : pa + pgsize ≤ 2 ^ 56)
    (hfail : ∀ t, Space b t root top n →
      Change s.toHeap t.toHeap (own s root n) (own t root n) → Keeps s t root n → Q (-1) t)
    (hok : ∀ t, Space b t root (update top v (mkpte pa perm)) n →
      Change s.toHeap t.toHeap (own s root n) (own t root n) → Keeps s t root n → Q 0 t) :
    wp (mappages root (v * pgsize) pgsize pa perm) Q E s := by
  have hn := h.lt_tfVpn
  refine wp_mappages_one h.table h.owns hfree hperm hpa hmax ?_ (fun t ht => ?_) fun t ht => ?_
  · rw [h.rest v (by omega), hnone]
    exact zero_invalid
  · obtain ⟨hspace, hchange, hkeeps⟩ := h.grown ht
    exact hfail t hspace hchange hkeeps
  · obtain ⟨hspace, hchange, hkeeps⟩ := h.top_edited hv ht
    exact hok t hspace hchange hkeeps

end Space

/-! ## The page table of a process -/

abbrev trampVpn : Nat := trampoline / pgsize

/-- The entries above the user pages of a process with the trapframe `tf`. -/
def procTop (b : Boot) (tf : Nat) : Nat → Nat :=
  update (update (fun _ => 0) trampVpn (mkpte b.tramp (pteR ||| pteX))) tfVpn
    (mkpte tf (pteR ||| pteW))

theorem isLeaf_mkpte {pa perm : Nat} (hperm : perm < 1024) (h : perm ||| pteV ≠ pteV) :
    IsLeaf (mkpte pa perm) := by
  refine ⟨mkpte_valid pa perm, ?_⟩
  rw [pteFlags_mkpte hperm]
  exact h

theorem tramp_add_le (b : Boot) : b.tramp + pgsize ≤ 2 ^ 56 :=
  b.tramp_le.trans (b.kend_le.trans (by decide))

/-- **`proc_freepagetable` gives back the tables and the user pages**, and nothing else. -/
theorem Space.wp_procFreepagetable {Q : Unit → Ram → Prop} {sz tf : Nat}
    (h : Space b s root (procTop b tf) (pgs sz))
    (hok : ∀ t, Change s.toHeap t.toHeap (own s root (pgs sz)) ∅ → Q () t) :
    wp (procFreepagetable b root sz) Q E s := by
  have htop : procTop b tf trampVpn = mkpte b.tramp (pteR ||| pteX) := by
    rw [procTop, update_of_ne (by decide), update_self]
  have htop' : update (procTop b tf) trampVpn 0 tfVpn = mkpte tf (pteR ||| pteW) := by
    rw [update_of_ne (by decide), procTop, update_self]
  have hnone : update (update (procTop b tf) trampVpn 0) tfVpn 0 =
      fun _ => 0 := by
    funext v
    by_cases hv : v = tfVpn
    · rw [hv, update_self]
    · rw [update_of_ne hv]
      by_cases hv' : v = trampVpn
      · rw [hv', update_self]
      · rw [update_of_ne hv', procTop, update_of_ne hv, update_of_ne hv']
  rw [procFreepagetable, wp_bind]
  rw [show trampoline = trampVpn * pgsize from rfl, show trapframe = tfVpn * pgsize from rfl]
  refine h.wp_unmap_top (by decide) (by decide) ?_ fun t ht hchange _ => ?_
  · rw [htop]
    exact isLeaf_mkpte (by decide) (by decide)
  · refine .bind (ht.wp_unmap_top le_rfl (by decide) ?_ fun u hu hchange' _ => ?_)
    · rw [htop']
      exact isLeaf_mkpte (by decide) (by decide)
    · rw [hnone] at hu
      exact hu.wp_uvmfree fun w hw => hok w ((hchange.trans hchange').trans hw)

/-- **`proc_pagetable` makes an address space without user pages**, or gives back what it took. -/
theorem wp_procPagetable {Q : Option Nat → Ram → Prop} {tf : Nat} (hs : s.free.Nodup)
    (hfree : b.Free s) (htf : tf + pgsize ≤ 2 ^ 56)
    (hfail : ∀ t, Change s.toHeap t.toHeap ∅ ∅ → Q none t)
    (hok : ∀ t root, Space b t root (procTop b tf) 0 → Change s.toHeap t.toHeap ∅ (own t root 0) →
      Q (some root) t) : wp (procPagetable b tf) Q E s := by
  rw [procPagetable, wp_bind]
  refine wp_uvmcreate hs hfree (fun t ht => hfail t ?_) fun t root hcreate ht hentry => ?_
  · rw [ht]
    exact .refl ⟨hs, fun x hx => hx.elim⟩
  have hspace : Space b t root (fun _ => 0) 0 := by
    refine ⟨ht, hcreate.owns, ⟨?_, ?_, ?_, ?_⟩, fun v hv => absurd hv (Nat.not_lt_zero v),
      fun v _ => by rw [hentry], fun _ _ => rfl⟩
    · rw [pages_zero]
      exact fun x hx => hx.elim
    · rw [pages_zero]
      exact Set.disjoint_empty _
    · rw [pages_zero]
      exact ⟨hcreate.owns.nodup, fun x hx => hx.elim⟩
    · exact fun i j _ hi => absurd hi (Nat.not_lt_zero i)
  have hown : tables t.page root = own t root 0 := by rw [own, pages_zero, Set.union_empty]
  rw [hown] at hcreate
  have hram : ∀ x ∈ (∅ : Set Nat), b.RamPage x := fun x hx => hx.elim
  have htramp : trampoline = trampVpn * pgsize := rfl
  have htf' : trapframe = tfVpn * pgsize := rfl
  -- everything that has been taken so far is given back
  have hundo : ∀ {u : Ram}, Space b u root (fun _ => 0) 0 →
      Change s.toHeap u.toHeap ∅ (own u root 0) →
      wp (do uvmfree b root 0; pure none) Q E u := by
    intro u hu hchange
    have hu : Space b u root (fun _ => 0) (pgs 0) := hu
    exact .bind (hu.wp_uvmfree fun w hw => hfail w (hchange.trans hw))
  simp only [htramp, htf', wp_bind]
  refine hspace.wp_map_top (hfree.change hcreate hram) (by decide) (by decide) rfl (by decide)
    (tramp_add_le b) (fun u hu hmap _ => ?_) fun u hu hmap _ => ?_
  · rw [if_pos (by decide)]
    exact hundo hu (hcreate.trans hmap)
  · rw [if_neg (by decide), wp_bind]
    have hmap := hcreate.trans hmap
    refine hu.wp_map_top (hfree.change hmap hram) le_rfl (by decide) ?_ (by decide) htf
      (fun w hw hmap' _ => ?_) fun w hw hmap' _ => ?_
    · rw [update_of_ne (by decide)]
    · rw [if_pos (by decide), wp_bind]
      refine hw.wp_unmap_top (by decide) (by decide) ?_ fun x hx hunmap _ => ?_
      · rw [update_self]
        exact isLeaf_mkpte (by decide) (by decide)
      · rw [update_idem, update_eq_self] at hx
        exact hundo hx ((hmap.trans hmap').trans hunmap)
    · rw [if_neg (by decide)]
      exact hok w root hw (hmap.trans hmap')

end Free

end Vm

end Xv6
