import Xv6.Vm.Space

/-!
# Growing an address space
-/

namespace Xv6

namespace Vm

open Heap Prog Trie

section Grow

variable {b : Boot} {s t u : Ram} {root n m k mem perm : Nat} {top : Nat → Nat}
  {E : Stop → Ram → Prop}

/-- The pages from `n` to `n'` are new: they are zero, and have the permissions that were asked
for. -/
def Fresh (s : Ram) (root n n' perm : Nat) : Prop :=
  ∀ v, n ≤ v → v < n' → pteFlags (entry s.page root v) = perm ||| pteV ∧
    s.page (pte2pa (entry s.page root v)) = fun _ => 0

theorem next_page {v : Nat} (h : v < tfVpn) : u64 (v * pgsize + pgsize) = (v + 1) * pgsize := by
  have htf : tfVpn < 2 ^ 26 := by decide
  simp only [u64, pgsize]
  omega

namespace Space

/-- **A new page is mapped after the last one, or everything is as before.** -/
theorem wp_addPage {Q : Bool → Ram → Prop} {fill : Nat → VM Unit} {c : Ram → Page} {p : Page}
    (h : Space b s root top n) (hfree : b.Free s) (hperm : perm < 1024)
    (hleaf : perm ||| pteV ≠ pteV)
    (hfill : ∀ mem (t : Ram) (P : Unit → Ram → Prop), wp (fill mem) P E t ↔
      P () { t with page := Function.update t.page mem (c t) })
    (hc : ∀ mem (t : Ram), Change s.toHeap t.toHeap ∅ {mem} → c t = p)
    (hfail : ∀ t, Space b t root top n →
      Change s.toHeap t.toHeap (own s root n) (own t root n) → Keeps s t root n → Q false t)
    (hok : ∀ t, Space b t root top (n + 1) →
      Change s.toHeap t.toHeap (own s root n) (own t root (n + 1)) → Keeps s t root n →
      pteFlags (entry t.page root n) = perm ||| pteV →
      t.page (pte2pa (entry t.page root n)) = p → Q true t) :
    wp (addPage b root (n * pgsize) perm fill) Q E s := by
  rw [addPage, wp_bind]
  refine wp_kalloc h.owns.nodup (fun t ht => ?_) fun mem t hmem htake => ?_
  · have hchange : Change s.toHeap t.toHeap ∅ ∅ := by
      rw [ht]
      exact .refl ⟨h.owns.nodup, fun x hx => hx.elim⟩
    obtain ⟨hspace, hown, hkeeps⟩ := h.other hchange (Set.empty_disjoint _)
    refine hfail t hspace ?_ hkeeps
    rw [hown, ht]
    exact .refl h.owns_own
  · have hchange : ∀ u : Ram, u.toHeap = ⟨Function.update t.page mem (c t), t.free⟩ →
        Change s.toHeap u.toHeap ∅ {mem} := by
      intro u hu
      rw [hu]
      exact htake.trans (change_page htake.owns (Set.mem_singleton mem) (c t))
    rw [wp_bind, hfill, wp_bind]
    generalize hu : ({ t with page := Function.update t.page mem (c t) } : Ram) = u
    have hpage : u.page mem = p := by
      rw [← hu, ← hc mem t htake]
      exact Function.update_self ..
    specialize hchange u (by rw [← hu])
    obtain ⟨hspace, hnew, hstart, hkeeps⟩ := h.beside hchange hmem
    refine hspace.wp_map (hfree.change hchange fun x hx => hx.elim) (hfree mem hmem) hchange.owns hnew
      hperm hleaf (fun v hv hmap hkeep => ?_) fun v hv hmap hkeep hsame hentry => ?_
    · -- no memory for a table: the page goes back
      have hdisj := Set.disjoint_singleton_right.mpr hnew
      have hnew' : mem ∉ own v root n :=
        Set.disjoint_singleton_right.mp (hmap.disjoint_other hchange.owns hdisj)
      rw [if_pos (by decide), wp_bind]
      refine wp_kfree (hfree mem hmem) (hmap.owns_other hchange.owns hdisj) fun w hw => ?_
      obtain ⟨hspace', hown, hkeeps'⟩ := hv.other hw (Set.disjoint_singleton_left.mpr hnew')
      refine hfail w hspace' ?_ ((hkeeps.trans hkeep).trans hkeeps')
      rw [hown]
      exact (hstart.trans (hmap.widen hchange.owns hdisj)).trans (hw.given hv.owns_own hnew')
    · rw [if_neg (by decide)]
      refine hok v hv (hstart.trans hmap) (hkeeps.trans hkeep) ?_ ?_
      · rw [hentry, pteFlags_mkpte hperm]
      · rw [hentry, pte2pa_mkpte (hfree mem hmem).lt hperm, pgrounddown_of_mod (hfree mem hmem).1,
          hsame, hpage]

/-- **`uvmalloc` adds its pages in order, or takes those it has added away again.** -/
theorem wp_uvmallocFrom {Q : Bool → Ram → Prop} {xperm n₀ : Nat} (h : Space b s root top n)
    (hfree : b.Free s) (hn₀ : n₀ ≤ n) (hperm : pteR ||| pteU ||| xperm < 1024)
    (hfail : ∀ t, Space b t root top n₀ →
      Change s.toHeap t.toHeap (own s root n) (own t root n₀) → Keeps s t root n₀ → Q false t)
    (hok : ∀ t, Space b t root top (n + k) →
      Change s.toHeap t.toHeap (own s root n) (own t root (n + k)) → Keeps s t root n →
      Fresh t root n (n + k) (pteR ||| pteU ||| xperm) → Q true t) :
    wp (uvmallocFrom b root (n₀ * pgsize) xperm k (n * pgsize)) Q E s := by
  have hleaf : pteR ||| pteU ||| xperm ||| pteV ≠ pteV := by
    intro heq
    have hbit := congrArg (Nat.testBit · 1) heq
    simp only [Nat.testBit_or] at hbit
    rw [show Nat.testBit pteR 1 = true from rfl, show Nat.testBit pteV 1 = false from rfl] at hbit
    simp at hbit
  induction k generalizing s n with
  | zero => exact hok s h (.refl h.owns_own) (.refl s root n) fun v hv hv' => by omega
  | succ k ih =>
    rw [uvmallocFrom, wp_bind]
    refine h.wp_addPage hfree hperm hleaf (c := fun _ _ => 0) (fun _ _ _ => Iff.rfl) (fun _ _ _ => rfl)
      (fun t ht hchange hkeeps => ?_) fun t ht hchange hkeeps hflags hzero => ?_
    · rw [if_neg (by decide), wp_bind]
      refine ht.wp_shrink hn₀ fun _ u hu hchange' hkeeps' => ?_
      exact hfail u hu (hchange.trans hchange') ((hkeeps.mono hn₀).trans hkeeps')
    · rw [if_pos rfl, next_page h.lt_tfVpn]
      refine ih ht (hfree.change hchange h.ram_own) (by omega)
        (fun u hu hchange' hkeeps' => ?_) fun u hu hchange' hkeeps' hfresh => ?_
      · exact hfail u hu (hchange.trans hchange') ((hkeeps.mono hn₀).trans hkeeps')
      · rw [show n + 1 + k = n + (k + 1) by omega] at hu hchange' hfresh
        refine hok u hu (hchange.trans hchange') (hkeeps.trans (hkeeps'.mono (by omega))) ?_
        intro v hv hv'
        rcases Nat.eq_or_lt_of_le hv with rfl | hlt
        · rw [hkeeps'.entry n (by omega), hkeeps'.page n (by omega)]
          exact ⟨hflags, hzero⟩
        · exact hfresh v hlt hv'

theorem wp_uvmalloc {Q : Nat → Ram → Prop} {oldsz newsz xperm : Nat} (h : Space b s root top (pgs oldsz))
    (hfree : b.Free s) (hle : oldsz ≤ newsz) (hperm : pteR ||| pteU ||| xperm < 1024)
    (hfail : ∀ t, Space b t root top (pgs oldsz) →
      Change s.toHeap t.toHeap (own s root (pgs oldsz)) (own t root (pgs oldsz)) →
      Keeps s t root (pgs oldsz) → Q 0 t)
    (hok : ∀ t, Space b t root top (pgs newsz) →
      Change s.toHeap t.toHeap (own s root (pgs oldsz)) (own t root (pgs newsz)) →
      Keeps s t root (pgs oldsz) →
      Fresh t root (pgs oldsz) (pgs newsz) (pteR ||| pteU ||| xperm) → Q newsz t) :
    wp (uvmalloc b root oldsz newsz xperm) Q E s := by
  have hsz : oldsz ≤ 2 ^ 64 - pgsize := by
    have hn := h.le_ram
    have hsz := le_pgs_mul oldsz
    simp only [pgsize] at *
    omega
  have hmono := pgs_mono hle
  have hcount : (newsz - pgs oldsz * pgsize + pgsize - 1) / pgsize = pgs newsz - pgs oldsz := by
    simp only [pgs, pgsize] at *
    omega
  rw [uvmalloc, if_neg (Nat.not_lt_of_le hle), pgroundup_eq hsz]
  simp only [hcount, wp_bind]
  refine h.wp_uvmallocFrom hfree le_rfl hperm (fun t ht hchange hkeeps => ?_)
    fun t ht hchange hkeeps hfresh => ?_
  · exact hfail t ht hchange hkeeps
  · rw [Nat.add_sub_cancel' hmono] at ht hchange hfresh
    exact hok t ht hchange hkeeps hfresh

theorem wp_uvmalloc_of_lt {Q : Nat → Ram → Prop} {oldsz newsz xperm : Nat} (h : newsz < oldsz) :
    wp (uvmalloc b root oldsz newsz xperm) Q E s ↔ Q oldsz s := by
  rw [uvmalloc, if_pos h, wp_pure]

end Space

end Grow

end Vm

end Xv6
