import Xv6.Vm.Teardown

/-!
# Copying to user memory

`copyout` stores its bytes in order, up to the first page that is not mapped for the user, and changes
no other byte.  That takes more than the bytes going to the right physical page: no page of the address
space is mapped twice.
-/

namespace Xv6

open Function (update update_of_ne update_self)

namespace Vm

open Heap Prog Trie

/-- The byte of user memory at an address, if it is mapped. -/
def ubyte (s : Ram) (root va : Nat) : Option UInt8 :=
  (uaddr s.page root va).map fun pa => (s.page pa).byte (va % pgsize)

def Supervisor (top : Nat → Nat) : Prop := ∀ v, top v &&& pteV = 0 ∨ top v &&& pteU = 0

/-- `k` bytes of `src` have been stored at `dst`, and nothing else has happened. -/
structure Stored (b : Boot) (s t : Ram) (root : Nat) (top : Nat → Nat) (n dst k : Nat)
    (src : Nat → UInt8) : Prop where
  space : Space b t root top n
  own : own t root n = own s root n
  change : Change s.toHeap t.toHeap (Vm.own s root n) (Vm.own t root n)
  entry : entry t.page root = entry s.page root
  byte : ∀ va, ubyte t root va =
    if dst ≤ va ∧ va < dst + k then some (src (va - dst)) else ubyte s root va

section Copy

variable {b : Boot} {s t u : Ram} {root n dst k : Nat} {top : Nat → Nat} {src : Nat → UInt8}
  {E : Stop → Ram → Prop}

variable {fuel k' len m off pa v va va' : Nat}

theorem uaddr_congr {page page' : Nat → Page} (h : entry page' root = entry page root)
    (hva : va' / pgsize = va / pgsize) : uaddr page' root va' = uaddr page root va := by
  rw [uaddr, uaddr, h, hva]

theorem Space.of_uaddr (h : Space b s root top n) (htop : Supervisor top)
    (hpa : uaddr s.page root va = some pa) :
    va / pgsize < n ∧ pa = pte2pa (entry s.page root (va / pgsize)) := by
  rw [uaddr] at hpa
  split at hpa
  · exact absurd hpa (by simp)
  · rename_i hentry
    refine ⟨?_, (Option.some_inj.mp hpa).symm⟩
    by_contra hlt
    rw [h.rest _ (by omega)] at hentry
    rcases htop (va / pgsize) with hV | hU
    · exact hentry (.inl hV)
    · exact hentry (.inr (.inl hU))

theorem Space.poked (h : Space b s root top n) (hv : v < n) (q : Page) :
    let t : Ram := { s with page := update s.page (pte2pa (entry s.page root v)) q }
    Space b t root top n ∧ Vm.own t root n = Vm.own s root n ∧
      Change s.toHeap t.toHeap (Vm.own s root n) (Vm.own t root n) ∧
      entry t.page root = entry s.page root := by
  intro t
  have hmem : pte2pa (entry s.page root v) ∈ pages (entry s.page root) 0 n :=
    mem_pages hv (h.user v hv).1
  have hsame : ∀ x ∈ tables s.page root, t.page x = s.page x := by
    intro x hx
    refine update_of_ne ?_ ..
    rintro rfl
    exact Set.disjoint_left.mp h.priv.apart hx hmem
  have hentry := entry_congr hsame
  have htables := tables_congr hsame
  have hown : Vm.own t root n = Vm.own s root n := by rw [Vm.own, Vm.own, hentry, htables]
  have hchange := change_page h.owns_own (h.pa_mem hv) q
  refine ⟨⟨h.table.congr hsame, ?_, ⟨?_, ?_, ?_, ?_⟩, ?_, ?_, h.low⟩, hown, ?_, hentry⟩
  · rw [htables]
    exact ⟨h.owns.nodup, h.owns.apart⟩
  · rw [hentry]
    exact h.priv.ram
  · rw [hentry, htables]
    exact h.priv.apart
  · rw [hentry]
    exact ⟨h.priv.owns.nodup, h.priv.owns.apart⟩
  · rw [hentry]
    exact h.priv.once
  · rw [hentry]
    exact h.user
  · rw [hentry]
    exact h.rest
  · rw [hown]
    exact hchange

theorem Stored.refl (h : Space b s root top n) (dst : Nat) (src : Nat → UInt8) :
    Stored b s s root top n dst 0 src where
  space := h
  own := rfl
  change := .refl h.owns_own
  entry := rfl
  byte va := by rw [if_neg (by omega)]

theorem Stored.trans (h : Stored b s t root top n dst k src)
    (h' : Stored b t u root top n (dst + k) k' fun i => src (i + k)) :
    Stored b s u root top n dst (k + k') src where
  space := h'.space
  own := h'.own.trans h.own
  change := h.change.trans h'.change
  entry := h'.entry.trans h.entry
  byte va := by
    rw [h'.byte, h.byte]
    by_cases hlow : dst ≤ va ∧ va < dst + k
    · rw [if_neg (by omega), if_pos hlow, if_pos (by omega)]
    · by_cases hhigh : dst + k ≤ va ∧ va < dst + k + k'
      · rw [if_pos hhigh, if_pos (by omega), show va - (dst + k) + k = va - dst by omega]
      · rw [if_neg hhigh, if_neg hlow, if_neg (by omega)]

theorem Stored.congr {src' : Nat → UInt8} (h : Stored b s t root top n dst k src)
    (hsrc : ∀ i < k, src' i = src i) : Stored b s t root top n dst k src' where
  space := h.space
  own := h.own
  change := h.change
  entry := h.entry
  byte va := by
    rw [h.byte]
    split
    · rw [hsrc _ (by omega)]
    · rfl

section

variable (h : Space b s root top n) (htop : Supervisor top) (hpa : uaddr s.page root dst = some pa)
include h htop hpa

theorem Space.stored (hm : dst % pgsize + m ≤ pgsize) (src : Nat → UInt8) :
    Stored b s { s with page := update s.page pa ((s.page pa).splice (dst % pgsize) m src) }
      root top n dst m src := by
  obtain ⟨hv, rfl⟩ := h.of_uaddr htop hpa
  obtain ⟨hspace, hown, hchange, hentry⟩ := h.poked hv
    ((s.page (pte2pa (entry s.page root (dst / pgsize)))).splice (dst % pgsize) m src)
  refine ⟨hspace, hown, hchange, hentry, fun va => ?_⟩
  rw [ubyte, ubyte, uaddr_congr hentry rfl]
  cases hva : uaddr s.page root va with
  | none =>
    have hout : ¬(dst ≤ va ∧ va < dst + m) := by
      rintro ⟨hge, hlt⟩
      have hpage : va / pgsize = dst / pgsize := by
        simp only [pgsize] at *
        omega
      rw [uaddr_congr rfl hpage, hpa] at hva
      exact absurd hva (by simp)
    rw [if_neg hout]
    rfl
  | some pa =>
    obtain ⟨hv', rfl⟩ := h.of_uaddr htop hva
    simp only [Option.map_some]
    by_cases hpage : va / pgsize = dst / pgsize
    · rw [hpage, update_self]
      by_cases hin : dst ≤ va ∧ va < dst + m
      · rw [if_pos hin, Bytes.byte_splice_of_mem (Nat.mod_lt va (by decide))
          (by simp only [pgsize] at *; omega) (by simp only [pgsize] at *; omega)]
        congr 2
        simp only [pgsize] at *
        omega
      · rw [if_neg hin, Bytes.byte_splice_of_not_mem]
        simp only [pgsize] at *
        omega
    · -- another page of the address space is another page of RAM
      have hne : pte2pa (entry s.page root (va / pgsize)) ≠
          pte2pa (entry s.page root (dst / pgsize)) := fun heq =>
        hpage (h.priv.once _ _ (Nat.zero_le _) (by omega) (Nat.zero_le _) (by omega)
          (h.user _ hv').1 (h.user _ hv).1 heq)
      rw [update_of_ne hne, if_neg]
      simp only [pgsize] at *
      omega

theorem Space.wp_moveIn {Q : Unit → Ram → Prop} (hoff : dst % pgsize = off)
    (hm : off + m ≤ pgsize) (hok : ∀ t, Stored b s t root top n dst m src → Q () t) :
    wp (moveIn pa off m src) Q E s := by
  subst hoff
  exact hok _ (h.stored htop hpa hm src)

end

theorem wp_copyoutFrom_zero {Q : Int → Ram → Prop} :
    wp (copyoutFrom root fuel dst src 0) Q E s ↔ Q 0 s := by
  cases fuel with
  | zero => rfl
  | succ fuel => rw [copyoutFrom, if_pos rfl, wp_pure]

/-- **`copyout` stores its bytes in order, as far as the pages are mapped.** -/
theorem wp_copyoutFrom {Q : Int → Ram → Prop} (h : Space b s root top n)
    (htop : Supervisor top) (hfuel : len ≤ fuel)
    (hfail : ∀ t k, k < len → (∀ i < k, uaddr s.page root (dst + i) ≠ none) →
      uaddr s.page root (dst + k) = none → Stored b s t root top n dst k src → Q (-1) t)
    (hok : ∀ t, (∀ i < len, uaddr s.page root (dst + i) ≠ none) →
      Stored b s t root top n dst len src → Q 0 t) :
    wp (copyoutFrom root fuel dst src len) Q E s := by
  induction fuel generalizing s dst src len with
  | zero =>
    have hlen : len = 0 := by omega
    subst hlen
    exact hok s (fun i hi => absurd hi (by omega)) (.refl h dst src)
  | succ fuel ih =>
    rw [copyoutFrom]
    by_cases hlen : len = 0
    · subst hlen
      rw [if_pos rfl]
      exact hok s (fun i hi => absurd hi (by omega)) (.refl h dst src)
    · have hround : pgrounddown dst / pgsize = dst / pgsize := mul_pgsize_div _
      have hoff : dst - pgrounddown dst = dst % pgsize := by
        simp only [pgrounddown, pgsize]
        omega
      rw [if_neg hlen]
      simp only [wp_bind, wp_walkaddr, uaddr_congr rfl hround, hoff]
      cases hpa : uaddr s.page root dst with
      | none =>
        exact hfail s 0 (by omega) (fun i hi => absurd hi (by omega)) hpa (.refl h dst src)
      | some pa =>
        set m := min (pgsize - dst % pgsize) len with hm
        have hmod : dst % pgsize < pgsize := Nat.mod_lt dst (by decide)
        have hstored := h.stored htop hpa (m := m) (by omega) src
        have hsame : ∀ va, uaddr (update s.page pa
            ((s.page pa).splice (dst % pgsize) m src)) root va = uaddr s.page root va := fun va =>
          uaddr_congr hstored.entry rfl
        have hhere : ∀ i < m, uaddr s.page root (dst + i) ≠ none := by
          intro i hi
          have hpage : (dst + i) / pgsize = dst / pgsize := by
            simp only [pgsize] at *
            omega
          rw [uaddr_congr rfl hpage, hpa]
          simp
        simp only [wp_bind]
        show wp (copyoutFrom root fuel _ _ _) Q E { s with page := _ }
        -- either that was the last page, or the page has been filled to its end
        by_cases hlast : len ≤ pgsize - dst % pgsize
        · have hmlen : m = len := by omega
          rw [hmlen] at hstored hhere ⊢
          rw [Nat.sub_self]
          rw [wp_copyoutFrom_zero]
          exact hok _ hhere hstored
        · have hm' : m = pgsize - dst % pgsize := by omega
          obtain ⟨hv, -⟩ := h.of_uaddr htop hpa
          have hnext : u64 (pgrounddown dst + pgsize) = dst + m := by
            have hn := h.le_ram
            simp only [pgrounddown, u64, pgsize] at *
            omega
          rw [hnext]
          refine ih hstored.space (by omega) (fun t k hk hbefore hat hst => ?_)
            fun t hbefore hst => ?_
          · refine hfail t (m + k) (by omega) (fun i hi => ?_) ?_ (hstored.trans hst)
            · by_cases him : i < m
              · exact hhere i him
              · have := hbefore (i - m) (by omega)
                rwa [hsame, show dst + m + (i - m) = dst + i by omega] at this
            · rwa [hsame, Nat.add_assoc] at hat
          · have hst := hstored.trans hst
            rw [Nat.add_sub_cancel' (by omega)] at hst
            refine hok t (fun i hi => ?_) hst
            by_cases him : i < m
            · exact hhere i him
            · have := hbefore (i - m) (by omega)
              rwa [hsame, show dst + m + (i - m) = dst + i by omega] at this

theorem wp_copyout {Q : Int → Ram → Prop} (h : Space b s root top n)
    (htop : Supervisor top)
    (hfail : ∀ t k, k < len → (∀ i < k, uaddr s.page root (dst + i) ≠ none) →
      uaddr s.page root (dst + k) = none → Stored b s t root top n dst k src → Q (-1) t)
    (hok : ∀ t, (∀ i < len, uaddr s.page root (dst + i) ≠ none) →
      Stored b s t root top n dst len src → Q 0 t) :
    wp (copyout root dst src len) Q E s := wp_copyoutFrom h htop le_rfl hfail hok

end Copy

theorem supervisor_procTop (b : Boot) (tf : Nat) : Supervisor (procTop b tf) := by
  intro v
  have hU : ∀ pa perm, perm < 1024 → (perm ||| pteV) &&& pteU = 0 → mkpte pa perm &&& pteU = 0 := by
    intro pa perm hperm hzero
    rw [mkpte_eq, Nat.and_or_distrib_right, pa2pte_and (by decide), hzero]
    rfl
  by_cases htf : v = tfVpn
  · rw [htf, procTop, update_self]
    exact .inr (hU _ _ (by decide) (by decide))
  · by_cases htr : v = trampVpn
    · rw [htr, procTop, update_of_ne (by decide), update_self]
      exact .inr (hU _ _ (by decide) (by decide))
    · rw [procTop, update_of_ne htf, update_of_ne htr]
      exact .inl (by decide)

end Vm

end Xv6
