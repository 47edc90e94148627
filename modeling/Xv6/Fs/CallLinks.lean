import Xv6.Fs.Refs

/-!
# The calls keep the link counts

Each call that changes directories, started between two calls (`Good`), ends between two calls,
provided that in the state in which it starts it does not do one of the things that break the counts
(`CreateOk`, `LinkOk`, `UnlinkOk`), and that link counts do not exceed the range of their type.
-/

namespace Xv6.Fs

open Function (update update_of_ne update_self update_eq_self update_idem update_comm)
open Prog

/-- The state between two calls, or at the end of one that still has some references. -/
structure Good (strict tight : Bool) (ext : Nat → Int) (held : List Nat) (t : Tree) : Prop where
  links : Links strict tight t.inode
  refs : Refs ext held [] [] t

namespace Good

variable {strict tight : Bool} {ext ext' : Nat → Int} {held : List Nat} {t : Tree} {i : Nat}

theorem congr (h : Good strict tight ext held t) (hext : ∀ j, ext' j = ext j) :
    Good strict tight ext' held t := (funext hext : ext' = ext) ▸ h

theorem handOver (ext' : Nat → Int) (h : Good strict tight ext [i] t) (hi : (t.inode i).type ≠ .none)
    (hext : ∀ j, ext' j = ext j + if j = i then 1 else 0) : Good strict tight ext' [] t :=
  ⟨h.links, h.refs.handOver hext hi⟩

theorem wp_iput {Q : Unit → Tree → Prop} (h : Good strict tight ext [i] t)
    (hQ : ∀ t', Good strict tight ext [] t' → Q () t') : wp (ops.iput i) Q (stops tight) t :=
  Xv6.Fs.wp_iput [] h.refs (by simp) (by simp) fun t' ht' h' => hQ t' ⟨ht' ▸ h.links, h'⟩

theorem wp_iput_ext (ext' : Nat → Int) {Q : Unit → Tree → Prop} (h : Good strict tight ext [] t)
    (hext : ∀ j, ext j = ext' j + if j = i then 1 else 0) (hpos : 0 ≤ ext' i)
    (hQ : ∀ t', Good strict tight ext' [] t' → Q () t') : wp (ops.iput i) Q (stops tight) t := by
  have hi : 0 < ext i := by
    have := hext i
    rw [if_pos rfl] at this
    omega
  have hty := h.refs.used i hi
  refine wp_iput_last [] (h.refs.takeOver hext hpos) (by simp)
    (fun hn => (h.refs.orphan i (by simp) hty hn).2) (by simp)
    (fun t' _ ht' h' => hQ t' ⟨ht' ▸ h.links, h'⟩) fun t' hn ht' h' => hQ t' ⟨?_, h'⟩
  rw [ht']
  exact h.links.erase (h.links.bound i hty).2 hn ⟨rfl, hn, rfl⟩

end Good

theorem int16_of_range {n : Int} (h0 : 0 ≤ n) (h1 : n ≤ 32767) : int16 n = n := by
  apply Int.bmod_eq_of_le_mul_two <;> omega

section Calls

variable {strict tight : Bool} {ext : Nat → Int} {m : Nat → Inode} {t : Tree} {cwd dp ip : Nat}
  {name : Name} {path : List Char}

/-! ## `create` -/

def CreateOk (strict : Bool) (m : Nat → Inode) (cwd : Nat) (path : List Char) (type : FType) : Prop :=
  ∀ r ∈ resolve m cwd path true, (strict = true ∨ type = .dir → (m r.1).nlink ≠ 0) ∧
    (type = .dir → (m r.1).nlink < 32767)

instance (type : FType) : Decidable (CreateOk strict m cwd path type) :=
  inferInstanceAs (Decidable (∀ r ∈ resolve m cwd path true, _))

theorem regular_of_lookup (hl : Links strict tight m) (hd : (m dp).type = .dir)
    (h : (m dp).lookup name = none) : name ≠ dot ∧ name ≠ dotdot := by
  have heq := (hl.shape dp hd).eq
  constructor
  · exact Ne.symm (Inode.lookup_eq_none h (e := ⟨dp, dot⟩) (by rw [heq]; simp) (hl.ne_zero hd))
  · exact Ne.symm (Inode.lookup_eq_none h (e := ⟨(m dp).parent, dotdot⟩) (by rw [heq]; simp)
      (hl.shape dp hd).parent_ne)

theorem mod_of_bound (h : ip < ninodes) : ip % 2 ^ 16 = ip :=
  Nat.mod_eq_of_lt (Nat.lt_trans h (by decide))

/-- What holds from the allocation of the inode in `create` on. -/
structure Creating (strict tight : Bool) (ext : Nat → Int) (m : Nat → Inode) (dp ip : Nat)
    (name : Name) : Prop where
  links : Links strict tight m
  dir : (m dp).type = .dir
  lookup : (m dp).lookup name = none
  free : (m ip).type = .none
  bound : 0 < ip ∧ ip < ninodes
  ext : ext ip = 0

namespace Creating

variable {x : Inode} {Q : Option Nat → Tree → Prop}

variable (h : Creating strict tight ext m dp ip name)
include h

theorem ne : ip ≠ dp := by
  rintro rfl
  exact absurd (h.free.symm.trans h.dir) (by simp)

variable (hr : Refs ext [ip, dp] [ip, dp] [ip] t)
include hr

theorem wp_createFail (ht : t.inode = update m ip x)
    (hx : x.type ≠ .none) (hQ : ∀ t', Good strict tight ext [] t' → Q none t') :
    wp (createFail ops dp ip) Q (stops tight) t := by
  have hti : t.inode ip = x := by rw [ht, update_self]
  rw [createFail, wp_bind]
  refine wp_setNlink hr rfl (by rwa [hti]) (by simp) fun t₁ ht₁ h₁ => ?_
  rw [ht, update_idem, ← ht, hti] at ht₁
  have ht₁i : t₁.inode ip = { x with nlink := 0 } := by rw [ht₁, update_self]
  rw [wp_bind]
  refine wp_iput_last [dp] h₁ (by simpa using h.ne) (fun _ => (h₁.lock ip (by simp)).2) (by simp)
    (fun t₂ hor => ?_) fun t₂ hn ht₂ h₂ => ?_
  · rw [ht₁i, h.ext] at hor
    simp at hor
  · refine .bind (wp_iput [] h₂ (by simp) (by simp) fun t₃ ht₃ h₃ => hQ t₃ ⟨?_, h₃⟩)
    rw [ht₃, ht₂, ht₁i, ht₁, update_idem]
    exact h.links.erase h.bound.2 (h.links.free ip h.free) ⟨rfl, rfl, rfl⟩

theorem wp_enter (ht : t.inode = update m ip x)
    (he : Entering strict m dp ip x name) (hnone : ∀ t', Good strict tight ext [] t' → Q none t')
    (hsome : ∀ t', Good strict tight ext [ip] t' → (t'.inode ip).type ≠ .none → Q (some ip) t') :
    wp (do
      let ok ← ops.dirlink dp name ip
      if ok then createDone ops dp ip x.type else createFail ops dp ip) Q (stops tight) t := by
  have htd : t.inode dp = m dp := by rw [ht, update_of_ne h.ne.symm]
  have hlook : (t.inode dp).lookup name = none := by rw [htd, h.lookup]
  have hdone : ∀ t', t'.inode = Entering.after m dp ip x name → Refs ext [ip] [] [ip] t' →
      Q (some ip) t' := by
    intro t' ht' h'
    have hti : t'.inode ip = x := by rw [ht', Entering.after_ip he.ne]
    refine hsome t' ⟨ht' ▸ he.links h.links, h'.vacate fun _ hn => ?_⟩ (by rw [hti]; exact he.type)
    exact absurd (hti ▸ hn) (he.nlink_ne h.links)
  refine .bind (wp_dirlink hr (htd ▸ h.dir) (by simp [hlook])
    (fun t₁ ht₁ h₁ => h.wp_createFail h₁ (ht₁.trans ht) he.type hnone) fun t₁ _ ht₁ h₁ => ?_)
  rw [mod_of_bound h.bound.2, htd] at ht₁
  have hdpi : dp ∉ [ip] := by simpa using h.ne.symm
  have hperm : [ip, dp].Perm [dp, ip] := .swap ..
  rw [if_pos rfl, createDone]
  by_cases hx : x.type = .dir
  · have hdp : t₁.inode dp = (m dp).add ⟨ip, name⟩ := by rw [ht₁, update_self]
    have hnn := h.links.nlink_nonneg dp
    have hlt := (he.made hx).2.2.2
    rw [if_pos hx, wp_bind, wp_nlink, hdp, wp_bind]
    refine wp_setNlink h₁ (int16_of_range ?_ ?_) ?_ ?_ fun t₂ ht₂ h₂ => ?_
    · show 0 ≤ (m dp).nlink + 1
      omega
    · show (m dp).nlink + 1 ≤ 32767
      omega
    · rw [hdp, Inode.add, h.dir]
      simp
    · intro _ hc
      have : (m dp).nlink + 1 = 0 := hc
      omega
    · refine .bind (wp_iput [] (h₂.perm hperm) hdpi (by simp) fun t₃ ht₃ h₃ => hdone t₃ ?_ h₃)
      rw [ht₃, ht₂, hdp, ht₁, ht, update_idem, Entering.after, Inode.gain, if_pos hx]
      rfl
  · rw [if_neg hx, wp_bind]
    refine wp_iput [] (h₁.perm hperm) hdpi (by simp) fun t₂ ht₂ h₂ => hdone t₂ ?_ h₂
    rw [ht₂, ht₁, ht, Entering.after, Inode.gain, if_neg hx, Int.add_zero]
    rfl

theorem wp_createDots {Q : Bool → Tree → Prop} {major minor : Int}
    (ht : t.inode = update m ip ⟨.dir, 1, major, minor, []⟩)
    (hfalse : ∀ x t', x.type ≠ .none → t'.inode = update m ip x →
      Refs ext [ip, dp] [ip, dp] [ip] t' → Q false t')
    (htrue : ∀ t', t'.inode = update m ip ⟨.dir, 1, major, minor,
        [⟨ip, dot⟩, ⟨dp, dotdot⟩]⟩ → Refs ext [ip, dp] [ip, dp] [ip] t' → Q true t') :
    wp (createDots ops dp ip) Q (stops tight) t := by
  have hti : t.inode ip = ⟨.dir, 1, major, minor, []⟩ := by rw [ht, update_self]
  have hlook : (t.inode ip).lookup dot = none := by rw [hti]; rfl
  rw [createDots, wp_bind]
  refine wp_dirlink hr (by rw [hti]) (by simp [hlook])
    (fun t₁ ht₁ h₁ => hfalse _ t₁ (by simp) (ht₁.trans ht) h₁) fun t₁ _ ht₁ h₁ => ?_
  rw [hti, ht, update_idem, mod_of_bound h.bound.2] at ht₁
  have ht₁i : t₁.inode ip = ⟨.dir, 1, major, minor, [⟨ip, dot⟩]⟩ := by
    rw [ht₁, update_self]
    rfl
  have hlook₁ : (t₁.inode ip).lookup dotdot = none := by
    rw [ht₁i]
    simp [Inode.lookup, Tree.findName]
  rw [if_pos rfl]
  refine wp_dirlink h₁ (by rw [ht₁i]) (by simp [hlook₁])
    (fun t₂ ht₂ h₂ => hfalse _ t₂ ?_ (ht₂.trans ht₁) h₂) fun t₂ _ ht₂ h₂ => htrue t₂ ?_ h₂
  · simp [Inode.add]
  · rw [ht₂, ht₁i, ht₁, update_idem, mod_of_bound (h.links.bound_dir h.dir).2, Inode.add,
      addEntry_cons_of_ne (Nat.ne_of_gt h.bound.1), addEntry_nil]

theorem wp_createAt {type : FType} {major minor : Int} (htype : type ≠ .none)
    (ht : t.inode = update m ip ⟨type, 1, major, minor, []⟩)
    (hstrict : strict = true ∨ type = .dir → (m dp).nlink ≠ 0)
    (hdir : type = .dir → (m dp).nlink < 32767)
    (hnone : ∀ t', Good strict tight ext [] t' → Q none t')
    (hsome : ∀ t', Good strict tight ext [ip] t' → (t'.inode ip).type ≠ .none → Q (some ip) t') :
    wp (createAt ops dp name type ip) Q (stops tight) t := by
  have hnlink : (1 : Int) = (m ip).nlink + 1 := by rw [h.links.free ip h.free]; rfl
  rw [createAt]
  by_cases hd : type = .dir
  · subst hd
    rw [if_pos rfl, wp_bind]
    refine h.wp_createDots hr ht
      (fun x t₁ hx ht₁ h₁ => h.wp_createFail h₁ ht₁ hx hnone) fun t₁ ht₁ h₁ => ?_
    exact h.wp_enter h₁ ht₁
      { dir := h.dir, ne := h.ne, bound := h.bound, regular := regular_of_lookup h.links h.dir h.lookup
        old := by rw [h.free]; simp
        strict := fun hs => hstrict (.inl hs)
        type := htype, nlink := hnlink, range := by simp, plain := fun hc => absurd rfl hc
        made := fun _ => ⟨h.free, rfl, hstrict (.inr rfl), hdir rfl⟩ } hnone hsome
  · rw [if_neg hd, wp_bind, wp_pure]
    exact h.wp_enter hr ht
      { dir := h.dir, ne := h.ne, bound := h.bound, regular := regular_of_lookup h.links h.dir h.lookup
        old := by rw [h.free]; simp
        strict := fun hs => hstrict (.inl hs)
        type := htype, nlink := hnlink, range := by simp, plain := fun _ => rfl
        made := fun hc => absurd hc hd } hnone hsome

end Creating

section

variable (h : Good strict tight ext [] t)
include h

theorem wp_create {type : FType} {major minor : Int} {Q : Option Nat → Tree → Prop}
    (hcwd : (t.inode cwd).type ≠ .none) (htype : type ≠ .none)
    (hc : CreateOk strict t.inode cwd path type)
    (hnone : ∀ t', Good strict tight ext [] t' → Q none t')
    (hsome : ∀ ip t', Good strict tight ext [ip] t' → (t'.inode ip).type ≠ .none →
      Q (some ip) t') : wp (create ops cwd path type major minor) Q (stops tight) t := by
  have hl := h.links
  rw [create, wp_bind, nameiparent]
  refine wp_namex h.refs hl.closed hl.root.1 hcwd fun t₁ ht₁ h₁ => ?_
  cases hres : resolve t.inode cwd path true with
  | none =>
    rw [hres] at h₁
    exact hnone t₁ ⟨ht₁ ▸ hl, h₁⟩
  | some r =>
    obtain ⟨dp, name⟩ := r
    rw [hres] at h₁
    have hd : (t.inode dp).type = .dir := type_of_follow hres
    refine .bind (wp_ilock h₁ (fun _ => by rw [ht₁, hd]; simp) (by simp) fun t₂ ht₂ _ h₂ => ?_)
    have heq₂ : t₂.inode = t.inode := ht₂.trans ht₁
    refine .bind (wp_dirlookup h₂ (by rw [heq₂, hd]) fun t₃ ht₃ h₃ => ?_)
    have heq₃ : t₃.inode = t.inode := ht₃.trans heq₂
    rw [heq₂] at h₃ ⊢
    cases hlook : (t.inode dp).lookup name with
    | some r =>
      obtain ⟨ip, off⟩ := r
      rw [hlook] at h₃
      refine .bind (wp_iput [] (h₃.perm (.swap ..)) (by simp) (by simp) fun t₄ ht₄ h₄ => ?_)
      have heq₄ : t₄.inode = t.inode := ht₄.trans heq₃
      rw [wp_bind]
      refine wp_ilock h₄ (fun ht => by rw [heq₄]; exact type_ne_of_lookup hl.closed ht hd hlook)
        (by simp) fun t₅ ht₅ hty h₅ => ?_
      have heq₅ : t₅.inode = t.inode := ht₅.trans heq₄
      rw [wp_bind, wp_type, wp_ite]
      split
      · exact hsome ip t₅ ⟨heq₅ ▸ hl, h₅.unlock (by simp)⟩ (by rw [ht₅]; exact hty)
      · exact .bind (wp_iput [] h₅ (by simp) (by simp) fun t₆ ht₆ h₆ =>
          hnone t₆ ⟨(ht₆.trans heq₅) ▸ hl, h₆⟩)
    | none =>
      rw [hlook] at h₃
      rw [wp_bind]
      refine wp_ialloc h₃ htype (by simp [heq₃, hd]) ?_ fun ip t₄ hfree hb hext hip ht₄ h₄ => ?_
      · exact .bind (wp_iput [] h₃ (by simp) (by simp) fun t₄ ht₄ h₄ =>
          hnone t₄ ⟨(ht₄.trans heq₃) ▸ hl, h₄⟩)
      · rw [heq₃] at hfree ht₄
        have hcr : Creating strict tight ext t.inode dp ip name :=
          ⟨hl, hd, hlook, hfree, hb, hext⟩
        have hti : t₄.inode ip = { Inode.free with type } := by rw [ht₄, update_self]
        rw [wp_bind]
        refine wp_ilock h₄ (fun _ => by rw [hti]; exact htype) (by simp) fun t₅ ht₅ _ h₅ => ?_
        rw [wp_bind]
        have hset : (t₅.setInode ip { t₅.inode ip with
            major := int16 major, minor := int16 minor, nlink := 1 }).inode =
            update t.inode ip ⟨type, 1, int16 major, int16 minor, []⟩ := by
          rw [Tree.setInode_inode, ht₅, hti, ht₄, update_idem]
          rfl
        refine hcr.wp_createAt (h₅.setInode ?_ (by simp)) htype hset (hc _ hres).1 (hc _ hres).2
          hnone (hsome ip)
        rw [ht₅, hti]
        exact htype

theorem wp_sysMake {type : FType} {major minor : Int} {Q : Int → Tree → Prop}
    (hcwd : (t.inode cwd).type ≠ .none) (htype : type ≠ .none)
    (hc : CreateOk strict t.inode cwd path type)
    (hQ : ∀ n t', Good strict tight ext [] t' → Q n t') :
    wp (sysMake ops cwd path type major minor) Q (stops tight) t := by
  rw [sysMake, wp_ite]
  split
  · exact hQ _ t h
  · refine .bind (wp_create h hcwd htype hc (fun t₁ h₁ => hQ _ t₁ h₁) fun ip t₁ h₁ _ => ?_)
    exact .bind (wp_iput [] h₁.refs (by simp) (by simp) fun t₂ ht₂ h₂ =>
      hQ _ t₂ ⟨ht₂ ▸ h₁.links, h₂⟩)

/-! ## `sys_open` -/

variable (hcwd : (t.inode cwd).type ≠ .none)
include hcwd

theorem wp_namei {Q : Option Nat → Tree → Prop}
    (hnone : ∀ t', Good strict tight ext [] t' → Q none t')
    (hsome : ∀ ip t', (∃ last, resolve t.inode cwd path false = some (ip, last)) →
      t'.inode = t.inode → (tight → (t.inode ip).type ≠ .none) → Refs ext [ip] [] [] t' →
      Q (some ip) t') : wp (namei ops cwd path) Q (stops tight) t := by
  have hl := h.links
  rw [namei, wp_bind]
  refine wp_namex h.refs hl.closed hl.root.1 hcwd fun t₁ ht₁ h₁ => ?_
  cases hres : resolve t.inode cwd path false with
  | none =>
    rw [hres] at h₁
    exact hnone t₁ ⟨ht₁ ▸ hl, h₁⟩
  | some r =>
    rw [hres] at h₁
    refine hsome r.1 t₁ ⟨r.2, hres⟩ ht₁ (fun ht => ?_) h₁
    refine type_ne_of_follow hl.closed ht ?_ hres
    split
    · rw [hl.root.1]
      simp
    · exact hcwd

theorem wp_openNamei {omode : Nat} {Q : Option Nat → Tree → Prop}
    (hnone : ∀ t', Good strict tight ext [] t' → Q none t')
    (hsome : ∀ ip t', Good strict tight ext [ip] t' → (t'.inode ip).type ≠ .none →
      Q (some ip) t') : wp (openNamei ops cwd path omode) Q (stops tight) t := by
  rw [openNamei, wp_bind]
  refine wp_namei h hcwd hnone fun ip t₁ _ ht₁ hty h₁ => ?_
  refine .bind (wp_ilock h₁ (by rwa [ht₁]) (by simp) fun t₂ ht₂ hty₂ h₂ => ?_)
  have heq : t₂.inode = t.inode := ht₂.trans ht₁
  rw [wp_bind, wp_type, wp_ite]
  split
  · exact .bind (wp_iput [] h₂ (by simp) (by simp) fun t₃ ht₃ h₃ =>
      hnone t₃ ⟨(ht₃.trans heq) ▸ h.links, h₃⟩)
  · exact hsome ip t₂ ⟨heq ▸ h.links, h₂.unlock (by simp)⟩ (by rw [ht₂]; exact hty₂)

theorem wp_openInode {omode : Nat} {Q : Option Nat → Tree → Prop}
    (hc : omode &&& oCreate ≠ 0 → CreateOk strict t.inode cwd path .file)
    (hnone : ∀ t', Good strict tight ext [] t' → Q none t')
    (hsome : ∀ ip t', Good strict tight ext [ip] t' → (t'.inode ip).type ≠ .none →
      Q (some ip) t') : wp (openInode ops cwd path omode) Q (stops tight) t := by
  have hrest : ∀ ip t', Good strict tight ext [ip] t' → (t'.inode ip).type ≠ .none →
      wp (do
        let type ← ops.type ip
        let major ← ops.major ip
        if type = .device ∧ (major < 0 ∨ ndev ≤ major) then
          ops.iput ip
          return none
        else return some ip) Q (stops tight) t' := by
    intro ip t' h' hty
    rw [wp_bind, wp_type, wp_bind]
    show wp (if _ then _ else _) _ _ t'
    rw [wp_ite]
    split
    · exact .bind (wp_iput [] h'.refs (by simp) (by simp) fun t₃ ht₃ h₃ =>
        hnone t₃ ⟨ht₃ ▸ h'.links, h₃⟩)
    · exact hsome ip t' h' hty
  rw [openInode, wp_ite]
  split
  · exact hnone t h
  by_cases hcr : omode &&& oCreate ≠ 0
  · rw [if_pos hcr, wp_bind]
    exact wp_create h hcwd (by simp) (hc hcr) hnone hrest
  · rw [if_neg hcr, wp_bind]
    exact wp_openNamei h hcwd hnone hrest

end

/-! ## `sys_link` -/

def LinkOk (strict : Bool) (m : Nat → Inode) (cwd : Nat) (old new : List Char) : Prop :=
  (∀ r ∈ resolve m cwd old false, (m r.1).nlink < 32767) ∧
    ∀ r ∈ resolve m cwd new true, strict = true → (m r.1).nlink ≠ 0

instance (old new : List Char) : Decidable (LinkOk strict m cwd old new) :=
  inferInstanceAs (Decidable ((∀ r ∈ resolve m cwd old false, _) ∧
    ∀ r ∈ resolve m cwd new true, _))

/-- What holds in `sys_link` once the link count has been increased. -/
structure Linking (strict tight : Bool) (ext : Nat → Int) (m : Nat → Inode) (ip : Nat) : Prop where
  links : Links strict tight m
  type : (m ip).type ≠ .none
  notDir : (m ip).type ≠ .dir
  nlink : (m ip).nlink < 32767
  orphan : (m ip).nlink = 0 → 0 < ext ip

namespace Linking

variable {Q : Int → Tree → Prop}

abbrev more (m : Nat → Inode) (ip : Nat) : Nat → Inode :=
  update m ip { m ip with nlink := (m ip).nlink + 1 }

theorem more_type (i : Nat) : (more m ip i).type = (m i).type := by
  by_cases hi : i = ip
  · rw [hi, more, update_self]
  · rw [more, update_of_ne hi]

theorem more_ents (i : Nat) : (more m ip i).ents = (m i).ents := by
  by_cases hi : i = ip
  · rw [hi, more, update_self]
  · rw [more, update_of_ne hi]

theorem closed (h : Linking strict tight ext m ip) : Closed tight (more m ip) := by
  intro ht d hd e he hne
  rw [more_type] at hd ⊢
  rw [more_ents] at he
  exact h.links.closed ht d hd e he hne

theorem resolve_more (path : List Char) : resolve (more m ip) cwd path true =
    resolve m cwd path true := follow_congr more_type (fun i _ => more_ents i) ..

theorem wp_sysLinkBad (h : Linking strict tight ext m ip) (hr : Refs ext [ip] [] [] t)
    (ht : t.inode = more m ip) (hQ : ∀ n t', Good strict tight ext [] t' → Q n t') :
    wp (sysLinkBad ops ip) Q (stops tight) t := by
  have hti : t.inode ip = { m ip with nlink := (m ip).nlink + 1 } := by
    rw [ht, more, update_self]
  have hnn := h.links.nlink_nonneg ip
  have hlt := h.nlink
  rw [sysLinkBad, wp_bind]
  refine wp_ilock hr (fun _ => by rw [hti]; exact h.type) (by simp) fun t₁ ht₁ _ h₁ => ?_
  rw [wp_bind, wp_nlink, ht₁, hti, wp_bind]
  have hsub : (m ip).nlink + 1 - 1 = (m ip).nlink := by omega
  rw [hsub]
  refine wp_setNlink (h₁.occupy ip) (int16_of_range hnn (by omega))
    (by rw [ht₁, hti]; exact h.type) (by simp) fun t₂ ht₂ h₂ => ?_
  have heq : t₂.inode = m := by
    rw [ht₂, ht₁, hti, ht, more, update_idem]
    exact update_eq_self ip m
  have h₃ : Refs ext [ip] [ip] [] t₂ := h₂.vacate fun _ hn =>
    ⟨h.orphan (heq ▸ hn), (h₂.lock ip (by simp)).2⟩
  exact .bind (wp_iput [] h₃ (by simp) (by simp) fun t₄ ht₄ h₄ =>
    hQ _ t₄ ⟨(ht₄.trans heq) ▸ h.links, h₄⟩)

end Linking

theorem wp_sysLink {old new : List Char} {Q : Int → Tree → Prop} (h : Good strict tight ext [] t)
    (hcwd : (t.inode cwd).type ≠ .none) (hc : LinkOk strict t.inode cwd old new)
    (hQ : ∀ n t', Good strict tight ext [] t' → Q n t') :
    wp (sysLink ops cwd old new) Q (stops tight) t := by
  have hl := h.links
  rw [sysLink, wp_ite]
  split
  · exact hQ _ t h
  refine .bind (wp_namei h hcwd (hQ _) fun ip t₁ hres ht₁ hty h₁ => ?_)
  obtain ⟨last, hres⟩ := hres
  refine .bind (wp_ilock h₁ (by rwa [ht₁]) (by simp) fun t₂ ht₂ hne h₂ => ?_)
  have heq₂ : t₂.inode = t.inode := ht₂.trans ht₁
  rw [ht₁] at hne
  rw [wp_bind, wp_type, heq₂, wp_ite]
  split
  · exact .bind (wp_iput [] h₂ (by simp) (by simp) fun t₃ ht₃ h₃ =>
      hQ _ t₃ ⟨(ht₃.trans heq₂) ▸ hl, h₃⟩)
  rename_i hnd
  have hlk : Linking strict tight ext t.inode ip :=
    ⟨hl, hne, hnd, hc.1 _ hres, fun hn => (h.refs.orphan ip (by simp) hne hn).1⟩
  have hnn := hl.nlink_nonneg ip
  have hlt := hlk.nlink
  rw [wp_bind, wp_nlink, heq₂, wp_bind]
  refine wp_setNlink h₂ (int16_of_range (by omega) (by omega)) (by rwa [heq₂]) (by omega)
    fun t₃ ht₃ h₃ => ?_
  replace ht₃ : t₃.inode = Linking.more t.inode ip := by rw [ht₃, heq₂]
  refine .bind (wp_iunlock h₃ List.mem_cons_self ?_)
  rw [wp_bind, nameiparent]
  refine wp_namex (h₃.unlock (by simp)) (ht₃ ▸ hlk.closed)
    (by rw [ht₃, Linking.more_type]; exact hl.root.1)
    (by rw [ht₃, Linking.more_type]; exact hcwd) fun t₄ ht₄ h₄ => ?_
  rw [ht₃, Linking.resolve_more] at h₄ ⊢
  have heq₄ : t₄.inode = Linking.more t.inode ip := ht₄.trans ht₃
  cases hres' : resolve t.inode cwd new true with
  | none =>
    rw [hres'] at h₄
    exact hlk.wp_sysLinkBad h₄ heq₄ hQ
  | some r =>
    obtain ⟨dp, name⟩ := r
    rw [hres'] at h₄
    have hd : (t.inode dp).type = .dir := type_of_follow hres'
    have hipdp : ip ≠ dp := fun heq => hnd (heq ▸ hd)
    have hdp : Linking.more t.inode ip dp = t.inode dp := update_of_ne hipdp.symm ..
    rw [wp_bind]
    refine wp_ilock h₄ (fun _ => by rw [heq₄, hdp, hd]; simp) (by simp) fun t₅ ht₅ _ h₅ => ?_
    have heq₅ : t₅.inode = Linking.more t.inode ip := ht₅.trans heq₄
    refine .bind (wp_dirlink h₅ (by rw [heq₅, hdp, hd]) (by simp) (fun t₆ ht₆ h₆ => ?_)
      fun t₆ hlook ht₆ h₆ => ?_)
    · exact .bind (wp_iput [] h₆ (by simp) (by simp) fun t₇ ht₇ h₇ =>
        hlk.wp_sysLinkBad h₇ (ht₇.trans (ht₆.trans heq₅)) hQ)
    · have hb := hl.bound ip hne
      rw [heq₅, hdp] at hlook ht₆
      have he : Entering strict t.inode dp ip
          { t.inode ip with nlink := (t.inode ip).nlink + 1 } name :=
        { dir := hd, ne := hipdp, bound := hb, regular := regular_of_lookup hl hd hlook
          old := hnd
          strict := hc.2 _ hres'
          type := hne, nlink := rfl
          range := by dsimp only; omega
          plain := fun _ => hl.plain ip hnd
          made := fun hc => absurd hc hnd }
      have heq₆ : t₆.inode = Entering.after t.inode dp ip
          { t.inode ip with nlink := (t.inode ip).nlink + 1 } name := by
        rw [ht₆, mod_of_bound hb.2, Entering.after, Inode.gain, if_neg hnd, Int.add_zero]
        rfl
      refine .bind (wp_iput [] h₆ (by simp) (by simp) fun t₇ ht₇ h₇ => ?_)
      rw [if_pos rfl, wp_bind]
      exact wp_iput [] h₇ (by simp) (by simp) fun t₈ ht₈ h₈ =>
        hQ _ t₈ ⟨(ht₈.trans (ht₇.trans heq₆)) ▸ he.links hl, h₈⟩

/-! ## `sys_unlink` -/

/-- No directory but itself has `ip` as its parent. -/
def Childless (m : Nat → Inode) (ip : Nat) : Prop :=
  ∀ d < ninodes, d ≠ ip → (m d).type = .dir → (m d).parent ≠ ip

instance : Decidable (Childless m ip) :=
  Nat.decidableBallLT ninodes fun d _ => d ≠ ip → (m d).type = .dir → (m d).parent ≠ ip

/-- With `tight`: if `unlink` removes a directory, no other directory has it as its parent.  It
removes none under the names `.` and `..`, and none that `isdirempty` refuses. -/
def UnlinkOk (tight : Bool) (m : Nat → Inode) (cwd : Nat) (path : List Char) : Prop :=
  tight = true → path.length < maxPath → ∀ r ∈ resolve m cwd path true,
    ¬(r.2 = dot ∨ r.2 = dotdot) → ∀ v ∈ (m r.1).lookup r.2,
    (m v.1).type = .dir → (∀ e ∈ (m v.1).rest, e.inum = 0) → Childless m v.1

instance : Decidable (UnlinkOk tight m cwd path) :=
  inferInstanceAs (Decidable (tight = true → path.length < maxPath →
    ∀ r ∈ resolve m cwd path true, ¬(r.2 = dot ∨ r.2 = dotdot) → ∀ v ∈ (m r.1).lookup r.2, _))

theorem exists_slot (hl : Links strict tight m) (hd : (m dp).type = .dir) {off : Nat}
    (hname : ¬(name = dot ∨ name = dotdot)) (h : (m dp).lookup name = some (ip, off)) :
    ∃ k, off = k + 2 ∧ ip ≠ 0 ∧ ∃ e, (m dp).rest[k]? = some e ∧ e.inum = ip := by
  obtain ⟨e, he, hi, hn, h0⟩ := Inode.lookup_eq_some h
  rw [not_or] at hname
  rw [(hl.shape dp hd).eq] at he
  match off, he with
  | 0, he =>
    rw [List.getElem?_cons_zero, Option.some.injEq] at he
    exact absurd (hn.symm.trans (he ▸ rfl)) hname.1
  | 1, he =>
    rw [List.getElem?_cons_succ, List.getElem?_cons_zero, Option.some.injEq] at he
    exact absurd (hn.symm.trans (he ▸ rfl)) hname.2
  | k + 2, he => exact ⟨k, rfl, h0, e, by simpa using he, hi⟩

theorem Leaving.wp_sysUnlinkDone {k : Nat} {Q : Int → Tree → Prop} (h : Leaving tight m dp ip k)
    (hl : Links strict tight m) (hr : Refs ext [ip, dp] [ip, dp] [ip] t)
    (ht : t.inode = update m dp ((m dp).clear (k + 2)))
    (hQ : ∀ n t', Good strict tight ext [] t' → Q n t') :
    wp (sysUnlinkDone ops dp ip (m ip).type) Q (stops tight) t := by
  have hne := h.ne hl
  have hpos := h.nlink_pos hl
  have hrange := hl.range ip
  have htype : (m ip).type ≠ .none := by
    obtain ⟨e, he, rfl⟩ := h.mem
    exact hl.type_ne h.dir he h.ne_zero
  -- from `iput(dp)` on
  have hrest : ∀ t', t'.inode = update m dp ((m dp).lose (k + 2) (m ip).type) →
      Refs ext [ip, dp] [ip, dp] [ip] t' →
      wp (do
        ops.iput dp
        let n ← ops.nlink ip
        ops.setNlink ip (n - 1)
        ops.iput ip
        return 0) Q (stops tight) t' := by
    intro t₁ ht₁ h₁
    refine .bind (wp_iput [ip] (h₁.perm (.swap ..)) (by simpa using hne.symm) (by simp)
      fun t₂ ht₂ h₂ => ?_)
    have hip : t₂.inode ip = m ip := by rw [ht₂, ht₁, update_of_ne hne]
    rw [wp_bind, wp_nlink, hip, wp_bind]
    refine wp_setNlink h₂ (int16_of_range (by omega) (by omega)) (by rwa [hip]) (by simp)
      fun t₃ ht₃ h₃ => ?_
    have heq : t₃.inode = Leaving.after m dp ip k := by
      rw [ht₃, hip, ht₂, ht₁, Leaving.after, update_comm hne]
      rfl
    have hlinks := h.links hl
    refine .bind (wp_iput_last [] h₃ (by simp) (fun _ => (h₃.lock ip (by simp)).2) (by simp)
      (fun t₄ _ ht₄ h₄ => hQ _ t₄ ⟨(ht₄.trans heq) ▸ hlinks, h₄⟩) fun t₄ hn ht₄ h₄ => ?_)
    rw [heq] at ht₄ hn
    refine hQ _ t₄ ⟨?_, h₄⟩
    rw [ht₄]
    exact hlinks.erase (h.bound hl) hn ⟨rfl, hn, rfl⟩
  have hdp : t.inode dp = (m dp).clear (k + 2) := by rw [ht, update_self]
  rw [sysUnlinkDone]
  by_cases hd : (m ip).type = .dir
  · have htwo := h.two_le_nlink hl hd
    have hrange := hl.range dp
    rw [if_pos hd, wp_bind, wp_nlink, hdp, wp_bind]
    refine wp_setNlink hr (int16_of_range ?_ ?_) ?_ ?_ fun t₁ ht₁ h₁ => hrest t₁ ?_ h₁
    · show 0 ≤ (m dp).nlink - 1
      omega
    · show (m dp).nlink - 1 ≤ 32767
      omega
    · rw [hdp, Inode.clear, h.dir]
      simp
    · intro _ hc
      have : (m dp).nlink - 1 = 0 := hc
      omega
    · rw [ht₁, hdp, ht, update_idem, Inode.lose, if_pos hd]
      rfl
  · rw [if_neg hd]
    refine hrest t ?_ hr
    rw [ht, Inode.lose, if_neg hd, Int.sub_zero]
    rfl

theorem wp_sysUnlinkAt {k : Nat} {Q : Int → Tree → Prop} (hl : Links strict tight m)
    (hd : (m dp).type = .dir) (hlook : (m dp).lookup name = some (ip, k + 2))
    (hlv : ((m ip).type = .dir → ∀ e ∈ (m ip).rest, e.inum = 0) → Leaving tight m dp ip k)
    (hr : Refs ext [ip, dp] [dp] [] t) (ht : t.inode = m)
    (hQ : ∀ n t', Good strict tight ext [] t' → Q n t') :
    wp (sysUnlinkAt ops dp ip (k + 2)) Q (stops tight) t := by
  rw [sysUnlinkAt, wp_bind]
  refine wp_ilock hr (fun hti => by rw [ht]; exact type_ne_of_lookup hl.closed hti hd hlook)
    (by simp) fun t₁ ht₁ _ h₁ => ?_
  have heq₁ : t₁.inode = m := ht₁.trans ht
  have hfail : wp (do ops.iput ip; ops.iput dp; return -1) Q (stops tight) t₁ := by
    refine .bind (wp_iput [] h₁ (by simp) (by simp) fun t₂ ht₂ h₂ => ?_)
    exact .bind (wp_iput [] h₂ (by simp) (by simp) fun t₃ ht₃ h₃ =>
      hQ _ t₃ ⟨(ht₃.trans (ht₂.trans heq₁)) ▸ hl, h₃⟩)
  have hdone : ((m ip).type = .dir → ∀ e ∈ (m ip).rest, e.inum = 0) →
      wp (do
        let ok ← ops.clearEntry dp (k + 2)
        if ok then sysUnlinkDone ops dp ip (m ip).type
        else throw (.panic .unlinkWritei)) Q (stops tight) t₁ := by
    intro hempty
    refine .bind (wp_clearEntry (h₁.occupy ip) (by rw [heq₁, hd]) ?_ fun t₂ ht₂ h₂ => ?_)
    · obtain ⟨e, he, -⟩ := Inode.lookup_eq_some hlook
      rw [heq₁]
      exact (List.getElem?_eq_some_iff.mp he).1
    · rw [heq₁] at ht₂
      exact (hlv hempty).wp_sysUnlinkDone hl h₂ ht₂ hQ
  rw [wp_bind, wp_nlink, wp_bind, wp_type, heq₁, wp_ite]
  split
  · simp [Allow]
  by_cases hdir : (m ip).type = .dir
  · rw [if_pos hdir, wp_bind]
    show wp (if ((t₁.inode ip).ents.drop 2).all (fun e => e.inum = 0) then _ else _) _ _ t₁
    rw [heq₁, wp_ite]
    split
    · rename_i hall
      rw [List.all_eq_true] at hall
      exact hdone fun _ e he => by simpa using hall e he
    · exact hfail
  · rw [if_neg hdir, wp_bind, wp_pure]
    exact hdone fun hc => absurd hc hdir

theorem wp_sysUnlink {Q : Int → Tree → Prop} (h : Good strict tight ext [] t)
    (hcwd : (t.inode cwd).type ≠ .none) (hc : UnlinkOk tight t.inode cwd path)
    (hQ : ∀ n t', Good strict tight ext [] t' → Q n t') :
    wp (sysUnlink ops cwd path) Q (stops tight) t := by
  have hl := h.links
  rw [sysUnlink, wp_ite]
  split
  · exact hQ _ t h
  rename_i hlong
  rw [wp_bind, nameiparent]
  refine wp_namex h.refs hl.closed hl.root.1 hcwd fun t₁ ht₁ h₁ => ?_
  cases hres : resolve t.inode cwd path true with
  | none =>
    rw [hres] at h₁
    exact hQ _ t₁ ⟨ht₁ ▸ hl, h₁⟩
  | some r =>
    obtain ⟨dp, name⟩ := r
    rw [hres] at h₁
    have hd : (t.inode dp).type = .dir := type_of_follow hres
    refine .bind (wp_ilock h₁ (fun _ => by rw [ht₁, hd]; simp) (by simp) fun t₂ ht₂ _ h₂ => ?_)
    have heq₂ : t₂.inode = t.inode := ht₂.trans ht₁
    rw [wp_ite]
    split
    · exact .bind (wp_iput [] h₂ (by simp) (by simp) fun t₃ ht₃ h₃ =>
        hQ _ t₃ ⟨(ht₃.trans heq₂) ▸ hl, h₃⟩)
    rename_i hname
    refine .bind (wp_dirlookup h₂ (by rw [heq₂, hd]) fun t₃ ht₃ h₃ => ?_)
    have heq₃ : t₃.inode = t.inode := ht₃.trans heq₂
    rw [heq₂] at h₃ ⊢
    cases hlook : (t.inode dp).lookup name with
    | none =>
      rw [hlook] at h₃
      exact .bind (wp_iput [] h₃ (by simp) (by simp) fun t₄ ht₄ h₄ =>
        hQ _ t₄ ⟨(ht₄.trans heq₃) ▸ hl, h₄⟩)
    | some v =>
      obtain ⟨ip, off⟩ := v
      obtain ⟨k, rfl, h0, hentry⟩ := exists_slot hl hd hname hlook
      rw [hlook] at h₃
      exact wp_sysUnlinkAt hl hd hlook (fun hempty =>
        { dir := hd, ne_zero := h0, entry := hentry, empty := hempty
          tight := fun ht hip d hne hdir =>
            hc ht (by omega) _ hres hname _ hlook hip (hempty hip) d (hl.bound_dir hdir).2 hne
              hdir }) h₃ heq₃ hQ

end Calls

end Xv6.Fs
