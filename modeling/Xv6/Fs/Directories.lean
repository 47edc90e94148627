import Xv6.Fs.Effects
import Xv6.Fs.Steps

/-!
# Directories are maps

Every directory that `create` has made keeps its shape (`IsDirData`): its size is a multiple of that of
an entry, the first two entries are `.` and `..`, and no two entries have the same key.  A new
directory has it only when `create` has written both entries; if one of them cannot be written, the new
inode is freed again, because nobody else has a reference to it.
-/

namespace Xv6.Fs

open Prog
open List (mem_cons_self nil_subset)

attribute [local irreducible] wp

namespace Vol

/-- The directories apart from those in `Y` are well formed. -/
def Shape (L : Layout) (Y : Nat → Prop) (s : Vol) : Prop :=
  ∀ i < L.ninodes, s.typeOf L i = 1 → ¬Y i → IsDirData i (s.files L i)

/-- What the calls keep: the references are those in `H`, which are to allocated inodes, and the
directories are well formed. -/
structure Tidy (L : Layout) (Y : Nat → Prop) (H V : List Nat) (s : Vol) : Prop where
  held : Held L H V s
  live : ∀ i ∈ H, s.typeOf L i ≠ 0
  shape : Shape L Y s

section Shape

variable {L : Layout} {Y Y' : Nat → Prop} {s t : Vol} {i dp : Nat}

theorem Shape.calm (h : Shape L Y s) (hst : Calm L s t) : Shape L Y t := by
  intro i hi htype hY
  obtain ⟨htype', hfiles⟩ := hst i hi (by rw [htype]; decide)
  rw [hfiles]
  exact h i hi (htype'.symm.trans htype) hY

theorem Shape.sameBut (h : Shape L Y s) (hst : SameBut L i s t) (hY : ∀ j ≠ i, ¬Y' j → ¬Y j)
    (hi : t.typeOf L i = 1 → ¬Y' i → IsDirData i (t.files L i)) : Shape L Y' t := by
  intro j hj htype hYj
  by_cases hji : j = i
  · subst hji
    exact hi htype hYj
  · rw [hst.files j hji]
    exact h j hj ((hst.type j hj hji).symm.trans htype) (hY j hji hYj)

theorem Shape.write {data : List UInt8} (h : Shape L Y s)
    (hfiles : t.files L = Function.update (s.files L) dp data)
    (htype : ∀ i < L.ninodes, t.typeOf L i = s.typeOf L i)
    (hdata : IsDirData dp (s.files L dp) → IsDirData dp data) : Shape L Y t := by
  intro i hi ht hY
  have hold := h i hi ((htype i hi).symm.trans ht) hY
  rw [hfiles]
  by_cases hidp : i = dp
  · subst hidp
    rw [Function.update_self]
    exact hdata hold
  · rw [Function.update_of_ne hidp]
    exact hold

end Shape

section Calls

variable {L : Layout} {Y : Nat → Prop} {B H V W : List Nat} {s s₀ t : Vol} {dp ip cwd : Nat}
  {path : List Char}

abbrev anyStop : Stop → Vol → Prop := fun _ _ => True

theorem Tidy.weaken (h : Tidy L Y H V s) (hV : W ⊆ V) : Tidy L Y H W s :=
  ⟨h.held.weaken hV, h.live, h.shape⟩

theorem Tidy.perm {H' : List Nat} (h : Tidy L Y H V s) (hH : H.Perm H') : Tidy L Y H' V s :=
  ⟨h.held.perm hH, fun i hi => h.live i (hH.mem_iff.mpr hi), h.shape⟩

/-! ## Rules -/

theorem Tidy.of_same (h : Tidy L Y H V s) (hst : Same L s t) (ht : Held L H W t) :
    Tidy L Y H W t :=
  ⟨ht, fun i hi => by rw [hst.type i (ht.lt hi)]; exact h.live i hi, h.shape.calm hst.calm⟩

variable {Q : Unit → Vol → Prop}

theorem Tidy.ilock (h : Tidy L Y H V s) (hi : ip ∈ H)
    (hQ : ∀ t, t.block = s.block → Tidy L Y H (ip :: V) t → Q () t) :
    wp (Vol.ilock L ip) Q anyStop s :=
  h.held.wp_ilock hi (fun _ _ => trivial) fun t hblock ht =>
    hQ t hblock (h.of_same (.of_block hblock) ht)

theorem Tidy.iput (h : Tidy L Y (ip :: H) V s) (hV : W ⊆ V) (hH : W ⊆ H)
    (hQ : ∀ t, Calm L s t → Tidy L Y H W t → Q () t) : wp (Vol.iput L ip) Q anyStop s := by
  refine h.held.wp_iputCalm hV hH fun t hcalm hsame ht => hQ t hcalm ⟨ht, fun i hi => ?_, ?_⟩
  · rw [hsame i hi]
    exact h.live i (.tail _ hi)
  · exact h.shape.calm hcalm

theorem Tidy.iputReturn {α : Type} {r : α} {Q : α → Vol → Prop} (h : Tidy L Y (ip :: H) V s)
    (hQ : ∀ t, Calm L s t → Tidy L Y H [] t → Q r t) :
    wp (do (ops L).iput ip; return r) Q anyStop s := by
  refine .bind (h.iput (nil_subset _) (nil_subset _) fun t hcalm ht => ?_)
  exact .pure (hQ t hcalm ht)

theorem Tidy.setNlink {n : Int} (h : Tidy L Y H V s) (hi : ip ∈ V)
    (hQ : ∀ t, Same L s t → (t.mem ip).nlink = .ofInt n → Tidy L Y H V t → Q () t) :
    wp ((ops L).setNlink ip n) Q anyStop s :=
  h.held.wp_setNlink hi fun t hsame hn ht => hQ t hsame hn (h.of_same hsame ht)

theorem wp_nlink {Q : Int → Vol → Prop} {E : Stop → Vol → Prop} (hQ : ∀ x, Q x s) :
    wp ((ops L).nlink ip) Q E s := by
  show wp (do return ((← get).mem ip).nlink.toInt) Q E s
  rw [wp_bind, wp_get, wp_pure]
  exact hQ _

theorem wp_major {Q : Int → Vol → Prop} {E : Stop → Vol → Prop} (hQ : ∀ x, Q x s) :
    wp ((ops L).major ip) Q E s := by
  show wp (do return ((← get).mem ip).major.toInt) Q E s
  rw [wp_bind, wp_get, wp_pure]
  exact hQ _

theorem wp_typeOf {Q : FType → Vol → Prop} {E : Stop → Vol → Prop} (h : Held L H V s)
    (hi : ip ∈ V) (hQ : Q (L.dinode s.block ip).ftype s) : wp ((ops L).type ip) Q E s := by
  show wp (do return ((← get).mem ip).ftype) Q E s
  rw [wp_bind, wp_get, wp_pure, h.mem_eq hi]
  exact hQ

theorem Tidy.dirlink {Q : Bool → Vol → Prop} {name : Name} (h : Tidy L Y H V s) (hdp : dp ∈ V)
    (hip : ip < L.ninodes) (hQ : ∀ r t, Tidy L Y H V t → Q r t) :
    wp (Vol.dirlink L dp name ip) Q anyStop s := by
  refine h.held.wp_dirlink hdp hip (fun _ => trivial) (fun _ => trivial) trivial
    (fun t _ hsame ht => hQ _ t (h.of_same hsame ht)) fun t _ hmod hnew hfiles htype ht => ?_
  refine hQ _ t ⟨ht, fun i hi => by rw [htype i (ht.lt hi)]; exact h.live i hi, ?_⟩
  exact h.shape.write hfiles htype fun hdir => hdir.link hnew

/-! ## Paths -/

/-- What is kept while a path is followed. -/
structure Follow (L : Layout) (s₀ : Vol) (B H V : List Nat) (s : Vol) : Prop where
  held : Held L H V s
  live : ∀ i ∈ B, i ∈ H ∧ s.typeOf L i ≠ 0
  calm : Calm L s₀ s

theorem Follow.of_block {H' : List Nat} (h : Follow L s₀ B H V s) (hblock : t.block = s.block)
    (hH : H ⊆ H') (ht : Held L H' W t) : Follow L s₀ B H' W t :=
  ⟨ht, fun i hi => ⟨hH (h.live i hi).1, by
    rw [typeOf, hblock]
    exact (h.live i hi).2⟩, h.calm.calm (Same.of_block hblock).calm⟩

/-- **Following a path** changes no file, and the inodes in `B` stay allocated. -/
theorem followRules (L : Layout) (s₀ : Vol) (B : List Nat) :
    PathRules (ops L) (fun _ => []) 0 (fun _ => True) anyStop B fun H V _ s =>
      Follow L s₀ B H V s where
  weaken h hV _ := ⟨h.held.weaken hV, h.live, h.calm⟩
  perm h hH := ⟨h.held.perm hH, fun i hi => ⟨hH.mem_iff.mp (h.live i hi).1, (h.live i hi).2⟩, h.calm⟩
  iget h _ _ hQ := h.held.wp_iget L.root_lt (by decide) trivial fun t hblock _ ht =>
    hQ t (h.of_block hblock (List.subset_cons_self ..) ht)
  idup h hi hQ := h.held.wp_idup hi fun t hblock ht =>
    hQ t (h.of_block hblock (List.subset_cons_self ..) ht)
  ilock h hi _ hQ := h.held.wp_ilock hi (fun _ _ => trivial) fun t hblock ht =>
    hQ t (h.of_block hblock (List.Subset.refl _) ht)
  iunlock h hi hQ := h.held.wp_iunlock hi (hQ _ h)
  type _ hQ := wp_type hQ
  dirlookup h hdp _ _ hnone hsome := h.held.wp_dirlookup hdp (fun _ => trivial) (fun _ => trivial)
    trivial (fun _ _ _ => hnone _ h) fun _ k t _ hblock _ ht =>
      hsome _ _ t (Nat.mul_mod_right ..) (h.of_block hblock (List.subset_cons_self ..) ht)
  iput h hB hV hH _ hQ := h.held.wp_iputCalm hV hH fun t hcalm hsame ht =>
    hQ t ⟨ht, fun i hi => ⟨hB hi, by rw [hsame i (hB hi)]; exact (h.live i hi).2⟩,
      h.calm.calm hcalm⟩

theorem Tidy.follow (h : Tidy L Y H V s) : Follow L s H H V s :=
  ⟨h.held, fun i hi => ⟨hi, h.live i hi⟩, .refl s⟩

theorem wp_namexFrom_name {σ : Type} {o : Ops σ} {parent : Bool} {ip : Nat} {path : List Name}
    {s : σ} : wp (namexFrom o parent ip path)
      (fun r _ => ∀ x, r = some x → parent = true → x.2 ∈ path) (fun _ _ => True) s := by
  induction path generalizing ip s with
  | nil =>
    rw [namexFrom, wp_ite]
    split
    · refine .bind ((wp_true _).mono_ok fun _ t _ => ?_)
      rw [wp_pure]
      simp
    · rename_i hparent
      rw [wp_pure]
      intro x _ hp
      exact absurd hp hparent
  | cons name path ih =>
    rw [namexFrom, wp_bind]
    refine (wp_true _).mono_ok fun _ t _ => ?_
    refine .bind ((wp_true _).mono_ok fun _ t _ => ?_)
    rw [wp_ite]
    split
    · refine .bind ((wp_true _).mono_ok fun _ t _ => ?_)
      rw [wp_pure]
      simp
    · rw [wp_ite]
      split
      · refine .bind ((wp_true _).mono_ok fun _ t _ => ?_)
        rw [wp_pure]
        rintro x ⟨⟩ -
        exact mem_cons_self
      · refine .bind ((wp_true _).mono_ok fun next t _ => ?_)
        refine .bind ((wp_true _).mono_ok fun _ t _ => ?_)
        cases next with
        | none =>
          dsimp only
          rw [wp_pure]
          simp
        | some next => exact ih.mono_ok fun r u hr x hx hp => .tail _ (hr x hx hp)

theorem wp_nameiparent_name {σ : Type} {o : Ops σ} {cwd : Nat} {path : List Char} {s : σ} :
    wp (nameiparent o cwd path) (fun r _ => ∀ x, r = some x → x.2 ∈ elems path)
      (fun _ _ => True) s := by
  rw [nameiparent, namex, wp_ite]
  split
  · rw [wp_bind]
    exact (wp_true _).mono_ok fun _ t _ => wp_namexFrom_name.mono_ok fun r u hr x hx => hr x hx rfl
  · rw [wp_bind]
    exact (wp_true _).mono_ok fun _ t _ => wp_namexFrom_name.mono_ok fun r u hr x hx => hr x hx rfl

theorem Tidy.nameiparent {Q : Option (Nat × Name) → Vol → Prop} (h : Tidy L Y H [] s)
    (hcwd : cwd ∈ H) (hnone : ∀ t, Calm L s t → Tidy L Y H [] t → Q none t)
    (hsome : ∀ dp name t, nameiparent (ops L) cwd path s = .ok (some (dp, name)) t →
      name ∈ elems path → Calm L s t → (∀ i ∈ H, t.typeOf L i ≠ 0) → Shape L Y t →
      Held L (dp :: H) [] t → Q (some (dp, name)) t) :
    wp (Fs.nameiparent (ops L) cwd path) Q anyStop s := by
  have hpath : wp (Fs.nameiparent (ops L) cwd path) _ _ s :=
    (followRules L s H).wp_namex (C := []) (m := 0) (n := 0) (fun _ => Nat.le_refl 0) h.follow
      (List.Subset.refl H) (nil_subset H) trivial (fun _ => trivial) hcwd
      (by simp [PathRules.pathFee])
      (Nat.le_refl 0)
  refine (hpath.exec.and wp_nameiparent_name).mono (fun r t ⟨⟨⟨_, _, _, ht⟩, hexec⟩, hname⟩ => ?_)
    fun _ _ _ => trivial
  cases r with
  | none => exact hnone t ht.calm ⟨ht.held, fun i hi => (ht.live i hi).2, h.shape.calm ht.calm⟩
  | some r =>
    exact hsome r.1 r.2 t hexec (hname r rfl) ht.calm (fun i hi => (ht.live i hi).2)
      (h.shape.calm ht.calm) ht.held

theorem Tidy.namei {Q : Option Nat → Vol → Prop} (h : Tidy L Y H [] s)
    (hcwd : cwd ∈ H) (hnone : ∀ t, Tidy L Y H [] t → Q none t)
    (hsome : ∀ ip t, (∀ i ∈ H, t.typeOf L i ≠ 0) → Shape L Y t → Held L (ip :: H) [] t →
      Q (some ip) t) : wp (Fs.namei (ops L) cwd path) Q anyStop s := by
  have hpath : wp (Fs.namei (ops L) cwd path) _ _ s :=
    (followRules L s H).wp_namei (C := []) (m := 0) (n := 0) (fun _ => Nat.le_refl 0) h.follow
      (List.Subset.refl H) (nil_subset H) trivial (fun _ => trivial) hcwd
      (by simp [PathRules.pathFee])
      (Nat.le_refl 0)
  refine hpath.mono_ok fun r t ⟨_, _, _, ht⟩ => ?_
  cases r with
  | none => exact hnone t ⟨ht.held, fun i hi => (ht.live i hi).2, h.shape.calm ht.calm⟩
  | some ip => exact hsome ip t (fun i hi => (ht.live i hi).2) (h.shape.calm ht.calm) ht.held

theorem wp_ilockTidy (h : Held L (ip :: H) V s)
    (hlive : ∀ i ∈ H, s.typeOf L i ≠ 0) (hshape : Shape L Y s)
    (hQ : ∀ t, t.block = s.block → Tidy L Y (ip :: H) (ip :: V) t → Q () t) :
    wp (Vol.ilock L ip) Q anyStop s := by
  refine h.wp_ilock mem_cons_self (fun _ _ => trivial) fun t hblock ht =>
    hQ t hblock ⟨ht, List.forall_mem_cons.mpr ⟨ht.type_ne mem_cons_self, fun i hi => ?_⟩,
      hshape.calm (Same.of_block hblock).calm⟩
  rw [typeOf, hblock]
  exact hlive i hi

/-! ## `create` -/

theorem Tidy.mono {Y' : Nat → Prop} (h : Tidy L Y H V s) (hY : ∀ j, Y j → Y' j) :
    Tidy L Y' H V s :=
  ⟨h.held, h.live, fun i hi htype hYi => h.shape i hi htype fun hyi => hYi (hY i hyi)⟩

/-- When `create` fails, the new inode is freed: nobody else has a reference to it. -/
theorem Tidy.createFail (h : Tidy L (fun j => Y j ∨ j = ip) (ip :: dp :: H) [ip, dp] s)
    (hnot : ip ∉ dp :: H) :
    wp (createFail (ops L) dp ip) (fun r t => Tidy L Y (r.toList ++ H) r.toList t) anyStop s := by
  rw [Fs.createFail, wp_bind]
  refine h.setNlink mem_cons_self fun t _ hn ht => ?_
  rw [wp_bind]
  refine ht.held.wp_iput (W := [dp]) (by simp) (by simp) (fun hc => ?_) fun _ _ _ u h0 hsame hu => ?_
  · exact absurd ⟨hnot, ht.held.valid mem_cons_self, hn⟩ hc
  · have hne : ∀ j ∈ dp :: H, j ≠ ip := fun j hj hji => hnot (hji ▸ hj)
    have hlive : ∀ j ∈ dp :: H, u.typeOf L j ≠ 0 := by
      intro j hj
      rw [hsame.type j (hu.lt hj) (hne j hj)]
      exact ht.live j (.tail _ hj)
    have hshape : Shape L Y u := by
      refine ht.shape.sameBut hsame (fun j hji hY => ?_) fun h1 => absurd (h0.symm.trans h1) (by decide)
      rintro (hj | hj)
      · exact hY hj
      · exact hji hj
    refine .bind (Tidy.iput (W := []) ⟨hu, hlive, hshape⟩ (by simp) (by simp) fun v _ hv => ?_)
    exact .pure hv

theorem Tidy.createDone {type : FType} (h : Tidy L Y (ip :: dp :: H) [ip, dp] s) :
    wp (createDone (ops L) dp ip type) (fun r t => Tidy L Y (r.toList ++ H) r.toList t)
      anyStop s := by
  have hput : ∀ t, Tidy L Y (ip :: dp :: H) [ip, dp] t →
      wp (do (ops L).iput dp; return some ip) (fun r t => Tidy L Y (r.toList ++ H) r.toList t)
        anyStop t := by
    intro t ht
    rw [wp_bind]
    refine (ht.perm (List.Perm.swap ..)).iput (W := [ip]) (by simp) (by simp) fun u _ hu => ?_
    exact .pure hu
  rw [Fs.createDone, wp_ite]
  split
  · refine .bind (wp_nlink fun n => ?_)
    exact .bind (h.setNlink (by simp) fun t _ _ ht => hput t ht)
  · exact hput s h

theorem Held.createDots (h : Held L H V s) (hip : ip ∈ V) (hdp : dp ∈ H)
    (hempty : s.files L ip = []) :
    wp (createDots (ops L) dp ip) (fun r t => Held L H V t ∧ SameBut L ip s t ∧
      t.typeOf L ip = s.typeOf L ip ∧ (r = true → IsDirData ip (t.files L ip))) anyStop s := by
  have hiplt := h.lt (h.mem hip)
  have hsmall : ∀ {i}, i ∈ H → i < 2 ^ 16 := fun hi => Nat.lt_of_lt_of_le (h.lt hi) L.ninodes_le
  have hbut : ∀ {u v : Vol} {data : List UInt8}, v.files L = Function.update (u.files L) ip data →
      (∀ i < L.ninodes, v.typeOf L i = u.typeOf L i) → SameBut L ip u v := by
    intro u v data hfiles htype
    refine ⟨fun j hji => ?_, fun j hj _ => htype j hj⟩
    rw [hfiles, Function.update_of_ne hji]
  rw [Fs.createDots, wp_bind]
  refine h.wp_dirlink hip hiplt (fun _ => trivial) (fun _ => trivial) trivial (fun t _ hsame ht => ?_)
    fun t _ _ _ hfiles htype ht => ?_
  · rw [wp_ite, if_neg (by decide), wp_pure]
    exact ⟨ht, ⟨fun j _ => by rw [hsame.files], fun j hj _ => hsame.type j hj⟩, hsame.type ip hiplt,
      by simp⟩
  · rw [wp_ite, if_pos rfl]
    have hsame := hbut hfiles htype
    refine ht.wp_dirlink hip (h.lt hdp) (fun _ => trivial) (fun _ => trivial) trivial
      (fun u _ hsame' hu => ?_) fun u _ _ hnew hfiles' htype' hu => ?_
    · refine ⟨hu, ⟨fun j hji => ?_, fun j hj hji => ?_⟩, ?_, by simp⟩
      · rw [hsame'.files, hsame.files j hji]
      · rw [hsame'.type j hj, hsame.type j hj hji]
      · rw [hsame'.type ip hiplt, htype ip hiplt]
    · have hsame' := hbut hfiles' htype'
      refine ⟨hu, ⟨fun j hji => ?_, fun j hj hji => ?_⟩, ?_, fun _ => ?_⟩
      · rw [hsame'.files j hji, hsame.files j hji]
      · rw [hsame'.type j hj hji, hsame.type j hj hji]
      · rw [htype' ip hiplt, htype ip hiplt]
      · rw [hfiles', Function.update_self]
        refine isDirData_dots (hsmall (h.mem hip)) (h.ne_zero ip (h.mem hip)) (hsmall hdp)
          (h.ne_zero dp hdp) ?_ hnew
        rw [hfiles, Function.update_self, hempty]

theorem Tidy.createAt {type : FType} {name : Name}
    (h : Tidy L (fun j => Y j ∨ j = ip) (ip :: dp :: H) [ip, dp] s) (hnot : ip ∉ dp :: H)
    (htype : s.typeOf L ip = type.toUInt16) (hempty : s.files L ip = []) :
    wp (createAt (ops L) dp name type ip) (fun r t => Tidy L Y (r.toList ++ H) r.toList t)
      anyStop s := by
  -- once the entries `.` and `..` are there, if they are needed
  have hrest : ∀ (ok : Bool) t, Tidy L (fun j => Y j ∨ j = ip) (ip :: dp :: H) [ip, dp] t →
      (ok = true → t.typeOf L ip = 1 → IsDirData ip (t.files L ip)) →
      wp (if ok then do
        let ok ← (ops L).dirlink dp name ip
        if ok then Fs.createDone (ops L) dp ip type else Fs.createFail (ops L) dp ip
        else Fs.createFail (ops L) dp ip) (fun r t => Tidy L Y (r.toList ++ H) r.toList t)
        anyStop t := by
    intro ok t ht hdir
    rw [wp_ite]
    split
    · rename_i hok
      have hshape : Shape L Y t := by
        intro j hj hj1 hY
        by_cases hji : j = ip
        · subst hji
          exact hdir hok hj1
        · exact ht.shape j hj hj1 (not_or.mpr ⟨hY, hji⟩)
      refine .bind (Tidy.dirlink ⟨ht.held, ht.live, hshape⟩ (by simp) (ht.held.lt mem_cons_self)
        fun ok u hu => ?_)
      rw [wp_ite]
      split
      · exact hu.createDone
      · exact (hu.mono fun j => .inl).createFail hnot
    · exact ht.createFail hnot
  rw [Fs.createAt, wp_ite]
  split
  · refine .bind ((h.held.createDots mem_cons_self (by simp) hempty).mono_ok fun r t hdots => ?_)
    obtain ⟨ht, hsame, htype', hdir⟩ := hdots
    refine hrest r t ⟨ht, fun i hi => ?_, ?_⟩ fun hr _ => hdir hr
    · by_cases hii : i = ip
      · rw [hii, htype']
        exact h.live ip mem_cons_self
      · rw [hsame.type i (ht.lt hi) hii]
        exact h.live i hi
    · exact h.shape.sameBut hsame (fun _ _ hY => hY) fun _ hY => absurd (.inr rfl) hY
  · rename_i hnd
    rw [wp_bind, wp_pure]
    refine hrest true s h fun _ h1 => absurd ?_ hnd
    rw [htype] at h1
    cases type <;> simp_all [FType.toUInt16]

section

variable (h : Tidy L Y H [] s) (hcwd : cwd ∈ H)
include h hcwd

theorem Tidy.create {type : FType} {major minor : Int} :
    wp (Fs.create (ops L) cwd path type major minor)
      (fun r t => Tidy L Y (r.toList ++ H) r.toList t) anyStop s := by
  rw [Fs.create, wp_bind]
  refine h.nameiparent hcwd (fun t _ ht => ?_) fun dp name t _ _ _ hlive hshape ht => ?_
  · exact .pure ht
  · refine .bind (wp_ilockTidy ht hlive hshape fun t _ ht => ?_)
    have hnone : wp (do (ops L).iput dp; return none)
        (fun r t => Tidy L Y (r.toList ++ H) r.toList t) anyStop t := by
      exact ht.iputReturn fun _ _ ht => ht
    refine .bind (ht.held.wp_dirlookup mem_cons_self (fun _ => trivial) (fun _ => trivial) trivial
      (fun _ _ _ => ?_) fun _ k u _ hblock _ hu => ?_)
    · dsimp only
      rw [wp_bind]
      refine ht.held.wp_ialloc (fun _ => trivial) hnone fun ip u hfree htype hfiles hsame hu => ?_
      have hnot : ip ∉ dp :: H := fun hmem => ht.live ip hmem hfree
      have hne : ∀ j ∈ dp :: H, j ≠ ip := fun j hj hji => hnot (hji ▸ hj)
      have hlive : ∀ j ∈ dp :: H, u.typeOf L j ≠ 0 := by
        intro j hj
        rw [hsame.type j (ht.held.lt hj) (hne j hj)]
        exact ht.live j hj
      have hshape : Shape L (fun j => Y j ∨ j = ip) u :=
        ht.shape.sameBut hsame (fun j _ hY hyj => hY (.inl hyj)) fun _ hY => absurd (.inr rfl) hY
      refine .bind (wp_ilockTidy hu hlive hshape fun v hblock hv => ?_)
      refine .bind (hv.held.wp_setup mem_cons_self fun w hsame' hw => ?_)
      refine (hv.of_same hsame' hw).createAt hnot ?_ ?_
      · rw [hsame'.type ip (hw.lt mem_cons_self), typeOf, hblock]
        exact htype
      · rw [hsame'.files, (Same.of_block hblock).files, hfiles]
        exact files_eq_nil (.inl hfree)
    · dsimp only
      rw [wp_bind]
      have hsame := Same.of_block (L := L) hblock
      have hlive' : ∀ i ∈ dp :: H, u.typeOf L i ≠ 0 := by
        intro i hi
        rw [hsame.type i (ht.held.lt hi)]
        exact ht.live i hi
      refine (hu.perm (List.Perm.swap ..)).wp_iputCalm (W := []) (by simp) (by simp)
        fun v hcalm hkeep hv => ?_
      rw [wp_bind]
      refine wp_ilockTidy hv (fun i hi => ?_) ((ht.shape.calm hsame.calm).calm hcalm) fun w _ hw => ?_
      · rw [hkeep i (.tail _ hi)]
        exact hlive' i (.tail _ hi)
      refine .bind (wp_type fun x => ?_)
      rw [wp_ite]
      split
      · exact .pure hw
      · exact hw.iputReturn fun _ _ ht => ht

theorem Tidy.sysMake {type : FType} {major minor : Int} :
    wp (Fs.sysMake (ops L) cwd path type major minor) (fun _ t => Tidy L Y H [] t) anyStop s := by
  rw [Fs.sysMake, wp_ite]
  split
  · exact .pure h
  · refine .bind ((h.create hcwd).mono_ok fun r t ht => ?_)
    cases r with
    | none =>
      exact .pure ht
    | some ip =>
      dsimp only
      exact Tidy.iputReturn (show Tidy L Y (ip :: H) [ip] t from ht) fun _ _ hu => hu

/-! ## `sys_open` and `sys_chdir` -/

theorem Tidy.openNamei {omode : Nat} :
    wp (Fs.openNamei (ops L) cwd path omode) (fun r t => Tidy L Y (r.toList ++ H) r.toList t)
      anyStop s := by
  rw [Fs.openNamei, wp_bind]
  refine h.namei hcwd (fun t ht => ?_) fun ip t hlive hshape ht => ?_
  · exact .pure ht
  · refine .bind (wp_ilockTidy ht hlive hshape fun u _ hu => ?_)
    refine .bind (wp_type fun x => ?_)
    rw [wp_ite]
    split
    · exact hu.iputReturn fun _ _ ht => ht
    · exact .pure hu

theorem Tidy.openInode {omode : Nat} :
    wp (Fs.openInode (ops L) cwd path omode) (fun r t => Tidy L Y (r.toList ++ H) r.toList t)
      anyStop s := by
  -- once there is an inode, or not
  have hrest : ∀ f : Option Nat → V (Option Nat), f none = pure none → (∀ ip, f (some ip) = do
      let type ← (ops L).type ip
      let major ← (ops L).major ip
      if type = .device ∧ (major < 0 ∨ ndev ≤ major) then
        (ops L).iput ip
        return none
      else return some ip) → ∀ r t, Tidy L Y (r.toList ++ H) r.toList t →
        wp (f r) (fun r t => Tidy L Y (r.toList ++ H) r.toList t) anyStop t := by
    intro f hnone hsome r t ht
    cases r with
    | none =>
      rw [hnone, wp_pure]
      exact ht
    | some ip =>
      rw [hsome, wp_bind]
      refine wp_type fun x => ?_
      refine .bind (wp_major fun y => ?_)
      rw [wp_ite]
      split
      · exact Tidy.iputReturn (show Tidy L Y (ip :: H) [ip] t from ht) fun _ _ hu => hu
      · exact .pure ht
  rw [Fs.openInode, wp_ite]
  split
  · exact .pure h
  · rw [wp_ite]
    split
    · exact .bind ((h.create hcwd).mono_ok (hrest _ (by rfl) fun _ => by rfl))
    · exact .bind ((h.openNamei hcwd).mono_ok (hrest _ (by rfl) fun _ => by rfl))

theorem Tidy.openTrunc {omode : Nat} {room : Bool} :
    wp (Fs.openTrunc (ops L) cwd path omode room)
      (fun r t => Tidy L Y (r.toList ++ H) r.toList t) anyStop s := by
  rw [Fs.openTrunc, wp_bind]
  refine (h.openInode hcwd).mono_ok fun r t ht => ?_
  cases r with
  | none =>
    exact .pure ht
  | some ip =>
    replace ht : Tidy L Y (ip :: H) [ip] t := ht
    dsimp only
    rw [wp_ite]
    split
    · refine .bind (wp_typeOf ht.held mem_cons_self ?_)
      rw [wp_ite]
      split
      · rename_i htype
        have hne : t.typeOf L ip ≠ 1 := by
          intro h1
          have hdir : (L.dinode t.block ip).ftype = .dir := Dinode.ftype_eq_dir.mpr h1
          exact absurd (hdir.symm.trans htype.2) (by decide)
        refine .bind (ht.held.wp_itrunc mem_cons_self fun u hsame htype' hu => ?_)
        refine .bind (hu.wp_iunlock mem_cons_self ?_)
        refine .pure (⟨hu, fun i hi => ?_, ht.shape.sameBut hsame (fun _ _ hY => hY) fun h1 =>
          absurd (htype'.symm.trans h1) hne⟩)
        by_cases hii : i = ip
        · rw [hii, htype']
          exact ht.live ip mem_cons_self
        · rw [hsame.type i (hu.lt hi) hii]
          exact ht.live i hi
      · refine .bind (ht.held.wp_iunlock mem_cons_self ?_)
        exact .pure ht
    · exact ht.iputReturn fun _ _ ht => ht

end

theorem Tidy.changeDir (h : Tidy L Y (cwd :: H) [] s) :
    wp (Fs.changeDir (ops L) cwd path) (fun r t => Tidy L Y (r.getD cwd :: H) [] t) anyStop s := by
  rw [Fs.changeDir, wp_ite]
  split
  · exact .pure h
  · refine .bind (h.namei mem_cons_self (fun t ht => ?_) fun ip t hlive hshape ht => ?_)
    · exact .pure ht
    · refine .bind (wp_ilockTidy ht hlive hshape fun u _ hu => ?_)
      refine .bind (wp_type fun x => ?_)
      rw [wp_ite]
      split
      · exact hu.iputReturn fun _ _ ht => ht
      · exact .bind (hu.held.wp_iunlock mem_cons_self
          ((hu.perm (List.Perm.swap ..)).iputReturn fun _ _ ht => ht))

/-! ## `sys_link` -/

theorem Tidy.sysLinkBad (h : Tidy L Y (ip :: H) [] s) :
    wp (Fs.sysLinkBad (ops L) ip) (fun _ t => Tidy L Y H [] t) anyStop s := by
  rw [Fs.sysLinkBad, wp_bind]
  refine h.ilock mem_cons_self fun t _ ht => ?_
  refine .bind (wp_nlink fun n => ?_)
  refine .bind (ht.setNlink mem_cons_self fun u _ _ hu => ?_)
  exact hu.iputReturn fun _ _ ht => ht

theorem Tidy.sysLink {old new : List Char} (h : Tidy L Y H [] s) (hcwd : cwd ∈ H) :
    wp (Fs.sysLink (ops L) cwd old new) (fun _ t => Tidy L Y H [] t) anyStop s := by
  rw [Fs.sysLink, wp_ite]
  split
  · exact .pure h
  · refine .bind (h.namei hcwd (fun t ht => ?_) fun ip t hlive hshape ht => ?_)
    · exact .pure ht
    · refine .bind (wp_ilockTidy ht hlive hshape fun u _ hu => ?_)
      refine .bind (wp_type fun x => ?_)
      rw [wp_ite]
      split
      · exact hu.iputReturn fun _ _ ht => ht
      · refine .bind (wp_nlink fun n => ?_)
        refine .bind (hu.setNlink mem_cons_self fun v _ _ hv => ?_)
        refine .bind (hv.held.wp_iunlock mem_cons_self ?_)
        refine .bind ((hv.weaken (nil_subset _)).nameiparent (.tail _ hcwd) (fun w _ hw => ?_)
          fun dp name w _ _ _ hlive hshape hw => ?_)
        · exact hw.sysLinkBad
        · refine .bind (wp_ilockTidy hw hlive hshape fun x _ hx => ?_)
          refine .bind (hx.dirlink mem_cons_self (hx.held.lt (by simp)) fun ok y hy => ?_)
          refine .bind (hy.iput (W := []) (by simp) (by simp) fun z _ hz => ?_)
          rw [wp_ite]
          split
          · exact hz.iputReturn fun _ _ ht => ht
          · exact hz.sysLinkBad

/-! ## `sys_unlink` -/

theorem Tidy.sysUnlinkDone {type : FType} (h : Tidy L Y (ip :: dp :: H) [ip, dp] s) :
    wp (Fs.sysUnlinkDone (ops L) dp ip type) (fun r t => r = 0 ∧ Calm L s t ∧ Tidy L Y H [] t)
      anyStop s := by
  have hrest : ∀ t, Calm L s t → Tidy L Y (ip :: dp :: H) [ip, dp] t → wp (do
      (ops L).iput dp
      let n ← (ops L).nlink ip
      (ops L).setNlink ip (n - 1)
      (ops L).iput ip
      return (0 : Int)) (fun r t => r = 0 ∧ Calm L s t ∧ Tidy L Y H [] t) anyStop t := by
    intro t hcalm ht
    refine .bind ((ht.perm (List.Perm.swap ..)).iput (W := [ip]) (by simp) (by simp)
      fun u hcalm₁ hu => ?_)
    refine .bind (wp_nlink fun n => ?_)
    refine .bind (hu.setNlink mem_cons_self fun v hsame _ hv => ?_)
    refine .bind (hv.iput (W := []) (by simp) (by simp) fun w hcalm₂ hw => ?_)
    exact .pure (⟨rfl, ((hcalm.calm hcalm₁).calm hsame.calm).calm hcalm₂, hw⟩)
  rw [Fs.sysUnlinkDone, wp_ite]
  split
  · refine .bind (wp_nlink fun n => ?_)
    exact .bind (h.setNlink (by simp) fun t hsame _ ht => hrest t hsame.calm ht)
  · exact hrest s (.refl s) h

/-- What the files become when entry `k` of a directory is cleared. -/
def cleared (L : Layout) (s : Vol) (dp k : Nat) : Files :=
  Function.update (s.files L) dp (overlay (s.files L dp) (16 * k) emptyBytes)

theorem Tidy.sysUnlinkAt {k : Nat} (h : Held L (ip :: dp :: H) [dp] s)
    (hlive : ∀ i ∈ dp :: H, s.typeOf L i ≠ 0) (hshape : Shape L Y s)
    (hk : k < (s.files L dp).length / 16)
    (h2 : IsDirData dp (s.files L dp) → 2 ≤ k) :
    wp (Fs.sysUnlinkAt (ops L) dp ip (16 * k)) (fun r t =>
      (r = 0 → Becomes L (cleared L s dp k) s t) ∧ (r ≠ 0 → Calm L s t) ∧ Tidy L Y H [] t)
      anyStop s := by
  rw [Fs.sysUnlinkAt, wp_bind]
  refine wp_ilockTidy h hlive hshape fun t hblock ht => ?_
  have hst := Same.of_block (L := L) hblock
  -- once it is known whether the directory is empty
  have hrest : ∀ (empty : Bool) type, wp (if empty then do
      let ok ← (ops L).clearEntry dp (16 * k)
      if ok then Fs.sysUnlinkDone (ops L) dp ip type else throw (.panic .unlinkWritei)
      else do
        (ops L).iput ip
        (ops L).iput dp
        return (-1 : Int)) (fun r t => (r = 0 → Becomes L (cleared L s dp k) s t) ∧
          (r ≠ 0 → Calm L s t) ∧ Tidy L Y H [] t) anyStop t := by
    intro empty type
    rw [wp_ite]
    split
    · rw [wp_bind]
      refine ht.held.wp_clearEntry (by simp) (by rwa [hst.files]) fun u hfiles htype hu => ?_
      have hbecomes : Becomes L (cleared L s dp k) s u := by
        intro i hi _
        rw [htype i hi, hst.type i hi, hfiles, cleared, hst.files]
        exact ⟨rfl, rfl⟩
      have hu' : Tidy L Y (ip :: dp :: H) [ip, dp] u := by
        refine ⟨hu, fun i hi => by rw [htype i (hu.lt hi)]; exact ht.live i hi,
          ht.shape.write hfiles htype fun hdir => ?_⟩
        rw [hst.files] at hdir ⊢
        exact hdir.clear length_emptyBytes inumAt_emptyBytes (by omega) (h2 hdir)
      rw [wp_ite, if_pos rfl]
      refine hu'.sysUnlinkDone.mono_ok fun r v hdone => ?_
      obtain ⟨hr, hcalm, hv⟩ := hdone
      exact ⟨fun _ => hbecomes.calm hcalm, fun hne => absurd hr hne, hv⟩
    · refine .bind (ht.iput (W := []) (by simp) (by simp) fun u hcalm hu => ?_)
      refine .bind (hu.iput (W := []) (by simp) (by simp) fun v hcalm' hv => ?_)
      rw [wp_pure]
      exact ⟨fun h0 => absurd h0 (by decide), fun _ => (hst.calm.calm hcalm).calm hcalm', hv⟩
  refine .bind (wp_nlink fun n => ?_)
  refine .bind (wp_type fun type => ?_)
  rw [wp_ite]
  split
  · rw [wp_throw]
    trivial
  · rw [wp_ite]
    split
    · rw [wp_bind]
      show wp (isdirempty L ip) _ _ _
      rw [isdirempty, wp_bind, wp_get]
      exact ht.held.consistent.toSound.wp_isdiremptyFrom (k := 2)
        (ht.held.valid mem_cons_self) trivial fun r => hrest r type
    · rw [wp_bind, wp_pure]
      exact hrest true type

/-- **`sys_unlink`** clears one entry, which is neither `.` nor `..`, or does nothing. -/
theorem Tidy.sysUnlink (h : Tidy L Y H [] s) (hcwd : cwd ∈ H) (hpath : CString path) :
    wp (Fs.sysUnlink (ops L) cwd path) (fun r t =>
      (r = 0 → ∃ dp name u k, Fs.nameiparent (ops L) cwd path s = .ok (some (dp, name)) u ∧
        dp < L.ninodes ∧ s.typeOf L dp = 1 ∧ find (s.files L dp) (nameKey name) = some k ∧
        Becomes L (cleared L s dp k) s t) ∧
      (r ≠ 0 → Calm L s t) ∧ Tidy L Y H [] t) anyStop s := by
  rw [Fs.sysUnlink, wp_ite]
  split
  · exact .pure (⟨fun h0 => absurd h0 (by decide), fun _ => .refl s, h⟩)
  · refine .bind (h.nameiparent hcwd (fun t hcalm ht => ?_)
      fun dp name t hexec hname hcalm hlive hshape ht => ?_)
    · exact .pure (⟨fun h0 => absurd h0 (by decide), fun _ => hcalm, ht⟩)
    · refine .bind (wp_ilockTidy ht hlive hshape fun u hblock hu => ?_)
      have hcalm' : Calm L s u := hcalm.calm (Same.of_block hblock).calm
      obtain ⟨hclean, hlen⟩ := elems_spec hpath hname
      have hput : wp (do (ops L).iput dp; return (-1 : Int)) (fun r t =>
          (r = 0 → ∃ dp name u k, Fs.nameiparent (ops L) cwd path s = .ok (some (dp, name)) u ∧
            dp < L.ninodes ∧ s.typeOf L dp = 1 ∧ find (s.files L dp) (nameKey name) = some k ∧
            Becomes L (cleared L s dp k) s t) ∧
          (r ≠ 0 → Calm L s t) ∧ Tidy L Y H [] t) anyStop u := by
        refine .bind (hu.iput (W := []) (by simp) (by simp) fun v hcalm₁ hv => ?_)
        exact .pure (⟨fun h0 => absurd h0 (by decide), fun _ => hcalm'.calm hcalm₁, hv⟩)
      rw [wp_ite]
      split
      · exact hput
      · rename_i hdots
        rw [not_or] at hdots
        rw [wp_bind]
        refine hu.held.wp_dirlookup mem_cons_self (fun _ => trivial) (fun _ => trivial) trivial
          (fun _ _ _ => hput) fun hdir k v hfind hblock' _ hv => ?_
        have hdplt := hu.held.lt (mem_cons_self (a := dp) (l := H))
        have hdpne := hu.live dp mem_cons_self
        have huv := Same.of_block (L := L) hblock'
        have hfiles : v.files L dp = s.files L dp := by
          rw [huv.files]
          exact (hcalm' dp hdplt hdpne).2
        rw [← huv.files] at hfind
        have hklt := List.mem_range.mp (List.mem_of_find?_eq_some hfind)
        refine (Tidy.sysUnlinkAt (Y := Y) hv (fun i hi => ?_) (hu.shape.calm huv.calm) hklt
          fun hdir => ?_).mono_ok fun r w hrw => ⟨fun hr => ?_, fun hr => ?_, hrw.2.2⟩
        · rw [huv.type i (hu.held.lt hi)]
          exact hu.live i hi
        · refine hdir.two_le (find_eq_some hdir.size hfind) (fun heq => hdots.1 ?_)
            fun heq => hdots.2 ?_
          · exact nameKey_inj hclean (by decide) hlen (by decide) heq
          · exact nameKey_inj hclean (by decide) hlen (by decide) heq
        · refine ⟨dp, name, t, k, hexec, hdplt, (hcalm' dp hdplt hdpne).1.symm.trans hdir,
            hfiles ▸ hfind, ?_⟩
          exact Calm.becomes (f := fun a => overlay a (16 * k) emptyBytes) (hcalm'.calm huv.calm) hdplt
            (by rwa [huv.type dp hdplt]) (hrw.1 hr)
        · exact (hcalm'.calm huv.calm).calm (hrw.2.1 hr)

end Calls

end Vol

end Xv6.Fs
