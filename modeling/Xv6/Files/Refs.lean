import Xv6.Files.Accounts
import Mathlib.Data.Finset.Prod
import Mathlib.Data.Finset.Sum

/-!
# Reference counts between system calls

Every call, on every path through it, gives back what it has taken.  Each is run against the rules of
`At`, from the state in which the reference of the current directory is in hand.
-/

open Function (update update_apply update_comm update_eq_iff update_eq_self update_idem update_of_ne update_self)

namespace Xv6.Files

open Prog Fs

attribute [local irreducible] wp

/-! ## Between calls -/

/-- Processes that are not in use have no files, and descriptors are in their range. -/
structure Tidy (s : State) : Prop where
  dead : ∀ q, s.alive q = false → (∀ fd, s.ofile q fd = none) ∧ s.cwd q = none
  alive : ∀ q, s.alive q = true → q < nproc
  slots : ∀ q fd f, s.ofile q fd = some f → fd < nofile ∧ f < nfile

structure Good (s : State) : Prop where
  counted : ∃ ext, At s.slots s.cwd [] [] ext 0 s s
  tidy : Tidy s

/-- Process `p` begins a call in directory `c`, to which it has the reference. -/
structure Calling (p c : Nat) (ext : Nat → Int) (s : State) : Prop where
  start : At s.slots (update s.cwd p none) [] [c] ext 0 s s
  cwd : s.cwd p = some c
  alive : s.alive p = true
  tidy : Tidy s

section Calls

variable {L : Layout} {o : Nat × Nat → Option Nat} {d : Nat → Option Nat} {F H : List Nat}
  {ext ext' : Nat → Int} {n : Int} {b p c : Nat} {s t k₀ : State}

theorem Tidy.of_same (h : Tidy s) (halive : t.alive = s.alive) (hofile : t.ofile = s.ofile)
    (hcwd : t.cwd = s.cwd) : Tidy t :=
  ⟨by rw [halive, hofile, hcwd]; exact h.dead, by rw [halive]; exact h.alive,
    by rw [hofile]; exact h.slots⟩

variable {dp f fd i off q rf wf : Nat}

theorem Tidy.update {v : Option Nat} (h : Tidy s) (hp : s.alive p = true)
    (halive : t.alive = s.alive) (hcwd : t.cwd = s.cwd)
    (hslots : t.slots = update s.slots (p, fd) v)
    (hv : ∀ f, v = some f → fd < nofile ∧ f < nfile) : Tidy t := by
  have hofile : ∀ q e, t.ofile q e = if (q, e) = (p, fd) then v else s.ofile q e := by
    intro q e
    show t.slots (q, e) = _
    rw [hslots, update_apply]
    rfl
  refine ⟨fun q hq => ⟨fun e => ?_, ?_⟩, by rw [halive]; exact h.alive, fun q e f hf => ?_⟩
  · have hne : (q, e) ≠ (p, fd) := by
      rintro ⟨rfl, rfl⟩
      rw [halive, hp] at hq
      cases hq
    rw [hofile, if_neg hne]
    exact (h.dead q (halive ▸ hq)).1 e
  · rw [hcwd]
    exact (h.dead q (halive ▸ hq)).2
  · rw [hofile] at hf
    split at hf
    · cases ‹(q, e) = (p, fd)›
      exact hv f hf
    · exact h.slots q e f hf

theorem Good.of_at (h : At t.slots d [] [c] ext n t t) (hn : n = 0) (hp : d p = none)
    (hcwd : t.cwd = update d p (some c)) (htidy : Tidy t) : Good t := by
  subst hn
  have hput := h.putDir hp
  rw [← hcwd] at hput
  exact ⟨⟨_, hput⟩, htidy⟩

theorem Calling.finish (h : Calling p c ext s)
    (ht : At t.slots (update s.cwd p none) [] [c] ext' 0 t t) (hcwd : t.cwd = s.cwd)
    (htidy : Tidy t) : Good t := by
  refine Good.of_at ht rfl (update_self ..) ?_ htidy
  rw [update_idem, hcwd, ← h.cwd, update_eq_self]

theorem slots_of_ofile (h : t.ofile = s.ofile) : t.slots = s.slots := by
  funext x
  rw [State.slots, State.slots, h]

theorem At.slots_eq (h : At o d F H ext n s t) : t.slots = s.slots := slots_of_ofile h.ofile

theorem Calling.done (h : Calling p c ext s)
    (ht : At s.slots (update s.cwd p none) [] [c] ext' 0 s t) : Good t :=
  h.finish (ht.slots_eq ▸ ht.rebase) ht.cwd (h.tidy.of_same ht.alive ht.ofile ht.cwd)

theorem Calling.store {u : State} (h : Calling p c ext s)
    (hu : At s.slots (update s.cwd p none) [f] [c] ext' 0 t u)
    (hslots : t.slots = update s.slots (p, fd) (some f)) (hfree : s.slots (p, fd) = none)
    (hcwd : t.cwd = s.cwd) (halive : t.alive = s.alive) (hfd : fd < nofile) (hf : f < nfile) :
    Good u := by
  have hslots' := hu.slots_eq.trans hslots
  refine h.finish (hslots' ▸ (hu.putSlot hfree).rebase) (hu.cwd.trans hcwd)
    (h.tidy.update h.alive (hu.alive.trans halive) (hu.cwd.trans hcwd) hslots' ?_)
  rintro _ ⟨⟩
  exact ⟨hfd, hf⟩

theorem Good.calling (h : Good s) (hp : s.cwd p = some c) (hlive : s.alive p = true) :
    ∃ ext, Calling p c ext s ∧ Vol.InUse ext c s.vol.inuse := by
  obtain ⟨ext, hext⟩ := h.counted
  have hstart := hext.takeDir hp
  refine ⟨_, ⟨hstart, hp, hlive, h.tidy⟩, hstart.vol.table.congr fun i => ?_⟩
  rw [hstart.vol.ref i]

/-! ## Descriptors -/

theorem wp_argfd {fd : Int} {Q : Option (Nat × Nat) → State → Prop} {E : Stop → State → Prop}
    (hnone : Q none s) (hsome : ∀ fd f, s.slots (p, fd) = some f → Q (some (fd, f)) s) :
    wp (argfd p fd) Q E s := by
  rw [argfd, wp_bind, wp_get, wp_ite]
  split
  · exact .pure hnone
  · rw [wp_pure]
    cases hf : s.ofile p fd.toNat with
    | none => exact hnone
    | some f => exact hsome _ f hf

section

variable (h : Calling p c ext s)
include h

theorem Calling.wp_sysDup {fd : Int} : wp (sysDup p fd) (fun _ => Good) (stop b) s := by
  rw [sysDup, wp_bind]
  refine wp_argfd ?_ fun fd' f hf => ?_
  · exact .pure (h.done h.start)
  · refine .bind (h.start.fdalloc ?_ fun e t he hfree hslots hcwd halive hfile ht => ?_)
    · exact .pure (h.done h.start)
    · refine .bind (ht.filedup ?_ fun u hu => ?_)
      · have := (h.start.files f).pos hf
        rw [hfile]
        simpa using this
      · exact .pure (h.store hu hslots hfree hcwd halive he (h.tidy.slots p fd' f hf).2)

theorem Calling.wp_sysClose {fd : Int} : wp (sysClose L p fd) (fun _ => Good) (stop b) s := by
  rw [sysClose, wp_bind]
  refine wp_argfd ?_ fun fd f hf => ?_
  · exact .pure (h.done h.start)
  · refine .bind ((h.start.takeSlot hf).setOfile fun t hslots hcwd halive hfile ht => ?_)
    refine .bind (ht.fileclose fun ext' u hu => ?_)
    rw [wp_pure]
    have hslots' := hu.slots_eq.trans hslots
    exact h.finish (hslots' ▸ hu.rebase) (hu.cwd.trans hcwd)
      (h.tidy.update h.alive (hu.alive.trans halive) (hu.cwd.trans hcwd) hslots' nofun)

theorem Calling.closeBoth {u : State}
    (hu : At s.slots (update s.cwd p none) [wf, rf] [c] ext' 0 t u)
    (hslots : t.slots = s.slots) (hcwd : t.cwd = s.cwd) (halive : t.alive = s.alive) :
    wp (do
      fileclose L rf
      fileclose L wf
      return (-1 : Int)) (fun _ => Good) (stop b) u := by
  refine .bind ((hu.perm (.swap rf wf []) (.refl _)).fileclose fun ext' w hw => ?_)
  refine .bind (hw.fileclose fun ext' x hx => ?_)
  rw [wp_pure]
  have hofile : t.ofile = s.ofile := by
    funext q e
    exact congrFun hslots (q, e)
  exact h.done { hx with
    ofile := hx.ofile.trans hofile, cwd := hx.cwd.trans hcwd, alive := hx.alive.trans halive }

theorem Calling.wp_sysPipe {page out0 out1 : Bool} :
    wp (sysPipe L p page out0 out1) (fun _ => Good) (stop b) s := by
  rw [sysPipe, wp_bind]
  refine h.start.pipealloc (fun ext' t ht => ?_) fun rf wf t hrf hwf ht => ?_
  · exact .pure (h.done ht)
  refine .bind (ht.fdalloc ?_ fun fd0 u hfd0 hfree0 hslots0 hcwd0 halive0 hfile0 hu => ?_)
  · dsimp only
    exact h.closeBoth ht rfl rfl rfl
  dsimp only
  rw [ht.slots_eq] at hfree0 hslots0
  rw [ht.cwd] at hcwd0
  rw [ht.alive] at halive0
  have hback : update u.slots (p, fd0) none = s.slots := by
    rw [hslots0, update_idem, ← hfree0, update_eq_self]
  refine .bind (hu.fdalloc ?_ fun fd1 v hfd1 hfree1 hslots1 hcwd1 halive1 hfile1 hv => ?_)
  · refine .bind (hu.setOfile fun v hslots hcwd halive _ hv => ?_)
    exact h.closeBoth hv (hslots.trans hback) (hcwd.trans hcwd0) (halive.trans halive0)
  dsimp only
  have hne : (p, fd0) ≠ (p, fd1) := by
    intro heq
    rw [← heq, hslots0, update_self] at hfree1
    cases hfree1
  rw [wp_ite]
  split
  · rw [wp_pure]
    have hput := (hv.perm (.swap rf wf []) (.refl _)).putSlot hfree0
    have hput' := hput.putSlot (x := (p, fd1)) (by rw [← hslots0]; exact hfree1)
    rw [← hslots0, ← hslots1] at hput'
    have htidy := h.tidy.update h.alive halive0 hcwd0 hslots0 (v := some rf) (by
      rintro _ ⟨⟩
      exact ⟨hfd0, hrf⟩)
    refine h.finish hput' (hcwd1.trans hcwd0)
      (htidy.update (halive0 ▸ h.alive) halive1 hcwd1 hslots1 ?_)
    rintro _ ⟨⟩
    exact ⟨hfd1, hwf⟩
  · refine .bind (hv.setOfile fun w hslotsw hcwdw halivew _ hw => ?_)
    refine .bind (hw.setOfile fun x hslotsx hcwdx halivex _ hx => ?_)
    refine h.closeBoth hx ?_ (hcwdx.trans (hcwdw.trans (hcwd1.trans hcwd0)))
      (halivex.trans (halivew.trans (halive1.trans halive0)))
    rw [hslotsx, hslotsw, hslots1, update_comm hne.symm, update_idem, hback]
    rw [hslots0, update_of_ne hne.symm] at hfree1
    exact update_eq_iff.mpr ⟨hfree1.symm, fun _ _ => rfl⟩

/-! ## Inodes -/

theorem Calling.putInode {r : Int} (ht : At s.slots (update s.cwd p none) [] [i, c] ext' 1 s t) :
    wp (do
      Files.onVol (Vol.iput L i)
      Files.endOp
      return r) (fun _ => Good) (stop b) t := by
  refine .bind (ht.iput fun u hu => ?_)
  refine .bind (At.endOp (n := 0) hu fun v hv => ?_)
  exact .pure (h.done hv)

theorem Calling.leave {r : Int} (ht : At s.slots (update s.cwd p none) [] [c] ext' 1 s t) :
    wp (do
      Files.endOp
      return r) (fun _ => Good) (stop b) t := by
  refine .bind (At.endOp (n := 0) ht fun v hv => ?_)
  exact .pure (h.done hv)

theorem Calling.wp_linkBad (ht : At s.slots (update s.cwd p none) [] [i, c] ext' 1 s t) :
    wp (sysLink.bad L i) (fun _ => Good) (stop b) t := by
  rw [sysLink.bad, wp_bind]
  refine ht.same (Vol.sameTable_ilock i) fun _ u hu => ?_
  refine .bind (hu.look fun x v hv => ?_)
  exact .bind (hv.setNlink fun w hw => h.putInode hw)

theorem Calling.wp_sysLink (hb : Vol.InUse ext c b)
    {old new : Option (List Char)} : wp (sysLink L c old new) (fun _ => Good) (stop b) s := by
  rw [sysLink]
  split
  · refine .bind (h.start.beginOp fun t ht => ?_)
    refine .bind (ht.namei hb (fun t ht => h.leave ht) fun i t ht => ?_)
    refine .bind (ht.same (Vol.sameTable_ilock i) fun _ t ht => ?_)
    refine .bind (ht.look fun type t ht => ?_)
    rw [wp_ite]
    split
    · exact h.putInode ht
    · refine .bind (ht.look fun x t ht => ?_)
      refine .bind (ht.setNlink fun t ht => ?_)
      refine .bind ((ht.perm (.refl _) (.swap c i [])).nameiparent hb (by simp)
        (fun t ht => h.wp_linkBad (ht.perm (.refl _) (.swap i c []))) fun dp name t ht => ?_)
      refine .bind (ht.same (Vol.sameTable_ilock dp) fun _ t ht => ?_)
      rw [wp_bind]
      refine ht.onVol (fun _ => [dp, c, i]) (ht.vol.wp_dirlink hb ?_ fun _ _ => id) fun r t ht => ?_
      · have := Vol.length_erase_cons c [i] [dp]
        simp only [List.singleton_append, List.length_singleton] at this
        omega
      rw [wp_ite]
      split
      · exact .bind (ht.iput fun t ht => h.putInode (ht.perm (.refl _) (.swap i c [])))
      · exact .bind (ht.iput fun t ht => h.wp_linkBad (ht.perm (.refl _) (.swap i c [])))
  · exact .pure (h.done h.start)

theorem Calling.wp_unlinkFound (ht : At s.slots (update s.cwd p none) [] [i, dp, c] ext 1 s t) :
    wp (sysUnlink.found L dp i off) (fun _ => Good) (stop b) t := by
  rw [sysUnlink.found]
  refine .bind (ht.same (Vol.sameTable_ilock i) fun _ t ht => ?_)
  refine .bind (ht.look fun n t ht => ?_)
  rw [wp_ite]
  split
  · rw [wp_throw]
    exact nofun
  refine .bind (ht.look fun type t ht => ?_)
  refine .bind (ht.same ?_ fun r t ht => ?_)
  · refine .ite (fun _ => .get fun s => ?_) fun _ => .pure _
    exact Vol.sameTable_isdiremptyFrom i _ _ s
  rw [wp_ite]
  split
  · -- both inodes are given back
    have hput : ∀ t, At s.slots (update s.cwd p none) [] [i, dp, c] ext 1 s t → wp (do
        onVol (Vol.iput L dp)
        let n ← onVol ((Vol.ops L).nlink i)
        onVol ((Vol.ops L).setNlink i (n - 1))
        onVol (Vol.iput L i)
        endOp
        return (0 : Int)) (fun _ => Good) (stop b) t := by
      intro t ht
      refine .bind ((ht.perm (.refl _) (.swap dp i [c])).iput fun t ht => ?_)
      refine .bind (ht.look fun n t ht => ?_)
      exact .bind (ht.setNlink fun t ht => h.putInode ht)
    rw [wp_bind]
    refine ht.same ((Vol.sameTable_writei dp _ _ _ _).bind fun _ => .pure _) fun r t ht => ?_
    rw [wp_ite]
    split
    · rw [wp_ite]
      split
      · refine .bind (ht.look fun n t ht => ?_)
        exact .bind (ht.setNlink fun t ht => hput t ht)
      · exact hput t ht
    · rw [wp_throw]
      exact nofun
  · exact .bind (ht.iput fun t ht => h.putInode ht)

variable {path : Option (List Char)}

theorem Calling.wp_sysUnlink (hb : Vol.InUse ext c b) : wp (sysUnlink L c path) (fun _ => Good)
    (stop b) s := by
  have hbad : ∀ dp t, At s.slots (update s.cwd p none) [] [dp, c] ext 1 s t →
      wp (sysUnlink.bad L dp) (fun _ => Good) (stop b) t := fun dp t ht => h.putInode ht
  rw [sysUnlink]
  split
  · exact .pure (h.done h.start)
  · refine .bind (h.start.beginOp fun t ht => ?_)
    refine .bind (ht.nameiparent hb (by simp) (fun t ht => h.leave ht) fun dp name t ht => ?_)
    refine .bind (ht.same (Vol.sameTable_ilock dp) fun _ t ht => ?_)
    rw [wp_ite]
    split
    · exact hbad dp t ht
    · refine .bind (ht.onVol (fun r => r.toList.map Prod.fst ++ [dp, c]) (ht.vol.wp_dirlookup hb ?_
        (fun _ => id) fun _ _ _ _ => id) fun r t ht => ?_)
      · have := Vol.length_erase_cons c [] [dp]
        simp only [List.singleton_append, List.length_singleton, List.length_nil] at this
        omega
      cases r with
      | none => exact hbad dp t ht
      | some r => exact h.wp_unlinkFound ht

theorem Calling.wp_sysOpen (hb : Vol.InUse ext c b) {omode : Nat} :
    wp (sysOpen L p c path omode) (fun _ => Good) (stop b) s := by
  have hbad : ∀ ext' i t, At s.slots (update s.cwd p none) [] [i, c] ext' 1 s t →
      wp (sysOpen.bad L i) (fun _ => Good) (stop b) t := fun ext' i t ht => h.putInode ht
  rw [sysOpen]
  split
  · exact .pure (h.done h.start)
  · refine .bind (h.start.beginOp fun t ht => ?_)
    refine .bind (ht.getInode ?_ (fun t ht => h.leave ht) fun i t ht => ?_)
    · split
      · exact ht.vol.wp_create hb fun _ _ => id
      · exact ht.vol.wp_openNamei hb fun _ _ => id
    refine .bind (ht.look fun type t ht => ?_)
    refine .bind (ht.look fun major t ht => ?_)
    rw [wp_ite]
    split
    · exact hbad ext i t ht
    · refine .bind (ht.filealloc (hbad ext i t ht) fun f t hlt htype hpos _ ht => ?_)
      refine .bind (ht.fdalloc ?_ fun fd u hfd hfree hslots hcwd halive hfile hu => ?_)
      · exact .bind (ht.fileclose fun ext' u hu => hbad ext' i u hu)
      · rw [ht.slots_eq] at hfree hslots
        rw [ht.cwd] at hcwd
        rw [ht.alive] at halive
        -- what is left, once the file has its inode
        have hend : ∀ ext' v, At s.slots (update s.cwd p none) [f] [c] ext' 1 u v →
            wp (do
              Files.endOp
              return (fd : Int)) (fun _ => Good) (stop b) v := by
          intro ext' v hv
          refine .bind (At.endOp (n := 0) hv fun w hw => ?_)
          exact .pure (h.store hw hslots hfree hcwd halive hfd hlt)
        dsimp only
        rw [wp_bind, wp_get, wp_bind, Files.setFile, wp_modify]
        have hopen := hu.openInode (f := f) (x := { u.file f with
          type := if type = .device then .device else .inode
          ip := i
          off := if type = .device then (u.file f).off else 0
          major := if type = .device then major else (u.file f).major
          readable := omode &&& sysOpen.oWronly = 0
          writable := omode &&& sysOpen.oWronly ≠ 0 ∨ omode &&& sysOpen.oRdwr ≠ 0 })
          (by rw [hfile, htype]) rfl (by rwa [hfile]) (File.inode_of_open rfl).1
          (File.inode_of_open rfl).2
        rw [wp_ite]
        split
        · exact .bind (hopen.same (Vol.sameTable_itrunc i) fun _ v hv => hend _ v hv)
        · exact hend _ _ hopen

theorem Calling.wp_sysMake (hb : Vol.InUse ext c b) {type : FType} {major minor : Int} :
    wp (sysMake L c path type major minor) (fun _ => Good) (stop b) s := by
  rw [sysMake, wp_bind]
  refine h.start.beginOp fun t ht => ?_
  split
  · exact h.leave ht
  · exact .bind (ht.getInode (ht.vol.wp_create hb fun _ _ => id) (fun t ht => h.leave ht)
      fun i t ht => h.putInode ht)

end

theorem Tidy.setCwd (h : Tidy s) (hp : s.alive p = true) (halive : t.alive = s.alive)
    (hofile : t.ofile = s.ofile) (hcwd : ∀ q ≠ p, t.cwd q = s.cwd q) : Tidy t := by
  refine ⟨fun q hq => ?_, by rw [halive]; exact h.alive, by rw [hofile]; exact h.slots⟩
  rw [halive] at hq
  have hqp : q ≠ p := by
    rintro rfl
    rw [hp] at hq
    cases hq
  rw [hofile, hcwd q hqp]
  exact h.dead q hq

theorem Calling.wp_sysChdir (h : Calling p c ext s) (hb : Vol.InUse ext c b) : wp
    (sysChdir L p c path) (fun _ => Good) (stop b) s := by
  rw [sysChdir, wp_bind]
  refine h.start.beginOp fun t ht => ?_
  split
  · exact h.leave ht
  · refine .bind (ht.namei hb (fun t ht => h.leave ht) fun i t ht => ?_)
    refine .bind (ht.same (Vol.sameTable_ilock i) fun _ t ht => ?_)
    refine .bind (ht.look fun type t ht => ?_)
    rw [wp_ite]
    split
    · exact h.putInode ht
    · refine .bind ((ht.perm (.refl _) (.swap c i [])).iput fun t ht => ?_)
      refine .bind (At.endOp (n := 0) ht fun t ht => ?_)
      refine .bind (ht.setCwd fun u hofile hcwd halive hu => ?_)
      rw [wp_pure]
      -- the new directory is that of the process
      have hslots : u.slots = s.slots := slots_of_ofile (hofile.trans ht.ofile)
      refine Good.of_at (hslots ▸ hu) rfl (update_self p none s.cwd) ?_
        (h.tidy.setCwd h.alive (halive.trans ht.alive) (hofile.trans ht.ofile) fun q hq => ?_)
      · rw [hcwd, ht.cwd, update_idem]
      · rw [hcwd, update_of_ne hq, ht.cwd]

/-! ## `exec` -/

theorem sameTable_readAll (i : Nat) (off n : UInt32) :
    Moves Vol.SameTable Vol.NotFull (readAll L i off n) :=
  (Vol.sameTable_readi i off n n.toNat).bind fun _ => .pure _

theorem sameTable_loadsegFrom (i : Nat) (off : UInt32) (sz f k : Nat) :
    Moves Vol.SameTable Vol.NotFull (loadsegFrom L i off sz f k) := by
  induction f generalizing k with
  | zero => exact .pure _
  | succ f ih =>
    refine .ite (fun _ => (sameTable_readAll i _ _).bind fun r => ?_) fun _ => .pure _
    cases r with
    | none => exact .pure _
    | some _ => exact ih (k + 1)

theorem sameTable_loadFrom (i : Nat) (room : Nat → Bool) (f k : Nat) (off : UInt32) :
    Moves Vol.SameTable Vol.NotFull (loadFrom L i room f k off) := by
  induction f generalizing k off with
  | zero => exact .pure _
  | succ f ih =>
    refine (sameTable_readAll i _ _).bind fun r => ?_
    cases r with
    | none => exact .pure _
    | some ph =>
      refine .ite (fun _ => ih _ _) fun _ => .ite (fun _ => .pure _) fun _ => .ite (fun _ => .pure _)
        fun _ => .ite (fun _ => .pure _) fun _ => .ite (fun _ => .pure _) fun _ => ?_
      exact (sameTable_loadsegFrom i _ _ _ _).bind fun _ => .ite (fun _ => ih _ _) fun _ => .pure _

theorem sameTable_load (i : Nat) (table : Bool) (room : Nat → Bool) :
    Moves Vol.SameTable Vol.NotFull (load L i table room) := by
  refine (sameTable_readAll i _ _).bind fun r => ?_
  cases r with
  | none => exact .pure _
  | some elf =>
    exact .ite (fun _ => .pure _) fun _ => .ite (fun _ => .pure _) fun _ => sameTable_loadFrom i _ _ _ _

theorem Calling.wp_sysExec (h : Calling p c ext s) (hb : Vol.InUse ext c b) {args table : Bool}
    {room : Nat → Bool} {argc : Option Nat} :
    wp (sysExec L c path args table room argc) (fun _ => Good) (stop b) s := by
  rw [sysExec]
  split
  · exact .pure (h.done h.start)
  · rw [wp_ite]
    split
    · rw [exec, wp_bind]
      refine h.start.beginOp fun t ht => ?_
      refine .bind (ht.namei hb (fun t ht => h.leave ht) fun i t ht => ?_)
      refine .bind (ht.same (Vol.sameTable_ilock i) fun _ t ht => ?_)
      refine .bind (ht.same (sameTable_load i table room) fun r t ht => ?_)
      rw [wp_ite]
      split
      · exact h.putInode ht
      · exact h.putInode ht
    · exact .pure (h.done h.start)

/-! ## Reading and writing -/

theorem At.addOff {Q : Unit → State → Prop} {E : Stop → State → Prop} {r : Int}
    (h : At o d F H ext n k₀ s) (hQ : ∀ t, At o d F H ext n k₀ t → Q () t) :
    wp (addOff f r) Q E s := by
  rw [Files.addOff, wp_ite]
  split
  · rw [wp_modify]
    exact hQ _ (h.change rfl (fun _ _ => rfl) rfl rfl (h.closed f))
  · exact .pure (hQ s h)

theorem Calling.wp_sysFstat (h : Calling p c ext s) {fd : Int} {out : Bool} :
    wp (sysFstat L p fd out) (fun _ => Good) (stop b) s := by
  rw [sysFstat, wp_bind]
  refine wp_argfd ?_ fun fd f _ => ?_
  · exact .pure (h.done h.start)
  · dsimp only
    have hstat : wp (do
        onVol (Vol.ilock L (s.file f).ip)
        return if out then (0 : Int) else -1) (fun _ => Good) (stop b) s := by
      refine .bind (h.start.same (Vol.sameTable_ilock _) fun _ t ht => ?_)
      exact .pure (h.done ht)
    rw [filestat, wp_bind, wp_get]
    cases (s.file f).type with
    | inode => exact hstat
    | device => exact hstat
    | pipe =>
      exact .pure (h.done h.start)
    | none =>
      exact .pure (h.done h.start)

theorem Calling.wp_sysRead (h : Calling p c ext s) {fd m : Int} {ok : Nat} {answer : Option Int} :
    wp (sysRead L p fd m ok answer) (fun _ => Good) (stop b) s := by
  have hdone : ∀ r : Int, wp (return r : K Int) (fun _ => Good) (stop b) s := by
    intro r
    exact .pure (h.done h.start)
  rw [sysRead, wp_bind]
  refine wp_argfd (hdone _) fun fd f _ => ?_
  dsimp only
  rw [fileread, wp_bind, wp_get, wp_ite]
  split
  · exact hdone _
  cases (s.file f).type with
  | pipe => exact hdone _
  | device =>
    dsimp only
    rw [wp_ite]
    split
    · exact hdone _
    · exact hdone _
  | inode =>
    refine .bind (h.start.same (Vol.sameTable_ilock _) fun _ t ht => ?_)
    refine .bind (ht.same (Vol.sameTable_readi _ _ _ _) fun r t ht => ?_)
    refine .bind (ht.addOff fun t ht => ?_)
    exact .pure (h.done ht)
  | none =>
    dsimp only
    rw [wp_throw]
    exact nofun

theorem Calling.wp_writeChunks (h : Calling p c ext s) {f : Nat} {m : Int} {src : Nat → UInt8}
    {ok fuel i : Nat} (ht : At s.slots (update s.cwd p none) [] [c] ext 0 s t) :
    wp (writeChunks L f m src ok fuel i) (fun _ => Good) (stop b) t := by
  induction fuel generalizing i t with
  | zero =>
    rw [writeChunks, wp_pure]
    exact h.done ht
  | succ fuel ih =>
    rw [writeChunks, wp_ite]
    split
    · dsimp only
      rw [wp_bind, wp_get, wp_bind]
      refine ht.beginOp fun t ht => ?_
      refine .bind (ht.same (Vol.sameTable_ilock _) fun _ t ht => ?_)
      refine .bind (ht.same (Vol.sameTable_writei _ _ _ _ _) fun r t ht => ?_)
      refine .bind (ht.addOff fun t ht => ?_)
      refine .bind (At.endOp (n := 0) ht fun t ht => ?_)
      rw [wp_ite]
      split
      · exact .pure (h.done ht)
      · exact ih ht
    · exact .pure (h.done ht)

theorem Calling.wp_sysWrite (h : Calling p c ext s) {fd m : Int} {src : Nat → UInt8} {ok : Nat}
    {answer : Option Int} : wp (sysWrite L p fd m src ok answer) (fun _ => Good) (stop b) s := by
  have hdone : ∀ r : Int, wp (return r : K Int) (fun _ => Good) (stop b) s := by
    intro r
    exact .pure (h.done h.start)
  rw [sysWrite, wp_bind]
  refine wp_argfd (hdone _) fun fd f _ => ?_
  dsimp only
  rw [filewrite, wp_bind, wp_get, wp_ite]
  split
  · exact hdone _
  cases (s.file f).type with
  | pipe => exact hdone _
  | device =>
    dsimp only
    rw [wp_ite]
    split
    · exact hdone _
    · exact hdone _
  | inode => exact h.wp_writeChunks h.start
  | none =>
    dsimp only
    rw [wp_throw]
    exact nofun

/-! ## `fork` and `exit` -/

/-- In the loop of `fork`: the descriptors below `fd` have been copied from `p` to `q`. -/
structure Copied (p q c : Nat) (ext : Nat → Int) (s : State) (fd : Nat) (t : State) : Prop where
  counted : At t.slots (update s.cwd p none) [] [c] ext 0 t t
  cwd : t.cwd = s.cwd
  alive : t.alive = s.alive
  slots : ∀ r e, t.slots (r, e) = if r = q ∧ e < fd then s.slots (p, e) else s.slots (r, e)

theorem Copied.step (h : Copied p q c ext s fd t) (hpq : p ≠ q)
    (hfree : ∀ e, s.slots (q, e) = none) :
    wp (forkFd p q fd) (fun _ => Copied p q c ext s (fd + 1)) (stop b) t := by
  have hold : t.slots (p, fd) = s.slots (p, fd) := by
    rw [h.slots, if_neg fun hp => hpq hp.1]
  have hnew : t.slots (q, fd) = none := by
    rw [h.slots, if_neg fun hq => Nat.lt_irrefl _ hq.2, hfree]
  -- what has been copied, if the new slot has the value of the old
  have hslots : ∀ u : State, u.slots = update t.slots (q, fd) (s.slots (p, fd)) →
      ∀ r e, u.slots (r, e) = if r = q ∧ e < fd + 1 then s.slots (p, e) else s.slots (r, e) := by
    intro u hu r e
    rw [hu, update_apply]
    split
    · rename_i heq
      obtain ⟨rfl, rfl⟩ := Prod.mk.inj heq
      rw [if_pos ⟨rfl, Nat.lt_succ_self _⟩]
    · rename_i hne
      rw [h.slots]
      refine if_congr ?_ rfl rfl
      simp only [Prod.mk.injEq] at hne
      omega
  rw [forkFd, wp_bind, wp_get]
  cases hf : t.ofile p fd with
  | none =>
    refine .pure ({ h with slots := hslots t ?_ })
    rw [← hold, show t.slots (p, fd) = none from hf]
    exact (update_eq_iff.mpr ⟨hnew.symm, fun _ _ => rfl⟩).symm
  | some f =>
    have hsrc : t.slots (p, fd) = some f := hf
    refine .bind (h.counted.filedup ?_ fun u hu => ?_)
    · have := (h.counted.files f).pos hsrc
      simpa using this
    · refine hu.setOfile fun v hv hcwd halive _ hat => ?_
      rw [hu.slots_eq] at hv
      refine ⟨hv ▸ (hat.putSlot hnew), hcwd.trans (hu.cwd.trans h.cwd),
        halive.trans (hu.alive.trans h.alive), hslots v ?_⟩
      rw [hv, ← hold, hsrc]

theorem Tidy.fork (h : Tidy s) (hq : q < nproc)
    (halive : t.alive = Function.update s.alive q true)
    (hcwd : t.cwd = Function.update s.cwd q (some c))
    (hofile : ∀ r e, t.ofile r e = if r = q ∧ e < nofile then s.ofile p e else s.ofile r e) :
    Tidy t := by
  refine ⟨fun r hr => ?_, fun r hr => ?_, fun r e f hf => ?_⟩
  · have hrq : r ≠ q := by
      rintro rfl
      rw [halive, update_self] at hr
      cases hr
    rw [halive, update_of_ne hrq] at hr
    refine ⟨fun e => ?_, ?_⟩
    · rw [hofile, if_neg fun hrq' => hrq hrq'.1]
      exact (h.dead r hr).1 e
    · rw [hcwd, update_of_ne hrq]
      exact (h.dead r hr).2
  · by_cases hrq : r = q
    · rw [hrq]
      exact hq
    · rw [halive, update_of_ne hrq] at hr
      exact h.alive r hr
  · rw [hofile] at hf
    split at hf
    · exact h.slots p e f hf
    · exact h.slots r e f hf

theorem Calling.wp_fork (h : Calling p c ext s) {q : Option Nat} {copied : Bool}
    (hq : Call.Enabled s (.fork q copied)) : wp (fork p c q copied) (fun _ => Good) (stop b) s := by
  cases q with
  | none =>
    rw [Files.fork, wp_pure]
    exact h.done h.start
  | some q =>
    obtain ⟨hlt, hdead⟩ := hq
    obtain ⟨hfree, hnodir⟩ := h.tidy.dead q hdead
    have hpq : p ≠ q := by
      rintro rfl
      rw [h.alive] at hdead
      cases hdead
    rw [Files.fork, wp_ite]
    split
    · refine .bind ((wp_times (Copied p q c ext s) ⟨h.start, rfl, rfl, fun r e => ?_⟩
        fun i t _ ht => ht.step hpq hfree).mono_ok fun _ t ht => ?_)
      · rw [if_neg fun hr => Nat.not_lt_zero _ hr.2]
      · refine .bind (ht.counted.onVol (fun _ => [c, c]) (ht.counted.vol.wp_idup List.mem_cons_self
          fun _ => id) fun _ u hu => ?_)
        have hdir : update s.cwd p none q = none := by
          rw [update_of_ne hpq.symm, hnodir]
        refine .bind ((hu.putDir hdir).setCwd fun v hofile hcwd halive hv => ?_)
        refine .bind (hv.setAlive fun w hofilew hcwdw halivew hw => ?_)
        rw [wp_pure]
        have hslots : w.slots = t.slots :=
          slots_of_ofile (hofilew.trans (hofile.trans hu.ofile))
        have hcwd' : w.cwd = update s.cwd q (some c) := by
          rw [hcwdw, hcwd, hu.cwd, ht.cwd]
        have halive' : w.alive = update s.alive q true := by
          rw [halivew, halive, hu.alive, ht.alive]
        refine Good.of_at (hslots ▸ hw) rfl (p := p) ?_ ?_ ?_
        · rw [update_of_ne hpq, update_self]
        · rw [hcwd', update_comm hpq.symm, update_idem, ← h.cwd,
            update_eq_self]
        · exact h.tidy.fork hlt halive' hcwd' fun r e => by
            rw [show w.ofile r e = t.slots (r, e) from congrFun hslots (r, e)]
            exact ht.slots r e
    · exact .pure (h.done h.start)

/-- In the loop of `exit`: the descriptors below `fd` have been closed. -/
structure Closed (p c : Nat) (s : State) (fd : Nat) (t : State) : Prop where
  counted : ∃ ext, At t.slots (update s.cwd p none) [] [c] ext 0 t t
  cwd : t.cwd = s.cwd
  alive : t.alive = s.alive
  slots : ∀ r e, t.slots (r, e) = if r = p ∧ e < fd then none else s.slots (r, e)

theorem Closed.step (h : Closed p c s fd t) :
    wp (exitFd L p fd) (fun _ => Closed p c s (fd + 1)) (stop b) t := by
  obtain ⟨ext, hext⟩ := h.counted
  have hslots : ∀ u : State, u.slots = update t.slots (p, fd) none →
      ∀ r e, u.slots (r, e) = if r = p ∧ e < fd + 1 then none else s.slots (r, e) := by
    intro u hu r e
    rw [hu, update_apply]
    split
    · rename_i heq
      obtain ⟨rfl, rfl⟩ := Prod.mk.inj heq
      rw [if_pos ⟨rfl, Nat.lt_succ_self _⟩]
    · rename_i hne
      rw [h.slots]
      refine if_congr ?_ rfl rfl
      simp only [Prod.mk.injEq] at hne
      omega
  rw [exitFd, wp_bind, wp_get]
  cases hf : t.ofile p fd with
  | none =>
    refine .pure ({ h with slots := hslots t ?_ })
    exact (update_eq_iff.mpr ⟨hf.symm, fun _ _ => rfl⟩).symm
  | some f =>
    dsimp only
    rw [wp_bind]
    -- the reference is dropped before the descriptor is cleared
    refine (hext.takeSlot (x := (p, fd)) hf).fileclose fun ext' u hu => ?_
    refine hu.setOfile fun v hv hcwd halive _ hat => ?_
    rw [hu.slots_eq] at hv
    exact ⟨⟨ext', hv ▸ hat⟩, hcwd.trans (hu.cwd.trans h.cwd),
      halive.trans (hu.alive.trans h.alive), hslots v hv⟩

theorem Tidy.exit (h : Tidy s) (halive : t.alive = Function.update s.alive p false)
    (hcwd : t.cwd = Function.update s.cwd p none)
    (hofile : ∀ r e, t.ofile r e = if r = p ∧ e < nofile then none else s.ofile r e) :
    Tidy t := by
  refine ⟨fun r hr => ⟨fun e => ?_, ?_⟩, fun r hr => ?_, fun r e f hf => ?_⟩
  · rw [hofile]
    split
    · rfl
    · rename_i hne
      cases he : s.ofile r e with
      | none => rfl
      | some f =>
        have hrp : r ≠ p := fun hrp => hne ⟨hrp, (h.slots r e f he).1⟩
        rw [halive, update_of_ne hrp] at hr
        rw [← he]
        exact (h.dead r hr).1 e
  · rw [hcwd, update_apply]
    split
    · rfl
    · rename_i hrp
      rw [halive, update_of_ne hrp] at hr
      exact (h.dead r hr).2
  · rw [halive, update_apply] at hr
    split at hr
    · cases hr
    · exact h.alive r hr
  · rw [hofile] at hf
    split at hf
    · cases hf
    · exact h.slots r e f hf

theorem Calling.wp_exit (h : Calling p c ext s) :
    wp (Files.exit L p c) (fun _ => Good) (stop b) s := by
  rw [Files.exit, wp_ite]
  split
  · rw [wp_throw]
    exact nofun
  · refine .bind ((wp_times (Closed p c s) ⟨⟨ext, h.start⟩, rfl, rfl, fun r e => ?_⟩
      fun i t _ ht => ht.step).mono_ok fun _ t ht => ?_)
    · rw [if_neg fun hr => Nat.not_lt_zero _ hr.2]
    · obtain ⟨ext', hext⟩ := ht.counted
      refine .bind (hext.beginOp fun u hu => ?_)
      refine .bind (hu.iput fun u hu => ?_)
      refine .bind (At.endOp (n := 0) hu fun u hu => ?_)
      refine .bind (hu.setCwd fun v hofile hcwd halive hv => ?_)
      refine .bind (hv.setAlive fun w hofilew hcwdw halivew hw => ?_)
      rw [wp_pure]
      have hslots : w.slots = t.slots :=
        slots_of_ofile (hofilew.trans (hofile.trans hu.ofile))
      have hcwd' : w.cwd = update s.cwd p none := by
        rw [hcwdw, hcwd, hu.cwd, ht.cwd]
      have halive' : w.alive = update s.alive p false := by
        rw [halivew, halive, hu.alive, ht.alive]
      refine ⟨⟨ext', ?_⟩, h.tidy.exit halive' hcwd' fun r e => ?_⟩
      · rw [hslots, hcwd']
        exact hw
      · rw [show w.ofile r e = t.slots (r, e) from congrFun hslots (r, e)]
        exact ht.slots r e

theorem Good.wp_call {a : Call} (h : Good s) (hp : s.cwd p = some c) (hlive : s.alive p = true)
    (ha : a.Enabled s) : wp (a.run L p c) (fun _ => Good) (stop s.vol.inuse) s := by
  obtain ⟨ext, hc, hb⟩ := h.calling hp hlive
  cases a with
  | «open» => exact hc.wp_sysOpen hb
  | read => exact hc.wp_sysRead
  | write => exact hc.wp_sysWrite
  | fstat => exact hc.wp_sysFstat
  | dup => exact hc.wp_sysDup
  | pipe => exact hc.wp_sysPipe
  | close => exact hc.wp_sysClose
  | fork => exact hc.wp_fork ha
  | exec => exact hc.wp_sysExec hb
  | chdir => exact hc.wp_sysChdir hb
  | mkdir => exact hc.wp_sysMake hb
  | mknod => exact hc.wp_sysMake hb
  | link => exact hc.wp_sysLink hb
  | unlink => exact hc.wp_sysUnlink hb
  | exit => exact hc.wp_exit

end Calls

/-! ## Runs -/

section Runs

variable {L : Layout} {disk : Nat → Block} {s t : State} {a : Act} {as : List Act}

theorem Good.next (h : Good s) (hnext : next L s a = some t) : Good t := by
  rw [Files.next] at hnext
  split at hnext
  · cases hnext
  · rename_i c hc
    split at hnext
    · rename_i hen
      have hcall := h.wp_call (L := L) hc hen.1 hen.2
      unfold wp at hcall
      split at hnext
      · rename_i r u hrun
        rw [hrun] at hcall
        cases hnext
        exact hcall
      · cases hnext
    · cases hnext

theorem good_boot (disk : Nat → Block) : Good (State.boot disk) := by
  have href : ∀ i, Counts (· = some i) (refers (State.boot disk).file (State.boot disk).cwd)
      ((State.boot disk).vol.ref i) := by
    intro i
    -- the first process has the root directory, and that is all
    have hzero : Counts (· = some i) (fun _ : Nat ⊕ Nat => (none : Option Nat)) 0 := .zero (by simp)
    have hone := hzero.change (.inr 0) (some rootIno)
    refine (hone.congr fun x => ?_).cast ?_
    · rcases x with f | p
      · show none = some i ↔ _
        rw [update_of_ne (by simp)]
      · show (if p = 0 then some rootIno else none) = some i ↔ _
        rw [update_apply]
        simp
    · show _ = if i = rootIno then (1 : Int) else 0
      simp [eq_comm (a := i)]
  refine ⟨⟨(State.boot disk).vol.ref, ?_⟩, fun q hq => ⟨fun _ => rfl, ?_⟩, fun q hq => ?_, nofun⟩
  · refine { files := fun f => .zero nofun, inodes := href, vol := ⟨fun i => ?_, fun i => ?_, ?_⟩,
             closed := fun _ _ => rfl, ends := nofun, pipes := nofun, freed := nofun,
             outstanding := rfl, ofile := rfl, cwd := rfl, alive := rfl }
    · exact (href i).nonneg
    · simp
    · have hzero : Counts (0 < ·) (fun _ : Nat => (0 : Int)) 0 := .zero (by simp)
      refine ((hzero.join (a := rootIno) (b := 1) (by simp) (by simp)).congr fun i => ?_).cast ?_
      · show 0 < (if i = rootIno then (1 : Int) else 0) ↔ _
        rw [update_apply]
      · rfl
  · have hne : q ≠ 0 := by simpa [State.boot] using hq
    exact if_neg hne
  · have heq : q = 0 := by simpa [State.boot] using hq
    rw [heq]
    decide

theorem good_of_run (h : Machine.run (next L) (State.boot disk) as = some s) : Good s :=
  Machine.Reachable.induction ⟨as, h⟩ (good_boot disk) fun _ _ _ hs ht => hs.next ht

end Runs

def State.descriptors (s : State) (f : Nat) : Nat :=
  ((Finset.range nproc ×ˢ Finset.range nofile).filter fun x => s.ofile x.1 x.2 = some f).card

def State.holders (s : State) (i : Nat) : Nat :=
  ((Finset.range nfile).filter fun f => (s.file f).inode = some i).card +
    ((Finset.range nproc).filter fun p => s.cwd p = some i).card

structure Exact (s : State) : Prop where
  files : ∀ f, (s.file f).ref = s.descriptors f
  inodes : ∀ i, s.vol.ref i = s.holders i
  closed : ∀ f, (s.file f).ref = 0 → (s.file f).type = .none
  ends : ∀ i < s.npipe, ∀ w, (s.pipe i).isOpen w = true ↔
    ∃ f, (s.file f).pipeEnd = some (i, w) ∧ 0 < (s.file f).ref
  freed : ∀ i < s.npipe, (s.pipe i).FreedOnce
  outstanding : s.outstanding = 0

theorem Good.file_lt {s : State} (h : Good s) {f : Nat} (hf : (s.file f).ref ≠ 0) : f < nfile := by
  obtain ⟨ext, hext⟩ := h.counted
  have hcount := hext.files f
  have hpos := hcount.nonneg
  rw [List.count_nil] at hcount hpos
  obtain ⟨x, hx⟩ := hcount.exists_of_pos (by push_cast at hpos ⊢; omega)
  exact (h.tidy.slots x.1 x.2 f hx).2

theorem Good.exact {s : State} (h : Good s) : Exact s := by
  obtain ⟨ext, hext⟩ := h.counted
  have hrange : ∀ q, s.alive q = true → q < nproc := h.tidy.alive
  have hlive : ∀ q, s.alive q ≠ true → (∀ fd, s.ofile q fd = none) ∧ s.cwd q = none := fun q hq =>
    h.tidy.dead q (by simpa using hq)
  have hopen : ∀ f, (s.file f).type ≠ .none → (s.file f).ref ≠ 0 := fun f hf h0 =>
    hf (hext.closed f h0)
  refine ⟨fun f => ?_, fun i => ?_, hext.closed, fun i hi w => ?_, hext.freed, hext.outstanding⟩
  · have hcount := hext.files f
    rw [List.count_nil, Nat.cast_zero, sub_zero] at hcount
    refine hcount.eq_card (Finset.range nproc ×ˢ Finset.range nofile) fun x hx => ?_
    rw [Finset.mem_product, Finset.mem_range, Finset.mem_range]
    refine ⟨?_, (h.tidy.slots x.1 x.2 f hx).1⟩
    by_contra hq
    have hnone := (hlive x.1 fun hal => hq (hrange x.1 hal)).1 x.2
    rw [State.slots, hnone] at hx
    cases hx
  · have href : s.vol.ref i = ext i := by
      have := hext.vol.ref i
      rwa [List.count_nil, Nat.cast_zero, add_zero] at this
    rw [href, (hext.inodes i).eq_card ((Finset.range nfile).disjSum (Finset.range nproc)) ?_,
      State.holders, ← Finset.card_disjSum]
    · congr 2
      ext x
      rcases x with f | q
      · rw [Finset.mem_filter, Finset.inl_mem_disjSum, Finset.inl_mem_disjSum, Finset.mem_filter]
        rfl
      · rw [Finset.mem_filter, Finset.inr_mem_disjSum, Finset.inr_mem_disjSum, Finset.mem_filter]
        rfl
    · intro x hx
      rcases x with f | q
      · have hf : (s.file f).inode = some i := hx
        rw [Finset.inl_mem_disjSum, Finset.mem_range]
        refine h.file_lt (hopen f fun hnone => ?_)
        rw [File.inode, hnone] at hf
        cases hf
      · have hq : s.cwd q = some i := hx
        rw [Finset.inr_mem_disjSum, Finset.mem_range]
        refine hrange q (by_contra fun hal => ?_)
        rw [(hlive q hal).2] at hq
        cases hq
  · have hcount := hext.ends i hi w
    refine ⟨fun hw => ?_, fun hopened => ?_⟩
    · rw [if_pos hw] at hcount
      obtain ⟨f, hf⟩ := hcount.exists_of_pos Int.one_pos
      have hne : (s.file f).ref ≠ 0 := hopen f fun hnone => by
        rw [File.pipeEnd, hnone] at hf
        cases hf
      have hnonneg := (hext.files f).nonneg
      rw [List.count_nil, Nat.cast_zero, sub_zero] at hnonneg
      exact ⟨f, hf, by omega⟩
    · obtain ⟨f, hf, -⟩ := hopened
      by_contra hw
      have := hcount.pos hf
      rw [if_neg hw] at this
      omega

/-- **Between system calls every reference is counted once.** -/
theorem refs_exact {L : Layout} {disk : Nat → Block} {as : List Act} {s : State}
    (h : Machine.run (next L) (State.boot disk) as = some s) : Exact s := (good_of_run h).exact

/-! ## A disk with nested directories -/

/-- The directories of the disk, one in the other, have inodes 1 to 51; each has an entry `a` for the
next one and an entry `f` for the same file. -/
def nestedByte (b k : Nat) : UInt8 :=
  if b < 32 then 0
  else if b < 45 then
    let i := 16 * (b - 32) + k / 64
    if i = 0 ∨ 52 < i then 0
    else if i = 52 then
      match k % 64 with
      | 0 => 2
      | 6 => 51
      | _ => 0
    else
      match k % 64 with
      | 0 => 1
      | 6 => if i = 51 then 1 else 2
      | 8 => 64
      | 12 => .ofNat (46 + i)
      | _ => 0
  else if b = 45 then if k < 12 then 255 else if k = 12 then 3 else 0
  else if b = 46 ∨ 97 < b then 0
  else
    match k with
    | 0 => .ofNat (b - 46)
    | 2 => 46
    | 16 => .ofNat (max 1 (b - 47))
    | 18 => 46
    | 19 => 46
    | 32 => if b = 97 then 0 else .ofNat (b - 45)
    | 34 => 97
    | 48 => 52
    | 50 => 102
    | _ => 0

def nested : Nat → Block := fun b k => nestedByte b k

/-- A file is opened, a pipe is made, a process copies the descriptors and exits. -/
theorem refs_exact_nested :
    ∃ s, Machine.run (next mkfsLayout) (State.boot nested)
      [⟨0, .open (some ['f']) 0⟩, ⟨0, .dup 0⟩, ⟨0, .pipe true true true⟩, ⟨0, .fork (some 1) true⟩,
        ⟨1, .chdir (some ['a'])⟩, ⟨1, .close 0⟩, ⟨0, .close 3⟩, ⟨1, .exit⟩] = some s ∧ Exact s := by
  have hsome : (Machine.run (next mkfsLayout) (State.boot nested)
      [⟨0, .open (some ['f']) 0⟩, ⟨0, .dup 0⟩, ⟨0, .pipe true true true⟩, ⟨0, .fork (some 1) true⟩,
        ⟨1, .chdir (some ['a'])⟩, ⟨1, .close 0⟩, ⟨0, .close 3⟩, ⟨1, .exit⟩]).isSome = true := by
    decide +kernel
  obtain ⟨s, hs⟩ := Option.isSome_iff_exists.mp hsome
  exact ⟨s, hs, refs_exact hs⟩

end Xv6.Files
