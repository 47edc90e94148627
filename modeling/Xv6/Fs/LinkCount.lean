import Xv6.Fs.CallLinks
import Xv6.Lib.Count

/-!
# Link counts over whole runs

Processes make calls one after another, from a freshly made file system.  The references to inodes
from outside a call are those of the current directories of processes and of open files (`Holds`),
and between two calls the inodes satisfy `Links` (`Inv`).

Two properties do not hold of all runs (`not_linksExact`, `not_entriesClosed`), because a directory
that has been removed can still be the current directory of a process.
-/

namespace Xv6.Fs

open Function (update update_of_ne update_self update_apply update_eq_self update_idem)
open Prog

/-! ## References from outside the calls -/

/-- The references to inodes from current directories (`cw`) and open files (`op`), and those to
open files from descriptors. -/
structure Holds (cw op : Nat → Int) (s : Sys) : Prop where
  cwd : ∀ i, Counts (fun x : Bool × Nat => x.1 = true ∧ x.2 = i) (fun p => (s.alive p, s.cwd p)) (cw i)
  opens : ∀ i, Counts (fun x : File => x.ip = some i) s.file (op i)
  file : ∀ f, Counts (fun o : Option Nat => o = some f) (fun x : Nat × Nat => s.ofile x.1 x.2)
    (s.file f).ref
  idle : ∀ f, (s.file f).ref = 0 → (s.file f).ip = none
  fd : ∀ p fd, nofile ≤ fd → s.ofile p fd = none
  running : s.stop = none

def Sound (strict tight : Bool) (s : Sys) : Prop :=
  ∃ cw op, Holds cw op s ∧ Good strict tight (fun i => cw i + op i) [] s.tree

structure Inv (strict tight : Bool) (s : Sys) : Prop where
  sound : Sound strict tight s
  dead : ∀ p, s.alive p = false → ∀ fd, s.ofile p fd = none

abbrev sysStops (tight : Bool) : Stop → Sys → Prop := fun e _ => Allow tight e

theorem wp_onTree {α : Type} {m : M α} {Q : α → Sys → Prop} {E : Stop → Sys → Prop} {s : Sys} :
    wp (onTree m) Q E s ↔
      wp m (fun a t => Q a { s with tree := t }) (fun e t => E e { s with tree := t }) s.tree := by
  rw [wp, wp, onTree]
  cases m s.tree <;> rfl

theorem setOfile_eq (o : Nat → Nat → Option Nat) (p fd : Nat) (f : Option Nat) (x : Nat × Nat) :
    update o p (update (o p) fd f) x.1 x.2 =
      update (fun x : Nat × Nat => o x.1 x.2) (p, fd) f x := by
  obtain ⟨q, n⟩ := x
  by_cases hq : q = p
  · subst hq
    by_cases hn : n = fd
    · subst hn
      simp
    · simp [hn]
  · rw [update_of_ne hq, update_of_ne (by simp [hq])]

section Holds

variable {cw op : Nat → Int} {s : Sys}

variable (h : Holds cw op s)
include h

theorem Holds.file_ref_nonneg (f : Nat) : 0 ≤ (s.file f).ref :=
  (h.file f).nonneg

theorem Holds.one_le_cw {p : Nat} (hp : s.alive p = true) : 1 ≤ cw (s.cwd p) :=
  (h.cwd (s.cwd p)).pos (a := p) ⟨hp, rfl⟩

theorem Holds.op_nonneg (i : Nat) : 0 ≤ op i := (h.opens i).nonneg

theorem Holds.cw_nonneg (i : Nat) : 0 ≤ cw i := (h.cwd i).nonneg

theorem Holds.ofTree (t : Tree) : Holds cw op { s with tree := t } :=
  ⟨h.cwd, h.opens, h.file, h.idle, h.fd, h.running⟩

theorem Holds.move (p : Nat) (b : Bool) (i : Nat) :
    Holds (fun j => cw j - (if s.alive p = true ∧ s.cwd p = j then 1 else 0) +
        if b = true ∧ i = j then 1 else 0) op
      { s with alive := update s.alive p b, cwd := update s.cwd p i } where
  cwd j := by
    refine ((h.cwd j).change p (b, i)).congr fun q => ?_
    by_cases hq : q = p
    · subst hq
      simp
    · simp [hq]
  opens := h.opens
  file := h.file
  idle := h.idle
  fd := h.fd
  running := h.running

theorem Holds.setFd (p fd : Nat) (o : Option Nat) {f : Nat} (x : File)
    (hfd : o = none ∨ fd < nofile) (hold : s.ofile p fd = none ∨ s.ofile p fd = some f)
    (hnew : o = none ∨ o = some f)
    (href : x.ref = (s.file f).ref - (if s.ofile p fd = some f then 1 else 0) +
      if o = some f then 1 else 0) (hidle : x.ref = 0 → x.ip = none) :
    Holds cw (fun i => op i - (if (s.file f).ip = some i then 1 else 0) +
        if x.ip = some i then 1 else 0)
      { s with
        ofile := update s.ofile p (update (s.ofile p) fd o)
        file := update s.file f x } where
  cwd := h.cwd
  opens i := (h.opens i).change f x
  file g := by
    refine (((h.file g).change (p, fd) o).congr fun y => ?_).cast ?_
    · exact iff_of_eq (congrArg (· = some g) (setOfile_eq s.ofile p fd o y))
    · dsimp only
      by_cases hgf : g = f
      · rw [hgf, update_self, href]
      · rw [update_of_ne hgf]
        rcases hold with hold | hold <;> rcases hnew with hnew | hnew <;>
          simp [hold, hnew, Ne.symm hgf]
  idle g h0 := by
    dsimp only at h0 ⊢
    by_cases hgf : g = f
    · rw [hgf, update_self] at h0 ⊢
      exact hidle h0
    · rw [update_of_ne hgf] at h0 ⊢
      exact h.idle g h0
  fd q n hn := by
    refine (setOfile_eq s.ofile p fd o (q, n)).trans ?_
    by_cases hqn : (q, n) = (p, fd)
    · rw [hqn, update_self]
      rw [Prod.mk.injEq] at hqn
      exact hfd.resolve_right (by omega)
    · rw [update_of_ne hqn]
      exact h.fd q n hn
  running := h.running

end Holds

/-! ## The calls -/

section Calls

variable {strict tight : Bool} {s : Sys} {p : Nat}

theorem Sound.cwd_type (h : Sound strict tight s) (hp : s.alive p = true) :
    (s.tree.inode (s.cwd p)).type ≠ .none := by
  obtain ⟨cw, op, hh, hg⟩ := h
  refine hg.refs.used _ ?_
  have := hh.one_le_cw hp
  have := hh.op_nonneg (s.cwd p)
  show 0 < cw (s.cwd p) + op (s.cwd p)
  omega

theorem Inv.wp_onTree {α : Type} {m : M α} (h : Inv strict tight s)
    (hm : ∀ ext, Good strict tight ext [] s.tree →
      wp m (fun _ => Good strict tight ext []) (stops tight) s.tree) :
    wp (onTree m) (fun _ => Inv strict tight) (sysStops tight) s := by
  obtain ⟨cw, op, hh, hg⟩ := h.sound
  rw [Xv6.Fs.wp_onTree]
  exact (hm _ hg).mono_ok fun _ t ht => ⟨⟨cw, op, hh.ofTree t, ht⟩, h.dead⟩

theorem wp_iput_file {cw op : Nat → Int} {i : Nat} {Q : Unit → Sys → Prop}
    (hg : Good strict tight (fun j => cw j + op j) [] s.tree) (hcw : 0 ≤ cw i) (hop : 1 ≤ op i)
    (hQ : ∀ t, Good strict tight (fun j => cw j + (op j - if j = i then 1 else 0)) [] t →
      Q () { s with tree := t }) :
    wp (onTree (ops.iput i)) Q (sysStops tight) s := by
  rw [wp_onTree]
  refine hg.wp_iput_ext _ (fun j => ?_) ?_ hQ
  · omega
  · rw [if_pos rfl]
    omega

theorem wp_closeFd {fd : Nat} {Q : Unit → Sys → Prop} (h : Sound strict tight s)
    (hQ : ∀ s', Sound strict tight s' → s'.alive = s.alive → s'.cwd = s.cwd →
      (∀ q n, s'.ofile q n = if q = p ∧ n = fd then none else s.ofile q n) → Q () s') :
    wp (closeFd p fd) Q (sysStops tight) s := by
  obtain ⟨cw, op, hh, hg⟩ := h
  rw [closeFd, wp_bind, wp_get]
  cases hf : s.ofile p fd with
  | none =>
    refine hQ s ⟨cw, op, hh, hg⟩ rfl rfl fun q n => ?_
    split
    · rename_i hqn
      rw [hqn.1, hqn.2, hf]
    · rfl
  | some f =>
    have hone : 1 ≤ (s.file f).ref := (hh.file f).pos (a := (p, fd)) hf
    have hof : ∀ q n, update s.ofile p (update (s.ofile p) fd none) q n =
        if q = p ∧ n = fd then none else s.ofile q n := by
      intro q n
      rw [setOfile_eq s.ofile p fd none (q, n), update_apply]
      simp only [Prod.mk.injEq]
    have hnot : ¬(s.file f).ref < 1 := by omega
    rw [wp_bind, setOfile, wp_modify, fileclose, wp_bind, wp_get, if_neg hnot]
    dsimp only
    by_cases hlast : 0 < (s.file f).ref - 1
    · have hset := hh.setFd p fd none { s.file f with ref := (s.file f).ref - 1 }
        (.inl rfl) (.inr hf) (.inl rfl) (by simp [hf]) (fun h0 => by dsimp only at h0; omega)
      rw [if_pos hlast, setFile, wp_modify]
      exact hQ _ ⟨cw, _, hset, hg.congr fun j => by dsimp only; omega⟩ rfl rfl hof
    · have hset := hh.setFd p fd none ⟨0, none⟩
        (.inl rfl) (.inr hf) (.inl rfl) (by simp [hf]; omega) (fun _ => rfl)
      rw [if_neg hlast, wp_bind, setFile, wp_modify]
      cases hip : (s.file f).ip with
      | none =>
        refine hQ _ ⟨cw, _, hset, hg.congr fun j => ?_⟩ rfl rfl hof
        simp [hip]
      | some i =>
        refine wp_iput_file hg (hh.cw_nonneg i) ((hh.opens i).pos hip) fun t ht => ?_
        refine hQ _ ⟨cw, _, hset.ofTree t, ht.congr fun j => ?_⟩ rfl rfl hof
        simp only [hip, Option.some.injEq, reduceCtorEq, if_false, eq_comm]
        omega

theorem wp_sysClose {fd : Nat} (h : Inv strict tight s) :
    wp (sysClose p fd) (fun _ => Inv strict tight) (sysStops tight) s := by
  rw [sysClose, wp_bind, wp_get, wp_ite]
  split
  · exact h
  · refine .bind (wp_closeFd h.sound fun s' hs' halive _ hof => ⟨hs', fun q hq n => ?_⟩)
    rw [hof, h.dead q (halive ▸ hq), ite_self]

theorem wp_exit (h : Inv strict tight s) (hp : s.alive p = true) :
    wp (Xv6.Fs.exit p) (fun _ => Inv strict tight) (sysStops tight) s := by
  rw [Xv6.Fs.exit, wp_ite]
  split
  · simp [Allow]
  rw [wp_bind]
  -- before round `n` the descriptors below `n` are closed
  refine (wp_times (fun n s' => Sound strict tight s' ∧ s'.alive = s.alive ∧ s'.cwd = s.cwd ∧
      (∀ q, q ≠ p → s'.ofile q = s.ofile q) ∧ ∀ fd < n, s'.ofile p fd = none)
    ⟨h.sound, rfl, rfl, fun _ _ => rfl, by simp⟩ ?_).mono_ok ?_
  · rintro n s₁ - ⟨hs, ha, hc, hother, hclosed⟩
    refine wp_closeFd hs fun s₂ hs₂ ha₂ hc₂ hof => ⟨hs₂, ha₂.trans ha, hc₂.trans hc, ?_, ?_⟩
    · intro q hq
      funext k
      rw [hof, if_neg (by simp [hq]), hother q hq]
    · intro fd hfd
      rw [hof]
      split
      · rfl
      · rename_i hne
        exact hclosed fd (by omega)
  · rintro - s₁ ⟨hs, ha, hc, hother, hclosed⟩
    obtain ⟨cw, op, hh, hg⟩ := hs
    have hp₁ : s₁.alive p = true := ha ▸ hp
    have hone := hh.one_le_cw hp₁
    have hop := hh.op_nonneg (s₁.cwd p)
    rw [wp_bind, wp_get, wp_bind, wp_onTree]
    refine hg.wp_iput_ext (i := s₁.cwd p)
      (fun j => (cw j - if j = s₁.cwd p then 1 else 0) + op j) (fun j => by omega) ?_ ?_
    · rw [if_pos rfl]
      omega
    intro t ht
    have hmove := (hh.move p false (s₁.cwd p)).ofTree t
    rw [update_eq_self] at hmove
    refine ⟨⟨_, op, hmove, ?_⟩, fun q hq fd => ?_⟩
    · refine ht.congr fun j => ?_
      simp only [hp₁, true_and, Bool.false_eq_true, false_and, if_false, eq_comm]
      omega
    · show s₁.ofile q fd = none
      by_cases hqp : q = p
      · rw [hqp]
        by_cases hfd : fd < nofile
        · exact hclosed fd hfd
        · exact hh.fd p fd (by omega)
      · rw [hother q hqp]
        refine h.dead q ?_ fd
        rw [← ha]
        simpa [hqp] using hq

theorem wp_sysChdir {path : List Char} (h : Inv strict tight s) (hp : s.alive p = true) :
    wp (sysChdir p path) (fun _ => Inv strict tight) (sysStops tight) s := by
  have hcwd := h.sound.cwd_type hp
  obtain ⟨cw, op, hh, hg⟩ := h.sound
  have hback : ∀ t, Good strict tight (fun j => cw j + op j) [] t →
      Inv strict tight { s with tree := t } :=
    fun t ht => ⟨⟨cw, op, hh.ofTree t, ht⟩, h.dead⟩
  rw [sysChdir, wp_bind, wp_get, wp_ite]
  split
  · exact h
  rw [wp_bind, wp_onTree]
  refine wp_namei hg hcwd hback fun ip t₁ _ ht₁ hty h₁ => ?_
  rw [wp_bind, wp_onTree]
  refine wp_ilock h₁ (by rwa [ht₁]) (by simp) fun t₂ ht₂ hty₂ h₂ => ?_
  have heq : t₂.inode = s.tree.inode := ht₂.trans ht₁
  have hg₂ : Good strict tight (fun j => cw j + op j) [ip] t₂ :=
    ⟨heq ▸ hg.links, h₂.unlock (by simp)⟩
  rw [wp_bind, wp_onTree, wp_type, wp_ite]
  split
  · rw [wp_bind, wp_onTree]
    exact hg₂.wp_iput hback
  · have hone := hh.one_le_cw hp
    have hop := hh.op_nonneg (s.cwd p)
    -- first the new directory is referred to by the process, then the old one no longer is
    have hg₃ := hg₂.handOver (fun j => (cw j + op j) + if j = ip then 1 else 0)
      (by rw [ht₂]; exact hty₂) fun _ => rfl
    rw [wp_bind, wp_onTree]
    refine hg₃.wp_iput_ext (i := s.cwd p)
      (fun j => (cw j - (if j = s.cwd p then 1 else 0) + if j = ip then 1 else 0) + op j)
      (fun j => by omega) ?_ ?_
    · rw [if_pos rfl]
      split <;> omega
    intro t ht
    have hmove := (hh.move p true ip).ofTree t
    rw [← hp, update_eq_self] at hmove
    refine ⟨⟨_, op, hmove, ht.congr fun j => ?_⟩, h.dead⟩
    simp only [hp, true_and, eq_comm]

/-- What holds in the loop of `fork` over the descriptors: the new process `q` has those below `n`. -/
structure Forking (strict tight : Bool) (s : Sys) (p q n : Nat) (s' : Sys) : Prop where
  sound : Sound strict tight s'
  alive : s'.alive = s.alive
  cwd : s'.cwd = s.cwd
  other : ∀ r, r ≠ q → s'.ofile r = s.ofile r
  rest : ∀ fd, n ≤ fd → s'.ofile q fd = none

theorem Forking.wp_forkFd {s' : Sys} {q n : Nat} (h : Forking strict tight s p q n s') (hn : n < nofile) :
    wp (forkFd p q n) (fun _ => Forking strict tight s p q (n + 1)) (sysStops tight) s' := by
  obtain ⟨⟨cw, op, hh, hg⟩, ha, hc, hother, hrest⟩ := h
  rw [forkFd, wp_bind, wp_get]
  cases hf : s'.ofile p n with
  | none => exact ⟨⟨cw, op, hh, hg⟩, ha, hc, hother, fun fd hfd => hrest fd (by omega)⟩
  | some f =>
    have hone : 1 ≤ (s'.file f).ref := (hh.file f).pos (a := (p, n)) hf
    have hset := hh.setFd q n (some f) { s'.file f with ref := (s'.file f).ref + 1 } (.inr hn)
      (.inl (hrest n (Nat.le_refl n))) (.inr rfl) (by simp [hrest n (Nat.le_refl n)])
      (fun h0 => by dsimp only at h0; omega)
    rw [wp_bind, filedup, wp_bind, wp_get, if_neg (by omega), setFile, wp_modify, setOfile, wp_modify]
    refine ⟨⟨cw, _, hset, hg.congr fun j => by dsimp only; omega⟩, ha, hc, fun r hr => ?_, fun fd hfd => ?_⟩
    · dsimp only
      rw [update_of_ne hr]
      exact hother r hr
    · dsimp only
      rw [update_self, update_of_ne (by omega)]
      exact hrest fd (by omega)

variable (h : Inv strict tight s) (hp : s.alive p = true)
include h hp

theorem wp_fork {q : Nat} (hq : s.alive q = false) :
    wp (Xv6.Fs.fork p q) (fun _ => Inv strict tight) (sysStops tight) s := by
  rw [Xv6.Fs.fork, wp_bind]
  refine (wp_times (Forking strict tight s p q)
    ⟨h.sound, rfl, rfl, fun _ _ => rfl, fun fd _ => h.dead q hq fd⟩
    fun n s₁ hn hs₁ => hs₁.wp_forkFd hn).mono_ok ?_
  rintro - s₁ hs₁
  have hp₁ : s₁.alive p = true := hs₁.alive ▸ hp
  have hq₁ : s₁.alive q = false := hs₁.alive ▸ hq
  have hty := hs₁.sound.cwd_type hp₁
  obtain ⟨cw, op, hh, hg⟩ := hs₁.sound
  rw [wp_bind, wp_get, wp_bind, wp_onTree]
  refine wp_idup hg.refs fun t ht h₂ => ?_
  have hg₂ : Good strict tight (fun j => cw j + op j) [s₁.cwd p] t := ⟨ht ▸ hg.links, h₂⟩
  have hg₃ := hg₂.handOver (fun j => (cw j + if j = s₁.cwd p then 1 else 0) + op j)
    (by rw [ht]; exact hty) fun j => by omega
  refine ⟨⟨_, op, (hh.move q true (s₁.cwd p)).ofTree t, hg₃.congr fun j => ?_⟩, fun r hr fd => ?_⟩
  · simp only [hq₁, Bool.false_eq_true, false_and, if_false, true_and, eq_comm]
    omega
  · show s₁.ofile r fd = none
    have hrq : r ≠ q := by
      rintro rfl
      simp at hr
    rw [hs₁.other r hrq]
    refine h.dead r ?_ fd
    rw [← hs₁.alive]
    simpa [hrq] using hr

theorem wp_openFile {cw op : Nat → Int} {ip omode f : Nat} (hh : Holds cw op s)
    (hf : (s.file f).ref = 0) {t : Tree}
    (hg : Good strict tight (fun j => cw j + op j) [ip] t) (hty : (t.inode ip).type ≠ .none) :
    wp (openFile p ip omode f) (fun _ => Inv strict tight) (sysStops tight)
      { s with tree := t, file := update s.file f { s.file f with ref := 1 } } := by
  have hnone := hh.idle f hf
  have hff : s.file f = ⟨0, none⟩ := by
    rw [← hf, ← hnone]
  rw [openFile, wp_bind, fdalloc, wp_bind, wp_get]
  dsimp only
  cases hfd : (List.range nofile).find? fun fd => s.ofile p fd = none with
  | none =>
    dsimp only
    rw [wp_pure, wp_bind, fileclose, wp_bind, wp_get]
    simp only [update_self, Int.lt_irrefl, Int.sub_self, if_false]
    rw [wp_bind, setFile, wp_modify, hnone]
    dsimp only
    rw [wp_pure, wp_bind, wp_onTree]
    refine hg.wp_iput fun t' ht' => ⟨⟨cw, op, ?_, ht'⟩, h.dead⟩
    rw [update_idem, ← hff, update_eq_self]
    exact hh.ofTree t'
  | some fd =>
    dsimp only
    have hlt : fd < nofile := List.mem_range.mp (List.mem_of_find?_eq_some hfd)
    have hfree : s.ofile p fd = none := by simpa using List.find?_some hfd
    have hg' := hg.handOver (fun j => cw j + (op j + if j = ip then 1 else 0)) hty
      fun j => by omega
    have hset := hh.setFd p fd (some f) ⟨1, some ip⟩ (.inr hlt)
      (.inl hfree) (.inr rfl) (by simp [hfree, hf]) (by simp)
    have hinv : Inv strict tight
        { s with
          tree := t
          file := update s.file f ⟨1, some ip⟩
          ofile := update s.ofile p (update (s.ofile p) fd (some f)) } := by
      refine ⟨⟨cw, _, (hset.ofTree t), hg'.congr fun j => ?_⟩, fun q hq n => ?_⟩
      · simp only [hnone, reduceCtorEq, if_false, Option.some.injEq, eq_comm]
        omega
      · have hqp : q ≠ p := by
          rintro rfl
          exact absurd (hp.symm.trans hq) (by simp)
        dsimp only
        rw [update_of_ne hqp]
        exact h.dead q hq n
    rw [wp_bind, setOfile, wp_modify, wp_pure, wp_bind, wp_get, wp_bind, setFile, wp_modify]
    dsimp only
    rw [update_idem, update_self, wp_bind, wp_onTree, wp_type, wp_ite]
    split
    · rename_i htr
      -- only the contents of a file are truncated
      rw [wp_bind, wp_onTree]
      show Inv strict tight _
      have hents : (t.inode ip).ents = [] :=
        hg.links.plain ip (by rw [htr.2]; simp)
      have heq : t.setInode ip { t.inode ip with ents := [] } = t := by
        have : ({ t.inode ip with ents := [] } : Inode) = t.inode ip := by rw [← hents]
        rw [this, Tree.setInode, update_eq_self]
      rw [← heq] at hinv
      exact hinv
    · exact hinv

theorem wp_sysOpen {path : List Char} {omode : Nat}
    (hc : omode &&& oCreate ≠ 0 → CreateOk strict s.tree.inode (s.cwd p) path .file) :
    wp (sysOpen p path omode) (fun _ => Inv strict tight) (sysStops tight) s := by
  have hcwd := h.sound.cwd_type hp
  obtain ⟨cw, op, hh, hg⟩ := h.sound
  have hback : ∀ t, Good strict tight (fun j => cw j + op j) [] t →
      Inv strict tight { s with tree := t } :=
    fun t ht => ⟨⟨cw, op, hh.ofTree t, ht⟩, h.dead⟩
  rw [sysOpen, wp_bind, wp_get, wp_bind, wp_onTree]
  refine wp_openInode hg hcwd hc hback fun ip t hg₁ hty => ?_
  rw [wp_bind, filealloc, wp_bind, wp_get]
  dsimp only
  cases hf : (List.range nfile).find? fun f => (s.file f).ref = 0 with
  | none =>
    dsimp only
    rw [wp_pure, wp_bind, wp_onTree]
    exact hg₁.wp_iput hback
  | some f =>
    dsimp only
    rw [wp_bind, setFile, wp_modify, wp_pure]
    exact wp_openFile h hp hh (by simpa using List.find?_some hf) hg₁ hty

end Calls

/-! ## The file system that `mkfs` makes -/

/-- The files that `mkfs` is given have names of their own, and there are inodes for them. -/
def MkfsOk (names : List Name) : Prop :=
  (∀ n ∈ names, n ≠ dot ∧ n ≠ dotdot) ∧ names.length + 2 ≤ ninodes

instance (names : List Name) : Decidable (MkfsOk names) :=
  inferInstanceAs (Decidable ((∀ n ∈ names, _) ∧ _))

section Mkfs

variable {names : List Name} {i : Nat}

theorem mkfs_root (names : List Name) : mkfs names rootIno = ⟨.dir, 1, 0, 0, rootEnts names⟩ := rfl

theorem mkfs_file (hi : 2 ≤ i ∧ i < 2 + names.length) : mkfs names i = ⟨.file, 1, 0, 0, []⟩ := by
  have hne : i ≠ rootIno := Nat.ne_of_gt (Nat.lt_of_lt_of_le (by decide) hi.1)
  rw [mkfs, if_neg hne, if_pos hi]

theorem mkfs_free (hne : i ≠ rootIno) (hi : ¬(2 ≤ i ∧ i < 2 + names.length)) :
    mkfs names i = .free := by
  rw [mkfs, if_neg hne, if_neg hi]

theorem mkfs_type (hne : i ≠ rootIno) : (mkfs names i).type ≠ .dir := by
  by_cases hi : 2 ≤ i ∧ i < 2 + names.length
  · rw [mkfs_file hi]
    simp
  · rw [mkfs_free hne hi]
    simp [Inode.free]

theorem mkfs_nlink (hi : (mkfs names i).type ≠ .none) : (mkfs names i).nlink = 1 := by
  by_cases hroot : i = rootIno
  · rw [hroot, mkfs_root]
  by_cases hf : 2 ≤ i ∧ i < 2 + names.length
  · rw [mkfs_file hf]
  · rw [mkfs_free hroot hf] at hi
    exact absurd rfl hi

theorem mkfs_isDir (h : MkfsOk names) : (mkfs names rootIno).IsDir rootIno where
  eq := rfl
  parent_ne := Nat.one_ne_zero
  regular e he hne := by
    rw [mkfs_root, Inode.rest] at he
    rcases List.mem_append.mp he with he | he
    · obtain ⟨x, hx, rfl⟩ := List.mem_map.mp he
      exact h.1 x.1 (List.fst_mem_of_mem_zipIdx hx)
    · rw [(List.mem_replicate.mp he).2] at hne
      exact absurd rfl hne

theorem mkfs_count (hi : i ≠ 0) : (mkfs names rootIno).rest.countP (fun e => e.inum = i) =
    if 2 ≤ i ∧ i < 2 + names.length then 1 else 0 := by
  have hrest : (mkfs names rootIno).rest = ((names.zipIdx 2).map fun x => ⟨x.2, x.1⟩) ++
      List.replicate (64 - (2 + names.length) % 64) ⟨0, []⟩ := rfl
  have hmap : ((names.zipIdx 2).map fun x => (⟨x.2, x.1⟩ : Dirent)).countP (fun e => e.inum = i) =
      (List.range' 2 names.length).count i := by
    rw [List.countP_map, ← List.zipIdx_map_snd 2 names, List.count, List.countP_map]
    refine List.countP_congr fun x _ => ?_
    simp
  rw [hrest, List.countP_append, hmap, List.countP_replicate]
  simp only [Ne.symm hi, decide_false, Bool.false_eq_true, if_false, Nat.add_zero]
  split
  · rename_i hr
    exact List.count_eq_one_of_mem (List.nodup_range' 1 (by simp)) (by simp; omega)
  · rename_i hr
    exact List.count_eq_zero_of_not_mem (by simp; omega)

theorem tally_mkfs {g : Inode → Nat} (hg : ∀ x : Inode, x.type ≠ .dir → g x = 0) :
    tally g (mkfs names) = g (mkfs names rootIno) :=
  Finset.sum_eq_single rootIno (fun _ _ hne => hg _ (mkfs_type hne))
    fun h => absurd (Finset.mem_range.mpr (by decide)) h

theorem mkfs_names (h : MkfsOk names) (hi : i ≠ 0) :
    tally (Inode.names i) (mkfs names) = if 2 ≤ i ∧ i < 2 + names.length then 1 else 0 := by
  rw [tally_mkfs fun x hx => by simp [Inode.names, hx], (mkfs_isDir h).names_eq rfl hi, mkfs_count hi]

theorem mkfs_subs (h : MkfsOk names) (hi : i ≠ 0) :
    tally (Inode.subs i) (mkfs names) = if i = rootIno then 1 else 0 := by
  rw [tally_mkfs fun x hx => by simp [Inode.subs, hx], (mkfs_isDir h).subs_eq rfl (by simp [mkfs_root]) hi]
  have hparent : (mkfs names rootIno).parent = rootIno := rfl
  rw [hparent]
  simp only [eq_comm]

theorem mkfs_nlink_eq (h : MkfsOk names) (hi : i ≠ 0) : (mkfs names i).nlink =
    tally (Inode.names i) (mkfs names) + tally (Inode.subs i) (mkfs names) := by
  rw [mkfs_names h hi, mkfs_subs h hi]
  by_cases hroot : i = rootIno
  · rw [hroot, mkfs_root]
    simp
  by_cases hf : 2 ≤ i ∧ i < 2 + names.length
  · rw [mkfs_file hf]
    simp [hf, hroot]
  · rw [mkfs_free hroot hf]
    simp [hf, hroot, Inode.free]

/-- **`mkfs` makes a file system with exact link counts.** -/
theorem links_mkfs (strict tight : Bool) (h : MkfsOk names) : Links strict tight (mkfs names) where
  bound i hi := by
    by_cases hroot : i = rootIno
    · rw [hroot]
      decide
    by_cases hf : 2 ≤ i ∧ i < 2 + names.length
    · have := h.2
      omega
    · rw [mkfs_free hroot hf] at hi
      exact absurd rfl hi
  free i hi := by
    by_cases hroot : i = rootIno
    · rw [hroot, mkfs_root] at hi
      exact absurd hi (by simp)
    by_cases hf : 2 ≤ i ∧ i < 2 + names.length
    · rw [mkfs_file hf] at hi
      exact absurd hi (by simp)
    · rw [mkfs_free hroot hf]
      rfl
  plain i hi := by
    have hroot : i ≠ rootIno := fun hroot => hi (hroot ▸ rfl)
    by_cases hf : 2 ≤ i ∧ i < 2 + names.length
    · rw [mkfs_file hf]
    · rw [mkfs_free hroot hf]
      rfl
  shape i hi := by
    obtain rfl : i = rootIno := not_not.mp fun hne => mkfs_type hne hi
    exact mkfs_isDir h
  range i := by
    by_cases hi : (mkfs names i).type = .none
    · by_cases hroot : i = rootIno
      · rw [hroot, mkfs_root]
        simp
      · by_cases hf : 2 ≤ i ∧ i < 2 + names.length
        · rw [mkfs_file hf]
          simp
        · rw [mkfs_free hroot hf]
          simp [Inode.free]
    · rw [mkfs_nlink hi]
      simp
  link i hi := (mkfs_nlink_eq h hi).ge
  eq i hi _ := mkfs_nlink_eq h hi
  sub d hd e he hdir := by
    obtain rfl : d = rootIno := not_not.mp fun hne => mkfs_type hne hd
    have heq : e.inum = rootIno := not_not.mp fun hne => mkfs_type hne hdir
    have hpos : 0 < (mkfs names rootIno).rest.countP fun e => e.inum = rootIno :=
      List.countP_pos_iff.mpr ⟨e, he, by simpa using heq⟩
    rw [mkfs_count (by decide), if_neg fun hc => absurd hc.1 (by decide)] at hpos
    exact absurd hpos (Nat.lt_irrefl 0)
  named i hi _ hroot := absurd hi (mkfs_type hroot)
  removed _ d hd hn := by
    rw [mkfs_nlink (by rw [hd]; simp)] at hn
    exact absurd hn (by simp)
  tight _ d hd := by
    obtain rfl : d = rootIno := not_not.mp fun hne => mkfs_type hne hd
    have hparent : (mkfs names rootIno).parent = rootIno := rfl
    rw [hparent, mkfs_root]
    exact ⟨rfl, Int.one_ne_zero⟩
  root := ⟨rfl, rfl, by simp [mkfs_root]⟩

end Mkfs

/-! ## Runs -/

/-- What a call needs in order to keep the link counts: with `strict`, so that they stay exact; with
`tight`, so that the parents of directories stay. -/
def Careful (strict tight : Bool) (s : Sys) (a : Act) : Prop :=
  match a.call with
  | .open path omode =>
    omode &&& oCreate ≠ 0 → CreateOk strict s.tree.inode (s.cwd a.p) path .file
  | .mkdir path => CreateOk strict s.tree.inode (s.cwd a.p) path .dir
  | .mknod path _ _ => CreateOk strict s.tree.inode (s.cwd a.p) path .device
  | .link old new => LinkOk strict s.tree.inode (s.cwd a.p) old new
  | .unlink path => UnlinkOk tight s.tree.inode (s.cwd a.p) path
  | .chdir _ | .close _ | .exit | .fork _ => True

instance (strict tight : Bool) (s : Sys) (a : Act) : Decidable (Careful strict tight s a) := by
  unfold Careful
  split <;> infer_instance

def Along (strict tight : Bool) (s : Sys) : Prop :=
  Inv strict tight s ∨ ∃ e, s.stop = some e ∧ Allow tight e

section Runs

variable {strict tight : Bool} {s t : Sys} {a : Act} {names : List Name}

theorem Inv.setGrow (h : Inv strict tight s) (g : List Bool) :
    Inv strict tight { s with tree := { s.tree with grow := g } } := by
  obtain ⟨⟨cw, op, hh, hg⟩, hd⟩ := h
  have hr := hg.refs
  exact ⟨⟨cw, op, hh.ofTree _, hg.links, ⟨hr.ref, hr.nonneg, hr.used, hr.valid, hr.lock, hr.orphan⟩⟩,
    hd⟩

/-- **Every call keeps the link counts**, if it is made with care. -/
theorem wp_call (h : Inv strict tight s) (hp : s.alive a.p = true) (he : a.call.Enabled s)
    (hc : Careful strict tight s a) :
    wp (a.call.run a.p (s.cwd a.p)) (fun _ => Inv strict tight) (sysStops tight) s := by
  have hcwd := h.sound.cwd_type hp
  obtain ⟨p, call, grow⟩ := a
  cases call with
  | «open» path omode => exact (wp_bind _ _).mpr (wp_sysOpen h hp hc)
  | mkdir path =>
    exact (wp_bind _ _).mpr (h.wp_onTree fun ext hg =>
      wp_sysMake hg hcwd (by simp) hc fun _ _ => id)
  | mknod path major minor =>
    exact (wp_bind _ _).mpr (h.wp_onTree fun ext hg =>
      wp_sysMake hg hcwd (by simp) hc fun _ _ => id)
  | link old new =>
    exact (wp_bind _ _).mpr (h.wp_onTree fun ext hg => wp_sysLink hg hcwd hc fun _ _ => id)
  | unlink path =>
    exact (wp_bind _ _).mpr (h.wp_onTree fun ext hg => wp_sysUnlink hg hcwd hc fun _ _ => id)
  | chdir path => exact (wp_bind _ _).mpr (wp_sysChdir h hp)
  | close fd => exact (wp_bind _ _).mpr (wp_sysClose h)
  | exit => exact wp_exit h hp
  | fork q => exact wp_fork h hp he

theorem Along.inv (h : Along strict tight s) (hs : s.stop = none) : Inv strict tight s :=
  h.resolve_right fun ⟨_, he, _⟩ => absurd (hs.symm.trans he) (by simp)

theorem Along.next (h : Along strict tight s) (hc : Careful strict tight s a)
    (hn : next s a = some t) : Along strict tight t := by
  rw [Xv6.Fs.next] at hn
  split at hn
  · rename_i hen
    obtain ⟨hstop, hp, he⟩ := hen
    have hwp := wp_call (a := a) ((h.inv hstop).setGrow a.grow) hp he hc
    rw [wp] at hwp
    split at hn
    · rename_i ht
      rw [ht] at hwp
      exact .inl (Option.some.inj hn ▸ hwp)
    · rename_i e _ ht
      rw [ht] at hwp
      exact .inr ⟨e, by rw [← Option.some.inj hn], hwp⟩
  · exact absurd hn (by simp)

def Sys.boot (m : Nat → Inode) : Sys :=
  { Sys.init [] with tree := { (Sys.init []).tree with inode := m } }

theorem inv_boot {m : Nat → Inode} (h : Links strict tight m)
    (hn : ∀ i, (m i).type ≠ .none → (m i).nlink ≠ 0) : Inv strict tight (.boot m) := by
  refine ⟨⟨fun i => if i = rootIno then 1 else 0, fun _ => 0, ⟨fun i => ?_, fun i => ?_, fun f => ?_,
    fun f _ => rfl, fun _ _ _ => rfl, rfl⟩, h, ⟨fun i => ?_, fun i => ?_, fun i hi => ?_,
    fun i hi => absurd hi (by simp [Sys.boot, Sys.init]), by simp,
    fun i _ hty h0 => absurd h0 (hn i hty)⟩⟩, fun _ _ _ => rfl⟩
  · by_cases hi : i = rootIno
    · refine ⟨{0}, fun p => ?_, by simp [hi]⟩
      simp [Sys.boot, Sys.init, hi]
    · refine (Counts.zero fun p => ?_).cast (by simp [hi])
      simp [Sys.boot, Sys.init, Ne.symm hi]
  · exact Counts.zero (by simp [Sys.boot, Sys.init])
  · exact Counts.zero (by simp [Sys.boot, Sys.init])
  · simp [Sys.boot, Sys.init]
  · dsimp only
    split <;> simp
  · dsimp only at hi
    split at hi
    · rename_i hroot
      rw [hroot]
      exact fun hnone => absurd (hnone.symm.trans h.root.1) (by simp)
    · exact absurd hi (by simp)

theorem inv_init (strict tight : Bool) (h : MkfsOk names) : Inv strict tight (Sys.init names) :=
  inv_boot (links_mkfs strict tight h) fun i hi => by rw [mkfs_nlink hi]; simp

theorem along_of_run {as : List Act} (hnames : MkfsOk names)
    (hrun : Machine.run next (Sys.init names) as = some s)
    (hC : Machine.Along next (Careful strict tight) (Sys.init names) as) : Along strict tight s :=
  Machine.run_induction hrun hC (.inl (inv_init strict tight hnames))
    fun _ _ _ hs hc ht => hs.next hc ht

/-! ## Link counts are exact -/

/-- The entry of directory `x` counts as a link: it is not `.`, nor the `..` of a removed
directory. -/
def Dirent.Counted (x : Inode) (e : Dirent) : Prop :=
  e.name ≠ dot ∧ (e.name = dotdot → x.nlink ≠ 0)

def LinksExact (s : Sys) : Prop := ∀ i, (s.tree.inode i).type ≠ .none →
  (s.tree.inode i).nlink = tally (Inode.links i) s.tree.inode

def InUse (s : Sys) (i : Nat) : Prop :=
  (∃ p, s.alive p = true ∧ s.cwd p = i) ∨
    ∃ p fd f, s.ofile p fd = some f ∧ (s.file f).ip = some i

def AllNamed (s : Sys) : Prop := ∀ i, (s.tree.inode i).type ≠ .none → ¬InUse s i →
  ∃ d, (s.tree.inode d).type = .dir ∧ ∃ e ∈ (s.tree.inode d).ents, e.inum = i ∧
    e.Counted (s.tree.inode d)

theorem exists_of_links_pos {i : Nat} {x : Inode} (h : 0 < x.links i) :
    x.type = .dir ∧ ∃ e ∈ x.ents, e.inum = i ∧ e.Counted x := by
  rw [Inode.links] at h
  split at h
  · rename_i hd
    obtain ⟨e, he, hp⟩ := List.countP_pos_iff.mp h
    rw [decide_eq_true_iff] at hp
    exact ⟨hd, e, he, hp⟩
  · exact absurd h (Nat.lt_irrefl 0)

theorem Links.nlink_eq {m : Nat → Inode} {i : Nat} (h : Links true tight m)
    (hi : (m i).type ≠ .none) : (m i).nlink = tally (Inode.links i) m := by
  have hlinks : Inode.links i = fun x => x.names i + x.subs i := funext (Inode.links_eq i)
  rw [h.eq i (Nat.ne_of_gt (h.bound i hi).1) (.inr rfl), hlinks, tally_add, Int.natCast_add]

theorem Links.exists_name {m : Nat → Inode} {i : Nat} (h : Links true tight m)
    (hi : (m i).type ≠ .none) (hn : (m i).nlink ≠ 0) :
    ∃ d, (m d).type = .dir ∧ ∃ e ∈ (m d).ents, e.inum = i ∧ e.Counted (m d) := by
  rw [h.nlink_eq hi] at hn
  obtain ⟨d, -, hd⟩ := exists_of_tally_pos (Nat.pos_of_ne_zero fun h0 => hn (by rw [h0]; rfl))
  exact ⟨d, exists_of_links_pos hd⟩

theorem Inv.linksExact (h : Inv true tight s) : LinksExact s := by
  obtain ⟨_, _, _, hg⟩ := h.sound
  exact fun i hi => hg.links.nlink_eq hi

theorem Sound.inUse (h : Sound strict tight s) {i : Nat} (hi : (s.tree.inode i).type ≠ .none)
    (hn : (s.tree.inode i).nlink = 0) : InUse s i := by
  obtain ⟨cw, op, hh, hg⟩ := h
  have hpos : 0 < cw i + op i := (hg.refs.orphan i (by simp) hi hn).1
  by_cases hcw : 0 < cw i
  · obtain ⟨p, hp⟩ := (hh.cwd i).exists_of_pos hcw
    exact .inl ⟨p, hp⟩
  · obtain ⟨f, hf⟩ := (hh.opens i).exists_of_pos (by omega)
    have href : (s.file f).ref ≠ 0 := fun h0 => absurd ((hh.idle f h0).symm.trans hf) (by simp)
    have := hh.file_ref_nonneg f
    obtain ⟨x, hx⟩ := (hh.file f).exists_of_pos (by omega)
    exact .inr ⟨x.1, x.2, f, hx, hf⟩

theorem Sound.type_of_inUse (h : Sound strict tight s) {i : Nat} (hi : InUse s i) :
    (s.tree.inode i).type ≠ .none := by
  rcases hi with ⟨p, hp, rfl⟩ | ⟨p, fd, f, hfd, hf⟩
  · exact h.cwd_type hp
  · obtain ⟨cw, op, hh, hg⟩ := h
    refine hg.refs.used i ?_
    have := (hh.opens i).pos hf
    have := hh.cw_nonneg i
    show 0 < cw i + op i
    omega

theorem Inv.allNamed (h : Inv true tight s) : AllNamed s := by
  obtain ⟨_, _, _, hg⟩ := h.sound
  exact fun i hi huse => hg.links.exists_name hi fun hn => huse (h.sound.inUse hi hn)

/-- **Link counts are exact** in every run in which nothing is created in a removed directory and no
link count overflows, and an allocated inode that no process uses has a name. -/
theorem link_counts_exact {as : List Act} (hnames : MkfsOk names)
    (hrun : Machine.run next (Sys.init names) as = some s)
    (hC : Machine.Along next (Careful true false) (Sys.init names) as) (hstop : s.stop = none) :
    LinksExact s ∧ AllNamed s :=
  let h := (along_of_run hnames hrun hC).inv hstop
  ⟨h.linksExact, h.allNamed⟩

/-- A directory is made, filled and emptied again, and left while it is removed. -/
def carefulRun : List Act :=
  [⟨0, .mkdir "/d".toList, []⟩, ⟨0, .open "/d/x".toList 0x200, []⟩, ⟨0, .close 0, []⟩,
    ⟨0, .link "/d/x".toList "/y".toList, []⟩, ⟨0, .unlink "/d/x".toList, []⟩,
    ⟨0, .fork 1, []⟩, ⟨1, .chdir "d".toList, []⟩, ⟨0, .unlink "d".toList, []⟩, ⟨1, .exit, []⟩]

theorem link_counts_exact_carefulRun : ∃ s,
    Machine.run next (Sys.init []) carefulRun = some s ∧ s.stop = none ∧ LinksExact s ∧ AllNamed s := by
  obtain ⟨s, hs, hstop⟩ : ∃ s, Machine.run next (Sys.init []) carefulRun = some s ∧ s.stop = none := by
    decide +kernel
  exact ⟨s, hs, hstop, link_counts_exact (by decide) hs (by decide +kernel) hstop⟩

/-- A file is made in a directory that has been removed, and the directory is left. -/
def lostEntry : List Act :=
  [⟨0, .mkdir "/d".toList, []⟩, ⟨0, .chdir "/d".toList, []⟩, ⟨0, .unlink "/d".toList, []⟩,
    ⟨0, .open "x".toList 0x200, []⟩, ⟨0, .close 0, []⟩, ⟨0, .chdir "/".toList, []⟩]

/-- Not every run keeps the link counts: the file made in the removed directory is left with a link
count of one and no name. -/
theorem not_linksExact : ¬∀ (names : List Name) (as : List Act) (s : Sys), MkfsOk names →
    Machine.run next (Sys.init names) as = some s → s.stop = none → LinksExact s ∧ AllNamed s := by
  intro h
  obtain ⟨s, hs, hstop, hty, hne⟩ : ∃ s, Machine.run next (Sys.init []) lostEntry = some s ∧
      s.stop = none ∧ (s.tree.inode 3).type ≠ .none ∧
        (s.tree.inode 3).nlink ≠ (tally (Inode.links 3) s.tree.inode : Int) := by
    decide +kernel
  exact hne ((h [] lostEntry s (by decide) hs hstop).1 3 hty)

/-! ## No entry dangles -/

/-- Some process can get at the inode: it is its current directory, it has it open, or a path leads
there. -/
def Reached (s : Sys) (d : Nat) : Prop :=
  InUse s d ∨ ∃ p path last, s.alive p = true ∧
    resolve s.tree.inode (s.cwd p) path false = some (d, last)

/-- The entries of directory `d` refer to inodes in use. -/
def EntriesClosed (s : Sys) (d : Nat) : Prop := ∀ e ∈ (s.tree.inode d).ents, e.inum ≠ 0 →
  (s.tree.inode e.inum).type ≠ .none

theorem Inv.entriesClosed (h : Inv strict true s) {d : Nat} (hd : (s.tree.inode d).type = .dir) :
    EntriesClosed s d := by
  obtain ⟨_, _, _, hg⟩ := h.sound
  exact fun e he hne => hg.links.closed rfl d hd e he hne

theorem Inv.dotdot (h : Inv strict true s) {d : Nat} (hd : (s.tree.inode d).type = .dir)
    {e : Dirent} (he : e ∈ (s.tree.inode d).ents) (hname : e.name = dotdot) (hne : e.inum ≠ 0) :
    (s.tree.inode e.inum).type = .dir ∧ (s.tree.inode e.inum).nlink ≠ 0 := by
  obtain ⟨_, _, _, hg⟩ := h.sound
  have hl := hg.links
  rw [(hl.shape d hd).eq, List.mem_cons, List.mem_cons] at he
  rcases he with rfl | rfl | he
  · exact absurd hname (by simp)
  · exact hl.tight rfl d hd
  · exact absurd hname ((hl.shape d hd).regular e he hne).2

/-- **No directory entry dangles** in every run in which no directory is made in a removed one, no
directory is removed while another one refers to it by `..`, and no link count overflows: every
entry refers to an inode in use, `..` to one that still has links, and no lookup panics. -/
theorem no_dangling_entry {as : List Act} (hnames : MkfsOk names)
    (hrun : Machine.run next (Sys.init names) as = some s)
    (hC : Machine.Along next (Careful false true) (Sys.init names) as) :
    s.stop ≠ some (.panic .ilockNoType) ∧
      (s.stop = none → ∀ d, (s.tree.inode d).type = .dir → EntriesClosed s d ∧
        ∀ e ∈ (s.tree.inode d).ents, e.name = dotdot → e.inum ≠ 0 →
          (s.tree.inode e.inum).type = .dir ∧ (s.tree.inode e.inum).nlink ≠ 0) := by
  have hal := along_of_run hnames hrun hC
  constructor
  · rcases hal with hinv | ⟨e, he, hallow⟩
    · obtain ⟨_, _, hh, _⟩ := hinv.sound
      simp [hh.running]
    · rw [he]
      exact fun hc => hallow rfl (Option.some.inj hc)
  · intro hstop d hd
    have hinv := hal.inv hstop
    exact ⟨hinv.entriesClosed hd, fun e he hname hne => hinv.dotdot hd he hname hne⟩

theorem no_dangling_entry_carefulRun : ∃ s,
    Machine.run next (Sys.init []) carefulRun = some s ∧ s.stop = none ∧
      ∀ d, (s.tree.inode d).type = .dir → EntriesClosed s d := by
  obtain ⟨s, hs, hstop⟩ : ∃ s, Machine.run next (Sys.init []) carefulRun = some s ∧ s.stop = none := by
    decide +kernel
  exact ⟨s, hs, hstop, fun d hd =>
    ((no_dangling_entry (by decide) hs (by decide +kernel)).2 hstop d hd).1⟩

/-- A directory is removed that is the `..` of a removed one. -/
def danglingDotdot : List Act :=
  [⟨0, .mkdir "/a".toList, []⟩, ⟨0, .mkdir "/a/b".toList, []⟩, ⟨0, .chdir "/a/b".toList, []⟩,
    ⟨0, .unlink "/a/b".toList, []⟩, ⟨0, .unlink "/a".toList, []⟩]

/-- Not every run keeps the entries: the current directory of the process is left with a `..` that
refers to a free inode, and a lookup of `..` panics. -/
theorem not_entriesClosed : ¬∀ (names : List Name) (as : List Act) (s : Sys), MkfsOk names →
    Machine.run next (Sys.init names) as = some s → s.stop ≠ some (.panic .ilockNoType) ∧
      (s.stop = none → ∀ d, (s.tree.inode d).type = .dir → Reached s d → EntriesClosed s d) := by
  intro h
  obtain ⟨s, hs, hc⟩ : ∃ s, Machine.run next (Sys.init [])
      (danglingDotdot ++ [⟨0, .chdir dotdot, []⟩]) = some s ∧
        s.stop = some (.panic .ilockNoType) := by decide +kernel
  exact (h [] _ s (by decide) hs).1 hc

end Runs

end Xv6.Fs
