import Xv6.Files.Calls
import Xv6.Fs.Table
import Mathlib.Data.Sum.Basic

/-!
# The accounts of open files

A reference is counted where it comes from: a `struct file` has one for each descriptor, an inode one
for each open file and each current directory.  While a call runs, it has references in hand that are
in none of these places yet, or no longer; `F` are those to files and `H` those to inodes.

`At` is what holds at a point of a call.  The descriptors `o` and the directories `d` that are counted
need not be those of the state: `exit` calls `fileclose` before it clears the descriptor, and `sys_dup`
stores the descriptor before `filedup`.
-/

namespace Xv6.Files

open Function (update update_of_ne update_self update_apply)
open Prog Fs

attribute [local irreducible] wp

/-! ## What refers to what -/

def File.inode (x : File) : Option Nat :=
  match x.type with
  | .inode | .device => some x.ip
  | .pipe | .none => none

def File.pipeEnd (x : File) : Option (Nat × Bool) :=
  match x.type with
  | .pipe => some (x.pipe, x.writable)
  | .inode | .device | .none => none

def Pipe.isOpen (x : Pipe) (writable : Bool) : Bool := if writable then x.writeopen else x.readopen

def Pipe.FreedOnce (x : Pipe) : Prop :=
  x.freed = if x.readopen = false ∧ x.writeopen = false then 1 else 0

theorem File.pipeEnd_of_inode {x : File} {i : Nat} (h : x.inode = some i) : x.pipeEnd = none := by
  rw [File.inode] at h
  rw [File.pipeEnd]
  cases hx : x.type <;> simp_all

theorem File.inode_of_pipeEnd {x : File} {e : Nat × Bool} (h : x.pipeEnd = some e) :
    x.inode = none := by
  rw [File.pipeEnd] at h
  rw [File.inode]
  cases hx : x.type <;> simp_all

theorem File.inode_of_open {x : File} {c : Prop} [Decidable c]
    (h : x.type = if c then .device else .inode) : x.inode = some x.ip ∧ x.pipeEnd = none := by
  rw [File.inode, File.pipeEnd, h]
  by_cases hc : c
  · rw [if_pos hc]
    exact ⟨rfl, rfl⟩
  · rw [if_neg hc]
    exact ⟨rfl, rfl⟩

theorem Pipe.isOpen_close (x : Pipe) (w v : Bool) :
    (x.close w).isOpen v = if v = w then false else x.isOpen v := by
  obtain ⟨r, o, n⟩ := x
  cases w <;> cases v <;> cases r <;> cases o <;> rfl

theorem Pipe.freed_close {x : Pipe} {w : Bool} (hopen : x.isOpen w = true) (h : x.FreedOnce) :
    (x.close w).FreedOnce := by
  obtain ⟨r, o, n⟩ := x
  cases w <;> cases r <;> cases o <;> simp_all [Pipe.close, Pipe.isOpen, Pipe.FreedOnce]

def State.slots (s : State) (x : Nat × Nat) : Option Nat := s.ofile x.1 x.2

def refers (file : Nat → File) (d : Nat → Option Nat) : Nat ⊕ Nat → Option Nat :=
  Sum.elim (fun f => (file f).inode) d

/-- The references of `k` are counted: `o` are the descriptors, `d` the current directories, `F` and `H`
the references in hand, and `ext i` the references to inode `i` that are not in hand. -/
structure Inv (o : Nat × Nat → Option Nat) (d : Nat → Option Nat) (F H : List Nat)
    (ext : Nat → Int) (k : State) : Prop where
  files : ∀ f, Counts (· = some f) o ((k.file f).ref - F.count f)
  inodes : ∀ i, Counts (· = some i) (refers k.file d) (ext i)
  vol : Vol.Accounts ext H k.vol
  closed : ∀ f, (k.file f).ref = 0 → (k.file f).type = .none
  ends : ∀ i < k.npipe, ∀ w, Counts (· = some (i, w)) (fun f => (k.file f).pipeEnd)
    (if (k.pipe i).isOpen w = true then 1 else 0)
  pipes : ∀ f i w, (k.file f).pipeEnd = some (i, w) → i < k.npipe
  freed : ∀ i < k.npipe, (k.pipe i).FreedOnce

/-- What holds at a point of a call: the references are counted, there are `n` transactions, and the
processes are as in `k₀`. -/
structure At (o : Nat × Nat → Option Nat) (d : Nat → Option Nat) (F H : List Nat)
    (ext : Nat → Int) (n : Int) (k₀ k : State) : Prop extends Inv o d F H ext k where
  outstanding : k.outstanding = n
  ofile : k.ofile = k₀.ofile
  cwd : k.cwd = k₀.cwd
  alive : k.alive = k₀.alive

/-- The kernel may panic, but because of a full table of inodes only if there is no room for three more
than the `b` that are in use. -/
def stop (b : Nat) : Stop → State → Prop := fun e k => Vol.Full b e k.vol

section Rules

variable {o : Nat × Nat → Option Nat} {d : Nat → Option Nat} {F H : List Nat} {ext : Nat → Int}
  {n : Int} {k₀ k : State} {L : Layout} {b : Nat} {α : Type} {E : Stop → State → Prop}

/-! ## Moving references -/

theorem Inv.of_files {F' : List Nat} {o' : Nat × Nat → Option Nat} (h : Inv o d F H ext k)
    (hfiles : ∀ f, Counts (· = some f) o' ((k.file f).ref - F'.count f)) : Inv o' d F' H ext k :=
  { h with files := hfiles }

theorem count_cons_int (f g : Nat) (F : List Nat) :
    ((f :: F).count g : Int) = F.count g + if g = f then 1 else 0 := Vol.count_cons_eq f g F

variable {c f f0 f1 fd i p : Nat}

theorem At.takeSlot {x : Nat × Nat} (h : At o d F H ext n k₀ k) (hx : o x = some f) :
    At (update o x none) d (f :: F) H ext n k₀ k := by
  refine { h with toInv := h.toInv.of_files fun g => ?_ }
  rw [count_cons_int]
  refine ((h.files g).change x none).cast ?_
  rw [hx]
  simp only [Option.some.injEq, eq_comm (a := f)]
  split
  · simp
    omega
  · simp

theorem At.putSlot {x : Nat × Nat} (h : At o d (f :: F) H ext n k₀ k) (hx : o x = none) :
    At (update o x (some f)) d F H ext n k₀ k := by
  refine { h with toInv := h.toInv.of_files fun g => ?_ }
  have hg := (h.files g).change x (some f)
  rw [count_cons_int] at hg
  refine hg.cast ?_
  rw [hx]
  simp only [Option.some.injEq, eq_comm (a := f)]
  split
  · simp
    omega
  · simp

theorem refers_updateDir (file : Nat → File) (d : Nat → Option Nat) (p : Nat) (v : Option Nat) :
    refers file (update d p v) = update (refers file d) (.inr p) v :=
  Sum.update_elim_inr.symm

theorem refers_updateFile (file : Nat → File) (d : Nat → Option Nat) (f : Nat) (x : File) :
    refers (update file f x) d = update (refers file d) (.inl f) x.inode := by
  rw [refers, refers, Sum.update_elim_inl]
  congr 1
  funext g
  by_cases hg : g = f
  · rw [hg, update_self, update_self]
  · rw [update_of_ne hg, update_of_ne hg]

theorem accounts_take {s : Vol} (h : Vol.Accounts ext H s) (hi : 1 ≤ ext i) :
    Vol.Accounts (update ext i (ext i - 1)) (i :: H) s := by
  refine ⟨fun j => ?_, fun j => ?_, h.table⟩
  · by_cases hj : j = i
    · rw [hj, update_self]
      omega
    · rw [update_of_ne hj]
      exact h.nonneg j
  · rw [h.ref, count_cons_int]
    by_cases hj : j = i
    · rw [hj, update_self, if_pos rfl]
      omega
    · rw [update_of_ne hj, if_neg hj]
      omega

theorem accounts_put {s : Vol} (h : Vol.Accounts ext (i :: H) s) :
    Vol.Accounts (update ext i (ext i + 1)) H s := by
  refine ⟨fun j => ?_, fun j => ?_, h.table⟩
  · have := h.nonneg j
    by_cases hj : j = i
    · rw [hj, update_self]
      rw [hj] at this
      omega
    · rwa [update_of_ne hj]
  · rw [h.ref, count_cons_int]
    by_cases hj : j = i
    · rw [hj, update_self, if_pos rfl]
      omega
    · rw [update_of_ne hj, if_neg hj]
      omega

theorem counts_refer {ρ : Nat ⊕ Nat → Option Nat} {x : Nat ⊕ Nat}
    (h : ∀ j, Counts (· = some j) ρ (ext j)) :
    (ρ x = some i → ∀ j, Counts (· = some j) (update ρ x none)
      (update ext i (ext i - 1) j)) ∧
    (ρ x = none → ∀ j, Counts (· = some j) (update ρ x (some i))
      (update ext i (ext i + 1) j)) := by
  refine ⟨fun hx j => ?_, fun hx j => ?_⟩
  · refine ((h j).change x none).cast ?_
    rw [hx]
    by_cases hj : j = i
    · rw [hj, update_self]
      simp
    · rw [update_of_ne hj]
      simp [eq_comm (a := i), hj]
  · refine ((h j).change x (some i)).cast ?_
    rw [hx]
    by_cases hj : j = i
    · rw [hj, update_self]
      simp
    · rw [update_of_ne hj]
      simp [eq_comm (a := i), hj]

theorem At.takeDir (h : At o d F H ext n k₀ k) (hp : d p = some i) :
    At o (update d p none) F (i :: H) (update ext i (ext i - 1)) n k₀ k := by
  have href : refers k.file d (.inr p) = some i := hp
  refine { h with inodes := fun j => ?_, vol := accounts_take h.vol ((h.inodes i).pos href) }
  rw [refers_updateDir]
  exact (counts_refer h.inodes).1 href j

theorem At.putDir (h : At o d F (i :: H) ext n k₀ k) (hp : d p = none) :
    At o (update d p (some i)) F H (update ext i (ext i + 1)) n k₀ k := by
  have href : refers k.file d (.inr p) = none := hp
  refine { h with inodes := fun j => ?_, vol := accounts_put h.vol }
  rw [refers_updateDir]
  exact (counts_refer h.inodes).2 href j

theorem At.perm {F' H' : List Nat} (h : At o d F H ext n k₀ k) (hF : F.Perm F') (hH : H.Perm H') :
    At o d F' H' ext n k₀ k :=
  { h with
    files := fun f => by
      rw [← hF.count_eq]
      exact h.files f
    vol := h.vol.perm hH }

theorem At.rebase (h : At o d F H ext n k₀ k) : At o d F H ext n k k :=
  { h with ofile := rfl, cwd := rfl, alive := rfl }

/-! ## Changing a file -/

theorem pipeEnd_update (file : Nat → File) (f : Nat) (x : File) :
    (fun g => (update file f x g).pipeEnd) =
      update (fun g => (file g).pipeEnd) f x.pipeEnd := by
  funext g
  by_cases hg : g = f
  · rw [hg, update_self, update_self]
  · rw [update_of_ne hg, update_of_ne hg]

theorem At.setFile {F' H' : List Nat} {ext' : Nat → Int} {pipe' : Nat → Pipe} {x : File}
    (h : At o d F H ext n k₀ k) (hf : x.ref - F'.count f = (k.file f).ref - F.count f)
    (hF : ∀ g ≠ f, F'.count g = F.count g)
    (hinodes : ∀ i, Counts (· = some i) (update (refers k.file d) (.inl f) x.inode) (ext' i))
    (hvol : Vol.Accounts ext' H' k.vol) (hclosed : x.ref = 0 → x.type = .none)
    (hends : ∀ i < k.npipe, ∀ w, Counts (· = some (i, w))
      (update (fun g => (k.file g).pipeEnd) f x.pipeEnd)
      (if (pipe' i).isOpen w = true then 1 else 0))
    (hpipes : ∀ i w, x.pipeEnd = some (i, w) → i < k.npipe)
    (hfreed : ∀ i < k.npipe, (pipe' i).FreedOnce) :
    At o d F' H' ext' n k₀ { k with file := update k.file f x, pipe := pipe' } where
  files g := by
    show Counts (· = some g) o ((update k.file f x g).ref - F'.count g)
    by_cases hg : g = f
    · subst hg
      rw [update_self, hf]
      exact h.files g
    · rw [update_of_ne hg, hF g hg]
      exact h.files g
  inodes i := by
    show Counts (· = some i) (refers (update k.file f x) d) (ext' i)
    rw [refers_updateFile]
    exact hinodes i
  vol := hvol
  closed g := by
    show (update k.file f x g).ref = 0 → (update k.file f x g).type = .none
    by_cases hg : g = f
    · rw [hg, update_self]
      exact hclosed
    · rw [update_of_ne hg]
      exact h.closed g
  ends i hi w := by
    show Counts (· = some (i, w)) (fun g => (update k.file f x g).pipeEnd) _
    rw [pipeEnd_update]
    exact hends i hi w
  pipes g i w := by
    show (update k.file f x g).pipeEnd = some (i, w) → i < k.npipe
    by_cases hg : g = f
    · rw [hg, update_self]
      exact hpipes i w
    · rw [update_of_ne hg]
      exact h.pipes g i w
  freed := hfreed
  outstanding := h.outstanding
  ofile := h.ofile
  cwd := h.cwd
  alive := h.alive

theorem At.change {F' : List Nat} {x : File} (h : At o d F H ext n k₀ k)
    (hf : x.ref - F'.count f = (k.file f).ref - F.count f)
    (hF : ∀ g ≠ f, F'.count g = F.count g) (hinode : x.inode = (k.file f).inode)
    (hend : x.pipeEnd = (k.file f).pipeEnd) (hclosed : x.ref = 0 → x.type = .none) :
    At o d F' H ext n k₀ { k with file := update k.file f x } :=
  h.setFile hf hF (fun i => (h.inodes i).stay (by rw [hinode]; rfl)) h.vol hclosed
    (fun i hi w => (h.ends i hi w).stay (by rw [hend])) (fun i w hw => h.pipes f i w (hend ▸ hw))
    h.freed

theorem At.openInode {x : File} (h : At o d F (i :: H) ext n k₀ k)
    (hnone : (k.file f).type = .none) (href : x.ref = (k.file f).ref) (hpos : x.ref ≠ 0)
    (hinode : x.inode = some i) (hend : x.pipeEnd = none) :
    At o d F H (update ext i (ext i + 1)) n k₀
      { k with file := update k.file f x } := by
  have hold : refers k.file d (.inl f) = none := by
    show (k.file f).inode = none
    rw [File.inode, hnone]
  have hendold : (k.file f).pipeEnd = none := by rw [File.pipeEnd, hnone]
  refine h.setFile (by rw [href]) (fun _ _ => rfl) (fun j => ?_) (accounts_put h.vol)
    (fun h0 => absurd h0 hpos) (fun i hi w => (h.ends i hi w).stay (by rw [hend, hendold])) ?_ h.freed
  · rw [hinode]
    exact (counts_refer h.inodes).2 hold j
  · simp [hend]

theorem At.closeInode (h : At o d (f :: F) H ext n k₀ k) (href : (k.file f).ref = 1)
    (hinode : (k.file f).inode = some i) :
    At o d F (i :: H) (update ext i (ext i - 1)) n k₀
      { k with file := update k.file f { k.file f with ref := 0, type := .none } } := by
  have hold : refers k.file d (.inl f) = some i := hinode
  have hend := File.pipeEnd_of_inode hinode
  refine h.setFile ?_ (fun g hg => ?_) (fun j => ?_)
    (accounts_take h.vol ((h.inodes i).pos hold)) (fun _ => rfl)
    (fun i hi w => (h.ends i hi w).stay (by rw [hend]; simp [File.pipeEnd])) (by simp [File.pipeEnd])
    h.freed
  · have := count_cons_int f f F
    rw [if_pos rfl] at this
    dsimp only
    omega
  · rw [List.count_cons_of_ne hg.symm]
  · exact (counts_refer h.inodes).1 hold j

theorem At.closePipe {w : Bool} (h : At o d (f :: F) H ext n k₀ k)
    (href : (k.file f).ref = 1) (hend : (k.file f).pipeEnd = some (i, w)) :
    At o d F H ext n k₀ { k with
      file := update k.file f { k.file f with ref := 0, type := .none }
      pipe := update k.pipe i ((k.pipe i).close w) } := by
  have hinode := File.inode_of_pipeEnd hend
  have hi := h.pipes f i w hend
  -- the end was open, so the page has not been freed
  have hopen : (k.pipe i).isOpen w = true := by
    by_contra hclosed
    have := (h.ends i hi w).pos hend
    rw [if_neg hclosed] at this
    omega
  refine h.setFile ?_ (fun g hg => ?_) (fun j => (h.inodes j).stay ?_) h.vol (fun _ => rfl)
    (fun j hj v => ?_) (by simp [File.pipeEnd]) fun j hj => ?_
  · have := count_cons_int f f F
    rw [if_pos rfl] at this
    dsimp only
    omega
  · rw [List.count_cons_of_ne hg.symm]
  · rw [show refers k.file d (.inl f) = none from hinode]
    rfl
  · have hcount := (h.ends j hj v).change f none
    refine hcount.cast ?_
    rw [hend]
    by_cases hji : j = i
    · subst hji
      rw [update_self, Pipe.isOpen_close]
      by_cases hvw : v = w
      · simp [hvw, hopen]
      · simp [hvw, Ne.symm hvw]
    · rw [update_of_ne hji]
      simp [Ne.symm hji]
  · by_cases hji : j = i
    · subst hji
      rw [update_self]
      exact Pipe.freed_close hopen (h.freed j hj)
    · rw [update_of_ne hji]
      exact h.freed j hj

theorem At.openPipe {x0 x1 : File} (h : At o d F H ext n k₀ k) (hne : f1 ≠ f0)
    (h0 : (k.file f0).type = .none) (h1 : (k.file f1).type = .none)
    (href0 : x0.ref = (k.file f0).ref) (href1 : x1.ref = (k.file f1).ref)
    (hpos0 : x0.ref ≠ 0) (hpos1 : x1.ref ≠ 0)
    (hend0 : x0.pipeEnd = some (k.npipe, false)) (hend1 : x1.pipeEnd = some (k.npipe, true)) :
    At o d F H ext n k₀ { k with
      file := update (update k.file f0 x0) f1 x1
      pipe := update k.pipe k.npipe ⟨true, true, 0⟩
      npipe := k.npipe + 1 } := by
  have hfile : ∀ g, update (update k.file f0 x0) f1 x1 g =
      if g = f1 then x1 else if g = f0 then x0 else k.file g := fun g => by
    rw [update_apply, update_apply]
  have hold0 : (k.file f0).pipeEnd = none := by rw [File.pipeEnd, h0]
  have hold1 : (k.file f1).pipeEnd = none := by rw [File.pipeEnd, h1]
  refine
    { h with files := fun g => ?_, inodes := fun i => ?_, closed := fun g => ?_,
             ends := fun i hi w => ?_, pipes := fun g i w hg => ?_, freed := fun i hi => ?_ }
  · refine (h.files g).cast ?_
    dsimp only
    rw [hfile]
    split
    · rw [href1, ‹g = f1›]
    · split
      · rw [href0, ‹g = f0›]
      · rfl
  · rw [refers_updateFile, refers_updateFile]
    have hin0 : refers k.file d (.inl f0) = none := by
      show (k.file f0).inode = none
      rw [File.inode, h0]
    have hin1 : update (refers k.file d) (.inl f0) x0.inode (.inl f1) = none := by
      rw [update_of_ne (by simpa using hne)]
      show (k.file f1).inode = none
      rw [File.inode, h1]
    refine ((h.inodes i).stay (iff_of_eq ?_)).stay (iff_of_eq ?_)
    · rw [hin0, File.inode_of_pipeEnd hend0]
    · rw [hin1, File.inode_of_pipeEnd hend1]
  · dsimp only
    rw [hfile]
    split
    · exact fun h0 => absurd h0 hpos1
    · split
      · exact fun h0 => absurd h0 hpos0
      · exact h.closed g
  · rw [pipeEnd_update, pipeEnd_update]
    show Counts _ _ (if (update k.pipe k.npipe ⟨true, true, 0⟩ i).isOpen w = true then 1
      else 0)
    have hlast : update (fun g => (k.file g).pipeEnd) f0 x0.pipeEnd f1 = none := by
      rw [update_of_ne hne, hold1]
    by_cases hin : i = k.npipe
    · subst hin
      -- no file refers to the new pipe yet
      have hzero : Counts (· = some (k.npipe, w)) (fun g => (k.file g).pipeEnd) 0 :=
        .zero fun g hg => Nat.lt_irrefl _ (h.pipes g _ w hg)
      refine ((hzero.change f0 x0.pipeEnd).change f1 x1.pipeEnd).cast ?_
      rw [hlast, hold0, hend0, hend1, update_self]
      cases w
      · simp [Pipe.isOpen]
      · simp [Pipe.isOpen]
    · rw [update_of_ne hin]
      refine ((h.ends i (by dsimp only at hi; omega) w).stay (iff_of_false ?_ ?_)).stay
        (iff_of_false ?_ ?_)
      · rw [hend0]
        simp [Ne.symm hin]
      · rw [hold0]
        exact nofun
      · rw [hend1]
        simp [Ne.symm hin]
      · rw [hlast]
        exact nofun
  · dsimp only at hg ⊢
    rw [hfile] at hg
    split at hg
    · have := Option.some.inj (hend1.symm.trans hg)
      simp only [Prod.mk.injEq] at this
      omega
    · split at hg
      · have := Option.some.inj (hend0.symm.trans hg)
        simp only [Prod.mk.injEq] at this
        omega
      · have := h.pipes g i w hg
        omega
  · dsimp only at hi ⊢
    by_cases hin : i = k.npipe
    · rw [hin, update_self, Pipe.FreedOnce]
      rfl
    · rw [update_of_ne hin]
      exact h.freed i (by omega)

/-! ## The rules -/

theorem wp_onVol {m : V α} {Q : α → State → Prop} (h : wp m (fun a t => Q a { k with vol := t })
    (fun e t => E e { k with vol := t }) k.vol) : wp (onVol m) Q E k := by
  unfold wp at h ⊢
  rw [onVol]
  cases hm : m k.vol with
  | ok a t =>
    rw [hm] at h
    exact h
  | error e t =>
    rw [hm] at h
    exact h

theorem At.onVol {m : V α} {Q : α → State → Prop} (H' : α → List Nat)
    (h : At o d F H ext n k₀ k)
    (hm : wp m (fun a t => Vol.Accounts ext (H' a) t) (Vol.Full b) k.vol)
    (hQ : ∀ a t, At o d F (H' a) ext n k₀ t → Q a t) : wp (onVol m) Q (stop b) k :=
  wp_onVol (hm.mono (fun a _ ht => hQ a _ { h with vol := ht }) fun _ _ he => he)

theorem At.same {m : V α} {Q : α → State → Prop} (h : At o d F H ext n k₀ k)
    (hm : Moves Vol.SameTable Vol.NotFull m) (hQ : ∀ a t, At o d F H ext n k₀ t → Q a t) :
    wp (Files.onVol m) Q (stop b) k :=
  h.onVol (fun _ => H) (h.vol.wp_same hm fun _ _ => id) hQ

variable {Q : Unit → State → Prop}

theorem At.iput (h : At o d F (i :: H) ext n k₀ k)
    (hQ : ∀ t, At o d F H ext n k₀ t → Q () t) :
    wp (Files.onVol (Vol.iput L i)) Q (stop b) k :=
  h.onVol (fun _ => H) (h.vol.wp_iput fun _ => id) fun _ => hQ

theorem At.look {f : Vol → α} {Q : α → State → Prop} (h : At o d F H ext n k₀ k)
    (hQ : ∀ a t, At o d F H ext n k₀ t → Q a t) :
    wp (Files.onVol (do return f (← get))) Q (stop b) k :=
  h.onVol (fun _ => H) (Vol.wp_look fun _ => h.vol) hQ

theorem At.setNlink {x : Int} (h : At o d F H ext n k₀ k)
    (hQ : ∀ t, At o d F H ext n k₀ t → Q () t) :
    wp (Files.onVol ((Vol.ops L).setNlink i x)) Q (stop b) k :=
  h.same (Vol.sameTable_update i fun y => { y with nlink := .ofInt x }) fun _ => hQ

theorem At.getInode {m : V (Option Nat)} {Q : Option Nat → State → Prop}
    (h : At o d F H ext n k₀ k)
    (hm : wp m (fun r t => Vol.Accounts ext (r.toList ++ H) t) (Vol.Full b) k.vol)
    (hnone : ∀ t, At o d F H ext n k₀ t → Q none t)
    (hsome : ∀ i t, At o d F (i :: H) ext n k₀ t → Q (some i) t) :
    wp (Files.onVol m) Q (stop b) k := by
  refine h.onVol (fun r => r.toList ++ H) hm fun r t ht => ?_
  cases r with
  | none => exact hnone t ht
  | some i => exact hsome i t ht

theorem At.namei {Q : Option Nat → State → Prop} {path : List Char}
    (h : At o d F [c] ext n k₀ k) (hb : Vol.InUse ext c b)
    (hnone : ∀ t, At o d F [c] ext n k₀ t → Q none t)
    (hsome : ∀ i t, At o d F [i, c] ext n k₀ t → Q (some i) t) :
    wp (Files.onVol (Fs.namei (Vol.ops L) c path)) Q (stop b) k :=
  h.getInode (h.vol.wp_namei hb (by simp) fun _ _ => id) hnone hsome

theorem At.nameiparent {Q : Option (Nat × Name) → State → Prop} {path : List Char}
    (h : At o d F (c :: H) ext n k₀ k) (hb : Vol.InUse ext c b) (hH : H.length ≤ 1)
    (hnone : ∀ t, At o d F (c :: H) ext n k₀ t → Q none t)
    (hsome : ∀ i name t, At o d F (i :: c :: H) ext n k₀ t → Q (some (i, name)) t) :
    wp (Files.onVol (Fs.nameiparent (Vol.ops L) c path)) Q (stop b) k := by
  refine h.onVol (fun r => r.toList.map Prod.fst ++ c :: H)
    (h.vol.wp_nameiparent hb hH fun _ _ => id) fun r t ht => ?_
  cases r with
  | none => exact hnone t ht
  | some r => exact hsome r.1 r.2 t ht

theorem At.beginOp (h : At o d F H ext n k₀ k)
    (hQ : ∀ t, At o d F H ext (n + 1) k₀ t → Q () t) : wp beginOp Q E k := by
  rw [Files.beginOp, wp_modify]
  exact hQ _ { h with
    vol := ⟨h.vol.nonneg, h.vol.ref, h.vol.table⟩
    outstanding := by dsimp only; rw [h.outstanding] }

theorem At.endOp (h : At o d F H ext (n + 1) k₀ k)
    (hQ : ∀ t, At o d F H ext n k₀ t → Q () t) : wp endOp Q E k := by
  rw [Files.endOp, wp_modify]
  refine hQ _ { h with vol := ?_, outstanding := ?_ }
  · dsimp only
    split
    · exact ⟨h.vol.nonneg, h.vol.ref, h.vol.table⟩
    · exact h.vol
  · dsimp only
    rw [h.outstanding]
    omega

/-! ### Files -/

theorem At.filealloc {Q : Option Nat → State → Prop} (h : At o d F H ext n k₀ k)
    (hnone : Q none k)
    (hsome : ∀ f t, f < nfile → (t.file f).type = .none → (t.file f).ref ≠ 0 →
      (∀ g ∈ F, g ≠ f ∧ t.file g = k.file g) → At o d (f :: F) H ext n k₀ t → Q (some f) t) :
    wp filealloc Q E k := by
  rw [Files.filealloc, wp_bind, wp_get]
  dsimp only
  split
  · exact .pure hnone
  · rename_i f hf
    have href : (k.file f).ref = 0 := by simpa using List.find?_some hf
    have htype := h.closed f href
    have hcount : F.count f = 0 := by
      have := (h.files f).nonneg
      omega
    rw [wp_bind, Files.setFile, wp_modify, wp_pure]
    have hlt : f < nfile := List.mem_range.mp (List.mem_of_find?_eq_some hf)
    refine hsome f _ hlt ?_ ?_ (fun g hg => ?_) (h.change ?_ (fun g hg => ?_) rfl rfl ?_)
    · dsimp only
      rw [update_self]
      exact htype
    · dsimp only
      rw [update_self]
      exact one_ne_zero
    · have hne : g ≠ f := fun heq => List.count_eq_zero.mp hcount (heq ▸ hg)
      exact ⟨hne, update_of_ne hne ..⟩
    · rw [count_cons_int, if_pos rfl, href]
      dsimp only
      omega
    · rw [List.count_cons_of_ne hg.symm]
    · exact fun h0 => absurd h0 one_ne_zero

theorem At.filedup (h : At o d F H ext n k₀ k)
    (hpos : 1 ≤ (k.file f).ref) (hQ : ∀ t, At o d (f :: F) H ext n k₀ t → Q () t) :
    wp (filedup f) Q E k := by
  rw [Files.filedup, wp_bind, wp_get, if_neg (by omega), Files.setFile, wp_modify]
  refine hQ _ (h.change ?_ (fun g hg => ?_) rfl rfl ?_)
  · rw [count_cons_int, if_pos rfl]
    dsimp only
    omega
  · rw [List.count_cons_of_ne hg.symm]
  · intro h0
    dsimp only at h0
    omega

theorem At.fileclose (h : At o d (f :: F) H ext n k₀ k)
    (hQ : ∀ ext' t, At o d F H ext' n k₀ t → Q () t) : wp (fileclose L f) Q (stop b) k := by
  have hpos : 1 ≤ (k.file f).ref := by
    have := (h.files f).nonneg
    rw [count_cons_int, if_pos rfl] at this
    omega
  have hcount := count_cons_int f f F
  rw [if_pos rfl] at hcount
  rw [Files.fileclose, wp_bind, wp_get]
  dsimp only
  rw [wp_ite, if_neg (by omega), wp_ite]
  split
  · rw [Files.setFile, wp_modify]
    refine hQ ext _ (h.change ?_ (fun g hg => ?_) rfl rfl fun h0 => ?_)
    · dsimp only
      omega
    · rw [List.count_cons_of_ne hg.symm]
    · dsimp only at h0
      omega
  · have href : (k.file f).ref = 1 := by omega
    rw [wp_bind, Files.setFile, wp_modify]
    have hinode : ∀ i, (k.file f).inode = some i → wp (do
        Files.beginOp
        Files.onVol (Vol.iput L i)
        Files.endOp) Q (stop b)
        { k with file := update k.file f { k.file f with ref := 0, type := .none } } := by
      intro i hi
      refine .bind ((h.closeInode href hi).beginOp fun t ht => ?_)
      exact .bind (ht.iput fun u hu => hu.endOp fun v hv => hQ _ v hv)
    cases htype : (k.file f).type with
    | pipe =>
      dsimp only
      rw [pipeclose, wp_modify]
      exact hQ ext _ (h.closePipe href (by rw [File.pipeEnd, htype]))
    | inode => exact hinode _ (by rw [File.inode, htype])
    | device => exact hinode _ (by rw [File.inode, htype])
    | none =>
      refine .pure (hQ ext _ (h.change ?_ (fun g hg => ?_) ?_ ?_ fun _ => rfl))
      · dsimp only
        omega
      · rw [List.count_cons_of_ne hg.symm]
      · rw [File.inode, File.inode, htype]
      · rw [File.pipeEnd, File.pipeEnd, htype]

/-- **`pipealloc`**: the files that it returns are in hand. -/
theorem At.pipealloc {Q : Option (Nat × Nat) → State → Prop} {page : Bool}
    (h : At o d F H ext n k₀ k) (hnone : ∀ ext' t, At o d F H ext' n k₀ t → Q none t)
    (hsome : ∀ f0 f1 t, f0 < nfile → f1 < nfile → At o d (f1 :: f0 :: F) H ext n k₀ t →
      Q (some (f0, f1)) t) :
    wp (pipealloc L page) Q (stop b) k := by
  rw [Files.pipealloc, wp_bind]
  refine h.filealloc (by rw [wp_pure]; exact hnone ext k h) fun f0 k1 hlt0 htype0 hpos0 _ hk1 => ?_
  refine .bind (hk1.filealloc ?_ fun f1 k2 hlt1 htype1 hpos1 hkept hk2 => ?_)
  · refine .bind (hk1.fileclose fun ext' t ht => ?_)
    exact .pure (hnone ext' t ht)
  · dsimp only
    obtain ⟨hne, hf0⟩ := hkept f0 List.mem_cons_self
    rw [wp_ite]
    split
    · rw [wp_bind, wp_get, wp_bind, wp_set, wp_bind, Files.setFile, wp_modify, wp_bind,
        Files.setFile, wp_modify, wp_pure]
      refine hsome f0 f1 _ hlt0 hlt1 (hk2.openPipe hne.symm (by rw [hf0, htype0]) htype1 rfl rfl
        ?_ hpos1 rfl rfl)
      dsimp only
      rwa [hf0]
    · refine .bind ((hk2.perm (.swap f0 f1 F) (.refl H)).fileclose fun ext' t ht => ?_)
      refine .bind (ht.fileclose fun ext'' u hu => ?_)
      exact .pure (hnone ext'' u hu)

/-! ### Descriptors -/

theorem slots_setOfile (k : State) (p fd : Nat) (v : Option Nat) :
    State.slots { k with
      ofile := update k.ofile p (update (k.ofile p) fd v) } =
      update k.slots (p, fd) v := by
  funext ⟨q, fd'⟩
  show update k.ofile p (update (k.ofile p) fd v) q fd' = _
  by_cases hq : q = p
  · subst hq
    rw [update_self]
    by_cases hfd : fd' = fd
    · rw [hfd, update_self, update_self]
    · rw [update_of_ne hfd, update_of_ne (by simp [hfd])]
      rfl
  · rw [update_of_ne hq, update_of_ne (by simp [hq])]
    rfl

variable (h : At o d F H ext n k₀ k)
include h

theorem At.setOfile {v : Option Nat}
    (hQ : ∀ t, t.slots = update k.slots (p, fd) v → t.cwd = k.cwd → t.alive = k.alive →
      t.file = k.file → At o d F H ext n t t → Q () t) : wp (setOfile p fd v) Q E k := by
  rw [Files.setOfile, wp_modify]
  exact hQ _ (slots_setOfile k p fd v) rfl rfl rfl
    { h with ofile := rfl, cwd := rfl, alive := rfl }

theorem At.setCwd {v : Option Nat}
    (hQ : ∀ t, t.ofile = k.ofile → t.cwd = update k.cwd p v → t.alive = k.alive →
      At o d F H ext n t t → Q () t) : wp (setCwd p v) Q E k := by
  rw [Files.setCwd, wp_modify]
  exact hQ _ rfl rfl rfl { h with ofile := rfl, cwd := rfl, alive := rfl }

theorem At.setAlive {v : Bool}
    (hQ : ∀ t, t.ofile = k.ofile → t.cwd = k.cwd → t.alive = update k.alive p v →
      At o d F H ext n t t → Q () t) :
    wp (modify fun s : State => { s with alive := update s.alive p v }) Q E k := by
  rw [wp_modify]
  exact hQ _ rfl rfl rfl { h with ofile := rfl, cwd := rfl, alive := rfl }

theorem At.fdalloc {Q : Option Nat → State → Prop} (hnone : Q none k)
    (hsome : ∀ fd t, fd < nofile → k.slots (p, fd) = none →
      t.slots = update k.slots (p, fd) (some f) → t.cwd = k.cwd → t.alive = k.alive →
      t.file = k.file → At o d F H ext n t t → Q (some fd) t) : wp (fdalloc p f) Q E k := by
  rw [Files.fdalloc, wp_bind, wp_get]
  split
  · exact .pure hnone
  · rename_i fd hfd
    have hfree : k.ofile p fd = none := by simpa using List.find?_some hfd
    have hlt : fd < nofile := List.mem_range.mp (List.mem_of_find?_eq_some hfd)
    refine .bind (h.setOfile fun t hslots hcwd halive hfile ht => ?_)
    exact .pure (hsome fd t hlt hfree hslots hcwd halive hfile ht)

end Rules

end Xv6.Files
