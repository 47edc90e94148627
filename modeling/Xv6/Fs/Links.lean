import Xv6.Fs.Tree
import Mathlib.Algebra.BigOperators.Group.Finset.Basic
import Mathlib.Algebra.Order.BigOperators.Group.Finset

/-!
# Link counts

What the directories look like between two system calls, as a property of the inodes alone
(`Links`), and what each change that the calls make does to it.  The link count of an inode is
compared with the entries that name it: its names, and the entry `..` of each of its subdirectories
that has not been removed itself.

`strict` asks that link counts are exact, and `tight` that the parent of every directory still has a
name.
-/

namespace Xv6.Fs

open Function (update update_of_ne update_self)

/-! ## Sums over all inodes -/

def tally (g : Inode → Nat) (m : Nat → Inode) : Nat := ∑ d ∈ Finset.range ninodes, g (m d)

section Tally

variable {g h : Inode → Nat} {m : Nat → Inode} {d : Nat} {x : Inode}

theorem tally_update (hd : d < ninodes) :
    tally g (update m d x) + g (m d) = tally g m + g x := by
  have hmem : d ∈ Finset.range ninodes := Finset.mem_range.mpr hd
  rw [tally, tally, ← Finset.add_sum_erase _ _ hmem, ← Finset.add_sum_erase _ (fun d => g (m d)) hmem,
    update_self]
  have : ∑ e ∈ (Finset.range ninodes).erase d, g (update m d x e) =
      ∑ e ∈ (Finset.range ninodes).erase d, g (m e) :=
    Finset.sum_congr rfl fun e he => by rw [update_of_ne (Finset.ne_of_mem_erase he)]
  omega

theorem tally_update₂ {e : Nat} {y : Inode} (hd : d < ninodes) (he : e < ninodes) (hne : d ≠ e) :
    tally g (update (update m d x) e y) + g (m d) + g (m e) =
      tally g m + g x + g y := by
  have h₁ := tally_update (g := g) (m := m) (x := x) hd
  have h₂ := tally_update (g := g) (m := update m d x) (x := y) he
  rw [update_of_ne hne.symm] at h₂
  omega

theorem le_tally (hd : d < ninodes) : g (m d) ≤ tally g m :=
  Finset.single_le_sum (f := fun d => g (m d)) (fun _ _ => Nat.zero_le _) (Finset.mem_range.mpr hd)

theorem exists_of_tally_pos (h : 0 < tally g m) : ∃ d, d < ninodes ∧ 0 < g (m d) := by
  by_contra hall
  push Not at hall
  have : tally g m = 0 := Finset.sum_eq_zero fun d hd => by
    have := hall d (Finset.mem_range.mp hd)
    omega
  omega

theorem tally_add : tally (fun x => g x + h x) m = tally g m + tally h m := Finset.sum_add_distrib

end Tally

/-! ## Names and subdirectories -/

def Dirent.Regular (e : Dirent) : Prop := e.name ≠ dot ∧ e.name ≠ dotdot

instance : DecidablePred Dirent.Regular := fun _ => inferInstanceAs (Decidable (_ ∧ _))

/-- The entries of the inode that name `i`, without `.`, and without `..` if the inode is a directory
that has been removed. -/
def Inode.links (i : Nat) (x : Inode) : Nat :=
  if x.type = .dir then
    x.ents.countP fun e => e.inum = i ∧ e.name ≠ dot ∧ (e.name = dotdot → x.nlink ≠ 0)
  else 0

def Inode.names (i : Nat) (x : Inode) : Nat :=
  if x.type = .dir then x.ents.countP fun e => e.inum = i ∧ e.Regular else 0

/-- The entries `..` of the inode that refer to `i`, if it is a directory that has not been
removed. -/
def Inode.subs (i : Nat) (x : Inode) : Nat :=
  if x.type = .dir ∧ x.nlink ≠ 0 then x.ents.countP fun e => e.inum = i ∧ e.name = dotdot else 0

theorem Inode.links_eq (i : Nat) (x : Inode) : x.links i = x.names i + x.subs i := by
  unfold Inode.links Inode.names Inode.subs
  by_cases hdir : x.type = .dir
  · simp only [hdir, if_true, true_and]
    induction x.ents with
    | nil => simp
    | cons e l ih =>
      simp only [List.countP_cons, ih]
      by_cases hn : x.nlink = 0 <;> by_cases hdd : e.name = dotdot <;>
        by_cases hi : e.inum = i <;> simp [Dirent.Regular, hn, hdd, hi] <;> omega
  · simp [hdir]

def Inode.parent (x : Inode) : Nat := (x.ents.getD 1 ⟨0, []⟩).inum

def Inode.rest (x : Inode) : List Dirent := x.ents.drop 2

/-- The shape of directory `d`: `.`, `..`, and entries with other names. -/
structure Inode.IsDir (d : Nat) (x : Inode) : Prop where
  eq : x.ents = ⟨d, dot⟩ :: ⟨x.parent, dotdot⟩ :: x.rest
  parent_ne : x.parent ≠ 0
  regular : ∀ e ∈ x.rest, e.inum ≠ 0 → e.Regular

theorem Inode.IsDir.names_eq {d i : Nat} {x : Inode} (h : x.IsDir d) (hdir : x.type = .dir)
    (hi : i ≠ 0) : x.names i = x.rest.countP fun e => e.inum = i := by
  have hrest : x.rest.countP (fun e => e.inum = i ∧ e.Regular) =
      x.rest.countP fun e => e.inum = i := by
    refine List.countP_congr fun e he => ?_
    rw [decide_eq_true_iff, decide_eq_true_iff]
    exact ⟨And.left, fun heq => ⟨heq, h.regular e he (heq ▸ hi)⟩⟩
  rw [Inode.names, if_pos hdir, h.eq, List.countP_cons, List.countP_cons, hrest]
  simp [Dirent.Regular]

theorem Inode.IsDir.subs_eq {d i : Nat} {x : Inode} (h : x.IsDir d) (hdir : x.type = .dir)
    (hn : x.nlink ≠ 0) (hi : i ≠ 0) : x.subs i = if x.parent = i then 1 else 0 := by
  have hrest : x.rest.countP (fun e => e.inum = i ∧ e.name = dotdot) = 0 := by
    rw [List.countP_eq_zero]
    intro e he
    rw [decide_eq_true_iff]
    rintro ⟨heq, hdd⟩
    exact (h.regular e he (heq ▸ hi)).2 hdd
  rw [Inode.subs, if_pos ⟨hdir, hn⟩, h.eq, List.countP_cons, List.countP_cons, hrest]
  simp

/-! ## Adding and clearing an entry -/

def addEntry (l : List Dirent) (e : Dirent) : List Dirent :=
  if l.findIdx (fun e => e.inum = 0) < l.length then l.set (l.findIdx fun e => e.inum = 0) e
  else l ++ [e]

@[simp] theorem addEntry_nil (e : Dirent) : addEntry [] e = [e] := rfl

theorem addEntry_cons_of_eq {a e : Dirent} {l : List Dirent} (ha : a.inum = 0) :
    addEntry (a :: l) e = e :: l := by simp [addEntry, List.findIdx_cons, ha]

theorem addEntry_cons_of_ne {a e : Dirent} {l : List Dirent} (ha : a.inum ≠ 0) :
    addEntry (a :: l) e = a :: addEntry l e := by
  simp only [addEntry, List.findIdx_cons, ha, decide_false, cond_false, List.length_cons,
    Nat.add_lt_add_iff_right, List.set_cons_succ, List.cons_append]
  split <;> rfl

theorem mem_addEntry {a e : Dirent} {l : List Dirent} (h : a ∈ addEntry l e) : a ∈ l ∨ a = e := by
  unfold addEntry at h
  split at h
  · exact List.mem_or_eq_of_mem_set h
  · simpa using h

theorem countP_addEntry {i : Nat} (hi : i ≠ 0) (l : List Dirent) (e : Dirent) :
    (addEntry l e).countP (fun e => e.inum = i) =
      l.countP (fun e => e.inum = i) + if e.inum = i then 1 else 0 := by
  induction l with
  | nil => simp [List.countP_cons]
  | cons a l ih =>
    by_cases ha : a.inum = 0
    · rw [addEntry_cons_of_eq ha, List.countP_cons, List.countP_cons]
      simp [ha, Ne.symm hi]
    · rw [addEntry_cons_of_ne ha, List.countP_cons, List.countP_cons, ih]
      omega

theorem countP_clear {i : Nat} (hi : i ≠ 0) {l : List Dirent} {k : Nat} (hk : k < l.length) :
    (l.set k ⟨0, []⟩).countP (fun e => e.inum = i) + (if l[k].inum = i then 1 else 0) =
      l.countP fun e => e.inum = i := by
  induction l generalizing k with
  | nil => exact absurd hk (by simp)
  | cons a l ih =>
    cases k with
    | zero => simp [List.countP_cons, Ne.symm hi]
    | succ k =>
      have := ih (Nat.lt_of_succ_lt_succ hk)
      rw [List.set_cons_succ, List.countP_cons, List.countP_cons, List.getElem_cons_succ]
      omega

def Inode.add (x : Inode) (e : Dirent) : Inode := { x with ents := addEntry x.ents e }

def Inode.clear (x : Inode) (k : Nat) : Inode := { x with ents := x.ents.set k ⟨0, []⟩ }

section IsDir

variable {d i k : Nat} {x : Inode} {e : Dirent}

variable (h : x.IsDir d)
include h

theorem Inode.IsDir.add_ents (hd : d ≠ 0) :
    (x.add e).ents = ⟨d, dot⟩ :: ⟨x.parent, dotdot⟩ :: addEntry x.rest e := by
  rw [Inode.add, h.eq, addEntry_cons_of_ne (a := ⟨d, dot⟩) hd,
    addEntry_cons_of_ne (a := ⟨x.parent, dotdot⟩) h.parent_ne]

theorem Inode.IsDir.add_parent (hd : d ≠ 0) : (x.add e).parent = x.parent := by
  rw [Inode.parent, h.add_ents hd]
  rfl

theorem Inode.IsDir.add_rest (hd : d ≠ 0) : (x.add e).rest = addEntry x.rest e := by
  rw [Inode.rest, h.add_ents hd]
  rfl

theorem Inode.IsDir.add (hd : d ≠ 0) (he : e.Regular) : (x.add e).IsDir d where
  eq := by rw [h.add_ents hd, h.add_parent hd, h.add_rest hd]
  parent_ne := by rw [h.add_parent hd]; exact h.parent_ne
  regular a ha hne := by
    rw [h.add_rest hd] at ha
    rcases mem_addEntry ha with ha | rfl
    · exact h.regular a ha hne
    · exact he

theorem Inode.IsDir.clear_ents :
    (x.clear (k + 2)).ents = ⟨d, dot⟩ :: ⟨x.parent, dotdot⟩ :: x.rest.set k ⟨0, []⟩ := by
  rw [Inode.clear, h.eq, List.set_cons_succ, List.set_cons_succ]

theorem Inode.IsDir.clear_parent : (x.clear (k + 2)).parent = x.parent := by
  rw [Inode.parent, h.clear_ents]
  rfl

theorem Inode.IsDir.clear_rest : (x.clear (k + 2)).rest = x.rest.set k ⟨0, []⟩ := by
  rw [Inode.rest, h.clear_ents]
  rfl

theorem Inode.IsDir.clear : (x.clear (k + 2)).IsDir d where
  eq := by rw [h.clear_ents, h.clear_parent, h.clear_rest]
  parent_ne := by rw [h.clear_parent]; exact h.parent_ne
  regular a ha hne := by
    rw [h.clear_rest] at ha
    rcases List.mem_or_eq_of_mem_set ha with ha | rfl
    · exact h.regular a ha hne
    · exact absurd rfl hne

end IsDir

/-! ## The property of the inodes -/

structure Links (strict tight : Bool) (m : Nat → Inode) : Prop where
  bound : ∀ i, (m i).type ≠ .none → 0 < i ∧ i < ninodes
  free : ∀ i, (m i).type = .none → (m i).nlink = 0
  plain : ∀ i, (m i).type ≠ .dir → (m i).ents = []
  shape : ∀ i, (m i).type = .dir → (m i).IsDir i
  range : ∀ i, (m i).nlink ≤ 32767
  /-- An inode has at least as many links as there are entries for it. -/
  link : ∀ i, i ≠ 0 → (tally (Inode.names i) m + tally (Inode.subs i) m : Int) ≤ (m i).nlink
  /-- A directory has exactly as many, and if counts are strict so has every inode. -/
  eq : ∀ i, i ≠ 0 → (m i).type = .dir ∨ strict →
    (m i).nlink = tally (Inode.names i) m + tally (Inode.subs i) m
  /-- The name of a directory is in the directory that its `..` refers to. -/
  sub : ∀ d, (m d).type = .dir → ∀ e ∈ (m d).rest, (m e.inum).type = .dir →
    (m e.inum).parent = d ∧ (m d).nlink ≠ 0 ∧ e.inum ≠ rootIno ∧ e.inum ≠ d
  /-- A directory that has not been removed has one name, unless it is the root. -/
  named : ∀ i, (m i).type = .dir → (m i).nlink ≠ 0 → i ≠ rootIno → tally (Inode.names i) m = 1
  removed : strict → ∀ d, (m d).type = .dir → (m d).nlink = 0 → ∀ e ∈ (m d).rest, e.inum = 0
  /-- If directories are tight, the parent of each has not been removed. -/
  tight : tight → ∀ d, (m d).type = .dir →
    (m (m d).parent).type = .dir ∧ (m (m d).parent).nlink ≠ 0
  root : (m rootIno).type = .dir ∧ (m rootIno).parent = rootIno ∧ (m rootIno).nlink ≠ 0

namespace Links

variable {strict tight : Bool} {m : Nat → Inode} {d i j : Nat} {e : Dirent}

section

variable (h : Links strict tight m)
include h

theorem nlink_nonneg (i : Nat) : 0 ≤ (m i).nlink := by
  by_cases hi : i = 0
  · have : (m i).type = .none := by
      by_contra hne
      have := (h.bound i hne).1
      omega
    rw [h.free i this]
  · have := h.link i hi
    omega

theorem bound_dir (hd : (m d).type = .dir) : 0 < d ∧ d < ninodes :=
  h.bound d (by simp [hd])

theorem ne_zero (hd : (m d).type = .dir) : d ≠ 0 :=
  Nat.ne_of_gt (h.bound_dir hd).1

theorem names_pos (hd : (m d).type = .dir) (he : e ∈ (m d).rest)
    (hne : e.inum ≠ 0) : 0 < tally (Inode.names e.inum) m := by
  refine Nat.lt_of_lt_of_le ?_ (le_tally (h.bound_dir hd).2)
  rw [(h.shape d hd).names_eq hd hne, List.countP_pos_iff]
  exact ⟨e, he, by simp⟩

theorem exists_of_names_pos (hi : i ≠ 0) (hpos : 0 < tally (Inode.names i) m) :
    ∃ d, (m d).type = .dir ∧ ∃ e ∈ (m d).rest, e.inum = i := by
  obtain ⟨d, -, hd⟩ := exists_of_tally_pos hpos
  have hdir : (m d).type = .dir := by
    by_contra hne
    exact absurd hd (by simp [Inode.names, hne])
  rw [(h.shape d hdir).names_eq hdir hi, List.countP_pos_iff] at hd
  obtain ⟨e, he, heq⟩ := hd
  exact ⟨d, hdir, e, he, by simpa using heq⟩

theorem nlink_pos (hd : (m d).type = .dir) (he : e ∈ (m d).rest)
    (hne : e.inum ≠ 0) : 0 < (m e.inum).nlink := by
  have hpos := h.names_pos hd he hne
  have := h.link e.inum hne
  omega

theorem type_ne (hd : (m d).type = .dir) (he : e ∈ (m d).rest)
    (hne : e.inum ≠ 0) : (m e.inum).type ≠ .none := by
  intro hnone
  have := h.nlink_pos hd he hne
  rw [h.free _ hnone] at this
  omega

theorem parent_of_named (hi : (m i).type = .dir) (hn : (m i).nlink ≠ 0)
    (hroot : i ≠ rootIno) : (m (m i).parent).type = .dir ∧ (m (m i).parent).nlink ≠ 0 ∧
      ∃ e ∈ (m (m i).parent).rest, e.inum = i := by
  obtain ⟨d, hd, e, he, rfl⟩ :=
    h.exists_of_names_pos (h.ne_zero hi) (by rw [h.named i hi hn hroot]; exact Nat.one_pos)
  obtain ⟨hp, hnd, -⟩ := h.sub d hd e he hi
  rw [hp]
  exact ⟨hd, hnd, e, he, rfl⟩

theorem subs_eq (hi : i ≠ 0) (d : Nat) :
    (m d).subs i = if (m d).type = .dir ∧ (m d).nlink ≠ 0 ∧ (m d).parent = i then 1 else 0 := by
  by_cases hd : (m d).type = .dir ∧ (m d).nlink ≠ 0
  · rw [(h.shape d hd.1).subs_eq hd.1 hd.2 hi]
    simp [hd]
  · rw [Inode.subs, if_neg hd, if_neg fun hc => hd ⟨hc.1, hc.2.1⟩]

end

theorem names_of_ne (h : (m d).type ≠ .dir) : (m d).names i = 0 := by simp [Inode.names, h]

end Links

/-! ## A new entry -/

/-- The directory `dp` with an entry for `ip`, and one more link if `ip` is a subdirectory. -/
def Inode.gain (y : Inode) (e : Dirent) (type : FType) : Inode :=
  { y.add e with nlink := y.nlink + if type = .dir then 1 else 0 }

/-- Directory `dp` gets the entry `name` for inode `ip`, which becomes `x`: a new file, device or
directory, or a file with one more link. -/
structure Entering (strict : Bool) (m : Nat → Inode) (dp ip : Nat) (x : Inode) (name : Name) :
    Prop where
  dir : (m dp).type = .dir
  ne : ip ≠ dp
  bound : 0 < ip ∧ ip < ninodes
  regular : name ≠ dot ∧ name ≠ dotdot
  old : (m ip).type ≠ .dir
  strict : strict → (m dp).nlink ≠ 0
  type : x.type ≠ .none
  nlink : x.nlink = (m ip).nlink + 1
  range : x.nlink ≤ 32767
  plain : x.type ≠ .dir → x.ents = []
  /-- A new directory is empty, and made in a directory that has not been removed. -/
  made : x.type = .dir → (m ip).type = .none ∧ x.ents = [⟨ip, dot⟩, ⟨dp, dotdot⟩] ∧
    (m dp).nlink ≠ 0 ∧ (m dp).nlink < 32767

namespace Entering

variable {strict tight : Bool} {m : Nat → Inode} {dp ip i : Nat} {x : Inode} {name : Name}

def after (m : Nat → Inode) (dp ip : Nat) (x : Inode) (name : Name) : Nat → Inode :=
  update (update m ip x) dp ((m dp).gain ⟨ip, name⟩ x.type)

theorem after_dp : after m dp ip x name dp = (m dp).gain ⟨ip, name⟩ x.type := update_self ..

theorem after_ip (h : ip ≠ dp) : after m dp ip x name ip = x := by
  rw [after, update_of_ne h, update_self]

theorem after_of_ne (hdp : i ≠ dp) (hip : i ≠ ip) : after m dp ip x name i = m i := by
  rw [after, update_of_ne hdp, update_of_ne hip]

theorem after_type (hip : i ≠ ip) : (after m dp ip x name i).type = (m i).type := by
  by_cases hdp : i = dp
  · rw [hdp, after_dp, Inode.gain, Inode.add]
  · rw [after_of_ne hdp hip]

variable (h : Entering strict m dp ip x name)
include h

theorem parent_eq (hx : x.type = .dir) : x.parent = dp := by
  simp [Inode.parent, (h.made hx).2.1]

theorem rest_eq : x.rest = [] := by
  by_cases hx : x.type = .dir
  · simp [Inode.rest, (h.made hx).2.1]
  · simp [Inode.rest, h.plain hx]

theorem after_nlink (i : Nat) :
    (after m dp ip x name i).nlink = (m i).nlink + (if i = ip then 1 else 0) +
      if x.type = .dir ∧ i = dp then 1 else 0 := by
  by_cases hip : i = ip
  · rw [hip, after_ip h.ne, h.nlink]
    simp [h.ne]
  by_cases hdp : i = dp
  · rw [hdp, after_dp, Inode.gain]
    simp [h.ne.symm]
  · rw [after_of_ne hdp hip]
    simp [hip, hdp]

variable (hl : Links strict tight m)
include hl

theorem isDir (hx : x.type = .dir) : x.IsDir ip := by
  have hents := (h.made hx).2.1
  refine ⟨?_, ?_, ?_⟩
  · simp [Inode.parent, Inode.rest, hents]
  · simpa [Inode.parent, hents] using hl.ne_zero h.dir
  · simp [Inode.rest, hents]

theorem nlink_ne : x.nlink ≠ 0 := by
  have := hl.nlink_nonneg ip
  have := h.nlink
  omega

theorem gain_isDir : ((m dp).gain ⟨ip, name⟩ x.type).IsDir dp :=
  let hd := (hl.shape dp h.dir).add (e := ⟨ip, name⟩) (hl.ne_zero h.dir) h.regular
  ⟨hd.eq, hd.parent_ne, hd.regular⟩

theorem gain_parent : ((m dp).gain ⟨ip, name⟩ x.type).parent = (m dp).parent :=
  (hl.shape dp h.dir).add_parent (hl.ne_zero h.dir)

theorem gain_rest : ((m dp).gain ⟨ip, name⟩ x.type).rest = addEntry (m dp).rest ⟨ip, name⟩ :=
  (hl.shape dp h.dir).add_rest (hl.ne_zero h.dir)

theorem gain_nlink : ((m dp).gain ⟨ip, name⟩ x.type).nlink = 0 ↔ (m dp).nlink = 0 := by
  rw [Inode.gain]
  by_cases hx : x.type = .dir
  · have := hl.nlink_nonneg dp
    have := (h.made hx).2.2.1
    simp only [hx, if_true]
    omega
  · simp [hx]

theorem names_gain (hi : i ≠ 0) :
    ((m dp).gain ⟨ip, name⟩ x.type).names i = (m dp).names i + if i = ip then 1 else 0 := by
  rw [(h.gain_isDir hl).names_eq h.dir hi, (hl.shape dp h.dir).names_eq h.dir hi, h.gain_rest hl,
    countP_addEntry hi]
  simp only [eq_comm]

theorem subs_gain (hi : i ≠ 0) : ((m dp).gain ⟨ip, name⟩ x.type).subs i = (m dp).subs i := by
  rw [hl.subs_eq hi]
  by_cases hn : (m dp).nlink = 0
  · have : ((m dp).gain ⟨ip, name⟩ x.type).nlink = 0 := (h.gain_nlink hl).mpr hn
    simp [Inode.subs, this, hn]
  · rw [(h.gain_isDir hl).subs_eq h.dir (fun hc => hn ((h.gain_nlink hl).mp hc)) hi,
      h.gain_parent hl]
    simp [h.dir, hn]

theorem names_new (hi : i ≠ 0) : x.names i = 0 := by
  by_cases hx : x.type = .dir
  · rw [(h.isDir hl hx).names_eq hx hi, h.rest_eq]
    rfl
  · simp [Inode.names, hx]

theorem subs_new (hi : i ≠ 0) : x.subs i = if x.type = .dir ∧ i = dp then 1 else 0 := by
  by_cases hx : x.type = .dir
  · rw [(h.isDir hl hx).subs_eq hx (h.nlink_ne hl) hi, h.parent_eq hx]
    simp [hx, eq_comm]
  · simp [Inode.subs, hx]

theorem tally_names (hi : i ≠ 0) :
    tally (Inode.names i) (after m dp ip x name) =
      tally (Inode.names i) m + if i = ip then 1 else 0 := by
  have := tally_update₂ (g := Inode.names i) (m := m) (x := x)
    (y := (m dp).gain ⟨ip, name⟩ x.type) h.bound.2 (hl.bound_dir h.dir).2 h.ne
  rw [h.names_gain hl hi, h.names_new hl hi, Links.names_of_ne h.old] at this
  rw [after]
  omega

theorem tally_subs (hi : i ≠ 0) :
    tally (Inode.subs i) (after m dp ip x name) =
      tally (Inode.subs i) m + if x.type = .dir ∧ i = dp then 1 else 0 := by
  have := tally_update₂ (g := Inode.subs i) (m := m) (x := x)
    (y := (m dp).gain ⟨ip, name⟩ x.type) h.bound.2 (hl.bound_dir h.dir).2 h.ne
  rw [h.subs_gain hl hi, h.subs_new hl hi, hl.subs_eq hi ip, if_neg fun hc => h.old hc.1] at this
  rw [after]
  omega

theorem after_parent (hip : i ≠ ip) : (after m dp ip x name i).parent = (m i).parent := by
  by_cases hdp : i = dp
  · rw [hdp, after_dp, h.gain_parent hl]
  · rw [after_of_ne hdp hip]

theorem after_nlink_eq_zero (hip : i ≠ ip) : (after m dp ip x name i).nlink = 0 ↔
    (m i).nlink = 0 := by
  by_cases hdp : i = dp
  · rw [hdp, after_dp, h.gain_nlink hl]
  · rw [after_of_ne hdp hip]

theorem mem_after_rest {e : Dirent}
    (he : e ∈ (after m dp ip x name i).rest) :
    i ≠ ip ∧ (e ∈ (m i).rest ∨ i = dp ∧ e = ⟨ip, name⟩) := by
  by_cases hip : i = ip
  · rw [hip, after_ip h.ne, h.rest_eq] at he
    exact absurd he (by simp)
  refine ⟨hip, ?_⟩
  by_cases hdp : i = dp
  · rw [hdp, after_dp, h.gain_rest hl] at he
    rcases mem_addEntry he with he | he
    · exact .inl (hdp ▸ he)
    · exact .inr ⟨hdp, he⟩
  · rw [after_of_ne hdp hip] at he
    exact .inl he

theorem not_mem_rest (hx : x.type = .dir) {e : Dirent} (hi : (m i).type = .dir)
    (he : e ∈ (m i).rest) :
    e.inum ≠ ip := by
  intro heq
  exact hl.type_ne hi he (by rw [heq]; exact Nat.ne_of_gt h.bound.1)
    (by rw [heq]; exact (h.made hx).1)

theorem links : Links strict tight (after m dp ip x name) where
  bound i hi := by
    by_cases hip : i = ip
    · exact hip ▸ h.bound
    · exact hl.bound i (by rwa [after_type hip] at hi)
  free i hi := by
    by_cases hip : i = ip
    · rw [hip, after_ip h.ne] at hi
      exact absurd hi h.type
    · rw [after_type hip] at hi
      exact (h.after_nlink_eq_zero hl hip).mpr (hl.free i hi)
  plain i hi := by
    by_cases hip : i = ip
    · rw [hip, after_ip h.ne] at hi ⊢
      exact h.plain hi
    · rw [after_type hip] at hi
      rw [after_of_ne (fun hdp : i = dp => hi (hdp ▸ h.dir)) hip]
      exact hl.plain i hi
  shape i hi := by
    by_cases hip : i = ip
    · rw [hip, after_ip h.ne] at hi ⊢
      exact h.isDir hl hi
    by_cases hdp : i = dp
    · rw [hdp, after_dp]
      exact h.gain_isDir hl
    · rw [after_of_ne hdp hip] at hi ⊢
      exact hl.shape i hi
  range i := by
    have := hl.range i
    by_cases hip : i = ip
    · rw [hip, after_ip h.ne]
      exact h.range
    by_cases hx : x.type = .dir ∧ i = dp
    · have := (h.made hx.1).2.2.2
      rw [h.after_nlink, if_neg hip, if_pos hx, hx.2]
      omega
    · rw [h.after_nlink, if_neg hip, if_neg hx]
      omega
  link i hi := by
    have := hl.link i hi
    rw [h.tally_names hl hi, h.tally_subs hl hi, h.after_nlink]
    split_ifs <;> omega
  eq i hi hor := by
    have heq : (m i).nlink = tally (Inode.names i) m + tally (Inode.subs i) m := by
      by_cases hip : i = ip
      · by_cases hx : x.type = .dir
        · have h0 := hl.free i (hip ▸ (h.made hx).1)
          have := hl.link i hi
          omega
        · rw [hip, after_ip h.ne] at hor
          exact hl.eq i hi (.inr (hor.resolve_left hx))
      · rw [after_type hip] at hor
        exact hl.eq i hi hor
    rw [h.tally_names hl hi, h.tally_subs hl hi, h.after_nlink, heq]
    split_ifs <;> omega
  sub d hd e he hdir := by
    obtain ⟨hdi, he | ⟨rfl, rfl⟩⟩ := h.mem_after_rest hl he
    · rw [after_type hdi] at hd
      have hei : e.inum ≠ ip := by
        intro heq
        rw [heq, after_ip h.ne] at hdir
        exact h.not_mem_rest hl hdir hd he heq
      rw [after_type hei] at hdir
      rw [h.after_parent hl hei, Ne, h.after_nlink_eq_zero hl hdi]
      exact hl.sub d hd e he hdir
    · rw [after_ip h.ne] at hdir
      rw [after_ip h.ne, Ne, h.after_nlink_eq_zero hl hdi]
      refine ⟨h.parent_eq hdir, (h.made hdir).2.2.1, ?_, h.ne⟩
      rintro rfl
      exact h.old hl.root.1
  named i hi hn hroot := by
    by_cases hip : i = ip
    · rw [hip, after_ip h.ne] at hi
      have h0 := hl.free ip (h.made hi).1
      have hne : ip ≠ 0 := Nat.ne_of_gt h.bound.1
      have := hl.link ip hne
      rw [hip, h.tally_names hl hne, if_pos rfl]
      omega
    · rw [after_type hip] at hi
      rw [Ne, h.after_nlink_eq_zero hl hip] at hn
      rw [h.tally_names hl (hl.ne_zero hi), if_neg hip, hl.named i hi hn hroot]
  removed hs d hd hn e he := by
    obtain ⟨hdi, he⟩ := h.mem_after_rest hl he
    rw [after_type hdi] at hd
    rw [h.after_nlink_eq_zero hl hdi] at hn
    rcases he with he | ⟨rfl, -⟩
    · exact hl.removed hs d hd hn e he
    · exact absurd hn (h.strict hs)
  tight ht d hd := by
    by_cases hdi : d = ip
    · rw [hdi, after_ip h.ne] at hd ⊢
      rw [h.parent_eq hd, after_type h.ne.symm, Ne, h.after_nlink_eq_zero hl h.ne.symm]
      exact ⟨h.dir, (h.made hd).2.2.1⟩
    · rw [after_type hdi] at hd
      have hp := hl.tight ht d hd
      have hpi : (m d).parent ≠ ip := fun heq => h.old (heq ▸ hp.1)
      rw [h.after_parent hl hdi, after_type hpi, Ne, h.after_nlink_eq_zero hl hpi]
      exact hp
  root := by
    have hne : rootIno ≠ ip := fun heq => h.old (heq ▸ hl.root.1)
    rw [after_type hne, h.after_parent hl hne, Ne, h.after_nlink_eq_zero hl hne]
    exact hl.root

end Entering

/-! ## An entry removed -/

/-- The directory without the entry, and with one link less if it was for a subdirectory. -/
def Inode.lose (y : Inode) (k : Nat) (type : FType) : Inode :=
  { y.clear k with nlink := y.nlink - if type = .dir then 1 else 0 }

def Inode.drop (x : Inode) : Inode := { x with nlink := x.nlink - 1 }

/-- Directory `dp` loses the entry after `.` and `..` and `k` others, which is for inode `ip`: a file,
or an empty directory. -/
structure Leaving (tight : Bool) (m : Nat → Inode) (dp ip k : Nat) : Prop where
  dir : (m dp).type = .dir
  ne_zero : ip ≠ 0
  entry : ∃ e, (m dp).rest[k]? = some e ∧ e.inum = ip
  empty : (m ip).type = .dir → ∀ e ∈ (m ip).rest, e.inum = 0
  tight : tight → (m ip).type = .dir → ∀ d, d ≠ ip → (m d).type = .dir → (m d).parent ≠ ip

namespace Leaving

variable {strict tight : Bool} {m : Nat → Inode} {dp ip k i : Nat}

def after (m : Nat → Inode) (dp ip k : Nat) : Nat → Inode :=
  update (update m ip (m ip).drop) dp ((m dp).lose (k + 2) (m ip).type)

theorem after_dp : after m dp ip k dp = (m dp).lose (k + 2) (m ip).type := update_self ..

theorem after_ip (h : ip ≠ dp) : after m dp ip k ip = (m ip).drop := by
  rw [after, update_of_ne h, update_self]

theorem after_of_ne (hdp : i ≠ dp) (hip : i ≠ ip) : after m dp ip k i = m i := by
  rw [after, update_of_ne hdp, update_of_ne hip]

theorem after_type (i : Nat) : (after m dp ip k i).type = (m i).type := by
  by_cases hdp : i = dp
  · rw [hdp, after_dp, Inode.lose, Inode.clear]
  by_cases hip : i = ip
  · rw [hip, after_ip (hip ▸ hdp), Inode.drop]
  · rw [after_of_ne hdp hip]

variable (h : Leaving tight m dp ip k)
include h

theorem mem : ∃ e ∈ (m dp).rest, e.inum = ip := by
  obtain ⟨e, he, heq⟩ := h.entry
  exact ⟨e, List.mem_of_getElem? he, heq⟩

variable (hl : Links strict tight m)
include hl

theorem nlink_pos : 0 < (m ip).nlink := by
  obtain ⟨e, he, rfl⟩ := h.mem
  exact hl.nlink_pos h.dir he h.ne_zero

theorem bound : ip < ninodes := by
  obtain ⟨e, he, rfl⟩ := h.mem
  exact (hl.bound _ (hl.type_ne h.dir he h.ne_zero)).2

theorem sub (hip : (m ip).type = .dir) :
    (m ip).parent = dp ∧ (m dp).nlink ≠ 0 ∧ ip ≠ rootIno ∧ ip ≠ dp := by
  obtain ⟨e, he, rfl⟩ := h.mem
  exact hl.sub dp h.dir e he hip

theorem ne : ip ≠ dp := by
  intro heq
  exact (h.sub hl (heq ▸ h.dir)).2.2.2 heq

theorem subs_ip (hip : (m ip).type = .dir) : tally (Inode.subs ip) m = 0 := by
  by_contra hne
  obtain ⟨j, -, hj⟩ := exists_of_tally_pos (Nat.pos_of_ne_zero hne)
  rw [hl.subs_eq h.ne_zero] at hj
  have hc : (m j).type = .dir ∧ (m j).nlink ≠ 0 ∧ (m j).parent = ip := by
    by_contra hc
    rw [if_neg hc] at hj
    exact absurd hj (Nat.lt_irrefl 0)
  have hroot : j ≠ rootIno := by
    rintro rfl
    exact (h.sub hl hip).2.2.1 (hc.2.2.symm.trans hl.root.2.1)
  obtain ⟨-, -, e, he, heq⟩ := hl.parent_of_named hc.1 hc.2.1 hroot
  rw [hc.2.2] at he
  exact hl.ne_zero hc.1 (heq.symm.trans (h.empty hip e he))

theorem nlink_ip (hip : (m ip).type = .dir) : (m ip).nlink = 1 := by
  have hpos := h.nlink_pos hl
  rw [hl.eq ip h.ne_zero (.inl hip), h.subs_ip hl hip,
    hl.named ip hip (by omega) (h.sub hl hip).2.2.1]
  rfl

theorem drop_nlink (hip : (m ip).type = .dir) : (m ip).drop.nlink = 0 := by
  rw [Inode.drop, h.nlink_ip hl hip]
  rfl

theorem subs_drop : (m ip).drop.subs i = 0 := by
  by_cases hip : (m ip).type = .dir
  · simp [Inode.subs, h.drop_nlink hl hip]
  · simp [Inode.subs, Inode.drop, hip]

theorem subs_ip_eq (hi : i ≠ 0) : (m ip).subs i = if (m ip).type = .dir ∧ i = dp then 1 else 0 := by
  rw [hl.subs_eq hi]
  by_cases hip : (m ip).type = .dir
  · have hpos := h.nlink_pos hl
    rw [(h.sub hl hip).1]
    simp [hip, hpos.ne', eq_comm]
  · simp [hip]

theorem two_le_nlink (hip : (m ip).type = .dir) : 2 ≤ (m dp).nlink := by
  have hdp := hl.ne_zero h.dir
  have hsubs := tally_update (g := Inode.subs dp) (m := m) (x := (m ip).drop) (h.bound hl)
  rw [h.subs_ip_eq hl hdp, h.subs_drop hl, if_pos ⟨hip, rfl⟩] at hsubs
  rw [hl.eq dp hdp (.inl h.dir)]
  by_cases hroot : dp = rootIno
  · have hle := le_tally (g := Inode.subs dp) (m := update m ip (m ip).drop)
      (hl.bound_dir h.dir).2
    rw [update_of_ne (h.ne hl).symm, hl.subs_eq hdp,
      if_pos ⟨h.dir, hroot ▸ hl.root.2.2, hroot ▸ hl.root.2.1⟩] at hle
    omega
  · rw [hl.named dp h.dir (h.sub hl hip).2.1 hroot]
    omega

theorem lose_isDir : ((m dp).lose (k + 2) (m ip).type).IsDir dp :=
  let hd := (hl.shape dp h.dir).clear (k := k)
  ⟨hd.eq, hd.parent_ne, hd.regular⟩

theorem lose_parent : ((m dp).lose (k + 2) (m ip).type).parent = (m dp).parent :=
  (hl.shape dp h.dir).clear_parent

theorem lose_rest : ((m dp).lose (k + 2) (m ip).type).rest = (m dp).rest.set k ⟨0, []⟩ :=
  (hl.shape dp h.dir).clear_rest

theorem lose_nlink : ((m dp).lose (k + 2) (m ip).type).nlink = 0 ↔ (m dp).nlink = 0 := by
  rw [Inode.lose]
  by_cases hip : (m ip).type = .dir
  · have := h.two_le_nlink hl hip
    simp only [hip, if_true]
    omega
  · simp [hip]

theorem names_lose (hi : i ≠ 0) :
    ((m dp).lose (k + 2) (m ip).type).names i + (if i = ip then 1 else 0) = (m dp).names i := by
  obtain ⟨e, he, heq⟩ := h.entry
  obtain ⟨hk, hget⟩ := List.getElem?_eq_some_iff.mp he
  rw [(h.lose_isDir hl).names_eq h.dir hi, (hl.shape dp h.dir).names_eq h.dir hi, h.lose_rest hl,
    ← countP_clear hi hk, hget, heq]
  simp only [eq_comm]

theorem subs_lose (hi : i ≠ 0) : ((m dp).lose (k + 2) (m ip).type).subs i = (m dp).subs i := by
  rw [hl.subs_eq hi]
  by_cases hn : (m dp).nlink = 0
  · have : ((m dp).lose (k + 2) (m ip).type).nlink = 0 := (h.lose_nlink hl).mpr hn
    simp [Inode.subs, this, hn]
  · rw [(h.lose_isDir hl).subs_eq h.dir (fun hc => hn ((h.lose_nlink hl).mp hc)) hi,
      h.lose_parent hl]
    simp [h.dir, hn]

theorem tally_names (hi : i ≠ 0) :
    tally (Inode.names i) (after m dp ip k) + (if i = ip then 1 else 0) =
      tally (Inode.names i) m := by
  have := tally_update₂ (g := Inode.names i) (m := m) (x := (m ip).drop)
    (y := (m dp).lose (k + 2) (m ip).type) (h.bound hl) (hl.bound_dir h.dir).2 (h.ne hl)
  have hdrop : (m ip).drop.names i = (m ip).names i := rfl
  rw [hdrop, ← h.names_lose hl hi] at this
  rw [after]
  omega

theorem tally_subs (hi : i ≠ 0) :
    tally (Inode.subs i) (after m dp ip k) + (if (m ip).type = .dir ∧ i = dp then 1 else 0) =
      tally (Inode.subs i) m := by
  have := tally_update₂ (g := Inode.subs i) (m := m) (x := (m ip).drop)
    (y := (m dp).lose (k + 2) (m ip).type) (h.bound hl) (hl.bound_dir h.dir).2 (h.ne hl)
  rw [h.subs_lose hl hi, h.subs_drop hl, h.subs_ip_eq hl hi] at this
  rw [after]
  omega

theorem after_parent (i : Nat) : (after m dp ip k i).parent = (m i).parent := by
  by_cases hdp : i = dp
  · rw [hdp, after_dp, h.lose_parent hl]
  by_cases hip : i = ip
  · rw [hip, after_ip (h.ne hl)]
    rfl
  · rw [after_of_ne hdp hip]

theorem after_nlink_eq_zero (hip : i ≠ ip) : (after m dp ip k i).nlink = 0 ↔ (m i).nlink = 0 := by
  by_cases hdp : i = dp
  · rw [hdp, after_dp, h.lose_nlink hl]
  · rw [after_of_ne hdp hip]

theorem after_nlink (i : Nat) :
    (after m dp ip k i).nlink = (m i).nlink - (if i = ip then 1 else 0) -
      if (m ip).type = .dir ∧ i = dp then 1 else 0 := by
  by_cases hip : i = ip
  · rw [hip, after_ip (h.ne hl), Inode.drop]
    simp [h.ne hl]
  by_cases hdp : i = dp
  · rw [hdp, after_dp, Inode.lose]
    simp [(h.ne hl).symm]
  · rw [after_of_ne hdp hip]
    simp [hip, hdp]

theorem mem_after_rest {e : Dirent}
    (he : e ∈ (after m dp ip k i).rest) : e ∈ (m i).rest ∨ e.inum = 0 := by
  by_cases hdp : i = dp
  · rw [hdp, after_dp, h.lose_rest hl] at he
    rcases List.mem_or_eq_of_mem_set he with he | rfl
    · exact .inl (hdp ▸ he)
    · exact .inr rfl
  by_cases hip : i = ip
  · rw [hip, after_ip (h.ne hl)] at he
    exact .inl (hip ▸ he)
  · rw [after_of_ne hdp hip] at he
    exact .inl he

theorem links : Links strict tight (after m dp ip k) where
  bound i hi := hl.bound i (by rwa [after_type] at hi)
  free i hi := by
    rw [after_type] at hi
    have hip : i ≠ ip := by
      rintro rfl
      obtain ⟨e, he, rfl⟩ := h.mem
      exact hl.type_ne h.dir he h.ne_zero hi
    exact (h.after_nlink_eq_zero hl hip).mpr (hl.free i hi)
  plain i hi := by
    rw [after_type] at hi
    have hdp : i ≠ dp := fun hdp => hi (hdp ▸ h.dir)
    by_cases hip : i = ip
    · rw [hip, after_ip (h.ne hl)]
      exact hl.plain ip (hip ▸ hi)
    · rw [after_of_ne hdp hip]
      exact hl.plain i hi
  shape i hi := by
    rw [after_type] at hi
    by_cases hdp : i = dp
    · rw [hdp, after_dp]
      exact h.lose_isDir hl
    by_cases hip : i = ip
    · have hd := hl.shape ip (hip ▸ hi)
      rw [hip, after_ip (h.ne hl)]
      exact ⟨hd.eq, hd.parent_ne, hd.regular⟩
    · rw [after_of_ne hdp hip]
      exact hl.shape i hi
  range i := by
    have := hl.range i
    rw [h.after_nlink hl]
    split_ifs <;> omega
  link i hi := by
    have := hl.link i hi
    rw [← h.tally_names hl hi, ← h.tally_subs hl hi] at this
    rw [h.after_nlink hl]
    split_ifs at this ⊢ <;> omega
  eq i hi hor := by
    rw [after_type] at hor
    have := hl.eq i hi hor
    rw [← h.tally_names hl hi, ← h.tally_subs hl hi] at this
    rw [h.after_nlink hl]
    split_ifs at this ⊢ <;> omega
  sub d hd e he hdir := by
    rw [after_type] at hd hdir
    rcases h.mem_after_rest hl he with hmem | h0
    · have hne : d ≠ ip := fun heq =>
        hl.ne_zero hdir (h.empty (heq ▸ hd) e (heq ▸ hmem))
      rw [h.after_parent hl, Ne, h.after_nlink_eq_zero hl hne]
      exact hl.sub d hd e hmem hdir
    · exact absurd h0 (hl.ne_zero hdir)
  named i hi hn hroot := by
    rw [after_type] at hi
    have hip : i ≠ ip := by
      rintro rfl
      rw [after_ip (h.ne hl)] at hn
      exact hn (h.drop_nlink hl hi)
    rw [Ne, h.after_nlink_eq_zero hl hip] at hn
    have := h.tally_names hl (hl.ne_zero hi)
    rwa [if_neg hip, Nat.add_zero, hl.named i hi hn hroot] at this
  removed hs d hd hn e he := by
    rw [after_type] at hd
    rcases h.mem_after_rest hl he with he | he
    · by_cases hne : d = ip
      · exact h.empty (hne ▸ hd) e (hne ▸ he)
      · rw [h.after_nlink_eq_zero hl hne] at hn
        exact hl.removed hs d hd hn e he
    · exact he
  tight ht d hd := by
    rw [after_type] at hd
    have hp := hl.tight ht d hd
    have hne : (m d).parent ≠ ip := by
      intro heq
      have hip : (m ip).type = .dir := heq ▸ hp.1
      by_cases hdi : d = ip
      · exact h.ne hl (heq.symm.trans (hdi ▸ (h.sub hl hip).1))
      · exact h.tight ht hip d hdi hd heq
    rw [h.after_parent hl, after_type, Ne, h.after_nlink_eq_zero hl hne]
    exact hp
  root := by
    have hne : rootIno ≠ ip := by
      rintro rfl
      exact (h.sub hl hl.root.1).2.2.1 rfl
    rw [after_type, h.after_parent hl, Ne, h.after_nlink_eq_zero hl hne]
    exact hl.root

end Leaving

/-! ## A free inode -/

structure Inode.IsFree (x : Inode) : Prop where
  type : x.type = .none
  nlink : x.nlink = 0
  ents : x.ents = []

namespace Links

variable {strict tight : Bool} {m : Nat → Inode} {i j : Nat} {z : Inode}

theorem names_removed (h : Links strict tight m) (hn : (m i).nlink = 0) (hj : j ≠ 0)
    (hor : (m j).type = .dir ∨ strict) : (m i).names j = 0 := by
  by_cases hi : (m i).type = .dir
  · rw [(h.shape i hi).names_eq hi hj, List.countP_eq_zero]
    intro e he
    rw [decide_eq_true_iff]
    rintro rfl
    rcases hor with hdir | hs
    · exact (h.sub i hi e he hdir).2.1 hn
    · exact hj (h.removed hs i hi hn e he)
  · exact names_of_ne hi

/-- **Freeing an inode without links keeps the link counts.** -/
theorem erase (h : Links strict tight m) (hb : i < ninodes) (hn : (m i).nlink = 0)
    (hz : z.IsFree) : Links strict tight (update m i z) := by
  have hnames : ∀ j, tally (Inode.names j) (update m i z) + (m i).names j =
      tally (Inode.names j) m := fun j => by
    rw [tally_update hb]
    simp [Inode.names, hz.type]
  have hsubs : ∀ j, tally (Inode.subs j) (update m i z) = tally (Inode.subs j) m := by
    intro j
    have := tally_update (g := Inode.subs j) (m := m) (x := z) hb
    simpa [Inode.subs, hz.type, hn] using this
  have hnlink : ∀ j, (update m i z j).nlink = (m j).nlink := fun j => by
    by_cases hj : j = i
    · rw [hj, update_self, hz.nlink, hn]
    · rw [update_of_ne hj]
  have hof : ∀ {j : Nat}, (update m i z j).type ≠ .none →
      update m i z j = m j := fun {j} hj => by
    refine update_of_ne ?_ ..
    rintro rfl
    exact hj (by rw [update_self, hz.type])
  have hdir : ∀ {j : Nat}, (update m i z j).type = .dir →
      update m i z j = m j := fun {j} hj => hof (by rw [hj]; simp)
  have hkeep : ∀ {j : Nat}, (m j).nlink ≠ 0 → update m i z j = m j := fun {j} hj => by
    refine update_of_ne ?_ ..
    rintro rfl
    exact hj hn
  refine ⟨?_, ?_, ?_, ?_, ?_, ?_, ?_, ?_, ?_, ?_, ?_, ?_⟩
  · intro j hj
    exact h.bound j (hof hj ▸ hj)
  · intro j hj
    by_cases hji : j = i
    · rw [hnlink, hji, hn]
    · rw [hnlink]
      exact h.free j (by rwa [update_of_ne hji] at hj)
  · intro j hj
    by_cases hji : j = i
    · rw [hji, update_self, hz.ents]
    · rw [update_of_ne hji] at hj ⊢
      exact h.plain j hj
  · intro j hj
    have heq := hdir hj
    rw [heq] at hj ⊢
    exact h.shape j hj
  · intro j
    rw [hnlink]
    exact h.range j
  · intro j hj
    have := h.link j hj
    have := hnames j
    rw [hnlink, hsubs]
    omega
  · intro j hj hor
    have hor' : (m j).type = .dir ∨ strict := hor.imp_left fun hd => hdir hd ▸ hd
    have := hnames j
    rw [h.names_removed hn hj hor'] at this
    have := h.eq j hj hor'
    rw [hnlink, hsubs]
    omega
  · intro d hd e he hed
    have heq := hdir hd
    have heqe := hdir hed
    rw [heq] at hd he ⊢
    rw [heqe] at hed ⊢
    exact h.sub d hd e he hed
  · intro j hj hnj hroot
    have heq := hdir hj
    rw [heq] at hj hnj
    have := hnames j
    rw [h.names_removed hn (h.ne_zero hj) (.inl hj), Nat.add_zero, h.named j hj hnj hroot] at this
    exact this
  · intro hs d hd hnd e he
    have heq := hdir hd
    rw [heq] at hd hnd he
    exact h.removed hs d hd hnd e he
  · intro ht d hd
    have heq := hdir hd
    rw [heq] at hd ⊢
    have hp := h.tight ht d hd
    rw [hkeep hp.2]
    exact hp
  · rw [hkeep h.root.2.2]
    exact h.root

end Links

end Xv6.Fs
