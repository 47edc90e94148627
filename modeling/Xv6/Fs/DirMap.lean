import Xv6.Fs.Directories
import Xv6.Fs.Ownership

/-!
# Runs keep the directories

The steps of a run are the system calls; `dirlink`, `ialloc` and `itrunc` are not steps of their own
here, because the calls use them only where they are followed by what restores the shape of a
directory.
-/

namespace Xv6.Fs

open Prog

attribute [local irreducible] wp

/-- A system call.  The path of `sys_unlink` is a C string. -/
def Step.IsCall : Step → Prop
  | .ialloc _ | .dirlink .. | .itrunc _ => False
  | .unlink _ path => CString path
  | _ => True

structure Node.Exact (L : Layout) (x : Node) : Prop where
  rest : x.Rest L
  count : ∀ i, x.vol.ref i = x.held.count i
  ne_zero : ∀ i ∈ x.held, i ≠ 0
  live : ∀ i ∈ x.held, x.vol.typeOf L i ≠ 0

def Node.begin (x : Node) : Vol := { x.vol with inOp := true, logged := [] }

namespace Vol

def Broken (L : Layout) (s : Vol) (i : Nat) : Prop :=
  s.typeOf L i = 1 ∧ ¬IsDirData i (s.files L i)

def NoInodes : Stop → Vol → Prop := fun e _ => e = .panic .igetNoInodes

/-- `dirlookup` finds what the map says. -/
def LooksUp (L : Layout) (s : Vol) (dp : Nat) : Prop := ∀ name : Name,
  wp (dirlookup L dp name) (fun r t => r.map Prod.fst = lookup (s.files L dp) (nameKey name) ∧
    t.files L = s.files L) NoInodes s

/-- What `dirlink` does to the map if it succeeds. -/
structure EntryAdded (L : Layout) (dp : Nat) (name : Name) (inum : Nat) (s t : Vol) : Prop where
  fresh : lookup (s.files L dp) (nameKey name) = none
  lookup : ∀ κ, lookup (t.files L dp) κ =
    if κ = nameKey name then some inum else lookup (s.files L dp) κ
  /-- Names that are equal in their first `DIRSIZ` characters are the same. -/
  same : ∀ name' : Name, name'.take dirsiz = name.take dirsiz →
    Fs.lookup (t.files L dp) (nameKey name') = some inum
  entries : ∀ k ≠ emptySlot (s.files L dp), ∀ i κ,
    Entry (t.files L dp) k i κ ↔ Entry (s.files L dp) k i κ

/-- `dirlookup` and `dirlink` act on a locked directory as on a map. -/
structure ActsAsMap (L : Layout) (s : Vol) (dp : Nat) : Prop where
  dirlookup : LooksUp L s dp
  dirlink : ∀ (name : Name) (inum : Nat), inum ≠ 0 → inum < L.ninodes →
    wp (Vol.dirlink L dp name inum) (fun ok t => LooksUp L t dp ∧
      (∀ i ≠ dp, t.files L i = s.files L i) ∧
      (ok = true → EntryAdded L dp name inum s t) ∧
      -- it fails only if the name is there or the directory has no empty entry
      (ok = false → t.files L = s.files L ∧ (lookup (s.files L dp) (nameKey name) = none →
        (s.files L dp).length ≤ 16 * emptySlot (s.files L dp)))) NoInodes s

/-- What `sys_unlink` does to the directory `dp` that its path leads to. -/
structure EntryRemoved (L : Layout) (dp : Nat) (name : Name) (s t : Vol) : Prop where
  found : lookup (s.files L dp) (nameKey name) ≠ none
  lookup : t.typeOf L dp ≠ 0 → ∀ κ, lookup (t.files L dp) κ =
    if κ = nameKey name then none else lookup (s.files L dp) κ
  entries : t.typeOf L dp ≠ 0 → ∃ k, find (s.files L dp) (nameKey name) = some k ∧
    ∀ j ≠ k, ∀ i κ, Entry (t.files L dp) j i κ ↔ Entry (s.files L dp) j i κ
  /-- The other files are unaffected, unless they have been freed. -/
  others : ∀ i < L.ninodes, i ≠ dp → t.typeOf L i ≠ 0 → t.files L i = s.files L i

section Map

variable {L : Layout} {Y : Nat → Prop} {H V : List Nat} {s t : Vol} {dp cwd : Nat}

theorem Held.looksUp (h : Held L H V s) (hdp : dp ∈ V) (htype : s.typeOf L dp = 1)
    (hdir : IsDirData dp (s.files L dp)) : LooksUp L s dp := by
  intro name
  refine h.wp_dirlookup hdp (absurd htype) (absurd hdir.size) rfl (fun _ _ hfind => ?_)
    fun _ k t hfind hblock _ _ => ?_
  · rw [lookup, hfind]
    exact ⟨rfl, rfl⟩
  · rw [lookup, hfind]
    exact ⟨rfl, (Same.of_block hblock).files⟩

theorem Held.actsAsMap (h : Held L H V s) (hdp : dp ∈ V) (htype : s.typeOf L dp = 1)
    (hdir : IsDirData dp (s.files L dp)) : ActsAsMap L s dp := by
  have hsize := hdir.size
  have hdplt := h.lt (h.mem hdp)
  refine ⟨h.looksUp hdp htype hdir, fun name inum h0 hlt => ?_⟩
  refine h.wp_dirlink hdp hlt (absurd htype) (absurd hsize) rfl
    (fun t hfull hsame ht => ⟨?_, fun i _ => by rw [hsame.files], by simp, fun _ => ⟨hsame.files, ?_⟩⟩)
    fun t _ _ hfind hfiles htypes ht => ⟨?_, fun i hi => ?_, fun _ => ?_, by simp⟩
  · exact ht.looksUp hdp (by rwa [hsame.type dp hdplt]) (by rwa [hsame.files])
  · intro hnone
    exact hfull (Option.map_eq_none_iff.mp hnone)
  · refine ht.looksUp hdp (by rwa [htypes dp hdplt]) ?_
    rw [hfiles, Function.update_self]
    exact hdir.link hfind
  · rw [hfiles, Function.update_of_ne hi]
  · have hinum : inum < 2 ^ 16 := Nat.lt_of_lt_of_le hlt L.ninodes_le
    have hself : t.files L dp = overlay (s.files L dp) (16 * emptySlot (s.files L dp))
        (entryBytes name inum) := by
      rw [hfiles, Function.update_self]
    have hlookup := lookup_link hsize hdir.distinct hfind hinum h0
    have hslot := emptySlot_le (s.files L dp)
    refine ⟨by rw [lookup, hfind]; rfl, fun κ => by rw [hself, hlookup], fun name' hname => ?_,
      fun k hk i κ => ?_⟩
    · rw [hself, hlookup, if_pos (nameKey_of_take hname)]
    · rw [hself, entry_put hsize (length_entryBytes name inum) (by omega), if_neg hk]

theorem Becomes.entryRemoved {name : Name} {k : Nat} (h : Becomes L (cleared L s dp k) s t)
    (hdp : dp < L.ninodes) (hk : find (s.files L dp) (nameKey name) = some k)
    (hdir : IsDirData dp (s.files L dp)) : EntryRemoved L dp name s t := by
  have hsize := hdir.size
  have hself : t.typeOf L dp ≠ 0 →
      t.files L dp = overlay (s.files L dp) (16 * k) emptyBytes := by
    intro hne
    rw [(h dp hdp hne).2, cleared, Function.update_self]
  have hentry := find_eq_some hsize hk
  refine ⟨by rw [lookup, hk]; simp, fun hne κ => ?_, fun hne => ⟨k, hk, fun j hj i κ => ?_⟩,
    fun i hi hidp hne => ?_⟩
  · rw [hself hne, lookup_clear hsize hdir.distinct length_emptyBytes inumAt_emptyBytes hentry]
  · rw [hself hne, entry_put hsize length_emptyBytes (Nat.le_of_lt hentry.lt), if_neg hj]
  · rw [(h i hi hne).2, cleared, Function.update_of_ne hidp]

end Map

end Vol

/-! ## Runs -/

section Runs

variable {L : Layout} {Y : Nat → Prop} {x y : Node} {a : Step}

theorem Node.Exact.tidy (h : x.Exact L) (hshape : x.vol.Shape L Y) :
    Vol.Tidy L Y x.held [] x.begin :=
  ⟨⟨⟨[], h.rest.inv⟩, h.count, h.ne_zero⟩, h.live, hshape⟩

theorem Node.Exact.of_tidy {t : Vol} {held : List Nat} (h : Vol.Tidy L Y held [] t) :
    Node.Exact L ⟨t, held⟩ ∧ t.Shape L Y :=
  ⟨⟨.of_inv h.held.inv.choose_spec, h.held.count, h.held.ne_zero, h.live⟩, h.shape⟩

theorem Vol.Tidy.run {H : List Nat} {s : Vol} (h : Vol.Tidy L Y H [] s) (ha : a.IsCall)
    (hcan : a.Can L ⟨s, H⟩) (hop : a.inOp = true) :
    wp (a.run L H) (fun held t => Vol.Tidy L Y held [] t) Vol.anyStop s := by
  cases a with
  | «open» cwd path omode room =>
    rw [Step.run_of_cwd rfl, Step.call, wp_bind]
    refine (h.openTrunc hcan).mono_ok fun r t ht => ?_
    exact .pure (ht.weaken (List.nil_subset _))
  | make cwd path type major minor =>
    rw [Step.run_of_cwd rfl, Step.call, wp_bind]
    refine (h.sysMake hcan).mono_ok fun r t ht => ?_
    exact .pure ht
  | create cwd path type major minor =>
    rw [Step.run_of_cwd rfl, Step.call, wp_bind]
    refine (h.create hcan).mono_ok fun r t ht => ?_
    exact .pure (ht.weaken (List.nil_subset _))
  | link cwd old new =>
    rw [Step.run_of_cwd rfl, Step.call, wp_bind]
    refine (h.sysLink hcan).mono_ok fun r t ht => ?_
    exact .pure ht
  | unlink cwd path =>
    rw [Step.run_of_cwd rfl, Step.call, wp_bind]
    refine (h.sysUnlink hcan ha).mono_ok fun r t ht => ?_
    exact .pure ht.2.2
  | chdir cwd path =>
    rw [Step.run_of_cwd rfl, Step.call, wp_bind]
    refine (h.perm (List.perm_cons_erase hcan)).changeDir.mono_ok fun r t ht => ?_
    exact .pure ht
  | ialloc type => exact ha.elim
  | dirlink dp name ip => exact ha.elim
  | itrunc i => exact ha.elim
  | iput i =>
    rw [Step.run, wp_bind]
    refine (h.perm (List.perm_cons_erase hcan)).iput (W := []) (by simp) (by simp) fun t _ ht => ?_
    exact .pure ht
  | idup i =>
    rw [Step.run, wp_bind]
    refine h.held.wp_idup hcan fun t hblock ht => ?_
    have hsame := Vol.Same.of_block (L := L) hblock
    refine .pure ⟨ht, fun j hj => ?_, h.shape.calm hsame.calm⟩
    rw [hsame.type j (ht.lt hj)]
    rcases List.mem_cons.mp hj with rfl | hj
    · exact h.live j hcan
    · exact h.live j hj
  | write i off n src ok =>
    rw [Step.run, wp_bind]
    refine h.ilock hcan.1 fun t hblock ht => ?_
    have htype : t.typeOf L i ≠ 1 := by
      rw [Vol.typeOf, hblock]
      exact hcan.2
    refine .bind (ht.held.wp_writei List.mem_cons_self htype fun r u hsame htype' hu => ?_)
    refine .pure (Vol.Tidy.weaken ⟨hu, fun j hj => ?_, ht.shape.sameBut hsame (fun _ _ hY => hY)
      fun h1 => absurd (htype'.symm.trans h1) htype⟩ (List.nil_subset _))
    by_cases hji : j = i
    · rw [hji, htype']
      exact ht.live i hcan.1
    · rw [hsame.type j (hu.lt hj) hji]
      exact ht.live j hj
  | read i off n ok => exact absurd hop (by simp [Step.inOp])

theorem Node.Exact.next (h : x.Exact L) (hshape : x.vol.Shape L Y) (ha : a.IsCall)
    (hnext : a.next L x = some y) : y.Exact L ∧ y.vol.Shape L Y := by
  rw [Step.next] at hnext
  split at hnext
  · rename_i hcan
    split at hnext
    · rename_i held t hexec
      cases hnext
      by_cases hop : a.inOp = true
      · rw [Step.exec, hop] at hexec
        exact Node.Exact.of_tidy ((wp_of_ok hexec).mp ((h.tidy hshape).run ha hcan hop))
      · cases a with
        | read i off n ok =>
          obtain ⟨rfl, hc, hblock, href, -⟩ := (wp_of_ok hexec).mp (h.rest.wp_read hcan)
          have hsame := Vol.Same.of_block (L := L) hblock
          refine ⟨⟨⟨hc, by rw [href]; exact h.rest.refs, h.rest.held⟩,
            by rw [href]; exact h.count, h.ne_zero, fun i hi => ?_⟩, hshape.calm hsame.calm⟩
          rw [hsame.type i (h.rest.held i hi)]
          exact h.live i hi
        | _ => exact absurd rfl hop
    · exact absurd hnext (by simp)
  · exact absurd hnext (by simp)

theorem Node.Exact.run {as : List Step} (h : x.Exact L) (hshape : x.vol.Shape L Y)
    (has : ∀ a ∈ as, a.IsCall) (hrun : Machine.run (Step.next L) x as = some y) :
    y.Exact L ∧ y.vol.Shape L Y :=
  Machine.run_induction_of_forall_mem (P := Step.IsCall) (I := fun y => y.Exact L ∧ y.vol.Shape L Y)
    hrun has ⟨h, hshape⟩ fun _ _ _ hs ha hnext => hs.1.next hs.2 ha hnext

/-- **Directories are maps.**  Every directory that was not broken at the beginning of a run is well
formed at its end, `dirlookup` and `dirlink` act on it as on a map, and so does `sys_unlink`. -/
theorem directories_are_maps {as : List Step} (hx : x.Exact L) (has : ∀ a ∈ as, a.IsCall)
    (hrun : Machine.run (Step.next L) x as = some y) :
    (∀ i < L.ninodes, y.vol.typeOf L i = 1 → ¬x.vol.Broken L i → IsDirData i (y.vol.files L i)) ∧
    (∀ dp ∈ y.held, y.vol.typeOf L dp = 1 → ¬x.vol.Broken L dp →
      wp (Vol.ilock L dp) (fun _ s => s.files L = y.vol.files L ∧ s.ActsAsMap L dp)
        (fun _ _ => False) y.begin) ∧
    (∀ cwd ∈ y.held, ∀ path, CString path → wp (sysUnlink (Vol.ops L) cwd path) (fun r t =>
      if r = 0 then ∃ dp name u,
        nameiparent (Vol.ops L) cwd path y.begin = .ok (some (dp, name)) u ∧
          (¬x.vol.Broken L dp → Vol.EntryRemoved L dp name y.begin t)
      else Vol.Calm L y.begin t) Vol.anyStop y.begin) := by
  obtain ⟨hy, hshape⟩ := hx.run (Y := x.vol.Broken L) (fun i _ ht hb => not_not.mp fun hd => hb ⟨ht, hd⟩)
    has hrun
  have htidy := hy.tidy hshape
  refine ⟨fun i hi ht hb => hshape i hi ht hb, fun dp hdp ht hb => ?_, fun cwd hcwd path hpath => ?_⟩
  · refine htidy.held.wp_ilock hdp (fun h0 => absurd h0 (hy.live dp hdp)) fun s hblock hs => ?_
    have hsame := Vol.Same.of_block (L := L) hblock
    have hlt := htidy.held.lt hdp
    refine ⟨hsame.files, hs.actsAsMap List.mem_cons_self ((hsame.type dp hlt).trans ht) ?_⟩
    rw [hsame.files]
    exact hshape dp hlt ht hb
  · refine (htidy.sysUnlink hcwd hpath).mono_ok fun r t ⟨hzero, hother, _⟩ => ?_
    split
    · rename_i hr
      obtain ⟨dp, name, u, k, hexec, hlt, htype, hfind, hbecomes⟩ := hzero hr
      exact ⟨dp, name, u, hexec, fun hb => hbecomes.entryRemoved hlt hfind (hshape dp hlt htype hb)⟩
    · rename_i hr
      exact hother hr

end Runs

/-! ## A small file system -/

/-- The block of a root directory with the entries `.` and `..`. -/
def dotsBlock : Block := fun k =>
  if k.val < 16 then Vol.dirent dot rootIno k.val
  else if k.val < 32 then Vol.dirent dotdot rootIno (k.val - 16) else 0

namespace Vol

/-- A root directory with that block, and a free inode. -/
def dotsDisk : Nat → Block :=
  Function.update (smallLayout.putDinode (smallLayout.setBit blankDisk 3) 1 { Dinode.zero with
    type := 1, nlink := 1, size := 32, addrs := fun k => if k = 0 then .ofNat 3 else 0 }) 3 dotsBlock

theorem addrOf_dotsDisk : ∀ q, (Node.holding dotsDisk 1).vol.addrOf smallLayout q =
    if q = (1, .addrs 0) then 3 else 0 :=
  addrOf_one (by decide) (by decide +kernel) (by decide +kernel) (by decide) (by decide +kernel)

theorem dirsOk_dotsDisk : (Node.holding dotsDisk 1).vol.DirsOk smallLayout := by
  intro i hi ht k hk
  have hsize : ∀ i < 3, (smallLayout.dinode dotsDisk i).type = 1 →
      i = 1 ∧ (smallLayout.dinode dotsDisk i).size.toNat = 32 := by decide +kernel
  obtain ⟨rfl, h32⟩ := hsize i hi ht
  have hinum : ∀ k < 2, (Node.holding dotsDisk 1).vol.entryInum smallLayout 1 k < 3 := by
    decide +kernel
  exact hinum k (by rw [show (Node.holding dotsDisk 1).vol.block = dotsDisk from rfl] at hk; omega)

theorem exact_dotsDisk : (Node.holding dotsDisk 1).Exact smallLayout where
  rest := (Node.table_holding dotsDisk (by decide)).rest
    (owned_of_one addrOf_dotsDisk (by decide +kernel)) (whole_of_le (by decide +kernel))
    (dataRefs_of_one addrOf_dotsDisk (by decide)) dirsOk_dotsDisk
  count i := by
    rw [Node.holding, List.count_singleton]
    dsimp only
    by_cases hi : i = 1
    · rw [if_pos hi, hi]
      rfl
    · rw [if_neg hi, if_neg (by simpa using Ne.symm hi)]
      rfl
  ne_zero i hi := by
    rw [List.mem_singleton.mp hi]
    decide
  live i hi := by
    rw [List.mem_singleton.mp hi]
    decide +kernel

end Vol

open Vol in
/-- A directory is made, and a name that is not there is not unlinked. -/
theorem directories_are_maps_small : ∃ y, Machine.run (Step.next smallLayout) (.holding dotsDisk 1)
    [.make 1 ['/', 'd'] .dir 0 0, .unlink 1 ['/', 'e']] = some y ∧ y.vol.typeOf smallLayout 2 = 1 ∧
      IsDirData 2 (y.vol.files smallLayout 2) := by
  have hrun : ((Machine.run (Step.next smallLayout) (.holding dotsDisk 1)
      [.make 1 ['/', 'd'] .dir 0 0, .unlink 1 ['/', 'e']]).map
        fun y => y.vol.typeOf smallLayout 2) = some 1 := by decide +kernel
  obtain ⟨y, hy, htype⟩ := Option.map_eq_some_iff.mp hrun
  have hcalls : ∀ a ∈ [Step.make 1 ['/', 'd'] .dir 0 0, .unlink 1 ['/', 'e']], a.IsCall := by
    simp only [List.forall_mem_cons, List.not_mem_nil, false_implies, implies_true, and_true]
    exact ⟨trivial, show CString ['/', 'e'] by decide⟩
  have hfree : ¬(Node.holding dotsDisk 1).vol.Broken smallLayout 2 := fun h =>
    absurd h.1 (by decide +kernel)
  exact ⟨y, hy, htype, (directories_are_maps exact_dotsDisk hcalls hy).1 2 (by decide) htype hfree⟩

end Xv6.Fs
