import Xv6.Fs.Rules
import Xv6.Lib.Machine

/-!
# Runs of the file system

A file system in use is a disk with the table of inodes, and the references that processes have.  A
`Step` is a call of one of the functions of `kernel/fs.c` and `kernel/sysfile.c` that use inodes, with
all ways in which it can fail: the disk or a table is full, a copy from user memory fails.  Each is a
transaction, apart from reading, which is done outside of transactions.
-/

namespace Xv6.Fs

open List (mem_cons_self)
open Prog

attribute [local irreducible] wp

structure Node where
  vol : Vol
  held : List Nat

inductive Step where
  /-- `sys_open`; `room` says whether a file and a descriptor can be allocated. -/
  | open (cwd : Nat) (path : List Char) (omode : Nat) (room : Bool)
  | make (cwd : Nat) (path : List Char) (type : FType) (major minor : Int)
  | create (cwd : Nat) (path : List Char) (type : FType) (major minor : Int)
  | link (cwd : Nat) (old new : List Char)
  | unlink (cwd : Nat) (path : List Char)
  | chdir (cwd : Nat) (path : List Char)
  | ialloc (type : FType)
  | dirlink (dp : Nat) (name : Name) (ip : Nat)
  | itrunc (i : Nat)
  | iput (i : Nat)
  | idup (i : Nat)
  | write (i : Nat) (off n : UInt32) (src : Nat → UInt8) (ok : Nat)
  | read (i : Nat) (off n : UInt32) (ok : Nat)

namespace Step

variable (L : Layout)

/-- The caller has the references that the function needs, and directories are written by `dirlink` and
`sys_unlink` only: `sys_open` does not open them for writing. -/
def Can (x : Node) : Step → Prop
  | .open cwd .. | .make cwd .. | .create cwd .. | .link cwd .. | .unlink cwd .. | .chdir cwd .. =>
    cwd ∈ x.held
  | .ialloc _ => True
  | .dirlink dp _ ip => dp ∈ x.held ∧ ip ∈ x.held
  | .itrunc i | .iput i | .idup i | .read i .. => i ∈ x.held
  | .write i .. => i ∈ x.held ∧ (L.dinode x.vol.block i).type ≠ 1

instance (x : Node) : (a : Step) → Decidable (a.Can L x)
  | .open cwd .. | .make cwd .. | .create cwd .. | .link cwd .. | .unlink cwd .. | .chdir cwd .. =>
    inferInstanceAs (Decidable (cwd ∈ x.held))
  | .ialloc _ => inferInstanceAs (Decidable True)
  | .dirlink dp _ ip => inferInstanceAs (Decidable (dp ∈ x.held ∧ ip ∈ x.held))
  | .itrunc i | .iput i | .idup i | .read i .. => inferInstanceAs (Decidable (i ∈ x.held))
  | .write i .. =>
    inferInstanceAs (Decidable (i ∈ x.held ∧ (L.dinode x.vol.block i).type ≠ 1))

/-- The calls of `sysfile.c` over the operations `o`, for processes that have the references `held`; it
returns those they have then. -/
def call {σ : Type} (o : Ops σ) (held : List Nat) : Step → EStateM Stop σ (List Nat)
  | .open cwd path omode room => do
    let r ← openTrunc o cwd path omode room
    return r.toList ++ held
  | .make cwd path type major minor => do
    let _ ← sysMake o cwd path type major minor
    return held
  | .create cwd path type major minor => do
    let r ← Fs.create o cwd path type major minor
    return r.toList ++ held
  | .link cwd old new => do
    let _ ← sysLink o cwd old new
    return held
  | .unlink cwd path => do
    let _ ← sysUnlink o cwd path
    return held
  | .chdir cwd path => do
    let r ← changeDir o cwd path
    return r.getD cwd :: held.erase cwd
  | _ => return held

/-- The code: a call, or a function of `fs.c` for an inode that its caller has locked and will
unlock. -/
def run (held : List Nat) : Step → V (List Nat)
  | .ialloc type => do
    let r ← Vol.ialloc L type
    return r.toList ++ held
  | .dirlink dp name ip => do
    Vol.ilock L dp
    let _ ← Vol.dirlink L dp name ip
    return held
  | .itrunc i => do
    Vol.ilock L i
    Vol.itrunc L i
    return held
  | .iput i => do
    Vol.iput L i
    return held.erase i
  | .idup i => do
    Vol.idup i
    return i :: held
  | .write i off n src ok => do
    Vol.ilock L i
    let _ ← Vol.writei L i off n src ok
    return held
  | .read i off n ok => do
    Vol.ilock L i
    let _ ← Vol.readi L i off n ok
    return held
  | a => a.call (Vol.ops L) held

def inOp : Step → Bool
  | .read .. => false
  | _ => true

def exec (x : Node) (a : Step) : EStateM.Result Stop Vol (List Nat) :=
  a.run L x.held { x.vol with inOp := a.inOp, logged := [] }

def next (x : Node) (a : Step) : Option Node :=
  if a.Can L x then
    match a.exec L x with
    | .ok held v => some ⟨v, held⟩
    | .error _ _ => none
  else none

/-- The current directory of the process that makes the call. -/
def cwd : Step → Option Nat
  | .open cwd .. | .make cwd .. | .create cwd .. | .link cwd .. | .unlink cwd .. | .chdir cwd .. =>
    some cwd
  | _ => none

/-- The most blocks, apart from bitmap blocks, that the call gives to `log_write`. -/
def cost : Step → Nat
  | .open _ path .. | .make _ path .. | .create _ path .. | .unlink _ path | .chdir _ path =>
    PathRules.pathFee 1 path + 9
  | .link _ old new => PathRules.pathFee 1 old + PathRules.pathFee 1 new + 4
  | .write _ _ n .. => n.toNat / bsize + 4
  | _ => 9

variable {L} {x : Node} {a : Step}

theorem Can.cwd_mem (h : a.Can L x) : ∀ c ∈ a.cwd, c ∈ x.held := by
  cases a
  all_goals simp only [Step.cwd, Option.mem_def, Option.some.injEq, reduceCtorEq, false_implies,
    implies_true, forall_eq']
  all_goals exact h

theorem run_of_cwd {held : List Nat} (h : a.cwd.isSome = true) :
    a.run L held = a.call (Vol.ops L) held := by
  cases a with
  | «open» | make | create | link | unlink | chdir => rfl
  | _ => cases h

end Step

section Call

open PathRules (pathFee)

variable {σ : Type} {o : Ops σ} {blk : Nat → Nat} {N : Nat} {E : Stop → σ → Prop} {I : Keeper σ}
  {H : List Nat} {s : σ}

/-- **What the rules keep, a call keeps**, and it pays for the blocks that it gives to `log_write`. -/
theorem CallRules.wp_call (R : CallRules o blk N (fun _ => True) E I)
    (P : ∀ B, PathRules o (fun i => [blk i]) N (fun _ => True) E B I) {a : Step} (h : I H [] [] s)
    (hcwd : ∀ c ∈ a.cwd, c ∈ H) (hN : a.cost ≤ N) :
    wp (a.call o H) (fun held t => ∃ C, C.length ≤ a.cost ∧ I held [] C t) E s := by
  have hnil : ∀ l : List Nat, [] ⊆ l := List.nil_subset
  have hone : ∀ i, [blk i].length ≤ 1 := fun _ => Nat.le_refl 1
  have hnamex : ∀ {cwd : Nat} {path : List Char} (parent : Bool), cwd ∈ H → pathFee 1 path ≤ N →
      wp (namex o cwd path parent)
        (Follows I H [] [] (pathFee 1 path) (Prod.fst : Nat × Name → Nat)) E s :=
    fun _ hcwd hle => (P H).wp_namex hone h (List.Subset.refl H) (hnil H) trivial (fun _ => trivial)
      hcwd (by simp) hle
  have hnamei : ∀ {cwd : Nat} {path : List Char}, cwd ∈ H → pathFee 1 path ≤ N →
      wp (namei o cwd path) (Follows I H [] [] (pathFee 1 path) id) E s :=
    fun hcwd hle => (P H).wp_namei hone h (List.Subset.refl H) (hnil H) trivial (fun _ => trivial)
      hcwd (by simp) hle
  cases a with
  | «open» cwd path omode room =>
    have hcan : cwd ∈ H := hcwd cwd rfl
    rw [Step.cost] at hN
    rw [Step.call, wp_bind]
    refine (R.wp_openTrunc h (hnil H) (fun _ => trivial) (fun _ _ => trivial) (Nat.zero_le _) hN
      (hnamex true hcan (by omega)) (hnamei hcan (by omega))).mono_ok fun r t ⟨C', _, hlen, ht⟩ => ?_
    exact .pure (⟨C', hlen, R.weaken ht (hnil _) (List.Subset.refl C')⟩)
  | make cwd path type major minor =>
    have hcan : cwd ∈ H := hcwd cwd rfl
    rw [Step.cost] at hN
    rw [Step.call, wp_bind]
    refine (R.wp_sysMake h (hnil H) (fun _ => trivial) (fun _ _ => trivial) (Nat.zero_le _) hN
      (hnamex true hcan (by omega))).mono_ok fun r t ⟨C', _, hlen, ht⟩ => ?_
    exact .pure ⟨C', hlen, ht⟩
  | create cwd path type major minor =>
    have hcan : cwd ∈ H := hcwd cwd rfl
    rw [Step.cost] at hN
    rw [Step.call, wp_bind]
    refine (R.wp_create (hnil H) (fun _ => trivial) (fun _ _ => trivial) (by omega)
      (hnamex true hcan (by omega))).mono_ok fun r t ⟨C', _, hlen, ht⟩ => ?_
    exact .pure (⟨C', Nat.le_succ_of_le hlen, R.weaken ht (hnil _) (List.Subset.refl C')⟩)
  | link cwd old new =>
    have hcan : cwd ∈ H := hcwd cwd rfl
    rw [Step.cost] at hN
    rw [Step.call, wp_bind]
    refine (R.wp_sysLink P hone h trivial
      (fun _ => trivial) (fun _ _ => trivial) hcan (by simp) hN).mono_ok
      fun r t ⟨C', _, hlen, ht⟩ => ?_
    exact .pure ⟨C', hlen, ht⟩
  | unlink cwd path =>
    have hcan : cwd ∈ H := hcwd cwd rfl
    rw [Step.cost] at hN
    rw [Step.call, wp_bind]
    refine (R.wp_sysUnlink h (fun _ => trivial) (Nat.zero_le _) (by omega)
      (hnamex true hcan (by omega))).mono_ok fun r t ⟨C', _, hlen, ht⟩ => ?_
    exact .pure ⟨C', by rw [Step.cost]; omega, ht⟩
  | chdir cwd path =>
    have hcan : cwd ∈ H := hcwd cwd rfl
    have hperm : H.Perm (cwd :: H.erase cwd) := List.perm_cons_erase hcan
    rw [Step.cost] at hN
    rw [Step.call, wp_bind]
    refine (R.wp_changeDir (n := pathFee 1 path) (R.perm h hperm) (hnil _) (Nat.zero_le _) (by omega)
      ?_).mono_ok fun r t ⟨C', _, hlen, ht⟩ => ?_
    · exact (hnamei hcan (by omega)).mono_ok fun r t ⟨C', hC, hlen, ht⟩ =>
        ⟨C', hC, hlen, R.perm ht (hperm.append_left _)⟩
    · exact .pure ⟨C', by rw [Step.cost]; omega, ht⟩
  | _ => exact (wp_pure H).mpr ⟨[], Nat.zero_le _, h⟩

end Call

namespace Vol

section Step

variable {L : Layout} {N : Nat} {H V C : List Nat} {s : Vol} {i : Nat}

theorem wp_writeFile {Q : Int → Vol → Prop} {E : Stop → Vol → Prop} {off n : UInt32} {ok : Nat}
    {src : Nat → UInt8} (h : Inv L H V C s) (hi : i ∈ V) (htype : (s.mem i).type ≠ 1)
    (hblk : L.iblock i ∈ C)
    (hQ : ∀ r l t, l.length ≤ n.toNat / bsize + 3 → Inv L H V (l ++ C) t → Q r t) :
    wp (writei L i off n src ok) Q E s := by
  have hv := (h.locked i hi).2
  refine h.wp_writei hv h.inOp (fun _ => hQ (-1) [] s (Nat.zero_le _) h)
    fun _ _ r hi' t _ _ _ _ hw ht => ?_
  -- the indirect block, and the blocks from that of the first byte on
  refine hQ r (t.addrOf L (i, .indirect) :: (List.range (n.toNat / bsize + 2)).map fun j =>
    t.addrOf L (i, .data (off.toNat / bsize + j))) t ?_
    (h.of_disk (hw.consistent h.toConsistent hv ht fun h1 => absurd h1 htype) hw.ref hw.valid hw.inOp
      fun b hb => ?_)
  · rw [List.length_cons, List.length_map, List.length_range]
  · rcases hw.logs b hb with hb | hb | rfl | ⟨p, hp, rfl⟩
    · exact (h.logs b hb).imp_left (List.mem_append_right _)
    · exact .inr hb
    · exact .inl (List.mem_append_right _ hblk)
    · refine .inl (List.mem_append_left _ ?_)
      rcases hp with rfl | ⟨k, hk, hk', rfl⟩
      · exact mem_cons_self
      · refine .tail _ (List.mem_map.mpr ⟨k / bsize - off.toNat / bsize, ?_, ?_⟩)
        · rw [List.mem_range]
          simp only [bsize]
          omega
        · congr 3
          simp only [bsize]
          omega

/-- What a step leaves: the references are counted, and few blocks have been given to `log_write`. -/
def Ends (L : Layout) (n : Nat) (held : List Nat) (t : Vol) : Prop :=
  ∃ C, C.length ≤ n ∧ Inv L held [] C t

section

variable (h : Inv L H [] [] s)
include h

theorem Inv.wp_lock {Q : Unit → Vol → Prop} (hi : i ∈ H)
    (hQ : ∀ t, t.block = s.block → Inv L H [i] [L.iblock i] t → Q () t) :
    wp (ilock L i) Q (Stops L N) s :=
  wp_ilock h hi (Nat.zero_le N) fun t hblock ht =>
    hQ t hblock (ht.weaken (List.Subset.refl _) (List.nil_subset _))

theorem wp_stepIalloc {type : FType} (hN : 9 ≤ N) :
    wp (Step.run L H (.ialloc type)) (Ends L 9) (Stops L N) s := by
  rw [Step.run, wp_bind]
  refine wp_ialloc h (by simp only [List.length_nil]; omega) ?_ fun i t ht => ?_
  · exact .pure ⟨[], Nat.zero_le _, h⟩
  · exact .pure ⟨_, Nat.le_of_ble_eq_true rfl, ht⟩

theorem wp_stepDirlink {dp ip : Nat} {name : Name} (hdp : dp ∈ H) (hip : ip ∈ H) (hN : 9 ≤ N) :
    wp (Step.run L H (.dirlink dp name ip)) (Ends L 9) (Stops L N) s := by
  rw [Step.run, wp_bind]
  refine h.wp_lock hdp fun t _ ht => ?_
  refine .bind (wp_dirlink ht mem_cons_self (h.held ip hip) mem_cons_self
    (by simp only [List.length_cons, List.length_nil]; omega) fun r x y u hu => ?_)
  exact .pure (⟨_, Nat.le_of_ble_eq_true rfl, hu.weaken (List.nil_subset _) (List.Subset.refl _)⟩)

theorem wp_stepItrunc (hi : i ∈ H) :
    wp (Step.run L H (.itrunc i)) (Ends L 9) (Stops L N) s := by
  rw [Step.run, wp_bind]
  refine h.wp_lock hi fun t _ ht => ?_
  refine .bind (wp_itruncInv ht mem_cons_self mem_cons_self fun u _ hu => ?_)
  exact .pure (⟨_, Nat.le_of_ble_eq_true rfl, hu.weaken (List.nil_subset _) (List.Subset.refl _)⟩)

theorem wp_stepIput (hi : i ∈ H) : wp (Step.run L H (.iput i)) (Ends L 9) (Stops L N) s := by
  rw [Step.run, wp_bind]
  refine wp_iput (W := []) (C := [L.iblock i])
    ((h.perm (List.perm_cons_erase hi)).weaken (List.nil_subset _) (List.nil_subset _))
    (List.nil_subset _) (List.nil_subset _) mem_cons_self fun u hu => ?_
  exact .pure ⟨_, Nat.le_of_ble_eq_true rfl, hu⟩

theorem wp_stepWrite {off n : UInt32} {src : Nat → UInt8} {ok : Nat} (hi : i ∈ H)
    (htype : (L.dinode s.block i).type ≠ 1) :
    wp (Step.run L H (.write i off n src ok)) (Ends L (n.toNat / bsize + 4)) (Stops L N) s := by
  rw [Step.run, wp_bind]
  refine h.wp_lock hi fun t hblock ht => ?_
  have hmem : (t.mem i).type ≠ 1 := by
    rw [(ht.sync i (ht.locked i mem_cons_self).2).2.1, hblock]
    exact htype
  refine .bind (wp_writeFile ht mem_cons_self hmem mem_cons_self fun r l u hl hu => ?_)
  refine .pure (⟨_, ?_, hu.weaken (List.nil_subset _) (List.Subset.refl _)⟩)
  rw [List.length_append, List.length_singleton]
  omega

/-- **What a step does** in a transaction: it keeps `Inv` and pays for the blocks that it gives to
`log_write`. -/
theorem wp_step {a : Step} (hcan : a.Can L ⟨s, H⟩) (hop : a.inOp = true) (hN : a.cost ≤ N) :
    wp (a.run L H) (Ends L a.cost) (Stops L N) s := by
  have hcall : wp (a.call (ops L) H) (Ends L a.cost) (Stops L N) s :=
    (callRules L N).wp_call (pathRules L N) h hcan.cwd_mem hN
  cases a with
  | «open» | make | create | link | unlink | chdir => exact hcall
  | ialloc type => exact wp_stepIalloc h hN
  | dirlink dp name ip => exact wp_stepDirlink h hcan.1 hcan.2 hN
  | itrunc i => exact wp_stepItrunc h hcan
  | iput i => exact wp_stepIput h hcan
  | idup i =>
    rw [Step.run, wp_bind]
    refine wp_idup h hcan fun t _ ht => ?_
    exact .pure ⟨[], Nat.zero_le _, ht⟩
  | write i off n src ok => exact wp_stepWrite h hcan.1 hcan.2
  | read i off n ok => exact absurd hop (by simp [Step.inOp])

end

theorem wp_read {off n : UInt32} {ok : Nat} {E : Stop → Vol → Prop} (h : Consistent L s)
    (hi : i < L.ninodes) (hpos : 0 < s.ref i)
    (hE : ∀ t, t.logged = s.logged → E (.panic .ilockNoType) t) :
    wp (Step.run L H (.read i off n ok)) (fun held t => held = H ∧ Consistent L t ∧
      t.block = s.block ∧ t.ref = s.ref ∧ t.logged = s.logged) E s := by
  rw [Step.run, wp_bind]
  refine h.wp_ilock hi hpos (fun _ => hE) fun x v hc hv _ => ?_
  refine .bind (hc.toSound.wp_readi hv (fun _ => ?_) fun _ _ m _ => ?_)
  all_goals
    exact .pure ⟨rfl, hc, rfl, rfl, rfl⟩

end Step

end Vol

/-! ## Runs -/

/-- Between steps: the file system is consistent, and the references that processes have are
counted. -/
structure Node.Rest (L : Layout) (x : Node) : Prop where
  consistent : x.vol.Consistent L
  refs : ∀ i, (x.held.count i : Int) ≤ x.vol.ref i
  held : ∀ i ∈ x.held, i < L.ninodes

section Runs

variable {L : Layout} {x y : Node} {a : Step}

theorem Node.Rest.inv (h : x.Rest L) :
    Vol.Inv L x.held [] [] { x.vol with inOp := true, logged := [] } :=
  ⟨h.consistent.of_table rfl h.consistent.sync, h.refs, h.held, by simp, rfl, by simp [Vol.Covers]⟩

theorem Node.Rest.of_inv {C : List Nat} {t : Vol} {held : List Nat} (h : Vol.Inv L held [] C t) :
    Node.Rest L ⟨t, held⟩ :=
  ⟨h.toConsistent, h.refs, h.held⟩

theorem Node.Rest.wp_read {i : Nat} {off n : UInt32} {ok : Nat} (h : x.Rest L) (hi : i ∈ x.held) :
    wp (Step.run L x.held (.read i off n ok)) (fun held t => held = x.held ∧ t.Consistent L ∧
      t.block = x.vol.block ∧ t.ref = x.vol.ref ∧ t.logged = [])
      (Vol.Stops L 0) { x.vol with inOp := false, logged := [] } := by
  have hcount : 0 < x.held.count i := List.count_pos_iff.mpr hi
  have hpos := h.refs i
  refine Vol.wp_read (H := x.held) (s := { x.vol with inOp := false, logged := [] })
    (h.consistent.of_table rfl h.consistent.sync) (h.held i hi)
    (show 0 < x.vol.ref i by omega) fun t ht => ?_
  refine ⟨by decide, by decide, by decide, [], Nat.le_refl 0, ?_⟩
  rw [Vol.Covers, ht]
  simp

theorem Node.Rest.wp_run (h : x.Rest L) (hcan : a.Can L x) :
    wp (a.run L x.held) (fun held t => Node.Rest L ⟨t, held⟩) (Vol.Stops L a.cost)
      { x.vol with inOp := a.inOp, logged := [] } := by
  by_cases hop : a.inOp = true
  · rw [hop]
    refine (Vol.wp_step h.inv hcan hop (Nat.le_refl _)).mono_ok fun held t ⟨C, _, ht⟩ => Node.Rest.of_inv ht
  · cases a with
    | read i off n ok =>
      refine (h.wp_read hcan).mono (fun held t ⟨hheld, hc, _, href, _⟩ => ?_)
        fun e t ⟨hfree, hout, hfault, C, hC, hcov⟩ => ⟨hfree, hout, hfault, C, Nat.le_trans hC (Nat.zero_le _), hcov⟩
      subst hheld
      exact ⟨hc, by rw [href]; exact h.refs, h.held⟩
    | _ => exact absurd rfl hop

theorem Node.Rest.next (h : x.Rest L) (hnext : a.next L x = some y) : y.Rest L := by
  rw [Step.next] at hnext
  split at hnext
  · rename_i hcan
    have hrun := h.wp_run hcan
    split at hnext
    · rename_i held t hexec
      cases hnext
      exact (wp_of_ok hexec).mp hrun
    · exact absurd hnext (by simp)
  · exact absurd hnext (by simp)

theorem Node.Rest.run {as : List Step} (h : x.Rest L)
    (hrun : Machine.run (Step.next L) x as = some y) : y.Rest L :=
  Machine.run_induction_of_forall_mem (P := fun _ => True) hrun (fun _ _ => trivial) h
    fun _ _ _ hs _ hnext => hs.next hnext

theorem Node.Rest.stops {e : Stop} {t : Vol} (h : x.Rest L) (hcan : a.Can L x)
    (hexec : a.exec L x = .error e t) : Vol.Stops L a.cost e t :=
  (wp_of_error hexec).mp (h.wp_run hcan)

end Runs

end Xv6.Fs
