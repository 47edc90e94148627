import Xv6.Bio.Seq
import Mathlib.Data.List.GetD

/-!
# Commit and recovery

The part of `kernel/log.c` that writes the disk.  The header block is an array of bytes: the number of
blocks and then their numbers, each four bytes long.  The functions are programs over the cache and the
disk (`K`).
-/

namespace Xv6

open List (mem_cons_self)
open Function (update update_of_ne update_self)
open Prog

/-! ## The header block -/

/-- `lh->n` of a header block. -/
def headN (d : Block) : Int := int32 (d.read 0 4)

/-- `lh->block[i]` of a header block. -/
def headBlock (d : Block) (i : Nat) : Nat := d.read (4 + 4 * i) 4

/-- `lh->block[0 .. n)` of a header block. -/
def head (d : Block) : List Nat := (List.range (headN d).toNat).map (headBlock d)

/-- The loop of `write_head`: a header block after `n` and the first `k` block numbers have been
stored. -/
def putHead (lh : List Nat) (d : Block) : Nat → Block
  | 0 => d.write 0 4 lh.length
  | k + 1 => (putHead lh d k).write (4 + 4 * k) 4 (lh.getD k 0)

section Header

variable {lh : List Nat} {d : Block}

theorem headN_putHead (h : lh.length ≤ logSize) (k : Nat) :
    headN (putHead lh d k) = lh.length := by
  have hread : (putHead lh d k).read 0 4 = lh.length := by
    induction k with
    | zero =>
      rw [putHead, Bytes.read_write (by decide)]
      exact Nat.mod_eq_of_lt (lt_of_le_of_lt h (by decide))
    | succ k ih => rw [putHead, Bytes.read_write_of_disjoint (.inl (by omega)), ih]
  rw [headN, hread, int32]
  have : (lh.length : Int) ≤ 30 := by exact_mod_cast h
  exact Int.bmod_eq_of_le (by omega) (by omega)

theorem headBlock_putHead {i k : Nat} (hi : i < k) (hk : k ≤ logSize) :
    headBlock (putHead lh d k) i = lh.getD i 0 % 2 ^ 32 := by
  have hk' : k ≤ 30 := hk
  induction k with
  | zero => omega
  | succ k ih =>
    rw [headBlock, putHead]
    by_cases hik : i = k
    · rw [hik, Bytes.read_write (by simp only [bsize]; omega)]
      rfl
    · rw [Bytes.read_write_of_disjoint (.inl (by omega))]
      exact ih (by omega) (by omega) (by omega)

theorem head_putHead (h : lh.length ≤ logSize) (hlt : ∀ b ∈ lh, b < 2 ^ 32) :
    head (putHead lh d lh.length) = lh := by
  rw [head, headN_putHead h, Int.toNat_natCast]
  refine List.ext_getElem (by simp) fun i hi hi' => ?_
  rw [List.getElem_map, List.getElem_range, headBlock_putHead hi' h, List.getD_eq_getElem _ _ hi']
  exact Nat.mod_eq_of_lt (hlt _ (List.getElem_mem hi'))

end Header

/-! ## The programs -/

section Programs

variable (me : Nat)

/-- `read_head`.  A count that does not fit `log.lh.block` overwrites what follows it in memory. -/
def readHead : K Unit := do
  let s ← get
  let buf ← bread me s.log.dev s.log.start
  let s ← get
  let lh := (s.bcache.buf buf).data
  if headN lh > logSize then throw .fault
  set { s with log := { s.log with lh := head lh } }
  brelse me buf

def writeHead : K Unit := do
  let s ← get
  let buf ← bread me s.log.dev s.log.start
  modifyBuf buf fun b => { b with data := putHead s.log.lh b.data s.log.lh.length }
  bwrite me buf
  brelse me buf

/-- One round of `write_log`. -/
def writeLogAt (tail : Nat) : K Unit := do
  let s ← get
  let tobuf ← bread me s.log.dev (s.log.start + tail + 1)
  let frombuf ← bread me s.log.dev (s.log.lh.getD tail 0)
  let s ← get
  let data := (s.bcache.buf frombuf).data
  modifyBuf tobuf fun b => { b with data }
  bwrite me tobuf
  brelse me frombuf
  brelse me tobuf

def writeLog : K Unit := do
  let s ← get
  times (writeLogAt me) s.log.lh.length

/-- One round of `install_trans`. -/
def installTransAt (recovering : Bool) (tail : Nat) : K Unit := do
  let s ← get
  let lbuf ← bread me s.log.dev (s.log.start + tail + 1)
  let dbuf ← bread me s.log.dev (s.log.lh.getD tail 0)
  let s ← get
  let data := (s.bcache.buf lbuf).data
  modifyBuf dbuf fun b => { b with data }
  bwrite me dbuf
  if recovering = false then bunpin dbuf
  brelse me lbuf
  brelse me dbuf

def installTrans (recovering : Bool) : K Unit := do
  let s ← get
  times (installTransAt me recovering) s.log.lh.length

def clearHead : K Unit := modify fun s => { s with log := { s.log with lh := [] } }

def commit : K Unit := do
  let s ← get
  if s.log.lh.length > 0 then
    writeLog me
    writeHead me
    installTrans me false
    clearHead
    writeHead me

def recoverFromLog : K Unit := do
  readHead me
  installTrans me true
  clearHead
  writeHead me

/-- The fields of the superblock that `initlog` uses. -/
structure Superblock where
  logstart : Nat
  nlog : Nat
  deriving DecidableEq, Repr

def initlog (dev : Nat) (sb : Superblock) : K Unit := do
  if 4 + 4 * logSize ≥ bsize then throw (.panic .tooBigLogheader)
  modify fun s => { s with log := { s.log with start := sb.logstart, size := sb.nlog, dev } }
  recoverFromLog me

end Programs

/-! ## What the steps do

Each rule gives the new array, which cache and disk represent, and the new disk.  The program may
stop on the way; the disk is then still the old one. -/

/-- Why a program can stop while `n` blocks are pinned. -/
def Kern.Halts (s : Kern) (n : Nat) (e : Stop) : Prop :=
  e = .crash ∧ s.left = some 0 ∨ e = .panic .bgetNoBuffers ∧ nbuf ≤ n

section Steps

variable {s : Kern} {me k : Nat} {cont : Nat → Block} {pins : List Nat}
  {E : Stop → Kern → Prop} {Q : Unit → Kern → Prop}

theorem free_or_halts (hE : ∀ e t, s.Halts pins.length e → s.SameDisk t → E e t) :
    pins.length + 0 < nbuf ∨ E (.panic .bgetNoBuffers) s := by
  rcases Nat.lt_or_ge pins.length nbuf with hlt | hge
  · exact .inl hlt
  · exact .inr (hE _ s (.inr ⟨rfl, hge⟩) (.refl s))

theorem mem_pair_left {i j : BufId} (h : j ≠ i) (l : BufId) : l ∈ [i] ↔ l ∈ [j, i] ∧ l ≠ j := by
  simp only [List.mem_cons, List.not_mem_nil, or_false]
  constructor
  · rintro rfl
    exact ⟨.inr rfl, h.symm⟩
  · rintro ⟨hl, hlj⟩
    exact hl.resolve_left hlj

theorem mem_pair_right {i j : BufId} (h : j ≠ i) (l : BufId) : l ∈ [j] ↔ l ∈ [j, i] ∧ l ≠ i := by
  rw [List.Perm.mem_iff (List.Perm.swap i j [])]
  exact mem_pair_left h.symm l

theorem wp_writeHead {lg : Log} (hlog : s.log = lg) (h : s.At lg.dev me cont pins [])
    (hE : ∀ e t, s.Halts pins.length e → s.SameDisk t → E e t)
    (hQ : ∀ t d, d = putHead lg.lh (cont lg.start) lg.lh.length →
      t.At lg.dev me (update cont lg.start d) pins [] →
      s.Wrote t lg.start d → Q () t) :
    wp (writeHead me) Q E s := by
  simp only [writeHead, wp_bind, wp_get, hlog]
  refine wp_bread h (by simp) (.inr (free_or_halts hE)) fun i s1 hs1 h1 hc1 _ _ => ?_
  refine wp_setData h1 mem_cons_self hc1.2
    (f := fun d => putHead lg.lh d lg.lh.length) fun s2 hs2 h2 hc2 => ?_
  have hb2 := (hc2 i).trans hc1.2
  have hs := hs1.trans hs2
  refine wp_bwrite h2 mem_cons_self hb2
    (fun hleft => hE _ _ (.inl ⟨rfl, hs.left ▸ hleft⟩) hs) fun s3 hw h3 hcache => ?_
  rw [update_self] at hw
  refine wp_brelse [] h3 mem_cons_self (hcache ▸ hb2) (.inr ?_) (by simp)
    fun s4 hs4 h4 _ => hQ s4 _ rfl h4 (hw.congr hs hs4)
  rw [hw.disk, update_self, update_self]

theorem wp_writeLogAt {lg : Log} {src : Nat} (hlog : s.log = lg) (h : s.At lg.dev me cont pins [])
    (hsrc : lg.lh.getD k 0 = src) (hpin : src ∈ pins) (hout : lg.start + k + 1 ∉ pins)
    (hE : ∀ e t, s.Halts pins.length e → s.SameDisk t → E e t)
    (hQ : ∀ t, t.At lg.dev me (update cont (lg.start + k + 1) (cont src)) pins [] →
      s.Wrote t (lg.start + k + 1) (cont src) → Q () t) :
    wp (writeLogAt me k) Q E s := by
  have hne : lg.start + k + 1 ≠ src := fun heq => hout (heq ▸ hpin)
  simp only [writeLogAt, wp_bind, wp_get, hlog, hsrc]
  refine wp_bread h (by simp) (.inr (free_or_halts hE)) fun i s1 hs1 h1 hc1 _ _ => ?_
  refine wp_bread h1 (by simpa using hc1.2 ▸ hne) (.inl hpin) fun j s2 hs2 h2 hc2 hj hsame => ?_
  have hji : j ≠ i := fun heq => hj (heq ▸ mem_cons_self)
  have hi2 : (s2.bcache.buf i).blockno = lg.start + k + 1 := by
    rw [hsame i mem_cons_self, hc1.2]
  have hdata : (s2.bcache.buf j).data = cont src := by
    rw [h2.data_eq mem_cons_self, hc2.2]
  rw [hdata]
  refine wp_setData h2 (by simp) hi2 (f := fun _ => cont src) fun s3 hs3 h3 hc3 => ?_
  have hi3 := (hc3 i).trans hi2
  have hj3 := (hc3 j).trans hc2.2
  have hs := (hs1.trans hs2).trans hs3
  refine wp_bwrite h3 (by simp) hi3 (fun hleft => hE _ _ (.inl ⟨rfl, hs.left ▸ hleft⟩) hs)
    fun s4 hw h4 hcache => ?_
  rw [update_self] at hw
  rw [← hcache] at hi3 hj3
  refine wp_brelse [i] h4 (by simp) hj3 (.inl hpin) (mem_pair_left hji)
    fun s5 hs5 h5 hc5 => ?_
  refine wp_brelse [] h5 (by simp) ((hc5 i).trans hi3) (.inr ?_) (by simp)
    fun s6 hs6 h6 _ => hQ s6 h6 (hw.congr hs (hs5.trans hs6))
  rw [hs5.disk, hw.disk, update_self, update_self]

theorem wp_installTransAt (pins' : List Nat) {lg : Log} {dst : Nat} {recovering : Bool}
    (hlog : s.log = lg) (h : s.At lg.dev me cont pins []) (hdst : lg.lh.getD k 0 = dst)
    (hne : lg.start + k + 1 ≠ dst) (hout : lg.start + k + 1 ∉ pins)
    (hpins : if recovering then pins' = pins ∧ pins.length + 1 < nbuf
      else pins = dst :: pins' ∧ dst ∉ pins')
    (hE : ∀ e t, s.Halts pins.length e → s.SameDisk t → E e t)
    (hQ : ∀ t, t.At lg.dev me (update cont dst (cont (lg.start + k + 1))) pins' [] →
      s.Wrote t dst (cont (lg.start + k + 1)) → Q () t) :
    wp (installTransAt me recovering k) Q E s := by
  have hslot := h.disk_eq hout
  simp only [installTransAt, wp_bind, wp_get, hlog, hdst]
  refine wp_bread h (by simp) (.inr (free_or_halts hE)) fun i s1 hs1 h1 hc1 _ _ => ?_
  refine wp_bread h1 (by simpa using hc1.2 ▸ hne) ?_ fun j s2 hs2 h2 hc2 hj hsame => ?_
  · cases recovering with
    | true => exact .inr (.inl hpins.2)
    | false => exact .inl (hpins.1 ▸ mem_cons_self)
  have hji : j ≠ i := fun heq => hj (heq ▸ mem_cons_self)
  have hi2 : (s2.bcache.buf i).blockno = lg.start + k + 1 := by
    rw [hsame i mem_cons_self, hc1.2]
  have hdata : (s2.bcache.buf i).data = cont (lg.start + k + 1) := by
    rw [h2.data_eq (by simp), hi2]
  rw [hdata]
  refine wp_setData h2 (by simp) hc2.2 (f := fun _ => cont (lg.start + k + 1))
    fun s3 hs3 h3 hc3 => ?_
  have hi3 := (hc3 i).trans hi2
  have hj3 := (hc3 j).trans hc2.2
  have hs := (hs1.trans hs2).trans hs3
  refine wp_bwrite h3 (by simp) hj3 (fun hleft => hE _ _ (.inl ⟨rfl, hs.left ▸ hleft⟩) hs)
    fun s4 hw h4 hcache => ?_
  rw [update_self] at hw
  rw [← hcache] at hi3 hj3
  -- what is left once the pin has been dropped, or when there was none
  have hrest : ∀ s5, s4.SameDisk s5 →
      s5.At lg.dev me (update cont dst (cont (lg.start + k + 1))) pins' [j, i] →
      (∀ l, (s5.bcache.buf l).blockno = (s4.bcache.buf l).blockno) →
      wp (do brelse me i; brelse me j) Q E s5 := by
    intro s5 hs5 h5 hc5
    refine .bind (wp_brelse [j] h5 (by simp) ((hc5 i).trans hi3) (.inr ?_) (mem_pair_right hji)
      fun s6 hs6 h6 hc6 => ?_)
    · rw [hs5.disk, hw.disk, update_of_ne hne, update_of_ne hne, hs.disk, hslot]
    refine wp_brelse [] h6 (by simp) ((hc6 j).trans ((hc5 j).trans hj3)) (.inr ?_)
      (by simp) fun s7 hs7 h7 _ => hQ s7 h7 (hw.congr hs ((hs5.trans hs6).trans hs7))
    rw [hs6.disk, hs5.disk, hw.disk, update_self, update_self]
  cases recovering with
  | true => exact hrest s4 (.refl s4) (hpins.1 ▸ h4) fun _ => rfl
  | false =>
    obtain ⟨rfl, hnot⟩ := hpins
    rw [if_pos rfl, wp_bind]
    exact wp_bunpin h4 (by simp) hj3 hnot hrest

end Steps

end Xv6
