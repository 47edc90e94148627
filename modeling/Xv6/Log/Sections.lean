import Xv6.Param
import Mathlib.Data.List.Basic

/-!
# The critical sections of the log

Three functions of `kernel/log.c` change `struct log` while holding `log.lock`.  What each of them does
between `acquire` and `release` (or `sleep`) is a function on the log, and that function is what is
modelled here.  `lh.block[0 .. n)` is kept as a list, so `lh.n` is its length.
-/

namespace Xv6

/-- `struct log`, without its spinlock. -/
structure Log where
  start : Nat
  size : Nat
  outstanding : Int
  committing : Bool
  dev : Nat
  /-- `lh.block[0 .. lh.n)`: the blocks the current transaction has logged. -/
  lh : List Nat
  deriving DecidableEq, Repr

namespace Log

/-- The log as `initlog` leaves it once recovery is done. -/
def init (start size dev : Nat) : Log :=
  { start, size, outstanding := 0, committing := false, dev, lh := [] }

/-- One turn of `begin_op`'s loop: the log after admitting the caller, or `none` when the caller
has to sleep on `&log`. -/
def beginOp (l : Log) : Option Log :=
  if l.committing then none
  else if (l.lh.length : Int) + (l.outstanding + 1) * maxOpBlocks > logSize then none
  else some { l with outstanding := l.outstanding + 1 }

/-- The locked part of `end_op`; the flag is `do_commit`.  When it is not set, `end_op` also wakes
the sleepers on `&log`. -/
def endOp (l : Log) : Except Panic (Log × Bool) :=
  let l := { l with outstanding := l.outstanding - 1 }
  if l.committing then .error .logCommitting
  else if l.outstanding = 0 then .ok ({ l with committing := true }, true)
  else .ok (l, false)

/-- `log_write` of the buffer that holds block `b`; the flag says whether the block is new to the
transaction, in which case its buffer is pinned.  The capacity test comes before the search for an
earlier copy, so it also stops a block that would have been absorbed. -/
def logWrite (l : Log) (b : Nat) : Except Panic (Log × Bool) :=
  if l.lh.length ≥ logSize ∨ (l.lh.length : Int) ≥ (l.size : Int) - 1 then
    .error .tooBigATransaction
  else if l.outstanding < 1 then .error .logWriteOutsideOfTrans
  else
    let i := l.lh.idxOf b
    if i = l.lh.length then .ok ({ l with lh := l.lh ++ [b] }, true)
    else .ok ({ l with lh := l.lh.set i b }, false)

/-! ### What the three sections do -/

theorem beginOp_eq_some {l l' : Log} (h : l.beginOp = some l') :
    l.committing = false ∧ (l.lh.length : Int) + (l.outstanding + 1) * maxOpBlocks ≤ logSize ∧
      l' = { l with outstanding := l.outstanding + 1 } := by
  rw [beginOp] at h
  split at h
  · cases h
  · split at h
    · cases h
    · rename_i hc hn
      rw [Option.some_inj] at h
      exact ⟨by simpa using hc, by omega, h.symm⟩

theorem beginOp_eq_none {l : Log} (h : l.beginOp = none) :
    l.committing = true ∨
      (l.lh.length : Int) + (l.outstanding + 1) * maxOpBlocks > logSize := by
  rw [beginOp] at h
  split at h
  · exact .inl ‹_›
  · split at h
    · exact .inr ‹_›
    · cases h

theorem endOp_eq_ok {l l' : Log} {commit : Bool} (h : l.endOp = .ok (l', commit)) :
    l.committing = false ∧ (commit = true ↔ l.outstanding - 1 = 0) ∧
      l' = { l with outstanding := l.outstanding - 1, committing := commit } := by
  dsimp only [endOp] at h
  split at h
  · cases h
  · rename_i hc
    split at h
    · rename_i ho
      rw [Except.ok.injEq, Prod.mk.injEq] at h
      exact ⟨by simpa using hc, by simp [← h.2, ho], by rw [← h.1, ← h.2]⟩
    · rename_i ho
      rw [Except.ok.injEq, Prod.mk.injEq] at h
      refine ⟨by simpa using hc, by simp [← h.2, ho], ?_⟩
      rw [← h.1, ← h.2]
      simp_all

theorem logWrite_tooBig_iff (l : Log) (b : Nat) :
    l.logWrite b = .error .tooBigATransaction ↔
      logSize ≤ l.lh.length ∨ (l.size : Int) - 1 ≤ l.lh.length := by
  rw [logWrite]
  split
  · exact iff_of_true rfl ‹_›
  · rename_i h
    refine iff_of_false ?_ h
    split
    · simp
    · dsimp only
      split <;> simp

theorem logWrite_eq_ok {l l' : Log} {b : Nat} {pin : Bool} (h : l.logWrite b = .ok (l', pin)) :
    l.lh.length < logSize ∧ (l.lh.length : Int) < l.size - 1 ∧ 1 ≤ l.outstanding ∧
      ((b ∈ l.lh ∧ l' = l ∧ pin = false) ∨
        (b ∉ l.lh ∧ l' = { l with lh := l.lh ++ [b] } ∧ pin = true)) := by
  rw [logWrite] at h
  split at h
  · cases h
  · split at h
    · cases h
    · rename_i hcap hout
      refine ⟨by omega, by omega, by omega, ?_⟩
      dsimp only at h
      split at h
      · rename_i hi
        rw [Except.ok.injEq, Prod.mk.injEq] at h
        exact .inr ⟨List.idxOf_eq_length_iff.mp hi, h.1.symm, h.2.symm⟩
      · rename_i hi
        have hmem : b ∈ l.lh := by
          by_contra hb
          exact hi (List.idxOf_eq_length_iff.mpr hb)
        rw [Except.ok.injEq, Prod.mk.injEq] at h
        refine .inl ⟨hmem, ?_, h.2.symm⟩
        -- the slot found already holds `b`, so storing `b` there changes nothing
        have hset : l.lh.set (l.lh.idxOf b) b = l.lh := by
          refine List.ext_getElem (by simp) fun j hj _ => ?_
          rw [List.getElem_set]
          split
          · rename_i hij
            subst hij
            exact (List.getElem_idxOf _).symm
          · rfl
        rw [← h.1, hset]

theorem beginOp_eq_none_of_logWrite {l l' : Log} {b : Nat} {pin : Bool}
    (h : l.logWrite b = .ok (l', pin)) (hl : l.beginOp = none) : l'.beginOp = none := by
  obtain ⟨-, -, -, ⟨-, rfl, -⟩ | ⟨-, rfl, -⟩⟩ := logWrite_eq_ok h
  · exact hl
  · rcases beginOp_eq_none hl with hc | hfull
    · exact if_pos hc
    · rw [beginOp]
      split
      · rfl
      · rw [if_pos]
        simp only [List.length_append, List.length_singleton]
        omega

theorem endOp_size {l l' : Log} {c : Bool} (h : l.endOp = .ok (l', c)) : l'.size = l.size := by
  rw [(endOp_eq_ok h).2.2]

end Log

end Xv6
