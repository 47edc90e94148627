import Mathlib.Data.List.Infix
import Xv6.Lib.Ring
import Xv6.Pipe.Calls

/-!
# A pipe is a queue

Whatever the processes do, and also after the counters have wrapped, the bytes that are taken out of
a pipe are those that were put in, in order, and those in between are in `data[]`.  A reader is told
that there is nothing more to come only when everything has been taken out and the write end is
closed.
-/

namespace Xv6

namespace Pipes

open Machine

/-- The counters count, and `data[]` holds what has not been taken out. -/
structure Fifo (s : Sys) : Prop where
  nread : s.pipe.nread = .ofNat s.got.length
  nwrite : s.pipe.nwrite = .ofNat s.put.length
  ring : Ring.Holds s.pipe.data s.put s.got.length
  got : s.got <+: s.put

inductive Effect (s t : Sys) : Prop where
  | none : t.put = s.put → t.got = s.got → t.pipe.data = s.pipe.data →
    t.pipe.nread = s.pipe.nread → t.pipe.nwrite = s.pipe.nwrite → Effect s t
  | store (ch : UInt8) : ¬s.pipe.Full → t.put = s.put ++ [ch] → t.got = s.got →
    t.pipe = s.pipe.store ch → Effect s t
  | take : ¬s.pipe.Empty → t.put = s.put → t.got = s.got ++ [s.pipe.front] →
    t.pipe = s.pipe.advance → Effect s t

theorem Step.effect {s t : Sys} (h : Step s t) : Effect s t := by
  cases h with
  | store p n i told ch _ hfull => exact .store ch hfull rfl rfl rfl
  | take p n i pc _ _ hempty _ => exact .take hempty rfl rfl rfl
  | close p w => cases w <;> exact .none rfl rfl rfl rfl rfl
  | finish p chan j k => cases k <;> exact .none rfl rfl rfl rfl rfl
  | _ => exact .none rfl rfl rfl rfl rfl

section Counters

variable {s t : Sys}

theorem Fifo.empty_iff (h : Fifo s) : s.pipe.Empty ↔ s.got.length = s.put.length := by
  rw [Pipe.Empty, h.nread, h.nwrite]
  exact Ring.ofNat_eq_iff (by decide) h.ring.le h.ring.room

theorem Fifo.full_iff (h : Fifo s) : s.pipe.Full ↔ s.put.length = s.got.length + pipesize := by
  rw [Pipe.Full, h.nread, h.nwrite, ← UInt32.ofNat_add]
  exact Ring.ofNat_eq_iff (by decide) h.ring.room (Nat.add_le_add_right h.ring.le _)

theorem Fifo.front_eq (h : Fifo s) (hlt : s.got.length < s.put.length) :
    s.pipe.front = s.put[s.got.length] := by
  rw [Pipe.front, h.nread, Ring.slot_ofNat (by decide)]
  exact h.ring.head hlt

theorem Fifo.sub_toNat (h : Fifo s) :
    (s.pipe.nwrite - s.pipe.nread).toNat = s.put.length - s.got.length := by
  rw [h.nread, h.nwrite]
  exact Ring.sub_toNat (by decide) h.ring.le h.ring.room

theorem Fifo.step (h : Fifo s) (hstep : Effect s t) : Fifo t := by
  cases hstep with
  | none hput hgot hdata hnread hnwrite =>
    exact ⟨by rw [hnread, hgot, h.nread], by rw [hnwrite, hput, h.nwrite],
      by rw [hdata, hput, hgot]; exact h.ring, by rw [hput, hgot]; exact h.got⟩
  | store ch hfull hput hgot hpipe =>
    rw [h.full_iff] at hfull
    have hroom := h.ring.room
    refine ⟨?_, ?_, ?_, ?_⟩
    · rw [hpipe, hgot]
      exact h.nread
    · rw [hpipe, hput, List.length_append, List.length_singleton, UInt32.ofNat_add, Pipe.store,
        h.nwrite]
      rfl
    · rw [hpipe, hput, hgot, Pipe.store]
      dsimp only
      rw [h.nwrite, Ring.slot_ofNat (by decide)]
      exact h.ring.push (by omega) ch
    · rw [hput, hgot]
      exact h.got.trans (List.prefix_append _ _)
  | take hempty hput hgot hpipe =>
    rw [h.empty_iff] at hempty
    have hle := h.ring.le
    have hlt : s.got.length < s.put.length := by omega
    have hlen : t.got.length = s.got.length + 1 := by
      rw [hgot, List.length_append, List.length_singleton]
    refine ⟨?_, ?_, ?_, ?_⟩
    · rw [hpipe, hlen, UInt32.ofNat_add, Pipe.advance, h.nread]
      rfl
    · rw [hpipe, hput]
      exact h.nwrite
    · rw [hpipe, hput, hlen]
      exact h.ring.pop hlt
    · rw [hput, hgot, h.front_eq hlt]
      exact List.concat_get_prefix h.got hlt

theorem fifo_init (data : Fin pipesize → UInt8) : Fifo (Sys.init data) where
  nread := rfl
  nwrite := rfl
  ring := .nil data
  got := List.prefix_refl []

end Counters

/-- **A pipe is a queue**, for any schedule and any volume. -/
theorem fifo {data : Fin pipesize → UInt8} {s : Sys} (h : Reachable next (Sys.init data) s) :
    s.got <+: s.put ∧
    (s.pipe.nwrite - s.pipe.nread).toNat = s.put.length - s.got.length ∧
    s.put.length - s.got.length ≤ pipesize ∧
    (∀ k (hk : k < s.put.length), s.got.length ≤ k →
      s.pipe.data (Fin.ofNat pipesize k) = s.put[k]) ∧
    ∀ p n chan j, s.pc p = .wakeup chan j (.read n 0 false) → 0 < n →
      s.got = s.put ∧ s.pipe.writeopen = false := by
  have hheld : Held s :=
    h.induction (held_init data) fun s a t hs hnext => hs.step (step_of_next hnext)
  have hfifo : Fifo s :=
    h.induction (fifo_init data) fun s a t hs hnext => hs.step (step_of_next hnext).effect
  have hroom := hfifo.ring.room
  refine ⟨hfifo.got, hfifo.sub_toNat, by omega, hfifo.ring.get, fun p n chan j hpc hn => ?_⟩
  have hknows := hheld.knows p
  rw [hpc] at hknows
  obtain ⟨hempty, hclosed⟩ := hknows rfl hn
  exact ⟨hfifo.got.eq_of_length (hfifo.empty_iff.mp hempty), hclosed⟩

/-- One process writes a byte, closes the write end, and another reads until the end. -/
def script : List Act :=
  .pipewrite 0 1 :: (List.replicate 5 (.run 0 (some 7)) ++ List.replicate 65 (.run 0 none)) ++
  .pipeclose 0 true :: List.replicate 67 (.run 0 none) ++
  .piperead 1 1 :: List.replicate 69 (.run 1 (some 0)) ++
  .piperead 1 1 :: List.replicate 3 (.run 1 none)

theorem fifo_script : ∃ s, run next (Sys.init fun _ => 0) script = some s ∧
    s.pc 1 = .wakeup .nwrite 0 (.read 1 0 false) ∧ s.put = [7] ∧ s.got = s.put ∧
    s.pipe.writeopen = false := by
  have heval : ((run next (Sys.init fun _ => 0) script).map fun s => (s.pc 1, s.put)) =
      some (.wakeup .nwrite 0 (.read 1 0 false), [7]) := by decide +kernel
  obtain ⟨s, hrun, hs⟩ := Option.map_eq_some_iff.mp heval
  obtain ⟨hpc, hput⟩ := Prod.mk.inj hs
  exact ⟨s, hrun, hpc, hput, (fifo ⟨script, hrun⟩).2.2.2.2 1 1 .nwrite 0 hpc (by decide)⟩

end Pipes

end Xv6
