import Xv6.Console.Calls
import Xv6.Lib.Ring
import Mathlib.Data.List.Infix

/-!
# The console as a line editor

`Line` says what the console is for: characters are added to a line that can be edited until it is
committed, and readers take what has been committed.  The ring with its three indices does the same,
for every run and also after the indices have wrapped (`Shows`).
-/

namespace Xv6.Console

open Function (update update_of_ne update_self)
open List (append_assoc append_nil foldl_append length_append length_singleton)
open Machine

/-! ## Lines -/

def Event.byte? : Event → Option UInt8
  | .deliver _ c => some c
  | .eof _ => some ctrlD
  | .lost _ c => some c
  | .saved _ | .ret _ _ => none

def leaving (log : List Event) : List UInt8 := log.filterMap Event.byte?

structure Line where
  committed : List UInt8
  queue : List UInt8
  pending : List UInt8
  reader : Nat → Option (Nat × Nat)
  log : List Event

namespace Line

def type (l : Line) (c : UInt8) : Line :=
  if c = ctrlP then l
  else if c = ctrlU then { l with pending := [] }
  else if c = ctrlH ∨ c = delete then { l with pending := l.pending.dropLast }
  else if c ≠ 0 ∧ l.queue.length + l.pending.length < inputBufSize then
    let line := l.pending ++ [cooked c]
    if cooked c = newline ∨ cooked c = ctrlD ∨ l.queue.length + line.length = inputBufSize then
      { l with committed := l.committed ++ line, queue := l.queue ++ line, pending := [] }
    else { l with pending := line }
  else l

def read (p target : Nat) (killed : Bool) (copy : Nat → Bool) :
    Nat → List UInt8 → List UInt8 × List Event × Option Nat
  | 0, q => (q, [.ret p target], none)
  | n + 1, [] => if killed then ([], [.ret p (-1)], none) else ([], [], some (n + 1))
  | n + 1, c :: q =>
    if c = ctrlD then
      if n + 1 < target then (c :: q, [.saved p, .ret p (target - (n + 1))], none)
      else (q, [.eof p, .ret p (target - (n + 1))], none)
    else if copy (target - (n + 1)) = false then (q, [.lost p c, .ret p (target - (n + 1))], none)
    else if c = newline then (q, [.deliver p c, .ret p (target - n)], none)
    else
      let x := read p target killed copy n q
      (x.1, .deliver p c :: x.2.1, x.2.2)

def turn (l : Line) (p target : Nat) (killed : Bool) (copy : Nat → Bool) (n : Nat) : Line :=
  let x := read p target killed copy n l.queue
  { l with
    queue := x.1
    reader := update l.reader p (x.2.2.map (·, target))
    log := l.log ++ x.2.1 }

def next (l : Line) : Act → Option Line
  | .intr c => some (l.type c)
  | .read p n killed copy =>
    if l.reader p = none then some (l.turn p n.toNat killed copy n.toNat) else none
  | .resume p killed copy =>
    match l.reader p with
    | none => none
    | some (n, target) => some (l.turn p target killed copy n)

def boot : Line := ⟨[], [], [], fun _ => none, []⟩

end Line

/-! ## The ring shows a line -/

/-- The buffer after the bytes `gone` have left it, with `queue` committed and `pending` not. -/
structure Shows (s : Cons) (gone queue pending : List UInt8) : Prop where
  r : s.r = .ofNat gone.length
  w : s.w = .ofNat (gone ++ queue).length
  e : s.e = .ofNat (gone ++ queue ++ pending).length
  ring : Ring.Holds s.buf (gone ++ queue ++ pending) gone.length
  line : newline ∉ pending
  full : queue.length + pending.length = inputBufSize → pending = []

namespace Shows

variable {s : Cons} {gone queue pending line : List UInt8} {c : UInt8}

section

variable (h : Shows s gone queue pending)
include h

theorem length_le : queue.length + pending.length ≤ inputBufSize := by
  have := h.ring.room
  simp only [length_append] at this
  omega

theorem sub_r : (s.e - s.r).toNat = queue.length + pending.length := by
  rw [h.e, h.r, Ring.sub_toNat (by decide) h.ring.le h.ring.room]
  simp only [length_append]
  omega

theorem w_sub_r : (s.w - s.r).toNat = queue.length := by
  have := h.length_le
  rw [h.w, h.r, Ring.sub_toNat (N := inputBufSize) (by decide)]
  all_goals
    simp only [length_append]
    omega

theorem e_sub_w : (s.e - s.w).toNat = pending.length := by
  have := h.length_le
  rw [h.e, h.w, Ring.sub_toNat (N := inputBufSize) (by decide)]
  all_goals
    simp only [length_append]
    omega

theorem empty_iff : s.r = s.w ↔ queue = [] := by
  have := h.length_le
  rw [h.r, h.w, Ring.ofNat_eq_iff (N := inputBufSize) (by decide)]
  · simp
  all_goals
    simp only [length_append]
    omega

theorem edited_iff : s.e = s.w ↔ pending = [] := by
  have := h.length_le
  rw [eq_comm, h.e, h.w, Ring.ofNat_eq_iff (N := inputBufSize) (by decide)]
  · simp
  all_goals
    simp only [length_append]
    omega

theorem byte_eq {k : Nat} (hk : k < (queue ++ pending).length) :
    s.byte (.ofNat (gone.length + k)) = (queue ++ pending)[k] := by
  have hlt : gone.length + k < (gone ++ queue ++ pending).length := by
    rw [append_assoc, length_append]
    omega
  rw [Cons.byte, Ring.slot_ofNat (by decide), h.ring.get _ hlt (Nat.le_add_right ..)]
  simp only [append_assoc]
  rw [List.getElem_append_right (Nat.le_add_right ..)]
  simp only [Nat.add_sub_cancel_left]

theorem window_eq {a n : Nat} (hn : a + n ≤ (queue ++ pending).length) :
    (List.range n).map (fun k => s.byte (.ofNat (gone.length + a) + .ofNat k)) =
      ((queue ++ pending).drop a).take n := by
  refine List.ext_getElem ?_ fun k hk _ => ?_
  · rw [List.length_map, List.length_range, List.length_take, List.length_drop]
    omega
  · rw [List.length_map, List.length_range] at hk
    rw [List.getElem_map, List.getElem_range, ← UInt32.ofNat_add, Nat.add_assoc,
      h.byte_eq (by omega), List.getElem_take, List.getElem_drop]

theorem window_committed : s.window s.r s.w = queue := by
  have := h.window_eq (a := 0) (n := queue.length) (by simp)
  rw [Cons.window, h.w_sub_r, h.r]
  simpa using this

theorem window_pending : s.window s.w s.e = pending := by
  have := h.window_eq (a := queue.length) (n := pending.length) (by simp)
  rw [Cons.window, h.e_sub_w, h.w, length_append]
  simpa using this

end

/-! ### Editing -/

section

variable (h : Shows s gone queue (line ++ [c]))
include h

theorem e_sub_one : s.e - 1 = .ofNat (gone ++ queue ++ line).length := by
  rw [h.e, ← append_assoc, Ring.ofNat_concat]
  exact UInt32.add_sub_cancel _ _

theorem last : s.byte (s.e - 1) = c := by
  have hk : (queue ++ line).length < (queue ++ (line ++ [c])).length := by
    simp only [length_append, length_singleton]
    omega
  have hbyte := h.byte_eq hk
  rw [h.e_sub_one, append_assoc, length_append, hbyte]
  simp

theorem backspace : Shows { s with e := s.e - 1 } gone queue line where
  r := h.r
  w := h.w
  e := h.e_sub_one
  ring := by
    have hring := h.ring
    rw [← append_assoc] at hring
    refine hring.unpush ?_
    simp only [length_append]
    omega
  line hmem := h.line (List.mem_append_left _ hmem)
  full hfull := by
    have := h.length_le
    rw [length_append, length_singleton] at this
    omega

end

theorem killLine (h : Shows s gone queue pending) {f : Nat} (hf : pending.length ≤ f) :
    Shows (s.killLine f) gone queue [] := by
  induction f generalizing s pending with
  | zero =>
    rw [List.length_eq_zero_iff.mp (Nat.le_zero.mp hf)] at h
    exact h
  | succ f ih =>
    rcases pending.eq_nil_or_concat with rfl | ⟨line, c, rfl⟩
    · have hw := h.edited_iff.mpr rfl
      rw [Cons.killLine, if_neg fun hne => hne.1 hw]
      exact h
    · rw [List.concat_eq_append] at h hf
      have hw : s.e ≠ s.w := fun heq => by simpa using h.edited_iff.mp heq
      have hc : c ≠ newline := fun heq => h.line (by simp [heq])
      rw [Cons.killLine, if_pos ⟨hw, by rwa [h.last]⟩]
      exact ih h.backspace (by simpa using hf)

theorem store (h : Shows s gone queue pending) (hlt : queue.length + pending.length + 1 < inputBufSize)
    (hc : c ≠ newline) : Shows (s.store c) gone queue (pending ++ [c]) where
  r := h.r
  w := h.w
  e := by
    show s.e + 1 = _
    rw [h.e, ← append_assoc, Ring.ofNat_concat]
  ring := by
    show Ring.Holds (update s.buf (Fin.ofNat inputBufSize s.e.toNat) c) _ _
    rw [h.e, Ring.slot_ofNat (by decide), ← append_assoc]
    refine h.ring.push ?_ c
    simp only [length_append]
    omega
  line hmem := by
    rcases List.mem_append.mp hmem with hmem | hmem
    · exact h.line hmem
    · exact hc (List.mem_singleton.mp hmem).symm
  full hfull := by
    rw [length_append, length_singleton] at hfull
    omega

theorem commit (h : Shows s gone queue pending) (hlt : queue.length + pending.length < inputBufSize) :
    Shows { s.store c with w := (s.store c).e } gone (queue ++ (pending ++ [c])) [] where
  r := h.r
  w := by
    show s.e + 1 = _
    rw [h.e, ← append_assoc, ← append_assoc, Ring.ofNat_concat]
  e := by
    show s.e + 1 = _
    rw [h.e, append_nil, ← append_assoc, ← append_assoc, Ring.ofNat_concat]
  ring := by
    show Ring.Holds (update s.buf (Fin.ofNat inputBufSize s.e.toNat) c) _ _
    rw [h.e, Ring.slot_ofNat (by decide), append_nil, ← append_assoc, ← append_assoc]
    refine h.ring.push ?_ c
    simp only [length_append]
    omega
  line := by simp
  full _ := rfl

theorem intr {l : Line} (h : Shows s gone l.queue l.pending) (c : UInt8) :
    Shows (consoleintr c s) gone (l.type c).queue (l.type c).pending := by
  rw [consoleintr, Line.type]
  split
  · exact h
  split
  · exact h.killLine (Nat.le_of_eq h.e_sub_w.symm)
  split
  · rcases l.pending.eq_nil_or_concat with hnil | ⟨line, a, hline⟩
    · have hw := h.edited_iff.mpr hnil
      rw [if_neg (not_not.mpr hw)]
      show Shows s gone l.queue l.pending.dropLast
      rw [hnil] at h ⊢
      exact h
    · rw [List.concat_eq_append] at hline
      have hw : s.e ≠ s.w := fun heq => by simpa [hline] using h.edited_iff.mp heq
      rw [if_pos hw]
      show Shows _ gone l.queue l.pending.dropLast
      rw [hline] at h ⊢
      rw [List.dropLast_concat]
      exact h.backspace
  -- the two tests for room agree
  have hroom : s.e - s.r < .ofNat inputBufSize ↔
      l.queue.length + l.pending.length < inputBufSize := by
    rw [UInt32.lt_iff_toNat_lt, h.sub_r]
    rfl
  by_cases hc : c ≠ 0 ∧ l.queue.length + l.pending.length < inputBufSize
  · rw [if_pos (by rwa [hroom]), if_pos hc]
    have hcommit := h.commit (c := cooked c) hc.2
    have hlast : (s.store (cooked c)).e - (s.store (cooked c)).r = .ofNat inputBufSize ↔
        l.queue.length + (l.pending ++ [cooked c]).length = inputBufSize := by
      have hsub := hcommit.sub_r
      rw [List.length_nil, Nat.add_zero, length_append] at hsub
      rw [← UInt32.toNat_inj]
      show ((s.store (cooked c)).e - (s.store (cooked c)).r).toNat = _ ↔ _
      rw [show ((s.store (cooked c)).e - (s.store (cooked c)).r).toNat = _ from hsub]
      rfl
    dsimp only
    simp only [hlast]
    split
    · exact hcommit
    · rename_i hopen
      simp only [not_or] at hopen
      refine h.store ?_ hopen.1
      have := hopen.2.2
      rw [length_append, length_singleton] at this
      omega
  · rw [if_neg (by rwa [hroom]), if_neg hc]
    exact h

/-! ### Reading -/

theorem front (h : Shows s gone (c :: queue) pending) : s.byte s.r = c := by
  have := h.byte_eq (k := 0) (by simp)
  rw [h.r]
  simpa using this

theorem advance (h : Shows s gone (c :: queue) pending) :
    Shows { s with r := s.r + 1 } (gone ++ [c]) queue pending where
  r := by
    show s.r + 1 = _
    rw [h.r, Ring.ofNat_concat]
  w := by
    rw [append_assoc, List.singleton_append]
    exact h.w
  e := by
    rw [append_assoc gone, List.singleton_append]
    exact h.e
  ring := by
    rw [append_assoc gone, List.singleton_append, length_append, length_singleton]
    refine h.ring.pop ?_
    simp only [length_append, List.length_cons]
    omega
  line := h.line
  full hfull := by
    have := h.length_le
    rw [List.length_cons] at this
    omega

theorem read (h : Shows s gone queue pending) (p target : Nat) (killed : Bool) (copy : Nat → Bool)
    (n : Nat) :
    (consoleread p target killed copy n s).2 = (Line.read p target killed copy n queue).2 ∧
      Shows (consoleread p target killed copy n s).1
        (gone ++ leaving (Line.read p target killed copy n queue).2.1)
        (Line.read p target killed copy n queue).1 pending := by
  -- by induction on the bytes that are still wanted, as in the code
  induction n generalizing s gone queue with
  | zero =>
    refine ⟨rfl, ?_⟩
    show Shows s (gone ++ []) queue pending
    rwa [append_nil]
  | succ n ih =>
    cases queue with
    | nil =>
      have hr := h.empty_iff.mpr rfl
      rw [consoleread, Line.read, if_pos hr]
      rw [← append_nil gone] at h
      split
      · exact ⟨rfl, h⟩
      · exact ⟨rfl, h⟩
    | cons c queue =>
      have hr : s.r ≠ s.w := fun heq => by simpa using h.empty_iff.mp heq
      have hadv := h.advance
      rw [consoleread, Line.read, if_neg hr]
      dsimp only
      rw [h.front]
      split
      · split
        · refine ⟨rfl, ?_⟩
          have hback : s.r + 1 - 1 = s.r := UInt32.add_sub_cancel _ _
          rw [hback]
          show Shows s (gone ++ []) (c :: queue) pending
          rwa [append_nil]
        · rename_i hc _
          subst hc
          exact ⟨rfl, hadv⟩
      split
      · exact ⟨rfl, hadv⟩
      split
      · exact ⟨rfl, hadv⟩
      · obtain ⟨heq, hshow⟩ := ih hadv
        refine ⟨?_, ?_⟩
        · rw [heq]
        · simpa [leaving, Event.byte?] using hshow

end Shows

/-! ## The log -/

/-- The number of bytes that reader `p` has got since it last returned. -/
def got (p : Nat) (log : List Event) : Nat :=
  log.foldl (fun k ev => match ev with
    | .deliver q _ => if q = p then k + 1 else k
    | .ret q _ => if q = p then 0 else k
    | _ => k) 0

/-- What there is to say about an event, from the events `before` and `after` it and the bytes `rest`
that are in the buffer at the end. -/
def Event.Explained (before after : List Event) (rest : List UInt8) : Event → Prop
  | .deliver _ c => c ≠ ctrlD
  | .eof p => got p before = 0 ∧ after.head? = some (.ret p 0)
  | .lost p _ => after.head? = some (.ret p (got p before))
  -- the control-D stays: it is the next byte that leaves the buffer
  | .saved p => 0 < got p before ∧ after.head? = some (.ret p (got p before)) ∧
    (leaving after ++ rest).head? = some ctrlD
  | .ret p v => v = -1 ∨ v = got p before

def Explains (rest : List UInt8) : List Event → List Event → Prop
  | _, [] => True
  | before, ev :: after => ev.Explained before after rest ∧ Explains rest (before ++ [ev]) after

section Log

variable {before after log : List Event} {rest : List UInt8} {ev : Event} {p q : Nat} {c : UInt8}

theorem leaving_append (l l' : List Event) : leaving (l ++ l') = leaving l ++ leaving l' :=
  List.filterMap_append

theorem got_append_deliver : got p (before ++ [.deliver q c]) =
    if q = p then got p before + 1 else got p before := by
  rw [got, foldl_append]
  rfl

theorem got_append_ret {v : Int} : got p (before ++ [.ret q v]) =
    if q = p then 0 else got p before := by
  rw [got, foldl_append]
  rfl

theorem head?_append {α : Type} {l l' : List α} {a : α} (h : l.head? = some a) :
    (l ++ l').head? = some a := by
  rw [List.head?_append, h]
  rfl

theorem Event.Explained.append (h : ev.Explained before after (leaving log ++ rest)) :
    ev.Explained before (after ++ log) rest := by
  cases ev with
  | deliver p c => exact h
  | eof p => exact ⟨h.1, head?_append h.2⟩
  | lost p c => exact head?_append h
  | saved p =>
    refine ⟨h.1, head?_append h.2.1, ?_⟩
    rw [leaving_append, append_assoc]
    exact h.2.2
  | ret p v => exact h

theorem Explains.append (h : Explains (leaving log ++ rest) before after)
    (hlog : Explains rest (before ++ after) log) : Explains rest before (after ++ log) := by
  induction after generalizing before with
  | nil => simpa using hlog
  | cons ev after ih =>
    refine ⟨h.1.append, ih h.2 ?_⟩
    simpa using hlog

theorem Explains.more {more : List UInt8} (h : Explains rest before after) :
    Explains (rest ++ more) before after := by
  induction after generalizing before with
  | nil => trivial
  | cons ev after ih =>
    refine ⟨?_, ih h.2⟩
    cases ev with
    | saved p =>
      refine ⟨h.1.1, h.1.2.1, ?_⟩
      rw [← append_assoc]
      exact head?_append h.1.2.2
    | _ => exact h.1

/-- What a reader that runs from `n` bytes on does to the queue and the log. -/
structure Turn (before : List Event) (p target n : Nat) (queue : List UInt8)
    (x : List UInt8 × List Event × Option Nat) : Prop where
  queue : leaving x.2.1 ++ x.1 = queue
  explains : Explains x.1 before x.2.1
  sleeps : ∀ m, x.2.2 = some m → m + got p (before ++ x.2.1) = target
  returns : x.2.2 = none → got p (before ++ x.2.1) = 0
  others : ∀ q, q ≠ p → got q (before ++ x.2.1) = got q before

theorem got_append_eof : got q (before ++ [.eof p]) = got q before := by
  rw [got, foldl_append]
  rfl

theorem got_append_lost : got q (before ++ [.lost p c]) = got q before := by
  rw [got, foldl_append]
  rfl

theorem got_append_saved : got q (before ++ [.saved p]) = got q before := by
  rw [got, foldl_append]
  rfl

theorem Turn.of_end {target n : Nat} {queue queue' : List UInt8}
    (hev : ∀ q, got q (before ++ [ev]) = got q before) (h : n + got p before = target)
    (hqueue : leaving [ev] ++ queue' = queue)
    (hex : ev.Explained before [.ret p (got p before)] queue') :
    Turn before p target n queue (queue', [ev, .ret p (target - n)], none) := by
  have hv : (target : Int) - n = got p before := by omega
  have hsplit : before ++ [ev, .ret p (target - n)] = before ++ [ev] ++ [.ret p (target - n)] := by
    simp
  refine ⟨?_, ⟨?_, .inr ?_, trivial⟩, nofun, fun _ => ?_, fun q hq => ?_⟩
  · rw [← hqueue]
    cases ev <;> rfl
  · rw [hv]
    exact hex
  · rw [hev, hv]
  · rw [hsplit, got_append_ret, if_pos rfl]
  · rw [hsplit, got_append_ret, if_neg hq.symm, hev]

theorem turn_read {target n : Nat} (killed : Bool) (copy : Nat → Bool) (queue : List UInt8)
    (h : n + got p before = target) :
    Turn before p target n queue (Line.read p target killed copy n queue) := by
  -- by induction on the bytes that are still wanted; `before` grows with every byte delivered
  induction n generalizing before queue with
  | zero =>
    refine ⟨rfl, ⟨.inr ?_, trivial⟩, nofun, fun _ => ?_, fun q hq => ?_⟩
    · omega
    · exact got_append_ret.trans (if_pos rfl)
    · exact got_append_ret.trans (if_neg hq.symm)
  | succ n ih =>
    cases queue with
    | nil =>
      rw [Line.read]
      split
      · refine ⟨rfl, ⟨.inl rfl, trivial⟩, nofun, fun _ => ?_, fun q hq => ?_⟩
        · exact got_append_ret.trans (if_pos rfl)
        · exact got_append_ret.trans (if_neg hq.symm)
      · refine ⟨rfl, trivial, fun m hm => ?_, nofun, fun q _ => ?_⟩
        · rw [append_nil, ← Option.some.inj hm]
          exact h
        · rw [append_nil]
    | cons c queue =>
      rw [Line.read]
      split
      · rename_i hc
        subst hc
        split
        · exact .of_end (fun _ => got_append_saved) h rfl ⟨by omega, rfl, rfl⟩
        · have hzero : got p before = 0 := by omega
          exact .of_end (fun _ => got_append_eof) h rfl ⟨hzero, by rw [hzero]; rfl⟩
      split
      · exact .of_end (fun _ => got_append_lost) h rfl rfl
      rename_i hc _
      have hgot : n + got p (before ++ [.deliver p c]) = target := by
        rw [got_append_deliver, if_pos rfl]
        omega
      split
      · have hsplit : before ++ [.deliver p c, .ret p (target - n)] =
            before ++ [.deliver p c] ++ [.ret p (target - n)] := by simp
        refine ⟨rfl, ⟨hc, .inr ?_, trivial⟩, nofun, fun _ => ?_, fun q hq => ?_⟩
        · omega
        · rw [hsplit, got_append_ret, if_pos rfl]
        · rw [hsplit, got_append_ret, if_neg hq.symm, got_append_deliver, if_neg hq.symm]
      · have hturn := ih queue hgot
        have hsplit : ∀ l : List Event, before ++ .deliver p c :: l =
            before ++ [.deliver p c] ++ l := by simp
        refine ⟨?_, ⟨hc, hturn.explains⟩, fun m hm => ?_, fun hnone => ?_, fun q hq => ?_⟩
        · exact congrArg (c :: ·) hturn.queue
        · rw [hsplit]
          exact hturn.sleeps m hm
        · rw [hsplit]
          exact hturn.returns hnone
        · rw [hsplit, hturn.others q hq, got_append_deliver, if_neg hq.symm]

end Log

/-! ## Runs -/

/-- A reader that sleeps has got all that it does not want any more. -/
def Owed (got : Nat) : Option (Nat × Nat) → Prop
  | none => got = 0
  | some (n, target) => n + got = target

/-- The console with its log, and the line that it shows. -/
structure Sim (s : State) (l : Line) : Prop where
  shows : Shows s.cons (leaving s.log) l.queue l.pending
  reader : l.reader = s.reader
  log : l.log = s.log
  committed : l.committed = leaving s.log ++ l.queue
  explains : Explains l.queue [] s.log
  owed : ∀ p, Owed (got p s.log) (s.reader p)

theorem sim_boot : Sim State.boot Line.boot where
  shows := ⟨rfl, rfl, rfl, .nil _, by simp [Line.boot], fun _ => rfl⟩
  reader := rfl
  log := rfl
  committed := rfl
  explains := trivial
  owed _ := rfl

section Runs

variable {s t : State} {l : Line}

theorem Line.type_queue (l : Line) (c : UInt8) : ∃ more, (l.type c).queue = l.queue ++ more ∧
    (l.type c).committed = l.committed ++ more ∧ (l.type c).reader = l.reader ∧
    (l.type c).log = l.log := by
  rw [Line.type]
  split
  · exact ⟨[], by simp⟩
  split
  · exact ⟨[], by simp⟩
  split
  · exact ⟨[], by simp⟩
  split
  · dsimp only
    split
    · exact ⟨_, rfl, rfl, rfl, rfl⟩
    · exact ⟨[], by simp⟩
  · exact ⟨[], by simp⟩

theorem Sim.intr (h : Sim s l) (c : UInt8) :
    Sim { s with cons := consoleintr c s.cons } (l.type c) := by
  obtain ⟨more, hqueue, hcommitted, hreader, hlog⟩ := l.type_queue c
  refine ⟨h.shows.intr c, hreader.trans h.reader, hlog.trans h.log, ?_, ?_, h.owed⟩
  · rw [hcommitted, hqueue, h.committed, append_assoc]
  · rw [hqueue]
    exact h.explains.more

theorem Sim.turn (h : Sim s l) {p target n : Nat} {killed : Bool} {copy : Nat → Bool}
    (hn : n + got p s.log = target) :
    Sim (s.turn p target killed copy n) (l.turn p target killed copy n) := by
  obtain ⟨heq, hshows⟩ := h.shows.read p target killed copy n
  have hturn := turn_read killed copy l.queue hn
  refine ⟨?_, ?_, ?_, ?_, ?_, fun q => ?_⟩
  · show Shows _ (leaving (s.log ++ _)) _ _
    rw [heq, leaving_append]
    exact hshows
  · show update l.reader p _ = update s.reader p _
    rw [h.reader, heq]
  · show l.log ++ _ = s.log ++ _
    rw [h.log, heq]
  · show l.committed = leaving (s.log ++ _) ++ (Line.read p target killed copy n l.queue).1
    rw [heq, leaving_append, append_assoc, hturn.queue, h.committed]
  · show Explains (Line.read p target killed copy n l.queue).1 [] (s.log ++ _)
    rw [heq]
    refine Explains.append ?_ hturn.explains
    rw [hturn.queue]
    exact h.explains
  · show Owed (got q (s.log ++ _)) (update s.reader p _ q)
    rw [heq]
    by_cases hq : q = p
    · subst hq
      rw [update_self]
      cases hm : (Line.read q target killed copy n l.queue).2.2 with
      | none => exact hturn.returns hm
      | some m => exact hturn.sleeps m hm
    · rw [update_of_ne hq, hturn.others q hq]
      exact h.owed q

theorem Sim.step {a : Act} (h : Sim s l) (hstep : next s a = some t) :
    ∃ l', Line.next l a = some l' ∧ Sim t l' := by
  cases a with
  | intr c =>
    cases hstep
    exact ⟨_, rfl, h.intr c⟩
  | read p n killed copy =>
    rw [next] at hstep
    split at hstep
    · rename_i hnone
      cases hstep
      have hgot := h.owed p
      rw [hnone] at hgot
      refine ⟨_, ?_, h.turn (by rw [show got p s.log = 0 from hgot, Nat.add_zero])⟩
      rw [Line.next, h.reader, if_pos hnone]
    · cases hstep
  | resume p killed copy =>
    rw [next] at hstep
    split at hstep
    · cases hstep
    · rename_i n target hsome
      cases hstep
      have hgot := h.owed p
      rw [hsome] at hgot
      refine ⟨_, ?_, h.turn hgot⟩
      rw [Line.next, h.reader, hsome]

structure Disciplined (as : List Act) (s : State) : Prop where
  le : (s.cons.e - s.cons.r).toNat ≤ inputBufSize
  between : (s.cons.w - s.cons.r).toNat ≤ (s.cons.e - s.cons.r).toNat
  full : (s.cons.e - s.cons.r).toNat = inputBufSize → s.cons.w = s.cons.e
  kept : ∀ c, (consoleintr c s.cons).r = s.cons.r ∧ s.cons.window s.cons.r s.cons.w <+:
    (consoleintr c s.cons).window (consoleintr c s.cons).r (consoleintr c s.cons).w
  /-- What has left the buffer and what can be read is what has been committed. -/
  line : ∃ l, run Line.next Line.boot as = some l ∧
    leaving s.log ++ s.cons.window s.cons.r s.cons.w = l.committed ∧
    s.cons.window s.cons.w s.cons.e = l.pending
  log : Explains (s.cons.window s.cons.r s.cons.w) [] s.log

theorem Sim.kept (h : Sim s l) (c : UInt8) : (consoleintr c s.cons).r = s.cons.r ∧
    s.cons.window s.cons.r s.cons.w <+:
      (consoleintr c s.cons).window (consoleintr c s.cons).r (consoleintr c s.cons).w := by
  have ht := h.intr c
  refine ⟨ht.shows.r.trans h.shows.r.symm, ?_⟩
  obtain ⟨more, hqueue, _⟩ := l.type_queue c
  rw [h.shows.window_committed, ht.shows.window_committed, hqueue]
  exact List.prefix_append ..

/-- **The line discipline of the console.** -/
theorem console_disciplined {as : List Act} (h : run next State.boot as = some s) :
    Disciplined as s := by
  obtain ⟨l, hl, hsim⟩ := run_lockstep (fun _ _ _ _ hs ht => hs.step ht) h sim_boot
  have hshows := hsim.shows
  refine ⟨?_, ?_, fun hfull => ?_, hsim.kept, ⟨l, hl, ?_, hshows.window_pending⟩, ?_⟩
  · rw [hshows.sub_r]
    exact hshows.length_le
  · rw [hshows.sub_r, hshows.w_sub_r]
    exact Nat.le_add_right ..
  · rw [hshows.sub_r] at hfull
    exact (hshows.edited_iff.mpr (hshows.full hfull)).symm
  · rw [hshows.window_committed, hsim.committed]
  · rw [hshows.window_committed]
    exact hsim.explains

/-- A line is corrected and read; the control-D after it ends this read and then another one. -/
theorem console_disciplined_small : ∃ s,
    run next State.boot
      [.read 1 5 false (fun _ => true), .intr 0x68, .intr 0x78, .intr ctrlH, .intr 0x69, .intr 0x21,
        .intr ctrlD, .resume 1 false (fun _ => true), .read 1 5 false (fun _ => true)] = some s ∧
      s.log = [.deliver 1 0x68, .deliver 1 0x69, .deliver 1 0x21, .saved 1, .ret 1 3, .eof 1,
        .ret 1 0] ∧
      Disciplined
        [.read 1 5 false (fun _ => true), .intr 0x68, .intr 0x78, .intr ctrlH, .intr 0x69, .intr 0x21,
          .intr ctrlD, .resume 1 false (fun _ => true), .read 1 5 false (fun _ => true)] s :=
  ⟨_, rfl, by decide, console_disciplined rfl⟩

end Runs

end Xv6.Console
