import Xv6.Bio.Cache
import Xv6.Lib.Count
import Xv6.Lib.Links
import Xv6.Lib.Machine

/-!
# The list of buffers and their references

`kernel/bio.c` once more, for any number of processes and with the links of the list as they are.
`bget` and `brelse` have two parts: `bget` takes its reference under `bcache.lock` and then waits for
the lock of the buffer, and `brelse` first releases that lock and then gives the reference back.
Each section under `bcache.lock` is a step.
-/

namespace Xv6

open Function (update update_self update_apply)
open Option (isSome_none isSome_some ite_none_right_eq_some some_inj)

namespace BufList

open Machine

variable {P : Type}

/-- `struct buf`, without its links and its data. -/
structure Entry (P : Type) where
  valid : Bool
  dev : UInt32
  blockno : UInt32
  lock : Option P
  refcnt : UInt32

inductive Pc where
  | ready
  | waiting (i : BufId)
  | releasing (i : BufId)
  deriving DecidableEq, Repr

/-- The process has a reference to buffer `i` and does not hold it. -/
def Pc.Uses (i : BufId) (pc : Pc) : Prop := pc = .waiting i ∨ pc = .releasing i

instance (i : BufId) (pc : Pc) : Decidable (pc.Uses i) := inferInstanceAs (Decidable (_ ∨ _))

structure Sys (P : Type) where
  links : Links BufId
  buf : BufId → Entry P
  pc : P → Pc
  pins : BufId → Nat

inductive Act (P : Type) where
  | bget (p : P) (dev blockno : UInt32)
  | acquiresleep (p : P)
  | bread (p : P) (i : BufId)
  | brelse (p : P) (i : BufId)
  | relink (p : P)
  | bpin (i : BufId)
  | bunpin (i : BufId)
  deriving DecidableEq, Repr

namespace Sys

/-- `binit`: each buffer is linked in behind the head. -/
def init (P : Type) : Sys P where
  links := (List.finRange nbuf).foldl Links.pushFront (.empty BufId)
  buf := fun _ => ⟨false, 0, 0, none, 0⟩
  pc := fun _ => .ready
  pins := fun _ => 0

def set (s : Sys P) (i : BufId) (b : Entry P) : Sys P := { s with buf := update s.buf i b }

/-- The part of `bget` under `bcache.lock`. -/
def bget (s : Sys P) (dev blockno : UInt32) : Option (BufId × Sys P) :=
  match Links.search s.links.next (fun i => (s.buf i).dev = dev ∧ (s.buf i).blockno = blockno)
    (nbuf + 1) (s.links.next none) with
  | some i => some (i, s.set i { s.buf i with refcnt := (s.buf i).refcnt + 1 })
  | none =>
    match Links.search s.links.prev (fun i => (s.buf i).refcnt = 0) (nbuf + 1) (s.links.prev none) with
    | some i => some (i, s.set i { s.buf i with dev, blockno, valid := false, refcnt := 1 })
    | none => none

/-- The part of `brelse` under `bcache.lock`. -/
def relink (s : Sys P) (i : BufId) : Sys P :=
  let s := s.set i { s.buf i with refcnt := (s.buf i).refcnt - 1 }
  if (s.buf i).refcnt = 0 then { s with links := (s.links.remove i).pushFront i } else s

end Sys

/-! ## Looking for a buffer -/

inductive Found (s : Sys P) (dev blockno : UInt32) (i : BufId) : Entry P → Prop where
  | hit : (s.buf i).dev = dev → (s.buf i).blockno = blockno →
    Found s dev blockno i { s.buf i with refcnt := (s.buf i).refcnt + 1 }
  | recycle : (∀ j, ¬((s.buf j).dev = dev ∧ (s.buf j).blockno = blockno)) → (s.buf i).refcnt = 0 →
    Found s dev blockno i { s.buf i with dev, blockno, valid := false, refcnt := 1 }

section Find

variable {s t : Sys P} {l : List BufId} {dev blockno : UInt32} {i : BufId}

@[simp] theorem Sys.set_buf (s : Sys P) (i j : BufId) (b : Entry P) :
    (s.set i b).buf j = if j = i then b else s.buf j := update_apply ..

@[simp] theorem Sys.set_pins (s : Sys P) (i : BufId) (b : Entry P) : (s.set i b).pins = s.pins := rfl

theorem Sys.bget_eq (h : s.links.Circular l) : s.bget dev blockno =
    match l.find? fun i => (s.buf i).dev = dev ∧ (s.buf i).blockno = blockno with
    | some i => some (i, s.set i { s.buf i with refcnt := (s.buf i).refcnt + 1 })
    | none => match l.reverse.find? fun i => (s.buf i).refcnt = 0 with
      | some i => some (i, s.set i { s.buf i with dev, blockno, valid := false, refcnt := 1 })
      | none => none := by
  have hlen : l.length < nbuf + 1 := by
    have := h.nodup.length_le_card
    rw [Fintype.card_fin] at this
    omega
  rw [bget, h.search_next hlen, h.search_prev hlen]

theorem Sys.found_of_bget (h : s.links.Circular l) (hall : ∀ i, i ∈ l)
    (hget : s.bget dev blockno = some (i, t)) : ∃ b, Found s dev blockno i b ∧ t = s.set i b := by
  rw [bget_eq h] at hget
  split at hget
  · rename_i j hfind
    rw [some_inj, Prod.mk.injEq] at hget
    obtain ⟨rfl, rfl⟩ := hget
    have hkey : (s.buf j).dev = dev ∧ (s.buf j).blockno = blockno := by
      simpa using List.find?_some hfind
    exact ⟨_, .hit hkey.1 hkey.2, rfl⟩
  · rename_i hnone
    split at hget
    · rename_i j hfind
      rw [some_inj, Prod.mk.injEq] at hget
      obtain ⟨rfl, rfl⟩ := hget
      have href : (s.buf j).refcnt = 0 := by simpa using List.find?_some hfind
      refine ⟨_, .recycle (fun k => ?_) href, rfl⟩
      simpa using List.find?_eq_none.mp hnone k (hall k)
    · exact absurd hget (by simp)

end Find

/-! ## Steps -/

section Next

variable [DecidableEq P]

def Sys.goto (s : Sys P) (p : P) (pc : Pc) : Sys P := { s with pc := update s.pc p pc }

/-- The next state.  Processes release only what they hold, and buffers are unpinned only if they are
pinned; device 0 is not used.  A panic stops the machine. -/
def next (s : Sys P) : Act P → Option (Sys P)
  | .bget p dev blockno =>
    if s.pc p = .ready ∧ dev ≠ 0 then
      match s.bget dev blockno with
      | some (i, t) => some (t.goto p (.waiting i))
      | none => none
    else none
  | .acquiresleep p => match s.pc p with
    | .waiting i =>
      if (s.buf i).lock = none then some ((s.set i { s.buf i with lock := some p }).goto p .ready)
      else none
    | _ => none
  | .bread p i =>
    if s.pc p = .ready ∧ (s.buf i).lock = some p then some (s.set i { s.buf i with valid := true })
    else none
  | .brelse p i =>
    if s.pc p = .ready ∧ (s.buf i).lock = some p then
      some ((s.set i { s.buf i with lock := none }).goto p (.releasing i))
    else none
  | .relink p => match s.pc p with
    | .releasing i => some ((s.relink i).goto p .ready)
    | _ => none
  | .bpin i => some { s.set i { s.buf i with refcnt := (s.buf i).refcnt + 1 } with
      pins := update s.pins i (s.pins i + 1) }
  | .bunpin i =>
    if 0 < s.pins i then some { s.set i { s.buf i with refcnt := (s.buf i).refcnt - 1 } with
      pins := update s.pins i (s.pins i - 1) }
    else none

end Next

/-! ## The invariant -/

def Sys.held (s : Sys P) (i : BufId) : Nat := if (s.buf i).lock.isSome then 1 else 0

/-- The references of a buffer are counted: those of the processes on their way to it and from it, that
of the one that holds it, and the pins. -/
def Counted (s : Sys P) (i : BufId) : Prop :=
  ∃ n : Nat, Counts (Pc.Uses i) s.pc n ∧ (s.buf i).refcnt = .ofNat (n + s.held i + s.pins i)

structure Inv (s : Sys P) : Prop where
  list : ∃ l, s.links.Circular l ∧ ∀ i, i ∈ l
  uniq : ∀ i j, (s.buf i).dev ≠ 0 → (s.buf i).dev = (s.buf j).dev →
    (s.buf i).blockno = (s.buf j).blockno → i = j
  count : ∀ i, Counted s i

section Inv

variable {s t : Sys P} {p : P} {pc : Pc} {i j : BufId}

theorem Inv.uniq_set (h : Inv s) {b : Entry P} (hdev : b.dev = (s.buf i).dev)
    (hblockno : b.blockno = (s.buf i).blockno) (j k : BufId) :
    ((s.set i b).buf j).dev ≠ 0 → ((s.set i b).buf j).dev = ((s.set i b).buf k).dev →
    ((s.set i b).buf j).blockno = ((s.set i b).buf k).blockno → j = k := by
  have hd : ∀ j, ((s.set i b).buf j).dev = (s.buf j).dev := by
    intro j
    rw [Sys.set_buf]
    split
    · rename_i hj
      rw [hdev, hj]
    · rfl
  have hb : ∀ j, ((s.set i b).buf j).blockno = (s.buf j).blockno := by
    intro j
    rw [Sys.set_buf]
    split
    · rename_i hj
      rw [hblockno, hj]
    · rfl
  rw [hd, hd, hb, hb]
  exact h.uniq j k

theorem Inv.uniq_found (h : Inv s) {dev blockno : UInt32} {b : Entry P}
    (hfound : Found s dev blockno i b) (j k : BufId) :
    ((s.set i b).buf j).dev ≠ 0 → ((s.set i b).buf j).dev = ((s.set i b).buf k).dev →
    ((s.set i b).buf j).blockno = ((s.set i b).buf k).blockno → j = k := by
  cases hfound with
  | hit =>
    exact h.uniq_set (b := { s.buf i with refcnt := (s.buf i).refcnt + 1 }) rfl rfl j k
  | recycle hnew href =>
    rw [Sys.set_buf, Sys.set_buf]
    intro hj hdev hblockno
    split at hdev
    · rename_i hji
      rw [if_pos hji] at hblockno
      split at hdev
      · rename_i hki
        rw [hji, hki]
      · rename_i hki
        rw [if_neg hki] at hblockno
        exact absurd ⟨hdev.symm, hblockno.symm⟩ (hnew k)
    · rename_i hji
      rw [if_neg hji] at hblockno hj
      split at hdev
      · rename_i hki
        rw [if_pos hki] at hblockno
        exact absurd ⟨hdev, hblockno⟩ (hnew j)
      · rename_i hki
        rw [if_neg hki] at hblockno
        exact h.uniq j k hj hdev hblockno

theorem set_buf_of_ne (s : Sys P) (b : Entry P) : ∀ j ≠ i, (s.set i b).buf j = s.buf j :=
  fun j hj => by rw [Sys.set_buf, if_neg hj]

theorem Found.refcnt {dev blockno : UInt32} {b : Entry P} (h : Found s dev blockno i b) :
    b.refcnt = (s.buf i).refcnt + 1 ∧ b.lock = (s.buf i).lock := by
  cases h with
  | hit => exact ⟨rfl, rfl⟩
  | recycle _ href =>
    rw [href]
    exact ⟨rfl, rfl⟩

theorem Pc.not_uses_ready : ¬Pc.ready.Uses i := by simp [Uses]

theorem Pc.not_uses_waiting (h : j ≠ i) : ¬(Pc.waiting i).Uses j := by simp [Uses, h.symm]

theorem Pc.not_uses_releasing (h : j ≠ i) : ¬(Pc.releasing i).Uses j := by simp [Uses, h.symm]

theorem Inv.list_relink (h : Inv s) : ∃ l, (s.relink i).links.Circular l ∧ ∀ j, j ∈ l := by
  obtain ⟨l, hl, hall⟩ := h.list
  rw [Sys.relink]
  dsimp only
  split
  · refine ⟨i :: l.erase i, (hl.remove (hall i)).pushFront ?_, fun j => ?_⟩
    · exact fun hmem => (hl.nodup.mem_erase_iff.mp hmem).1 rfl
    · by_cases hj : j = i
      · exact hj ▸ List.mem_cons_self
      · exact List.mem_cons_of_mem i ((List.mem_erase_of_ne hj).mpr (hall j))
  · exact ⟨l, hl, hall⟩

theorem relink_buf (s : Sys P) (i : BufId) :
    (s.relink i).buf = (s.set i { s.buf i with refcnt := (s.buf i).refcnt - 1 }).buf := by
  rw [Sys.relink]
  dsimp only
  split <;> rfl

theorem relink_rest (s : Sys P) (i : BufId) : (s.relink i).pc = s.pc ∧ (s.relink i).pins = s.pins := by
  rw [Sys.relink]
  dsimp only
  split <;> exact ⟨rfl, rfl⟩

variable [DecidableEq P]

theorem Counted.frame (h : Counted s j) (hbuf : t.buf j = s.buf j) (hpins : t.pins j = s.pins j)
    (hpc : t.pc = update s.pc p pc) (hold : ¬(s.pc p).Uses j) (hnew : ¬pc.Uses j) :
    Counted t j := by
  obtain ⟨n, hn, href⟩ := h
  refine ⟨n, ?_, ?_⟩
  · rw [hpc]
    exact hn.stay (by simp [hold, hnew])
  · rw [Sys.held, hbuf, hpins]
    exact href

/-- A process comes to use the buffer: it takes a reference, or stops holding it. -/
theorem Counted.join (h : Counted s i) (hpc : t.pc = update s.pc p pc)
    (hold : ¬(s.pc p).Uses i) (hnew : pc.Uses i) (hpins : t.pins i = s.pins i)
    (href : (t.buf i).refcnt + .ofNat (s.held i) = (s.buf i).refcnt + .ofNat (t.held i) + 1) :
    Counted t i := by
  obtain ⟨n, hn, hs⟩ := h
  refine ⟨n + 1, ?_, ?_⟩
  · rw [hpc]
    exact hn.join hold hnew
  · rw [hs] at href
    rw [hpins]
    simp only [UInt32.ofNat_add] at href ⊢
    grind

/-- A process does not use the buffer any more: it gives its reference back, or starts to hold it. -/
theorem Counted.leave (h : Counted s i) (hpc : t.pc = update s.pc p pc)
    (hold : (s.pc p).Uses i) (hnew : ¬pc.Uses i) (hpins : t.pins i = s.pins i)
    (href : (t.buf i).refcnt + .ofNat (s.held i) + 1 = (s.buf i).refcnt + .ofNat (t.held i)) :
    Counted t i := by
  obtain ⟨n, hn, hs⟩ := h
  have hpos := hn.pos hold
  obtain ⟨m, rfl⟩ : ∃ m, n = m + 1 := ⟨n - 1, by omega⟩
  refine ⟨m, ?_, ?_⟩
  · rw [hpc]
    exact (hn.leave hold hnew).cast (by omega)
  · rw [hs] at href
    rw [hpins]
    simp only [UInt32.ofNat_add] at href ⊢
    grind

/-- A step of a process that uses no other buffer, and leaves the others alone. -/
theorem Inv.count_update (h : Inv s) (hpc : t.pc = update s.pc p pc)
    (hbuf : ∀ j ≠ i, t.buf j = s.buf j) (hpins : t.pins = s.pins)
    (hold : ∀ j ≠ i, ¬(s.pc p).Uses j) (hnew : ∀ j ≠ i, ¬pc.Uses j) (hi : Counted t i) (j : BufId) :
    Counted t j := by
  by_cases hj : j = i
  · exact hj ▸ hi
  · exact (h.count j).frame (hbuf j hj) (by rw [hpins]) hpc (hold j hj) (hnew j hj)

/-- **Every step keeps the list, the blocks and the counts.** -/
theorem Inv.next {a : Act P} (h : Inv s) (hnext : next s a = some t) : Inv t := by
  cases a with
  | bget p dev blockno =>
    rw [BufList.next, ite_none_right_eq_some] at hnext
    obtain ⟨⟨hpc, -⟩, hnext⟩ := hnext
    obtain ⟨l, hl, hall⟩ := h.list
    split at hnext
    · rename_i i t' hget
      cases hnext
      obtain ⟨b, hfound, rfl⟩ := Sys.found_of_bget hl hall hget
      refine ⟨⟨l, hl, hall⟩, h.uniq_found hfound, h.count_update (i := i) rfl (set_buf_of_ne s b) rfl
        (fun j _ => by rw [hpc]; exact Pc.not_uses_ready) (fun j hj => Pc.not_uses_waiting hj) ?_⟩
      refine (h.count i).join rfl (by rw [hpc]; exact Pc.not_uses_ready) (.inl rfl) rfl ?_
      obtain ⟨href, hlock⟩ := hfound.refcnt
      have hheld : ((s.set i b).goto p (.waiting i)).held i = s.held i := by
        simp [Sys.held, Sys.goto, hlock]
      have hbuf : (((s.set i b).goto p (.waiting i)).buf i).refcnt = (s.buf i).refcnt + 1 := by
        simp [Sys.goto, href]
      rw [hheld, hbuf]
      grind
    · exact absurd hnext (by simp)
  | acquiresleep p =>
    rw [BufList.next] at hnext
    split at hnext
    · rename_i i hpc
      rw [ite_none_right_eq_some, some_inj] at hnext
      obtain ⟨hfree, rfl⟩ := hnext
      refine ⟨h.list, h.uniq_set (b := { s.buf i with lock := some p }) rfl rfl,
        h.count_update (i := i) rfl (set_buf_of_ne s _) rfl
          (fun j hj => by rw [hpc]; exact Pc.not_uses_waiting hj) (fun j _ => Pc.not_uses_ready) ?_⟩
      refine (h.count i).leave rfl (by rw [hpc]; exact .inl rfl) Pc.not_uses_ready rfl ?_
      simp only [Sys.held, Sys.goto, Sys.set_buf, if_true, hfree, isSome_none,
        isSome_some]
      grind
    · exact absurd hnext (by simp)
  | bread p i =>
    rw [BufList.next, ite_none_right_eq_some, some_inj] at hnext
    obtain ⟨-, rfl⟩ := hnext
    refine ⟨h.list, h.uniq_set (b := { s.buf i with valid := true }) rfl rfl, fun j => ?_⟩
    obtain ⟨n, hn, href⟩ := h.count j
    refine ⟨n, hn, ?_⟩
    by_cases hj : j = i
    · subst hj
      simpa [Sys.held] using href
    · simpa [Sys.held, hj] using href
  | brelse p i =>
    rw [BufList.next, ite_none_right_eq_some, some_inj] at hnext
    obtain ⟨⟨hpc, hlock⟩, rfl⟩ := hnext
    refine ⟨h.list, h.uniq_set (b := { s.buf i with lock := none }) rfl rfl,
      h.count_update (i := i) rfl (set_buf_of_ne s _) rfl
        (fun j _ => by rw [hpc]; exact Pc.not_uses_ready) (fun j hj => Pc.not_uses_releasing hj) ?_⟩
    refine (h.count i).join rfl (by rw [hpc]; exact Pc.not_uses_ready) (.inr rfl) rfl ?_
    simp only [Sys.held, Sys.goto, Sys.set_buf, if_true, hlock, isSome_none,
      isSome_some]
    grind
  | relink p =>
    rw [BufList.next] at hnext
    split at hnext
    · rename_i i hpc
      cases hnext
      obtain ⟨hpc', hpins⟩ := relink_rest s i
      have hgoto : ((s.relink i).goto p .ready).pc = update s.pc p .ready := by
        simp only [Sys.goto, hpc']
      have hbuf := relink_buf s i
      refine ⟨h.list_relink, ?_, h.count_update (i := i) hgoto (fun j hj => ?_) hpins
        (fun j hj => by rw [hpc]; exact Pc.not_uses_releasing hj) (fun j _ => Pc.not_uses_ready) ?_⟩
      · change ∀ j k, ((s.relink i).buf j).dev ≠ 0 → ((s.relink i).buf j).dev = ((s.relink i).buf k).dev →
          ((s.relink i).buf j).blockno = ((s.relink i).buf k).blockno → j = k
        rw [hbuf]
        exact h.uniq_set (b := { s.buf i with refcnt := (s.buf i).refcnt - 1 }) rfl rfl
      · exact (congrFun hbuf j).trans (set_buf_of_ne s _ j hj)
      · refine (h.count i).leave hgoto (by rw [hpc]; exact .inr rfl) Pc.not_uses_ready
          (congrFun hpins i) ?_
        have hi : ((s.relink i).goto p .ready).buf i = { s.buf i with refcnt := (s.buf i).refcnt - 1 } := by
          refine (congrFun hbuf i).trans ?_
          rw [Sys.set_buf, if_pos rfl]
        rw [Sys.held, Sys.held, hi]
        dsimp only
        grind
    · exact absurd hnext (by simp)
  | bpin i =>
    cases hnext
    refine ⟨h.list, h.uniq_set (b := { s.buf i with refcnt := (s.buf i).refcnt + 1 }) rfl rfl,
      fun j => ?_⟩
    obtain ⟨n, hn, href⟩ := h.count j
    refine ⟨n, hn, ?_⟩
    by_cases hj : j = i
    · subst hj
      simp only [Sys.held, Sys.set_buf, if_true, update_self, UInt32.ofNat_add] at href ⊢
      grind
    · simpa [Sys.held, hj] using href
  | bunpin i =>
    rw [BufList.next, ite_none_right_eq_some, some_inj] at hnext
    obtain ⟨hpos, rfl⟩ := hnext
    refine ⟨h.list, h.uniq_set (b := { s.buf i with refcnt := (s.buf i).refcnt - 1 }) rfl rfl,
      fun j => ?_⟩
    obtain ⟨n, hn, href⟩ := h.count j
    refine ⟨n, hn, ?_⟩
    by_cases hj : j = i
    · subst hj
      obtain ⟨m, hm⟩ : ∃ m, s.pins j = m + 1 := ⟨s.pins j - 1, by omega⟩
      simp only [Sys.held, Sys.set_buf, if_true, update_self, UInt32.ofNat_add, hm,
        Nat.add_sub_cancel] at href ⊢
      grind
    · simpa [Sys.held, hj] using href

end Inv

theorem inv_init : Inv (Sys.init P) where
  list := by
    have hfold : ∀ (l l' : List BufId) (L : Links BufId), (l.reverse ++ l').Nodup → L.Circular l' →
        (l.foldl Links.pushFront L).Circular (l.reverse ++ l') := by
      intro l
      induction l with
      | nil => exact fun l' L _ hL => hL
      | cons i l ih =>
        intro l' L hnodup hL
        rw [List.reverse_cons, List.append_assoc, List.singleton_append] at hnodup ⊢
        rw [List.foldl_cons]
        exact ih _ _ hnodup (hL.pushFront (List.nodup_cons.mp (List.nodup_append.mp hnodup).2.1).1)
    refine ⟨(List.finRange nbuf).reverse, ?_, by simp⟩
    have := hfold (List.finRange nbuf) [] _ (by simpa using List.nodup_finRange nbuf)
      Links.circular_empty
    rwa [List.append_nil] at this
  uniq i j hdev := absurd rfl hdev
  count i := ⟨0, .zero fun p => Pc.not_uses_ready, rfl⟩

variable [DecidableEq P]

theorem key_kept {s t : Sys P} {a : Act P} {i : BufId} (h : Inv s) (hnext : next s a = some t)
    (href : (s.buf i).refcnt ≠ 0) :
    (t.buf i).dev = (s.buf i).dev ∧ (t.buf i).blockno = (s.buf i).blockno := by
  have hset : ∀ (j : BufId) (b : Entry P), b.dev = (s.buf j).dev → b.blockno = (s.buf j).blockno →
      ((s.set j b).buf i).dev = (s.buf i).dev ∧ ((s.set j b).buf i).blockno = (s.buf i).blockno := by
    intro j b hdev hblockno
    rw [Sys.set_buf]
    split
    · rename_i hij
      exact hij ▸ ⟨hdev, hblockno⟩
    · exact ⟨rfl, rfl⟩
  cases a with
  | bget p dev blockno =>
    rw [next, ite_none_right_eq_some] at hnext
    obtain ⟨-, hnext⟩ := hnext
    obtain ⟨l, hl, hall⟩ := h.list
    split at hnext
    · rename_i j t' hget
      cases hnext
      obtain ⟨b, hfound, rfl⟩ := Sys.found_of_bget hl hall hget
      cases hfound with
      | hit => exact hset j { s.buf j with refcnt := (s.buf j).refcnt + 1 } rfl rfl
      | recycle _ href' =>
        have hij : i ≠ j := fun hij => href (hij ▸ href')
        change ((s.set j _).buf i).dev = _ ∧ ((s.set j _).buf i).blockno = _
        rw [set_buf_of_ne s _ i hij]
        exact ⟨rfl, rfl⟩
    · exact absurd hnext (by simp)
  | acquiresleep p =>
    rw [next] at hnext
    split at hnext
    · rename_i j _
      rw [ite_none_right_eq_some, some_inj] at hnext
      obtain ⟨-, rfl⟩ := hnext
      exact hset j { s.buf j with lock := some p } rfl rfl
    · exact absurd hnext (by simp)
  | bread p j =>
    rw [next, ite_none_right_eq_some, some_inj] at hnext
    obtain ⟨-, rfl⟩ := hnext
    exact hset j { s.buf j with valid := true } rfl rfl
  | brelse p j =>
    rw [next, ite_none_right_eq_some, some_inj] at hnext
    obtain ⟨-, rfl⟩ := hnext
    exact hset j { s.buf j with lock := none } rfl rfl
  | relink p =>
    rw [next] at hnext
    split at hnext
    · rename_i j _
      cases hnext
      change ((s.relink j).buf i).dev = _ ∧ ((s.relink j).buf i).blockno = _
      rw [relink_buf]
      exact hset j { s.buf j with refcnt := (s.buf j).refcnt - 1 } rfl rfl
    · exact absurd hnext (by simp)
  | bpin j =>
    cases hnext
    exact hset j { s.buf j with refcnt := (s.buf j).refcnt + 1 } rfl rfl
  | bunpin j =>
    rw [next, ite_none_right_eq_some, some_inj] at hnext
    obtain ⟨-, rfl⟩ := hnext
    exact hset j { s.buf j with refcnt := (s.buf j).refcnt - 1 } rfl rfl

/-- **The representation of the buffer cache.**  The links form one list of all buffers, no block has
two buffers, the references are counted modulo 2³², and a buffer that is referenced keeps its
block. -/
theorem bcache_rep {s : Sys P} (h : Reachable next (Sys.init P) s) :
    (∃ l, s.links.Circular l ∧ l.Perm (List.finRange nbuf)) ∧
    (∀ i j, (s.buf i).dev ≠ 0 → (s.buf i).dev = (s.buf j).dev →
      (s.buf i).blockno = (s.buf j).blockno → i = j) ∧
    (∀ i, ∃ n : Nat, Counts (Pc.Uses i) s.pc n ∧
      (s.buf i).refcnt.toNat = (n + s.held i + s.pins i) % 2 ^ 32) ∧
    ∀ a t i, next s a = some t → (s.buf i).refcnt ≠ 0 →
      (t.buf i).dev = (s.buf i).dev ∧ (t.buf i).blockno = (s.buf i).blockno := by
  have hinv : Inv s := h.induction inv_init fun s a t hs hnext => hs.next hnext
  obtain ⟨l, hl, hall⟩ := hinv.list
  refine ⟨⟨l, hl, ?_⟩, hinv.uniq, fun i => ?_, fun a t i hnext href => key_kept hinv hnext href⟩
  · exact (List.perm_ext_iff_of_nodup hl.nodup (List.nodup_finRange nbuf)).mpr
      fun i => by simp [hall i]
  · obtain ⟨n, hn, href⟩ := hinv.count i
    exact ⟨n, hn, by rw [href, UInt32.toNat_ofNat']⟩

/-- A process reads block 5, and another waits for it. -/
def twoReaders : List (Act Bool) :=
  [.bget false 1 5, .acquiresleep false, .bread false 0, .bget true 1 5]

theorem bcache_rep_twoReaders : ∃ s, run next (Sys.init Bool) twoReaders = some s ∧
    s.pc true = .waiting 0 ∧ (s.buf 0).refcnt = 2 ∧
    ∃ l, s.links.Circular l ∧ l.Perm (List.finRange nbuf) := by
  have heval : ((run next (Sys.init Bool) twoReaders).map fun s => (s.pc true, (s.buf 0).refcnt)) =
      some (.waiting 0, 2) := by decide +kernel
  obtain ⟨s, hrun, hs⟩ := Option.map_eq_some_iff.mp heval
  obtain ⟨hpc, href⟩ := Prod.mk.inj hs
  exact ⟨s, hrun, hpc, href, (bcache_rep ⟨twoReaders, hrun⟩).1⟩

theorem run_bpin (s : Sys P) (i : BufId) (k : Nat) :
    ∃ t, run next s (List.replicate k (.bpin i)) = some t ∧ t.pc = s.pc ∧
      (t.buf i).lock = (s.buf i).lock ∧ (t.buf i).refcnt = (s.buf i).refcnt + .ofNat k ∧
      t.pins i = s.pins i + k := by
  induction k generalizing s with
  | zero => exact ⟨s, rfl, rfl, rfl, (UInt32.add_zero _).symm, rfl⟩
  | succ k ih =>
    obtain ⟨m, hm⟩ : ∃ m, next s (.bpin i) = some m := ⟨_, rfl⟩
    obtain ⟨t, hrun, hpc, hlock, href, hpins⟩ := ih m
    refine ⟨t, run_cons_eq_some.mpr ⟨m, hm, hrun⟩, ?_⟩
    cases hm
    simp only [Sys.set_buf, if_true, update_self] at hlock href hpins
    refine ⟨hpc, hlock, ?_, by omega⟩
    rw [href, UInt32.ofNat_add]
    grind

/-- A buffer that is pinned 2³² times has lost the count. -/
theorem not_counted : ∃ (s : Sys Bool) (n : Nat), Reachable next (Sys.init Bool) s ∧
    Counts (Pc.Uses 0) s.pc n ∧ (s.buf 0).refcnt.toNat ≠ n + s.held 0 + s.pins 0 := by
  have heval : ((run next (Sys.init Bool) [.bget false 1 5, .acquiresleep false]).map fun s =>
      ((s.buf 0).lock, (s.buf 0).refcnt, s.pins 0, s.pc false, s.pc true)) =
      some (some false, 1, 0, .ready, .ready) := by decide +kernel
  obtain ⟨m, hm, hs⟩ := Option.map_eq_some_iff.mp heval
  simp only [Prod.mk.injEq] at hs
  obtain ⟨hlock, href, hpins, hpc₀, hpc₁⟩ := hs
  obtain ⟨t, ht, htpc, htlock, htref, htpins⟩ := run_bpin m 0 (2 ^ 32)
  refine ⟨t, 0, ⟨_, run_append_eq_some.mpr ⟨m, hm, ht⟩⟩, .zero fun p => ?_, ?_⟩
  · rw [htpc]
    cases p with
    | false => rw [hpc₀]; exact Pc.not_uses_ready
    | true => rw [hpc₁]; exact Pc.not_uses_ready
  · rw [htref, htpins, Sys.held, htlock, hlock, href, hpins]
    decide

end BufList

end Xv6
