import Xv6.Bio.List
import Xv6.Bio.Rep

/-!
# The cache with links and the cache with a list

The log and the file system are about the cache of `Xv6.Bio.Cache`, which has a list of buffers.  Over
any run, it is what the cache with links and many processes does (`bcache_refines`).
-/

namespace Xv6.BufList

open Machine
open Option (ite_none_right_eq_some some_inj)

/-- What is done to the cache, under `bcache.lock` or the lock of the buffer. -/
inductive Event where
  | bget (dev blockno : UInt32) (i : BufId)
  | bread (i : BufId)
  | brelse (i : BufId)
  | bpin (i : BufId)
  | bunpin (i : BufId)

/-- A step of the cache with a list; `bget` has to find the given buffer. -/
def listNext (c : Bcache) : Event → Option Bcache
  | .bget dev blockno i => match c.bget dev.toNat blockno.toNat with
    | some (j, d) => if i = j then some d else none
    | none => none
  | .bread i => some (c.set i { c.buf i with valid := true })
  | .brelse i => some (c.brelse i)
  | .bpin i => some (c.bpin i)
  | .bunpin i => some (c.bunpin i)

variable {P : Type}

def event (s : Sys P) (a : Act P) (t : Sys P) : Option Event :=
  match a with
  | .bget p dev blockno => match t.pc p with
    | .waiting i => some (.bget dev blockno i)
    | _ => none
  | .bread _ i => some (.bread i)
  | .relink p => match s.pc p with
    | .releasing i => some (.brelse i)
    | _ => none
  | .bpin i => some (.bpin i)
  | .bunpin i => some (.bunpin i)
  | .acquiresleep _ | .brelse .. => none

/-- A step, unless a counter is about to wrap. -/
def linksNext [DecidableEq P] (s : Sys P) (a : Act P) : Option (Sys P) :=
  if ∀ i, (s.buf i).refcnt.toNat + 1 < 2 ^ 32 then next s a else none

/-- The buffer, but for its lock and its data. -/
structure Same (b : Entry P) (x : Buf) : Prop where
  dev : x.dev = b.dev.toNat
  blockno : x.blockno = b.blockno.toNat
  valid : x.valid = b.valid
  refcnt : x.refcnt = b.refcnt.toNat

/-- The cache has the same buffers, with the list that the links form. -/
structure Refines (s : Sys P) (c : Bcache) : Prop where
  list : s.links.Circular c.lru
  all : ∀ i, i ∈ c.lru
  buf : ∀ i, Same (s.buf i) (c.buf i)

instance (L : Links BufId) : DecidableRel L.Joined := fun _ _ => inferInstanceAs (Decidable (_ ∧ _))

theorem circular_init : (Sys.init Unit).links.Circular Bcache.binit.lru :=
  ⟨by decide, by decide +kernel⟩

theorem refines_init : Refines (Sys.init P) Bcache.binit where
  list := circular_init
  all i := by simp [Bcache.binit]
  buf i := ⟨rfl, rfl, rfl, rfl⟩

namespace Refines

variable {s t : Sys P} {c : Bcache} {i : BufId}

theorem set (h : Refines s c) {b : Entry P} {x : Buf} (hb : Same b x) :
    Refines (s.set i b) (c.set i x) := by
  refine ⟨h.list, h.all, fun j => ?_⟩
  have hbuf : (c.set i x).buf j = if j = i then x else c.buf j := Function.update_apply ..
  rw [Sys.set_buf, hbuf]
  split
  · exact hb
  · exact h.buf j

theorem congr (h : Refines s c) (hlinks : t.links = s.links) (hbuf : t.buf = s.buf) : Refines t c :=
  ⟨hlinks ▸ h.list, h.all, hbuf ▸ h.buf⟩

theorem lock (h : Refines s c) (i : BufId) (l : Option P) :
    Refines (s.set i { s.buf i with lock := l }) c := by
  obtain ⟨hdev, hblockno, hvalid, hrefcnt⟩ := h.buf i
  have := h.set (i := i) (b := { s.buf i with lock := l }) ⟨hdev, hblockno, hvalid, hrefcnt⟩
  rwa [Bcache.set, Function.update_eq_self] at this

theorem set_refcnt {m : UInt32} {n : Nat} (h : Refines s c) (hn : n = m.toNat) :
    Refines (s.set i { s.buf i with refcnt := m }) (c.set i { c.buf i with refcnt := n }) :=
  h.set ⟨(h.buf i).dev, (h.buf i).blockno, (h.buf i).valid, hn⟩

theorem inc (h : Refines s c) (hlt : (s.buf i).refcnt.toNat + 1 < 2 ^ 32) :
    (c.buf i).refcnt + 1 = ((s.buf i).refcnt + 1).toNat := by
  rw [(h.buf i).refcnt, UInt32.toNat_add]
  exact (Nat.mod_eq_of_lt hlt).symm

theorem dec (h : Refines s c) (i : BufId) :
    Bcache.dec (c.buf i).refcnt = ((s.buf i).refcnt - 1).toNat := by
  rw [(h.buf i).refcnt, Bcache.dec, UInt32.toNat_sub]
  have := (s.buf i).refcnt.toNat_lt
  split
  · rename_i h0
    rw [h0]
    rfl
  · change _ = (2 ^ 32 - 1 + (s.buf i).refcnt.toNat) % 2 ^ 32
    omega

theorem refcnt_eq_zero (h : Refines s c) (i : BufId) :
    (c.buf i).refcnt = 0 ↔ (s.buf i).refcnt = 0 := by
  rw [(h.buf i).refcnt, ← UInt32.toNat_inj, UInt32.toNat_zero]

/-- **`bget` on the links is `bget` on the list**, as long as the counter does not wrap. -/
theorem bget (h : Refines s c) (hlt : ∀ i, (s.buf i).refcnt.toNat + 1 < 2 ^ 32) {dev blockno : UInt32}
    (hs : s.bget dev blockno = some (i, t)) :
    ∃ d, c.bget dev.toNat blockno.toNat = some (i, d) ∧ Refines t d := by
  have hkey : (fun i => decide ((c.buf i).dev = dev.toNat ∧ (c.buf i).blockno = blockno.toNat)) =
      fun i => decide ((s.buf i).dev = dev ∧ (s.buf i).blockno = blockno) := by
    funext i
    simp only [(h.buf i).dev, (h.buf i).blockno, UInt32.toNat_inj]
  have hfree : (fun i => decide ((c.buf i).refcnt = 0)) = fun i => decide ((s.buf i).refcnt = 0) := by
    simp only [h.refcnt_eq_zero]
  rw [Bcache.bget, hkey, hfree]
  rw [Sys.bget_eq h.list] at hs
  revert hs
  cases c.lru.find? fun i => decide ((s.buf i).dev = dev ∧ (s.buf i).blockno = blockno) with
  | some j =>
    rintro ⟨⟩
    exact ⟨_, rfl, h.set_refcnt (h.inc (hlt i))⟩
  | none =>
    cases c.lru.reverse.find? fun i => decide ((s.buf i).refcnt = 0) with
    | some j =>
      rintro ⟨⟩
      exact ⟨_, rfl, h.set ⟨rfl, rfl, rfl, rfl⟩⟩
    | none => exact fun hs => absurd hs (by simp)

theorem relink (h : Refines s c) (i : BufId) : Refines (s.relink i) (c.brelse i) := by
  have hset : Refines (s.set i { s.buf i with refcnt := (s.buf i).refcnt - 1 })
      (c.set i { c.buf i with refcnt := Bcache.dec (c.buf i).refcnt }) := h.set_refcnt (h.dec i)
  have hall := Bcache.mem_brelse_lru h.all i
  rw [Bcache.brelse] at hall ⊢
  rw [Sys.relink]
  dsimp only at hall ⊢
  simp only [hset.refcnt_eq_zero] at hall ⊢
  split at hall
  · rename_i h0
    rw [if_pos h0, if_pos h0]
    refine ⟨(hset.list.remove (h.all i)).pushFront fun herase => ?_, hall, hset.buf⟩
    exact (hset.list.nodup.mem_erase_iff.mp herase).1 rfl
  · rename_i h0
    rw [if_neg h0, if_neg h0]
    exact hset

variable [DecidableEq P]

theorem next {a : Act P} (h : Refines s c) (hnext : linksNext s a = some t) :
    ∃ d, run listNext c (event s a t).toList = some d ∧ Refines t d := by
  obtain ⟨hsmall, hnext⟩ := ite_none_right_eq_some.mp hnext
  cases a with
  | bget p dev blockno =>
    obtain ⟨-, hnext⟩ := ite_none_right_eq_some.mp hnext
    cases hs : s.bget dev blockno with
    | none => simp [hs] at hnext
    | some x =>
      obtain ⟨d, hc, hd⟩ := h.bget hsmall hs
      simp only [hs, some_inj] at hnext
      subst hnext
      refine ⟨d, ?_, hd.congr rfl rfl⟩
      simp [event, Sys.goto, run, listNext, hc]
  | acquiresleep p =>
    simp only [BufList.next] at hnext
    split at hnext
    · obtain ⟨-, hnext⟩ := ite_none_right_eq_some.mp hnext
      cases hnext
      exact ⟨c, rfl, (h.lock ..).congr rfl rfl⟩
    · cases hnext
  | bread p i =>
    obtain ⟨-, hnext⟩ := ite_none_right_eq_some.mp hnext
    cases hnext
    exact ⟨_, rfl, h.set ⟨(h.buf i).dev, (h.buf i).blockno, rfl, (h.buf i).refcnt⟩⟩
  | brelse p i =>
    obtain ⟨-, hnext⟩ := ite_none_right_eq_some.mp hnext
    cases hnext
    exact ⟨c, rfl, (h.lock ..).congr rfl rfl⟩
  | relink p =>
    cases hpc : s.pc p with
    | releasing i =>
      simp only [BufList.next, hpc, some_inj] at hnext
      subst hnext
      refine ⟨c.brelse i, ?_, (h.relink i).congr rfl rfl⟩
      simp [event, hpc, run, listNext]
    | ready | waiting => simp [BufList.next, hpc] at hnext
  | bpin i =>
    cases hnext
    exact ⟨_, rfl, (h.set_refcnt (h.inc (hsmall i))).congr rfl rfl⟩
  | bunpin i =>
    obtain ⟨-, hnext⟩ := ite_none_right_eq_some.mp hnext
    cases hnext
    exact ⟨_, rfl, (h.set_refcnt (h.dec i)).congr rfl rfl⟩

end Refines

/-- **The cache with links is the cache with a list.**  Whatever the processes do, as long as no
counter wraps, the cache with a list does the same and finds the same buffers. -/
theorem bcache_refines [DecidableEq P] {s : Sys P} {as : List (Act P)}
    (hrun : run linksNext (Sys.init P) as = some s) :
    ∃ c, run listNext Bcache.binit (trace linksNext event (Sys.init P) as) = some c ∧ Refines s c :=
  run_trace (fun _ _ _ _ h hnext => h.next hnext) hrun refines_init

theorem bcache_refines_twoReaders : ∃ s c, run linksNext (Sys.init Bool) twoReaders = some s ∧
    Refines s c := by
  have hsome : (run linksNext (Sys.init Bool) twoReaders).isSome := by decide +kernel
  obtain ⟨s, hrun⟩ := Option.isSome_iff_exists.mp hsome
  obtain ⟨c, -, hc⟩ := bcache_refines hrun
  exact ⟨s, c, hrun, hc⟩

end Xv6.BufList
