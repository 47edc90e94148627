import Xv6.Lib.Count
import Xv6.Lib.Machine
import Xv6.Log.Crash

/-!
# The cache and the log are transparent

Any number of processes use the disk at once, in calls enclosed in `begin_op` and `end_op`.  What they
read and store are the reads and writes of a plain array of blocks (`refines_array`).

Each step is one critical section.  A commit runs while no call is outstanding and none is admitted,
so nobody else can take a step that touches the cache, the log or the disk, and it is one step here.
-/

namespace Xv6.Transparent

open Function (update update_of_ne update_self update_eq_self)
open Machine Prog

inductive Pc where
  | idle
  | run
  /-- In `bget` of the block: it has a reference to the buffer and waits for its lock. -/
  | locking (i : BufId) (b : Nat)
  | filling (i : BufId) (b : Nat)
  | dropping (i : BufId)
  | committing
  deriving DecidableEq, Repr

def Pc.InOp (pc : Pc) : Prop := pc ≠ .idle ∧ pc ≠ .committing

instance : DecidablePred Pc.InOp := fun _ => inferInstanceAs (Decidable (_ ∧ _))

/-- The buffer to which the process has a reference without holding its lock. -/
def Pc.wants : Pc → Option BufId
  | .locking i _ => some i
  | .dropping i => some i
  | _ => none

structure Sys where
  kern : Kern
  proc : Nat → Pc
  /-- The buffers that their holders have changed and not logged yet. -/
  dirty : BufId → Bool
  stop : Option Stop

inductive Act where
  | beginOp (p : Nat)
  | bget (p b : Nat)
  | acquiresleep (p : Nat)
  | bread (p : Nat)
  /-- The process changes the contents of a buffer that it holds. -/
  | modify (p : Nat) (i : BufId) (d : Block)
  | logWrite (p : Nat) (i : BufId)
  | releasesleep (p : Nat) (i : BufId)
  | brelse (p : Nat)
  | endOp (p : Nat)
  | commit (p : Nat)

namespace Sys

abbrev buf (s : Sys) (i : BufId) : Buf := s.kern.bcache.buf i

def goto (s : Sys) (p : Nat) (pc : Pc) : Sys := { s with proc := update s.proc p pc }

def setCache (s : Sys) (c : Bcache) : Sys := { s with kern := { s.kern with bcache := c } }

def setBuf (s : Sys) (i : BufId) (x : Buf) : Sys := s.setCache (s.kern.bcache.set i x)

def setLog (s : Sys) (lg : Log) : Sys := { s with kern := { s.kern with log := lg } }

def halt (s : Sys) (e : Stop) : Sys := { s with stop := some e }

/-- After a boot that found nothing to recover, with the given disk. -/
def init (sb : Superblock) (dev : Nat) (disk : Nat → Block) : Sys where
  kern :=
    { bcache := .binit
      log := .init sb.logstart sb.nlog dev
      disk := disk
      writes := 0
      left := none }
  proc := fun _ => .idle
  dirty := fun _ => false
  stop := none

end Sys

/-- One step.  A step that would have to wait is not enabled.  A process that holds a buffer may
change it only if its block is outside the log area, and does not release it before it has logged
the change. -/
def next (s : Sys) (a : Act) : Option Sys :=
  if s.stop ≠ none then none
  else match a with
  | .beginOp p =>
    match s.proc p, s.kern.log.beginOp with
    | .idle, some lg => some ((s.setLog lg).goto p .run)
    | _, _ => none
  | .bget p b =>
    if s.proc p = .run ∧ b < 2 ^ 32 then
      match s.kern.bcache.bget s.kern.log.dev b with
      | some (i, c) => some ((s.setCache c).goto p (.locking i b))
      | none => some (s.halt (.panic .bgetNoBuffers))
    else none
  | .acquiresleep p =>
    match s.proc p with
    | .locking i b =>
      if (s.buf i).lock = none then
        some ((s.setBuf i { s.buf i with lock := some p }).goto p (.filling i b))
      else none
    | _ => none
  | .bread p =>
    match s.proc p with
    | .filling i _ =>
      let x := if (s.buf i).valid = false then
        { s.buf i with data := s.kern.disk (s.buf i).blockno, valid := true } else s.buf i
      some ((s.setBuf i x).goto p .run)
    | _ => none
  | .modify p i d =>
    if s.proc p = .run ∧ (s.buf i).lock = some p ∧ s.kern.log.sb.Home (s.buf i).blockno then
      some { s.setBuf i { s.buf i with data := d } with dirty := update s.dirty i true }
    else none
  | .logWrite p i =>
    if s.proc p = .run ∧ (s.buf i).lock = some p ∧ s.kern.log.sb.Home (s.buf i).blockno then
      match s.kern.log.logWrite (s.buf i).blockno with
      | .ok (lg, pin) =>
        some { s with
          kern := { s.kern with
            bcache := if pin then s.kern.bcache.bpin i else s.kern.bcache
            log := lg }
          dirty := update s.dirty i false }
      | .error e => some (s.halt (.panic e))
    else none
  | .releasesleep p i =>
    if s.proc p = .run ∧ (s.buf i).lock = some p ∧ s.dirty i = false then
      some ((s.setBuf i { s.buf i with lock := none }).goto p (.dropping i))
    else none
  | .brelse p =>
    match s.proc p with
    | .dropping i => some ((s.setCache (s.kern.bcache.brelse i)).goto p .run)
    | _ => none
  | .endOp p =>
    if s.proc p = .run ∧ ∀ i, (s.buf i).lock ≠ some p then
      match s.kern.log.endOp with
      | .ok (lg, true) => some ((s.setLog lg).goto p .committing)
      | .ok (lg, false) => some ((s.setLog lg).goto p .idle)
      | .error e => some (s.halt (.panic e))
    else none
  | .commit p =>
    match s.proc p, Xv6.commit p s.kern with
    | .committing, .ok _ k =>
      some ({ s with kern := { k with log := { k.log with committing := false } } }.goto p .idle)
    | .committing, .error e k => some ({ s with kern := k }.halt e)
    | _, _ => none

/-! ## The plain array -/

inductive Event where
  | read (b : Nat) (d : Block)
  | write (b : Nat) (d : Block)

/-- A plain array of blocks: a read returns what the last write to the block stored. -/
def arrayNext (x : Nat → Block) : Event → Option (Nat → Block)
  | .read b d => if x b = d then some x else none
  | .write b d => some (update x b d)

/-- The event of a step: a `bread` returns when the step `bread` is taken, and a `log_write` that
does not panic stores what the buffer contains.  Reads of the log area are not looked at. -/
def event (s : Sys) (a : Act) (t : Sys) : Option Event :=
  match a with
  | .bread p =>
    match s.proc p with
    | .filling i b =>
      if s.kern.log.sb.Home b then some (.read b (t.buf i).data) else none
    | _ => none
  | .logWrite _ i =>
    if t.stop = none then some (.write (s.buf i).blockno (s.buf i).data) else none
  | _ => none

/-! ## The invariant -/

structure Book (lg : Log) (proc : Nat → Pc) : Prop where
  outstanding : Counts Pc.InOp proc lg.outstanding
  committing : ∀ p, proc p = .committing → lg.committing = true
  one : ∀ p q, proc p = .committing → proc q = .committing → p = q
  closed : lg.committing = true → lg.outstanding = 0

/-- The buffer `x` at place `i` and the processes that use it. -/
structure BufOk (dev : Nat) (lh : List Nat) (proc : Nat → Pc) (i : BufId) (x : Buf)
    (dirty : Bool) : Prop where
  /-- The references are the pin of the log, the one of the process with the lock and those of the
  processes that want it or are giving it up. -/
  ref : Counts (fun pc => pc.wants = some i) proc ((x.refcnt : Int) -
    (if x.dev = dev ∧ x.blockno ∈ lh then 1 else 0) - if x.lock = none then 0 else 1)
  /-- The lock is held inside a transaction, by a process that has the contents or is reading
  them. -/
  lock : ∀ p, x.lock = some p →
    (proc p).InOp ∧ x.dev = dev ∧ (x.valid = true ∨ ∃ b, proc p = .filling i b)
  small : x.lock ≠ none → x.blockno < 2 ^ 32
  /-- A process that waits for the lock waits for the right buffer. -/
  locking : ∀ p b, proc p = .locking i b → x.dev = dev ∧ x.blockno = b ∧ b < 2 ^ 32
  /-- So does a process that reads the contents, and it has the lock. -/
  filling : ∀ p b, proc p = .filling i b →
    x.dev = dev ∧ x.blockno = b ∧ x.lock = some p ∧ dirty = false
  dirty : dirty = true → x.lock ≠ none

/-- Cache and disk represent `cont`, and the array that the processes see is `spec`. -/
structure Data (sb : Superblock) (dev : Nat) (lh : List Nat) (c : Bcache) (disk : Nat → Block)
    (dirty : BufId → Bool) (cont spec : Nat → Block) : Prop where
  rep : c.Rep dev disk cont
  /-- It is the one that the processes see, but for changes that have not been logged. -/
  spec : ∀ b, sb.Home b → (∃ i, c.Cached dev b i ∧ dirty i = true) ∨ cont b = spec b
  /-- The disk is behind at blocks that are logged or about to be. -/
  behind : ∀ b, disk b ≠ cont b → b ∈ lh ∨ ∃ i, c.Cached dev b i ∧ dirty i = true
  pinned : ∀ b ∈ lh, ∃ i, c.Cached dev b i

structure Inv (sb : Superblock) (dev : Nat) (s : Sys) (cont spec : Nat → Block) : Prop where
  book : Book s.kern.log s.proc
  bufs : ∀ i, BufOk dev s.kern.log.lh s.proc i (s.buf i) (s.dirty i)
  data : Data sb dev s.kern.log.lh s.kern.bcache s.kern.disk s.dirty cont spec
  tx : s.kern.log.Tx
  sb_eq : s.kern.log.sb = sb
  dev_eq : s.kern.log.dev = dev
  clean : headN (s.kern.disk sb.logstart) = 0
  left : s.kern.left = none

section Frame

variable {sb : Superblock} {dev p b : Nat} {lh lh' : List Nat} {proc : Nat → Pc} {i j : BufId}
  {x x' : Buf} {d d' : Bool} {pc : Pc} {lg lg' : Log} {c c' : Bcache} {disk cont spec : Nat → Block}
  {dirty : BufId → Bool}

theorem BufOk.step (h : BufOk dev lh proc i x d) (hdev : x'.dev = x.dev)
    (hblock : x'.blockno = x.blockno)
    (href : Counts (fun pc => pc.wants = some i) (update proc p pc) ((x'.refcnt : Int) -
      (if x.dev = dev ∧ x.blockno ∈ lh' then 1 else 0) - if x'.lock = none then 0 else 1))
    (hmine : x'.lock = some p →
      pc.InOp ∧ x.dev = dev ∧ (x'.valid = true ∨ ∃ b, pc = .filling i b))
    (hlocking : ∀ b, pc = .locking i b → x.dev = dev ∧ x.blockno = b ∧ b < 2 ^ 32)
    (hfilling : ∀ b, pc = .filling i b →
      x.dev = dev ∧ x.blockno = b ∧ x'.lock = some p ∧ d' = false)
    (hothers : ∀ q, q ≠ p → (x'.lock = some q ↔ x.lock = some q))
    (hvalid : x.valid = true → x'.valid = true)
    (hd : ∀ q, q ≠ p → x.lock = some q → d' = d) (hdirty : d' = true → x'.lock ≠ none)
    (hsmall : x'.lock ≠ none → x.blockno < 2 ^ 32) :
    BufOk dev lh' (update proc p pc) i x' d' where
  ref := by rwa [hdev, hblock]
  lock q hq := by
    rw [hdev]
    by_cases hqp : q = p
    · subst hqp
      rw [update_self]
      exact hmine hq
    · rw [update_of_ne hqp]
      obtain ⟨hin, hdev, hv⟩ := h.lock q ((hothers q hqp).mp hq)
      exact ⟨hin, hdev, hv.imp_left hvalid⟩
  locking q b hq := by
    rw [hdev, hblock]
    by_cases hqp : q = p
    · subst hqp
      rw [update_self] at hq
      exact hlocking b hq
    · rw [update_of_ne hqp] at hq
      exact h.locking q b hq
  filling q b hq := by
    rw [hdev, hblock]
    by_cases hqp : q = p
    · subst hqp
      rw [update_self] at hq
      exact hfilling b hq
    · rw [update_of_ne hqp] at hq
      obtain ⟨h1, h2, hl, h3⟩ := h.filling q b hq
      exact ⟨h1, h2, (hothers q hqp).mpr hl, (hd q hqp hl).trans h3⟩
  dirty := hdirty
  small := hblock ▸ hsmall

theorem BufOk.frame (h : BufOk dev lh proc i x d)
    (hlh : x.dev = dev → (x.blockno ∈ lh' ↔ x.blockno ∈ lh))
    (hwants : pc.wants = some i ↔ (proc p).wants = some i)
    (hlocking : ∀ b, pc ≠ .locking i b) (hfilling : ∀ b, pc ≠ .filling i b)
    (hlock : x.lock = some p → pc.InOp ∧ ∀ b, proc p ≠ .filling i b) :
    BufOk dev lh' (update proc p pc) i x d := by
  refine h.step rfl rfl ?_ (fun hl => ?_) (fun b hb => absurd hb (hlocking b))
    (fun b hb => absurd hb (hfilling b)) (fun _ _ => Iff.rfl) id (fun _ _ _ => rfl) h.dirty h.small
  · simp only [and_congr_right hlh]
    exact h.ref.stay hwants
  · obtain ⟨-, hdev, hv⟩ := h.lock p hl
    obtain ⟨hin, hnf⟩ := hlock hl
    exact ⟨hin, hdev, .inl (hv.resolve_right fun ⟨b, hb⟩ => hnf b hb)⟩

theorem Data.move (h : Data sb dev lh c disk dirty cont spec) (hrep : c'.Rep dev disk cont)
    (hdirty : ∀ i b, dirty i = true → c.Cached dev b i → c'.Cached dev b i)
    (hpinned : ∀ b ∈ lh, ∃ i, c'.Cached dev b i) : Data sb dev lh c' disk dirty cont spec where
  rep := hrep
  spec b hb := (h.spec b hb).imp_left fun ⟨i, hi, hd⟩ => ⟨i, hdirty i b hd hi, hd⟩
  behind b hb := (h.behind b hb).imp_right fun ⟨i, hi, hd⟩ => ⟨i, hdirty i b hd hi, hd⟩
  pinned := hpinned

theorem cached_set (hdev : x.dev = (c.buf i).dev) (hblock : x.blockno = (c.buf i).blockno)
    (h : c.Cached dev b j) : (c.set i x).Cached dev b j :=
  ⟨(Bcache.set_buf_dev c i j hdev).trans h.1, (Bcache.set_buf_blockno c i j hblock).trans h.2⟩

theorem cached_set_of_ne (hj : j ≠ i) (h : c.Cached dev b j) : (c.set i x).Cached dev b j := by
  rwa [Bcache.Cached, Bcache.set_buf_of_ne _ _ hj]

theorem Data.set (h : Data sb dev lh c disk dirty cont spec)
    (hrep : (c.set i x).Rep dev disk cont) (hdev : x.dev = (c.buf i).dev)
    (hblock : x.blockno = (c.buf i).blockno) :
    Data sb dev lh (c.set i x) disk dirty cont spec :=
  h.move hrep (fun _ _ _ => cached_set hdev hblock)
    fun b hb => (h.pinned b hb).imp fun _ => cached_set hdev hblock

theorem BufOk.unused (h : BufOk dev lh proc i x d) (href : x.refcnt = 0) :
    ¬(x.dev = dev ∧ x.blockno ∈ lh) ∧ x.lock = none ∧ ∀ p, (proc p).wants ≠ some i := by
  have hcount := h.ref
  have hnonneg := h.ref.nonneg
  rw [href] at hcount hnonneg
  have hpin : ¬(x.dev = dev ∧ x.blockno ∈ lh) := by
    intro hp
    rw [if_pos hp] at hnonneg
    split at hnonneg <;> omega
  have hlock : x.lock = none := by
    by_contra hl
    rw [if_neg hl, if_neg hpin] at hnonneg
    omega
  rw [if_neg hpin, if_pos hlock] at hcount
  exact ⟨hpin, hlock, hcount.not_of_zero⟩

theorem BufOk.recycle (h : BufOk dev lh proc i x d) (href : x.refcnt = 0) (hp : proc p = .run)
    (hbl : b ∉ lh) (hb : b < 2 ^ 32) :
    BufOk dev lh (update proc p (.locking i b)) i
      { x with dev, blockno := b, valid := false, refcnt := 1 } d := by
  obtain ⟨hpin, hlock, hwant⟩ := h.unused href
  have hother : ∀ q, q ≠ p → update proc p (.locking i b) q = proc q :=
    fun q hq => update_of_ne hq ..
  refine ⟨?_, fun q hq => ?_, fun hl => absurd hlock hl, fun q b' hq => ⟨rfl, ?_⟩, fun q b' hq => ?_,
    h.dirty⟩
  · refine (h.ref.join (by simp [hp, Pc.wants]) rfl).cast ?_
    simp [href, hlock, hbl, hpin]
  · exact absurd (hlock.symm.trans hq) (by simp)
  · by_cases hqp : q = p
    · rw [hqp, update_self] at hq
      obtain rfl : b = b' := by simpa using hq
      exact ⟨rfl, hb⟩
    · rw [hother q hqp] at hq
      exact absurd (by rw [hq, Pc.wants]) (hwant q)
  · by_cases hqp : q = p
    · rw [hqp, update_self] at hq
      exact absurd hq (by simp)
    · rw [hother q hqp] at hq
      exact absurd (hlock.symm.trans (h.filling q b' hq).2.2.1) (by simp)

theorem BufOk.valid (h : BufOk dev lh proc i x d) (hlock : x.lock = some p) (hp : proc p = .run) :
    x.valid = true :=
  (h.lock p hlock).2.2.resolve_right fun ⟨b, hb⟩ => absurd (hp.symm.trans hb) (by simp)

theorem Book.move (h : Book lg proc) (hp : (proc p).InOp) (hpc : pc.InOp)
    (ho : lg'.outstanding = lg.outstanding) (hc : lg'.committing = lg.committing) :
    Book lg' (update proc p pc) := by
  have hne : ∀ q, update proc p pc q = .committing → proc q = .committing := by
    intro q hq
    by_cases hqp : q = p
    · rw [hqp, update_self] at hq
      exact absurd hq hpc.2
    · rwa [update_of_ne hqp] at hq
  exact ⟨ho ▸ h.outstanding.stay (iff_of_true hpc hp), fun q hq => hc ▸ h.committing q (hne q hq),
    fun q r hq hr => h.one q r (hne q hq) (hne r hr), fun hcm => ho ▸ h.closed (hc ▸ hcm)⟩

end Frame

/-! ## The steps keep the invariant -/

section Steps

variable {sb : Superblock} {dev p b : Nat} {s : Sys} {cont spec : Nat → Block} {i : BufId}
  {c : Bcache} {lg : Log}

theorem Inv.beginOp (h : Inv sb dev s cont spec) (hp : s.proc p = .idle)
    (hlg : s.kern.log.beginOp = some lg) :
    Inv sb dev ((s.setLog lg).goto p .run) cont spec := by
  obtain ⟨hc, -, rfl⟩ := Log.beginOp_eq_some hlg
  have hnone : ∀ q, update s.proc p .run q ≠ .committing := by
    intro q hq
    by_cases hqp : q = p
    · rw [hqp, update_self] at hq
      exact absurd hq (by simp)
    · rw [update_of_ne hqp] at hq
      exact absurd (hc.symm.trans (h.book.committing q hq)) (by simp)
  refine ⟨⟨h.book.outstanding.join (by simp [hp, Pc.InOp]) (by simp [Pc.InOp]), fun q hq => ?_,
    fun q _ hq => ?_, fun hcm => ?_⟩, fun i => ?_, h.data, ⟨h.tx.fits, h.tx.nodup, h.tx.lt⟩, h.sb_eq,
    h.dev_eq, h.clean, h.left⟩
  · exact absurd hq (hnone q)
  · exact absurd hq (hnone q)
  · exact absurd (hc.symm.trans hcm) (by simp)
  · refine (h.bufs i).frame (fun _ => Iff.rfl) (by simp [hp, Pc.wants]) (by simp) (by simp)
      fun hl => ?_
    exact absurd ((h.bufs i).lock p hl).1 (by simp [hp, Pc.InOp])

theorem Inv.bget (h : Inv sb dev s cont spec) (hp : s.proc p = .run) (hb : b < 2 ^ 32)
    (hget : s.kern.bcache.bget dev b = some (i, c)) :
    Inv sb dev ((s.setCache c).goto p (.locking i b)) cont spec := by
  have hin : (s.proc p).InOp := by simp [hp, Pc.InOp]
  have hrep := (h.data.rep.bget hget).1
  have hframe : ∀ j, j ≠ i →
      BufOk dev s.kern.log.lh (update s.proc p (.locking i b)) j (s.buf j) (s.dirty j) := by
    intro j hj
    refine (h.bufs j).frame (fun _ => Iff.rfl) ?_ (fun b' heq => hj ?_) (by simp)
      fun _ => ⟨by simp [Pc.InOp], by simp [hp]⟩
    · simp [hp, Pc.wants, hj.symm]
    · simp_all
  have hi := h.bufs i
  rcases Bcache.bget_eq_some h.data.rep.lru hget with ⟨hc, rfl⟩ | ⟨hnew, href, rfl⟩
  · refine ⟨h.book.move hin (by simp [Pc.InOp]) rfl rfl, fun j => ?_, h.data.set hrep rfl rfl, h.tx,
      h.sb_eq, h.dev_eq, h.clean, h.left⟩
    by_cases hj : j = i
    · subst hj
      simp only [Sys.goto, Sys.setCache, Sys.buf, Bcache.set_buf_self]
      refine hi.step rfl rfl ?_ (fun hl => ⟨by simp [Pc.InOp], hc.1, .inl (hi.valid hl hp)⟩) ?_
        (by simp) (fun _ _ => Iff.rfl) id (fun _ _ _ => rfl) hi.dirty hi.small
      · exact (hi.ref.join (by simp [hp, Pc.wants]) rfl).cast (by push_cast; ring)
      · rintro b' heq
        obtain rfl : b = b' := by simpa using heq
        exact ⟨hc.1, hc.2, hb⟩
    · simp only [Sys.goto, Sys.setCache, Sys.buf, Bcache.set_buf_of_ne _ _ hj]
      exact hframe j hj
  · -- nobody uses the buffer that is recycled
    obtain ⟨hpin, hlock, -⟩ := hi.unused href
    have hdirty : s.dirty i ≠ true := fun hd => hi.dirty hd hlock
    have hbl : b ∉ s.kern.log.lh := fun hm => (h.data.pinned b hm).elim hnew
    refine ⟨h.book.move hin (by simp [Pc.InOp]) rfl rfl, fun j => ?_, h.data.move hrep ?_ ?_, h.tx,
      h.sb_eq, h.dev_eq, h.clean, h.left⟩
    · by_cases hj : j = i
      · subst hj
        simp only [Sys.goto, Sys.setCache, Sys.buf, Bcache.set_buf_self]
        exact hi.recycle href hp hbl hb
      · simp only [Sys.goto, Sys.setCache, Sys.buf, Bcache.set_buf_of_ne _ _ hj]
        exact hframe j hj
    · intro j b' hd hj
      exact cached_set_of_ne (fun heq => hdirty (heq ▸ hd)) hj
    · intro b' hb'
      obtain ⟨j, hj⟩ := h.data.pinned b' hb'
      have hji : j ≠ i := by
        rintro rfl
        exact hpin ⟨hj.1, hj.2 ▸ hb'⟩
      exact ⟨j, cached_set_of_ne hji hj⟩

theorem Inv.single (lg : Log) {x : Buf} {pc : Pc} {dirty : BufId → Bool} {cont' spec' : Nat → Block}
    (h : Inv sb dev s cont spec) (hin : (s.proc p).InOp) (hpc : pc.InOp)
    (hbuf : c.buf = (s.kern.bcache.set i x).buf)
    (hi : BufOk dev lg.lh (update s.proc p pc) i x (dirty i))
    (hdirty : ∀ j, j ≠ i → dirty j = s.dirty j)
    (hwants : ∀ j, j ≠ i → pc.wants ≠ some j ∧ (s.proc p).wants ≠ some j)
    (hlocking : ∀ j, j ≠ i → ∀ b, pc ≠ .locking j b)
    (hfilling : ∀ j, j ≠ i → ∀ b, pc ≠ .filling j b ∧ s.proc p ≠ .filling j b)
    (hlg : lg = { s.kern.log with lh := lg.lh }) (htx : lg.Tx)
    (hlh : ∀ j, j ≠ i → (s.buf j).dev = dev →
      ((s.buf j).blockno ∈ lg.lh ↔ (s.buf j).blockno ∈ s.kern.log.lh))
    (hdata : Data sb dev lg.lh c s.kern.disk dirty cont' spec') :
    Inv sb dev { s with
      kern := { s.kern with bcache := c, log := lg }
      proc := update s.proc p pc
      dirty := dirty } cont' spec' := by
  refine ⟨h.book.move hin hpc (by rw [hlg]) (by rw [hlg]), fun j => ?_, hdata, htx,
    .trans (by rw [hlg]; rfl) h.sb_eq, .trans (by rw [hlg]) h.dev_eq, h.clean, h.left⟩
  simp only [Sys.buf, hbuf]
  by_cases hj : j = i
  · subst hj
    rw [Bcache.set_buf_self]
    exact hi
  · rw [Bcache.set_buf_of_ne _ _ hj, hdirty j hj]
    exact (h.bufs j).frame (hlh j hj) (iff_of_false (hwants j hj).1 (hwants j hj).2) (hlocking j hj)
      (fun b => (hfilling j hj b).1) fun _ => ⟨hpc, fun b => (hfilling j hj b).2⟩

section

variable (h : Inv sb dev s cont spec)
include h

theorem Inv.acquiresleep (hp : s.proc p = .locking i b) (hlock : (s.buf i).lock = none) :
    Inv sb dev ((s.setBuf i { s.buf i with lock := some p }).goto p (.filling i b)) cont spec := by
  have hi := h.bufs i
  obtain ⟨hdev, hblock, hsmall⟩ := hi.locking p b hp
  refine h.single s.kern.log (i := i) (by simp [hp, Pc.InOp]) (by simp [Pc.InOp]) rfl ?_
    (fun _ _ => rfl) (fun j hj => ?_) (by simp) (fun j hj b' => ?_) rfl h.tx (fun _ _ _ => Iff.rfl)
    (h.data.set (h.data.rep.set rfl rfl (h.data.rep.data i) fun _ hv hr _ => ⟨hv, hr⟩) rfl rfl)
  · refine hi.step rfl rfl ?_ ?_ (by simp) ?_ ?_ id ?_ (by simp) fun _ => hblock ▸ hsmall
    · refine (hi.ref.leave (by simp [hp, Pc.wants]) (by simp [Pc.wants])).cast ?_
      simp [hlock]
    · exact fun _ => ⟨by simp [Pc.InOp], hdev, .inr ⟨b, rfl⟩⟩
    · rintro b' heq
      obtain rfl : b = b' := by simpa using heq
      exact ⟨hdev, hblock, rfl, Bool.eq_false_iff.mpr fun hd => hi.dirty hd hlock⟩
    · intro q hq
      simp [hlock, hq.symm]
    · intro q _ hl
      exact absurd (hlock.symm.trans hl) (by simp)
  · simp [hp, Pc.wants, hj.symm]
  · simp [hp, hj.symm]

theorem Inv.bread (hp : s.proc p = .filling i b) {x : Buf} (hx : x = if (s.buf i).valid = false then
        { s.buf i with data := s.kern.disk (s.buf i).blockno, valid := true } else s.buf i) :
    Inv sb dev ((s.setBuf i x).goto p .run) cont spec := by
  have hi := h.bufs i
  obtain ⟨hdev, hblock, hlock, -⟩ := hi.filling p b hp
  have hrep : (s.kern.bcache.set i x).Rep dev s.kern.disk cont := by
    rw [hx]
    split
    · exact h.data.rep.fill ⟨hdev, hblock⟩ ‹_› _
    · exact h.data.rep.set rfl rfl (h.data.rep.data i) fun _ hv hr _ => ⟨hv, hr⟩
  -- whatever was read, only the contents have changed
  obtain ⟨hxdev, hxblock, hxlock, hxref, hxvalid⟩ : x.dev = (s.buf i).dev ∧
      x.blockno = (s.buf i).blockno ∧ x.lock = (s.buf i).lock ∧ x.refcnt = (s.buf i).refcnt ∧
      x.valid = true := by
    rw [hx]
    split
    · exact ⟨rfl, rfl, rfl, rfl, rfl⟩
    · exact ⟨rfl, rfl, rfl, rfl, by simp_all⟩
  refine h.single s.kern.log (i := i) (by simp [hp, Pc.InOp]) (by simp [Pc.InOp]) rfl ?_
    (fun _ _ => rfl) (by simp [hp, Pc.wants]) (by simp) (fun j hj b' => ?_) rfl h.tx
    (fun _ _ _ => Iff.rfl) (h.data.set hrep hxdev hxblock)
  · refine hi.step hxdev hxblock ?_ ?_ (by simp) (by simp) ?_ (fun _ => hxvalid) ?_ ?_ ?_
    · rw [hxref, hxlock]
      exact hi.ref.stay (by simp [hp, Pc.wants])
    · exact fun _ => ⟨by simp [Pc.InOp], hdev, .inl hxvalid⟩
    · exact fun q _ => by rw [hxlock]
    · exact fun _ _ _ => rfl
    · rw [hxlock]
      exact hi.dirty
    · rw [hxlock]
      exact hi.small
  · simp [hp, hj.symm]

theorem Inv.data_eq (hi : s.kern.bcache.Cached dev b i)
    (hv : (s.buf i).valid = true) (hd : s.dirty i = false) (hb : sb.Home b) :
    (s.buf i).data = spec b := by
  rw [h.data.rep.data i hi.1 hv, hi.2]
  refine (h.data.spec b hb).resolve_left ?_
  rintro ⟨j, hj, hdj⟩
  rw [h.data.rep.uniq j i hj.1 hi.1 (hj.2.trans hi.2.symm), hd] at hdj
  exact absurd hdj (by simp)

theorem Inv.bread_data (hp : s.proc p = .filling i b) (hb : sb.Home b) :
    (((s.setBuf i (if (s.buf i).valid = false then
      { s.buf i with data := s.kern.disk (s.buf i).blockno, valid := true } else s.buf i)).goto p
        .run).buf i).data = spec b := by
  obtain ⟨hdev, hblock, -, hd⟩ := (h.bufs i).filling p b hp
  refine (h.bread hp rfl).data_eq (i := i) ⟨?_, ?_⟩ ?_ hd hb
  all_goals
    simp only [Sys.goto, Sys.setBuf, Sys.setCache, Sys.buf, Bcache.set_buf_self]
    split
  · exact hdev
  · exact hdev
  · exact hblock
  · exact hblock
  · rfl
  · simp_all

end

theorem Inv.stay (lg : Log) {x : Buf} {dirty : BufId → Bool} {cont' spec' : Nat → Block}
    (h : Inv sb dev s cont spec) (hp : s.proc p = .run)
    (hbuf : c.buf = (s.kern.bcache.set i x).buf)
    (hi : BufOk dev lg.lh (update s.proc p .run) i x (dirty i))
    (hdirty : ∀ j, j ≠ i → dirty j = s.dirty j)
    (hlg : lg = { s.kern.log with lh := lg.lh }) (htx : lg.Tx)
    (hlh : ∀ j, j ≠ i → (s.buf j).dev = dev →
      ((s.buf j).blockno ∈ lg.lh ↔ (s.buf j).blockno ∈ s.kern.log.lh))
    (hdata : Data sb dev lg.lh c s.kern.disk dirty cont' spec') :
    Inv sb dev { s with kern := { s.kern with bcache := c, log := lg }, dirty := dirty } cont'
      spec' := by
  have hself : update s.proc p .run = s.proc := by rw [← hp, update_eq_self]
  have := h.single lg (p := p) (by simp [hp, Pc.InOp]) (by simp [Pc.InOp]) hbuf hi hdirty
    (by simp [hp, Pc.wants]) (by simp) (by simp [hp]) hlg htx hlh hdata
  rwa [hself] at this

theorem BufOk.ref_pos {lh : List Nat} {proc : Nat → Pc} {x : Buf} {d : Bool}
    (h : BufOk dev lh proc i x d) (hlock : x.lock ≠ none) : 0 < x.refcnt := by
  by_contra hz
  exact hlock (h.unused (by omega)).2.1

theorem Inv.modify (h : Inv sb dev s cont spec) (hp : s.proc p = .run)
    (hlock : (s.buf i).lock = some p) (d : Block) :
    Inv sb dev { s.setBuf i { s.buf i with data := d } with dirty := update s.dirty i true }
      (update cont (s.buf i).blockno d) spec := by
  have hi := h.bufs i
  have hdev := (hi.lock p hlock).2.1
  have hc : s.kern.bcache.Cached dev (s.buf i).blockno i := ⟨hdev, rfl⟩
  have hdirty : ∀ j, s.dirty j = true → update s.dirty i true j = true := by
    intro j hj
    by_cases hji : j = i
    · rw [hji, update_self]
    · rwa [update_of_ne hji]
  refine h.stay s.kern.log hp rfl ?_ (fun j hj => update_of_ne hj ..) rfl h.tx
    (fun _ _ _ => Iff.rfl) ⟨h.data.rep.setData hc (hi.valid hlock hp)
      (hi.ref_pos (by simp [hlock])) d, fun b hb => ?_, fun b hb => ?_, fun b hb => ?_⟩
  · rw [update_self]
    refine hi.step rfl rfl ?_ ?_ (by simp) (by simp) (fun _ _ => Iff.rfl) id ?_ (by simp [hlock])
      hi.small
    · exact hi.ref.stay (by simp [hp])
    · exact fun _ => ⟨by simp [Pc.InOp], hdev, .inl (hi.valid hlock hp)⟩
    · intro q hq hl
      exact absurd (Option.some.inj (hl.symm.trans hlock)) hq
  · by_cases hbi : b = (s.buf i).blockno
    · exact .inl ⟨i, cached_set rfl rfl (hbi ▸ hc), update_self ..⟩
    · rw [update_of_ne hbi]
      exact (h.data.spec b hb).imp_left fun ⟨j, hj, hd⟩ => ⟨j, cached_set rfl rfl hj, hdirty j hd⟩
  · by_cases hbi : b = (s.buf i).blockno
    · exact .inr ⟨i, cached_set rfl rfl (hbi ▸ hc), update_self ..⟩
    · rw [update_of_ne hbi] at hb
      exact (h.data.behind b hb).imp_right
        fun ⟨j, hj, hd⟩ => ⟨j, cached_set rfl rfl hj, hdirty j hd⟩
  · exact (h.data.pinned b hb).imp fun _ => cached_set rfl rfl

theorem Data.logWrite {lh lh' : List Nat} {disk : Nat → Block} {dirty : BufId → Bool}
    (h : Data sb dev lh c disk dirty cont spec) (hc : c.Cached dev b i)
    (hlh : ∀ b', b' ∈ lh' ↔ b' ∈ lh ∨ b' = b) :
    Data sb dev lh' c disk (update dirty i false) cont
      (update spec b (cont b)) := by
  -- the changes to other blocks are in other buffers
  have hkeep : ∀ b', b' ≠ b → (∃ j, c.Cached dev b' j ∧ dirty j = true) →
      ∃ j, c.Cached dev b' j ∧ update dirty i false j = true := by
    rintro b' hb' ⟨j, hj, hd⟩
    have hji : j ≠ i := by
      rintro rfl
      exact hb' (hj.2.symm.trans hc.2)
    exact ⟨j, hj, by rwa [update_of_ne hji]⟩
  refine ⟨h.rep, fun b' hb' => ?_, fun b' hb' => ?_, fun b' hb' => ?_⟩
  · by_cases hbb : b' = b
    · exact .inr (by rw [hbb, update_self])
    · rw [update_of_ne hbb]
      exact (h.spec b' hb').imp_left (hkeep b' hbb)
  · by_cases hbb : b' = b
    · exact .inl ((hlh b').mpr (.inr hbb))
    · exact (h.behind b' hb').imp (fun hm => (hlh b').mpr (.inl hm)) (hkeep b' hbb)
  · rcases (hlh b').mp hb' with hm | rfl
    · exact h.pinned b' hm
    · exact ⟨i, hc⟩

section

variable (h : Inv sb dev s cont spec)
include h

theorem Inv.logWrite {pin : Bool} (hp : s.proc p = .run)
    (hlock : (s.buf i).lock = some p) (hhome : sb.Home (s.buf i).blockno)
    (hlg : s.kern.log.logWrite (s.buf i).blockno = .ok (lg, pin)) :
    Inv sb dev { s with
      kern := { s.kern with
        bcache := if pin then s.kern.bcache.bpin i else s.kern.bcache
        log := lg }
      dirty := update s.dirty i false }
      cont (update spec (s.buf i).blockno (s.buf i).data) := by
  have hi := h.bufs i
  have hdev := (hi.lock p hlock).2.1
  have hvalid := hi.valid hlock hp
  have hc : s.kern.bcache.Cached dev (s.buf i).blockno i := ⟨hdev, rfl⟩
  have hmine : (s.buf i).lock = some p →
      Pc.run.InOp ∧ (s.buf i).dev = dev ∧ ((s.buf i).valid = true ∨ ∃ b, Pc.run = .filling i b) :=
    fun _ => ⟨by simp [Pc.InOp], hdev, .inl hvalid⟩
  have hother : ∀ q, q ≠ p → (s.buf i).lock = some q → false = s.dirty i :=
    fun q hq hl => absurd (Option.some.inj (hl.symm.trans hlock)) hq
  rw [h.data.rep.data i hdev hvalid]
  obtain ⟨hcap, hroom, -, ⟨hmem, rfl, rfl⟩ | ⟨hnew, rfl, rfl⟩⟩ := Log.logWrite_eq_ok hlg
  · -- absorbed
    refine h.stay _ (x := s.buf i) hp (by simp [Bcache.set]) ?_ (fun j hj => update_of_ne hj ..)
      rfl h.tx (fun _ _ _ => Iff.rfl) (h.data.logWrite hc fun b' => ?_)
    · rw [update_self]
      exact hi.step rfl rfl (hi.ref.stay (by simp [hp])) hmine (by simp) (by simp)
        (fun _ _ => Iff.rfl) id hother (by simp) hi.small
    · exact ⟨.inl, fun hb => hb.elim id fun hb => hb ▸ hmem⟩
  · -- a new block: its buffer is pinned
    have hhome' : s.kern.log.sb.Home (s.buf i).blockno := h.sb_eq ▸ hhome
    have hmem : ∀ b', b' ∈ s.kern.log.lh ++ [(s.buf i).blockno] ↔
        b' ∈ s.kern.log.lh ∨ b' = (s.buf i).blockno := by simp
    refine h.stay _ (x := { s.buf i with refcnt := (s.buf i).refcnt + 1 }) hp rfl ?_
      (fun j hj => update_of_ne hj ..) rfl ⟨⟨?_, ?_, fun b' hb' => ?_⟩, ?_, fun b' hb' => ?_⟩
      (fun j hj hjd => ?_)
      ((h.data.logWrite hc hmem).set (h.data.rep.set rfl rfl (h.data.rep.data i)
        fun _ hv _ _ => ⟨hv, Nat.succ_pos _⟩) rfl rfl)
    · rw [update_self]
      refine hi.step rfl rfl ?_ hmine (by simp) (by simp) (fun _ _ => Iff.rfl) id hother (by simp)
        hi.small
      refine (hi.ref.stay (by simp [hp])).cast ?_
      simp [hdev, hnew, hlock]
    · rw [List.length_append]
      exact hcap
    · show (s.kern.log.lh ++ [(s.buf i).blockno]).length < s.kern.log.size
      rw [List.length_append, List.length_singleton]
      omega
    · rcases (hmem b').mp hb' with hm | rfl
      · exact h.tx.fits.home b' hm
      · exact hhome'
    · exact List.Nodup.append h.tx.nodup (by simp) (by simpa using hnew)
    · rcases (hmem b').mp hb' with hm | rfl
      · exact h.tx.lt b' hm
      · exact hi.small (by simp [hlock])
    · rw [hmem]
      exact or_iff_left fun heq => hj (h.data.rep.uniq j i hjd hdev heq)

theorem Inv.releasesleep (hp : s.proc p = .run)
    (hlock : (s.buf i).lock = some p) (hclean : s.dirty i = false) :
    Inv sb dev ((s.setBuf i { s.buf i with lock := none }).goto p (.dropping i)) cont spec := by
  have hi := h.bufs i
  refine h.single s.kern.log (i := i) (by simp [hp, Pc.InOp]) (by simp [Pc.InOp]) rfl ?_
    (fun _ _ => rfl) (fun j hj => ?_) (by simp) (by simp [hp]) rfl h.tx (fun _ _ _ => Iff.rfl)
    (h.data.set (h.data.rep.set rfl rfl (h.data.rep.data i) fun _ hv hr _ => ⟨hv, hr⟩) rfl rfl)
  · refine hi.step rfl rfl ?_ (by simp) (by simp) (by simp) ?_ id (fun _ _ _ => rfl)
      (fun hd => absurd (hclean.symm.trans hd) (by simp)) (by simp)
    · refine (hi.ref.join (by simp [hp, Pc.wants]) rfl).cast ?_
      simp [hlock]
    · intro q hq
      simp [hlock, hq.symm]
  · simp [hp, Pc.wants, hj.symm]

theorem Inv.brelse (hp : s.proc p = .dropping i) :
    Inv sb dev ((s.setCache (s.kern.bcache.brelse i)).goto p .run) cont spec := by
  have hi := h.bufs i
  have hwant : (s.proc p).wants = some i := by rw [hp, Pc.wants]
  have hpos : 0 < (s.buf i).refcnt := by
    by_contra hz
    exact (hi.unused (by omega)).2.2 p hwant
  -- the last reference to a block can only be dropped when the disk has the block
  have hback : (s.buf i).refcnt = 1 → (s.buf i).dev = dev →
      s.kern.disk (s.buf i).blockno = cont (s.buf i).blockno := by
    intro h1 hdev
    have hcount := hi.ref.pos hwant
    rw [h1] at hcount
    by_contra hne
    rcases h.data.behind _ hne with hm | ⟨j, hj, hd⟩
    · rw [if_pos ⟨hdev, hm⟩] at hcount
      split at hcount <;> omega
    · rw [h.data.rep.uniq j i hj.1 hdev hj.2] at hd
      rw [if_neg (hi.dirty hd)] at hcount
      split at hcount <;> omega
  have hrep := h.data.rep.brelse hpos hback
  have hbuf := Bcache.brelse_buf s.kern.bcache i
  have hcached : ∀ b j, s.kern.bcache.Cached dev b j → (s.kern.bcache.brelse i).Cached dev b j := by
    intro b j hj
    rw [Bcache.Cached, hbuf]
    exact cached_set rfl rfl hj
  refine h.single s.kern.log (i := i) (by simp [hp, Pc.InOp]) (by simp [Pc.InOp]) hbuf ?_
    (fun _ _ => rfl) (fun j hj => ?_) (by simp) (by simp [hp]) rfl h.tx (fun _ _ _ => Iff.rfl)
    (h.data.move hrep (fun j b _ => hcached b j) fun b hb => (h.data.pinned b hb).imp (hcached b))
  · refine hi.step rfl rfl ?_ (fun hl => ?_) (by simp) (by simp) (fun _ _ => Iff.rfl) id
      (fun _ _ _ => rfl) hi.dirty hi.small
    · refine (hi.ref.leave hwant (by simp [Pc.wants])).cast ?_
      rw [Bcache.dec_of_pos hpos]
      push_cast [Nat.cast_sub hpos]
      ring
    · obtain ⟨-, hdev, hv⟩ := hi.lock p hl
      refine ⟨by simp [Pc.InOp], hdev, .inl (hv.resolve_right ?_)⟩
      simp [hp]
  · simp [hp, Pc.wants, hj.symm]

theorem Inv.endOp {last : Bool} (hp : s.proc p = .run)
    (hlock : ∀ i, (s.buf i).lock ≠ some p) (hlg : s.kern.log.endOp = .ok (lg, last)) :
    Inv sb dev ((s.setLog lg).goto p (if last then .committing else .idle)) cont spec := by
  obtain ⟨hc, hlast, rfl⟩ := Log.endOp_eq_ok hlg
  -- nobody else is committing
  have hmine : ∀ q, update s.proc p (if last then .committing else .idle) q = .committing →
      q = p ∧ last = true := by
    intro q hq
    by_cases hqp : q = p
    · rw [hqp, update_self] at hq
      exact ⟨hqp, by by_contra hl; simp [hl] at hq⟩
    · rw [update_of_ne hqp] at hq
      exact absurd (hc.symm.trans (h.book.committing q hq)) (by simp)
  have hout : ¬(if last then Pc.committing else .idle).InOp := by cases last <;> simp [Pc.InOp]
  refine ⟨⟨h.book.outstanding.leave (by simp [hp, Pc.InOp]) hout, fun q hq => (hmine q hq).2,
    fun q r hq hr => (hmine q hq).1.trans (hmine r hr).1.symm, hlast.mp⟩, fun i => ?_, h.data,
    ⟨h.tx.fits, h.tx.nodup, h.tx.lt⟩, h.sb_eq, h.dev_eq, h.clean, h.left⟩
  refine (h.bufs i).frame (fun _ => Iff.rfl) ?_ ?_ ?_ fun hl => absurd hl (hlock i)
  · cases last <;> simp [hp, Pc.wants]
  · cases last <;> simp
  · cases last <;> simp

end

theorem Pc.InOp.of_wants {pc : Pc} (h : pc.wants = some i) : pc.InOp := by
  rcases pc with _ | _ | _ | _ | _ | _ <;> simp_all [Pc.wants, Pc.InOp]

theorem Inv.quiet (h : Inv sb dev s cont spec) (hp : s.proc p = .committing) :
    (∀ q, ¬(s.proc q).InOp) ∧ (∀ i, (s.buf i).lock = none) ∧ (∀ i, s.dirty i = false) ∧
      s.kern.At dev p cont s.kern.log.lh [] := by
  have hnobody : ∀ q, ¬(s.proc q).InOp := by
    have hout := h.book.outstanding
    rw [h.book.closed (h.book.committing p hp)] at hout
    exact hout.not_of_zero
  have hlock : ∀ i, (s.buf i).lock = none := by
    intro i
    by_contra hne
    obtain ⟨q, hq⟩ := Option.ne_none_iff_exists'.mp hne
    exact hnobody q ((h.bufs i).lock q hq).1
  refine ⟨hnobody, hlock, fun i => Bool.eq_false_iff.mpr fun hd => (h.bufs i).dirty hd (hlock i),
    h.data.rep, fun i => ?_, fun i => hlock i, by simp, h.data.pinned⟩
  have hzero := (h.bufs i).ref.eq_zero fun q hq => hnobody q (.of_wants hq)
  rw [if_pos (hlock i)] at hzero
  simp only [List.not_mem_nil, if_false, Nat.add_zero]
  split at hzero
  · rw [if_pos ‹_›]
    show (s.buf i).refcnt = 1
    omega
  · rw [if_neg ‹_›]
    show (s.buf i).refcnt = 0
    omega

theorem Inv.of_quiet (me : Nat) (hproc : ∀ q, s.proc q = .idle) (hdirty : ∀ i, s.dirty i = false)
    (hout : s.kern.log.outstanding = 0) (hc : s.kern.log.committing = false)
    (hlh : s.kern.log.lh = []) (hat : s.kern.At dev me cont [] [])
    (hspec : ∀ b, sb.Home b → cont b = spec b) (hsb : s.kern.log.sb = sb)
    (hdev : s.kern.log.dev = dev) (hsize : 0 < sb.nlog)
    (hclean : headN (s.kern.disk sb.logstart) = 0) (hleft : s.kern.left = none) :
    Inv sb dev s cont spec where
  book :=
    ⟨hout ▸ .zero (by simp [hproc, Pc.InOp]), by simp [hproc], by simp [hproc], by simp [hc]⟩
  bufs i := by
    have href := hat.ref i
    have hlock := hat.lock i
    simp only [List.not_mem_nil, and_false, if_false] at href hlock
    refine ⟨?_, ?_, by simp [hlock], by simp [hproc], by simp [hproc], by simp [hdirty]⟩
    · refine (Counts.zero (by simp [hproc, Pc.wants])).cast ?_
      simp [hlh, href, hlock]
    · simp [hlock]
  data := by
    refine ⟨hat.rep, fun b hb => .inr (hspec b hb), fun b hb => ?_, by simp [hlh]⟩
    exact absurd (hat.disk_eq List.not_mem_nil) hb
  tx := by
    refine ⟨⟨by simp [hlh], ?_, by simp [hlh]⟩, by simp [hlh], by simp [hlh]⟩
    rw [hlh, hsb]
    exact hsize
  sb_eq := hsb
  dev_eq := hdev
  clean := hclean
  left := hleft

theorem Inv.commit {k : Kern} (h : Inv sb dev s cont spec) (hp : s.proc p = .committing)
    (hk : Xv6.commit p s.kern = .ok () k) :
    ∃ cont', Inv sb dev ({ s with
      kern := { k with log := { k.log with committing := false } } }.goto p .idle) cont' spec := by
  obtain ⟨hnobody, hlock, hdirty, hat⟩ := h.quiet hp
  rw [← h.dev_eq] at hat
  have hcommit := wp_commit hat h.tx
    (by rw [show s.kern.log.start = sb.logstart from congrArg Superblock.logstart h.sb_eq]; exact h.clean)
  rw [wp_of_ok hk, h.sb_eq, h.dev_eq] at hcommit
  obtain ⟨-, hlog, hleft, hdur, cont', hat', hcont⟩ := hcommit
  have hidle : ∀ q, update s.proc p .idle q = .idle := by
    intro q
    by_cases hqp : q = p
    · rw [hqp, update_self]
    · rw [update_of_ne hqp]
      by_contra hne
      exact hnobody q ⟨hne, fun hq => hqp (h.book.one q p hq hp)⟩
  refine ⟨cont', .of_quiet p hidle hdirty ?_ rfl ?_ (hat'.withLog _) (fun b hb => ?_) ?_ ?_
    hdur.fits.length_lt hdur.headN_eq (hleft h.left)⟩
  · show k.log.outstanding = 0
    rw [hlog]
    exact h.book.closed (h.book.committing p hp)
  · show k.log.lh = []
    rw [hlog]
  · rw [hcont b hb]
    refine (h.data.spec b hb).resolve_left ?_
    rintro ⟨i, -, hd⟩
    exact absurd ((hdirty i).symm.trans hd) (by simp)
  · show (⟨k.log.start, k.log.size⟩ : Superblock) = sb
    rw [hlog]
    exact h.sb_eq
  · show k.log.dev = dev
    rw [hlog]
    exact h.dev_eq

end Steps

/-! ## The refinement -/

/-- The system, unless it has panicked, represents the array `x`. -/
def Sim (sb : Superblock) (dev : Nat) (s : Sys) (x : Nat → Block) : Prop :=
  s.stop = none → ∃ cont, Inv sb dev s cont x

section Refinement

variable {sb : Superblock} {dev : Nat} {s t : Sys} {x disk : Nat → Block} {a : Act}

theorem sim_init (hdev : dev ≠ 0) (hsize : 0 < sb.nlog) (hclean : headN (disk sb.logstart) = 0) :
    Sim sb dev (Sys.init sb dev disk) disk := fun _ =>
  ⟨disk, .of_quiet 0 (fun _ => rfl) (fun _ => rfl) rfl rfl rfl
    ((Kern.boot_at hdev : (Kern.boot disk none).At dev 0 disk [] []).withLog _) (fun _ _ => rfl) rfl rfl hsize hclean rfl⟩

theorem sim_next (h : Sim sb dev s x) (hn : next s a = some t) :
    ∃ y, run arrayNext x (event s a t).toList = some y ∧ Sim sb dev t y := by
  unfold next at hn
  split at hn
  · cases hn
  rename_i hstop
  obtain ⟨cont, hI⟩ := h (not_not.mp hstop)
  cases a with dsimp only at hn
  | beginOp p =>
    split at hn
    · cases hn
      exact ⟨x, rfl, fun _ => ⟨cont, hI.beginOp ‹_› ‹_›⟩⟩
    · cases hn
  | bget p b =>
    split at hn
    · rename_i hg
      split at hn
      · cases hn
        exact ⟨x, rfl, fun _ => ⟨cont, hI.bget hg.1 hg.2 (hI.dev_eq ▸ ‹_›)⟩⟩
      · cases hn
        exact ⟨x, rfl, fun hs => absurd hs (by simp [Sys.halt])⟩
    · cases hn
  | acquiresleep p =>
    split at hn
    · split at hn
      · cases hn
        exact ⟨x, rfl, fun _ => ⟨cont, hI.acquiresleep ‹_› ‹_›⟩⟩
      · cases hn
    · cases hn
  | bread p =>
    split at hn
    · rename_i i b hp
      cases hn
      have hI' := hI.bread hp rfl
      refine ⟨x, ?_, fun _ => ⟨cont, hI'⟩⟩
      simp only [event, hp]
      split
      · rename_i hb
        rw [hI.sb_eq] at hb
        rw [Option.toList_some, run, arrayNext, if_pos (hI.bread_data hp hb).symm]
        rfl
      · rfl
    · cases hn
  | modify p i d =>
    split at hn
    · rename_i hg
      cases hn
      exact ⟨x, rfl, fun _ => ⟨_, hI.modify hg.1 hg.2.1 d⟩⟩
    · cases hn
  | logWrite p i =>
    split at hn
    · rename_i hg
      split at hn
      · cases hn
        have hI' := hI.logWrite hg.1 hg.2.1 (hI.sb_eq ▸ hg.2.2) ‹_›
        refine ⟨_, ?_, fun _ => ⟨cont, hI'⟩⟩
        rw [event, if_pos (not_not.mp hstop)]
        rfl
      · cases hn
        exact ⟨x, rfl, fun hs => absurd hs (by simp [Sys.halt])⟩
    · cases hn
  | releasesleep p i =>
    split at hn
    · rename_i hg
      cases hn
      exact ⟨x, rfl, fun _ => ⟨cont, hI.releasesleep hg.1 hg.2.1 hg.2.2⟩⟩
    · cases hn
  | brelse p =>
    split at hn
    · cases hn
      exact ⟨x, rfl, fun _ => ⟨cont, hI.brelse ‹_›⟩⟩
    · cases hn
  | endOp p =>
    split at hn
    · rename_i hg
      split at hn
      · cases hn
        exact ⟨x, rfl, fun _ => ⟨cont, hI.endOp hg.1 hg.2 ‹_›⟩⟩
      · cases hn
        exact ⟨x, rfl, fun _ => ⟨cont, hI.endOp hg.1 hg.2 ‹_›⟩⟩
      · cases hn
        exact ⟨x, rfl, fun hs => absurd hs (by simp [Sys.halt])⟩
    · cases hn
  | commit p =>
    split at hn
    · cases hn
      exact ⟨x, rfl, fun _ => hI.commit ‹_› ‹_›⟩
    · cases hn
      exact ⟨x, rfl, fun hs => absurd hs (by simp [Sys.halt])⟩
    · cases hn

/-- **The cache and the log refine a plain array of blocks.**  In every run from a clean disk what
`bread` returns and `log_write` stores are the reads and writes of an array that starts as the disk,
and a buffer that a process holds without having changed it contains what the array does. -/
theorem refines_array (hdev : dev ≠ 0) (hsize : 0 < sb.nlog)
    (hclean : headN (disk sb.logstart) = 0) {as : List Act}
    (hrun : run next (Sys.init sb dev disk) as = some s) :
    ∃ x, run arrayNext disk (trace next event (Sys.init sb dev disk) as) = some x ∧
      (s.stop = none → ∀ p i, s.proc p = .run → (s.buf i).lock = some p → s.dirty i = false →
        sb.Home (s.buf i).blockno → (s.buf i).data = x (s.buf i).blockno) := by
  obtain ⟨x, hx, hsim⟩ := run_trace (fun _ _ _ _ => sim_next) hrun (sim_init hdev hsize hclean)
  refine ⟨x, hx, fun hstop p i hp hlock hd hb => ?_⟩
  obtain ⟨cont, hI⟩ := hsim hstop
  exact hI.data_eq ⟨((hI.bufs i).lock p hlock).2.1, rfl⟩ ((hI.bufs i).valid hlock hp) hd hb

end Refinement

/-- One process changes a block, commits it and reads it again in its next transaction. -/
def readBack : List Act :=
  [.beginOp 1, .bget 1 46, .acquiresleep 1, .bread 1, .modify 1 0 fun _ => 1, .logWrite 1 0,
    .releasesleep 1 0, .brelse 1, .endOp 1, .commit 1,
    .beginOp 1, .bget 1 46, .acquiresleep 1, .bread 1]

theorem refines_array_readBack :
    ∃ s x, run next (Sys.init ⟨2, nlog⟩ rootDev fun _ _ => 0) readBack = some s ∧
      run arrayNext (fun _ _ => 0) (trace next event (Sys.init ⟨2, nlog⟩ rootDev fun _ _ => 0)
        readBack) = some x := by
  obtain ⟨s, hs⟩ : ∃ s, run next (Sys.init ⟨2, nlog⟩ rootDev fun _ _ => 0) readBack = some s :=
    Option.isSome_iff_exists.mp (by decide +kernel)
  obtain ⟨x, hx, -⟩ := refines_array (by decide) (by decide) (by decide +kernel) hs
  exact ⟨s, x, hs, hx⟩

end Xv6.Transparent
