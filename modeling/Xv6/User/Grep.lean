import Mathlib.Data.List.Infix
import Mathlib.Tactic.Common

/-!
# `grep`

`user/grep.c`.  A C string is the list of its characters without the final NUL, so `re[1] == '*'`
asks for the second element and `*text == '\0'` for the end of the list.  The matcher is compared
with a language: a pattern is parsed into items (`items`), and `Item.seq` says which piece of a text
a sequence of items matches.
-/

namespace Xv6.Grep

/-! ## The matcher -/

/-- `matchstar(c, re, text)`, where `here` is `matchhere(re, ·)`. -/
def matchstar (here : List UInt8 → Bool) (c : UInt8) : List UInt8 → Bool
  | [] => here []
  | d :: text => here (d :: text) || ((d == c || c == '.'.toUInt8) && matchstar here c text)

/-- `matchhere(re, text)`: search for `re` at the beginning of `text`. -/
def matchhere : List UInt8 → List UInt8 → Bool
  | [], _ => true
  | [r], text =>
    if r = '$'.toUInt8 then text == []
    else
      match text with
      | [] => false
      | d :: _ => r == '.'.toUInt8 || r == d
  | r :: r' :: re, text =>
    if r' = '*'.toUInt8 then matchstar (fun t => matchhere re t) r text
    else
      match text with
      | [] => false
      | d :: text => (r == '.'.toUInt8 || r == d) && matchhere (r' :: re) text

def matchFrom (re : List UInt8) : List UInt8 → Bool
  | [] => matchhere re []
  | d :: text => matchhere re (d :: text) || matchFrom re text

def match' (re text : List UInt8) : Bool :=
  match re with
  | [] => matchFrom [] text
  | r :: re' => if r = '^'.toUInt8 then matchhere re' text else matchFrom re text

/-! ## The language of patterns -/

inductive Item where
  | star (x : UInt8)
  | eot
  | one (x : UInt8)
  deriving DecidableEq, Repr

/-- `x`, as a character of a pattern, stands for `d`. -/
def stands (x d : UInt8) : Prop := x = '.'.toUInt8 ∨ d = x

/-- A pattern, read left to right.  `*` after a character comes before everything else, so that `$*`
repeats a `$`; a `*` at the beginning and a `$` that is not the last character are literal. -/
def items : List UInt8 → List Item
  | [] => []
  | [r] => if r = '$'.toUInt8 then [.eot] else [.one r]
  | r :: r' :: re => if r' = '*'.toUInt8 then .star r :: items re else .one r :: items (r' :: re)

def Item.Matches (w rest : List UInt8) : Item → Prop
  | .star x => ∀ d ∈ w, stands x d
  | .eot => w = [] ∧ rest = []
  | .one x => ∃ d, w = [d] ∧ stands x d

def Item.seq : List Item → List UInt8 → List UInt8 → Prop
  | [], w, _ => w = []
  | i :: is, w, rest => ∃ u v, w = u ++ v ∧ i.Matches u (v ++ rest) ∧ Item.seq is v rest

def Item.Starts (is : List Item) (text : List UInt8) : Prop :=
  ∃ w rest, text = w ++ rest ∧ Item.seq is w rest

section Language

variable {re text : List UInt8}

theorem Item.starts_cons {i : Item} {is : List Item} :
    Starts (i :: is) text ↔ ∃ u v, text = u ++ v ∧ i.Matches u v ∧ Starts is v := by
  constructor
  · rintro ⟨w, rest, rfl, u, v, rfl, hi, hs⟩
    exact ⟨u, v ++ rest, List.append_assoc u v rest, hi, v, rest, rfl, hs⟩
  · rintro ⟨u, v, rfl, hi, w, rest, rfl, hs⟩
    exact ⟨u ++ w, rest, (List.append_assoc u w rest).symm, u, w, rfl, hi, hs⟩

theorem Item.starts_nil (text : List UInt8) : Starts [] text := ⟨[], text, rfl, rfl⟩

theorem Item.starts_eot : Starts [.eot] text ↔ text = [] := by
  rw [starts_cons]
  constructor
  · rintro ⟨u, v, rfl, ⟨rfl, rfl⟩, -⟩
    rfl
  · rintro rfl
    exact ⟨[], [], rfl, ⟨rfl, rfl⟩, starts_nil []⟩

theorem Item.not_starts_one_nil {x : UInt8} {is : List Item} : ¬ Starts (.one x :: is) [] := by
  rw [starts_cons]
  rintro ⟨u, v, h, ⟨d, rfl, -⟩, -⟩
  cases h

theorem Item.starts_one_cons {x d : UInt8} {is : List Item} :
    Starts (.one x :: is) (d :: text) ↔ stands x d ∧ Starts is text := by
  rw [starts_cons]
  constructor
  · rintro ⟨u, v, h, ⟨e, rfl, he⟩, hs⟩
    obtain ⟨rfl, rfl⟩ := List.cons.inj h
    exact ⟨he, hs⟩
  · rintro ⟨hd, hs⟩
    exact ⟨[d], text, rfl, ⟨d, rfl, hd⟩, hs⟩

theorem beq_dot_or_iff {x d : UInt8} :
    (x == '.'.toUInt8 || x == d) = true ↔ stands x d := by
  simp only [Bool.or_eq_true, beq_iff_eq, stands, eq_comm (a := d)]

theorem matchstar_iff {here : List UInt8 → Bool} {c : UInt8} :
    matchstar here c text = true ↔
      ∃ u v, text = u ++ v ∧ (∀ d ∈ u, stands c d) ∧ here v = true := by
  induction text with
  | nil =>
    constructor
    · intro h
      exact ⟨[], [], rfl, nofun, h⟩
    · rintro ⟨u, v, h, -, hv⟩
      obtain ⟨rfl, rfl⟩ := List.append_eq_nil_iff.mp h.symm
      exact hv
  | cons d text ih =>
    have hstands : (d == c || c == '.'.toUInt8) = true ↔ stands c d := by
      rw [Bool.or_comm, Bool.or_eq_true, beq_iff_eq, beq_iff_eq]
      exact Iff.rfl
    rw [matchstar, Bool.or_eq_true, Bool.and_eq_true, hstands, ih]
    constructor
    · rintro (h | ⟨hd, u, v, rfl, hu, hv⟩)
      · exact ⟨[], d :: text, rfl, nofun, h⟩
      · exact ⟨d :: u, v, rfl, List.forall_mem_cons.mpr ⟨hd, hu⟩, hv⟩
    · rintro ⟨u, v, h, hu, hv⟩
      cases u with
      | nil => exact .inl (by rw [h]; exact hv)
      | cons e u =>
        obtain ⟨rfl, rfl⟩ := List.cons.inj h
        exact .inr ⟨hu d List.mem_cons_self, u, v, rfl, fun x hx => hu x (.tail d hx), hv⟩

/-- `matchhere` decides the language at the beginning of the text.  The induction follows the
pattern, for every text at once: a star goes on with what is left of either. -/
theorem matchhere_iff (re text : List UInt8) :
    matchhere re text = true ↔ Item.Starts (items re) text := by
  induction re, text using matchhere.induct with
  | case1 text => exact iff_of_true rfl (Item.starts_nil text)
  | case2 text => simp [matchhere, items, Item.starts_eot]
  | case3 r hr => simp [matchhere, items, hr, Item.not_starts_one_nil]
  | case4 r hr d text =>
    simp only [matchhere, items, hr, if_false, Item.starts_one_cons, beq_dot_or_iff]
    exact (and_iff_left (Item.starts_nil text)).symm
  | case5 r re text ih =>
    simp only [matchhere, items, if_true, matchstar_iff, Item.starts_cons, Item.Matches, ih]
  | case6 r r' re hr => simp [matchhere, items, hr, Item.not_starts_one_nil]
  | case7 r r' re hr d text ih =>
    simp only [matchhere, items, hr, if_false, Item.starts_one_cons, Bool.and_eq_true,
      beq_dot_or_iff, ih]

theorem matchFrom_iff :
    matchFrom re text = true ↔ ∃ before t, text = before ++ t ∧ Item.Starts (items re) t := by
  induction text with
  | nil =>
    rw [matchFrom, matchhere_iff]
    constructor
    · intro h
      exact ⟨[], [], rfl, h⟩
    · rintro ⟨before, t, h, ht⟩
      obtain ⟨rfl, rfl⟩ := List.append_eq_nil_iff.mp h.symm
      exact ht
  | cons d text ih =>
    rw [matchFrom, Bool.or_eq_true, matchhere_iff, ih]
    constructor
    · rintro (h | ⟨before, t, rfl, ht⟩)
      · exact ⟨[], d :: text, rfl, h⟩
      · exact ⟨d :: before, t, rfl, ht⟩
    · rintro ⟨before, t, h, ht⟩
      cases before with
      | nil => exact .inl (by rw [h]; exact ht)
      | cons e before =>
        obtain ⟨rfl, rfl⟩ := List.cons.inj h
        exact .inr ⟨before, t, rfl, ht⟩

end Language

/-- The texts of a pattern: some piece of the text is matched, and with `^` it is at the beginning. -/
def Accepts (re text : List UInt8) : Prop :=
  if re.head? = some '^'.toUInt8 then
    ∃ w rest, text = w ++ rest ∧ Item.seq (items re.tail) w rest
  else ∃ before w rest, text = before ++ (w ++ rest) ∧ Item.seq (items re) w rest

/-- `match` decides the language of its patterns. -/
theorem match_iff_accepts (re text : List UInt8) : match' re text = true ↔ Accepts re text := by
  have hfrom : matchFrom re text = true ↔
      ∃ before w rest, text = before ++ (w ++ rest) ∧ Item.seq (items re) w rest := by
    rw [matchFrom_iff]
    constructor
    · rintro ⟨before, t, rfl, w, rest, rfl, h⟩
      exact ⟨before, w, rest, rfl, h⟩
    · rintro ⟨before, w, rest, rfl, h⟩
      exact ⟨before, w ++ rest, rfl, w, rest, rfl, h⟩
  cases re with
  | nil => exact hfrom
  | cons r re =>
    simp only [match', Accepts, List.head?_cons, Option.some_inj, List.tail_cons]
    split
    · exact matchhere_iff re text
    · exact hfrom

/-! ## The loop over the file -/

def bufSize : Nat := 1024

/-- `strchr(p, c)`: how far away the first `c` is. -/
def strchr (p : List UInt8) (c : UInt8) : Option Nat := p.findIdx? (· == c)

/-- The inner loop of `grep`: the lines that it writes, and what is left from `p` on. -/
def scan (pattern p : List UInt8) : List (List UInt8) × List UInt8 :=
  match _h : strchr p '\n'.toUInt8 with
  | none => ([], p)
  | some q =>
    let (out, p') := scan pattern (p.drop (q + 1))
    (if match' pattern (p.take q) then p.take (q + 1) :: out else out, p')
termination_by p.length
decreasing_by
  have := (List.findIdx?_eq_some_iff_findIdx_eq.mp _h).1
  rw [List.length_drop]
  omega

/-- `read` of `size` bytes from `file`: the bytes read, and the rest.  It may answer any number of bytes
up to `size`, but none only at the end of the file or when it is asked for none. -/
def read (file : List UInt8) (size k : Nat) : List UInt8 × List UInt8 :=
  file.splitAt (min (k + 1) size)

variable {file p rest : List UInt8}

theorem read_append (file : List UInt8) (size k : Nat) :
    (read file size k).1 ++ (read file size k).2 = file := by
  rw [read, List.splitAt_eq]
  exact List.take_append_drop _ _

theorem length_read_le (file : List UInt8) (size k : Nat) : (read file size k).1.length ≤ size := by
  rw [read, List.splitAt_eq]
  dsimp only
  rw [List.length_take]
  omega

theorem read_eq_nil {size k : Nat} (h : (read file size k).1 = []) :
    size = 0 ∨ file = [] := by
  rw [read, List.splitAt_eq] at h
  refine (List.take_eq_nil_iff.mp h).imp_left fun h0 => ?_
  omega

theorem length_read_lt {size k : Nat} (h : (read file size k).1 ≠ []) :
    (read file size k).2.length < file.length := by
  have happ := congrArg List.length (read_append file size k)
  rw [List.length_append] at happ
  have := List.length_pos_iff.mpr h
  omega

/-- The loop of `grep` with the first bytes of a line in the buffer.  The `i`-th `read` is answered
according to `answer i`. -/
def grepFrom (pattern : List UInt8) (answer : Nat → Nat) (i : Nat) (kept file : List UInt8) :
    List (List UInt8) :=
  let r := read file (bufSize - kept.length - 1) (answer i)
  if _h : r.1 = [] then []
  else
    let (out, p) := scan pattern (kept ++ r.1)
    out ++ grepFrom pattern answer (i + 1) p r.2
termination_by file.length
decreasing_by exact length_read_lt _h

/-- `grep(pattern, fd)`: what it writes. -/
def grep (pattern : List UInt8) (answer : Nat → Nat) (file : List UInt8) : List (List UInt8) :=
  grepFrom pattern answer 0 [] file

/-! ## What it should write -/

structure Line where
  bytes : List UInt8
  noNewline : '\n'.toUInt8 ∉ bytes
  noNul : 0 ∉ bytes

def Line.text (l : Line) : List UInt8 := l.bytes ++ ['\n'.toUInt8]

def Line.Fits (l : Line) : Prop := l.text.length < bufSize

instance : DecidablePred Line.Fits := fun l => inferInstanceAs (Decidable (l.text.length < bufSize))

def contents (ls : List Line) : List UInt8 := ls.flatMap Line.text

def matching (pattern : List UInt8) (ls : List Line) : List (List UInt8) :=
  (ls.filter fun l => match' pattern l.bytes).map Line.text

theorem matching_append (pattern : List UInt8) (ls ms : List Line) :
    matching pattern (ls ++ ms) = matching pattern ls ++ matching pattern ms := by
  rw [matching, List.filter_append, List.map_append, matching, matching]

theorem contents_cons (l : Line) (ls : List Line) :
    contents (l :: ls) = l.bytes ++ '\n'.toUInt8 :: contents ls := by
  rw [contents, List.flatMap_cons, Line.text, List.append_assoc, List.singleton_append, contents]

theorem initial_of_append_eq {l : Line} {ls : List Line}
    (hp : '\n'.toUInt8 ∉ p) (h : p ++ rest = contents (l :: ls)) : p <+: l.bytes := by
  rw [contents_cons] at h
  obtain ⟨u, hl, -⟩ | ⟨u, rfl, hu⟩ := List.append_eq_append_iff.mp h
  · exact ⟨u, hl.symm⟩
  · cases u with
    | nil => exact ⟨[], by simp⟩
    | cons d u =>
      obtain ⟨rfl, -⟩ := List.cons.inj hu
      exact absurd (by simp) hp

theorem scan_of_not_mem (pattern : List UInt8) {p : List UInt8} (hp : '\n'.toUInt8 ∉ p) :
    scan pattern p = ([], p) := by
  have hnone : strchr p '\n'.toUInt8 = none := by
    rw [strchr, List.findIdx?_eq_none_iff]
    intro d hd
    exact beq_false_of_ne fun e => hp (e ▸ hd)
  rw [scan]
  split
  · rfl
  · rename_i q hq
    rw [hnone] at hq
    cases hq

theorem scan_line (pattern : List UInt8) (l : Line) (p : List UInt8) :
    scan pattern (l.bytes ++ '\n'.toUInt8 :: p) =
      (matching pattern [l] ++ (scan pattern p).1, (scan pattern p).2) := by
  have hsome : strchr (l.bytes ++ '\n'.toUInt8 :: p) '\n'.toUInt8 = some l.bytes.length := by
    have hl : l.bytes.findIdx? (· == '\n'.toUInt8) = none := by
      rw [List.findIdx?_eq_none_iff]
      intro d hd
      exact beq_false_of_ne fun e => l.noNewline (e ▸ hd)
    rw [strchr, List.findIdx?_append, hl, List.findIdx?_cons]
    simp
  rw [scan]
  split
  · rename_i hq
    rw [hsome] at hq
    cases hq
  · rename_i q hq
    rw [hsome, Option.some_inj] at hq
    subst hq
    have htext : (l.bytes ++ '\n'.toUInt8 :: p).take (l.bytes.length + 1) = l.text := by
      rw [List.take_length_add_append, Line.text]
      rfl
    rw [htext, List.take_left, List.drop_length_add_append]
    by_cases hm : match' pattern l.bytes = true <;> simp [matching, hm]

/-- What the inner loop does with some lines and the beginning of another. -/
structure Scanned (pattern buf rest : List UInt8) (ls : List Line) : Prop where
  split : ∃ done todo, ls = done ++ todo ∧ (scan pattern buf).1 = matching pattern done ∧
    (scan pattern buf).2 ++ rest = contents todo ∧ ∀ l ∈ done, l.text.length ≤ buf.length
  noNewline : '\n'.toUInt8 ∉ (scan pattern buf).2
  length_le : (scan pattern buf).2.length ≤ buf.length

theorem scanned_of_not_mem (pattern : List UInt8) {buf rest : List UInt8} {ls : List Line}
    (h : buf ++ rest = contents ls) (hbuf : '\n'.toUInt8 ∉ buf) : Scanned pattern buf rest ls := by
  refine ⟨⟨[], ls, rfl, ?_⟩, ?_, ?_⟩ <;> rw [scan_of_not_mem pattern hbuf]
  · exact ⟨rfl, h, nofun⟩
  · exact hbuf

theorem scanned (pattern : List UInt8) {buf rest : List UInt8} {ls : List Line}
    (h : buf ++ rest = contents ls) : Scanned pattern buf rest ls := by
  induction ls generalizing buf with
  | nil =>
    obtain ⟨rfl, rfl⟩ := List.append_eq_nil_iff.mp h
    exact scanned_of_not_mem pattern rfl List.not_mem_nil
  | cons l ls ih =>
    by_cases hbuf : '\n'.toUInt8 ∈ buf
    · -- the first line is in the buffer with its newline
      obtain ⟨u, hl, -⟩ | ⟨u, rfl, hu⟩ := List.append_eq_append_iff.mp (h.trans (contents_cons l ls))
      · exact absurd (hl ▸ List.mem_append_left u hbuf) l.noNewline
      · cases u with
        | nil =>
          rw [List.append_nil] at hbuf
          exact absurd hbuf l.noNewline
        | cons d p =>
          obtain ⟨rfl, hp⟩ := List.cons.inj hu
          obtain ⟨⟨done, todo, rfl, hout, hrest, hdone⟩, hno, hle⟩ := ih hp.symm
          have hbuflen : (l.bytes ++ '\n'.toUInt8 :: p).length = l.text.length + p.length := by
            rw [Line.text, List.length_append, List.length_append, List.length_cons,
              List.length_singleton]
            omega
          refine ⟨⟨l :: done, todo, rfl, ?_, ?_, ?_⟩, ?_, ?_⟩
          · rw [scan_line, hout, ← matching_append]
            rfl
          · rw [scan_line]
            exact hrest
          · rw [hbuflen, List.forall_mem_cons]
            exact ⟨Nat.le_add_right _ _, fun m hm => (hdone m hm).trans (Nat.le_add_left _ _)⟩
          · rw [scan_line]
            exact hno
          · rw [scan_line, hbuflen]
            exact hle.trans (Nat.le_add_left _ _)
    · exact scanned_of_not_mem pattern h hbuf

/-- The loop of `grep` writes the lines that match, up to the first one that does not fit.  The
induction is on what is left of the file; what is kept is the beginning of a line. -/
theorem grepFrom_eq (pattern : List UInt8) (answer : Nat → Nat) {i : Nat} {kept file : List UInt8}
    {ls : List Line} (h : kept ++ file = contents ls) (hno : '\n'.toUInt8 ∉ kept)
    (hlen : kept.length < bufSize) :
    grepFrom pattern answer i kept file = matching pattern (ls.takeWhile fun l => l.Fits) := by
  induction hn : file.length using Nat.strong_induction_on generalizing i kept file ls with
  | _ n ih =>
    rw [grepFrom]
    have hfile := read_append file (bufSize - kept.length - 1) (answer i)
    have hsize := length_read_le file (bufSize - kept.length - 1) (answer i)
    split
    · rename_i hnil
      cases ls with
      | nil => rfl
      | cons l ls =>
        -- the file cannot have ended inside a line, so the buffer is full
        have hlong : bufSize ≤ l.bytes.length + 1 := by
          have hinit := (initial_of_append_eq hno h).length_le
          rcases read_eq_nil hnil with h0 | rfl
          · omega
          · rw [List.append_nil] at h
            refine absurd ?_ hno
            rw [h, contents_cons]
            exact List.mem_append_right _ List.mem_cons_self
        have hfit : ¬ l.Fits := by
          rw [Line.Fits, Line.text, List.length_append, List.length_singleton]
          omega
        rw [List.takeWhile_cons_of_neg (by simpa using hfit)]
        rfl
    · rename_i hne
      have hbuf : (kept ++ (read file (bufSize - kept.length - 1) (answer i)).1).length <
          bufSize := by
        rw [List.length_append]
        omega
      obtain ⟨⟨done, todo, rfl, hout, hrest, hdone⟩, hnew, hle⟩ :=
        scanned pattern ((List.append_assoc kept _ _).trans ((congrArg (kept ++ ·) hfile).trans h))
      have hrec := ih _ (hn ▸ length_read_lt hne) (i := i + 1) hrest hnew (hle.trans_lt hbuf) rfl
      have hfits : ∀ l ∈ done, decide l.Fits = true := fun l hl =>
        decide_eq_true ((hdone l hl).trans_lt hbuf)
      dsimp only
      rw [hout, hrec, List.takeWhile_append_of_pos hfits, matching_append]

/-- However `read` splits the file, `grep` writes the matching lines in front of the first line that
does not fit in the buffer. -/
theorem grep_eq (pattern : List UInt8) (answer : Nat → Nat) (ls : List Line) :
    grep pattern answer (contents ls) = matching pattern (ls.takeWhile fun l => l.Fits) :=
  grepFrom_eq pattern answer rfl List.not_mem_nil (by decide)

/-- `grep` writes exactly the lines that match if and only if none of them is, or comes after, a line
that does not fit in the buffer. -/
theorem grep_complete_iff (pattern : List UInt8) (answer : Nat → Nat) (ls : List Line) :
    grep pattern answer (contents ls) = matching pattern ls ↔
      matching pattern (ls.dropWhile fun l => l.Fits) = [] := by
  have hsplit := matching_append pattern (ls.takeWhile fun l => l.Fits) (ls.dropWhile fun l => l.Fits)
  rw [List.takeWhile_append_dropWhile] at hsplit
  rw [grep_eq, hsplit, List.self_eq_append_right]

def longLine : Line where
  bytes := List.replicate 1023 'a'.toUInt8
  noNewline := fun h => absurd (List.eq_of_mem_replicate h) (by decide)
  noNul := fun h => absurd (List.eq_of_mem_replicate h) (by decide)

/-- The empty pattern matches every line, but `grep` does not write this one. -/
theorem grep_incomplete :
    ¬ ∀ (pattern : List UInt8) (answer : Nat → Nat) (ls : List Line),
      grep pattern answer (contents ls) = matching pattern ls := by
  intro hall
  have h := hall [] (fun _ => 0) [longLine]
  have hfit : ¬ longLine.Fits := by
    have hlen : longLine.bytes.length = 1023 := List.length_replicate
    rw [Line.Fits, Line.text, List.length_append, hlen]
    decide
  have hmatch : match' [] longLine.bytes = true := by
    cases longLine.bytes <;> rfl
  rw [grep_eq, List.takeWhile_cons_of_neg (by simpa using hfit)] at h
  simp [matching, hmatch] at h

end Xv6.Grep
