import Xv6.Sh.Grammar
import Mathlib.Data.List.TakeWhile

/-!
# `gettoken` and `peek` read the tokens

`At buf s ts` says that `ts` are the tokens of the line from index `s` on.  `wp_gettoken` and `wp_peek`
are the only things that the parser needs to know about characters.
-/

namespace Xv6.Sh

open Prog

variable {buf l : List UInt8} {s : Nat} {ts : List Tok} {c : UInt8}

/-! ## Bytes -/

theorem line_initial (buf : List UInt8) : line buf <+: buf := List.takeWhile_prefix _

theorem ne_zero_of_mem_line (h : c ∈ line buf) : c ≠ 0 := by
  simpa using List.mem_takeWhile_imp h

theorem drop_line (h : s < (line buf).length) :
    (line buf).drop s = byte buf s :: (line buf).drop (s + 1) := by
  have hlt : s < buf.length := h.trans_le (line_initial buf).length_le
  rw [List.drop_eq_getElem_cons h, (line_initial buf).getElem h, byte, List.getD_eq_getElem?_getD,
    List.getElem?_eq_getElem hlt, Option.getD_some]

theorem byte_ne_zero (h : s < (line buf).length) : byte buf s ≠ 0 := by
  have hmem : byte buf s ∈ (line buf).drop s := by
    rw [drop_line h]
    exact List.mem_cons_self
  exact ne_zero_of_mem_line (List.mem_of_mem_drop hmem)

theorem byte_end (buf : List UInt8) : byte buf (line buf).length = 0 := by
  induction buf with
  | nil => rfl
  | cons c buf ih =>
    by_cases hc : c = 0
    · subst hc
      rfl
    · have hline : line (c :: buf) = c :: line buf := List.takeWhile_cons_of_pos (by simpa using hc)
      rw [hline, List.length_cons]
      exact ih

theorem drop_length_takeWhile (p : UInt8 → Bool) (l : List UInt8) :
    l.drop (l.takeWhile p).length = l.dropWhile p := by
  induction l with
  | nil => rfl
  | cons c l ih =>
    rw [List.takeWhile_cons, List.dropWhile_cons]
    split
    · exact ih
    · rfl

section

variable (p : UInt8 → Bool) (h : s ≤ (line buf).length)
include p h

theorem scan_eq :
    scan p buf ((line buf).length - s) s = s + (((line buf).drop s).takeWhile p).length := by
  generalize hn : (line buf).length - s = n
  induction n generalizing s with
  | zero => rw [scan, List.drop_eq_nil_of_le (by omega)]; rfl
  | succ n ih =>
    rw [scan, drop_line (by omega), List.takeWhile_cons]
    split
    · rw [ih (by omega) (by omega), List.length_cons]
      omega
    · rfl

theorem scan_le : scan p buf ((line buf).length - s) s ≤ (line buf).length := by
  rw [scan_eq p h]
  have := (List.takeWhile_prefix (l := (line buf).drop s) p).length_le
  rw [List.length_drop] at this
  omega

theorem drop_scan :
    (line buf).drop (scan p buf ((line buf).length - s) s) = ((line buf).drop s).dropWhile p := by
  rw [scan_eq p h, ← List.drop_drop, drop_length_takeWhile]

end

/-! ## Tokens -/

@[simp] theorem tokens_nil : tokens [] = [] := by rw [tokens]

theorem tokens_space (h : strchr whitespace c = true) : tokens (c :: l) = tokens l := by
  rw [tokens, if_pos h]

theorem tokens_dropWhile (l : List UInt8) :
    tokens (l.dropWhile (strchr whitespace)) = tokens l := by
  induction l with
  | nil => rfl
  | cons c l ih =>
    rw [List.dropWhile_cons]
    split
    · rw [ih, tokens_space ‹_›]
    · rfl

theorem Sym.ofByte_eq_none : Sym.ofByte c = none ↔ strchr symbols c = false := by
  have hsymbols : symbols = ['<'.toUInt8, '|'.toUInt8, '>'.toUInt8, '&'.toUInt8, ';'.toUInt8,
      '('.toUInt8, ')'.toUInt8] := rfl
  rw [Sym.ofByte, strchr, hsymbols]
  split_ifs <;> simp_all

def Sym.byte : Sym → UInt8
  | .bar => '|'.toUInt8
  | .lparen => '('.toUInt8
  | .rparen => ')'.toUInt8
  | .semi => ';'.toUInt8
  | .amp => '&'.toUInt8
  | .lt => '<'.toUInt8
  | .gt | .append => '>'.toUInt8

theorem Sym.byte_of_ofByte {k : Sym} (h : Sym.ofByte c = some k) : k.byte = c := by
  rw [Sym.ofByte] at h
  split_ifs at h with hc hc hc hc hc hc hc <;> cases h <;> exact hc.symm

/-- The tokens of the line from index `s` on are `ts`. -/
structure At (buf : List UInt8) (s : Nat) (ts : List Tok) : Prop where
  le : s ≤ (line buf).length
  tokens : tokens ((line buf).drop s) = ts

/-- Moreover, there is no whitespace at `s`. -/
structure Fresh (buf : List UInt8) (s : Nat) (ts : List Tok) : Prop extends At buf s ts where
  head : s < (line buf).length → strchr whitespace (byte buf s) = false

theorem At.skip (h : At buf s ts) : Fresh buf (skip buf (line buf).length s) ts := by
  refine ⟨⟨scan_le _ h.le, ?_⟩, fun hlt => ?_⟩
  · rw [Sh.skip, drop_scan _ h.le, tokens_dropWhile, h.tokens]
  · have hdrop := drop_scan (strchr whitespace) h.le
    rw [Sh.skip] at hlt ⊢
    rw [drop_line hlt] at hdrop
    have := List.head?_dropWhile_not (strchr whitespace) ((line buf).drop s)
    rw [← hdrop] at this
    simpa using this

def text (buf : List UInt8) (w : Span) : List UInt8 := ((line buf).drop w.q).takeWhile wordByte

def Whole (buf : List UInt8) (w : Span) : Prop := w.e = w.q + (text buf w).length

/-- What `gettoken` returns for a token. -/
def Scanned (buf : List UInt8) : Tok → Ret → Span → Prop
  | .sym k, ret, _ => ret = .sym k
  | .word x, ret, w => ret = .word ∧ text buf w = x ∧ Whole buf w

/-- How a byte and the token that it begins belong together. -/
def Begins (c : UInt8) : Tok → Prop
  | .sym k => k.byte = c
  | .word _ => Sym.ofByte c = none

theorem Fresh.end (h : Fresh buf s ts) (hs : ¬s < (line buf).length) :
    s = (line buf).length ∧ ts = [] := by
  have hs' : s = (line buf).length := Nat.le_antisymm h.le (Nat.not_lt.mp hs)
  refine ⟨hs', ?_⟩
  rw [← h.tokens, hs', List.drop_length, tokens_nil]

theorem head_drop_eq (hs : s < (line buf).length) (hc : c ≠ 0) :
    ((line buf).drop (s + 1)).head? = some c ↔ byte buf (s + 1) = c := by
  by_cases hlt : s + 1 < (line buf).length
  · rw [drop_line hlt, List.head?_cons, Option.some.injEq]
  · have hend : s + 1 = (line buf).length := by omega
    rw [hend, List.drop_length, byte_end]
    exact ⟨nofun, fun h => absurd h.symm hc⟩

theorem Fresh.switch (h : Fresh buf s ts) (hs : s < (line buf).length) :
    ∃ t us, ts = t :: us ∧ Begins (byte buf s) t ∧ At buf (switch buf (line buf).length s).2 us ∧
      Scanned buf t (switch buf (line buf).length s).1 ⟨s, (switch buf (line buf).length s).2⟩ := by
  have htokens := h.tokens
  rw [drop_line hs, Sh.tokens, if_neg (by rw [h.head hs]; exact Bool.false_ne_true)] at htokens
  simp only [head_drop_eq hs (show '>'.toUInt8 ≠ 0 by decide)] at htokens
  rw [Sh.switch, if_neg (byte_ne_zero hs)]
  by_cases happend : byte buf s = '>'.toUInt8 ∧ byte buf (s + 1) = '>'.toUInt8
  · -- `>>`
    have hs1 : s + 1 < (line buf).length := by
      by_contra hs1
      have hend : s + 1 = (line buf).length := by omega
      have hbyte := happend.2
      rw [hend, byte_end] at hbyte
      exact absurd hbyte (by decide)
    rw [if_pos happend, List.tail_drop] at htokens
    rw [happend.1]
    simp only [show Sym.ofByte '>'.toUInt8 = some .gt from rfl]
    rw [if_pos happend.2]
    exact ⟨.sym .append, _, htokens.symm, rfl, ⟨hs1, rfl⟩, rfl⟩
  · rw [if_neg happend] at htokens
    cases hk : Sym.ofByte (byte buf s) with
    | none =>
      rw [hk] at htokens
      have hword : wordByte (byte buf s) = true := by
        rw [wordByte, h.head hs, Sym.ofByte_eq_none.mp hk]
        rfl
      have hle : s ≤ (line buf).length := hs.le
      refine ⟨_, _, htokens.symm, hk, ⟨scan_le _ hle, ?_⟩, rfl, ?_, ?_⟩
      · show Sh.tokens ((line buf).drop (scan wordByte buf _ s)) = _
        rw [drop_scan _ hle, drop_line hs, List.dropWhile_cons_of_pos hword]
      · rw [text, drop_line hs, List.takeWhile_cons_of_pos hword]
      · exact scan_eq _ hle
    | some k =>
      rw [hk] at htokens
      have hnext : At buf (s + 1) (Sh.tokens ((line buf).drop (s + 1))) := ⟨hs, rfl⟩
      cases k with
      | gt =>
        have hgt := Sym.byte_of_ofByte hk
        dsimp only
        rw [if_neg fun hb => happend ⟨hgt.symm, hb⟩]
        exact ⟨.sym .gt, _, htokens.symm, hgt, hnext, rfl⟩
      | bar => exact ⟨.sym .bar, _, htokens.symm, Sym.byte_of_ofByte hk, hnext, rfl⟩
      | lparen => exact ⟨.sym .lparen, _, htokens.symm, Sym.byte_of_ofByte hk, hnext, rfl⟩
      | rparen => exact ⟨.sym .rparen, _, htokens.symm, Sym.byte_of_ofByte hk, hnext, rfl⟩
      | semi => exact ⟨.sym .semi, _, htokens.symm, Sym.byte_of_ofByte hk, hnext, rfl⟩
      | amp => exact ⟨.sym .amp, _, htokens.symm, Sym.byte_of_ofByte hk, hnext, rfl⟩
      | lt => exact ⟨.sym .lt, _, htokens.symm, Sym.byte_of_ofByte hk, hnext, rfl⟩
      | append => exact ⟨.sym .append, _, htokens.symm, Sym.byte_of_ofByte hk, hnext, rfl⟩

/-! ## The two functions -/

/-- The first token is a symbol that begins with one of the bytes. -/
def starts (toks : List UInt8) : List Tok → Bool
  | .sym k :: _ => strchr toks k.byte
  | _ => false

theorem wp_peek {toks : List UInt8} {Q : Bool → Nat → Prop} {E : Err → Nat → Prop} (h : At buf s ts)
    (htoks : toks ⊆ symbols) (hQ : ∀ s', At buf s' ts → Q (starts toks ts) s') :
    wp (peek buf (line buf).length toks) Q E s := by
  have hfresh := h.skip
  simp only [peek, wp_bind, wp_get, wp_set, wp_pure]
  suffices heq : (byte buf (skip buf (line buf).length s) != 0 &&
      strchr toks (byte buf (skip buf (line buf).length s))) = starts toks ts by
    rw [heq]
    exact hQ _ hfresh.toAt
  by_cases hlt : skip buf (line buf).length s < (line buf).length
  · obtain ⟨t, us, rfl, hbegins, -, -⟩ := hfresh.switch hlt
    rw [bne_iff_ne.mpr (byte_ne_zero hlt), Bool.true_and]
    cases t with
    | sym k => rw [starts, hbegins]
    | word x =>
      have hsym := Sym.ofByte_eq_none.mp hbegins
      show strchr toks _ = false
      rw [strchr, List.contains_eq_mem, decide_eq_false_iff_not]
      intro hmem
      rw [strchr, List.contains_eq_mem, decide_eq_false_iff_not] at hsym
      exact hsym (htoks hmem)
  · obtain ⟨heq, rfl⟩ := hfresh.end hlt
    rw [heq, byte_end]
    rfl

theorem wp_gettoken_nil {Q : Ret × Span → Nat → Prop} {E : Err → Nat → Prop} (h : At buf s [])
    (hQ : ∀ s' w, At buf s' [] → Q (.nul, w) s') : wp (gettoken buf (line buf).length) Q E s := by
  have hfresh := h.skip
  have hlt : ¬skip buf (line buf).length s < (line buf).length := by
    intro hlt
    obtain ⟨t, us, hcons, -⟩ := hfresh.switch hlt
    cases hcons
  have hswitch : switch buf (line buf).length (skip buf (line buf).length s) =
      (.nul, skip buf (line buf).length s) := by
    rw [switch, (hfresh.end hlt).1, byte_end, if_pos rfl]
  simp only [gettoken, wp_bind, wp_get, hswitch, wp_set, wp_pure]
  exact hQ _ _ hfresh.toAt.skip.toAt

theorem wp_gettoken {t : Tok} {Q : Ret × Span → Nat → Prop} {E : Err → Nat → Prop}
    (h : At buf s (t :: ts)) (hQ : ∀ ret w s', At buf s' ts → Scanned buf t ret w → Q (ret, w) s') :
    wp (gettoken buf (line buf).length) Q E s := by
  have hfresh := h.skip
  have hlt : skip buf (line buf).length s < (line buf).length := by
    by_contra hlt
    cases (hfresh.end hlt).2
  obtain ⟨t', us, hcons, -, hat, hscan⟩ := hfresh.switch hlt
  cases hcons
  simp only [gettoken, wp_bind, wp_get, wp_set, wp_pure]
  exact hQ _ _ _ hat.skip.toAt hscan

end Xv6.Sh
