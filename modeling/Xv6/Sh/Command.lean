import Xv6.Sh.Correct

/-!
# The commands that are run

`parsecmd` as a whole.  After parsing, `nulterminate` overwrites the byte behind every word.  A word is
a longest run of bytes that may occur in words, so that byte is not in any other word, and every string
in the command reads as its token.
-/

namespace Xv6.Sh

open Prog

variable {buf : List UInt8} {s n : Nat} {ts : List Tok} {ws : List Span}

/-! ## Terminating the strings -/

/-- The string that a pointer into the line points to. -/
def string (buf : List UInt8) (q : Nat) : List UInt8 := (buf.drop q).takeWhile (· ≠ 0)

def Cmd.strings (buf : List UInt8) (c : Cmd Span) : Cmd (List UInt8) :=
  c.map fun w => string buf w.q

def terminate (ws : List Span) (buf : List UInt8) : List UInt8 :=
  ws.foldl (fun buf w => buf.set w.e 0) buf

theorem nulterminate_eq (c : Cmd Span) (buf : List UInt8) :
    nulterminate c buf = terminate c.words buf := by
  induction c generalizing buf with
  | exec argv => rfl
  | redir cmd file mode fd ih =>
    rw [nulterminate, ih, Cmd.words, terminate, terminate, List.foldl_append]
    rfl
  | pipe left right ihl ihr | list left right ihl ihr =>
    rw [nulterminate, ihl, ihr, Cmd.words, terminate, terminate, terminate, List.foldl_append]
  | back cmd ih => exact ih buf

theorem terminate_cons (w : Span) (ws : List Span) (buf : List UInt8) :
    terminate (w :: ws) buf = terminate ws (buf.set w.e 0) := rfl

theorem getElem?_terminate_of_ne {i : Nat} (h : ∀ w ∈ ws, w.e ≠ i) :
    (terminate ws buf)[i]? = buf[i]? := by
  induction ws generalizing buf with
  | nil => rfl
  | cons w ws ih =>
    rw [terminate_cons, ih fun v hv => h v (List.mem_cons_of_mem w hv),
      List.getElem?_set_ne (h w List.mem_cons_self)]

def Ends (buf : List UInt8) (i : Nat) : Prop := buf[i]?.getD 0 = 0

theorem Ends.terminate {i : Nat} (h : Ends buf i) (ws : List Span) : Ends (terminate ws buf) i := by
  induction ws generalizing buf with
  | nil => exact h
  | cons w ws ih =>
    refine ih ?_
    rw [Ends, List.getElem?_set]
    split
    · split <;> rfl
    · exact h

theorem ends_terminate {w : Span} (buf : List UInt8) (h : w ∈ ws) : Ends (terminate ws buf) w.e := by
  induction ws generalizing buf with
  | nil => cases h
  | cons v ws ih =>
    rcases List.mem_cons.mp h with rfl | h
    · refine Ends.terminate ?_ ws
      rw [Ends, List.getElem?_set_self']
      cases buf[w.e]? <;> rfl
    · exact ih _ h

theorem takeWhile_eq_of_ends {b x : List UInt8} (hx : ∀ c ∈ x, c ≠ 0)
    (hb : ∀ i < x.length, b[i]? = x[i]?) (hend : Ends b x.length) : b.takeWhile (· ≠ 0) = x := by
  induction x generalizing b with
  | nil =>
    cases b with
    | nil => rfl
    | cons c b => exact List.takeWhile_cons_of_neg (by simpa [Ends] using hend)
  | cons c x ih =>
    cases b with
    | nil => cases hb 0 (by simp)
    | cons c' b =>
      obtain rfl : c' = c := Option.some.inj (hb 0 (by simp))
      rw [List.takeWhile_cons_of_pos (by simpa using hx c' List.mem_cons_self)]
      congr 1
      refine ih (fun d hd => hx d (List.mem_cons_of_mem _ hd)) (fun i hi => ?_) hend
      exact hb (i + 1) (by simpa using hi)

theorem Whole.not_wordByte {w : Span} {c : UInt8} (h : Whole buf w) (hc : (line buf)[w.e]? = some c) :
    wordByte c = false := by
  have hdrop : ((line buf).drop w.q).dropWhile wordByte = (line buf).drop w.e := by
    rw [← drop_length_takeWhile, List.drop_drop, h, text]
  have hhead := List.head?_dropWhile_not wordByte ((line buf).drop w.q)
  rw [hdrop, List.head?_drop, hc] at hhead
  simpa using hhead

theorem getElem?_of_initial {l l' : List UInt8} {i : Nat} (h : l <+: l') (hi : i < l.length) :
    l'[i]? = l[i]? := by
  rw [List.prefix_iff_getElem?.mp h i hi, List.getElem?_eq_getElem hi]

theorem text_initial (buf : List UInt8) (w : Span) : text buf w <+: (line buf).drop w.q :=
  List.takeWhile_prefix _

/-- **Every string reads as its word** when all words are terminated. -/
theorem string_terminate {w : Span} (h : ∀ w ∈ ws, Whole buf w) (hw : w ∈ ws) :
    string (terminate ws buf) w.q = text buf w := by
  have hmem : ∀ c ∈ text buf w, c ≠ 0 := by
    intro c hc
    exact ne_zero_of_mem_line (List.mem_of_mem_drop ((text_initial buf w).subset hc))
  refine takeWhile_eq_of_ends hmem (fun i hi => ?_) ?_
  · have hline : (line buf)[w.q + i]? = (text buf w)[i]? := by
      rw [← List.getElem?_drop]
      exact getElem?_of_initial (text_initial buf w) hi
    have hlt : w.q + i < (line buf).length := by
      have := (text_initial buf w).length_le
      rw [List.length_drop] at this
      omega
    rw [List.getElem?_drop, getElem?_terminate_of_ne fun v hv he => ?_]
    · rw [getElem?_of_initial (line_initial buf) hlt, hline]
    · -- the byte behind `v` would be in `w`
      rw [List.getElem?_eq_getElem hi, ← he] at hline
      have hword : wordByte (text buf w)[i] = true := List.mem_takeWhile_imp (List.getElem_mem hi)
      rw [(h v hv).not_wordByte hline] at hword
      cases hword
  · have hend := ends_terminate buf hw
    rw [Ends, h w hw] at hend
    rwa [Ends, List.getElem?_drop]

theorem Cmd.map_congr {V W : Type} {f g : V → W} {c : Cmd V} (h : ∀ w ∈ c.words, f w = g w) :
    c.map f = c.map g := by
  induction c with
  | exec argv => exact congrArg Cmd.exec (List.map_congr_left h)
  | redir cmd file mode fd ih =>
    rw [map, map, ih fun w hw => h w (List.mem_append_left _ hw),
      h file (List.mem_append_right _ (List.mem_singleton_self _))]
  | pipe left right ihl ihr | list left right ihl ihr =>
    rw [map, map, ihl fun w hw => h w (List.mem_append_left _ hw),
      ihr fun w hw => h w (List.mem_append_right _ hw)]
  | back cmd ih => rw [map, map, ih h]

theorem Reads.strings {c : Cmd Span} {d : Cmd (List UInt8)} (h : Reads buf c d) :
    c.strings (nulterminate c buf) = d := by
  rw [Cmd.strings, ← h.eq, nulterminate_eq]
  exact Cmd.map_congr fun w hw => string_terminate h.whole hw

/-! ## The whole line -/

theorem tokens_length_le (l : List UInt8) : (tokens l).length ≤ l.length := by
  fun_induction tokens l with
  | case1 => rfl
  | case2 c l _ ih => exact ih.trans (Nat.le_succ _)
  | case3 c l _ _ ih =>
    rw [List.length_tail] at ih
    simp only [List.length_cons]
    omega
  | case4 c l _ _ k _ ih => exact Nat.succ_le_succ ih
  | case5 c l _ _ _ ih =>
    have := (List.dropWhile_suffix wordByte (l := l)).length_le
    simp only [List.length_cons]
    omega

theorem wp_leftovers {m m' : M (Cmd Span)} {Q : Cmd Span → Nat → Prop} {E : Err → Nat → Prop}
    (h : At buf s ts) (hnil : ts = [] → wp m' Q E (line buf).length)
    (hcons : ∀ s', ts ≠ [] → wp m Q E s') :
    wp (do
      let _ ← peek buf (line buf).length []
      if (← get) ≠ (line buf).length then m else m') Q E s := by
  have hfresh := h.skip
  simp only [peek, wp_bind, wp_get, wp_set, wp_pure]
  by_cases hlt : skip buf (line buf).length s < (line buf).length
  · rw [if_pos hlt.ne]
    obtain ⟨t, us, rfl, -⟩ := hfresh.switch hlt
    exact hcons _ (List.cons_ne_nil t us)
  · obtain ⟨heq, hts⟩ := hfresh.end hlt
    rw [heq, if_neg (not_not.mpr rfl)]
    exact hnil hts

/-- What `parsecmd` may return for a sequence of tokens. -/
def Parses (ts : List Tok) : Except Err (Cmd Span × List UInt8) → Prop
  | .ok (c, buf) => Derives .line ts (c.strings buf) ∧ ∀ d, Derives .line ts d → d = c.strings buf
  | .error e => Panics e ∧ ∀ d, ¬Derives .line ts d

theorem at_zero (buf : List UInt8) : At buf 0 (tokens (line buf)) := ⟨Nat.zero_le _, rfl⟩

theorem sound_all (hn : 4 * (tokens (line buf)).length + 4 ≤ n) :
    wp (parseall buf (line buf).length n)
      (fun c _ => ∃ d, Derives .line (tokens (line buf)) d ∧ Reads buf c d) (fun e _ => Panics e) 0 := by
  rw [parseall, wp_bind]
  refine (sound n .line 0 _ (at_zero buf) hn).mono_ok ?_
  rintro c s ⟨us, vs, d, hts, hd, hs, hc⟩
  refine wp_leftovers hs (fun hvs => ?_) fun _ _ => show Panics _ by decide
  rw [hvs, List.append_nil] at hts
  exact ⟨d, hts ▸ hd, hc⟩

theorem complete_all {d : Cmd (List UInt8)} (hd : Derives .line (tokens (line buf)) d)
    (hn : 4 * (tokens (line buf)).length + 4 ≤ n) :
    wp (parseall buf (line buf).length n) (fun c _ => Reads buf c d) (fun _ _ => False) 0 := by
  rw [parseall, wp_bind]
  refine (complete hd [] 0 n (.inr rfl) ?_ ?_).mono_ok ?_
  · rw [List.append_nil]
    exact at_zero buf
  · rw [List.append_nil]
    exact hn
  · rintro c s ⟨hs, hc⟩
    exact wp_leftovers hs (fun _ => hc) fun _ hne => absurd rfl hne

/-- **The parser accepts exactly the grammar**, and the strings of the command that it returns are the
tokens. -/
theorem parsecmd_parses (buf : List UInt8) (n : Nat) (hn : 4 * (line buf).length + 4 ≤ n) :
    Parses (tokens (line buf)) (parsecmd n buf) := by
  have hn' : 4 * (tokens (line buf)).length + 4 ≤ n := by
    have := tokens_length_le (line buf)
    omega
  have hsound := sound_all hn'
  have hcomplete := fun d hd => complete_all (d := d) hd hn'
  rw [parsecmd]
  cases hres : parseall buf (line buf).length n 0 with
  | ok c t =>
    rw [wp_of_ok hres] at hsound
    obtain ⟨d, hd, hc⟩ := hsound
    refine ⟨by rwa [hc.strings], fun d' hd' => ?_⟩
    have hc' := hcomplete d' hd'
    rw [wp_of_ok hres] at hc'
    exact hc'.strings.symm
  | error e t =>
    rw [wp_of_error hres] at hsound
    refine ⟨hsound, fun d hd => ?_⟩
    have hc := hcomplete d hd
    rw [wp_of_error hres] at hc
    exact hc

/-- `(a >b) | c`, with a newline. -/
def smallLine : List UInt8 := "(a >b) | c\n".toList.map Char.toUInt8

theorem parsecmd_parses_small : parsecmd 48 smallLine = .ok
      (.pipe (.redir (.exec [⟨1, 2⟩]) ⟨4, 5⟩ 0x601 1) (.exec [⟨9, 10⟩]),
        [40, 97, 0, 62, 98, 0, 32, 124, 32, 99, 0]) ∧
    Parses (tokens (line smallLine)) (parsecmd 48 smallLine) :=
  ⟨by decide +kernel, parsecmd_parses smallLine 48 (by decide)⟩

end Xv6.Sh
