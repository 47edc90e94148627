import Xv6.Sh.Lexer

/-!
# The parser accepts the grammar

First, what each function does when the next tokens are known.  From these rules follow the two
halves, `sound` and `complete`, the second provided that what follows cannot be taken for a
continuation.  Both are for all amounts of fuel from a bound on.
-/

namespace Xv6.Sh

open Prog
open List (append_assoc append_nil cons_append length_append length_cons mem_append)

variable {buf : List UInt8} {s n : Nat} {ts us vs : List Tok} {c : Cmd Span} {d : Cmd (List UInt8)}
  {Q : Cmd Span → Nat → Prop} {E : Err → Nat → Prop}

/-! ## Commands in the line and commands with strings -/

def Cmd.map {V W : Type} (f : V → W) : Cmd V → Cmd W
  | .exec argv => .exec (argv.map f)
  | .redir cmd file mode fd => .redir (cmd.map f) (f file) mode fd
  | .pipe left right => .pipe (left.map f) (right.map f)
  | .list left right => .list (left.map f) (right.map f)
  | .back cmd => .back (cmd.map f)

/-- The words of a command, in the order of `nulterminate`. -/
def Cmd.words {W : Type} : Cmd W → List W
  | .exec argv => argv
  | .redir cmd file _ _ => cmd.words ++ [file]
  | .pipe left right => left.words ++ right.words
  | .list left right => left.words ++ right.words
  | .back cmd => cmd.words

theorem Cmd.map_addArg {V W : Type} (f : V → W) (v : V) (c : Cmd V) :
    (c.addArg v).map f = (c.map f).addArg (f v) := by
  induction c with
  | exec argv => simp [addArg, map]
  | redir cmd file mode fd ih => rw [addArg, map, ih]; rfl
  | pipe left right _ _ => rfl
  | list left right _ _ => rfl
  | back cmd _ => rfl

theorem Cmd.mem_words_addArg {W : Type} {v w : W} {c : Cmd W} (h : w ∈ (c.addArg v).words) :
    w = v ∨ w ∈ c.words := by
  induction c with
  | exec argv => simpa [addArg, words, or_comm] using h
  | redir cmd file mode fd ih =>
    rcases mem_append.mp h with h | h
    · exact (ih h).imp_right (List.mem_append_left _)
    · exact .inr (List.mem_append_right _ h)
  | pipe left right _ _ => exact .inr h
  | list left right _ _ => exact .inr h
  | back cmd _ => exact .inr h

theorem Cmd.redirs_append (d : Cmd (List UInt8)) (rs rs' : List Redirection) :
    d.redirs (rs ++ rs') = (d.redirs rs).redirs rs' := List.foldl_append

theorem Cmd.addArg_redirs (w : List UInt8) (d : Cmd (List UInt8)) (rs : List Redirection) :
    (d.redirs rs).addArg w = (d.addArg w).redirs rs := by
  induction rs generalizing d with
  | nil => rfl
  | cons r rs ih => exact ih _

/-- `c` stands for `d` in the line. -/
structure Reads (buf : List UInt8) (c : Cmd Span) (d : Cmd (List UInt8)) : Prop where
  eq : c.map (text buf) = d
  whole : ∀ w ∈ c.words, Whole buf w

theorem reads_exec : Reads buf (.exec []) (.exec []) := ⟨rfl, nofun⟩

section

variable (h : Reads buf c d)
include h

theorem Reads.addArg {w : Span} (hw : Whole buf w) :
    Reads buf (c.addArg w) (d.addArg (text buf w)) := by
  refine ⟨?_, fun v hv => ?_⟩
  · rw [Cmd.map_addArg, h.eq]
  · rcases Cmd.mem_words_addArg hv with rfl | hv
    · exact hw
    · exact h.whole v hv

theorem Reads.redir {w : Span} {r : Redirection} (hw : Whole buf w) (hr : text buf w = r.file) :
    Reads buf (.redir c w r.mode r.fd) (d.redirs [r]) := by
  refine ⟨?_, fun v hv => ?_⟩
  · rw [Cmd.map, h.eq, hr]
    rfl
  · rcases mem_append.mp hv with hv | hv
    · exact h.whole v hv
    · rw [List.mem_singleton.mp hv]
      exact hw

theorem Reads.back : Reads buf (.back c) (.back d) :=
  ⟨congrArg Cmd.back h.eq, h.whole⟩

theorem Reads.pipe {c' : Cmd Span} {d' : Cmd (List UInt8)}
    (h' : Reads buf c' d') : Reads buf (.pipe c c') (.pipe d d') :=
  ⟨by rw [Cmd.map, h.eq, h'.eq], fun w hw => (mem_append.mp hw).elim (h.whole w) (h'.whole w)⟩

theorem Reads.list {c' : Cmd Span} {d' : Cmd (List UInt8)}
    (h' : Reads buf c' d') : Reads buf (.list c c') (.list d d') :=
  ⟨by rw [Cmd.map, h.eq, h'.eq], fun w hw => (mem_append.mp hw).elim (h.whole w) (h'.whole w)⟩

end

/-! ## What the functions do -/

variable {toks toks' x : List UInt8}

theorem sym_of_starts (h : starts toks ts = true) :
    ∃ k us, ts = .sym k :: us ∧ strchr toks k.byte = true := by
  cases ts with
  | nil => cases h
  | cons t us =>
    cases t with
    | word x => cases h
    | sym k => exact ⟨k, us, rfl, h⟩

theorem eq_of_starts {k : Sym} (h : starts toks ts = true)
    (htoks : ∀ j : Sym, strchr toks j.byte = true → j = k) : ∃ us, ts = .sym k :: us := by
  obtain ⟨j, us, rfl, hj⟩ := sym_of_starts h
  exact ⟨us, by rw [htoks j hj]⟩

theorem wp_option {m m' : M (Cmd Span)} (h : At buf s ts)
    (htoks : toks ⊆ symbols)
    (hyes : ∀ k us s', ts = .sym k :: us → strchr toks k.byte = true → At buf s' us → wp m Q E s')
    (hno : ∀ s', starts toks ts = false → At buf s' ts → wp m' Q E s') :
    wp (do
      if ← peek buf (line buf).length toks then
        let _ ← gettoken buf (line buf).length
        m
      else m') Q E s := by
  refine .bind (wp_peek h htoks fun s' h' => ?_)
  cases hstarts : starts toks ts with
  | false => exact hno s' hstarts h'
  | true =>
    cases ts with
    | nil => cases hstarts
    | cons t us =>
      cases t with
      | word x => cases hstarts
      | sym k =>
        rw [if_pos rfl, wp_bind]
        exact wp_gettoken h' fun _ _ t ht _ => hyes k us t rfl hstarts ht

theorem wp_parseredirs_stop (h : At buf s ts)
    (hts : starts ("<>".toList.map Char.toUInt8) ts = false) (hQ : ∀ s', At buf s' ts → Q c s') :
    wp (parseredirs buf (line buf).length (n + 1) c) Q E s := by
  rw [parseredirs, wp_bind]
  refine wp_peek h (by decide) fun s' h' => ?_
  rw [hts]
  exact hQ s' h'

theorem wp_parseredirs_step {k : Sym} {r : Redirection}
    (h : At buf s (.sym k :: .word x :: ts)) (hr : k.redirect x = some r)
    (hQ : ∀ s' w, At buf s' ts → Whole buf w → text buf w = r.file →
      wp (parseredirs buf (line buf).length n (.redir c w r.mode r.fd)) Q E s') :
    wp (parseredirs buf (line buf).length (n + 1) c) Q E s := by
  rw [parseredirs, wp_bind]
  refine wp_peek h (by decide) fun s₁ h₁ => ?_
  have hk : starts ("<>".toList.map Char.toUInt8) (.sym k :: .word x :: ts) = true := by
    cases k with
    | lt | gt | append => rfl
    | bar | lparen | rparen | semi | amp => cases hr
  rw [hk, if_pos rfl, wp_bind]
  refine wp_gettoken h₁ fun ret _ s₂ h₂ hret => ?_
  cases hret
  refine .bind (wp_gettoken h₂ fun ret w s₃ h₃ hret => ?_)
  obtain ⟨rfl, htext, hwhole⟩ := hret
  cases k with
  | lt =>
    cases hr
    exact hQ s₃ w h₃ hwhole htext
  | gt =>
    cases hr
    exact hQ s₃ w h₃ hwhole htext
  | append =>
    cases hr
    exact hQ s₃ w h₃ hwhole htext
  | bar | lparen | rparen | semi | amp => cases hr

theorem wp_parseredirs_missing {k : Sym} (h : At buf s (.sym k :: ts))
    (hk : strchr ("<>".toList.map Char.toUInt8) k.byte = true) (hts : ∀ x us, ts ≠ .word x :: us)
    (hE : ∀ s', E (.panic .missingFile) s') :
    wp (parseredirs buf (line buf).length (n + 1) c) Q E s := by
  rw [parseredirs, wp_bind]
  refine wp_peek h (by decide) fun s₁ h₁ => ?_
  have hstarts : starts ("<>".toList.map Char.toUInt8) (.sym k :: ts) = true := hk
  rw [hstarts, if_pos rfl, wp_bind]
  refine wp_gettoken h₁ fun ret _ s₂ h₂ hret => ?_
  rw [wp_bind]
  cases ts with
  | nil => exact wp_gettoken_nil h₂ fun s₃ w h₃ => hE s₃
  | cons t us =>
    cases t with
    | word x => exact absurd rfl (hts x us)
    | sym j =>
      refine wp_gettoken h₂ fun ret w s₃ h₃ hret => ?_
      cases hret
      exact hE s₃

theorem wp_parseargs_stop {argc : Nat} (h : At buf s ts)
    (hts : starts ("|)&;".toList.map Char.toUInt8) ts = true ∨ ts = [])
    (hQ : ∀ s', At buf s' ts → Q c s') :
    wp (parseargs buf (line buf).length (n + 1) argc c) Q E s := by
  rw [parseargs, wp_bind]
  refine wp_peek h (by decide) fun s' h' => ?_
  rcases hts with hts | rfl
  · rw [hts]
    exact hQ s' h'
  · show wp (gettoken buf (line buf).length >>= _) Q E s'
    exact .bind (wp_gettoken_nil h' fun s'' w h'' => hQ s'' h'')

theorem wp_parseargs_step {argc : Nat} (h : At buf s (.word x :: ts))
    (hE : maxArgs ≤ argc + 1 → ∀ s', E (.panic .tooManyArgs) s')
    (hQ : argc + 1 < maxArgs → ∀ s' w, At buf s' ts → Whole buf w → text buf w = x →
      wp (parseredirs buf (line buf).length n (c.addArg w))
        (fun c t => wp (parseargs buf (line buf).length n (argc + 1) c) Q E t) E s') :
    wp (parseargs buf (line buf).length (n + 1) argc c) Q E s := by
  rw [parseargs, wp_bind]
  refine wp_peek h (by decide) fun s₁ h₁ => ?_
  show wp (gettoken buf (line buf).length >>= _) Q E s₁
  refine .bind (wp_gettoken h₁ fun ret w s₂ h₂ hret => ?_)
  obtain ⟨rfl, htext, hwhole⟩ := hret
  by_cases hargc : argc + 1 ≥ maxArgs
  · dsimp only
    rw [if_pos hargc]
    exact hE hargc s₂
  · dsimp only
    rw [if_neg hargc, wp_bind]
    exact hQ (Nat.not_le.mp hargc) s₂ w h₂ hwhole htext

theorem wp_parseargs_bad {argc : Nat} {k : Sym} (h : At buf s (.sym k :: ts))
    (hk : strchr ("|)&;".toList.map Char.toUInt8) k.byte = false)
    (hE : ∀ s', E (.panic .malformed) s') :
    wp (parseargs buf (line buf).length (n + 1) argc c) Q E s := by
  rw [parseargs, wp_bind]
  refine wp_peek h (by decide) fun s₁ h₁ => ?_
  have hstarts : starts ("|)&;".toList.map Char.toUInt8) (.sym k :: ts) = false := hk
  rw [hstarts]
  show wp (gettoken buf (line buf).length >>= _) Q E s₁
  refine .bind (wp_gettoken h₁ fun ret w s₂ h₂ hret => ?_)
  cases hret
  exact hE s₂

theorem wp_parsebacks_stop (h : At buf s ts)
    (hts : starts ("&".toList.map Char.toUInt8) ts = false) (hQ : ∀ s', At buf s' ts → Q c s') :
    wp (parsebacks buf (line buf).length (n + 1) c) Q E s := by
  rw [parsebacks, wp_bind]
  refine wp_peek h (by decide) fun s' h' => ?_
  rw [hts]
  exact hQ s' h'

theorem wp_parsebacks_step (h : At buf s (.sym .amp :: ts))
    (hQ : ∀ s', At buf s' ts → wp (parsebacks buf (line buf).length n (.back c)) Q E s') :
    wp (parsebacks buf (line buf).length (n + 1) c) Q E s := by
  rw [parsebacks, wp_bind]
  refine wp_peek h (by decide) fun s₁ h₁ => ?_
  show wp (gettoken buf (line buf).length >>= _) Q E s₁
  exact .bind (wp_gettoken h₁ fun _ _ s₂ h₂ _ => hQ s₂ h₂)

theorem wp_parseblock (h : At buf s (.sym .lparen :: ts))
    (hQ : ∀ s', At buf s' ts → wp (parseline buf (line buf).length n) (fun c t => ∃ us, At buf t us ∧
      (∀ vs, us = .sym .rparen :: vs → ∀ t', At buf t' vs →
        wp (parseredirs buf (line buf).length n c) Q E t') ∧
      (starts (")".toList.map Char.toUInt8) us = false → ∀ t', E (.panic .missingParen) t')) E s') :
    wp (parseblock buf (line buf).length (n + 1)) Q E s := by
  rw [parseblock, wp_bind]
  refine wp_peek h (by decide) fun s₁ h₁ => ?_
  show wp (gettoken buf (line buf).length >>= _) Q E s₁
  refine .bind (wp_gettoken h₁ fun _ _ s₂ h₂ _ => ?_)
  refine .bind ((hQ s₂ h₂).mono_ok fun c s₃ ⟨us, h₃, hclose, hmissing⟩ => ?_)
  refine .bind (wp_peek h₃ (by decide) fun s₄ h₄ => ?_)
  cases hstarts : starts (")".toList.map Char.toUInt8) us with
  | false => exact hmissing hstarts s₄
  | true =>
    obtain ⟨vs, rfl⟩ := eq_of_starts hstarts (k := .rparen) fun j => by cases j <;> decide
    show wp (gettoken buf (line buf).length >>= _) Q E s₄
    exact .bind (wp_gettoken h₄ fun _ _ s₅ h₅ _ => hclose vs rfl s₅ h₅)

/-! ## What is returned is derived -/

/-- The shell panics on purpose. -/
def Panics (e : Err) : Prop := e ≠ .fuel ∧ e ≠ .panic .parseblock

instance : DecidablePred Panics := fun e => inferInstanceAs (Decidable (e ≠ .fuel ∧ e ≠ .panic .parseblock))

/-- A command has been read from the tokens `ts`. -/
def Parsed (buf : List UInt8) (k : Category) (ts : List Tok) (c : Cmd Span) (s : Nat) : Prop :=
  ∃ us vs d, ts = us ++ vs ∧ Derives k us d ∧ At buf s vs ∧ Reads buf c d

theorem sound_redirs (h : At buf s ts) (hn : ts.length < n) (hc : Reads buf c d) :
    wp (parseredirs buf (line buf).length n c) (fun c' s' => ∃ us vs rs, ts = us ++ vs ∧
      Redirs us rs ∧ At buf s' vs ∧ Reads buf c' (d.redirs rs)) (fun e _ => Panics e) s := by
  induction n generalizing s ts c d with
  | zero => omega
  | succ n ih =>
    cases hstarts : starts ("<>".toList.map Char.toUInt8) ts with
    | false =>
      exact wp_parseredirs_stop h hstarts fun s' h' => ⟨[], ts, [], rfl, .nil, h', hc⟩
    | true =>
      obtain ⟨k, us, rfl, hk⟩ := sym_of_starts hstarts
      by_cases hword : ∃ x vs, us = .word x :: vs
      · obtain ⟨x, vs, rfl⟩ := hword
        obtain ⟨r, hr, hfile⟩ : ∃ r, k.redirect x = some r ∧ r.file = x := by
          cases k with
          | lt | gt | append => exact ⟨_, rfl, rfl⟩
          | bar | lparen | rparen | semi | amp => exact absurd hk (by decide)
        refine wp_parseredirs_step h hr fun s' w h' hw htext => ?_
        refine (ih h' ?_ (hc.redir hw htext)).mono_ok ?_
        · simp only [length_cons] at hn
          omega
        · rintro c' s'' ⟨us', vs', rs, rfl, hrs, h'', hc'⟩
          exact ⟨.sym k :: .word x :: us', vs', r :: rs, rfl, .cons hr hrs, h'', hc'⟩
      · exact wp_parseredirs_missing h hk (fun x vs hus => hword ⟨x, vs, hus⟩) fun _ => by decide

/-- Further arguments have been read from the tokens `ts`, after `ws` and `rs`. -/
def ParsedArgs (buf : List UInt8) (ts : List Tok) (ws : List (List UInt8)) (rs : List Redirection)
    (c : Cmd Span) (s : Nat) : Prop :=
  ∃ us vs ws' rs', ts = us ++ vs ∧ Args us ws' rs' ∧ (ws ++ ws').length < maxArgs ∧ At buf s vs ∧
    Reads buf c (Cmd.redirs (.exec (ws ++ ws')) (rs ++ rs'))

variable {ws ws' : List (List UInt8)} {rs rs' : List Redirection}

theorem sound_args {argc : Nat} (h : At buf s ts)
    (hn : ts.length < n) (hws : ws.length = argc) (hmax : argc < maxArgs)
    (hc : Reads buf c (Cmd.redirs (.exec ws) rs)) :
    wp (parseargs buf (line buf).length n argc c) (ParsedArgs buf ts ws rs) (fun e _ => Panics e) s := by
  induction n generalizing s ts c argc ws rs with
  | zero => omega
  | succ n ih =>
    have hstop : ∀ s', At buf s' ts → ParsedArgs buf ts ws rs c s' := fun s' h' => by
      refine ⟨[], ts, [], [], rfl, .nil, ?_, h', ?_⟩
      · rwa [append_nil, hws]
      · rwa [append_nil, append_nil]
    cases ts with
    | nil => exact wp_parseargs_stop h (.inr rfl) hstop
    | cons t us =>
      cases t with
      | sym k =>
        cases hk : strchr ("|)&;".toList.map Char.toUInt8) k.byte with
        | true => exact wp_parseargs_stop h (.inl hk) hstop
        | false => exact wp_parseargs_bad h hk fun _ => by decide
      | word x =>
        rw [length_cons] at hn
        refine wp_parseargs_step h (fun _ _ => by decide) fun hlt s' w h' hw htext => ?_
        have hadd : Reads buf (c.addArg w) (Cmd.redirs (.exec (ws ++ [x])) rs) := by
          have := hc.addArg hw
          rwa [Cmd.addArg_redirs, htext] at this
        refine (sound_redirs h' (by omega) hadd).mono_ok ?_
        rintro c₁ s₁ ⟨us₁, vs₁, rs₁, rfl, hrs₁, h₁, hc₁⟩
        rw [← Cmd.redirs_append] at hc₁
        rw [length_append] at hn
        refine (ih h₁ (by omega) ?_ hlt hc₁).mono_ok ?_
        · rw [length_append, hws, List.length_singleton]
        · rintro c₂ s₂ ⟨us₂, vs₂, ws₂, rs₂, rfl, hargs, hlen, h₂, hc₂⟩
          refine ⟨.word x :: (us₁ ++ us₂), vs₂, x :: ws₂, rs₁ ++ rs₂, ?_, .cons hrs₁ hargs, ?_, h₂, ?_⟩
          · rw [cons_append, append_assoc]
          · rwa [append_assoc] at hlen
          · rwa [append_assoc, append_assoc] at hc₂

theorem Cmd.backs_back (d : Cmd (List UInt8)) (k : Nat) : (Cmd.back d).backs k = d.backs (k + 1) := by
  induction k with
  | zero => rfl
  | succ k ih => rw [backs, ih]; rfl

theorem sound_backs (h : At buf s ts) (hn : ts.length < n) (hc : Reads buf c d) :
    wp (parsebacks buf (line buf).length n c) (fun c' s' => ∃ k vs,
      ts = .replicate k (.sym .amp) ++ vs ∧ At buf s' vs ∧ Reads buf c' (d.backs k))
      (fun e _ => Panics e) s := by
  induction n generalizing s ts c d with
  | zero => omega
  | succ n ih =>
    cases hstarts : starts ("&".toList.map Char.toUInt8) ts with
    | false => exact wp_parsebacks_stop h hstarts fun s' h' => ⟨0, ts, rfl, h', hc⟩
    | true =>
      obtain ⟨us, rfl⟩ := eq_of_starts hstarts (k := .amp) fun j => by cases j <;> decide
      rw [length_cons] at hn
      refine wp_parsebacks_step h fun s' h' => ?_
      refine (ih h' (by omega) hc.back).mono_ok ?_
      rintro c' s'' ⟨k, vs, rfl, h'', hc'⟩
      exact ⟨k + 1, vs, rfl, h'', by rwa [Cmd.backs_back] at hc'⟩

def parse (buf : List UInt8) (es : Nat) : Category → Nat → M (Cmd Span)
  | .line => parseline buf es
  | .pipe => parsepipe buf es
  | .exec => parseexec buf es

def Category.fuel (m : Nat) : Category → Nat
  | .line => 4 * m + 4
  | .pipe => 4 * m + 3
  | .exec => 4 * m + 2

/-- With fuel `n`, what the parser returns is derived by the grammar. -/
def Sound (buf : List UInt8) (n : Nat) (k : Category) : Prop :=
  ∀ s ts, At buf s ts → k.fuel ts.length ≤ n →
    wp (parse buf (line buf).length k n) (Parsed buf k ts) (fun e _ => Panics e) s

theorem sound_line (hpipe : Sound buf n .pipe) (hline : Sound buf n .line) :
    Sound buf (n + 1) .line := by
  intro s ts h hn
  simp only [Category.fuel] at hn
  show wp (parseline _ _ _) _ _ _
  rw [parseline, wp_bind]
  refine (hpipe s ts h (by simp only [Category.fuel]; omega)).mono_ok ?_
  rintro c₁ s₁ ⟨us₁, vs₁, d₁, rfl, hd₁, h₁, hc₁⟩
  rw [length_append] at hn
  refine .bind ((sound_backs h₁ (by omega) hc₁).mono_ok ?_)
  rintro c₂ s₂ ⟨j, vs₂, rfl, h₂, hc₂⟩
  refine wp_option h₂ (by decide) (fun k us s₃ hus hk h₃ => ?_) fun s₃ _ h₃ => ?_
  · obtain rfl : k = .semi := by
      revert hk
      cases k <;> decide
    subst hus
    simp only [length_append, length_cons] at hn
    refine .bind ((hline s₃ us h₃ (by simp only [Category.fuel]; omega)).mono_ok ?_)
    rintro c₄ s₄ ⟨us₄, vs₄, d₄, rfl, hd₄, h₄, hc₄⟩
    exact ⟨_, vs₄, _, by simp, .list j hd₁ hd₄, h₄, hc₂.list hc₄⟩
  · exact ⟨_, vs₂, _, by simp, .line j hd₁, h₃, hc₂⟩

theorem sound_pipe (hexec : Sound buf n .exec) (hpipe : Sound buf n .pipe) :
    Sound buf (n + 1) .pipe := by
  intro s ts h hn
  simp only [Category.fuel] at hn
  show wp (parsepipe _ _ _) _ _ _
  rw [parsepipe, wp_bind]
  refine (hexec s ts h (by simp only [Category.fuel]; omega)).mono_ok ?_
  rintro c₁ s₁ ⟨us₁, vs₁, d₁, rfl, hd₁, h₁, hc₁⟩
  rw [length_append] at hn
  refine wp_option h₁ (by decide) (fun k us s₂ hus hk h₂ => ?_) fun s₂ _ h₂ => ?_
  · obtain rfl : k = .bar := by
      revert hk
      cases k <;> decide
    subst hus
    rw [length_cons] at hn
    refine .bind ((hpipe s₂ us h₂ (by simp only [Category.fuel]; omega)).mono_ok ?_)
    rintro c₃ s₃ ⟨us₃, vs₃, d₃, rfl, hd₃, h₃, hc₃⟩
    exact ⟨_, vs₃, _, by simp, .pipe hd₁ hd₃, h₃, hc₁.pipe hc₃⟩
  · exact ⟨_, vs₁, _, rfl, .one hd₁, h₂, hc₁⟩

theorem sound_exec (hline : ∀ m, m + 1 = n → Sound buf m .line) : Sound buf (n + 1) .exec := by
  intro s ts h hn
  simp only [Category.fuel] at hn
  show wp (parseexec _ _ _) _ _ _
  rw [parseexec, wp_bind]
  refine wp_peek h (by decide) fun s₁ h₁ => ?_
  cases hstarts : starts ("(".toList.map Char.toUInt8) ts with
  | true =>
    obtain ⟨us, rfl⟩ := eq_of_starts hstarts (k := .lparen) fun j => by cases j <;> decide
    rw [length_cons] at hn
    rcases n with _ | n
    · omega
    refine wp_parseblock h₁ fun s₂ h₂ => ?_
    refine (hline n rfl s₂ us h₂ (by simp only [Category.fuel]; omega)).mono_ok ?_
    rintro c₃ s₃ ⟨us₃, vs₃, d₃, rfl, hd₃, h₃, hc₃⟩
    rw [length_append] at hn
    refine ⟨vs₃, h₃, fun vs hvs s₄ h₄ => ?_, fun _ _ => by decide⟩
    subst hvs
    rw [length_cons] at hn
    refine (sound_redirs h₄ (by omega) hc₃).mono_ok ?_
    rintro c₅ s₅ ⟨us₅, vs₅, rs, rfl, hrs, h₅, hc₅⟩
    exact ⟨_, vs₅, _, by simp, .block hd₃ hrs, h₅, hc₅⟩
  | false =>
    show wp (parseredirs _ _ _ _ >>= _) _ _ _
    refine .bind ((sound_redirs h₁ (by omega) reads_exec).mono_ok ?_)
    rintro c₂ s₂ ⟨us₂, vs₂, rs₂, rfl, hrs₂, h₂, hc₂⟩
    rw [length_append] at hn
    refine (sound_args h₂ (by omega) rfl (by decide) hc₂).mono_ok ?_
    rintro c₃ s₃ ⟨us₃, vs₃, ws, rs₃, rfl, hargs, hlen, h₃, hc₃⟩
    exact ⟨_, vs₃, _, by simp, .simple hrs₂ hargs hlen, h₃, hc₃⟩

/-- **What the parser returns is derived by the grammar.** -/
theorem sound (n : Nat) (k : Category) : Sound buf n k := by
  -- by induction on the fuel; `parseexec` calls `parseline` through `parseblock`, two levels below
  induction n using Nat.strong_induction_on generalizing k with
  | _ n ih =>
    cases n with
    | zero =>
      intro s ts h hn
      cases k <;> simp [Category.fuel] at hn
    | succ n =>
      cases k with
      | line => exact sound_line (ih n (by omega) _) (ih n (by omega) _)
      | pipe => exact sound_pipe (ih n (by omega) _) (ih n (by omega) _)
      | exec => exact sound_exec fun m hm => ih m (by omega) _

/-! ## What is derived is returned -/

/-- The tokens after a command cannot be taken for a part of it. -/
def Category.Follow (vs : List Tok) : Category → Prop
  | .line => starts (")".toList.map Char.toUInt8) vs = true ∨ vs = []
  | .pipe => starts (")&;".toList.map Char.toUInt8) vs = true ∨ vs = []
  | .exec => starts ("|)&;".toList.map Char.toUInt8) vs = true ∨ vs = []

theorem starts_of_follow (toks' : List UInt8)
    (h : starts toks vs = true ∨ vs = [])
    (htoks : ∀ j : Sym, strchr toks j.byte = true → strchr toks' j.byte = false) :
    starts toks' vs = false := by
  rcases h with h | rfl
  · obtain ⟨j, us, rfl, hj⟩ := sym_of_starts h
    exact htoks j hj
  · rfl

theorem starts_mono (h : starts toks vs = true)
    (htoks : ∀ j : Sym, strchr toks j.byte = true → strchr toks' j.byte = true) :
    starts toks' vs = true := by
  obtain ⟨j, us, rfl, hj⟩ := sym_of_starts h
  exact htoks j hj

theorem Category.Follow.pipe (h : Category.line.Follow vs) : Category.pipe.Follow vs :=
  h.imp_left (starts_mono · fun j => by cases j <;> decide)

theorem Category.Follow.exec (h : Category.pipe.Follow vs) : Category.exec.Follow vs :=
  h.imp_left (starts_mono · fun j => by cases j <;> decide)

theorem complete_redirs (hrs : Redirs us rs)
    (hvs : starts ("<>".toList.map Char.toUInt8) vs = false) (h : At buf s (us ++ vs))
    (hn : us.length < n) (hc : Reads buf c d) (hQ : ∀ c' s', At buf s' vs →
      Reads buf c' (d.redirs rs) → Q c' s') :
    wp (parseredirs buf (line buf).length n c) Q E s := by
  rcases n with _ | n
  · omega
  induction hrs generalizing s n c d with
  | nil => exact wp_parseredirs_stop h hvs fun s' h' => hQ c s' h' hc
  | cons hr hrs ih =>
    simp only [length_cons] at hn
    refine wp_parseredirs_step h hr fun s' w h' hw htext => ?_
    rcases n with _ | n
    · omega
    exact ih h' (hc.redir hw htext) hQ n (by omega)

theorem Args.starts
    (hargs : Args us ws rs) (hvs : Category.exec.Follow vs) (toks : List UInt8)
    (htoks : ∀ j : Sym, strchr ("|)&;".toList.map Char.toUInt8) j.byte = true →
      strchr toks j.byte = false) : starts toks (us ++ vs) = false := by
  cases hargs with
  | nil => exact starts_of_follow toks hvs htoks
  | cons _ _ => rfl

theorem complete_args {argc : Nat}
    (hargs : Args us ws' rs') (hvs : Category.exec.Follow vs) (h : At buf s (us ++ vs))
    (hn : us.length < n) (hws : ws.length = argc) (hmax : (ws ++ ws').length < maxArgs)
    (hc : Reads buf c (Cmd.redirs (.exec ws) rs)) (hQ : ∀ c' s', At buf s' vs →
      Reads buf c' (Cmd.redirs (.exec (ws ++ ws')) (rs ++ rs')) → Q c' s') :
    wp (parseargs buf (line buf).length n argc c) Q E s := by
  rcases n with _ | n
  · omega
  induction hargs generalizing s n argc c ws rs with
  | nil =>
    refine wp_parseargs_stop h hvs fun s' h' => hQ c s' h' ?_
    rwa [append_nil, append_nil]
  | @cons x ts₁ us₁ rs₁ rs₂ ws₁ hrs hargs ih =>
    simp only [length_append, length_cons] at hn hmax
    rw [cons_append, append_assoc] at h
    refine wp_parseargs_step h (fun hge => by omega) fun hlt s' w h' hw htext => ?_
    have hadd : Reads buf (c.addArg w) (Cmd.redirs (.exec (ws ++ [x])) rs) := by
      have := hc.addArg hw
      rwa [Cmd.addArg_redirs, htext] at this
    have hstop := hargs.starts hvs ("<>".toList.map Char.toUInt8) fun j => by
      cases j <;> decide
    refine complete_redirs hrs hstop h' (by omega) hadd fun c₁ s₁ h₁ hc₁ => ?_
    rw [← Cmd.redirs_append] at hc₁
    rcases n with _ | n
    · omega
    refine ih h₁ ?_ ?_ hc₁ (fun c' s' h' hc' => hQ c' s' h' ?_) n (by omega)
    · rw [length_append, hws, List.length_singleton]
    · simp only [length_append, List.length_singleton]
      omega
    · rwa [append_assoc, append_assoc] at hc'

theorem complete_backs {k : Nat} (hvs : starts ("&".toList.map Char.toUInt8) vs = false)
    (h : At buf s (.replicate k (.sym .amp) ++ vs)) (hn : k < n) (hc : Reads buf c d)
    (hQ : ∀ c' s', At buf s' vs → Reads buf c' (d.backs k) → Q c' s') :
    wp (parsebacks buf (line buf).length n c) Q E s := by
  rcases n with _ | n
  · omega
  induction k generalizing s n c d with
  | zero => exact wp_parsebacks_stop h hvs fun s' h' => hQ c s' h' hc
  | succ k ih =>
    rw [List.replicate_succ, cons_append] at h
    refine wp_parsebacks_step h fun s' h' => ?_
    rcases n with _ | n
    · omega
    refine ih h' hc.back (fun c' s' h' hc' => hQ c' s' h' ?_) n (by omega)
    rwa [Cmd.backs_back] at hc'

theorem follow_backs (h : Category.pipe.Follow vs) (k : Nat) :
    Category.pipe.Follow (.replicate k (.sym .amp) ++ vs) := by
  cases k with
  | zero => exact h
  | succ k => exact .inl rfl

theorem complete_line {k : Nat} {m : Cmd Span → M (Cmd Span)}
    (hpipe : ∀ vs, Category.pipe.Follow vs → At buf s (us ++ vs) →
      Category.pipe.fuel (us ++ vs).length ≤ n → wp (parsepipe buf (line buf).length n)
        (fun c s' => At buf s' vs ∧ Reads buf c d) (fun _ _ => False) s)
    (hvs : Category.pipe.Follow vs) (hamp : starts ("&".toList.map Char.toUInt8) vs = false)
    (h : At buf s (us ++ (.replicate k (.sym .amp) ++ vs)))
    (hn : 4 * (us ++ (.replicate k (.sym .amp) ++ vs)).length + 4 ≤ n + 1)
    (hQ : ∀ c' s', At buf s' vs → Reads buf c' (d.backs k) → wp (m c') Q (fun _ _ => False) s') :
    wp (do
      let cmd ← parsepipe buf (line buf).length n
      let cmd ← parsebacks buf (line buf).length n cmd
      m cmd) Q (fun _ _ => False) s := by
  refine .bind ((hpipe _ (follow_backs hvs k) h (by simp only [Category.fuel]; omega)).mono_ok ?_)
  rintro c₁ s₁ ⟨h₁, hc₁⟩
  rw [wp_bind]
  simp only [length_append, List.length_replicate] at hn
  exact complete_backs hamp h₁ (by omega) hc₁ hQ

/-- With fuel `n`, a command is returned. -/
def Complete (buf : List UInt8) (k : Category) (us : List Tok) (d : Cmd (List UInt8)) : Prop :=
  ∀ vs s n, k.Follow vs → At buf s (us ++ vs) → k.fuel (us ++ vs).length ≤ n →
    wp (parse buf (line buf).length k n) (fun c s' => At buf s' vs ∧ Reads buf c d)
      (fun _ _ => False) s

theorem complete_block (hline : Complete buf .line ts d) (hrs : Redirs us rs) :
    Complete buf .exec (.sym .lparen :: (ts ++ .sym .rparen :: us)) (d.redirs rs) := by
  intro vs s n hvs h hn
  simp only [Category.fuel, cons_append, append_assoc, length_cons,
    length_append] at h hn
  obtain ⟨n, rfl⟩ : ∃ m, n = m + 2 := ⟨n - 2, by omega⟩
  show wp (parseexec _ _ _) _ _ _
  rw [parseexec, wp_bind]
  refine wp_peek h (by decide) fun s₁ h₁ => ?_
  refine wp_parseblock h₁ fun s₂ h₂ => ?_
  refine (hline _ s₂ n (.inl rfl) h₂ ?_).mono_ok ?_
  · simp only [Category.fuel, length_append, length_cons]
    omega
  · rintro c₃ s₃ ⟨h₃, hc₃⟩
    refine ⟨_, h₃, fun ws hws s₄ h₄ => ?_, nofun⟩
    cases hws
    have hstop := starts_of_follow ("<>".toList.map Char.toUInt8) hvs fun j => by
      cases j <;> decide
    exact complete_redirs hrs hstop h₄ (by omega) hc₃ fun c' s' h' hc' => ⟨h', hc'⟩

theorem complete_simple (hrs : Redirs ts rs)
    (hargs : Args us ws rs') (hlen : ws.length < maxArgs) :
    Complete buf .exec (ts ++ us) (Cmd.redirs (.exec ws) (rs ++ rs')) := by
  intro vs s n hvs h hn
  simp only [Category.fuel, append_assoc, length_append] at h hn
  rcases n with _ | n
  · omega
  have hparen : starts ("(".toList.map Char.toUInt8) (ts ++ (us ++ vs)) = false := by
    cases hrs with
    | nil => exact hargs.starts hvs _ fun j => by cases j <;> decide
    | @cons k _ _ _ _ hr _ =>
      show strchr _ k.byte = false
      revert hr
      cases k with
      | lt | gt | append => exact fun _ => rfl
      | bar | lparen | rparen | semi | amp => nofun
  show wp (parseexec _ _ _) _ _ _
  rw [parseexec, wp_bind]
  refine wp_peek h (by decide) fun s₁ h₁ => ?_
  rw [hparen]
  show wp (parseredirs _ _ _ _ >>= _) _ _ _
  rw [wp_bind]
  have hstop := hargs.starts hvs ("<>".toList.map Char.toUInt8) fun j => by cases j <;> decide
  refine complete_redirs hrs hstop h₁ (by omega) reads_exec fun c₂ s₂ h₂ hc₂ => ?_
  refine complete_args hargs hvs h₂ (by omega) rfl ?_ hc₂ fun c' s' h' hc' => ⟨h', hc'⟩
  exact hlen

/-- **What the grammar derives is returned**, if nothing else can follow. -/
theorem complete {k : Category} (hd : Derives k us d) : Complete buf k us d := by
  induction hd with
  | @line ts c k hpipe ih =>
    intro vs s n hvs h hn
    rw [append_assoc] at h hn
    simp only [Category.fuel] at hn
    rcases n with _ | n
    · omega
    show wp (parseline _ _ _) _ _ _
    rw [parseline]
    refine complete_line (fun vs => ih vs s n) hvs.pipe ?_ h hn fun c' s' h' hc' => ?_
    · exact starts_of_follow _ hvs fun j => by cases j <;> decide
    refine wp_option h' (by decide) (fun j us s'' hus hj _ => ?_) fun s'' _ h'' => ⟨h'', hc'⟩
    have hsemi := starts_of_follow (";".toList.map Char.toUInt8) hvs fun j => by
      cases j <;> decide
    rw [hus] at hsemi
    rw [starts, hj] at hsemi
    cases hsemi
  | @list ts us c d k hpipe hline ihp ihl =>
    intro vs s n hvs h hn
    rw [append_assoc, append_assoc] at h hn
    simp only [Category.fuel] at hn
    rcases n with _ | n
    · omega
    show wp (parseline _ _ _) _ _ _
    rw [parseline]
    refine complete_line (fun vs => ihp vs s n) (.inl rfl) rfl h hn fun c' s' h' hc' => ?_
    refine wp_option h' (by decide) (fun j us s'' hus _ h'' => ?_) fun _ hno => by cases hno
    cases hus
    refine .bind ((ihl vs s'' n hvs h'' ?_).mono_ok fun c₁ s₁ h₁ => ⟨h₁.1, hc'.list h₁.2⟩)
    simp only [Category.fuel, length_append, length_cons] at hn ⊢
    omega
  | one hexec ih =>
    intro vs s n hvs h hn
    simp only [Category.fuel] at hn
    rcases n with _ | n
    · omega
    show wp (parsepipe _ _ _) _ _ _
    rw [parsepipe, wp_bind]
    refine (ih vs s n hvs.exec h (by simp only [Category.fuel]; omega)).mono_ok ?_
    rintro c₁ s₁ ⟨h₁, hc₁⟩
    refine wp_option h₁ (by decide) (fun j us s'' hus hj _ => ?_) fun s'' _ h'' => ⟨h'', hc₁⟩
    have hbar := starts_of_follow ("|".toList.map Char.toUInt8) hvs fun j => by
      cases j <;> decide
    rw [hus] at hbar
    rw [starts, hj] at hbar
    cases hbar
  | pipe hexec hpipe ihe ihp =>
    intro vs s n hvs h hn
    rw [append_assoc] at h hn
    simp only [Category.fuel] at hn
    rcases n with _ | n
    · omega
    show wp (parsepipe _ _ _) _ _ _
    rw [parsepipe, wp_bind]
    refine (ihe _ s n (.inl rfl) h (by simp only [Category.fuel]; omega)).mono_ok ?_
    rintro c₁ s₁ ⟨h₁, hc₁⟩
    refine wp_option h₁ (by decide) (fun j us s'' hus _ h'' => ?_) fun _ hno => by cases hno
    cases hus
    refine .bind ((ihp vs s'' n hvs h'' ?_).mono_ok fun c₂ s₂ h₂ => ⟨h₂.1, hc₁.pipe h₂.2⟩)
    simp only [Category.fuel, length_append, length_cons] at hn ⊢
    omega
  | block hline hrs ih => exact complete_block ih hrs
  | simple hrs hargs hlen => exact complete_simple hrs hargs hlen

end Xv6.Sh
