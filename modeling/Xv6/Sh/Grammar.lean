import Xv6.Sh.Parse

/-!
# The grammar of the shell

What a command line means, without the parser: the tokens of a line, and which command a sequence of
tokens stands for.

    line  := pipe '&'* [';' line]
    pipe  := exec ['|' pipe]
    exec  := '(' line ')' redir* | redir* (word redir*)*
    redir := ('<' | '>' | '>>') word

`Derives` is this grammar with the trees that it builds.  The first redirection is the innermost one.
-/

namespace Xv6.Sh

/-! ## Tokens -/

inductive Tok where
  | sym (k : Sym)
  | word (w : List UInt8)
  deriving DecidableEq, Repr

def wordByte (c : UInt8) : Bool := !strchr whitespace c && !strchr symbols c

def tokens (l : List UInt8) : List Tok :=
  match l with
  | [] => []
  | c :: l =>
    if strchr whitespace c = true then tokens l
    else if c = '>'.toUInt8 ∧ l.head? = some '>'.toUInt8 then .sym .append :: tokens l.tail
    else
      match Sym.ofByte c with
      | some k => .sym k :: tokens l
      | none => .word (c :: l.takeWhile wordByte) :: tokens (l.dropWhile wordByte)
termination_by l.length
decreasing_by
  all_goals simp only [List.length_cons, List.length_tail]
  · omega
  · omega
  · omega
  · have := (List.dropWhile_suffix wordByte (l := l)).length_le
    omega

/-! ## Commands -/

structure Redirection where
  file : List UInt8
  mode : Nat
  fd : Nat
  deriving DecidableEq, Repr

def Sym.redirect (k : Sym) (file : List UInt8) : Option Redirection :=
  match k with
  | .lt => some ⟨file, oRdonly, 0⟩
  | .gt => some ⟨file, oWronly ||| oCreate ||| oTrunc, 1⟩
  | .append => some ⟨file, oWronly ||| oCreate, 1⟩
  | _ => none

def Cmd.redirs (c : Cmd (List UInt8)) (rs : List Redirection) : Cmd (List UInt8) :=
  rs.foldl (fun c r => .redir c r.file r.mode r.fd) c

inductive Redirs : List Tok → List Redirection → Prop where
  | nil : Redirs [] []
  | cons {k : Sym} {w : List UInt8} {r : Redirection} {ts : List Tok} {rs : List Redirection} :
    k.redirect w = some r → Redirs ts rs → Redirs (.sym k :: .word w :: ts) (r :: rs)

inductive Args : List Tok → List (List UInt8) → List Redirection → Prop where
  | nil : Args [] [] []
  | cons {w : List UInt8} {ts us : List Tok} {rs rs' : List Redirection} {ws : List (List UInt8)} :
    Redirs ts rs → Args us ws rs' → Args (.word w :: (ts ++ us)) (w :: ws) (rs ++ rs')

/-- The other syntactic categories. -/
inductive Category where
  | line
  | pipe
  | exec
  deriving DecidableEq, Repr

/-- `'&'*` after a command. -/
def Cmd.backs (c : Cmd (List UInt8)) : Nat → Cmd (List UInt8)
  | 0 => c
  | k + 1 => .back (c.backs k)

inductive Derives : Category → List Tok → Cmd (List UInt8) → Prop where
  | line {ts : List Tok} {c : Cmd (List UInt8)} (k : Nat) :
    Derives .pipe ts c → Derives .line (ts ++ .replicate k (.sym .amp)) (c.backs k)
  | list {ts us : List Tok} {c d : Cmd (List UInt8)} (k : Nat) :
    Derives .pipe ts c → Derives .line us d →
      Derives .line (ts ++ .replicate k (.sym .amp) ++ .sym .semi :: us) (.list (c.backs k) d)
  | one {ts : List Tok} {c : Cmd (List UInt8)} : Derives .exec ts c → Derives .pipe ts c
  | pipe {ts us : List Tok} {c d : Cmd (List UInt8)} :
    Derives .exec ts c → Derives .pipe us d → Derives .pipe (ts ++ .sym .bar :: us) (.pipe c d)
  | block {ts us : List Tok} {c : Cmd (List UInt8)} {rs : List Redirection} :
    Derives .line ts c → Redirs us rs →
      Derives .exec (.sym .lparen :: (ts ++ .sym .rparen :: us)) (c.redirs rs)
  | simple {ts us : List Tok} {ws : List (List UInt8)} {rs rs' : List Redirection} :
    Redirs ts rs → Args us ws rs' → ws.length < maxArgs →
      Derives .exec (ts ++ us) (Cmd.redirs (.exec ws) (rs ++ rs'))

end Xv6.Sh
