import Xv6.Lib.Prog

/-!
# The parser of the shell

`gettoken`, `peek`, `parsecmd` and what they call in `user/sh.c`.  The line is a list of bytes, and a
pointer into it is an index; what lies behind the end of the list reads as NUL, so every list is a
NUL-terminated line.  `*ps` is the state of the monad, and `es` does not change.  The constructors of
`struct cmd` allocate memory, which is taken to succeed: a command is a tree.  `parseexec` stores
arguments in the node that it has allocated first, also when redirections have been put around it;
`Cmd.addArg` finds that node in the tree.

The functions call each other and loop, so they have fuel.  `Err.fuel` is not something that the
shell does.
-/

namespace Xv6.Sh

abbrev maxArgs : Nat := 10
abbrev oRdonly : Nat := 0x000
abbrev oWronly : Nat := 0x001
abbrev oCreate : Nat := 0x200
abbrev oTrunc : Nat := 0x400

/-! ## Commands -/

/-- `struct cmd`.  The words are pairs of pointers when the line is parsed, and strings when the
command is run. -/
inductive Cmd (W : Type) where
  /-- `struct execcmd`: the entries of `argv`, with those of `eargv`, before the null pointer. -/
  | exec (argv : List W)
  | redir (cmd : Cmd W) (file : W) (mode fd : Nat)
  | pipe (left right : Cmd W)
  | list (left right : Cmd W)
  | back (cmd : Cmd W)
  deriving DecidableEq, Repr

/-- `cmd->argv[argc] = q`, where `cmd` is the `execcmd` inside the redirections. -/
def Cmd.addArg {W : Type} (w : W) : Cmd W → Cmd W
  | .exec argv => .exec (argv ++ [w])
  | .redir cmd file mode fd => .redir (cmd.addArg w) file mode fd
  | cmd => cmd

/-- A word in the line: its first byte, and the byte behind its last one. -/
structure Span where
  q : Nat
  e : Nat
  deriving DecidableEq, Repr

/-! ## Tokens -/

inductive Sym where
  | bar
  | lparen
  | rparen
  | semi
  | amp
  | lt
  | gt
  | append
  deriving DecidableEq, Repr

inductive Ret where
  | nul
  | sym (k : Sym)
  | word
  deriving DecidableEq, Repr

/-- `whitespace`: `" \t\r\n\v"`. -/
def whitespace : List UInt8 := [' ', '\t', '\r', '\n', '\x0b'].map Char.toUInt8

def symbols : List UInt8 := "<|>&;()".toList.map Char.toUInt8

/-- The cases of the `switch` in `gettoken` that stand for a symbol. -/
def Sym.ofByte (c : UInt8) : Option Sym :=
  if c = '|'.toUInt8 then some .bar
  else if c = '('.toUInt8 then some .lparen
  else if c = ')'.toUInt8 then some .rparen
  else if c = ';'.toUInt8 then some .semi
  else if c = '&'.toUInt8 then some .amp
  else if c = '<'.toUInt8 then some .lt
  else if c = '>'.toUInt8 then some .gt
  else none

def strchr (s : List UInt8) (c : UInt8) : Bool := s.contains c

def byte (buf : List UInt8) (s : Nat) : UInt8 := buf.getD s 0

/-- `n` rounds of `while(p(*s)) s++`. -/
def scan (p : UInt8 → Bool) (buf : List UInt8) : Nat → Nat → Nat
  | 0, s => s
  | n + 1, s => if p (byte buf s) = true then scan p buf n (s + 1) else s

/-- `while(s < es && strchr(whitespace, *s)) s++`. -/
def skip (buf : List UInt8) (es s : Nat) : Nat := scan (strchr whitespace) buf (es - s) s

/-- The `switch` of `gettoken`: the result, and `s` behind the token. -/
def switch (buf : List UInt8) (es s : Nat) : Ret × Nat :=
  if byte buf s = 0 then (.nul, s)
  else
    match Sym.ofByte (byte buf s) with
    | some .gt => if byte buf (s + 1) = '>'.toUInt8 then (.sym .append, s + 2) else (.sym .gt, s + 1)
    | some k => (.sym k, s + 1)
    | none => (.word, scan (fun c => !strchr whitespace c && !strchr symbols c) buf (es - s) s)

inductive Msg where
  | malformed
  | missingFile
  | missingParen
  | tooManyArgs
  | parseblock
  deriving DecidableEq, Repr

inductive Err where
  | panic (m : Msg)
  | fuel
  deriving DecidableEq, Repr

/-- A function that is given `ps`. -/
abbrev M := EStateM Err Nat

/-- Returns the token and the word that it is, if it is one. -/
def gettoken (buf : List UInt8) (es : Nat) : M (Ret × Span) := do
  let q := skip buf es (← get)
  let (ret, e) := switch buf es q
  set (skip buf es e)
  pure (ret, ⟨q, e⟩)

def peek (buf : List UInt8) (es : Nat) (toks : List UInt8) : M Bool := do
  let s := skip buf es (← get)
  set s
  pure (byte buf s != 0 && strchr toks (byte buf s))

/-! ## Parsing -/

section

variable (buf : List UInt8) (es : Nat)

def parseredirs : Nat → Cmd Span → M (Cmd Span)
  | 0, _ => throw .fuel
  | n + 1, cmd => do
    if ← peek buf es ("<>".toList.map Char.toUInt8) then
      let (tok, _) ← gettoken buf es
      let (ret, file) ← gettoken buf es
      if ret ≠ .word then throw (.panic .missingFile)
      match tok with
      | .sym .lt => parseredirs n (.redir cmd file oRdonly 0)
      | .sym .gt => parseredirs n (.redir cmd file (oWronly ||| oCreate ||| oTrunc) 1)
      | .sym .append => parseredirs n (.redir cmd file (oWronly ||| oCreate) 1)
      | _ => parseredirs n cmd
    else pure cmd

/-- The loop of `parseexec`. -/
def parseargs : Nat → Nat → Cmd Span → M (Cmd Span)
  | 0, _, _ => throw .fuel
  | n + 1, argc, ret => do
    if ← peek buf es ("|)&;".toList.map Char.toUInt8) then pure ret
    else
      let (tok, w) ← gettoken buf es
      match tok with
      | .nul => pure ret
      | .sym _ => throw (.panic .malformed)
      | .word =>
        if argc + 1 ≥ maxArgs then throw (.panic .tooManyArgs)
        let ret ← parseredirs buf es n (ret.addArg w)
        parseargs n (argc + 1) ret

/-- The loop of `parseline`. -/
def parsebacks : Nat → Cmd Span → M (Cmd Span)
  | 0, _ => throw .fuel
  | n + 1, cmd => do
    if ← peek buf es ("&".toList.map Char.toUInt8) then
      let _ ← gettoken buf es
      parsebacks n (.back cmd)
    else pure cmd

mutual

def parseline : Nat → M (Cmd Span)
  | 0 => throw .fuel
  | n + 1 => do
    let cmd ← parsepipe n
    let cmd ← parsebacks buf es n cmd
    if ← peek buf es (";".toList.map Char.toUInt8) then
      let _ ← gettoken buf es
      let right ← parseline n
      pure (.list cmd right)
    else pure cmd

def parsepipe : Nat → M (Cmd Span)
  | 0 => throw .fuel
  | n + 1 => do
    let cmd ← parseexec n
    if ← peek buf es ("|".toList.map Char.toUInt8) then
      let _ ← gettoken buf es
      let right ← parsepipe n
      pure (.pipe cmd right)
    else pure cmd

def parseblock : Nat → M (Cmd Span)
  | 0 => throw .fuel
  | n + 1 => do
    if !(← peek buf es ("(".toList.map Char.toUInt8)) then throw (.panic .parseblock)
    let _ ← gettoken buf es
    let cmd ← parseline n
    if !(← peek buf es (")".toList.map Char.toUInt8)) then throw (.panic .missingParen)
    let _ ← gettoken buf es
    parseredirs buf es n cmd

def parseexec : Nat → M (Cmd Span)
  | 0 => throw .fuel
  | n + 1 => do
    if ← peek buf es ("(".toList.map Char.toUInt8) then parseblock n
    else
      let ret ← parseredirs buf es n (.exec [])
      parseargs buf es n 0 ret

end

end

/-- NUL-terminate all the counted strings. -/
def nulterminate : Cmd Span → List UInt8 → List UInt8
  | .exec argv, buf => argv.foldl (fun buf w => buf.set w.e 0) buf
  | .redir cmd file _ _, buf => (nulterminate cmd buf).set file.e 0
  | .pipe left right, buf => nulterminate right (nulterminate left buf)
  | .list left right, buf => nulterminate right (nulterminate left buf)
  | .back cmd, buf => nulterminate cmd buf

/-- The bytes before the first NUL; `strlen` is their number. -/
def line (buf : List UInt8) : List UInt8 := buf.takeWhile (· ≠ 0)

/-- `parsecmd` before `nulterminate`. -/
def parseall (buf : List UInt8) (es n : Nat) : M (Cmd Span) := do
  let cmd ← parseline buf es n
  let _ ← peek buf es []
  if (← get) ≠ es then throw (.panic .malformed)
  pure cmd

/-- The command, and the line as it is then. -/
def parsecmd (n : Nat) (buf : List UInt8) : Except Err (Cmd Span × List UInt8) :=
  match parseall buf (line buf).length n 0 with
  | .ok cmd _ => .ok (cmd, nulterminate cmd buf)
  | .error e _ => .error e

end Xv6.Sh
