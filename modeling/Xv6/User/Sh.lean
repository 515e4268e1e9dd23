import Xv6.Lib.Det
import Mathlib.Data.List.Basic

/-!
# The parser of the shell

`parsecmd` of `sh.c` and the functions it is made of. The command line is a list of characters, with
a NUL after the last one, and a pointer into it is an index. The parser reads it through one cursor
(`*ps`); a read past the NUL, or a store past the end of `argv`, stops it with `overrun`. The
functions are recursive and have loops, so they get a number of turns, `fuel`; the one that
`parsecmd` starts with is enough, as `parsecmd_iff` shows: the parser never ends with `spin`.

`nulterminate` writes a NUL at the end of every word, into the buffer that the words are in.
-/

namespace Xv6.Sh

/-- How the parser stops without a tree. -/
inductive Stop
  | panic (msg : String)
  /-- An access outside the buffer or an array. -/
  | overrun
  /-- The turns are used up. -/
  | spin
  deriving DecidableEq

/-- A part of the parser; the state is the cursor. -/
abbrev Parser := Det Stop ℕ

/-- `struct cmd`. Of `argv` and `eargv` there are the entries before the one that is NULL. -/
inductive Cmd
  | exec (argv : List (ℕ × ℕ))
  | redir (cmd : Cmd) (file efile mode fd : ℕ)
  | pipe (left right : Cmd)
  | list (left right : Cmd)
  | back (cmd : Cmd)
  deriving DecidableEq

/-- `MAXARGS`. -/
abbrev maxargs : ℕ := 10

/-- `O_RDONLY`. -/
abbrev oRdonly : ℕ := 0

/-- `O_WRONLY|O_CREATE|O_TRUNC`. -/
abbrev oTrunc : ℕ := 0x601

/-- `O_WRONLY|O_CREATE`. -/
abbrev oAppend : ℕ := 0x201

/-- Is `c` in `whitespace`? -/
def isSpace (c : UInt8) : Bool := [32, 9, 13, 10, 11].contains c

/-- Is `c` in `symbols`, that is, one of `<|>&;()`? -/
def isSymbol (c : UInt8) : Bool := [60, 124, 62, 38, 59, 40, 41].contains c

/-- Neither whitespace nor a symbol. -/
def isWordChar (c : UInt8) : Bool := !isSpace c && !isSymbol c

variable (s : List UInt8)

/-- `*p` for the pointer `i`. -/
def charAt (i : ℕ) : Except Stop UInt8 :=
  if i < s.length then .ok (s.getD i 0) else if i = s.length then .ok 0 else .error .overrun

/-- The loops of `gettoken` and `peek`: advance while the character is one of `p`, before `es`. -/
def skipWhile (p : UInt8 → Bool) : ℕ → ℕ → Except Stop ℕ
  | 0, _ => .error .spin
  | fuel + 1, i =>
    if i < s.length then do
      let c ← charAt s i
      if p c then skipWhile p fuel (i + 1) else return i
    else return i

/-- The `switch` of `gettoken` with the pointer `q` at the token: the value returned, and where the
token ends. A word is `'a'` and `>>` is `'+'`. -/
def scan (q : ℕ) : Except Stop (UInt8 × ℕ) := do
  let c ← charAt s q
  if c = 0 then return (c, q)
  else if c = 124 ∨ c = 40 ∨ c = 41 ∨ c = 59 ∨ c = 38 ∨ c = 60 then return (c, q + 1)
  else if c = 62 then
    let d ← charAt s (q + 1)
    return if d = 62 then (43, q + 2) else (c, q + 1)
  else
    let e ← skipWhile s isWordChar (s.length + 1) q
    return (97, e)

/-- `gettoken`: the token, and where it starts and ends. -/
def gettoken : Parser (UInt8 × ℕ × ℕ) := fun i => do
  let q ← skipWhile s isSpace (s.length + 1) i
  let r ← scan s q
  let j ← skipWhile s isSpace (s.length + 1) r.2
  return ((r.1, q, r.2), j)

/-- `peek`. -/
def peek (toks : List UInt8) : Parser Bool := fun i => do
  let j ← skipWhile s isSpace (s.length + 1) i
  let c ← charAt s j
  return (c ≠ 0 && toks.contains c, j)

/-- The arguments of `redircmd` after the command. -/
abbrev Redir := ℕ × ℕ × ℕ × ℕ

/-- `redircmd` for each redirection in turn. -/
def Cmd.wrap (cmd : Cmd) (rs : List Redir) : Cmd :=
  rs.foldl (fun c r => .redir c r.1 r.2.1 r.2.2.1 r.2.2.2) cmd

/-- `parseredirs`. The command that the redirections are put around may be an `execcmd` that still
gets arguments, so they are collected here. -/
def parseredirs : ℕ → Parser (List Redir)
  | 0 => throw .spin
  | fuel + 1 => do
    if ← peek s [60, 62] then
      let t ← gettoken s
      let f ← gettoken s
      if f.1 ≠ 97 then
        throw (.panic "missing file for redirection")
      else
        let rs ← parseredirs fuel
        if t.1 = 60 then return (f.2.1, f.2.2, oRdonly, 0) :: rs
        else if t.1 = 62 then return (f.2.1, f.2.2, oTrunc, 1) :: rs
        else if t.1 = 43 then return (f.2.1, f.2.2, oAppend, 1) :: rs
        else return rs
    else
      return []

/-- A store to `argv[argc]` and `eargv[argc]`. -/
def setArg (argv : List (ℕ × ℕ)) (v : ℕ × ℕ) : Parser (List (ℕ × ℕ)) :=
  if argv.length < maxargs then return argv ++ [v] else throw .overrun

/-- The loop of `parseexec`, with the arguments and redirections so far. -/
def execLoop : ℕ → List (ℕ × ℕ) → List Redir → Parser Cmd
  | 0, _, _ => throw .spin
  | fuel + 1, argv, rs => do
    -- `argv[argc] = 0` after the loop
    let finish : Parser Cmd := do
      let _ ← setArg argv (0, 0)
      return (Cmd.exec argv).wrap rs
    if ← peek s [124, 41, 38, 59] then finish
    else
      let t ← gettoken s
      if t.1 = 0 then finish
      else if t.1 ≠ 97 then
        throw (.panic "syntax")
      else
        let argv ← setArg argv t.2
        if argv.length ≥ maxargs then
          throw (.panic "too many args")
        else
          let rs' ← parseredirs s (s.length + 1)
          execLoop fuel argv (rs ++ rs')

/-- The loop of `parseline`. -/
def backLoop : ℕ → Cmd → Parser Cmd
  | 0, _ => throw .spin
  | fuel + 1, cmd => do
    if ← peek s [38] then
      let _ ← gettoken s
      backLoop fuel (.back cmd)
    else
      return cmd

mutual

/-- `parseline`. -/
def parseline : ℕ → Parser Cmd
  | 0 => throw .spin
  | fuel + 1 => do
    let cmd ← parsepipe fuel
    let cmd ← backLoop s (s.length + 1) cmd
    if ← peek s [59] then
      let _ ← gettoken s
      let rest ← parseline fuel
      return .list cmd rest
    else
      return cmd

/-- `parsepipe`. -/
def parsepipe : ℕ → Parser Cmd
  | 0 => throw .spin
  | fuel + 1 => do
    let cmd ← parseexec fuel
    if ← peek s [124] then
      let _ ← gettoken s
      let rest ← parsepipe fuel
      return .pipe cmd rest
    else
      return cmd

/-- `parseblock`. -/
def parseblock : ℕ → Parser Cmd
  | 0 => throw .spin
  | fuel + 1 => do
    if ← peek s [40] then
      let _ ← gettoken s
      let cmd ← parseline fuel
      if ← peek s [41] then
        let _ ← gettoken s
        let rs ← parseredirs s (s.length + 1)
        return cmd.wrap rs
      else
        throw (.panic "syntax - missing )")
    else
      throw (.panic "parseblock")

/-- `parseexec`. -/
def parseexec : ℕ → Parser Cmd
  | 0 => throw .spin
  | fuel + 1 => do
    if ← peek s [40] then
      parseblock fuel
    else
      let rs ← parseredirs s (s.length + 1)
      execLoop s (s.length + 1) [] rs

end

/-- The places where `nulterminate` writes. -/
def Cmd.ends : Cmd → List ℕ
  | .exec argv => argv.map Prod.snd
  | .redir cmd _ efile _ _ => cmd.ends ++ [efile]
  | .pipe l r => l.ends ++ r.ends
  | .list l r => l.ends ++ r.ends
  | .back cmd => cmd.ends

/-- `nulterminate`: the buffer after it, and the NUL after it. -/
def nulterminate (cmd : Cmd) (buf : List UInt8) : List UInt8 :=
  cmd.ends.foldl (fun b i => b.set i 0) buf

/-- `parsecmd`: the tree, and the buffer its words are in. -/
def parsecmd : Except Stop (Cmd × List UInt8) := do
  let (cmd, i) ← parseline s (4 * (s.length + 1)) 0
  let (_, i) ← peek s [] i
  if i ≠ s.length then
    .error (.panic "syntax")
  else
    return (cmd, nulterminate cmd (s ++ [0]))

end Xv6.Sh
