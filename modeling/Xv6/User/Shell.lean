import Xv6.Lib.Bytes
import Xv6.Lib.Prog

/-!
# xv6 — the parser of the shell (`user/sh.c`)

`gettoken`, `peek` and the recursive-descent parser over the bytes of the command line.
A `char *` into the line is an index; the parser's `char **ps` is the state of its
programs. `parseexec` goes on filling its `execcmd` after it has wrapped it in
redirections: the node is the one at the end of the chain of `redircmd`s, and
`Cmd.addArg` stores into it there.

Recursion and loops take fuel, which stands for the C stack; running out of it is a
reason to stop of its own. Memory for the nodes is not modelled.
-/

namespace Xv6.User.Shell

open ByteBuffer

/-- The byte of a character. -/
def ch (c : Char) : UInt8 := UInt8.ofNat c.toNat

/-- The bytes of a string constant. -/
def str (s : List Char) : List UInt8 := s.map ch

def MAXARGS : Nat := 10

def O_RDONLY : Nat := 0x000
def O_WRONLY : Nat := 0x001
def O_CREATE : Nat := 0x200
def O_TRUNC : Nat := 0x400

/-- Why the parser does not return. -/
inductive Stop where
  | fuel
  | panic (s : String)
  deriving DecidableEq, Repr

/-- `struct cmd` and what it can be cast to; the arguments of an `execcmd` are the
pairs `argv[i]`, `eargv[i]` before the null pointer. -/
inductive Cmd where
  | exec (args : List (Nat × Nat))
  | redir (cmd : Cmd) (file efile mode fd : Nat)
  | pipe (left right : Cmd)
  | list (left right : Cmd)
  | back (cmd : Cmd)
  deriving DecidableEq, Repr

/-- Store an argument into the `execcmd` under the redirections. -/
def Cmd.addArg (q eq : Nat) : Cmd → Cmd
  | .exec args => .exec (args ++ [(q, eq)])
  | .redir cmd file efile mode fd => .redir (cmd.addArg q eq) file efile mode fd
  | cmd => cmd

/-! ### Tokens -/

def whitespace : List UInt8 := str [' ', '\t', '\r', '\n', '\x0b']

def symbols : List UInt8 := str ['<', '|', '>', '&', ';', '(', ')']

/-- `strchr`: the NUL that ends the string is never found. -/
def strchr (s : List UInt8) (c : UInt8) : Bool := s.contains c

/-- `while(s < es && f(*s)) s++`, with `es - s` turns left. -/
def scan (f : UInt8 → Bool) (b : Buffer) : Nat → Nat → Nat
  | 0, s => s
  | left + 1, s => if f (b s) then scan f b left (s + 1) else s

section Parser

variable (b : Buffer) (es : Nat)

/-- Skip whitespace. -/
def skip (s : Nat) : Nat := scan (strchr whitespace) b (es - s) s

/-- A byte of a word. -/
def isWord (c : UInt8) : Bool := !strchr whitespace c && !strchr symbols c

/-- What `gettoken` returns, and the ends of the token. -/
structure Token where
  ret : UInt8
  q : Nat
  eq : Nat

/-- The `switch` of `gettoken`: the kind of the token at `s` and where it ends. -/
def tokenAt (s : Nat) : UInt8 × Nat :=
  if b s = 0 then (0, s)
  else if b s ∈ str ['|', '(', ')', ';', '&', '<'] then (b s, s + 1)
  else if b s = ch '>' then
    if b (s + 1) = ch '>' then (ch '+', s + 2) else (ch '>', s + 1)
  else (ch 'a', scan isWord b (es - s) s)

/-- Programs of the parser, over the place in the line. -/
abbrev Parser (α : Type) := Prog Stop Nat α

def gettoken : Parser Token := do
  let s ← .gets id
  let q := skip b es s
  let (ret, eq) := tokenAt b es q
  .modify fun _ => skip b es eq
  pure ⟨ret, q, eq⟩

def peek (toks : List Char) : Parser Bool := do
  .modify (skip b es)
  let s ← .gets id
  pure (b s ≠ 0 ∧ strchr (str toks) (b s))

def panic {α : Type} (s : String) : Parser α := .stop (.panic s)

/-! ### Commands -/

/-- `redircmd` as the kind of token asks for. -/
def redircmd (tok : UInt8) (cmd : Cmd) (q eq : Nat) : Cmd :=
  if tok = ch '<' then .redir cmd q eq O_RDONLY 0
  else if tok = ch '>' then .redir cmd q eq (O_WRONLY ||| O_CREATE ||| O_TRUNC) 1
  else if tok = ch '+' then .redir cmd q eq (O_WRONLY ||| O_CREATE) 1
  else cmd

def parseredirs : Nat → Cmd → Parser Cmd
  | 0, _ => .stop .fuel
  | fuel + 1, cmd => do
    if ← peek b es ['<', '>'] then do
      let tok ← gettoken b es
      let file ← gettoken b es
      if file.ret ≠ ch 'a' then panic "missing file for redirection"
      else parseredirs fuel (redircmd tok.ret cmd file.q file.eq)
    else pure cmd

/-- The loop of `parseexec`. -/
def parseargs : Nat → Nat → Cmd → Parser Cmd
  | 0, _, _ => .stop .fuel
  | fuel + 1, argc, ret => do
    if ← peek b es ['|', ')', '&', ';'] then pure ret
    else do
      let tok ← gettoken b es
      if tok.ret = 0 then pure ret
      else if tok.ret ≠ ch 'a' then panic "syntax"
      else do
        let ret := ret.addArg tok.q tok.eq
        if MAXARGS ≤ argc + 1 then panic "too many args"
        else do
          let ret ← parseredirs b es fuel ret
          parseargs fuel (argc + 1) ret

/-- The loop of `parseline` over `&`. -/
def parseback : Nat → Cmd → Parser Cmd
  | 0, _ => .stop .fuel
  | fuel + 1, cmd => do
    if ← peek b es ['&'] then do
      let _ ← gettoken b es
      parseback fuel (.back cmd)
    else pure cmd

mutual

def parseline : Nat → Parser Cmd
  | 0 => .stop .fuel
  | fuel + 1 => do
    let cmd ← parsepipe fuel
    let cmd ← parseback b es fuel cmd
    if ← peek b es [';'] then do
      let _ ← gettoken b es
      let right ← parseline fuel
      pure (.list cmd right)
    else pure cmd

def parsepipe : Nat → Parser Cmd
  | 0 => .stop .fuel
  | fuel + 1 => do
    let cmd ← parseexec fuel
    if ← peek b es ['|'] then do
      let _ ← gettoken b es
      let right ← parsepipe fuel
      pure (.pipe cmd right)
    else pure cmd

def parseexec : Nat → Parser Cmd
  | 0 => .stop .fuel
  | fuel + 1 => do
    if ← peek b es ['('] then parseblock fuel
    else do
      let ret ← parseredirs b es fuel (.exec [])
      parseargs b es fuel 0 ret

def parseblock : Nat → Parser Cmd
  | 0 => .stop .fuel
  | fuel + 1 => do
    if ← peek b es ['('] then do
      let _ ← gettoken b es
      let cmd ← parseline fuel
      if ← peek b es [')'] then do
        let _ ← gettoken b es
        parseredirs b es fuel cmd
      else panic "syntax - missing )"
    else panic "parseblock"

end

end Parser

/-- `nulterminate`: a NUL behind every word. -/
def nulterminate : Cmd → Buffer → Buffer
  | .exec args, b => args.foldl (fun b a => Function.update b a.2 0) b
  | .redir cmd _ efile _ _, b => Function.update (nulterminate cmd b) efile 0
  | .pipe left right, b => nulterminate right (nulterminate left b)
  | .list left right, b => nulterminate right (nulterminate left b)
  | .back cmd, b => nulterminate cmd b

/-- `strlen`, of at most `left` bytes. -/
def strlen (b : Buffer) : Nat → Nat → Nat
  | 0, _ => 0
  | left + 1, s => if b s = 0 then 0 else strlen b left (s + 1) + 1

/-- `parsecmd`: the tree, and the line after `nulterminate`. -/
def parsecmd (fuel : Nat) (b : Buffer) (s : Nat) : Except Stop (Cmd × Buffer) := do
  let es := s + strlen b fuel s
  let (cmd, s) ← parseline b es fuel s
  let (_, s) ← peek b es [] s
  if s ≠ es then .error (.panic "syntax")
  else .ok (cmd, nulterminate cmd b)

end Xv6.User.Shell
