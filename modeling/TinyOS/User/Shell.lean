/-
The parser of the shell (user/src/phase6/sh.c): the tokens of a line, the recursive descent over them,
and `nulterminate`, which turns the words of the line into strings where they stand.
-/
import TinyOS.Lib.Bytes

namespace TinyOS.Shell

open TinyOS.Lib

abbrev lt : UInt8 := 60
abbrev gt : UInt8 := 62
abbrev bar : UInt8 := 124
abbrev amp : UInt8 := 38
abbrev semi : UInt8 := 59
abbrev lpar : UInt8 := 40
abbrev rpar : UInt8 := 41

/-- What `gettoken` returns for a word, and for `>>`. -/
abbrev word : UInt8 := 97
abbrev plus : UInt8 := 43

/-- Blank, tab, carriage return, newline and vertical tab. -/
def whitespace : List UInt8 := [32, 9, 13, 10, 11]

def symbols : List UInt8 := [lt, bar, gt, amp, semi, lpar, rpar]

/-- `strchr(s, c) != 0`: the NUL at the end of `s` is found too. -/
def strchr (s : List UInt8) (c : UInt8) : Bool := s.contains c || c == 0

def wordChar (c : UInt8) : Bool := !strchr whitespace c && !strchr symbols c

/-- `while (s < es && p(*s)) s++;` with `n` bytes up to `es`. -/
def skip (m : Store) (p : UInt8 → Bool) : (n s : Nat) → Nat
  | 0, s => s
  | n + 1, s => if p (m s) then skip m p n (s + 1) else s

def skipSpace (m : Store) (es s : Nat) : Nat := skip m (strchr whitespace) (es - s) s

structure Token where
  ret : UInt8
  q : Nat
  eq : Nat
deriving DecidableEq

/-- The token at the cursor `s`, and the cursor behind it. -/
def gettoken (m : Store) (es s : Nat) : Token × Nat :=
  let s := skipSpace m es s
  let q := s
  let (ret, s) :=
    if m s = 0 then (0, s)
    else if m s ∈ [bar, lpar, rpar, semi, amp, lt] then (m s, s + 1)
    else if m s = gt then if m (s + 1) = gt then (plus, s + 2) else (gt, s + 1)
    else (word, skip m wordChar (es - s) s)
  (⟨ret, q, s⟩, skipSpace m es s)

/-- The cursor moves to the next token; is its first byte one of `toks`? -/
def peek (m : Store) (es s : Nat) (toks : List UInt8) : Bool × Nat :=
  let s := skipSpace m es s
  (m s != 0 && strchr toks (m s), s)

/-- `O_RDONLY`, `O_WRONLY | O_CREATE | O_TRUNC` and `O_WRONLY | O_CREATE`, with `SEEK_SET` or `SEEK_END`. -/
inductive Mode where
  | read
  | write
  | append
deriving DecidableEq

/-- A command; a word is the pair of its pointers `argv[i]` and `eargv[i]`, or `file` and `efile`. -/
inductive Cmd where
  | exec (argv : List (Nat × Nat))
  | redir (cmd : Cmd) (file : Nat × Nat) (mode : Mode)
  | pipe (left right : Cmd)
  | list (left right : Cmd)
  | back (cmd : Cmd)

inductive Fault where
  | fuel
  | panic (msg : String)
  /-- Writes `leftovers: %s` with the string at `s`, and panics with `syntax`. -/
  | leftovers (s : Nat)
deriving DecidableEq

abbrev Parse := Except Fault

/-- The redirections around a command, the first one innermost. -/
def wrap (c : Cmd) (rs : List ((Nat × Nat) × Mode)) : Cmd := rs.foldl (fun c r => .redir c r.1 r.2) c

def mode (tok : UInt8) : Mode := if tok = lt then .read else if tok = gt then .write else .append

/-- The redirections that `parseredirs` puts around its command, and the cursor. -/
def parseredirs (m : Store) (es : Nat) : (fuel s : Nat) → Parse (List ((Nat × Nat) × Mode) × Nat)
  | 0, _ => throw .fuel
  | fuel + 1, s => do
    let (b, s) := peek m es s [lt, gt]
    if !b then return ([], s)
    let (tok, s) := gettoken m es s
    let (w, s) := gettoken m es s
    if w.ret ≠ word then throw (.panic "missing file for redirection")
    let (rs, s) ← parseredirs m es fuel s
    return (((w.q, w.eq), mode tok.ret) :: rs, s)

/-- The loop of `parseexec` with `argc` words so far: the other words, the redirections and the cursor. -/
def parseargs (m : Store) (es : Nat) : (fuel argc s : Nat) → Parse (List (Nat × Nat) × List ((Nat × Nat) × Mode) × Nat)
  | 0, _, _ => throw .fuel
  | fuel + 1, argc, s => do
    let (b, s) := peek m es s [bar, rpar, amp, semi]
    if b then return ([], [], s)
    let (tok, s) := gettoken m es s
    if tok.ret = 0 then return ([], [], s)
    if tok.ret ≠ word then throw (.panic "syntax")
    if argc + 1 ≥ 10 then throw (.panic "too many args")
    let (rs, s) ← parseredirs m es fuel s
    let (ws, rs', s) ← parseargs m es fuel (argc + 1) s
    return ((tok.q, tok.eq) :: ws, rs ++ rs', s)

/-- `while (peek(ps, es, "&"))`. -/
def parseback (m : Store) (es : Nat) : (fuel : Nat) → Cmd → (s : Nat) → Parse (Cmd × Nat)
  | 0, _, _ => throw .fuel
  | fuel + 1, cmd, s => do
    let (b, s) := peek m es s [amp]
    if !b then return (cmd, s)
    let (_, s) := gettoken m es s
    parseback m es fuel (.back cmd) s

mutual

def parseline (m : Store) (es : Nat) : (fuel s : Nat) → Parse (Cmd × Nat)
  | 0, _ => throw .fuel
  | fuel + 1, s => do
    let (cmd, s) ← parsepipe m es fuel s
    let (cmd, s) ← parseback m es fuel cmd s
    let (b, s) := peek m es s [semi]
    if !b then return (cmd, s)
    let (_, s) := gettoken m es s
    let (right, s) ← parseline m es fuel s
    return (.list cmd right, s)
termination_by structural n => n

def parsepipe (m : Store) (es : Nat) : (fuel s : Nat) → Parse (Cmd × Nat)
  | 0, _ => throw .fuel
  | fuel + 1, s => do
    let (cmd, s) ← parseexec m es fuel s
    let (b, s) := peek m es s [bar]
    if !b then return (cmd, s)
    let (_, s) := gettoken m es s
    let (right, s) ← parsepipe m es fuel s
    return (.pipe cmd right, s)
termination_by structural n => n

def parseblock (m : Store) (es : Nat) : (fuel s : Nat) → Parse (Cmd × Nat)
  | 0, _ => throw .fuel
  | fuel + 1, s => do
    let (b, s) := peek m es s [lpar]
    if !b then throw (.panic "parseblock")
    let (_, s) := gettoken m es s
    let (cmd, s) ← parseline m es fuel s
    let (b, s) := peek m es s [rpar]
    if !b then throw (.panic "syntax - missing )")
    let (_, s) := gettoken m es s
    let (rs, s) ← parseredirs m es fuel s
    return (wrap cmd rs, s)
termination_by structural n => n

/-- The words that follow a redirection are still put into the command that it is around. -/
def parseexec (m : Store) (es : Nat) : (fuel s : Nat) → Parse (Cmd × Nat)
  | 0, _ => throw .fuel
  | fuel + 1, s => do
    let (b, s) := peek m es s [lpar]
    if b then parseblock m es fuel s
    else
      let (rs, s) ← parseredirs m es fuel s
      let (ws, rs', s) ← parseargs m es fuel 0 s
      return (wrap (.exec ws) (rs ++ rs'), s)
termination_by structural n => n

end

/-- A NUL behind each word. -/
def nulterminate (m : Store) : Cmd → Store
  | .exec argv => argv.foldl (fun m w => m.write w.2 [0]) m
  | .redir cmd file _ => (nulterminate m cmd).write file.2 [0]
  | .pipe left right => nulterminate (nulterminate m left) right
  | .list left right => nulterminate (nulterminate m left) right
  | .back cmd => nulterminate m cmd

/-- `parsecmd` on the string from `s` to its NUL at `es`. -/
def parsecmd (m : Store) (fuel s es : Nat) : Parse (Cmd × Store) := do
  let (cmd, s) ← parseline m es fuel s
  let (_, s) := peek m es s []
  if s ≠ es then throw (.leftovers s)
  return (cmd, nulterminate m cmd)

end TinyOS.Shell
