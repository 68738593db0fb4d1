/-
sh.c: the parser of the shell, and the grammar that it is for.

`Cmd Ptr` is a command as it is parsed, with pointers to its strings, and
`Cmd (List UInt8)` one with their text. Recursion and loops take the number of
their steps as an argument.
-/
import Xv6.Lib.Ends
import Xv6.ShellTokens
import Mathlib.Logic.Function.Iterate

namespace Xv6.Shell

open Conc

def MAXARGS : Nat := 10

/-! ## fcntl.h -/

def O_RDONLY : Nat := 0x000
def O_WRONLY : Nat := 0x001
def O_CREATE : Nat := 0x200
def O_TRUNC : Nat := 0x400

/-- Where a string starts and ends. -/
abbrev Ptr := Nat × Nat

/-- Commands, in which `α` stands for strings. -/
inductive Cmd (α : Type) where
  | exec (argv : List α)
  | redir (cmd : Cmd α) (file : α) (mode fd : Nat)
  | pipe (left right : Cmd α)
  | list (left right : Cmd α)
  | back (cmd : Cmd α)

namespace Cmd

variable {α β : Type}

/-- An argument for the `execcmd` below the redirections. -/
def addArg (p : α) : Cmd α → Cmd α
  | exec argv => exec (argv ++ [p])
  | redir cmd file mode fd => redir (cmd.addArg p) file mode fd
  | cmd => cmd

/-- The `switch` of `parseredirs`. -/
def redirect (tok : UInt8) (file : α) (cmd : Cmd α) : Cmd α :=
  if tok = less then redir cmd file O_RDONLY 0
  else if tok = greater then redir cmd file (O_WRONLY ||| O_CREATE ||| O_TRUNC) 1
  else if tok = plus then redir cmd file (O_WRONLY ||| O_CREATE) 1
  else cmd

def map (f : α → β) : Cmd α → Cmd β
  | exec argv => exec (argv.map f)
  | redir cmd file mode fd => redir (cmd.map f) (f file) mode fd
  | pipe left right => pipe (left.map f) (right.map f)
  | list left right => list (left.map f) (right.map f)
  | back cmd => back (cmd.map f)

end Cmd

def parseredirs (m : List UInt8) (es : Nat) :
    (fuel : Nat) → Cmd Ptr → Nat → Except Stop (Cmd Ptr × Nat)
  | 0, _, _ => .error .running
  | fuel + 1, cmd, s => do
    let (more, s) ← peek m es s [less, greater]
    if more then do
      let (tok, _, s) ← gettoken m es s
      let (tok', file, s) ← gettoken m es s
      if tok' ≠ letter then .error (.panic "missing file for redirection")
      else parseredirs m es fuel (cmd.redirect tok file) s
    else pure (cmd, s)

/-- The loop of `parseexec`. -/
def parseargs (m : List UInt8) (es : Nat) :
    (fuel : Nat) → Cmd Ptr → (argc s : Nat) → Except Stop (Cmd Ptr × Nat)
  | 0, _, _, _ => .error .running
  | fuel + 1, ret, argc, s => do
    let (stop, s) ← peek m es s [bar, rparen, amp, semi]
    if stop then pure (ret, s)
    else do
      let (tok, arg, s) ← gettoken m es s
      if tok = 0 then pure (ret, s)
      else if tok ≠ letter then .error (.panic "syntax")
      else do
        let ret := ret.addArg arg
        let argc := argc + 1
        if argc ≥ MAXARGS then .error (.panic "too many args")
        else do
          let (ret, s) ← parseredirs m es fuel ret s
          parseargs m es fuel ret argc s

/-- The loop of `parseline`. -/
def parseback (m : List UInt8) (es : Nat) :
    (fuel : Nat) → Cmd Ptr → Nat → Except Stop (Cmd Ptr × Nat)
  | 0, _, _ => .error .running
  | fuel + 1, cmd, s => do
    let (more, s) ← peek m es s [amp]
    if more then do
      let (_, _, s) ← gettoken m es s
      parseback m es fuel (.back cmd) s
    else pure (cmd, s)

mutual

def parseline (m : List UInt8) (es : Nat) : (fuel s : Nat) → Except Stop (Cmd Ptr × Nat)
  | 0, _ => .error .running
  | fuel + 1, s => do
    let (cmd, s) ← parsepipe m es fuel s
    let (cmd, s) ← parseback m es fuel cmd s
    let (more, s) ← peek m es s [semi]
    if more then do
      let (_, _, s) ← gettoken m es s
      let (right, s) ← parseline m es fuel s
      pure (.list cmd right, s)
    else pure (cmd, s)

def parsepipe (m : List UInt8) (es : Nat) : (fuel s : Nat) → Except Stop (Cmd Ptr × Nat)
  | 0, _ => .error .running
  | fuel + 1, s => do
    let (cmd, s) ← parseexec m es fuel s
    let (more, s) ← peek m es s [bar]
    if more then do
      let (_, _, s) ← gettoken m es s
      let (right, s) ← parsepipe m es fuel s
      pure (.pipe cmd right, s)
    else pure (cmd, s)

def parseblock (m : List UInt8) (es : Nat) : (fuel s : Nat) → Except Stop (Cmd Ptr × Nat)
  | 0, _ => .error .running
  | fuel + 1, s => do
    let (ok, s) ← peek m es s [lparen]
    if ! ok then .error (.panic "parseblock")
    else do
      let (_, _, s) ← gettoken m es s
      let (cmd, s) ← parseline m es fuel s
      let (ok, s) ← peek m es s [rparen]
      if ! ok then .error (.panic "syntax - missing )")
      else do
        let (_, _, s) ← gettoken m es s
        parseredirs m es fuel cmd s

def parseexec (m : List UInt8) (es : Nat) : (fuel s : Nat) → Except Stop (Cmd Ptr × Nat)
  | 0, _ => .error .running
  | fuel + 1, s => do
    let (block, s) ← peek m es s [lparen]
    if block then parseblock m es fuel s
    else do
      let (ret, s) ← parseredirs m es fuel (.exec []) s
      parseargs m es fuel ret 0 s

end

def store (m : List UInt8) (i : Nat) (c : UInt8) : Except Stop (List UInt8) :=
  if i < m.length then .ok (m.set i c) else .error .fault

/-- NUL-terminate all the counted strings. -/
def nulterminate : Cmd Ptr → List UInt8 → Except Stop (List UInt8)
  | .exec argv, m => argv.foldlM (fun m p => store m p.2 0) m
  | .redir cmd file _ _, m => do
    let m ← nulterminate cmd m
    store m file.2 0
  | .pipe left right, m => do
    let m ← nulterminate left m
    nulterminate right m
  | .list left right, m => do
    let m ← nulterminate left m
    nulterminate right m
  | .back cmd, m => nulterminate cmd m

/-- The command that the string `b` is parsed to, and the memory after that. -/
def parsecmd (fuel : Nat) (b : List UInt8) : Except Stop (Cmd Ptr × List UInt8) := do
  let m := b ++ [0]
  let es := b.length
  let (cmd, s) ← parseline m es fuel 0
  let (_, s) ← peek m es s []
  if s ≠ es then .error (.panic "syntax")
  else do
    let m ← nulterminate cmd m
    pure (cmd, m)

/-- The string at a pointer. -/
def cstring (m : List UInt8) (p : Ptr) : List UInt8 := (m.drop p.1).takeWhile (· ≠ 0)

/-! ## The grammar -/

/-- The mode and the descriptor of a redirection. -/
def Token.mode : Token → Option (Nat × Nat)
  | .less => some (O_RDONLY, 0)
  | .greater => some (O_WRONLY ||| O_CREATE ||| O_TRUNC, 1)
  | .append => some (O_WRONLY ||| O_CREATE, 1)
  | _ => none

/-- A redirection: its file, mode and descriptor. -/
abbrev Redir := List UInt8 × Nat × Nat

/-- The command with redirections around it, the last one outermost. -/
def Cmd.wrap (c : Cmd (List UInt8)) (rs : List Redir) : Cmd (List UInt8) :=
  rs.foldl (fun c r => .redir c r.1 r.2.1 r.2.2) c

/-- Words and redirections, intermixed. -/
inductive Items : List Token → (words : List (List UInt8)) → List Redir → Prop
  | nil : Items [] [] []
  | word {w : List UInt8} {ts : List Token} {ws : List (List UInt8)} {rs : List Redir}
      (h : Items ts ws rs) : Items (.word w :: ts) (w :: ws) rs
  | redir {op : Token} {mode fd : Nat} {f : List UInt8} {ts : List Token}
      {ws : List (List UInt8)} {rs : List Redir} (hop : op.mode = some (mode, fd))
      (h : Items ts ws rs) : Items (op :: .word f :: ts) ws ((f, mode, fd) :: rs)

inductive Symbol where
  | line
  | pipe
  | exec

/-- The tokens derive from the symbol, and this is their tree. -/
inductive Derives : Symbol → List Token → Cmd (List UInt8) → Prop
  | words {ts : List Token} {ws : List (List UInt8)} {rs : List Redir} (h : Items ts ws rs)
      (hlt : ws.length < MAXARGS) : Derives .exec ts ((Cmd.exec ws).wrap rs)
  | block {ts rts : List Token} {c : Cmd (List UInt8)} {rs : List Redir} (h : Derives .line ts c)
      (hr : Items rts [] rs) : Derives .exec (.lparen :: (ts ++ .rparen :: rts)) (c.wrap rs)
  | single {ts : List Token} {c : Cmd (List UInt8)} (h : Derives .exec ts c) : Derives .pipe ts c
  | pipe {ts ts' : List Token} {c c' : Cmd (List UInt8)} (h : Derives .exec ts c)
      (h' : Derives .pipe ts' c') : Derives .pipe (ts ++ .bar :: ts') (.pipe c c')
  | line {ts : List Token} {c : Cmd (List UInt8)} (n : Nat) (h : Derives .pipe ts c) :
      Derives .line (ts ++ List.replicate n .amp) (Cmd.back^[n] c)
  | list {ts ts' : List Token} {c c' : Cmd (List UInt8)} (n : Nat) (h : Derives .pipe ts c)
      (h' : Derives .line ts' c') :
      Derives .line (ts ++ (List.replicate n .amp ++ .semi :: ts')) (.list (Cmd.back^[n] c) c')

end Xv6.Shell
