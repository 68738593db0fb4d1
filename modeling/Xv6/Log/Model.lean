/-
log.c and bio.c: the write-ahead log over the buffer cache, the disk, and
crashes.

An event is one step of one process: a section under `log.lock`, a buffer
call, or one turn of a loop of `commit` or `recover_from_log`, each of which
writes one block to the disk. A crash may come between any two of them.
Blocks hold values of any type; the header block of the log is kept apart, as
its `struct logheader`. A process that would wait has no step.

`hist`, `mark`, `opNo`, `dirty` and `since` are auxiliary: every change to a
buffer with the operation that made it, how many of them the last header write
committed, the number of each process's operation, whether a held buffer was
changed after its last `log_write`, and what was passed to `log_write` since
the last commit.
-/
import Xv6.Lib.Machine
import Mathlib.Logic.Function.Basic
import Mathlib.Data.Finset.Card

namespace Xv6.Log

open Conc

/-- max # of blocks any FS op writes -/
def MAXOPBLOCKS : Nat := 10

/-- max data blocks in on-disk log -/
def LOGSIZE : Nat := MAXOPBLOCKS * 3

/-- The part of the superblock that `initlog` reads. -/
structure Superblock where
  nlog : Nat
  logstart : Nat

/-- The superblock that mkfs writes. -/
def Superblock.mkfs : Superblock where
  nlog := LOGSIZE
  logstart := 2

/-- Block `b` is in the log region. -/
def Superblock.InLog (sb : Superblock) (b : Nat) : Prop :=
  sb.logstart ≤ b ∧ b < sb.logstart + sb.nlog

instance (sb : Superblock) (b : Nat) : Decidable (sb.InLog b) := by
  unfold Superblock.InLog
  infer_instance

/-- The block that holds the copy of the `tail`-th logged block. -/
def Superblock.slot (sb : Superblock) (tail : Nat) : Nat := sb.logstart + tail + 1

/-- Where a process is: out of any operation, inside one, or in the `commit`
that its `end_op` does. -/
inductive PC where
  | out
  | op
  | writeLog (tail : Nat)
  | writeHead
  | installTrans (tail : Nat)
  /-- `log.lh.n = 0`, and about to erase the transaction from the log. -/
  | clear
  /-- About to reset `log.committing`. -/
  | finish
  deriving DecidableEq

/-- Where `recover_from_log` is after a boot. -/
inductive Boot where
  | readHead
  | installTrans (tail : Nat)
  | clear
  deriving DecidableEq

/-- An operation: a process and the number of its `begin_op`. -/
abbrev Op (P : Type) := P × Nat

/-- A change to a buffer inside an operation. -/
structure Change (P B : Type) where
  op : Op P
  block : Nat
  data : B

/-- The disk, the buffer cache and `struct log`. -/
structure State (P B : Type) where
  disk : Nat → B
  head : List Nat
  cache : Nat → Option B
  lock : Nat → Option P
  pins : Nat → Nat
  outstanding : Nat
  committing : Bool
  lh : List Nat
  pc : P → PC
  boot : Option Boot
  panicked : Option String
  base : Nat → B
  hist : List (Change P B)
  mark : Nat
  opNo : P → Nat
  dirty : Nat → Bool
  since : List (Op P × Nat)

/-- What happens next. -/
inductive Event (P B : Type) where
  | beginOp (p : P)
  | bread (p : P) (b : Nat)
  | modify (p : P) (b : Nat) (data : B)
  | logWrite (p : P) (b : Nat)
  | brelse (p : P) (b : Nat)
  /-- A buffer that nobody uses is taken for another block. -/
  | evict (b : Nat)
  | endOp (p : P)
  | commit (p : P)
  | crash
  | recover

namespace State

variable {P B : Type} [DecidableEq P] (sb : Superblock)

/-- What `bread` returns: the cached contents, or what is on the disk. -/
def read (s : State P B) (b : Nat) : B := (s.cache b).getD (s.disk b)

/-- The buffer of block `b` with its contents, valid. -/
def load (s : State P B) (b : Nat) : State P B :=
  { s with cache := Function.update s.cache b (some (s.read b)) }

/-- `bwrite` of a buffer with contents `data`. -/
def bwrite (s : State P B) (b : Nat) (data : B) : State P B :=
  { s with cache := Function.update s.cache b (some data), disk := Function.update s.disk b data }

/-- Process `p` goes on at `pc`. -/
def goto (s : State P B) (p : P) (pc : PC) : State P B := { s with pc := Function.update s.pc p pc }

def panic (s : State P B) (msg : String) : State P B := { s with panicked := some msg }

def beginOp (s : State P B) (p : P) : Option (State P B) :=
  if s.pc p = .out then
    if s.committing then none
    else if s.lh.length + (s.outstanding + 1) * MAXOPBLOCKS > LOGSIZE then none
    else some ({ s with
      outstanding := s.outstanding + 1
      opNo := Function.update s.opNo p (s.opNo p + 1) }.goto p .op)
  else none

def bread (s : State P B) (p : P) (b : Nat) : Option (State P B) :=
  if ¬ sb.InLog b ∧ s.lock b = none then
    some { s.load b with lock := Function.update s.lock b (some p) }
  else none

/-- The holder of a buffer changes it inside an operation. -/
def modify (s : State P B) (p : P) (b : Nat) (data : B) : Option (State P B) :=
  if s.lock b = some p ∧ s.pc p = .op then
    some { s with
      cache := Function.update s.cache b (some data)
      hist := s.hist ++ [⟨(p, s.opNo p), b, data⟩]
      dirty := Function.update s.dirty b true }
  else none

/-- `log_write` -/
def logWrite (s : State P B) (p : P) (b : Nat) : Option (State P B) :=
  if s.lock b = some p ∧ s.pc p = .op then
    if s.lh.length ≥ LOGSIZE ∨ s.lh.length ≥ sb.nlog - 1 then
      some (s.panic "too big a transaction")
    else if s.outstanding < 1 then some (s.panic "log_write outside of trans")
    else
      let s := { s with
        dirty := Function.update s.dirty b false
        since := s.since ++ [((p, s.opNo p), b)] }
      -- log absorption
      if b ∈ s.lh then some s
      else some { s with lh := s.lh ++ [b], pins := Function.update s.pins b (s.pins b + 1) }
  else none

def brelse (s : State P B) (p : P) (b : Nat) : Option (State P B) :=
  if s.lock b = some p then some { s with lock := Function.update s.lock b none } else none

def evict (s : State P B) (b : Nat) : Option (State P B) :=
  if s.lock b = none ∧ s.pins b = 0 then some { s with cache := Function.update s.cache b none }
  else none

def endOp (s : State P B) (p : P) : Option (State P B) :=
  if s.pc p = .op then
    let s := { s with outstanding := s.outstanding - 1 }
    if s.committing then some (s.panic "log.committing")
    else if s.outstanding = 0 then
      some ({ s with committing := true }.goto p (if s.lh = [] then .finish else .writeLog 0))
    else some (s.goto p .out)
  else none

/-- The next step of `commit`. -/
def commit (s : State P B) (p : P) : Option (State P B) :=
  match s.pc p with
  | .writeLog tail =>
    match s.lh[tail]? with
    | some b =>
      if s.lock b = none then
        some (((s.load b).bwrite (sb.slot tail) (s.read b)).goto p (.writeLog (tail + 1)))
      else none
    | none => some (s.goto p .writeHead)
  | .writeHead => some ({ s with head := s.lh, mark := s.hist.length }.goto p (.installTrans 0))
  | .installTrans tail =>
    match s.lh[tail]? with
    | some b =>
      if s.lock b = none then
        let lbuf := s.read (sb.slot tail)
        let s := (s.load (sb.slot tail)).bwrite b lbuf
        some ({ s with pins := Function.update s.pins b (s.pins b - 1) }.goto p
          (.installTrans (tail + 1)))
      else none
    | none => some (s.goto p .clear)
  | .clear => some ({ s with lh := [], head := [], since := [] }.goto p .finish)
  | .finish => some ({ s with committing := false }.goto p .out)
  | .out | .op => none

/-- The power fails: what was in memory is gone, and the machine boots. -/
def crash (s : State P B) : State P B :=
  { s with
    cache := fun _ => none
    lock := fun _ => none
    pins := fun _ => 0
    outstanding := 0
    committing := false
    lh := []
    pc := fun _ => .out
    boot := some .readHead
    panicked := none
    hist := s.hist.take s.mark
    dirty := fun _ => false
    since := [] }

/-- The next step of `recover_from_log`. -/
def recover (s : State P B) : Option (State P B) :=
  match s.boot with
  | none => none
  | some .readHead => some { s with lh := s.head, boot := some (.installTrans 0) }
  | some (.installTrans tail) =>
    match s.lh[tail]? with
    | some b =>
      let lbuf := s.read (sb.slot tail)
      some { (s.load (sb.slot tail)).bwrite b lbuf with boot := some (.installTrans (tail + 1)) }
    | none => some { s with boot := some .clear }
  | some .clear => some { s with lh := [], head := [], boot := none }

end State

/-- A machine that boots with the disk `d`, whose log is empty. -/
def State.mkfs {P B : Type} (d : Nat → B) : State P B where
  disk := d
  head := []
  cache := fun _ => none
  lock := fun _ => none
  pins := fun _ => 0
  outstanding := 0
  committing := false
  lh := []
  pc := fun _ => .out
  boot := some .readHead
  panicked := none
  base := d
  hist := []
  mark := 0
  opNo := fun _ => 0
  dirty := fun _ => false
  since := []

/-- The file system from its first boot on. While `recover_from_log` runs
there are no other processes, and after a panic nothing runs. -/
def machine (P B : Type) [DecidableEq P] (sb : Superblock) : Machine (State P B) (Event P B) where
  init s := ∃ d, s = .mkfs d
  next s e :=
    match e with
    | .crash => some s.crash
    | .recover => if s.panicked = none then s.recover sb else none
    | _ =>
      if s.panicked = none ∧ s.boot = none then
        match e with
        | .beginOp p => s.beginOp p
        | .bread p b => s.bread sb p b
        | .modify p b data => s.modify p b data
        | .logWrite p b => s.logWrite sb p b
        | .brelse p b => s.brelse p b
        | .evict b => s.evict b
        | .endOp p => s.endOp p
        | .commit p => s.commit sb p
        | .crash | .recover => none
      else none

end Xv6.Log
