/-
bio.c: the buffer cache, over `n` buffers, used by the processes `P`.

A step is one turn of a loop of `bget`, which holds `bcache.lock` all the
while, another section under that lock, or taking or giving up the lock of a
buffer. `B` is the contents of a block; `virtio_disk_rw` copies them. A process
that would wait, and a `panic`, take no step.

`refcnt` is a natural number: a buffer has far fewer users than 2^32. `pins`,
`clock` and `last` are auxiliary: how many calls of `bpin` a buffer has had
that no `bunpin` has undone, and when its last `brelse` was.
-/
import Xv6.Lib.Machine
import Xv6.Lib.Ring
import Mathlib.Data.Fintype.Card
import Mathlib.Data.List.FinRange

namespace Xv6.BufferCache

open Conc

/-- Where a process is. -/
inductive PC (n : Nat) where
  | user
  /-- In the loop of `bget` that looks for the block, at node `b`. -/
  | lookup (dev blockno : Nat) (b : Option (Fin n))
  /-- In the loop of `bget` that looks for an unused buffer. -/
  | recycle (dev blockno : Nat) (b : Option (Fin n))
  /-- `acquiresleep(&b->lock)` in `bget` -/
  | acquire (dev blockno : Nat) (b : Fin n)
  /-- `if(!b->valid)` in `bread` -/
  | read (dev blockno : Nat) (b : Fin n)
  /-- In `brelse`, after `releasesleep(&b->lock)`. -/
  | release (b : Fin n)
  deriving DecidableEq

/-- `bcache` and the disk. -/
structure State (P : Type) (n : Nat) (B : Type) where
  links : Links (Fin n)
  valid : Fin n → Bool
  dev : Fin n → Nat
  blockno : Fin n → Nat
  refcnt : Fin n → Nat
  data : Fin n → B
  /-- The process that holds the sleep-lock of a buffer. -/
  lock : Fin n → Option P
  /-- The process that holds `bcache.lock`. -/
  bcacheLock : Option P
  disk : Nat → B
  pc : P → PC n
  pins : Fin n → Nat
  clock : Nat
  last : Fin n → Option Nat

/-- What happens next. -/
inductive Event (P : Type) (n : Nat) (B : Type) where
  /-- The next step of a process in one of these functions. -/
  | go (p : P)
  | bread (p : P) (dev blockno : Nat)
  /-- The holder of a buffer changes its contents. -/
  | modify (p : P) (b : Fin n) (data : B)
  | bwrite (p : P) (b : Fin n)
  | brelse (p : P) (b : Fin n)
  | bpin (p : P) (b : Fin n)
  /-- `bunpin`, which undoes a `bpin`, by the holder of the buffer. -/
  | bunpin (p : P) (b : Fin n)

namespace State

variable {P : Type} {n : Nat} {B : Type} [DecidableEq P]

def goto (s : State P n B) (p : P) (pc : PC n) : State P n B :=
  { s with pc := Function.update s.pc p pc }

/-- `release(&bcache.lock)` -/
def unlock (s : State P n B) : State P n B := { s with bcacheLock := none }

/-- `b->refcnt++` -/
def ref (s : State P n B) (b : Fin n) : State P n B :=
  { s with refcnt := Function.update s.refcnt b (s.refcnt b + 1) }

/-- `acquiresleep(&b->lock)`, when no process has the lock. -/
def acquiresleep (s : State P n B) (p : P) (b : Fin n) : State P n B :=
  { s with lock := Function.update s.lock b (some p) }

/-- `releasesleep(&b->lock)` -/
def releasesleep (s : State P n B) (b : Fin n) : State P n B :=
  { s with lock := Function.update s.lock b none }

/-- What `bget` writes to a buffer that it takes for another block. -/
def assign (s : State P n B) (b : Fin n) (dev blockno : Nat) : State P n B :=
  { s with
    dev := Function.update s.dev b dev
    blockno := Function.update s.blockno b blockno
    valid := Function.update s.valid b false
    refcnt := Function.update s.refcnt b 1 }

/-- `virtio_disk_rw(b, 0); b->valid = 1` -/
def fill (s : State P n B) (b : Fin n) : State P n B :=
  { s with
    data := Function.update s.data b (s.disk (s.blockno b))
    valid := Function.update s.valid b true }

/-- `b->refcnt--` in `brelse` -/
def unref (s : State P n B) (b : Fin n) : State P n B :=
  { s with
    refcnt := Function.update s.refcnt b (s.refcnt b - 1)
    clock := s.clock + 1
    last := Function.update s.last b (some s.clock) }

/-- The section of `brelse` under `bcache.lock`. -/
def drop (s : State P n B) (b : Fin n) : State P n B :=
  let s := s.unref b
  if s.refcnt b = 0 then { s with links := (s.links.unlink b).insertFront b } else s

/-- The next step of process `p`. -/
def go (s : State P n B) (p : P) : Option (State P n B) :=
  match s.pc p with
  | .user => none
  | .lookup dev blockno none => some (s.goto p (.recycle dev blockno (s.links.prev none)))
  | .lookup dev blockno (some b) =>
    if s.dev b = dev ∧ s.blockno b = blockno then
      some ((s.ref b).unlock.goto p (.acquire dev blockno b))
    else some (s.goto p (.lookup dev blockno (s.links.next (some b))))
  -- `panic("bget: no buffers")`
  | .recycle _ _ none => none
  | .recycle dev blockno (some b) =>
    if s.refcnt b = 0 then
      some ((s.assign b dev blockno).unlock.goto p (.acquire dev blockno b))
    else some (s.goto p (.recycle dev blockno (s.links.prev (some b))))
  | .acquire dev blockno b =>
    if s.lock b = none then some ((s.acquiresleep p b).goto p (.read dev blockno b)) else none
  | .read _ _ b => some ((if s.valid b then s else s.fill b).goto p .user)
  | .release b => if s.bcacheLock = none then some ((s.drop b).goto p .user) else none

/-- What process `p` calls next. -/
def call (s : State P n B) (p : P) : Event P n B → Option (State P n B)
  | .go _ => none
  | .bread _ dev blockno =>
    if s.bcacheLock = none then
      some ({ s with bcacheLock := some p }.goto p (.lookup dev blockno (s.links.next none)))
    else none
  | .modify _ b data =>
    if s.lock b = some p then some { s with data := Function.update s.data b data } else none
  | .bwrite _ b =>
    -- `panic("bwrite")`
    if s.lock b = some p then
      some { s with disk := Function.update s.disk (s.blockno b) (s.data b) }
    else none
  | .brelse _ b =>
    -- `panic("brelse")`
    if s.lock b = some p then some ((s.releasesleep b).goto p (.release b)) else none
  | .bpin _ b =>
    if s.bcacheLock = none then
      some { s.ref b with pins := Function.update s.pins b (s.pins b + 1) }
    else none
  | .bunpin _ b =>
    if s.bcacheLock = none ∧ s.lock b = some p ∧ 0 < s.pins b then
      some { s with
        refcnt := Function.update s.refcnt b (s.refcnt b - 1)
        pins := Function.update s.pins b (s.pins b - 1) }
    else none

end State

def Event.process {P : Type} {n : Nat} {B : Type} : Event P n B → P
  | .go p | .bread p _ _ | .modify p _ _ | .bwrite p _ | .brelse p _ | .bpin p _ | .bunpin p _ => p

/-- The links that `binit` makes. -/
def binit {n : Nat} (L : Links (Fin n)) : Links (Fin n) :=
  (List.finRange n).foldl Links.insertFront L.empty

/-- The cache from `binit` on. -/
def machine (P : Type) (n : Nat) (B : Type) [DecidableEq P] :
    Machine (State P n B) (Event P n B) where
  init s := (∃ L, s.links = binit L) ∧
    (∀ b, s.valid b = false ∧ s.dev b = 0 ∧ s.blockno b = 0 ∧ s.refcnt b = 0 ∧ s.lock b = none ∧
      s.pins b = 0 ∧ s.last b = none) ∧
    s.bcacheLock = none ∧ ∀ p, s.pc p = .user
  next s e :=
    match e with
    | .go p => s.go p
    | e => if s.pc e.process = .user then s.call e.process e else none

end Xv6.BufferCache
