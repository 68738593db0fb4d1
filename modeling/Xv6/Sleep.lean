/-
proc.c: sleep, wakeup, kill and the scheduler, on any number of CPUs.

A CPU runs the scheduler or a process. An event is one step of a CPU:
acquiring a lock, releasing one, a change made while holding one, or `swtch`;
or what the code that calls these functions does next; or a timer interrupt
that makes a process yield. A lock is held by a CPU, and `swtch` hands the
lock of the process over with the CPU. A step that would spin, or fails a
check of `sched`, does not happen.

`sleeps` and `wakes` are auxiliary: how many times each process has called
`sleep`, and `wakeup` or `kill`.
-/
import Xv6.Kernel.State
import Xv6.Lib.Machine
import Mathlib.Logic.Function.Basic
import Mathlib.Data.Set.Card

namespace Xv6.Sleep

open Conc

/-- The spinlocks: one for each slot of `proc[]`, and the others. -/
inductive Lock (n : Nat) (L : Type) where
  | proc (p : Fin n)
  | other (l : L)
  deriving DecidableEq

/-- The two loops over `proc[]` that wake processes. -/
inductive Scan (Ch : Type) where
  | wakeup (chan : Ch)
  | kill (pid : Nat)

/-- Where a process is. -/
inductive PC (n : Nat) (L Ch : Type) where
  /-- In the code that calls these functions. -/
  | user
  /-- Nowhere: the slot has no process that could run. -/
  | dead
  /-- `release(&myproc()->lock)` in `forkret` -/
  | forkret
  /-- `acquire(&p->lock)` in `sleep` -/
  | sleepAcquire (chan : Ch) (lk : L)
  /-- `release(lk)` -/
  | sleepRelease (chan : Ch) (lk : L)
  /-- `p->chan = chan; p->state = SLEEPING` -/
  | sleepSet (chan : Ch) (lk : L)
  | schedSleep (lk : L)
  /-- `p->chan = 0` -/
  | sleepTidy (lk : L)
  /-- `release(&p->lock)` -/
  | sleepDrop (lk : L)
  /-- `acquire(lk)` -/
  | sleepLock (lk : L)
  /-- At the head of the loop over `proc[]`. -/
  | scan (f : Scan Ch) (i : Nat)
  /-- Holding `proc[i].lock`. -/
  | scanTest (f : Scan Ch) (i : Fin n)
  | scanRelease (f : Scan Ch) (i : Fin n) (found : Bool)
  | yieldAcquire (k : PC n L Ch)
  | yieldSet (k : PC n L Ch)
  | schedYield (k : PC n L Ch)
  | yieldRelease (k : PC n L Ch)
  | exitAcquire (lk : L)
  /-- `p->state = ZOMBIE` -/
  | exitSet (lk : L)
  /-- `release(&wait_lock)` -/
  | exitRelease (lk : L)
  | schedExit

/-- What a CPU does. -/
inductive Cpu (n : Nat) where
  /-- The scheduler, at the head of its loop over `proc[]`. -/
  | scan (i : Nat)
  /-- Holding `proc[i].lock`, before the test for `RUNNABLE`. -/
  | picked (i : Fin n)
  /-- About to release `proc[i].lock`. -/
  | drop (i : Fin n)
  | run (p : Fin n)
  deriving DecidableEq

/-- The CPUs `C`, the slots of `proc[]`, and the locks. -/
structure Kernel (n : Nat) (C L Ch : Type) where
  owner : Lock n L → Option C
  noff : C → Nat
  cpu : C → Cpu n
  state : Fin n → ProcState
  chan : Fin n → Option Ch
  pid : Fin n → Nat
  killed : Fin n → Bool
  pc : Fin n → PC n L Ch
  sleeps : Fin n → Nat
  wakes : Fin n → Nat

/-- What happens next on a CPU. -/
inductive Event (n : Nat) (C L Ch : Type) where
  /-- The next step of the scheduler, or of the process in one of these
  functions. -/
  | go (c : C)
  | acquire (c : C) (k : Lock n L)
  | release (c : C) (k : Lock n L)
  | sleep (c : C) (chan : Ch) (lk : L)
  | scan (c : C) (f : Scan Ch)
  | exit (c : C) (lk : L)
  /-- `allocproc` takes the slot `q`. -/
  | alloc (c : C) (q : Fin n) (pid : Nat)
  /-- `fork` makes the new process `RUNNABLE`. -/
  | publish (c : C) (q : Fin n)
  | freeproc (c : C) (q : Fin n)
  | timer (c : C)

namespace Kernel

variable {n : Nat} {C L Ch : Type} [DecidableEq C] [DecidableEq L] [DecidableEq Ch]

def goto (s : Kernel n C L Ch) (p : Fin n) (pc : PC n L Ch) : Kernel n C L Ch :=
  { s with pc := Function.update s.pc p pc }

/-- CPU `c` goes on with `r`. -/
def turn (s : Kernel n C L Ch) (c : C) (r : Cpu n) : Kernel n C L Ch :=
  { s with cpu := Function.update s.cpu c r }

/-- `acquire` by a CPU -/
def acquire (s : Kernel n C L Ch) (c : C) (k : Lock n L) : Option (Kernel n C L Ch) :=
  if s.owner k = none then
    some { s with
      owner := Function.update s.owner k (some c)
      noff := Function.update s.noff c (s.noff c + 1) }
  else none

/-- `release` by a CPU -/
def release (s : Kernel n C L Ch) (c : C) (k : Lock n L) : Option (Kernel n C L Ch) :=
  if s.owner k = some c then
    some { s with
      owner := Function.update s.owner k none
      noff := Function.update s.noff c (s.noff c - 1) }
  else none

def setState (s : Kernel n C L Ch) (p : Fin n) (st : ProcState) : Kernel n C L Ch :=
  { s with state := Function.update s.state p st }

/-- `sched`: back to the scheduler; the process goes on at `k` when it runs
again. -/
def sched (s : Kernel n C L Ch) (c : C) (p : Fin n) (k : PC n L Ch) : Option (Kernel n C L Ch) :=
  if s.owner (.proc p) = some c ∧ s.noff c = 1 ∧ s.state p ≠ .RUNNING then
    some ((s.goto p k).turn c (.drop p))
  else none

/-- What `wakeup` and `kill` do to a process whose lock they hold, and whether
they are done then. -/
def visit (s : Kernel n C L Ch) (i : Fin n) : Scan Ch → Kernel n C L Ch × Bool
  | .wakeup chan =>
    if s.state i = .SLEEPING ∧ s.chan i = some chan then (s.setState i .RUNNABLE, false)
    else (s, false)
  | .kill pid =>
    if s.pid i = pid then
      let s := { s with killed := Function.update s.killed i true }
      if s.state i = .SLEEPING then (s.setState i .RUNNABLE, true) else (s, true)
    else (s, false)

/-- `wakeup` leaves its caller out. -/
def skips (p i : Fin n) : Scan Ch → Bool
  | .wakeup _ => p = i
  | .kill _ => false

/-- The next step of process `p`, which CPU `c` runs. -/
def goProc (s : Kernel n C L Ch) (c : C) (p : Fin n) : Option (Kernel n C L Ch) :=
  match s.pc p with
  | .user | .dead => none
  | .forkret => (s.release c (.proc p)).map (·.goto p .user)
  | .sleepAcquire chan lk => (s.acquire c (.proc p)).map (·.goto p (.sleepRelease chan lk))
  | .sleepRelease chan lk => (s.release c (.other lk)).map (·.goto p (.sleepSet chan lk))
  | .sleepSet chan lk =>
    some (({ s with chan := Function.update s.chan p (some chan) }.setState p .SLEEPING).goto p
      (.schedSleep lk))
  | .schedSleep lk => s.sched c p (.sleepTidy lk)
  | .sleepTidy lk => some ({ s with chan := Function.update s.chan p none }.goto p (.sleepDrop lk))
  | .sleepDrop lk => (s.release c (.proc p)).map (·.goto p (.sleepLock lk))
  | .sleepLock lk => (s.acquire c (.other lk)).map (·.goto p .user)
  | .scan f i =>
    if h : i < n then
      if skips p ⟨i, h⟩ f then some (s.goto p (.scan f (i + 1)))
      else (s.acquire c (.proc ⟨i, h⟩)).map (·.goto p (.scanTest f ⟨i, h⟩))
    else some (s.goto p .user)
  | .scanTest f i => some ((s.visit i f).1.goto p (.scanRelease f i (s.visit i f).2))
  | .scanRelease f i found =>
    (s.release c (.proc i)).map (·.goto p (if found then .user else .scan f (i + 1)))
  | .yieldAcquire k => (s.acquire c (.proc p)).map (·.goto p (.yieldSet k))
  | .yieldSet k => some ((s.setState p .RUNNABLE).goto p (.schedYield k))
  | .schedYield k => s.sched c p (.yieldRelease k)
  | .yieldRelease k => (s.release c (.proc p)).map (·.goto p k)
  | .exitAcquire lk => (s.acquire c (.proc p)).map (·.goto p (.exitSet lk))
  | .exitSet lk => some ((s.setState p .ZOMBIE).goto p (.exitRelease lk))
  | .exitRelease lk => (s.release c (.other lk)).map (·.goto p .schedExit)
  | .schedExit => s.sched c p .dead

/-- The next step of CPU `c`. -/
def go (s : Kernel n C L Ch) (c : C) : Option (Kernel n C L Ch) :=
  match s.cpu c with
  | .scan i =>
    if h : i < n then (s.acquire c (.proc ⟨i, h⟩)).map (·.turn c (.picked ⟨i, h⟩))
    else some (s.turn c (.scan 0))
  | .picked i =>
    if s.state i = .RUNNABLE then some ((s.setState i .RUNNING).turn c (.run i))
    else some (s.turn c (.drop i))
  | .drop i => (s.release c (.proc i)).map (·.turn c (.scan (i + 1)))
  | .run p => s.goProc c p

/-- A timer interrupt that makes the process yield. -/
def timer (s : Kernel n C L Ch) (c : C) (p : Fin n) : Option (Kernel n C L Ch) :=
  match s.pc p with
  | .dead | .yieldAcquire _ | .yieldSet _ | .schedYield _ | .yieldRelease _ => none
  | k => if s.noff c = 0 then some (s.goto p (.yieldAcquire k)) else none

/-- What process `p`, which CPU `c` runs outside these functions, does. -/
def call (s : Kernel n C L Ch) (c : C) (p : Fin n) : Event n C L Ch → Option (Kernel n C L Ch)
  | .acquire _ k => s.acquire c k
  | .release _ k => s.release c k
  | .sleep _ chan lk =>
    if s.owner (.other lk) = some c then
      some ({ s with sleeps := Function.update s.sleeps p (s.sleeps p + 1) }.goto p
        (.sleepAcquire chan lk))
    else none
  | .scan _ f =>
    some ({ s with wakes := Function.update s.wakes p (s.wakes p + 1) }.goto p (.scan f 0))
  | .exit _ lk =>
    if s.owner (.other lk) = some c then some (s.goto p (.exitAcquire lk)) else none
  | .alloc _ q pid =>
    if s.owner (.proc q) = some c ∧ s.state q = .UNUSED then
      some ({ s with pid := Function.update s.pid q pid }.setState q .USED)
    else none
  | .publish _ q =>
    if s.owner (.proc q) = some c ∧ s.state q = .USED then
      some ((s.setState q .RUNNABLE).goto q .forkret)
    else none
  | .freeproc _ q =>
    if s.owner (.proc q) = some c ∧ (s.state q = .USED ∨ s.state q = .ZOMBIE) then
      some ({ s with
        pid := Function.update s.pid q 0
        chan := Function.update s.chan q none
        killed := Function.update s.killed q false }.setState q .UNUSED)
    else none
  | .go _ | .timer _ => none

end Kernel

def Event.cpu {n : Nat} {C L Ch : Type} : Event n C L Ch → C
  | .go c | .acquire c _ | .release c _ | .sleep c _ _ | .scan c _ | .exit c _ | .alloc c _ _
  | .publish c _ | .freeproc c _ | .timer c => c

/-- The kernel from the moment every CPU enters the scheduler on. -/
def machine (n : Nat) (C L Ch : Type) [DecidableEq C] [DecidableEq L] [DecidableEq Ch] :
    Machine (Kernel n C L Ch) (Event n C L Ch) where
  init s := (∀ k, s.owner k = none) ∧ (∀ c, s.noff c = 0) ∧ (∀ c, s.cpu c = .scan 0) ∧
    ∀ p, s.state p = .UNUSED ∧ s.pc p = .dead ∨ s.state p = .RUNNABLE ∧ s.pc p = .forkret
  next s e :=
    match e with
    | .go c => s.go c
    | .timer c =>
      match s.cpu c with
      | .run p => s.timer c p
      | _ => none
    | e =>
      match s.cpu e.cpu with
      | .run p =>
        match s.pc p with
        | .user => s.call e.cpu p e
        | _ => none
      | _ => none

end Xv6.Sleep
