/-
proc.c: fork, exit, wait, kill and the reparenting that exit does.

A step is a section under the lock of one process, or a section under
`wait_lock`; a section under `wait_lock` that takes the locks of processes is
as many steps as it takes locks, and `waitLock` says who is in it. `fork`
holds the lock of its child from `allocproc` on until it has filled it in.

`born`, `forker`, `exits` and `reaps` are auxiliary: how many processes a slot
has had, which process called `fork` for the one it has, and the processes
that have exited and been reaped.
-/
import Xv6.Kernel.State
import Xv6.Lib.Machine
import Mathlib.Logic.Function.Basic

namespace Xv6.ExitWait

open Conc

/-- What a process sleeps on. -/
inductive Chan (n : Nat) where
  | proc (p : Fin n)
  | other
  deriving DecidableEq

/-- Where a process is. -/
inductive PC (n : Nat) where
  /-- In code that holds none of these locks. -/
  | user
  /-- Nowhere: the slot has no process that could run. -/
  | dead
  /-- `np->parent = p` in `fork` -/
  | forkParent (np : Fin n)
  /-- `np->state = RUNNABLE` -/
  | forkPublish (np : Fin n)
  /-- At the head of the loop of `reparent`. -/
  | reparent (status : Int) (i : Nat)
  /-- In `wakeup(initproc)`, at the head of its loop; `pp` is the child. -/
  | reparentWakeup (status : Int) (pp : Fin n) (i : Nat)
  /-- In `wakeup(p->parent)` in `exit`, at the head of its loop. -/
  | exitWakeup (status : Int) (chan : Option (Chan n)) (i : Nat)
  /-- At the head of the loop over `proc[]` in `wait`. -/
  | wait (havekids : Bool) (i : Nat)
  /-- `killed(p)` in `wait` -/
  | waitKilled
  /-- `sleep(p, &wait_lock)` -/
  | waitSleep
  /-- `p->chan = 0` in `sleep` -/
  | waitTidy
  /-- `acquire(lk)` at the end of `sleep` -/
  | waitAcquire
  /-- At the head of the loop over `proc[]` in `kill`. -/
  | kill (pid : Int) (i : Nat)
  /-- Asleep on something that is no process, or just woken. -/
  | doze
  deriving DecidableEq

/-- A process that has run in a slot: the slot, and how many had it before. -/
abbrev Process (n : Nat) := Fin n × Nat

/-- A process that has exited. -/
structure Exit (n : Nat) where
  process : Process n
  pid : Int
  status : Int

/-- A call of `wait` that has found a child: what it returns, and the process
that had called `fork`. -/
structure Reap (n : Nat) where
  waiter : Process n
  child : Process n
  forker : Process n
  pid : Int
  status : Int

structure Kernel (n : Nat) where
  state : Fin n → ProcState
  parent : Fin n → Option (Fin n)
  pid : Fin n → Int
  xstate : Fin n → Int
  killed : Fin n → Bool
  chan : Fin n → Option (Chan n)
  pc : Fin n → PC n
  /-- The process that holds `wait_lock`. -/
  waitLock : Option (Fin n)
  nextpid : Int
  born : Fin n → Nat
  forker : Fin n → Process n
  exits : List (Exit n)
  reaps : List (Reap n)

/-- What happens next. -/
inductive Event (n : Nat) where
  /-- The next step of a process in one of these functions; `ok` says whether
  a `copyout` in it succeeds. -/
  | go (p : Fin n) (ok : Bool)
  /-- `fork` up to the release of the child's lock: `allocproc` finds `np`
  free, and the rest succeeds or not. -/
  | fork (p np : Fin n) (ok : Bool)
  /-- `acquire(&wait_lock)` in `exit` -/
  | exit (p : Fin n) (status : Int)
  /-- `acquire(&wait_lock)` in `wait` -/
  | wait (p : Fin n)
  | kill (p : Fin n) (pid : Int)
  /-- `sleep` on something that is no process. -/
  | doze (p : Fin n)
  /-- A `wakeup` finds the process asleep on such a thing. -/
  | rouse (p : Fin n)
  | yield (p : Fin n)
  /-- The scheduler picks the process. -/
  | schedule (p : Fin n)

/-- Between `acquire(&wait_lock)` and its release. -/
def PC.holds {n : Nat} : PC n → Bool
  | .reparent .. | .reparentWakeup .. | .exitWakeup .. | .wait .. | .waitKilled | .waitSleep => true
  | _ => false

namespace Kernel

variable {n : Nat}

def goto (s : Kernel n) (p : Fin n) (pc : PC n) : Kernel n :=
  { s with pc := Function.update s.pc p pc }

def setState (s : Kernel n) (p : Fin n) (st : ProcState) : Kernel n :=
  { s with state := Function.update s.state p st }

/-- The process that has slot `p`. -/
def process (s : Kernel n) (p : Fin n) : Process n := (p, s.born p)

/-- `acquire(&wait_lock)` -/
def acquire (s : Kernel n) (p : Fin n) : Option (Kernel n) :=
  if s.waitLock = none then some { s with waitLock := some p } else none

/-- `release(&wait_lock)` -/
def release (s : Kernel n) : Kernel n := { s with waitLock := none }

/-- `wakeup(chan)` by `p`, at slot `i`. -/
def wakeup (s : Kernel n) (p i : Fin n) (chan : Option (Chan n)) : Kernel n :=
  if i ≠ p ∧ s.state i = .SLEEPING ∧ s.chan i = chan then s.setState i .RUNNABLE else s

/-- The protocol's part of `freeproc`. -/
def freeproc (s : Kernel n) (q : Fin n) : Kernel n :=
  { s with
    pid := Function.update s.pid q 0
    parent := Function.update s.parent q none
    chan := Function.update s.chan q none
    killed := Function.update s.killed q false
    xstate := Function.update s.xstate q 0 }.setState q .UNUSED

/-- `allocproc` for a child of `p`, in slot `np`. -/
def allocproc (s : Kernel n) (p np : Fin n) : Kernel n :=
  { s with
    pid := Function.update s.pid np s.nextpid
    nextpid := i32 (s.nextpid + 1)
    born := Function.update s.born np (s.born np + 1)
    forker := Function.update s.forker np (s.process p) }.setState np .USED

/-- The last section of `exit`: under the process's own lock, which the
scheduler releases. -/
def zombie (s : Kernel n) (p : Fin n) (status : Int) : Kernel n :=
  ({ s with
    xstate := Function.update s.xstate p status
    exits := ⟨s.process p, s.pid p, status⟩ :: s.exits }.setState p .ZOMBIE).release.goto p .dead

/-- What `wait` does with a child that is a zombie. -/
def reap (s : Kernel n) (p q : Fin n) : Kernel n :=
  ({ s with
    reaps := ⟨s.process p, s.process q, s.forker q, s.pid q, s.xstate q⟩ :: s.reaps }.freeproc
      q).release.goto p .user

/-- `sleep(p, &wait_lock)` up to `sched`, under the process's own lock. -/
def sleep (s : Kernel n) (p : Fin n) : Kernel n :=
  ({ s with chan := Function.update s.chan p (some (.proc p)) }.setState p .SLEEPING).release.goto p
    .waitTidy

/-- What `kill` does to the process it looks for. -/
def kill (s : Kernel n) (i : Fin n) : Kernel n :=
  let s := { s with killed := Function.update s.killed i true }
  if s.state i = .SLEEPING then s.setState i .RUNNABLE else s

/-- The next step of process `p`. -/
def go (s : Kernel n) (initproc p : Fin n) (ok : Bool) : Option (Kernel n) :=
  match s.pc p with
  | .user | .dead => none
  | .forkParent np =>
    (s.acquire p).map fun s =>
      ({ s with parent := Function.update s.parent np (some p) }.release).goto p (.forkPublish np)
  | .forkPublish np => some (((s.setState np .RUNNABLE).goto np .user).goto p .user)
  | .reparent status i =>
    if h : i < n then
      if s.parent ⟨i, h⟩ = some p then
        some ({ s with parent := Function.update s.parent ⟨i, h⟩ (some initproc) }.goto p
          (.reparentWakeup status ⟨i, h⟩ 0))
      else some (s.goto p (.reparent status (i + 1)))
    else some (s.goto p (.exitWakeup status ((s.parent p).map .proc) 0))
  | .reparentWakeup status pp i =>
    if h : i < n then
      some ((s.wakeup p ⟨i, h⟩ (some (.proc initproc))).goto p (.reparentWakeup status pp (i + 1)))
    else some (s.goto p (.reparent status (pp + 1)))
  | .exitWakeup status chan i =>
    if h : i < n then some ((s.wakeup p ⟨i, h⟩ chan).goto p (.exitWakeup status chan (i + 1)))
    else some (s.zombie p status)
  | .wait havekids i =>
    if h : i < n then
      if s.parent ⟨i, h⟩ = some p then
        if s.state ⟨i, h⟩ = .ZOMBIE then
          if ok then some (s.reap p ⟨i, h⟩) else some (s.release.goto p .user)
        else some (s.goto p (.wait true (i + 1)))
      else some (s.goto p (.wait havekids (i + 1)))
    else if havekids then some (s.goto p .waitKilled)
    else some (s.release.goto p .user)
  | .waitKilled => if s.killed p then some (s.release.goto p .user) else some (s.goto p .waitSleep)
  | .waitSleep => some (s.sleep p)
  | .waitTidy => some ({ s with chan := Function.update s.chan p none }.goto p .waitAcquire)
  | .waitAcquire => (s.acquire p).map (·.goto p (.wait false 0))
  | .kill pid i =>
    if h : i < n then
      if s.pid ⟨i, h⟩ = pid then some ((s.kill ⟨i, h⟩).goto p .user)
      else some (s.goto p (.kill pid (i + 1)))
    else some (s.goto p .user)
  | .doze => some ({ s with chan := Function.update s.chan p none }.goto p .user)

/-- What process `p` does outside these functions. -/
def call (s : Kernel n) (initproc p : Fin n) : Event n → Option (Kernel n)
  | .fork _ np ok =>
    if s.state np = .UNUSED then
      if ok then some ((s.allocproc p np).goto p (.forkParent np))
      else some ({ s with nextpid := i32 (s.nextpid + 1) }.freeproc np)
    else none
  | .exit _ status =>
    -- `panic("init exiting")`
    if p = initproc then none else (s.acquire p).map (·.goto p (.reparent status 0))
  | .wait _ => (s.acquire p).map (·.goto p (.wait false 0))
  | .kill _ pid => some (s.goto p (.kill pid 0))
  | .doze _ =>
    some (({ s with chan := Function.update s.chan p (some .other) }.setState p .SLEEPING).goto p
      .doze)
  | _ => none

def next (s : Kernel n) (initproc : Fin n) : Event n → Option (Kernel n)
  | .go p ok => if s.state p = .RUNNING then s.go initproc p ok else none
  | .rouse p =>
    if s.state p = .SLEEPING ∧ s.chan p = some .other then some (s.setState p .RUNNABLE) else none
  | .yield p =>
    if s.state p = .RUNNING ∧ s.waitLock ≠ some p then some (s.setState p .RUNNABLE) else none
  | .schedule p => if s.state p = .RUNNABLE then some (s.setState p .RUNNING) else none
  | e@(.fork p ..) | e@(.exit p _) | e@(.wait p) | e@(.kill p _) | e@(.doze p) =>
    if s.state p = .RUNNING ∧ s.pc p = .user then s.call initproc p e else none

/-- After `userinit`: there is only the first process. -/
def initial (initproc : Fin n) : Kernel n where
  state := Function.update (fun _ => .UNUSED) initproc .RUNNABLE
  parent _ := none
  pid := Function.update (fun _ => 0) initproc 1
  xstate _ := 0
  killed _ := false
  chan _ := none
  pc := Function.update (fun _ => .dead) initproc .user
  waitLock := none
  nextpid := 2
  born _ := 0
  forker p := (p, 0)
  exits := []
  reaps := []

end Kernel

def machine {n : Nat} (initproc : Fin n) : Machine (Kernel n) (Event n) where
  init s := s = Kernel.initial initproc
  next s e := s.next initproc e

end Xv6.ExitWait
