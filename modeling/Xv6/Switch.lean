/-
proc.c: processes, their locks and the scheduler, on any number of CPUs.

A CPU runs its scheduler thread or the kernel thread of a process. What a
thread has left to do is a list of instructions: an `acquire` or `release`, a
change or a test made while holding a lock, or a half of `swtch`. Calls are
unfolded when they are made, and a turn of a loop puts the next one back. An
interrupt puts the handler, or `yield`, in front. `acquire` spins for as long
as another CPU holds the lock. After a panic nothing happens any more.

A process in user space has nothing left to do. The other parts of the kernel
are sections under a lock of theirs, in which they call `sleep` with that lock,
`wakeup` and `killed`.
-/
import Xv6.Kernel.State
import Xv6.Lib.Machine
import Mathlib.Data.Fintype.Basic
import Mathlib.Logic.Function.Basic

namespace Xv6.Switch

open Conc

/-- The spinlocks. -/
inductive Lock (n : Nat) (L : Type) where
  | wait_lock
  | pid_lock
  /-- `proc[p].lock` -/
  | proc (p : Fin n)
  | other (l : L)
  deriving DecidableEq

/-- What a process sleeps on. -/
inductive Chan (n : Nat) (Ch : Type) where
  | null
  | proc (p : Fin n)
  | other (ch : Ch)
  deriving DecidableEq

/-- How `fork` goes: whether `allocproc` and `uvmcopy` find memory, and the
locks that are taken and released meanwhile. -/
structure Fork (L : Type) where
  allocates : Bool
  copies : Bool
  locks : List L

/-- An instruction. `p` is `myproc()` at the time of the call. -/
inductive Instr (n : Nat) (L Ch : Type) where
  | acquire (k : Lock n L)
  /-- `while(__sync_lock_test_and_set(&lk->locked, 1) != 0)` -/
  | spin (k : Lock n L)
  | release (k : Lock n L)
  /-- `p->state = state` -/
  | setState (p : Fin n) (state : ProcState)
  /-- `p->chan = chan; p->state = SLEEPING` -/
  | sleepOn (p : Fin n) (chan : Chan n Ch)
  /-- `p->chan = 0` -/
  | tidy (p : Fin n)
  /-- The checks of `sched`. -/
  | sched
  /-- `swtch` saves `p->context`. -/
  | save (p : Fin n)
  /-- `swtch` loads the context of the CPU. -/
  | resume
  /-- `release(&myproc()->lock)` in `forkret` -/
  | forkret
  /-- The loop of `wakeup`, and its body. -/
  | wakeup (chan : Chan n Ch) (i : Nat)
  | wakeTest (chan : Chan n Ch) (i : Fin n)
  /-- `wakeup(p->parent)` -/
  | wakeParent (p : Fin n)
  /-- The loop of `kill`, and its body. -/
  | kill (pid i : Nat)
  | killTest (pid : Nat) (i : Fin n)
  /-- The loop of `allocproc`, and its body. -/
  | alloc (p : Fin n) (f : Fork L) (i : Nat)
  | allocTest (p : Fin n) (f : Fork L) (i : Fin n)
  /-- `allocproc`, from `allocpid` on. -/
  | found (p : Fin n) (f : Fork L) (np : Fin n)
  /-- In `fork`, after `uvmcopy`. -/
  | copied (p : Fin n) (f : Fork L) (np : Fin n)
  /-- `np->parent = p` -/
  | setParent (p np : Fin n)
  /-- `np->state = RUNNABLE` -/
  | publish (np : Fin n)
  /-- The loop of `reparent`. -/
  | reparent (p : Fin n) (i : Nat)
  /-- `panic("zombie exit")` -/
  | zombieExit
  /-- The loop of `wait`, and its body. -/
  | waitScan (p : Fin n) (copyout : Bool) (i : Nat) (havekids : Bool)
  | waitTest (p : Fin n) (copyout : Bool) (i : Fin n)
  /-- `killed(p)` in `wait` -/
  | waitKilled (p : Fin n) (copyout : Bool)
  /-- The loop of `ps`, and its body. -/
  | ps (i count : Nat)
  | psTest (i : Fin n) (count : Nat)
  /-- `if (p->parent != 0) acquire(&p->parent->lock)` -/
  | psParent (i : Fin n)
  /-- `release(&p->parent->lock)`; `parent` is the lock that was acquired. -/
  | psRelease (i parent : Fin n)
  /-- The loop of `sys_va2pa`, and its body. -/
  | va2pa (pid i : Nat)
  | va2paTest (pid : Nat) (i : Fin n)
  | schedset (id : Int)
  /-- The start of `rr_scheduler`. -/
  | rr_scheduler
  /-- The loop of `rr_scheduler`. -/
  | schedScan (i : Nat)
  /-- `if (p->state == RUNNABLE)` -/
  | pick (i : Fin n)
  /-- `swtch` saves the context of the CPU. -/
  | swtchTo (i : Fin n)
  /-- `swtch` loads `p->context`. -/
  | load (i : Fin n)
  /-- After `swtch` in `rr_scheduler`. -/
  | back (i : Fin n)

/-- The functions that `sched_pointer` may point to, and the null pointer. -/
inductive Impl where
  | null
  | rr_scheduler
  deriving DecidableEq

structure SchedImpl where
  name : String
  impl : Impl
  id : Nat

def SCHEDC : Nat := 1

def available_schedulers : List SchedImpl := [⟨"Round Robin", .rr_scheduler, 1⟩]

/-- What a section under a lock calls. -/
inductive Act (Ch : Type) where
  | sleep (ch : Ch)
  | wakeup (ch : Ch)
  | killed

/-- What a process calls. -/
inductive Call (L Ch : Type) where
  | fork (f : Fork L)
  | exit
  | wait (copyout : Bool)
  | kill (pid : Nat)
  | ps (start count : Nat)
  | va2pa (pid : Nat)
  | schedset (id : Int)
  | other (l : L) (acts : List (Act Ch))

/-- What happens next on a CPU. -/
inductive Event (C L Ch : Type) where
  | go (c : C)
  | call (c : C) (a : Call L Ch)
  /-- The handler of a device: `wakeup` under a lock. -/
  | intr (c : C) (l : L) (chans : List Ch)
  /-- A timer interrupt that makes the process yield. -/
  | timer (c : C)

/-- The CPUs `C` with their locks and threads, and `proc[]`. -/
structure Kernel (n : Nat) (C L Ch : Type) where
  owner : Lock n L → Option C
  noff : C → Nat
  /-- `c->proc` -/
  proc : C → Option (Fin n)
  /-- The process whose thread the CPU runs, if it is not the scheduler's. -/
  run : C → Option (Fin n)
  /-- What the scheduler's thread has left to do. -/
  scode : C → List (Instr n L Ch)
  /-- What the thread of a process has left to do. -/
  code : Fin n → List (Instr n L Ch)
  /-- `p->context` is complete. -/
  saved : Fin n → Bool
  state : Fin n → ProcState
  chan : Fin n → Chan n Ch
  pid : Fin n → Nat
  killed : Fin n → Bool
  parent : Fin n → Option (Fin n)
  nextpid : Nat
  initproc : Fin n
  sched_pointer : Impl
  panic : Option String

section

variable {n : Nat} {L Ch : Type}

open Instr

/-- `sleep` by process `p` -/
def sleep (p : Fin n) (chan : Chan n Ch) (lk : Lock n L) : List (Instr n L Ch) :=
  [acquire (.proc p), release lk, sleepOn p chan, sched, tidy p, release (.proc p), acquire lk]

/-- `yield` by process `p` -/
def yield (p : Fin n) : List (Instr n L Ch) :=
  [acquire (.proc p), setState p .RUNNABLE, sched, release (.proc p)]

/-- Locks that are taken and released. -/
def uses : List L → List (Instr n L Ch)
  | [] => []
  | l :: ls => acquire (.other l) :: release (.other l) :: uses ls

def acts (p : Fin n) (l : L) : List (Act Ch) → List (Instr n L Ch)
  | [] => [release (.other l)]
  | .sleep ch :: as => sleep p (.other ch) (.other l) ++ acts p l as
  | .wakeup ch :: as => wakeup (.other ch) 0 :: acts p l as
  | .killed :: as => acquire (.proc p) :: release (.proc p) :: acts p l as

/-- The handler of a device. -/
def handler (l : L) (rest : List (Instr n L Ch)) : List Ch → List (Instr n L Ch)
  | [] => release (.other l) :: rest
  | ch :: chans => wakeup (.other ch) 0 :: handler l rest chans

/-- What process `p` does in a call. -/
def Call.code (p : Fin n) : Call L Ch → List (Instr n L Ch)
  | .fork f => [alloc p f 0]
  | .exit => [acquire .wait_lock, reparent p 0, wakeParent p, acquire (.proc p),
      setState p .ZOMBIE, release .wait_lock, sched, zombieExit]
  | .wait copyout => [acquire .wait_lock, waitScan p copyout 0 false]
  | .kill pid => [Instr.kill pid 0]
  | .ps start count =>
    if count = 0 ∨ n ≤ start then [] else [acquire .wait_lock, Instr.ps start count]
  -- `walkaddr(myproc()->pagetable, va)`
  | .va2pa 0 => []
  | .va2pa pid => [Instr.va2pa pid 0]
  | .schedset id => [Instr.schedset id]
  | .other l as => acquire (.other l) :: acts p l as

end

namespace Kernel

variable {n : Nat} {C L Ch : Type} [DecidableEq C] [DecidableEq L] [DecidableEq Ch]

/-- What the thread that CPU `c` runs has left to do. -/
def left (s : Kernel n C L Ch) (c : C) : List (Instr n L Ch) :=
  match s.run c with
  | none => s.scode c
  | some p => s.code p

/-- The thread that CPU `c` runs goes on with `code`. -/
def goto (s : Kernel n C L Ch) (c : C) (code : List (Instr n L Ch)) : Kernel n C L Ch :=
  match s.run c with
  | none => { s with scode := Function.update s.scode c code }
  | some p => { s with code := Function.update s.code p code }

def panics (s : Kernel n C L Ch) (msg : String) : Kernel n C L Ch := { s with panic := some msg }

def setState (s : Kernel n C L Ch) (p : Fin n) (state : ProcState) : Kernel n C L Ch :=
  { s with state := Function.update s.state p state }

/-- `freeproc` -/
def freeproc (s : Kernel n C L Ch) (p : Fin n) : Kernel n C L Ch :=
  { s with
    pid := Function.update s.pid p 0
    parent := Function.update s.parent p none
    chan := Function.update s.chan p .null
    killed := Function.update s.killed p false
    state := Function.update s.state p .UNUSED }

/-- What `kill` does to the process that it looks for. -/
def killProc (s : Kernel n C L Ch) (p : Fin n) : Kernel n C L Ch :=
  let s := { s with killed := Function.update s.killed p true }
  if s.state p = .SLEEPING then s.setState p .RUNNABLE else s

open Instr

/-- CPU `c`, whose thread has `code` left to do, executes the first
instruction. -/
def exec (s : Kernel n C L Ch) (c : C) : List (Instr n L Ch) → Option (Kernel n C L Ch)
  | [] => none
  | .acquire k :: rest =>
    if s.owner k = some c then some (s.panics "acquire")
    else
      some ({ s with noff := Function.update s.noff c (s.noff c + 1) }.goto c (spin k :: rest))
  | .spin k :: rest =>
    if s.owner k = none then
      some ({ s with owner := Function.update s.owner k (some c) }.goto c rest)
    else none
  | .release k :: rest =>
    if s.owner k ≠ some c then some (s.panics "release")
    else if s.noff c < 1 then some (s.panics "pop_off")
    else
      some ({ s with
        owner := Function.update s.owner k none
        noff := Function.update s.noff c (s.noff c - 1) }.goto c rest)
  | .setState p state :: rest => some ((s.setState p state).goto c rest)
  | .sleepOn p chan :: rest =>
    some (({ s with chan := Function.update s.chan p chan }.setState p .SLEEPING).goto c rest)
  | .tidy p :: rest => some ({ s with chan := Function.update s.chan p .null }.goto c rest)
  | .sched :: rest =>
    match s.proc c with
    -- a null pointer
    | none => some (s.panics "kerneltrap")
    | some p =>
      if s.owner (.proc p) ≠ some c then some (s.panics "sched p->lock")
      else if s.noff c ≠ 1 then some (s.panics "sched locks")
      else if s.state p = .RUNNING then some (s.panics "sched running")
      else some (s.goto c (save p :: rest))
  | .save p :: rest =>
    some { s with
      code := Function.update s.code p rest
      saved := Function.update s.saved p true
      run := Function.update s.run c none
      scode := Function.update s.scode c (resume :: s.scode c) }
  | .resume :: rest => some (s.goto c rest)
  | .forkret :: rest =>
    match s.proc c with
    | none => some (s.panics "kerneltrap")
    | some p => some (s.goto c (release (.proc p) :: rest))
  | .wakeup chan i :: rest =>
    if h : i < n then
      if s.proc c = some ⟨i, h⟩ then some (s.goto c (wakeup chan (i + 1) :: rest))
      else some (s.goto c (acquire (.proc ⟨i, h⟩) :: wakeTest chan ⟨i, h⟩ :: rest))
    else some (s.goto c rest)
  | .wakeTest chan i :: rest =>
    let s := if s.state i = .SLEEPING ∧ s.chan i = chan then s.setState i .RUNNABLE else s
    some (s.goto c (release (.proc i) :: wakeup chan (i + 1) :: rest))
  | .wakeParent p :: rest =>
    some (s.goto c (wakeup ((s.parent p).elim .null .proc) 0 :: rest))
  | .kill pid i :: rest =>
    if h : i < n then some (s.goto c (acquire (.proc ⟨i, h⟩) :: killTest pid ⟨i, h⟩ :: rest))
    else some (s.goto c rest)
  | .killTest pid i :: rest =>
    if s.pid i = pid then some ((s.killProc i).goto c (release (.proc i) :: rest))
    else some (s.goto c (release (.proc i) :: kill pid (i + 1) :: rest))
  | .alloc p f i :: rest =>
    if h : i < n then some (s.goto c (acquire (.proc ⟨i, h⟩) :: allocTest p f ⟨i, h⟩ :: rest))
    else some (s.goto c rest)
  | .allocTest p f i :: rest =>
    if s.state i = .UNUSED then some (s.goto c (acquire .pid_lock :: found p f i :: rest))
    else some (s.goto c (release (.proc i) :: alloc p f (i + 1) :: rest))
  | .found p f np :: rest =>
    let s := { s with
      pid := Function.update s.pid np s.nextpid
      nextpid := s.nextpid + 1
      state := Function.update s.state np .USED }
    if f.allocates then
      some ({ s with
        code := Function.update s.code np [forkret]
        saved := Function.update s.saved np true }.goto c
          (release .pid_lock :: uses f.locks ++ copied p f np :: rest))
    else some ((s.freeproc np).goto c (release .pid_lock :: release (.proc np) :: rest))
  | .copied p f np :: rest =>
    if f.copies then
      some (s.goto c (release (.proc np) :: acquire .wait_lock :: setParent p np ::
        release .wait_lock :: acquire (.proc np) :: publish np :: release (.proc np) :: rest))
    else some ((s.freeproc np).goto c (release (.proc np) :: rest))
  | .setParent p np :: rest =>
    some ({ s with parent := Function.update s.parent np (some p) }.goto c rest)
  | .publish np :: rest => some ((s.setState np .RUNNABLE).goto c rest)
  | .reparent p i :: rest =>
    if h : i < n then
      if s.parent ⟨i, h⟩ = some p then
        some ({ s with parent := Function.update s.parent ⟨i, h⟩ (some s.initproc) }.goto c
          (wakeup (.proc s.initproc) 0 :: reparent p (i + 1) :: rest))
      else some (s.goto c (reparent p (i + 1) :: rest))
    else some (s.goto c rest)
  | .zombieExit :: _ => some (s.panics "zombie exit")
  | .waitScan p copyout i havekids :: rest =>
    if h : i < n then
      if s.parent ⟨i, h⟩ = some p then
        some (s.goto c (acquire (.proc ⟨i, h⟩) :: waitTest p copyout ⟨i, h⟩ :: rest))
      else some (s.goto c (waitScan p copyout (i + 1) havekids :: rest))
    else if havekids then some (s.goto c (acquire (.proc p) :: waitKilled p copyout :: rest))
    else some (s.goto c (release .wait_lock :: rest))
  | .waitTest p copyout i :: rest =>
    if s.state i = .ZOMBIE then
      let s := if copyout then s.freeproc i else s
      some (s.goto c (release (.proc i) :: release .wait_lock :: rest))
    else some (s.goto c (release (.proc i) :: waitScan p copyout (i + 1) true :: rest))
  | .waitKilled p copyout :: rest =>
    if s.killed p then some (s.goto c (release (.proc p) :: release .wait_lock :: rest))
    else
      some (s.goto c (release (.proc p) ::
        (sleep p (.proc p) .wait_lock ++ waitScan p copyout 0 false :: rest)))
  | .ps i count :: rest =>
    if h : i < n then
      if count = 0 then some (s.goto c (release .wait_lock :: rest))
      else some (s.goto c (acquire (.proc ⟨i, h⟩) :: psTest ⟨i, h⟩ count :: rest))
    else some (s.goto c (release .wait_lock :: rest))
  | .psTest i count :: rest =>
    if s.state i = .UNUSED then some (s.goto c (release (.proc i) :: release .wait_lock :: rest))
    else some (s.goto c (psParent i :: release (.proc i) :: ps (i + 1) (count - 1) :: rest))
  | .psParent i :: rest =>
    match s.parent i with
    | some q => some (s.goto c (acquire (.proc q) :: psRelease i q :: rest))
    | none => some (s.goto c rest)
  | .psRelease i _ :: rest =>
    match s.parent i with
    | some q => some (s.goto c (release (.proc q) :: rest))
    | none => some (s.panics "kerneltrap")
  | .va2pa pid i :: rest =>
    if h : i < n then some (s.goto c (acquire (.proc ⟨i, h⟩) :: va2paTest pid ⟨i, h⟩ :: rest))
    else some (s.goto c rest)
  | .va2paTest pid i :: rest =>
    if s.pid i = pid then some (s.goto c (release (.proc i) :: rest))
    else some (s.goto c (release (.proc i) :: va2pa pid (i + 1) :: rest))
  | .schedset id :: rest =>
    if id < 0 ∨ SCHEDC ≤ id then some (s.goto c rest)
    else
      match available_schedulers[id.toNat]? with
      | some a => some ({ s with sched_pointer := a.impl }.goto c rest)
      | none => none
  | .rr_scheduler :: rest =>
    some ({ s with proc := Function.update s.proc c none }.goto c (schedScan 0 :: rest))
  | .schedScan i :: rest =>
    if h : i < n then some (s.goto c (acquire (.proc ⟨i, h⟩) :: pick ⟨i, h⟩ :: rest))
    else some (s.goto c (schedScan 0 :: rest))
  | .pick i :: rest =>
    if s.state i = .RUNNABLE then
      some ({ s.setState i .RUNNING with proc := Function.update s.proc c (some i) }.goto c
        (swtchTo i :: back i :: rest))
    else some (s.goto c (release (.proc i) :: schedScan (i + 1) :: rest))
  | .swtchTo i :: rest => some (s.goto c (load i :: rest))
  | .load i :: rest =>
    if s.saved i then
      some { s with
        scode := Function.update s.scode c rest
        run := Function.update s.run c (some i)
        saved := Function.update s.saved i false }
    -- what is loaded is no context
    else some (s.panics "kerneltrap")
  | .back i :: rest =>
    if s.sched_pointer ≠ .rr_scheduler then
      some (s.goto c (release (.proc i) :: rr_scheduler :: rest))
    else
      some ({ s with proc := Function.update s.proc c none }.goto c
        (release (.proc i) :: schedScan (i + 1) :: rest))

/-- What happens on a CPU. -/
def next (s : Kernel n C L Ch) : Event C L Ch → Option (Kernel n C L Ch)
  | .go c => s.exec c (s.left c)
  | .call c a =>
    match s.run c, s.proc c, s.left c with
    | some _, some p, [] =>
      match a with
      | .exit =>
        if p = s.initproc then some (s.panics "init exiting") else some (s.goto c (a.code p))
      | a => some (s.goto c (a.code p))
    | _, _, _ => none
  | .intr c l chans =>
    if s.noff c = 0 then
      some (s.goto c (acquire (.other l) :: handler l (s.left c) chans))
    else none
  | .timer c =>
    match s.proc c with
    | some p =>
      if s.noff c = 0 ∧ s.state p = .RUNNING then some (s.goto c (yield p ++ s.left c)) else none
    | none => none

end Kernel

/-- The kernel from the moment every CPU enters the scheduler on, with the
first process. -/
def machine (n : Nat) (C L Ch : Type) [DecidableEq C] [DecidableEq L] [DecidableEq Ch] :
    Machine (Kernel n C L Ch) (Event C L Ch) where
  init s := (∀ k, s.owner k = none) ∧ (∀ c, s.noff c = 0 ∧ s.proc c = none ∧ s.run c = none ∧
      s.scode c = [.rr_scheduler]) ∧
    (∀ p, s.parent p = none ∧ if p = s.initproc then
      s.state p = .RUNNABLE ∧ s.code p = [.forkret] ∧ s.saved p = true
      else s.state p = .UNUSED ∧ s.code p = []) ∧
    s.sched_pointer = .rr_scheduler ∧ s.panic = none
  next s e := if s.panic ≠ none then none else s.next e

end Xv6.Switch
