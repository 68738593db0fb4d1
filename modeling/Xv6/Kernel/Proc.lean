/-
proc.c, the part that creates, grows and reaps processes. A section under
`wait_lock` or a `p->lock` that contains no call into the allocator is one
action; a process's own fields (`sz`, `pagetable`, `ofile`) are read and
written by its own thread, or by the thread that holds its lock while it is
being made (`USED`) or reaped (`ZOMBIE`).
-/
import Xv6.Kernel.Vm
import Xv6.Kernel.File

namespace Xv6

open Conc Prog

/-- `userinit` makes the first process in the first slot. -/
def initproc : Slot := ⟨0, by decide⟩

variable [KernelImage]

def proc_freepagetable (ka : Kalloc) (t : Slot) (pagetable : Frame) (sz : Nat) :
    Prog Kernel Unit := do
  uvmunmap ka t pagetable TRAMPOLINE 1 false
  uvmunmap ka t pagetable TRAPFRAME 1 false
  uvmfree ka t pagetable sz

/-- On thread `t`, for the process with trapframe page `trapframe`. -/
def proc_pagetable (ka : Kalloc) (t : Slot) (trapframe : Frame) : Prog Kernel (Option Frame) := do
  match ← uvmcreate ka with
  | none => return none
  | some pagetable =>
    let r ← mappages ka pagetable TRAMPOLINE PGSIZE KernelImage.trampoline { R := true, X := true }
    if r < 0 then
      uvmfree ka t pagetable 0
      return none
    else
      let r ← mappages ka pagetable TRAPFRAME PGSIZE trapframe { R := true, W := true }
      if r < 0 then
        uvmunmap ka t pagetable TRAMPOLINE 1 false
        uvmfree ka t pagetable 0
        return none
      else return some pagetable

/-- The assignments at the end of `freeproc`. -/
def Proc.cleared (p : Proc) : Proc :=
  { p with
    pagetable := none, sz := 0, pid := 0, parent := none, killed := false, xstate := 0
    state := .UNUSED }

def freeproc (ka : Kalloc) (t p : Slot) : Prog Kernel Unit := do
  let trapframe ← read fun s => (s.proc p).trapframe
  (match trapframe with
    | some trapframe => kfree trapframe
    | none => pure ())
  modify fun s => s.updProc p fun p => { p with trapframe := none }
  let pagetable ← read fun s => (s.proc p).pagetable
  let sz ← read fun s => (s.proc p).sz
  (match pagetable with
    | some pagetable => proc_freepagetable ka t pagetable sz
    | none => pure ())
  modify fun s => s.updProc p Proc.cleared

/-- `goto found` for slot `p`: `allocpid` and `USED`, if it is free. -/
def Kernel.claim (s : Kernel) (p : Slot) : Bool × Kernel :=
  if (s.proc p).state = .UNUSED then
    (true, { s.updProc p fun q => { q with pid := s.nextpid, state := .USED } with
      nextpid := i32 (s.nextpid + 1) })
  else (false, s)

/-- The scan of `allocproc` over the slots `ps`. -/
def findUnused : List Slot → Prog Kernel (Option Slot)
  | [] => return none
  | p :: ps => do
    let found ← atom fun s => .ok (s.claim p).1 (s.claim p).2
    if found then return some p else findUnused ps

def allocproc (ka : Kalloc) (t : Slot) : Prog Kernel (Option Slot) := do
  match ← findUnused (List.finRange NPROC) with
  | none => return none
  | some p =>
    match ← ka with
    | none =>
      freeproc ka t p
      return none
    | some trapframe =>
      modify fun s => s.updProc p fun q => { q with trapframe := some trapframe }
      match ← proc_pagetable ka t trapframe with
      | none =>
        freeproc ka t p
        return none
      | some pagetable =>
        modify fun s => s.updProc p fun q => { q with pagetable := some pagetable }
        return some p

/-- `uvmfirst`, with the program's bytes. -/
def uvmfirst (ka : Kalloc) (pagetable : Frame) (src : List UInt8) : Prog Kernel Unit :=
  if src.length ≥ PGSIZE then fail "uvmfirst: more than a page"
  else do
    match ← ka with
    | none => fail "kerneltrap" -- memset(0, 0, PGSIZE)
    | some mem =>
      memset mem 0
      let _ ← mappages ka pagetable 0 PGSIZE mem { W := true, R := true, X := true, U := true }
      modify fun s => s.writeBytes mem 0 src

/-- `userinit`, at boot. -/
def userinit (ka : Kalloc) (initcode : List UInt8) : Prog Kernel Unit := do
  match ← allocproc ka initproc with
  | none => fail "kerneltrap" -- p->pagetable of a null p
  | some p =>
    match ← read fun s => (s.proc p).pagetable with
    | none => fail "kerneltrap"
    | some pagetable =>
      uvmfirst ka pagetable initcode
      modify fun s => s.updProc p fun q => { q with sz := PGSIZE }
      modify fun s => s.updProc p fun q => { q with state := .RUNNABLE }

/-- On the calling process `t`, whose page table is `pagetable`. -/
def growproc (ka : Kalloc) (t : Slot) (n : Int) : Prog Kernel Int := do
  let sz ← read fun s => (s.proc t).sz
  match ← read fun s => (s.proc t).pagetable with
  | none => fail "kerneltrap"
  | some pagetable =>
    if n > 0 then
      let sz' ← uvmalloc ka t pagetable sz (u64 (sz + n)) { W := true }
      if sz' = 0 then return -1
      else
        modify fun s => s.updProc t fun p => { p with sz := sz' }
        return 0
    else if n < 0 then
      let sz' ← uvmdealloc ka t pagetable sz (u64 (sz + n))
      modify fun s => s.updProc t fun p => { p with sz := sz' }
      return 0
    else
      modify fun s => s.updProc t fun p => { p with sz := sz }
      return 0

def sys_sbrk (ka : Kalloc) (t : Slot) (n : Int) : Prog Kernel Int := do
  let addr ← read fun s => (s.proc t).sz
  let r ← growproc ka t n
  if r < 0 then return -1 else return addr

omit [KernelImage] in
/-- The loop of `fork` that copies the open files `fds`. -/
def dupFiles (t np : Slot) : List (Fin NOFILE) → Prog Kernel Unit
  | [] => return
  | fd :: fds => do
    match ← read fun s => (s.proc t).ofile fd with
    | none => dupFiles t np fds
    | some f =>
      filedup f
      modify fun s => s.updProc np fun p => { p with ofile := Function.update p.ofile fd (some f) }
      dupFiles t np fds

def fork (ka : Kalloc) (t : Slot) : Prog Kernel Int := do
  match ← allocproc ka t with
  | none => return -1
  | some np =>
    let old ← read fun s => (s.proc t).pagetable
    let sz ← read fun s => (s.proc t).sz
    let new ← read fun s => (s.proc np).pagetable
    match old, new with
    | some old, some new =>
      let r ← uvmcopy ka t old new sz
      if r < 0 then
        freeproc ka t np
        return -1
      else
        modify fun s => s.updProc np fun p => { p with sz := sz }
        dupFiles t np (List.finRange NOFILE)
        let pid ← read fun s => (s.proc np).pid
        modify fun s => s.updProc np fun p => { p with parent := some t }
        modify fun s => s.updProc np fun p => { p with state := .RUNNABLE }
        return pid
    | _, _ => fail "kerneltrap"

/-- The loop of `exit` that closes the open files `fds`. -/
def closeFiles (t : Slot) : List (Fin NOFILE) → Prog Kernel Unit
  | [] => return
  | fd :: fds => do
    match ← read fun s => (s.proc t).ofile fd with
    | none => closeFiles t fds
    | some f =>
      fileclose f
      modify fun s => s.updProc t fun p => { p with ofile := Function.update p.ofile fd none }
      closeFiles t fds

/-- The section of `exit` under `wait_lock`: `reparent` and `ZOMBIE`. -/
def Kernel.zombie (s : Kernel) (t : Slot) (status : Int) : Kernel :=
  { s with proc := fun q =>
      let p := s.proc q
      let p := if p.parent = some t then { p with parent := some initproc } else p
      if q = t then { p with xstate := status, state := .ZOMBIE } else p }

def exit (t : Slot) (status : Int) : Prog Kernel Unit :=
  if t = initproc then fail "init exiting"
  else do
    closeFiles t (List.finRange NOFILE)
    modify fun s => s.zombie t status

/-- What one scan of `wait` finds. -/
inductive Child where
  | zombie (pp : Slot)
  | none

/-- The scan of `wait` under `wait_lock`: the first zombie child; nothing to
wait for; or sleep until a child exits or the process is killed. -/
def Kernel.scan (s : Kernel) (t : Slot) : Outcome Kernel Child :=
  let kids := (List.finRange NPROC).filter fun q => (s.proc q).parent = some t
  match kids.find? fun q => (s.proc q).state = .ZOMBIE with
  | some pp => .ok (.zombie pp) s
  | none => if kids = [] ∨ (s.proc t).killed then .ok .none s else .wait

/-- The four bytes of an `int`. -/
def intBytes (x : Int) : List UInt8 :=
  (List.range 4).map fun i => UInt8.ofNat ((x % 2 ^ 32).toNat / 2 ^ (8 * i))

def wait (ka : Kalloc) (t : Slot) (addr : Nat) : Prog Kernel Int := do
  match ← atom fun s => s.scan t with
  | .none => return -1
  | .zombie pp =>
    let pid ← read fun s => (s.proc pp).pid
    let xstate ← read fun s => (s.proc pp).xstate
    match ← read fun s => (s.proc t).pagetable with
    | none => fail "kerneltrap"
    | some pagetable =>
      let r ← (if addr ≠ 0 then copyout ka pagetable addr (intBytes xstate) else pure 0)
      if r < 0 then return -1
      else
        freeproc ka t pp
        return pid

end Xv6
