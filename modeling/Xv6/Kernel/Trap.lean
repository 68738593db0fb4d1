/-
trap.c: the store page fault, and what the hardware does with a user
store. System calls on files and pipes that the memory model needs.
-/
import Xv6.Kernel.Exec
import Xv6.Kernel.PageTable

namespace Xv6

open Conc Prog

namespace Kernel

/-- The entry for address `va` in process `q`'s page table. -/
def userPte (s : Kernel) (q : Slot) (va : Nat) : Option Pte :=
  if va < MAXVA then (s.proc q).pagetable.bind fun r => mapping s.pte r (va / PGSIZE) else none

/-- The byte that process `q` reads at `va`, if it may. -/
def load (s : Kernel) (q : Slot) (va : Nat) : Option UInt8 :=
  match s.userPte q va with
  | some pte => if pte.U && pte.R then some (s.mem pte.pa (va % PGSIZE)) else none
  | none => none

/-- A user store by process `q`: done, or a page fault. -/
def hwStore (s : Kernel) (q : Slot) (va : Nat) (b : UInt8) : Bool × Kernel :=
  match s.userPte q va with
  | some pte => if pte.U && pte.W then (true, s.writeBytes pte.pa (va % PGSIZE) [b]) else (false, s)
  | none => (false, s)

end Kernel

def userStore (t : Slot) (va : Nat) (b : UInt8) : Prog Kernel Bool :=
  atom fun s => .ok (s.hwStore t va b).1 (s.hwStore t va b).2

def setkilled (p : Slot) : Prog Kernel Unit :=
  modify fun s => s.updProc p fun p => { p with killed := true }

def killed (p : Slot) : Prog Kernel Bool := read fun s => (s.proc p).killed

variable [KernelImage]

/-- The branch of `usertrap` for a store page fault at `va`. -/
def storeFault (ka : Kalloc) (t : Slot) (va : Nat) : Prog Kernel Unit := do
  if va ≥ MAXVA then setkilled t
  else
    match ← read fun s => (s.proc t).pagetable with
    | none => fail "kerneltrap"
    | some pagetable =>
      match ← walk ka pagetable va false with
      | none => setkilled t
      | some ptr =>
        let pte ← readPte ptr
        if ¬ pte.V ∨ ¬ pte.U then setkilled t
        else if pte.COW then
          -- Copy-on-write: allocate a new page and copy.
          let pa := pte.pa
          match ← ka with
          | none => setkilled t
          | some mem =>
            mark t (some (pagetable, va / PGSIZE))
            modify fun s => s.copyPage mem pa
            writePte ptr { pte with COW := false, W := true, pa := mem }
            kref_dec pa
            mark t none
        else setkilled t -- Non-COW read-only page: segfault.

/-- `usertrap` for a store page fault at `va`; does the process go on? -/
def usertrap (ka : Kalloc) (t : Slot) (va : Nat) : Prog Kernel Bool := do
  storeFault ka t va
  if ← killed t then
    exit t (-1)
    return false
  else return true

/-! ## System calls on files -/

omit [KernelImage] in
/-- The lowest free descriptor, made to refer to file `f`. -/
def fdalloc (t : Slot) (f : Nat) : Prog Kernel (Option (Fin NOFILE)) :=
  atom fun s =>
    match (List.finRange NOFILE).find? fun fd => (s.proc t).ofile fd = none with
    | some fd => .ok (some fd) (s.updProc t fun p =>
        { p with ofile := Function.update p.ofile fd (some f) })
    | none => .ok none s

omit [KernelImage] in
def clearFd (t : Slot) (fd : Fin NOFILE) : Prog Kernel Unit :=
  modify fun s => s.updProc t fun p => { p with ofile := Function.update p.ofile fd none }

omit [KernelImage] in
def sys_dup (t : Slot) (fd : Fin NOFILE) : Prog Kernel Int := do
  match ← read fun s => (s.proc t).ofile fd with
  | none => return -1
  | some f =>
    match ← fdalloc t f with
    | none => return -1
    | some fd =>
      filedup f
      return fd.val

def sys_close (t : Slot) (fd : Fin NOFILE) : Prog Kernel Int := do
  match ← read fun s => (s.proc t).ofile fd with
  | none => return -1
  | some f =>
    clearFd t fd
    fileclose f
    return 0

/-- Copy to the calling process's memory. -/
def copyoutSelf (ka : Kalloc) (t : Slot) (dst : Nat) (src : List UInt8) : Prog Kernel Int := do
  match ← read fun s => (s.proc t).pagetable with
  | none => fail "kerneltrap"
  | some pagetable => copyout ka pagetable dst src

def sys_pipe (ka : Kalloc) (t : Slot) (fdarray : Nat) : Prog Kernel Int := do
  match ← pipealloc ka with
  | none => return -1
  | some (rf, wf) =>
    match ← fdalloc t rf with
    | none =>
      fileclose rf
      fileclose wf
      return -1
    | some fd0 =>
      match ← fdalloc t wf with
      | none =>
        clearFd t fd0
        fileclose rf
        fileclose wf
        return -1
      | some fd1 =>
        let r ← copyoutSelf ka t fdarray (intBytes fd0.val)
        let r ← (if r < 0 then pure r
          else copyoutSelf ka t ((fdarray + 4) % 2 ^ 64) (intBytes fd1.val))
        if r < 0 then
          clearFd t fd0
          clearFd t fd1
          fileclose rf
          fileclose wf
          return -1
        else return 0

end Xv6
