/-
The state of the memory side of the kernel: the page allocator's variables,
the pages themselves, the process table and the open-file table.

Physical memory is counted in pages (`Frame`, a physical address divided by
`PGSIZE`). A page is used as data, as a page table or as a `struct pipe`,
and each use has its own view of the page's content (`mem`, `pte`, `pipe`);
every page is filled by `memset` or initialized before a use begins.

`busy`, `upts` and `nulls` are auxiliary: the code writes them where it
enters and leaves the sections they name, and never reads them.
-/
import Mathlib.Algebra.GroupWithZero.Nat
import Mathlib.Algebra.Group.Int.Defs
import Mathlib.Data.Fintype.Basic
import Mathlib.Data.Finset.Basic
import Mathlib.Logic.Function.Basic
import Xv6.Lib.Prog

namespace Xv6

/-! ## param.h, memlayout.h, riscv.h -/

def NPROC : Nat := 64
def NOFILE : Nat := 16
def NFILE : Nat := 100
def MAXARG : Nat := 32
def PGSIZE : Nat := 4096
def PGSHIFT : Nat := 12
def KERNBASE : Nat := 0x80000000
def PHYSTOP : Nat := KERNBASE + 128 * 1024 * 1024
def MAXVA : Nat := 2 ^ (9 + 9 + 9 + 12 - 1)
def TRAMPOLINE : Nat := MAXVA - PGSIZE
def TRAPFRAME : Nat := TRAMPOLINE - PGSIZE

/-- Unsigned 64-bit arithmetic. -/
def u64 (x : Int) : Nat := (x % 2 ^ 64).toNat

/-- `x++` and `x--` of an unsigned variable whose largest value is `max`. -/
def incr (max x : Nat) : Nat := if x = max then 0 else x + 1

def decr (max x : Nat) : Nat := if x = 0 then max else x - 1

theorem incr_cases (max x : Nat) :
    (x = max ∧ incr max x = 0) ∨ (x ≠ max ∧ incr max x = x + 1) := by
  by_cases h : x = max <;> simp [incr, h]

theorem decr_cases (max x : Nat) :
    (x = 0 ∧ decr max x = max) ∨ (x ≠ 0 ∧ decr max x = x - 1) := by
  by_cases h : x = 0 <;> simp [decr, h]

def UINT64_MAX : Nat := 2 ^ 64 - 1

def UINT8_MAX : Nat := 255

/-- Signed 32-bit arithmetic. -/
def i32 (x : Int) : Int := (x + 2 ^ 31) % 2 ^ 32 - 2 ^ 31

def PGROUNDUP (sz : Nat) : Nat := (sz + PGSIZE - 1) % 2 ^ 64 / PGSIZE * PGSIZE
def PGROUNDDOWN (a : Nat) : Nat := a / PGSIZE * PGSIZE

/-- The 9-bit index of `va` at a level of the page table. -/
def PX (level va : Nat) : Nat := va / 2 ^ (PGSHIFT + 9 * level) % 512

/-- A physical page number. -/
abbrev Frame := Nat

/-- A slot of the process table (`struct proc *`). -/
abbrev Slot := Fin NPROC

/-- Where the linker put the kernel: the first page after it (`end`), and
its trampoline page. -/
class KernelImage where
  endPage : Frame
  trampoline : Frame
  base_le : KERNBASE / PGSIZE ≤ endPage
  trampoline_lt : trampoline < endPage
  end_lt : endPage < PHYSTOP / PGSIZE

/-- The pages the allocator manages, `[end, PHYSTOP)`. -/
def managed [KernelImage] (f : Frame) : Prop := KernelImage.endPage ≤ f ∧ f < PHYSTOP / PGSIZE

instance [KernelImage] : DecidablePred managed := fun _ => by unfold managed; infer_instance

/-! ## Page-table entries -/

/-- The flag bits of a page-table entry. -/
structure Flags where
  V : Bool := false
  R : Bool := false
  W : Bool := false
  X : Bool := false
  U : Bool := false
  COW : Bool := false
  deriving DecidableEq, Repr

/-- A page-table entry: `PTE_FLAGS` and `PTE2PA`. -/
structure Pte extends Flags where
  pa : Frame := 0
  deriving DecidableEq, Repr

namespace Pte

/-- `pte & (PTE_R|PTE_W|PTE_X)` is not zero. -/
def rwx (p : Pte) : Bool := p.R || p.W || p.X

/-- The entry that eight bytes `c` make. -/
def ofFill (c : UInt8) : Pte :=
  { V := c.toNat.testBit 0, R := c.toNat.testBit 1, W := c.toNat.testBit 2, X := c.toNat.testBit 3
    U := c.toNat.testBit 4, COW := c.toNat.testBit 0, pa := c.toNat * 0x0101010101010101 / 2 ^ 10 }

end Pte

/-- `pte_t *`: an entry's page-table page and index. -/
abbrev PtePtr := Frame × Nat

/-! ## Processes, files, pipes -/

inductive ProcState where
  | UNUSED | USED | SLEEPING | RUNNABLE | RUNNING | ZOMBIE
  deriving DecidableEq, Repr

structure Proc where
  state : ProcState := .UNUSED
  killed : Bool := false
  xstate : Int := 0
  pid : Int := 0
  parent : Option Slot := none
  sz : Nat := 0
  pagetable : Option Frame := none
  trapframe : Option Frame := none
  ofile : Fin NOFILE → Option Nat := fun _ => none

/-- The states of a process that can run or is waiting to. -/
def ProcState.live : ProcState → Bool
  | .SLEEPING | .RUNNABLE | .RUNNING => true
  | _ => false

inductive FileType where
  | FD_NONE | FD_PIPE | FD_INODE | FD_DEVICE
  deriving DecidableEq, Repr

structure File where
  type : FileType := .FD_NONE
  ref : Nat := 0
  readable : Bool := false
  writable : Bool := false
  pipe : Frame := 0

structure Pipe where
  readopen : Bool := false
  writeopen : Bool := false

/-! ## The kernel -/

structure Kernel where
  /-- `kmem.freelist`, in order. -/
  freelist : List Frame
  FREE_PAGES : Nat
  MAX_PAGES : Nat
  /-- `refcounts`, by page. -/
  refcounts : Frame → Nat
  mem : Frame → Nat → UInt8
  pte : Frame → Nat → Pte
  pipe : Frame → Pipe
  proc : Slot → Proc
  nextpid : Int
  file : Nat → File
  /-- The page-table entry a loop iteration of `uvmcopy`, `uvmunmap` or
  `uvmalloc`, or the copy-on-write branch of `usertrap`, is working on. -/
  busy : Slot → Option (Frame × Nat)
  /-- The user page tables: a table enters when `uvmcreate` returns it and
  leaves when `uvmfree` hands it to `freewalk`. -/
  upts : Finset Frame
  /-- How many calls of `kalloc` found the free list empty. -/
  nulls : Nat

/-- The program `kalloc`, or what its comment promises of it. -/
abbrev Kalloc := Conc.Prog Kernel (Option Frame)

namespace Kernel

/-- `*pte = p`. -/
def setPte (s : Kernel) (ptr : PtePtr) (p : Pte) : Kernel :=
  { s with pte := Function.update s.pte ptr.1 (Function.update (s.pte ptr.1) ptr.2 p) }

/-- `memset(page, c, PGSIZE)`. -/
def fill (s : Kernel) (f : Frame) (c : UInt8) : Kernel :=
  { s with
    mem := Function.update s.mem f fun _ => c
    pte := Function.update s.pte f fun _ => Pte.ofFill c }

/-- `memmove(page + off, bytes, n)`, within one page. -/
def writeBytes (s : Kernel) (f : Frame) (off : Nat) (bytes : List UInt8) : Kernel :=
  { s with mem := Function.update s.mem f fun i =>
      if off ≤ i ∧ i < off + bytes.length then bytes.getD (i - off) 0 else s.mem f i }

/-- `memmove(dst, src, PGSIZE)`, from page to page. -/
def copyPage (s : Kernel) (dst src : Frame) : Kernel :=
  { s with mem := Function.update s.mem dst (s.mem src) }

def setRef (s : Kernel) (f : Frame) (n : Nat) : Kernel :=
  { s with refcounts := Function.update s.refcounts f n }

def updProc (s : Kernel) (q : Slot) (f : Proc → Proc) : Kernel :=
  { s with proc := Function.update s.proc q (f (s.proc q)) }

def updFile (s : Kernel) (i : Nat) (f : File → File) : Kernel :=
  { s with file := Function.update s.file i (f (s.file i)) }

def setBusy (s : Kernel) (t : Slot) (e : Option (Frame × Nat)) : Kernel :=
  { s with busy := Function.update s.busy t e }

end Kernel

end Xv6
