/-
The processes as a pool of threads, one for each slot of the process table.

A live process may make any system call with any arguments, or store to any
address. A store that faults is followed by `usertrap`, and when that
returns by the same store again.
-/
import Xv6.Lib.Safe
import Xv6.Kernel.Trap

namespace Xv6

open Conc

/-- What a process does next. -/
inductive Op where
  | store (va : Nat) (b : UInt8)
  /-- `usertrap`, for the store that just faulted. -/
  | fault (va : Nat)
  | fork
  | sbrk (n : Int)
  | exec (file : Option (List UInt8)) (fetch : List ArgFetch)
  | exit (status : Int)
  | wait (addr : Nat)
  | pipe (fdarray : Nat)
  | dup (fd : Fin NOFILE)
  | close (fd : Fin NOFILE)
  /-- The kernel fills the process's buffer, as `read`, `fstat` and `ps` do. -/
  | copyout (dst : Nat) (src : List UInt8)

/-- What an operation returns. -/
inductive Ret where
  | stored
  | faulted
  | resumed
  | gone
  | result (r : Int)

/-- What a process's registers say it has to do next. -/
inductive Mode where
  | user
  | faulting (va : Nat) (b : UInt8)
  | retry (va : Nat) (b : UInt8)
  deriving DecidableEq

/-- What `kalloc`'s comment promises: 0 if the memory cannot be allocated,
and then nothing has changed. -/
def kallocDoc : Kalloc := do
  match ← Prog.atom fun s => .ok s.pop.1 s.pop.2 with
  | some r =>
    memset r 5
    Prog.modify fun s => s.setRef r 1
    Prog.modify fun s => s.decFree
    return some r
  | none => return none

section

variable [KernelImage]

/-- The program of each operation. -/
def Op.prog (ka : Kalloc) (t : Slot) : Op → Prog Kernel Ret
  | .store va b => do if ← userStore t va b then return .stored else return .faulted
  | .fault va => do if ← usertrap ka t va then return .resumed else return .gone
  | .fork => do let r ← Xv6.fork ka t; return .result r
  | .sbrk n => do let r ← sys_sbrk ka t n; return .result r
  | .exec file fetch => do let r ← sys_exec ka t file fetch; return .result r
  | .exit status => do Xv6.exit t status; return .gone
  | .wait addr => do let r ← Xv6.wait ka t addr; return .result r
  | .pipe fdarray => do let r ← sys_pipe ka t fdarray; return .result r
  | .dup fd => do let r ← sys_dup t fd; return .result r
  | .close fd => do let r ← sys_close t fd; return .result r
  | .copyout dst src => do let r ← copyoutSelf ka t dst src; return .result r

/-- May a process in this mode do this? -/
def Op.allowed : Mode → Op → Bool
  | .user, .fault _ => false
  | .user, _ => true
  | .faulting va _, .fault va' => va = va'
  | .retry va b, .store va' b' => va = va' && b = b'
  | _, _ => false

/-- The mode an operation leaves the process in. -/
def Op.next (m : Mode) : Op → Ret → Mode
  | .store va b, .faulted => .faulting va b
  | .fault va, .resumed =>
    match m with
    | .faulting _ b => .retry va b
    | _ => .user
  | _, _ => .user

/-- The kernel and its processes, with `kalloc` as it is (`ka := kalloc`) or
as its comment describes it (`ka := kallocDoc`). -/
def kernel (ka : Kalloc) : System Kernel (Slot → Mode) Slot where
  Op := Op
  Ret := Ret
  prog := Op.prog ka
  start s m t op := if (s.proc t).state.live && op.allowed (m t) then some m else none
  finish m t op r := Function.update m t (op.next (m t) r)

/-- The page allocator after `kinit`, `kvminit` and `virtio_disk_init`, the
other tables empty. The managed pages that are not on the free list are the
kernel's own: its page table, its stacks and the disk's queues. -/
structure AtBoot (s : Kernel) : Prop where
  nodup : s.freelist.Nodup
  managed : ∀ f ∈ s.freelist, Xv6.managed f
  free : s.FREE_PAGES = s.freelist.length
  max : s.MAX_PAGES = PHYSTOP / PGSIZE - KernelImage.endPage
  refcounts : ∀ f, s.refcounts f < 256
  proc : ∀ q, s.proc q = {}
  file : ∀ i, s.file i = {}
  upts : s.upts = ∅
  busy : ∀ t, s.busy t = none
  nulls : s.nulls = 0

/-- The state after `userinit` has made the first process. -/
def Booted (initcode : List UInt8) (s : Kernel) : Prop :=
  ∃ s₀, AtBoot s₀ ∧ (userinit kalloc initcode).run s₀ = .ok () s

/-- A state that the kernel reaches after boot when each system call and each
fault runs to its end before the next begins. -/
def SeqReachable (s : Kernel) : Prop :=
  ∃ initcode s₀ m, Booted initcode s₀ ∧ (kernel kalloc).SeqRun s₀ (fun _ => .user) s m

end

/-! ## A kernel image and an allocator to evaluate with -/

/-- The image of `kernel.sym`: `end` is 0x8002ca48. -/
@[reducible] def image : KernelImage where
  endPage := 0x8002d
  trampoline := 0x80007
  base_le := by decide
  trampoline_lt := by decide
  end_lt := by decide

attribute [local instance] image

/-- The kernel's variables with these pages free and nothing else done. -/
def Kernel.fresh (pages : List Frame) : Kernel where
  freelist := pages
  FREE_PAGES := pages.length
  MAX_PAGES := pages.length
  refcounts _ := 0
  mem _ _ := 0
  pte _ _ := {}
  pipe _ := {}
  proc _ := {}
  nextpid := 1
  file _ := {}
  busy _ := none
  upts := ∅
  nulls := 0

/-- The kernel at boot with the first `n` managed pages free. -/
def Kernel.boot (n : Nat) : Kernel :=
  { Kernel.fresh ((List.range n).map (image.endPage + ·)) with
    MAX_PAGES := PHYSTOP / PGSIZE - image.endPage }

theorem Kernel.boot_atBoot {n : Nat} (hn : n ≤ PHYSTOP / PGSIZE - image.endPage) :
    AtBoot (Kernel.boot n) where
  nodup := List.nodup_range.map fun _ _ h => Nat.add_left_cancel h
  managed f hf := by
    obtain ⟨i, hi, rfl⟩ := List.mem_map.1 hf
    have hi := List.mem_range.1 hi
    exact ⟨Nat.le_add_right _ _, Nat.add_lt_of_lt_sub' (Nat.lt_of_lt_of_le hi hn)⟩
  free := by simp [boot, fresh]
  max := rfl
  refcounts _ := Nat.zero_lt_succ _
  proc _ := rfl
  file _ := rfl
  upts := rfl
  busy _ := rfl
  nulls := rfl

/-- The kernel after booting with `n` free pages and an empty first program. -/
def Kernel.booted (n : Nat) : Kernel :=
  ((userinit kalloc []).run (Kernel.boot n)).state (Kernel.boot n)

theorem Kernel.booted_booted {n : Nat} (hn : n ≤ PHYSTOP / PGSIZE - image.endPage)
    (hr : ((userinit kalloc []).run (Kernel.boot n)).isOk) :
    Booted [] (Kernel.booted n) := by
  obtain ⟨a, ha⟩ := Outcome.eq_ok hr (Kernel.boot n)
  exact ⟨Kernel.boot n, boot_atBoot hn, ha⟩

end Xv6
