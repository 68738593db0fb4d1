/-
exec.c and `sys_exec`. The file that `namei` finds is its content, read by
`readi` (which the file system's own model is about); what `fetchaddr` and
`fetchstr` give for the argument vector comes with the call.
-/
import Xv6.Kernel.Proc

namespace Xv6

open Conc Prog

def ELF_MAGIC : Nat := 0x464C457F
def ELF_PROG_LOAD : Nat := 1

/-- The little-endian number in `n` bytes from `off`. -/
def le (bytes : List UInt8) (off n : Nat) : Nat :=
  ((bytes.drop off).take n).foldr (fun b acc => b.toNat + 256 * acc) 0

/-- What `readi` reads from a file's content at `off`, 32-bit. -/
def readContent (content : List UInt8) (off n : Nat) : List UInt8 :=
  if off > content.length ∨ (off + n) % 2 ^ 32 < off then [] else (content.drop off).take n

structure ElfHdr where
  magic : Nat
  entry : Nat
  phoff : Nat
  phnum : Nat

structure ProgHdr where
  type : Nat
  flags : Nat
  off : Nat
  vaddr : Nat
  filesz : Nat
  memsz : Nat

/-- `struct elfhdr`, if the file has all 64 bytes of it. -/
def readElfHdr (content : List UInt8) : Option ElfHdr :=
  let b := readContent content 0 64
  if b.length ≠ 64 then none
  else some { magic := le b 0 4, entry := le b 24 8, phoff := le b 32 8, phnum := le b 56 2 }

/-- `struct proghdr` at `off`, if the file has all 56 bytes of it. -/
def readProgHdr (content : List UInt8) (off : Nat) : Option ProgHdr :=
  let b := readContent content off 56
  if b.length ≠ 56 then none
  else some
    { type := le b 0 4, flags := le b 4 4, off := le b 8 8, vaddr := le b 16 8
      filesz := le b 32 8, memsz := le b 40 8 }

def flags2perm (flags : Nat) : Flags := { X := flags.testBit 0, W := flags.testBit 1 }

/-- The loop of `loadseg`: `n` more pages from byte `i` of the segment. -/
def loadsegLoop (ka : Kalloc) (pagetable : Frame) (va : Nat) (content : List UInt8)
    (offset sz : Nat) : (n i : Nat) → Prog Kernel Int
  | 0, _ => return 0
  | n + 1, i => do
    match ← walkaddr ka pagetable (va + i) with
    | none => fail "loadseg: address should exist"
    | some pa =>
      let n' := if sz - i < PGSIZE then sz - i else PGSIZE
      let bytes := readContent content ((offset + i) % 2 ^ 32) n'
      modify fun s => s.writeBytes pa 0 bytes
      if bytes.length ≠ n' then return -1
      else loadsegLoop ka pagetable va content offset sz n (i + PGSIZE)

def loadseg (ka : Kalloc) (pagetable : Frame) (va : Nat) (content : List UInt8)
    (offset sz : Nat) : Prog Kernel Int :=
  loadsegLoop ka pagetable va content offset sz ((sz + PGSIZE - 1) / PGSIZE) 0

variable [KernelImage]

/-- The loop of `exec` over the program headers: `n` more from `off`; the
size built so far, and whether all went well (`goto bad` otherwise). -/
def loadPhdrs (ka : Kalloc) (t : Slot) (pagetable : Frame) (content : List UInt8) :
    (n off sz : Nat) → Prog Kernel (Nat × Bool)
  | 0, _, sz => return (sz, true)
  | n + 1, off, sz => do
    match readProgHdr content off with
    | none => return (sz, false)
    | some ph =>
      let off' := (off + 56) % 2 ^ 32
      if ph.type ≠ ELF_PROG_LOAD then loadPhdrs ka t pagetable content n off' sz
      else if ph.memsz < ph.filesz then return (sz, false)
      else if (ph.vaddr + ph.memsz) % 2 ^ 64 < ph.vaddr then return (sz, false)
      else if ph.vaddr % PGSIZE ≠ 0 then return (sz, false)
      else
        let sz1 ← uvmalloc ka t pagetable sz (ph.vaddr + ph.memsz) (flags2perm ph.flags)
        if sz1 = 0 then return (sz, false)
        else
          let r ← loadseg ka pagetable ph.vaddr content (ph.off % 2 ^ 32) (ph.filesz % 2 ^ 32)
          if r < 0 then return (sz1, false)
          else loadPhdrs ka t pagetable content n off' sz1

/-- The loop of `exec` that pushes the argument strings `args`: the stack
pointer and the pointers pushed so far, or `goto bad`. -/
def pushArgs (ka : Kalloc) (pagetable : Frame) (stackbase : Nat) :
    (args : List (List UInt8)) → (sp : Nat) → (ustack : List Nat) →
    Prog Kernel (Option (Nat × List Nat))
  | [], sp, ustack => return some (sp, ustack)
  | arg :: args, sp, ustack => do
    if ustack.length ≥ MAXARG then return none
    else
      let sp := u64 ((sp : Int) - (arg.length + 1))
      let sp := sp - sp % 16 -- riscv sp must be 16-byte aligned
      if sp < stackbase then return none
      else
        let r ← copyout ka pagetable sp (arg ++ [0])
        if r < 0 then return none
        else pushArgs ka pagetable stackbase args sp (ustack ++ [sp])

/-- The eight bytes of a `uint64`. -/
def u64Bytes (x : Nat) : List UInt8 := (List.range 8).map fun i => UInt8.ofNat (x / 2 ^ (8 * i))

/-- Where registers are in `struct trapframe`. -/
def Trapframe.epc : Nat := 24
def Trapframe.sp : Nat := 48
def Trapframe.a0 : Nat := 112
def Trapframe.a1 : Nat := 120

/-- `p->trapframe->r = x`, for the register at `off`. -/
def setReg (trapframe : Frame) (off x : Nat) : Prog Kernel Unit :=
  modify fun s => s.writeBytes trapframe off (u64Bytes x)

/-- The part of `exec` after the image is loaded into `pagetable`: the user
stack and its arguments; `none` is `goto bad`, with the size by then. -/
def buildStack (ka : Kalloc) (t : Slot) (pagetable : Frame) (sz : Nat)
    (argv : List (List UInt8)) : Prog Kernel (Nat × Option Nat) := do
  let sz := PGROUNDUP sz
  let sz1 ← uvmalloc ka t pagetable sz (sz + 2 * PGSIZE) { W := true }
  if sz1 = 0 then return (sz, none)
  else
    uvmclear ka pagetable (sz1 - 2 * PGSIZE)
    let stackbase := sz1 - PGSIZE
    match ← pushArgs ka pagetable stackbase argv sz1 [] with
    | none => return (sz1, none)
    | some (sp, ustack) =>
      let sp := u64 ((sp : Int) - (ustack.length + 1) * 8)
      let sp := sp - sp % 16
      if sp < stackbase then return (sz1, none)
      else
        let r ← copyout ka pagetable sp ((ustack ++ [0]).flatMap u64Bytes)
        if r < 0 then return (sz1, none) else return (sz1, some sp)

/-- `exec` of the file `namei` found, if any. -/
def exec (ka : Kalloc) (t : Slot) (file : Option (List UInt8)) (argv : List (List UInt8)) :
    Prog Kernel Int := do
  match file with
  | none => return -1
  | some content =>
    match readElfHdr content with
    | none => return -1
    | some elf =>
      if elf.magic ≠ ELF_MAGIC then return -1
      else
        match ← read fun s => (s.proc t).trapframe with
        | none => fail "kerneltrap"
        | some trapframe =>
          match ← proc_pagetable ka t trapframe with
          | none => return -1
          | some pagetable =>
            let (sz, ok) ← loadPhdrs ka t pagetable content elf.phnum (elf.phoff % 2 ^ 32) 0
            if ¬ ok then
              proc_freepagetable ka t pagetable sz
              return -1
            else
              match ← buildStack ka t pagetable sz argv with
              | (sz, none) =>
                proc_freepagetable ka t pagetable sz
                return -1
              | (sz, some sp) =>
                -- arguments to user main(argc, argv)
                setReg trapframe Trapframe.a1 sp
                -- Commit to the user image.
                let oldsz ← read fun s => (s.proc t).sz
                match ← read fun s => (s.proc t).pagetable with
                | none => fail "kerneltrap"
                | some oldpagetable =>
                  modify fun s => s.updProc t fun p => { p with pagetable := some pagetable, sz := sz }
                  setReg trapframe Trapframe.epc elf.entry
                  setReg trapframe Trapframe.sp sp
                  proc_freepagetable ka t oldpagetable oldsz
                  return argv.length -- this ends up in a0

/-- What `fetchaddr` and `fetchstr` give for one argument. -/
inductive ArgFetch where
  | badaddr
  | badstr
  | str (arg : List UInt8)

/-- The loop of `sys_exec` that fetches the arguments into pages; the pages
taken, with the arguments or `goto bad`. -/
def fetchArgs (ka : Kalloc) : (fetch : List ArgFetch) → (i : Nat) →
    Prog Kernel (List Frame × Option (List (List UInt8)))
  | fetch, i =>
    if i ≥ MAXARG then return ([], none)
    else
      match fetch with
      | [] => return ([], some [])
      | .badaddr :: _ => return ([], none)
      | arg :: fetch => do
        match ← ka with
        | none => return ([], none)
        | some page =>
          match arg with
          | .str arg =>
            modify fun s => s.writeBytes page 0 (arg ++ [0])
            let (pages, rest) ← fetchArgs ka fetch (i + 1)
            return (page :: pages, rest.map (arg :: ·))
          | _ => return ([page], none)

def freeArgs : List Frame → Prog Kernel Unit
  | [] => return
  | page :: pages => do
    kfree page
    freeArgs pages

def sys_exec (ka : Kalloc) (t : Slot) (file : Option (List UInt8)) (fetch : List ArgFetch) :
    Prog Kernel Int := do
  let (pages, argv) ← fetchArgs ka fetch 0
  match argv with
  | none =>
    freeArgs pages
    return -1
  | some argv =>
    let ret ← exec ka t file argv
    freeArgs pages
    return ret

/-- `syscall`, when the call is `SYS_exec`. -/
def syscallExec (ka : Kalloc) (t : Slot) (file : Option (List UInt8)) (fetch : List ArgFetch) :
    Prog Kernel Unit := do
  let ret ← sys_exec ka t file fetch
  match ← read fun s => (s.proc t).trapframe with
  | none => fail "kerneltrap"
  | some trapframe => setReg trapframe Trapframe.a0 (u64 ret)

end Xv6
