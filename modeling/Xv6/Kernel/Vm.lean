/-
vm.c: page tables and user memory.

`ka` is the allocator the functions call: `kalloc` itself, or what its
comment promises. Each access to a page-table entry is one action.
`PTE2PA` and `PTE_FLAGS` are the fields of a `Pte`.
-/
import Xv6.Kernel.Kalloc

namespace Xv6

open Conc Prog

def readPte (ptr : PtePtr) : Prog Kernel Pte := read fun s => s.pte ptr.1 ptr.2

def writePte (ptr : PtePtr) (pte : Pte) : Prog Kernel Unit := modify fun s => s.setPte ptr pte

/-- The loop of `walk`, from `level` down to 0. -/
def walkLevel (ka : Kalloc) (va : Nat) (alloc : Bool) :
    (level : Nat) → (pagetable : Frame) → Prog Kernel (Option PtePtr)
  | 0, pagetable => return some (pagetable, PX 0 va)
  | level + 1, pagetable => do
    let pte ← readPte (pagetable, PX (level + 1) va)
    if pte.V then walkLevel ka va alloc level pte.pa
    else if ¬ alloc then return none
    else
      match ← ka with
      | none => return none
      | some page =>
        memset page 0
        writePte (pagetable, PX (level + 1) va) { pa := page, V := true }
        walkLevel ka va alloc level page

def walk (ka : Kalloc) (pagetable : Frame) (va : Nat) (alloc : Bool) :
    Prog Kernel (Option PtePtr) :=
  if va ≥ MAXVA then fail "walk" else walkLevel ka va alloc 2 pagetable

def walkaddr (ka : Kalloc) (pagetable : Frame) (va : Nat) : Prog Kernel (Option Frame) :=
  if va ≥ MAXVA then return none
  else do
    match ← walk ka pagetable va false with
    | none => return none
    | some ptr =>
      let pte ← readPte ptr
      if ¬ pte.V then return none
      else if ¬ pte.U then return none
      else return some pte.pa

/-- The loop of `mappages`: `n + 1` pages from `a`. -/
def mappagesLoop (ka : Kalloc) (pagetable : Frame) (perm : Flags) :
    (n a : Nat) → (pa : Frame) → Prog Kernel Int
  | n, a, pa => do
    match ← walk ka pagetable a true with
    | none => return -1
    | some ptr =>
      let pte ← readPte ptr
      if pte.V then fail "mappages: remap"
      else
        writePte ptr { perm with V := true, pa := pa }
        match n with
        | 0 => return 0
        | n + 1 => mappagesLoop ka pagetable perm n (a + PGSIZE) (pa + 1)

def mappages (ka : Kalloc) (pagetable : Frame) (va size : Nat) (pa : Frame) (perm : Flags) :
    Prog Kernel Int :=
  if size = 0 then fail "mappages: size"
  else
    let a := PGROUNDDOWN va
    let last := PGROUNDDOWN (va + size - 1)
    mappagesLoop ka pagetable perm ((last - a) / PGSIZE) a pa

/-- A loop iteration on the page of entry `e` begins (`some e`) or ends. -/
def mark (t : Slot) (e : Option (Frame × Nat)) : Prog Kernel Unit :=
  modify fun s => s.setBusy t e

variable [KernelImage]

/-- The loop of `uvmunmap`: `n` pages from `a`, on thread `t`. -/
def uvmunmapLoop (ka : Kalloc) (t : Slot) (pagetable : Frame) (do_free : Bool) :
    (n a : Nat) → Prog Kernel Unit
  | 0, _ => return
  | n + 1, a => do
    mark t (some (pagetable, a / PGSIZE))
    match ← walk ka pagetable a false with
    | none => fail "uvmunmap: walk"
    | some ptr =>
      let pte ← readPte ptr
      if ¬ pte.V then fail "uvmunmap: not mapped"
      else if ¬ (pte.rwx || pte.U || pte.COW) then fail "uvmunmap: not a leaf"
      else
        (if do_free then kref_dec pte.pa else pure ())
        writePte ptr {}
        mark t none
        uvmunmapLoop ka t pagetable do_free n (a + PGSIZE)

def uvmunmap (ka : Kalloc) (t : Slot) (pagetable : Frame) (va npages : Nat) (do_free : Bool) :
    Prog Kernel Unit :=
  if va % PGSIZE ≠ 0 then fail "uvmunmap: not aligned"
  else uvmunmapLoop ka t pagetable do_free npages va

omit [KernelImage] in
def uvmcreate (ka : Kalloc) : Prog Kernel (Option Frame) := do
  match ← ka with
  | none => return none
  | some pagetable =>
    memset pagetable 0
    modify fun s => { s with upts := insert pagetable s.upts }
    return some pagetable

def uvmdealloc (ka : Kalloc) (t : Slot) (pagetable : Frame) (oldsz newsz : Nat) :
    Prog Kernel Nat :=
  if newsz ≥ oldsz then return oldsz
  else if PGROUNDUP newsz < PGROUNDUP oldsz then do
    let npages := (PGROUNDUP oldsz - PGROUNDUP newsz) / PGSIZE
    uvmunmap ka t pagetable (PGROUNDUP newsz) npages true
    return newsz
  else return newsz

/-- The loop of `uvmalloc`: `n` pages from `a`; `none` is its `return 0`. -/
def uvmallocLoop (ka : Kalloc) (t : Slot) (pagetable : Frame) (oldsz : Nat) (xperm : Flags) :
    (n a : Nat) → Prog Kernel (Option Unit)
  | 0, _ => return some ()
  | n + 1, a => do
    mark t (some (pagetable, a / PGSIZE))
    match ← ka with
    | none =>
      mark t none
      let _ ← uvmdealloc ka t pagetable a oldsz
      return none
    | some mem =>
      memset mem 0
      let r ← mappages ka pagetable a PGSIZE mem { xperm with R := true, U := true }
      if r ≠ 0 then
        kfree mem
        mark t none
        let _ ← uvmdealloc ka t pagetable a oldsz
        return none
      else
        mark t none
        uvmallocLoop ka t pagetable oldsz xperm n (a + PGSIZE)

/-- Returns the new size, or 0. -/
def uvmalloc (ka : Kalloc) (t : Slot) (pagetable : Frame) (oldsz newsz : Nat) (xperm : Flags) :
    Prog Kernel Nat :=
  if newsz < oldsz then return oldsz
  else do
    let oldsz := PGROUNDUP oldsz
    match ← uvmallocLoop ka t pagetable oldsz xperm ((newsz - oldsz + PGSIZE - 1) / PGSIZE) oldsz with
    | none => return 0
    | some () => return newsz

/-- The loop of `freewalk` over the last `n` entries; `child` is the call
on a lower-level page table. -/
def freewalkLoop (child : Frame → Prog Kernel Unit) (pagetable : Frame) :
    (n : Nat) → Prog Kernel Unit
  | 0 => return
  | n + 1 => do
    let i := 512 - (n + 1)
    let pte ← readPte (pagetable, i)
    if pte.V && ! pte.rwx then
      -- this PTE points to a lower-level page table.
      child pte.pa
      writePte (pagetable, i) {}
      freewalkLoop child pagetable n
    else if pte.V then fail "freewalk: leaf"
    else freewalkLoop child pagetable n

/-- `freewalk`, for a table of at most `depth` levels. -/
def freewalk : (depth : Nat) → (pagetable : Frame) → Prog Kernel Unit
  | 0, _ => fail "freewalk: depth"
  | depth + 1, pagetable => do
    freewalkLoop (freewalk depth) pagetable 512
    kfree pagetable

def uvmfree (ka : Kalloc) (t : Slot) (pagetable : Frame) (sz : Nat) : Prog Kernel Unit := do
  (if sz > 0 then uvmunmap ka t pagetable 0 (PGROUNDUP sz / PGSIZE) true else pure ())
  modify fun s => { s with upts := s.upts.erase pagetable }
  freewalk 3 pagetable

/-- The loop of `uvmcopy`: `n` pages from `i`; `some i` is `goto err`. -/
def uvmcopyLoop (ka : Kalloc) (t : Slot) (old new : Frame) :
    (n i : Nat) → Prog Kernel (Option Nat)
  | 0, _ => return none
  | n + 1, i => do
    mark t (some (new, i / PGSIZE))
    match ← walk ka old i false with
    | none => fail "uvmcopy: pte should exist"
    | some ptr =>
      let pte ← readPte ptr
      if ¬ pte.V then fail "uvmcopy: page not present"
      else
        let pa := pte.pa
        let flags : Flags := { pte.toFlags with W := false, COW := true }
        writePte ptr { flags with pa := pa }
        let r ← mappages ka new i PGSIZE pa flags
        if r ≠ 0 then
          mark t none
          return some i
        else
          kref_inc pa
          mark t none
          uvmcopyLoop ka t old new n (i + PGSIZE)

def uvmcopy (ka : Kalloc) (t : Slot) (old new : Frame) (sz : Nat) : Prog Kernel Int := do
  match ← uvmcopyLoop ka t old new ((sz + PGSIZE - 1) / PGSIZE) 0 with
  | none => return 0
  | some i =>
    uvmunmap ka t new 0 (i / PGSIZE) true
    return -1

omit [KernelImage] in
def uvmclear (ka : Kalloc) (pagetable : Frame) (va : Nat) : Prog Kernel Unit := do
  match ← walk ka pagetable va false with
  | none => fail "uvmclear"
  | some ptr =>
    let pte ← readPte ptr
    writePte ptr { pte with U := false }

/-- The loop of `copyout`; an iteration copies at least one byte of `src`. -/
def copyoutLoop (ka : Kalloc) (pagetable : Frame) :
    (fuel : Nat) → (dstva : Nat) → (src : List UInt8) → Prog Kernel Int
  | 0, _, _ => return 0
  | fuel + 1, dstva, src =>
    if src.length = 0 then return 0
    else do
      let va0 := PGROUNDDOWN dstva
      match ← walkaddr ka pagetable va0 with
      | none => return -1
      | some pa0 =>
        let n := min (PGSIZE - (dstva - va0)) src.length
        modify fun s => s.writeBytes pa0 (dstva - va0) (src.take n)
        copyoutLoop ka pagetable fuel ((va0 + PGSIZE) % 2 ^ 64) (src.drop n)

def copyout (ka : Kalloc) (pagetable : Frame) (dstva : Nat) (src : List UInt8) :
    Prog Kernel Int := copyoutLoop ka pagetable (src.length + 1) dstva src

end Xv6
