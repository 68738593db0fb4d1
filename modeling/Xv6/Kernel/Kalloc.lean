/-
kalloc.c: the page allocator and the reference counts. Each section under
`kmem.lock` or `reflock` is one action, and so is each access to
`FREE_PAGES` outside a lock.
-/
import Xv6.Kernel.State

namespace Xv6

open Conc Prog

/-- `assert` of defs.h. -/
def kassert (cond : Kernel → Bool) : Prog Kernel Unit :=
  atom fun s => if cond s then .ok () s else .panic "assert failed"

def memset (page : Frame) (c : UInt8) : Prog Kernel Unit := modify fun s => s.fill page c

def kref_inc (pa : Frame) : Prog Kernel Unit :=
  modify fun s => s.setRef pa (incr UINT8_MAX (s.refcounts pa))

/-- The section of `kfree` under `kmem.lock`. -/
def Kernel.push (s : Kernel) (r : Frame) : Kernel :=
  { s with freelist := r :: s.freelist, FREE_PAGES := incr UINT64_MAX s.FREE_PAGES }

/-- The section of `kalloc` under `kmem.lock`. -/
def Kernel.pop (s : Kernel) : Option Frame × Kernel :=
  match s.freelist with
  | [] => (none, { s with nulls := s.nulls + 1 })
  | r :: next => (some r, { s with freelist := next })

variable [KernelImage]

def kfree (pa : Frame) : Prog Kernel Unit := do
  kassert fun s => s.MAX_PAGES = 0 || s.FREE_PAGES < s.MAX_PAGES
  if ¬ managed pa then fail "kfree"
  else
    -- Fill with junk to catch dangling refs.
    memset pa 1
    modify fun s => s.push pa

/-- The section of `kref_dec` under `reflock`, returning the new count. -/
def Kernel.dec (s : Kernel) (pa : Frame) : Outcome Kernel Nat :=
  let ref := decr UINT8_MAX (s.refcounts pa)
  .ok ref (s.setRef pa ref)

def kref_dec (pa : Frame) : Prog Kernel Unit := do
  let ref ← atom fun s => s.dec pa
  if ref = 0 then kfree pa else return

omit [KernelImage] in
/-- `if (r)`: the junk and the count of a page just taken. -/
def initPage : Option Frame → Prog Kernel Unit
  | none => return
  | some r => do
    memset r 5 -- fill with junk
    modify fun s => s.setRef r 1

/-- `FREE_PAGES--`. -/
def Kernel.decFree (s : Kernel) : Kernel :=
  { s with FREE_PAGES := decr UINT64_MAX s.FREE_PAGES }

omit [KernelImage] in
def kalloc : Kalloc := do
  kassert fun s => 0 < s.FREE_PAGES
  let r ← atom fun s => .ok s.pop.1 s.pop.2
  initPage r
  modify fun s => s.decFree
  return r

end Xv6
