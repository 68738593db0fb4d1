/-
sysproc.c: sys_va2pa, which walks the page table of another process.

The caller holds `p->lock` of the target while it walks. But `p->pagetable`
is private to the process: `exec` replaces it and frees the old page table
without that lock; only `freeproc` has it.
-/
import Mathlib.Logic.Function.Basic
import Xv6.Kernel.State
import Xv6.Lib.Machine

namespace Xv6.Va2pa

open Conc

/-- A valid entry of a page-table page. One with none of PTE_R, PTE_W and
PTE_X points to a page table of the next level. -/
structure Entry (P : Type) where
  leaf : Bool
  user : Bool
  pa : P
  deriving DecidableEq

/-- What a physical page is: on `kmem.freelist`, a page of the target's page
table number `id` at a level, or anything else. -/
inductive Use
  | free
  | other
  | node (id level : Nat)
  deriving DecidableEq

/-- Who holds `p->lock` of the target. -/
inductive Agent
  | caller
  | target
  | reaper
  deriving DecidableEq

/-- The caller in the body of the loop of `sys_va2pa`, at the target's
slot. Each evaluation of `*pte` is a step of its own. -/
inductive Caller (P : Type)
  | idle
  | acquire (va : Nat) (pid : Int)
  | test (va : Nat) (pid : Int)
  | load (va : Nat)
  /-- In `walk`, before `*pte & PTE_V` and before `PTE2PA(*pte)`. -/
  | walk (va level : Nat) (page : P)
  | follow (va level : Nat) (page : P)
  /-- In `walkaddr`, before the tests of PTE_V and of PTE_U and before
  `PTE2PA(*pte)`. -/
  | valid (va : Nat) (page : P)
  | user (va : Nat) (page : P)
  | pa (va : Nat) (page : P)
  | release (result : Option P)
  | skip
  deriving DecidableEq

namespace Caller

variable {P : Type}

/-- The address, the level and the page of the entry that is read next. -/
def reads : Caller P → Option (Nat × Nat × P)
  | .walk va level page | .follow va level page => some (va, level, page)
  | .valid va page | .user va page | .pa va page => some (va, 0, page)
  | _ => none

/-- The caller holds the lock. -/
def holds : Caller P → Bool
  | .idle | .acquire _ _ => false
  | _ => true

/-- `walk` is at one of the upper levels. -/
def Upper : Caller P → Prop
  | .walk _ level _ | .follow _ level _ => level = 1 ∨ level = 2
  | _ => True

/-- What the caller has found out about the entry that it reads again. -/
def Seen (mem : P → Nat → Option (Entry P)) : Caller P → Prop
  | .follow va level page => mem page (PX level va) ≠ none
  | .pa va page => ∀ e, mem page (PX 0 va) = some e → e.user = true
  | _ => True

theorem holds_of_reads {c : Caller P} {x : Nat × Nat × P} (h : c.reads = some x) :
    c.holds = true := by
  cases c <;> first | rfl | cases h

end Caller

/-- What the target is doing, as far as its page tables go. -/
inductive Mode (P : Type)
  /-- `allocproc` and `fork` make it, under its lock. -/
  | make
  | run
  /-- `exec` builds the page table `id`. -/
  | build (id : Nat) (root : P)
  /-- `proc_freepagetable` removes the leaves of `id`: in `exec`, or in
  `freeproc` by the parent that waits. -/
  | unmap (id : Nat) (root : P) (reap : Bool)
  /-- `freewalk`: the pages it is in and where, innermost first, and whether
  it has just freed the one that the innermost entry points to. -/
  | freewalk (id : Nat) (reap : Bool) (stack : List (P × Nat)) (back : Bool)
  | zombie
  | gone

namespace Mode

variable {P : Type}

def runs : Mode P → Bool
  | .run => true
  | _ => false

/-- The parent frees the page table, or has. -/
def reaps : Mode P → Bool
  | .unmap _ _ reap | .freewalk _ reap _ _ => reap
  | .gone => true
  | _ => false

/-- The target's own code can run. -/
def alive : Mode P → Bool
  | .run | .build _ _ => true
  | .unmap _ _ reap | .freewalk _ reap _ _ => !reap
  | _ => false

/-- The entry whose page has just been freed. -/
def cut : Mode P → Option (P × Nat)
  | .freewalk _ _ (frame :: _) true => some frame
  | _ => none

end Mode

/-- The target's page tables, its slot and the caller. `cur` is the number of
the page table that `p->pagetable` points to. -/
structure State (P : Type) where
  mem : P → Nat → Option (Entry P)
  use : P → Use
  pagetable : Option P
  cur : Nat
  nextid : Nat
  pid : Int
  lock : Option Agent
  mode : Mode P
  caller : Caller P

inductive Event (P : Type)
  /-- The caller's loop comes to the slot, and takes a step. With pid 0 it
  would walk its own page table. -/
  | va2pa (va : Nat) (pid : Int)
  | caller
  /-- The target's lock, by itself or the scheduler, and by its parent. -/
  | acquire
  | release
  | exit
  | reap
  /-- `walk` allocates a page for an entry, `mappages` and `uvmunmap` write a
  leaf; `remap` is a COW fault, `uvmcopy` or `uvmclear`. -/
  | table (page : P) (i : Nat) (q : P)
  | mappages (page : P) (i : Nat) (e : Entry P)
  | remap (page : P) (i : Nat) (e : Entry P)
  | uvmunmap (page : P) (i : Nat)
  /-- `exec`: `uvmcreate`, the switch, and the exit at `bad`. -/
  | create (q : P)
  | commit
  | bad
  | freewalk
  | free (junk : P)
  /-- The rest of the kernel: `kalloc`, `kfree` and writes to its pages. -/
  | take (q : P)
  | give (q : P)
  | write (q : P) (i : Nat) (e : Option (Entry P))

namespace State

variable {P : Type} [DecidableEq P]

def setEntry (s : State P) (page : P) (i : Nat) (e : Option (Entry P)) : State P :=
  { s with mem := Function.update s.mem page (Function.update (s.mem page) i e) }

/-- `kalloc` and `memset` to 0. -/
def newPage (s : State P) (q : P) (u : Use) : State P :=
  { s with use := Function.update s.use q u, mem := Function.update s.mem q fun _ => none }

/-- `kfree` fills the page with ones, which as an entry is valid and no leaf. -/
def kfree (s : State P) (q junk : P) : State P :=
  { s with
    use := Function.update s.use q .free
    mem := Function.update s.mem q fun _ => some ⟨false, false, junk⟩ }

/-- The page table that `walk` and `mappages` write to. -/
def active (s : State P) : Option Nat :=
  match s.mode with
  | .make | .run => some s.cur
  | .build id _ => some id
  | _ => none

/-- The page table that `uvmunmap` writes to. -/
def shrinks (s : State P) : Option Nat :=
  match s.mode with
  | .unmap id _ _ => some id
  | _ => s.active

/-- The caller's step. -/
def step (s : State P) : Option (State P) :=
  match s.caller with
  | .idle => none
  | .acquire va pid =>
    if s.lock = none then some { s with lock := some .caller, caller := .test va pid } else none
  | .test va pid => some { s with caller := if s.pid = pid then .load va else .skip }
  | .load va =>
    if MAXVA ≤ va then some { s with caller := .release none }
    else s.pagetable.map fun r => { s with caller := .walk va 2 r }
  | .walk va level page =>
    match s.mem page (PX level va) with
    | some _ => some { s with caller := .follow va level page }
    | none => some { s with caller := .release none }
  | .follow va level page =>
    (s.mem page (PX level va)).map fun e =>
      { s with caller := if 1 < level then .walk va (level - 1) e.pa else .valid va e.pa }
  | .valid va page =>
    match s.mem page (PX 0 va) with
    | some _ => some { s with caller := .user va page }
    | none => some { s with caller := .release none }
  | .user va page =>
    if (s.mem page (PX 0 va)).any (·.user) then some { s with caller := .pa va page }
    else some { s with caller := .release none }
  | .pa va page => some { s with caller := .release ((s.mem page (PX 0 va)).map (·.pa)) }
  | .release _ | .skip => some { s with lock := none, caller := .idle }

/-- A step of `freewalk`. -/
def freeStep (s : State P) (junk : P) : Option (State P) :=
  match s.mode with
  | .freewalk id reap ((p, i) :: rest) true =>
    some { s.setEntry p i none with mode := .freewalk id reap ((p, i + 1) :: rest) false }
  | .freewalk id reap ((p, i) :: rest) false =>
    if i < 512 then
      match s.mem p i with
      | some e =>
        -- panic("freewalk: leaf")
        if e.leaf then none
        else some { s with mode := .freewalk id reap ((e.pa, 0) :: (p, i) :: rest) false }
      | none => some { s with mode := .freewalk id reap ((p, i + 1) :: rest) false }
    else
      match rest with
      | _ :: _ => some { s.kfree p junk with mode := .freewalk id reap rest true }
      | [] =>
        -- `freeproc` clears the slot, `exec` returns
        if reap then some { s.kfree p junk with mode := .gone, pagetable := none, pid := 0 }
        else some { s.kfree p junk with mode := .run }
  | _ => none

/-- What an event does. -/
def next (s : State P) : Event P → Option (State P)
  | .va2pa va pid =>
    match s.caller with
    | .idle => if pid = 0 then none else some { s with caller := .acquire va pid }
    | _ => none
  | .caller => s.step
  | .acquire =>
    if s.lock = none ∧ s.mode.alive = true then some { s with lock := some .target } else none
  | .release =>
    match s.lock, s.mode with
    | some .target, .make => some { s with lock := none, mode := .run }
    | some .target, _ => some { s with lock := none }
    | some .reaper, .gone => some { s with lock := none }
    | _, _ => none
  | .exit =>
    match s.mode with
    | .run => if s.lock = some .target then some { s with mode := .zombie } else none
    | _ => none
  | .reap =>
    match s.mode, s.pagetable with
    | .zombie, some r =>
      if s.lock = none then some { s with lock := some .reaper, mode := .unmap s.cur r true }
      else none
    | _, _ => none
  | .table page i q =>
    match s.use page with
    | .node id (l + 1) =>
      if s.active = some id ∧ s.mem page i = none ∧ s.use q = .free then
        some ((s.newPage q (.node id l)).setEntry page i (some ⟨false, false, q⟩))
      else none
    | _ => none
  | .mappages page i e =>
    match s.use page with
    | .node id 0 =>
      if s.active = some id ∧ s.mem page i = none ∧ e.leaf = true ∧
          (s.mode.runs = true → e.user = true) then
        some (s.setEntry page i (some e))
      else none
    | _ => none
  | .remap page i e =>
    match s.use page, s.mem page i with
    | .node id 0, some e₀ =>
      if s.active = some id ∧ e.leaf = true ∧ (s.mode.runs = true → e.user = e₀.user) then
        some (s.setEntry page i (some e))
      else none
    | _, _ => none
  | .uvmunmap page i =>
    match s.use page with
    | .node id 0 => if s.shrinks = some id then some (s.setEntry page i none) else none
    | _ => none
  | .create q =>
    match s.mode with
    | .run =>
      if s.use q = .free then
        some { s.newPage q (.node s.nextid 2) with
          mode := .build s.nextid q, nextid := s.nextid + 1 }
      else none
    | _ => none
  | .commit =>
    match s.mode, s.pagetable with
    | .build id root, some old =>
      some { s with pagetable := some root, cur := id, mode := .unmap s.cur old false }
    | _, _ => none
  | .bad =>
    match s.mode with
    | .build id root => some { s with mode := .unmap id root false }
    | _ => none
  | .freewalk =>
    match s.mode with
    | .unmap id root reap => some { s with mode := .freewalk id reap [(root, 0)] false }
    | _ => none
  | .free junk => s.freeStep junk
  | .take q =>
    if s.use q = .free then some { s with use := Function.update s.use q .other } else none
  | .give q =>
    if s.use q = .other then some { s with use := Function.update s.use q .free } else none
  | .write q i e =>
    match s.use q with
    | .node _ _ => none
    | _ => some (s.setEntry q i e)

/-- The page that some entries lead to from the current page table, given the
index in each page on the way, the last one first. -/
def path (s : State P) : List Nat → Option P
  | [] => s.pagetable
  | i :: π => (path s π).bind fun p => (s.mem p i).map (·.pa)

end State

/-- The indices by which `walk` gets to a level. -/
def indices (va : Nat) : Nat → List Nat
  | 0 => [PX 1 va, PX 2 va]
  | 1 => [PX 2 va]
  | _ => []

variable {P : Type} [DecidableEq P] {s s' : State P}

/-- What `walkaddr` returns if nothing else runs. -/
def State.translation (s : State P) (va : Nat) : Option P :=
  (s.path (indices va 0)).bind fun p =>
    (s.mem p (PX 0 va)).bind fun e => if e.user then some e.pa else none

/-- The entry that the caller reads next lies in a page of the target's
current page table, and what the caller has seen in it is there still. -/
structure Sound (s : State P) : Prop where
  table : ∀ va level page, s.caller.reads = some (va, level, page) →
    s.path (indices va level) = some page ∧ s.use page ≠ .free
  seen : s.caller.Seen s.mem

/-- `exec` does not switch page tables in the middle of a walk. -/
def Apart (s : State P) : Event P → Prop
  | .commit => s.caller.reads = none
  | _ => True

instance (s : State P) (e : Event P) : Decidable (Apart s e) := by
  unfold Apart
  split <;> infer_instance

/-- The target as `allocproc` begins to make it, with an empty page table. -/
def start (r : P) (pid : Int) : State P where
  mem _ _ := none
  use := Function.update (fun _ => .free) r (.node 0 2)
  pagetable := some r
  cur := 0
  nextid := 1
  pid := pid
  lock := some .target
  mode := .make
  caller := .idle

def machine (r : P) (pid : Int) : Machine (State P) (Event P) where
  init s := s = start r pid
  next := State.next

end Xv6.Va2pa
