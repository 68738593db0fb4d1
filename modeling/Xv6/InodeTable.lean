/-
fs.c: the inode table, with `n` entries, used by the processes `P`.

A step is a section under `itable.lock`, a section from `bread` to `brelse` of
the block an inode is in, taking or giving up the lock of an entry, or an
assignment to an entry whose lock the process holds. `dinode` is the contents
of the cached blocks, by device and inode number. A process that would wait,
and a `panic`, take no step.

`handle`, `allocs` and `freed` are auxiliary. A handle of `H` is what a
reference is kept in: a variable, the current directory of a process, or a
`struct file`. Several processes may use one handle (that of a file they
share), but none uses a handle whose reference is being given up by `iput`.
`allocs` counts the allocations of an inode number, and `freed` lists what
`iput` has begun to free.
-/
import Xv6.Lib.Machine
import Mathlib.Data.Fintype.Card
import Mathlib.Data.List.FinRange

namespace Xv6.InodeTable

open Conc

def NDIRECT : Nat := 12

/-- `struct dinode`, and the part of `struct inode` that is a copy of it. -/
structure Dinode where
  type : Int
  major : Int
  minor : Int
  nlink : Int
  size : Nat
  addrs : Fin (NDIRECT + 1) → Nat

/-- `memset(dip, 0, sizeof(*dip)); dip->type = type` -/
def Dinode.ofType (type : Int) : Dinode := ⟨type, 0, 0, 0, 0, fun _ => 0⟩

/-- Where a process is. -/
inductive PC (n : Nat) (H : Type) where
  | user
  /-- In the loop of `ialloc`. -/
  | ialloc (dev : Nat) (type : Int) (inum : Nat)
  /-- `return iget(dev, inum)` in `ialloc` -/
  | ialloced (dev inum : Nat)
  /-- `acquiresleep(&ip->lock)` in `ilock` -/
  | ilock (ip : Fin n) (h : H)
  /-- `if(ip->valid == 0)` in `ilock` -/
  | ilockRead (ip : Fin n)
  /-- In the loop of `writei`. -/
  | writei (ip : Fin n)
  /-- `iupdate`, but for those of `itrunc` and `iput`. -/
  | iupdate (ip : Fin n)
  /-- In the loop of `itrunc`; `put` is the handle when `iput` has called it. -/
  | itrunc (ip : Fin n) (i : Nat) (put : Option H)
  /-- `iupdate` in `itrunc` -/
  | itruncUpdate (ip : Fin n) (put : Option H)
  /-- `ip->type = 0` in `iput` -/
  | iputType (ip : Fin n) (h : H)
  /-- `iupdate` in `iput` -/
  | iputUpdate (ip : Fin n) (h : H)
  /-- `ip->valid = 0; releasesleep(&ip->lock)` -/
  | iputInvalid (ip : Fin n) (h : H)
  /-- The last section of `iput`. -/
  | iputRef (ip : Fin n) (h : H)

/-- `iput` is giving up the reference in the handle. -/
def PC.puts {n : Nat} {H : Type} [DecidableEq H] (h : H) : PC n H → Bool
  | .itrunc _ _ (some h') | .itruncUpdate _ (some h') | .iputType _ h' | .iputUpdate _ h'
  | .iputInvalid _ h' | .iputRef _ h' => h' = h
  | _ => false

/-- Waiting for the lock of an entry, through the handle. -/
def PC.waits {n : Nat} {H : Type} [DecidableEq H] (h : H) : PC n H → Bool
  | .ilock _ h' => h' = h
  | _ => false

/-- A device and an inode number. -/
abbrev Key := Nat × Nat

/-- `itable` and the inode blocks. -/
structure State (P : Type) (n : Nat) (H : Type) where
  dev : Fin n → Nat
  inum : Fin n → Nat
  ref : Fin n → Nat
  /-- The process that holds the lock, and the handle it has taken it by. -/
  lock : Fin n → Option (P × H)
  valid : Fin n → Bool
  copy : Fin n → Dinode
  dinode : Key → Dinode
  pc : P → PC n H
  handle : H → Option (Fin n)
  allocs : Key → Nat
  freed : List (Key × Nat)

/-- What happens next. -/
inductive Event (P : Type) (n : Nat) (H : Type) where
  /-- The next step of a process in one of these functions. -/
  | go (p : P)
  | ialloc (p : P) (dev : Nat) (type : Int)
  /-- `iget` at the end of `ialloc` -/
  | ialloced (p : P) (h : H)
  | iget (p : P) (dev inum : Nat) (h : H)
  | idup (p : P) (h h' : H)
  | ilock (p : P) (h : H)
  | iunlock (p : P) (h : H)
  | iput (p : P) (h : H)
  | itrunc (p : P) (h : H)
  | writei (p : P) (h : H)
  /-- `bmap` in `writei` enters a new block. -/
  | bmap (p : P) (i : Fin (NDIRECT + 1)) (addr : Nat)
  /-- The end of `writei`: `off` is what `off` is there. -/
  | wrote (p : P) (off : Nat)
  /-- What `create`, `sys_link` and `sys_unlink` do to a locked inode before
  they call `iupdate`. -/
  | update (p : P) (h : H) (major minor nlink : Int)

namespace State

variable {P : Type} {n : Nat} {H : Type} [DecidableEq P] [DecidableEq H]

def goto (s : State P n H) (p : P) (pc : PC n H) : State P n H :=
  { s with pc := Function.update s.pc p pc }

/-- The inode that a table entry is for. -/
def key (s : State P n H) (i : Fin n) : Key := (s.dev i, s.inum i)

/-- A reference to entry `i`, in the handle `h`. -/
def addRef (s : State P n H) (i : Fin n) (h : H) : State P n H :=
  { s with
    ref := Function.update s.ref i (s.ref i + 1)
    handle := Function.update s.handle h (some i) }

/-- `ip->ref--` -/
def dropRef (s : State P n H) (i : Fin n) (h : H) : State P n H :=
  { s with
    ref := Function.update s.ref i (s.ref i - 1)
    handle := Function.update s.handle h none }

/-- The table entry that `iget` takes for an inode that has none. -/
def recycle (s : State P n H) (i : Fin n) (dev inum : Nat) (h : H) : State P n H :=
  { s with
    dev := Function.update s.dev i dev
    inum := Function.update s.inum i inum
    ref := Function.update s.ref i 1
    valid := Function.update s.valid i false
    handle := Function.update s.handle h (some i) }

/-- `iget`, which puts the reference in the handle `h`. -/
def iget (s : State P n H) (dev inum : Nat) (h : H) : Option (State P n H) :=
  if s.handle h = none then
    match (List.finRange n).find? fun i => 0 < s.ref i ∧ s.dev i = dev ∧ s.inum i = inum with
    | some i => some (s.addRef i h)
    | none =>
      match (List.finRange n).find? fun i => s.ref i = 0 with
      | some i => some (s.recycle i dev inum h)
      -- `panic("iget: no inodes")`
      | none => none
  else none

def setCopy (s : State P n H) (i : Fin n) (d : Dinode) : State P n H :=
  { s with copy := Function.update s.copy i d }

/-- `iupdate` -/
def iupdate (s : State P n H) (i : Fin n) : State P n H :=
  { s with dinode := Function.update s.dinode (s.key i) (s.copy i) }

/-- `ialloc` marks a free inode. -/
def mark (s : State P n H) (k : Key) (type : Int) : State P n H :=
  { s with
    dinode := Function.update s.dinode k (.ofType type)
    allocs := Function.update s.allocs k (s.allocs k + 1) }

/-- `ilock` reads the inode. -/
def load (s : State P n H) (i : Fin n) : State P n H :=
  { s.setCopy i (s.dinode (s.key i)) with valid := Function.update s.valid i true }

def acquiresleep (s : State P n H) (p : P) (i : Fin n) (h : H) : State P n H :=
  { s with lock := Function.update s.lock i (some (p, h)) }

def releasesleep (s : State P n H) (i : Fin n) : State P n H :=
  { s with lock := Function.update s.lock i none }

/-- The next step of process `p`. -/
def go (s : State P n H) (ninodes : Nat) (p : P) : Option (State P n H) :=
  match s.pc p with
  | .user | .ialloced .. | .writei _ => none
  | .ialloc dev type inum =>
    if inum < ninodes then
      if (s.dinode (dev, inum)).type = 0 then
        some ((s.mark (dev, inum) type).goto p (.ialloced dev inum))
      else some (s.goto p (.ialloc dev type (inum + 1)))
    else some (s.goto p .user)
  | .ilock i h =>
    if s.lock i = none then some ((s.acquiresleep p i h).goto p (.ilockRead i)) else none
  | .ilockRead i =>
    if s.valid i then some (s.goto p .user)
    -- `panic("ilock: no type")`
    else if (s.dinode (s.key i)).type = 0 then none
    else some ((s.load i).goto p .user)
  | .iupdate i => some ((s.iupdate i).goto p .user)
  | .itrunc i j put =>
    if h : j < NDIRECT + 1 then
      if (s.copy i).addrs ⟨j, h⟩ = 0 then some (s.goto p (.itrunc i (j + 1) put))
      else
        some ((s.setCopy i { s.copy i with
          addrs := Function.update (s.copy i).addrs ⟨j, h⟩ 0 }).goto p (.itrunc i (j + 1) put))
    else some ((s.setCopy i { s.copy i with size := 0 }).goto p (.itruncUpdate i put))
  | .itruncUpdate i none => some ((s.iupdate i).goto p .user)
  | .itruncUpdate i (some h) => some ((s.iupdate i).goto p (.iputType i h))
  | .iputType i h => some ((s.setCopy i { s.copy i with type := 0 }).goto p (.iputUpdate i h))
  | .iputUpdate i h => some ((s.iupdate i).goto p (.iputInvalid i h))
  | .iputInvalid i h =>
    let s := { s with valid := Function.update s.valid i false }
    some ((s.releasesleep i).goto p (.iputRef i h))
  | .iputRef i h => some ((s.dropRef i h).goto p .user)

/-- The first section of `iput`. -/
def iput (s : State P n H) (p : P) (i : Fin n) (h : H) : Option (State P n H) :=
  if s.ref i = 1 ∧ s.valid i ∧ (s.copy i).nlink = 0 then
    if s.lock i = none then
      some (({ s with freed := (s.key i, s.allocs (s.key i)) :: s.freed }.acquiresleep p i h).goto p
        (.itrunc i 0 (some h)))
    else none
  else some (s.dropRef i h)

/-- No process uses the handle. -/
def Unused [Fintype P] (s : State P n H) (h : H) : Prop :=
  (∀ q, (s.pc q).puts h = false ∧ (s.pc q).waits h = false) ∧
    ∀ i, ∀ q ∈ (s.lock i), q.2 ≠ h

instance [Fintype P] (s : State P n H) (h : H) : Decidable (s.Unused h) := by
  unfold Unused
  infer_instance

/-- What process `p` calls next. -/
def call [Fintype P] (s : State P n H) (p : P) : Event P n H → Option (State P n H)
  | .go _ | .ialloced .. | .bmap .. | .wrote .. => none
  | .ialloc _ dev type => if type = 0 then none else some (s.goto p (.ialloc dev type 1))
  | .iget _ dev inum h => s.iget dev inum h
  | .idup _ h h' =>
    match s.handle h with
    | some i =>
      if s.handle h' = none ∧ ∀ q, (s.pc q).puts h = false then some (s.addRef i h') else none
    | none => none
  | .ilock _ h =>
    match s.handle h with
    | some i => if ∀ q, (s.pc q).puts h = false then some (s.goto p (.ilock i h)) else none
    | none => none
  | .iunlock _ h =>
    match s.handle h with
    | some i => if s.lock i = some (p, h) then some (s.releasesleep i) else none
    | none => none
  | .iput _ h =>
    match s.handle h with
    | some i => if s.Unused h then s.iput p i h else none
    | none => none
  | .itrunc _ h =>
    match s.handle h with
    | some i => if s.lock i = some (p, h) then some (s.goto p (.itrunc i 0 none)) else none
    | none => none
  | .writei _ h =>
    match s.handle h with
    | some i => if s.lock i = some (p, h) then some (s.goto p (.writei i)) else none
    | none => none
  | .update _ h major minor nlink =>
    match s.handle h with
    | some i =>
      if s.lock i = some (p, h) then
        some ((s.setCopy i { s.copy i with major := major, minor := minor, nlink := nlink }).goto p
          (.iupdate i))
      else none
    | none => none

/-- What process `p` does in the loop of `writei` and at its end. -/
def write (s : State P n H) (p : P) (i : Fin n) : Event P n H → Option (State P n H)
  | .bmap _ j addr =>
    if (s.copy i).addrs j = 0 then
      some (s.setCopy i { s.copy i with addrs := Function.update (s.copy i).addrs j addr })
    else none
  | .wrote _ off =>
    let size := if (s.copy i).size < off then off else (s.copy i).size
    some ((s.setCopy i { s.copy i with size := size }).goto p (.iupdate i))
  | _ => none

end State

def Event.process {P : Type} {n : Nat} {H : Type} : Event P n H → P
  | .go p | .ialloc p _ _ | .ialloced p _ | .iget p _ _ _ | .idup p _ _ | .ilock p _
  | .iunlock p _ | .iput p _ | .itrunc p _ | .writei p _ | .bmap p _ _ | .wrote p _
  | .update p _ _ _ _ => p

/-- The inode table from `iinit` on; there are `ninodes` inodes on a device. -/
def machine (P : Type) (n : Nat) (H : Type) [DecidableEq P] [Fintype P] [DecidableEq H]
    (ninodes : Nat) : Machine (State P n H) (Event P n H) where
  init s := (∀ i, s.ref i = 0 ∧ s.lock i = none) ∧ (∀ p, s.pc p = .user) ∧
    (∀ h, s.handle h = none) ∧ s.freed = []
  next s e :=
    match s.pc e.process with
    | .user => s.call e.process e
    | .writei i => s.write e.process i e
    | .ialloced dev inum =>
      match e with
      | .ialloced p h => (s.iget dev inum h).map (·.goto p .user)
      | _ => none
    | _ =>
      match e with
      | .go p => s.go ninodes p
      | _ => none

end Xv6.InodeTable
