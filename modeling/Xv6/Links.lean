/-
sysfile.c and fs.c: what `link`, `mkdir`, `mknod`, `open` and `unlink` do to
the link counts of inodes, one call after another.

Inodes are by number, and a name is what a directory entry compares of it. What
`namei` and `nameiparent` find is part of an event, and may be any inode. `ref`
counts the references that last (of open files and current directories), not
those of the call that is going on; `blocks` is how many blocks an inode has.
`count` is auxiliary: the successful operations that create a link to an inode,
less those that remove one.
-/
import Xv6.Lib.Machine
import Xv6.Lib.Prog
import Xv6.Fs.Format
import Mathlib.Logic.Function.Basic

namespace Xv6.LinkCounts

open Conc Fs

def T_DEVICE : Nat := 3

structure Dirent where
  inum : Nat
  name : List UInt8
deriving DecidableEq

def dot : List UInt8 := [0x2e]

def dotdot : List UInt8 := [0x2e, 0x2e]

structure State where
  type : Nat → Nat
  nlink : Nat → BitVec 16
  dir : Nat → List Dirent
  ref : Nat → Nat
  blocks : Nat → Nat
  /-- The free blocks of the disk. -/
  free : Nat
  count : Nat → Int

/-- What `create` is asked to make. -/
inductive Made where
  | dir
  | file
  | device

def Made.type : Made → Nat
  | .dir => T_DIR
  | .file => T_FILE
  | .device => T_DEVICE

inductive Event where
  /-- `old` is the inode `ip`, and `new` a name in `dp`, if its parent exists. -/
  | link (ip : Nat) (dp : Option Nat) (name : List UInt8)
  /-- `keep`: the inode is opened. -/
  | create (dp : Nat) (name : List UInt8) (made : Made) (keep : Bool)
  | unlink (dp : Nat) (name : List UInt8)
  /-- A file is opened or a current directory changed. -/
  | hold (ip : Nat)
  /-- The end of such a use. -/
  | release (ip : Nat)

namespace State

variable (s : State)

/-- `ip->nlink++` and `ip->nlink--` -/
def addLink (ip : Nat) (d : Int) : State := { s with
  nlink := Function.update s.nlink ip (s.nlink ip + BitVec.ofInt 16 d)
  count := Function.update s.count ip (s.count ip + d) }

def setDir (dp : Nat) (des : List Dirent) : State :=
  { s with dir := Function.update s.dir dp des }

def hold (ip : Nat) : State := { s with ref := Function.update s.ref ip (s.ref ip + 1) }

/-- Give up a reference of the call: the last one of an inode without links
frees it. -/
def iput (ip : Nat) : State :=
  if s.ref ip = 0 ∧ s.nlink ip = 0 then { s with
    type := Function.update s.type ip 0
    dir := Function.update s.dir ip []
    blocks := Function.update s.blocks ip 0
    free := s.free + s.blocks ip }
  else s

/-- Give up a reference that has lasted. -/
def release (ip : Nat) : State :=
  iput { s with ref := Function.update s.ref ip (s.ref ip - 1) } ip

/-! ## Directories -/

/-- One more block for an inode, if there is one. -/
def balloc (dp : Nat) : State × Bool :=
  if s.free = 0 then (s, false)
  else ({ s with
    free := s.free - 1
    blocks := Function.update s.blocks dp (s.blocks dp + 1) }, true)

/-- `bmap` for the block after the last one. -/
def bmap (dp bn : Nat) : State × Bool :=
  if NDIRECT ≤ bn ∧ s.blocks dp ≤ bn then
    -- The indirect block comes first.
    match s.balloc dp with
    | (s, true) => s.balloc dp
    | (s, false) => (s, false)
  else s.balloc dp

/-- Whether `writei` can write an entry at the end of a directory. -/
def extend (dp : Nat) : State × Bool :=
  let off := 16 * (s.dir dp).length
  if MAXFILE * BSIZE < off + 16 then (s, false)
  else if off % BSIZE = 0 then s.bmap dp (off / BSIZE)
  else (s, true)

/-- The inode number of a name, and which entry it has. -/
def dirlookup (dp : Nat) (name : List UInt8) : Option (Nat × Nat) :=
  match (s.dir dp).findIdx? fun de => de.inum ≠ 0 ∧ de.name = name with
  | some k => (s.dir dp)[k]?.map fun de => (de.inum, k)
  | none => none

/-- Write a new directory entry into the directory. -/
def dirlink (dp : Nat) (name : List UInt8) (inum : Nat) : State × Bool :=
  if (s.dirlookup dp name).isSome then (s, false)
  else
    -- Look for an empty dirent.
    match (s.dir dp).findIdx? fun de => de.inum = 0 with
    | some k => (s.setDir dp ((s.dir dp).set k ⟨inum, name⟩), true)
    | none =>
      match s.extend dp with
      | (s, true) => (s.setDir dp (s.dir dp ++ [⟨inum, name⟩]), true)
      | (s, false) => (s, false)

/-- Is the directory empty except for "." and ".."? -/
def isdirempty (dp : Nat) : Bool := ((s.dir dp).drop 2).all fun de => de.inum = 0

/-! ## System calls -/

/-- A free inode. -/
def ialloc (ninodes : Nat) : Option Nat :=
  (List.range' 1 (ninodes - 1)).find? fun i => s.type i = 0

/-- The result of a call is whether it succeeds. -/
def sys_link (ip : Nat) (dp : Option Nat) (name : List UInt8) : Outcome State Bool :=
  if s.type ip = 0 then .panic "ilock: no type"
  else if s.type ip = T_DIR then .ok false (s.iput ip)
  else
    let s := s.addLink ip 1
    match dp with
    | none => .ok false ((s.addLink ip (-1)).iput ip)
    | some dp =>
      if s.type dp ≠ T_DIR then .panic "dirlookup not DIR"
      else
        match s.dirlink dp name ip with
        | (s, true) => .ok true ((s.iput dp).iput ip)
        | (s, false) => .ok false (((s.iput dp).addLink ip (-1)).iput ip)

/-- `create` when the name exists. -/
def createFound (ip : Nat) (made : Made) (keep : Bool) : Outcome State Bool :=
  if s.type ip = 0 then .panic "ilock: no type"
  else if made.type = T_FILE ∧ (s.type ip = T_FILE ∨ s.type ip = T_DEVICE) then
    .ok true (if keep then s.hold ip else s.iput ip)
  else .ok false (s.iput ip)

/-- The entries "." and ".." of a new directory. -/
def dots (dp ip : Nat) (made : Made) : State × Bool :=
  match made with
  | .dir =>
    match s.dirlink ip dot ip with
    | (s, true) => s.dirlink ip dotdot dp
    | (s, false) => (s, false)
  | _ => (s, true)

/-- The entries that `create` makes for a new inode. -/
def enter (dp : Nat) (name : List UInt8) (made : Made) (ip : Nat) : State × Bool :=
  match s.dots dp ip made with
  | (s, true) => s.dirlink dp name ip
  | (s, false) => (s, false)

/-- `ialloc` has found a free inode; it gets its first link. -/
def alloc (ip : Nat) (made : Made) : State :=
  addLink { s with
    type := Function.update s.type ip made.type
    nlink := Function.update s.nlink ip 0 } ip 1

/-- `dp->nlink++` for the ".." of a new directory. -/
def linkParent (dp : Nat) (made : Made) : State :=
  match made with
  | .dir => s.addLink dp 1
  | _ => s

/-- `create` when the name does not exist. -/
def createNew (dp : Nat) (name : List UInt8) (made : Made) (keep : Bool) (ip : Nat) :
    Outcome State Bool :=
  match (s.alloc ip made).enter dp name made ip with
  | (s, true) =>
    let s := (s.linkParent dp made).iput dp
    .ok true (if keep then s.hold ip else s.iput ip)
  | (s, false) => .ok false (((s.addLink ip (-1)).iput ip).iput dp)

def create (ninodes dp : Nat) (name : List UInt8) (made : Made) (keep : Bool) :
    Outcome State Bool :=
  if s.type dp ≠ T_DIR then .panic "dirlookup not DIR"
  else
    match s.dirlookup dp name with
    | some (ip, _) => (s.iput dp).createFound ip made keep
    | none =>
      match s.ialloc ninodes with
      | none => .ok false (s.iput dp)
      | some ip => s.createNew dp name made keep ip

/-- `sys_unlink` when it has found the entry. -/
def unlinkFound (dp k ip : Nat) : Outcome State Bool :=
  if s.type ip = 0 then .panic "ilock: no type"
  else if (s.nlink ip).toInt < 1 then .panic "unlink: nlink < 1"
  else if s.type ip = T_DIR ∧ ¬ s.isdirempty ip then .ok false ((s.iput ip).iput dp)
  else
    let s := s.setDir dp ((s.dir dp).set k ⟨0, []⟩)
    let s := if s.type ip = T_DIR then s.addLink dp (-1) else s
    let s := s.iput dp
    .ok true ((s.addLink ip (-1)).iput ip)

def sys_unlink (dp : Nat) (name : List UInt8) : Outcome State Bool :=
  if s.type dp ≠ T_DIR then .panic "dirlookup not DIR"
  -- Cannot unlink "." or "..".
  else if name = dot ∨ name = dotdot then .ok false (s.iput dp)
  else
    match s.dirlookup dp name with
    | some (ip, k) => s.unlinkFound dp k ip
    | none => .ok false (s.iput dp)

def step (ninodes : Nat) : Event → Outcome State Bool
  | .link ip dp name => s.sys_link ip dp name
  | .create dp name made keep => s.create ninodes dp name made keep
  | .unlink dp name => s.sys_unlink dp name
  | .hold ip => if s.type ip = 0 then .panic "ilock: no type" else .ok true (s.hold ip)
  | .release ip => if s.ref ip = 0 then .wait else .ok true (s.release ip)

end State

/-- A disk that `mkfs` has made: one directory, and every file in it once. -/
structure Initial (ninodes : Nat) (s : State) : Prop where
  root : s.type ROOTINO = T_DIR ∧ s.nlink ROOTINO = 1
  plain : ∀ i, i ≠ ROOTINO → s.type i ≠ T_DIR ∧ s.dir i = [] ∧
    s.nlink i = if s.type i = 0 then 0 else 1
  named : ∀ de ∈ s.dir ROOTINO, de.inum ≠ 0 → de.name ≠ dot → de.name ≠ dotdot →
    s.type de.inum ≠ 0 ∧ de.inum ≠ ROOTINO
  once : (((s.dir ROOTINO).filter fun de => de.inum ≠ 0 ∧ de.name ≠ dot ∧
    de.name ≠ dotdot).map (·.inum)).Nodup
  count : ∀ i, s.count i = (s.nlink i).toInt
  bound : ∀ i, s.type i ≠ 0 → i < ninodes

def machine (ninodes : Nat) : Machine State Event where
  init := Initial ninodes
  next s e := match s.step ninodes e with
    | .ok _ s' => some s'
    | _ => none

end Xv6.LinkCounts
