/-
fs.c and file.c: the blocks of an inode, and reading and writing them.

The blocks are as the buffers have them, and an inode is its copy in memory.
An action is a section on one buffer, between `bread` and `brelse`, or an
access to an inode by the process that has it locked. `logged` is auxiliary:
the blocks that the transaction has passed to `log_write`.
-/
import Xv6.Lib.Prog
import Xv6.Fs.Format
import Xv6.Log.Model

namespace Xv6.FileSystem

open Conc Prog Fs

structure State where
  data : Nat → Bytes
  inode : Nat → Dinode
  /-- `f->off` -/
  off : Nat
  /-- Whether this process has the inode of its file locked. -/
  locked : Bool
  logged : Finset Nat

/-- Block of free map containing bit for block `b`. -/
def BBLOCK (sb : Superblock) (b : Nat) : Nat := b / BPB + sb.bmapstart

/-- Block containing inode `i`. -/
def IBLOCK (sb : Superblock) (i : Nat) : Nat := i / IPB + sb.inodestart

/-! ## Buffers -/

def bread (b : Nat) : Prog State Bytes := read fun s => s.data b

def State.store (s : State) (b : Nat) (d : Bytes) : State :=
  { s with data := Function.update s.data b d }

def State.log_write (s : State) (b : Nat) : State := { s with logged := insert b s.logged }

/-- A section on the buffer of a block that changes it and logs it. -/
def logStore (b : Nat) (f : Bytes → Bytes) : Prog State Unit :=
  modify fun s => (s.store b (f (s.data b))).log_write b

/-! ## Blocks -/

/-- Zero a block. -/
def bzero (bno : Nat) : Prog State Unit := logStore bno fun _ => Bytes.zero

/-- The inner loop of `balloc`: a free block among those of a bitmap block. -/
def findFree (sb : Superblock) (d : Bytes) (b : Nat) : Option Nat :=
  (List.range (min BPB (sb.size - b))).find? fun bi => ! d.getBit bi

/-- The section of `balloc` on a bitmap block. -/
def takeBit (sb : Superblock) (b : Nat) : Prog State (Option Nat) := atom fun s =>
  match findFree sb (s.data (BBLOCK sb b)) b with
  | some bi => .ok (some bi)
      ((s.store (BBLOCK sb b) ((s.data (BBLOCK sb b)).setBit bi)).log_write (BBLOCK sb b))
  | none => .ok none s

/-- The loop of `balloc`, with `n` more blocks of the bitmap. -/
def ballocLoop (sb : Superblock) : (n b : Nat) → Prog State Nat
  | 0, _ => return 0
  | n + 1, b => do
    match ← takeBit sb b with
    | some bi =>
      bzero (b + bi)
      return b + bi
    | none => ballocLoop sb n (b + BPB)

/-- Allocate a zeroed disk block; 0 if out of disk space. -/
def balloc (sb : Superblock) : Prog State Nat := ballocLoop sb ((sb.size + BPB - 1) / BPB) 0

/-- Free a disk block. -/
def bfree (sb : Superblock) (b : Nat) : Prog State Unit := atom fun s =>
  if (s.data (BBLOCK sb b)).getBit (b % BPB) then
    .ok () ((s.store (BBLOCK sb b) ((s.data (BBLOCK sb b)).clearBit (b % BPB))).log_write
      (BBLOCK sb b))
  else .panic "freeing free block"

/-! ## Inodes -/

def State.setInode (s : State) (i : Nat) (ip : Dinode) : State :=
  { s with inode := Function.update s.inode i ip }

def setAddr (i : Nat) (k : Fin (NDIRECT + 1)) (addr : Nat) : Prog State Unit := modify fun s =>
  s.setInode i { s.inode i with addrs := Function.update (s.inode i).addrs k addr }

/-- Copy a modified in-memory inode to disk. -/
def iupdate (sb : Superblock) (i : Nat) : Prog State Unit := do
  let ip ← read fun s => s.inode i
  logStore (IBLOCK sb i) fun d => putDinode d (i % IPB * 64) ip

/-- The block number in `ip->addrs[k]`, allocated if there is none. -/
def bmapAddr (sb : Superblock) (i : Nat) (k : Fin (NDIRECT + 1)) : Prog State Nat := do
  let addr ← read fun s => (s.inode i).addrs k
  if addr ≠ 0 then return addr
  else do
    let addr ← balloc sb
    if addr = 0 then return 0
    else do
      setAddr i k addr
      return addr

/-- The disk block address of the `bn`th block of an inode, allocated if there
is none; 0 if out of disk space. -/
def bmap (sb : Superblock) (i bn : Nat) : Prog State Nat :=
  if h : bn < NDIRECT then bmapAddr sb i ⟨bn, Nat.lt_succ_of_lt h⟩
  else if bn - NDIRECT < NINDIRECT then do
    -- Load indirect block, allocating if necessary.
    let ind ← bmapAddr sb i (Fin.last NDIRECT)
    if ind = 0 then return 0
    else do
      let a ← bread ind
      if a.getLe (4 * (bn - NDIRECT)) 4 ≠ 0 then return a.getLe (4 * (bn - NDIRECT)) 4
      else do
        let addr ← balloc sb
        if addr = 0 then return 0
        else do
          logStore ind fun a => a.putLe (4 * (bn - NDIRECT)) 4 addr
          return addr
  else fail "bmap: out of range"

/-- The loop of `itrunc` over numbers in the inode. -/
def truncAddrs (sb : Superblock) (i : Nat) : List (Fin (NDIRECT + 1)) → Prog State Unit
  | [] => return
  | k :: ks => do
    let addr ← read fun s => (s.inode i).addrs k
    (if addr ≠ 0 then do
        bfree sb addr
        setAddr i k 0
      else return ())
    truncAddrs sb i ks

/-- The loop of `itrunc` over entries of the indirect block. -/
def freeEntries (sb : Superblock) (a : Bytes) : List Nat → Prog State Unit
  | [] => return
  | j :: js => do
    (if a.getLe (4 * j) 4 ≠ 0 then bfree sb (a.getLe (4 * j) 4) else return ())
    freeEntries sb a js

/-- The part of `itrunc` on the indirect block. -/
def truncIndirect (sb : Superblock) (i : Nat) : Prog State Unit := do
  let ind ← read fun s => (s.inode i).addrs (Fin.last NDIRECT)
  if ind ≠ 0 then do
    let a ← bread ind
    freeEntries sb a (List.range NINDIRECT)
    bfree sb ind
    setAddr i (Fin.last NDIRECT) 0
  else return ()

/-- Truncate inode (discard contents). -/
def itrunc (sb : Superblock) (i : Nat) : Prog State Unit := do
  truncAddrs sb i ((List.finRange NDIRECT).map Fin.castSucc)
  truncIndirect sb i
  modify fun s => s.setInode i { s.inode i with size := 0 }
  iupdate sb i

/-! ## Content -/

/-- Memory by its addresses, where it can be read. -/
abbrev Mem := Nat → Option UInt8

/-- The bytes that `copyin` finds before an address that cannot be read. -/
def Mem.bytes (mem : Mem) (src : Nat) : (n : Nat) → List UInt8
  | 0 => []
  | n + 1 =>
    match mem src with
    | some x => x :: mem.bytes (src + 1) n
    | none => []

/-- Copy to the buffer of a block; what comes before an address that cannot be
read has been copied then. -/
def either_copyin (mem : Mem) (b off src len : Nat) : Prog State Int := atom fun s =>
  .ok (if (mem.bytes src len).length = len then 0 else -1)
    (s.store b ((s.data b).copy off (mem.bytes src len)))

/-- The loop of `writei`: `tot` and `off` at its end. An iteration writes at
least one byte. -/
def writeiLoop (sb : Superblock) (mem : Mem) (i n : Nat) :
    (fuel tot off src : Nat) → Prog State (Nat × Nat)
  | 0, tot, off, _ => return (tot, off)
  | fuel + 1, tot, off, src =>
    if tot < n then do
      let addr ← bmap sb i (off / BSIZE)
      if addr = 0 then return (tot, off)
      else do
        let m := min (n - tot) (BSIZE - off % BSIZE)
        let r ← either_copyin mem addr (off % BSIZE) src m
        if r = -1 then return (tot, off)
        else do
          modify fun s => s.log_write addr
          writeiLoop sb mem i n fuel (tot + m) (off + m) (src + m)
    else return (tot, off)

/-- Write data to inode; the number of bytes written. -/
def writei (sb : Superblock) (mem : Mem) (i src off n : Nat) : Prog State Int := do
  let ip ← read fun s => s.inode i
  if off > ip.size ∨ (off + n) % 2 ^ 32 < off then return -1
  else if (off + n) % 2 ^ 32 > MAXFILE * BSIZE then return -1
  else do
    let (tot, off) ← writeiLoop sb mem i n n 0 off src
    modify fun s =>
      if off > (s.inode i).size then s.setInode i { s.inode i with size := off } else s
    -- write the i-node back to disk even if the size didn't change
    iupdate sb i
    return tot

/-- The loop of `readi`: what it returns, and the bytes that it has copied out,
to addresses that can be written. -/
def readiLoop (sb : Superblock) (writable : Nat → Bool) (i n : Nat) :
    (fuel tot off dst : Nat) → Prog State (Int × List UInt8)
  | 0, tot, _, _ => return (tot, [])
  | fuel + 1, tot, off, dst =>
    if tot < n then do
      let addr ← bmap sb i (off / BSIZE)
      if addr = 0 then return (tot, [])
      else do
        let d ← bread addr
        let m := min (n - tot) (BSIZE - off % BSIZE)
        if (List.range m).all fun j => writable (dst + j) then do
          let (r, out) ← readiLoop sb writable i n fuel (tot + m) (off + m) (dst + m)
          return (r, (List.range m).map (fun j => d (off % BSIZE + j)) ++ out)
        else return (-1, [])
    else return (tot, [])

/-- Read data from inode. -/
def readi (sb : Superblock) (writable : Nat → Bool) (i dst off n : Nat) :
    Prog State (Int × List UInt8) := do
  let ip ← read fun s => s.inode i
  if off > ip.size ∨ (off + n) % 2 ^ 32 < off then return (0, [])
  else
    let n := if (off + n) % 2 ^ 32 > ip.size then ip.size - off else n
    readiLoop sb writable i n n 0 off dst

/-! ## Files -/

/-- What `filewrite` writes at a time, at most. -/
def maxWrite : Nat := (Log.MAXOPBLOCKS - 1 - 1 - 2) / 2 * BSIZE

def begin_op : Prog State Unit := modify fun s => { s with logged := ∅ }

def ilock : Prog State Unit := modify fun s => { s with locked := true }

def iunlock : Prog State Unit := modify fun s => { s with locked := false }

/-- A turn of the loop of `filewrite`, from `begin_op` to `end_op`. -/
def writeChunk (sb : Superblock) (mem : Mem) (i src n1 : Nat) : Prog State Int := do
  begin_op
  ilock
  let off ← read fun s => s.off
  let r ← writei sb mem i src off n1
  (if r > 0 then modify fun s => { s with off := off + r.toNat } else return ())
  iunlock
  return r

/-- The loop of `filewrite`: `i` at its end. -/
def filewriteLoop (sb : Superblock) (mem : Mem) (ip addr n : Nat) :
    (fuel i : Nat) → Prog State Nat
  | 0, i => return i
  | fuel + 1, i =>
    if i < n then do
      let n1 := min (n - i) maxWrite
      let r ← writeChunk sb mem ip (addr + i) n1
      if r ≠ n1 then return i
      else filewriteLoop sb mem ip addr n fuel (i + n1)
    else return i

/-- Write to a file of inode `ip`. -/
def filewrite (sb : Superblock) (mem : Mem) (writable : Bool) (ip addr : Nat) (n : Int) :
    Prog State Int := do
  if ! writable then return -1
  else do
    let i ← filewriteLoop sb mem ip addr n.toNat n.toNat 0
    return if (i : Int) = n then n else -1

/-! ## Where the content is -/

/-- The block number of the `bn`th block of an inode; 0 if it has none. -/
def State.addrAt (s : State) (i bn : Nat) : Nat :=
  if h : bn < NDIRECT then (s.inode i).addrs ⟨bn, Nat.lt_succ_of_lt h⟩
  else if (s.inode i).addrs (Fin.last NDIRECT) = 0 then 0
  else (s.data ((s.inode i).addrs (Fin.last NDIRECT))).getLe (4 * (bn - NDIRECT)) 4

/-- Every block of the file is there. -/
def State.HoleFree (s : State) (i : Nat) : Prop :=
  ∀ bn, bn < MAXFILE → bn * BSIZE < (s.inode i).size → s.addrAt i bn ≠ 0

end Xv6.FileSystem
