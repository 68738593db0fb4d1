/-
fs.c: reading a file.

The buffers are those of a process that has the inode locked, so that the
blocks are `d`. The bytes go to where `dst` says, which is a valid address.
-/
import Xv6.Fs.Format

namespace Xv6.Fs

/-- Zero the block with this number, which is free, and mark it in use. -/
def bzeroMarked (sb : Superblock) (d : Nat → Bytes) (b bi : Nat) : Nat → Bytes :=
  let bblock := b / BPB + sb.bmapstart
  Function.update (Function.update d bblock ((d bblock).setBit bi)) (b + bi) Bytes.zero

/-- The loop of `balloc`, with `n` more blocks of the bitmap. -/
def ballocLoop (sb : Superblock) (d : Nat → Bytes) : (n b : Nat) → Nat × (Nat → Bytes)
  | 0, _ => (0, d)
  | n + 1, b =>
    let free := (List.range (min BPB (sb.size - b))).find? fun bi =>
      ! (d (b / BPB + sb.bmapstart)).getBit bi
    match free with
    | some bi => (b + bi, bzeroMarked sb d b bi)
    | none => ballocLoop sb d n (b + BPB)

/-- Allocate a zeroed disk block; 0 if out of disk space. -/
def balloc (sb : Superblock) (d : Nat → Bytes) : Nat × (Nat → Bytes) :=
  ballocLoop sb d ((sb.size + BPB - 1) / BPB) 0

/-- The block number in `ip->addrs[k]`, allocated if there is none. -/
def bmapAddr (sb : Superblock) (d : Nat → Bytes) (ip : Dinode) (k : Fin (NDIRECT + 1)) :
    Nat × (Nat → Bytes) × Dinode :=
  if ip.addrs k = 0 then
    let (addr, d) := balloc sb d
    if addr = 0 then (0, d, ip) else (addr, d, { ip with addrs := Function.update ip.addrs k addr })
  else (ip.addrs k, d, ip)

/-- The disk block address of the `bn`th block of an inode, allocated if there
is none; 0 if out of disk space, and `none` for a panic. -/
def bmap (sb : Superblock) (d : Nat → Bytes) (ip : Dinode) (bn : Nat) :
    Option (Nat × (Nat → Bytes) × Dinode) :=
  if h : bn < NDIRECT then some (bmapAddr sb d ip ⟨bn, Nat.lt_succ_of_lt h⟩)
  else if bn - NDIRECT < NINDIRECT then
    -- Load indirect block, allocating if necessary.
    let (ind, d, ip) := bmapAddr sb d ip (Fin.last NDIRECT)
    if ind = 0 then some (0, d, ip)
    else if (d ind).getLe (4 * (bn - NDIRECT)) 4 = 0 then
      let (addr, d) := balloc sb d
      if addr = 0 then some (0, d, ip)
      else some (addr, Function.update d ind ((d ind).putLe (4 * (bn - NDIRECT)) 4 addr), ip)
    else some ((d ind).getLe (4 * (bn - NDIRECT)) 4, d, ip)
  else none

/-- The loop of `readi`, with `r` more bytes to read. -/
def readLoop (sb : Superblock) (d : Nat → Bytes) (ip : Dinode) (off r : Nat) :
    Option (List UInt8 × (Nat → Bytes) × Dinode) :=
  if _hr : r = 0 then some ([], d, ip)
  else
    match bmap sb d ip (off / BSIZE) with
    | none => none
    | some (addr, d, ip) =>
      if addr = 0 then some ([], d, ip)
      else
        let m := min r (BSIZE - off % BSIZE)
        let data := (List.range m).map fun j => d addr (off % BSIZE + j)
        (readLoop sb d ip (off + m) (r - m)).map fun (out, rest) => (data ++ out, rest)
termination_by r
decreasing_by
  unfold BSIZE
  omega

/-- Read data from an inode: the bytes, and the blocks and the inode after it.
`off + n` is a `uint`. -/
def readi (sb : Superblock) (d : Nat → Bytes) (ip : Dinode) (off n : Nat) :
    Option (List UInt8 × (Nat → Bytes) × Dinode) :=
  if ip.size < off ∨ (off + n) % 2 ^ 32 < off then some ([], d, ip)
  else if ip.size < (off + n) % 2 ^ 32 then readLoop sb d ip off (ip.size - off)
  else readLoop sb d ip off n

end Xv6.Fs
