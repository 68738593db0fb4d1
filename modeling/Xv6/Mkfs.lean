/-
mkfs.c: the program that builds the image of the disk.

The image is a file of sectors. `mkfs` dies when it reads behind the end of
the file, and so when it has given out more blocks than there are, because it
reads each new block at once. The numbers of inodes are as many as there are
files on the command line; nothing compares them with `NINODES`.

A file is what the calls of `read` return one after another. A name has no
null character.
-/
import Xv6.Fs.Format

namespace Xv6.Mkfs

open Fs

def FSSIZE : Nat := 2000

def NINODES : Nat := 200

def nbitmap : Nat := FSSIZE / (BSIZE * 8) + 1

def ninodeblocks : Nat := NINODES / IPB + 1

/-- `LOGSIZE` -/
def nlog : Nat := 30

/-- Boot block, superblock, log, inodes and bitmap. -/
def nmeta : Nat := 2 + nlog + ninodeblocks + nbitmap

def nblocks : Nat := FSSIZE - nmeta

def sb : Superblock where
  magic := FSMAGIC
  size := FSSIZE
  nblocks := nblocks
  ninodes := NINODES
  nlog := nlog
  logstart := 2
  inodestart := 2 + nlog
  bmapstart := 2 + nlog + ninodeblocks

/-- Block containing inode `i`. -/
def IBLOCK (i : Nat) : Nat := i / IPB + sb.inodestart

/-- The globals of `mkfs`, and the file that it writes. -/
structure State where
  image : Nat → Bytes
  /-- The file has this many sectors. -/
  length : Nat
  freeinode : Nat
  freeblock : Nat

/-- What a call of `read` returns. -/
abbrev Chunk : Type := { p : List UInt8 // 0 < p.length ∧ p.length ≤ BSIZE }

/-- A string, without its end. -/
abbrev CString : Type := { l : List UInt8 // 0 ∉ l }

/-- A file on the command line: what it contains, if it can be opened. -/
structure Arg where
  path : CString
  file : Option (List Chunk)

/-- `sec * BSIZE` is a `uint`. -/
def sector (sec : Nat) : Nat := sec * BSIZE % 2 ^ 32 / BSIZE

namespace State

def wsect (s : State) (sec : Nat) (buf : Bytes) : State :=
  { s with
    image := Function.update s.image (sector sec) buf
    length := max s.length (sector sec + 1) }

def rsect (s : State) (sec : Nat) : Except String Bytes :=
  if sector sec < s.length then .ok (s.image (sector sec)) else .error "read"

def winode (s : State) (inum : Nat) (din : Dinode) : Except String State := do
  let buf ← s.rsect (IBLOCK inum)
  return s.wsect (IBLOCK inum) (putDinode buf (inum % IPB * 64) din)

def rinode (s : State) (inum : Nat) : Except String Dinode := do
  let buf ← s.rsect (IBLOCK inum)
  return getDinode buf (inum % IPB * 64)

def ialloc (s : State) (type : Nat) : Except String (Nat × State) := do
  let inum := s.freeinode
  let s := { s with freeinode := s.freeinode + 1 }
  let s ← s.winode inum ⟨type, 0, 0, 1, 0, fun _ => 0⟩
  return (inum, s)

/-- `balloc`, which writes the bitmap. -/
def balloc (s : State) (used : Nat) : Except String State :=
  if used < BSIZE * 8 then
    .ok (s.wsect sb.bmapstart ((List.range used).foldl Bytes.setBit Bytes.zero))
  else .error "assert"

/-- `if(din.addrs[k] == 0) din.addrs[k] = freeblock++` -/
def newAddr (s : State) (din : Dinode) (k : Fin (NDIRECT + 1)) : Dinode × State :=
  if din.addrs k = 0 then
    ({ din with addrs := Function.update din.addrs k s.freeblock },
      { s with freeblock := s.freeblock + 1 })
  else (din, s)

/-- An entry of the indirect block, allocated if there is none. -/
def entryOf (s : State) (din : Dinode) (e : Nat) : Except String (Nat × Dinode × State) := do
  let indirect ← s.rsect (din.addrs (Fin.last NDIRECT))
  if indirect.getLe (4 * e) 4 = 0 then
    let indirect := indirect.putLe (4 * e) 4 s.freeblock
    let s := { s with freeblock := s.freeblock + 1 }
    let s := s.wsect (din.addrs (Fin.last NDIRECT)) indirect
    return (indirect.getLe (4 * e) 4, din, s)
  else return (indirect.getLe (4 * e) 4, din, s)

/-- The block of number `fbn` of a file, in `iappend`. -/
def blockOf (s : State) (din : Dinode) (fbn : Nat) : Except String (Nat × Dinode × State) :=
  if h : fbn < NDIRECT then
    let (din, s) := s.newAddr din ⟨fbn, Nat.lt_succ_of_lt h⟩
    .ok (din.addrs ⟨fbn, Nat.lt_succ_of_lt h⟩, din, s)
  else
    let (din, s) := s.newAddr din (Fin.last NDIRECT)
    s.entryOf din (fbn - NDIRECT)

/-- The loop of `iappend`. -/
def appendLoop (s : State) (din : Dinode) (off : Nat) (p : List UInt8) :
    Except String (Nat × Dinode × State) :=
  if _hp : p = [] then .ok (off, din, s)
  else
    let fbn := off / BSIZE
    if fbn < MAXFILE then do
      let (x, din, s) ← s.blockOf din fbn
      let n1 := min p.length ((fbn + 1) * BSIZE - off)
      let buf ← s.rsect x
      let s := s.wsect x (buf.copy (off - fbn * BSIZE) (p.take n1))
      appendLoop s din (off + n1) (p.drop n1)
    else .error "assert"
termination_by p.length
decreasing_by
  have hpos := List.length_pos_iff.2 _hp
  have hoff : off < (off / BSIZE + 1) * BSIZE := by
    unfold BSIZE
    omega
  rw [List.length_drop]
  omega

def iappend (s : State) (inum : Nat) (p : List UInt8) : Except String State := do
  let din ← s.rinode inum
  let (off, din, s) ← s.appendLoop din din.size p
  s.winode inum { din with size := off }

end State

/-- `strncpy` to a name of `DIRSIZ` characters. -/
def padName (name : List UInt8) : List UInt8 :=
  name.take DIRSIZ ++ List.replicate (DIRSIZ - name.length) 0

/-- A `struct dirent`. -/
def dirent (inum : Nat) (name : List UInt8) : List UInt8 :=
  UInt8.ofNat inum :: UInt8.ofNat (inum / 256) :: padName name

/-- `"user/"` -/
def userDir : List UInt8 := [117, 115, 101, 114, 47]

/-- The path without `user/`. -/
def stripDir (path : List UInt8) : List UInt8 :=
  if path.take 5 = userDir then path.drop 5 else path

/-- Skip the leading `_` of a name. -/
def stripMark (name : List UInt8) : List UInt8 :=
  if name.head? = some 95 then name.tail else name

def Arg.shortname (a : Arg) : List UInt8 := stripMark (stripDir a.path.1)

/-- A turn of the loop over the command line. -/
def addFile (rootino : Nat) (s : State) (a : Arg) : Except String State :=
  -- `index(shortname, '/') == 0`
  if 47 ∈ stripDir a.path.1 then .error "assert"
  else
    match a.file with
    | none => .error "open"
    | some chunks => do
      let (inum, s) ← s.ialloc T_FILE
      let s ← s.iappend rootino (dirent inum a.shortname)
      chunks.foldlM (fun s p => s.iappend inum p.1) s

/-- The image before the first inode. -/
def blank : State :=
  let s : State := ⟨fun _ => Bytes.zero, 0, 1, nmeta⟩
  let s := (List.range FSSIZE).foldl (fun s i => s.wsect i Bytes.zero) s
  s.wsect 1 sb.bytes

/-- What `main` does at the end. -/
def finish (rootino : Nat) (s : State) : Except String State := do
  -- fix size of root inode dir
  let din ← s.rinode rootino
  let off := (din.size / BSIZE + 1) * BSIZE
  let s ← s.winode rootino { din with size := off }
  s.balloc s.freeblock

/-- `main`, which fails where `mkfs` does not exit with status 0. -/
def main (args : List Arg) : Except String State := do
  let (rootino, s) ← blank.ialloc T_DIR
  if rootino ≠ ROOTINO then .error "assert"
  else
    let s ← s.iappend rootino (dirent rootino [46])
    let s ← s.iappend rootino (dirent rootino [46, 46])
    let s ← args.foldlM (addFile rootino) s
    finish rootino s

end Xv6.Mkfs
