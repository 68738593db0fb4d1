/-
fs.h: the on-disk format.
-/
import Xv6.Lib.Bytes
import Mathlib.Data.List.OfFn

namespace Xv6.Fs

def BSIZE : Nat := 1024

def NDIRECT : Nat := 12

def NINDIRECT : Nat := BSIZE / 4

def MAXFILE : Nat := NDIRECT + NINDIRECT

/-- Inodes per block; `sizeof(struct dinode)` is 64. -/
def IPB : Nat := BSIZE / 64

/-- Bitmap bits per block. -/
def BPB : Nat := BSIZE * 8

def DIRSIZ : Nat := 14

def FSMAGIC : Nat := 0x10203040

def ROOTINO : Nat := 1

def T_DIR : Nat := 1

def T_FILE : Nat := 2

structure Superblock where
  magic : Nat
  size : Nat
  nblocks : Nat
  ninodes : Nat
  nlog : Nat
  logstart : Nat
  inodestart : Nat
  bmapstart : Nat

/-- The bytes of the superblock. -/
def Superblock.bytes (sb : Superblock) : Bytes :=
  Bytes.zero.putUints 0
    [sb.magic, sb.size, sb.nblocks, sb.ninodes, sb.nlog, sb.logstart, sb.inodestart, sb.bmapstart]

/-- On-disk inode. -/
structure Dinode where
  type : Nat
  major : Nat
  minor : Nat
  nlink : Nat
  size : Nat
  addrs : Fin (NDIRECT + 1) → Nat

/-- The fields have the widths of the source. -/
structure Dinode.Fits (din : Dinode) : Prop where
  shorts : din.type < 2 ^ 16 ∧ din.major < 2 ^ 16 ∧ din.minor < 2 ^ 16 ∧ din.nlink < 2 ^ 16
  size : din.size < 2 ^ 32
  addrs : ∀ k, din.addrs k < 2 ^ 32

/-- The inode at `off` in a block. -/
def getDinode (d : Bytes) (off : Nat) : Dinode where
  type := d.getLe off 2
  major := d.getLe (off + 2) 2
  minor := d.getLe (off + 4) 2
  nlink := d.getLe (off + 6) 2
  size := d.getLe (off + 8) 4
  addrs k := d.getLe (off + 12 + 4 * k) 4

def putDinode (d : Bytes) (off : Nat) (din : Dinode) : Bytes :=
  ((((d.putLe off 2 din.type).putLe (off + 2) 2 din.major).putLe (off + 4) 2 din.minor).putLe
    (off + 6) 2 din.nlink).putUints (off + 8) (din.size :: List.ofFn din.addrs)

variable {d : Bytes} {off i : Nat} {din : Dinode}

theorem putDinode_of_lt (h : i < off) : putDinode d off din i = d i := by
  unfold putDinode
  rw [Bytes.putUints_of_lt (by omega), Bytes.putLe_of_lt (by omega), Bytes.putLe_of_lt (by omega),
    Bytes.putLe_of_lt (by omega), Bytes.putLe_of_lt h]

theorem putDinode_of_ge (h : off + 64 ≤ i) : putDinode d off din i = d i := by
  unfold putDinode
  rw [Bytes.putUints_of_ge, Bytes.putLe_of_ge (by omega), Bytes.putLe_of_ge (by omega),
    Bytes.putLe_of_ge (by omega), Bytes.putLe_of_ge (by omega)]
  have hlen : (List.ofFn din.addrs).length = 13 := List.length_ofFn
  rw [List.length_cons, hlen]
  omega

/-- An inode elsewhere in the block stays what it is. -/
theorem getDinode_congr {d' : Bytes} (h : ∀ i, off ≤ i → i < off + 64 → d i = d' i) :
    getDinode d off = getDinode d' off := by
  have hget : ∀ o n, off ≤ o → o + n ≤ off + 64 → d.getLe o n = d'.getLe o n := fun o n ho hn =>
    Bytes.getLe_congr fun i hi hi' => h i (by omega) (by omega)
  unfold getDinode
  rw [hget off 2 (by omega) (by omega), hget (off + 2) 2 (by omega) (by omega),
    hget (off + 4) 2 (by omega) (by omega), hget (off + 6) 2 (by omega) (by omega),
    hget (off + 8) 4 (by omega) (by omega)]
  have haddrs : (fun k : Fin (NDIRECT + 1) => d.getLe (off + 12 + 4 * k) 4) =
      fun k : Fin (NDIRECT + 1) => d'.getLe (off + 12 + 4 * k) 4 := funext fun k => by
    have hk : (k : Nat) < 13 := k.isLt
    exact hget _ 4 (by omega) (by omega)
  rw [haddrs]

/-- What is written to an inode is read back. -/
theorem getDinode_putDinode (h : din.Fits) : getDinode (putDinode d off din) off = din := by
  obtain ⟨⟨htype, hmajor, hminor, hnlink⟩, hsize, haddrs⟩ := h
  have hnum : ∀ j (hj : j < (din.size :: List.ofFn din.addrs).length),
      (putDinode d off din).getLe (off + 8 + 4 * j) 4 =
        (din.size :: List.ofFn din.addrs)[j] % 256 ^ 4 := fun j hj => Bytes.getLe_putUints hj
  have hlow : ∀ o n, o + n ≤ off + 8 → (putDinode d off din).getLe o n =
      ((((d.putLe off 2 din.type).putLe (off + 2) 2 din.major).putLe (off + 4) 2 din.minor).putLe
        (off + 6) 2 din.nlink).getLe o n := fun o n ho =>
    Bytes.getLe_congr fun i _ hi => Bytes.putUints_of_lt (by omega)
  cases din with
  | mk type major minor nlink size addrs =>
    unfold getDinode
    congr 1
    · rw [hlow _ _ (by omega), Bytes.getLe_putLe_of_disjoint (by omega),
        Bytes.getLe_putLe_of_disjoint (by omega), Bytes.getLe_putLe_of_disjoint (by omega),
        Bytes.getLe_putLe]
      exact Nat.mod_eq_of_lt htype
    · rw [hlow _ _ (by omega), Bytes.getLe_putLe_of_disjoint (by omega),
        Bytes.getLe_putLe_of_disjoint (by omega), Bytes.getLe_putLe]
      exact Nat.mod_eq_of_lt hmajor
    · rw [hlow _ _ (by omega), Bytes.getLe_putLe_of_disjoint (by omega), Bytes.getLe_putLe]
      exact Nat.mod_eq_of_lt hminor
    · rw [hlow _ _ (by omega), Bytes.getLe_putLe]
      exact Nat.mod_eq_of_lt hnlink
    · exact (hnum 0 (by simp)).trans (Nat.mod_eq_of_lt hsize)
    · funext k
      have hk := hnum (k + 1) (by
        rw [List.length_cons, List.length_ofFn]
        exact Nat.succ_lt_succ k.2)
      rw [show off + 8 + 4 * (k + 1) = off + 12 + 4 * (k : Nat) by omega] at hk
      rw [hk, List.getElem_cons_succ, List.getElem_ofFn]
      exact Nat.mod_eq_of_lt (haddrs k)

end Xv6.Fs
