/-
fs.c: directories.

A directory is a file of entries, 16 bytes each; one with inode number 0 is
empty. `dirlookup` returns the inode number that it passes to `iget`, with the
offset of the entry.
-/
import Xv6.FileRoom
import Xv6.Lib.SlotTable
import Xv6.PathNames

namespace Xv6.FileSystem

open Conc Prog Fs

/-! ## string.c -/

def strncpy : (n : Nat) → (t : List UInt8) → List UInt8
  | 0, _ => []
  | n + 1, t => t.headD 0 :: if t.headD 0 ≠ 0 then strncpy n t.tail else List.replicate n 0

/-! ## Entries -/

/-- `struct dirent` -/
structure Dirent where
  inum : Nat
  name : List UInt8

/-- `sizeof(struct dirent)` -/
def DESIZE : Nat := 16

namespace Dirent

/-- The bytes of an entry; `inum` is a `ushort`. -/
def bytes (de : Dirent) : List UInt8 :=
  UInt8.ofNat de.inum :: UInt8.ofNat (de.inum / 256) :: de.name

def ofBytes (b : List UInt8) : Dirent where
  inum := (b.getD 0 0).toNat + 256 * (b.getD 1 0).toNat
  name := (b.drop 2).take DIRSIZ

/-- The name and the inode number of an entry that is not empty. -/
def slot (de : Dirent) : Option (List UInt8 × Nat) :=
  if de.inum = 0 then none else some (nameOf de.name, de.inum)

end Dirent

/-- The variable `de` of a function, as `readi` and `writei` see it. -/
def memOf (b : List UInt8) : Mem := fun a => b[a]?

/-- The loop of `dirlookup`. -/
def dirlookupLoop (sb : Superblock) (dp : Nat) (name : List UInt8) :
    (fuel off : Nat) → Prog State (Option (Nat × Nat))
  | 0, _ => return none
  | fuel + 1, off => do
    let ip ← read fun s => s.inode dp
    if off < ip.size then do
      let (r, b) ← readi sb (fun _ => true) dp 0 off DESIZE
      if r ≠ DESIZE then fail "dirlookup read"
      else
        let de := Dirent.ofBytes b
        if de.inum = 0 then dirlookupLoop sb dp name fuel (off + DESIZE)
        else if namecmp name de.name = 0 then return some (de.inum, off)
        else dirlookupLoop sb dp name fuel (off + DESIZE)
    else return none

/-- Look for a directory entry in a directory: its inode number and offset. -/
def dirlookup (sb : Superblock) (dp : Nat) (name : List UInt8) :
    Prog State (Option (Nat × Nat)) := do
  let ip ← read fun s => s.inode dp
  if ip.type ≠ T_DIR then fail "dirlookup not DIR"
  else dirlookupLoop sb dp name ip.size 0

/-- The loop of `dirlink`: the offset of an empty entry, or of the end. -/
def emptyLoop (sb : Superblock) (dp : Nat) : (fuel off : Nat) → Prog State Nat
  | 0, off => return off
  | fuel + 1, off => do
    let ip ← read fun s => s.inode dp
    if off < ip.size then do
      let (r, b) ← readi sb (fun _ => true) dp 0 off DESIZE
      if r ≠ DESIZE then fail "dirlink read"
      else if (Dirent.ofBytes b).inum = 0 then return off
      else emptyLoop sb dp fuel (off + DESIZE)
    else return off

/-- Write a new directory entry into the directory `dp`. -/
def dirlink (sb : Superblock) (dp : Nat) (name : List UInt8) (inum : Nat) : Prog State Int := do
  -- Check that name is not present.
  match ← dirlookup sb dp name with
  | some _ => return -1
  | none => do
    let ip ← read fun s => s.inode dp
    let off ← emptyLoop sb dp ip.size 0
    let r ← writei sb (memOf (Dirent.bytes ⟨inum, strncpy DIRSIZ name⟩)) dp 0 off DESIZE
    if r ≠ DESIZE then return -1 else return 0

/-- `sys_unlink`, as far as it works on the directory; `removable` says of the
inode found whether it may go (it is no directory, or an empty one). -/
def unlink (sb : Superblock) (removable : Nat → Bool) (dp : Nat) (name : List UInt8) :
    Prog State Int := do
  -- Cannot unlink "." or "..".
  if namecmp name [0x2e] = 0 ∨ namecmp name [0x2e, 0x2e] = 0 then return -1
  else do
    match ← dirlookup sb dp name with
    | none => return -1
    | some (inum, off) =>
      if ! removable inum then return -1
      else do
        let r ← writei sb (memOf (List.replicate DESIZE 0)) dp 0 off DESIZE
        if r ≠ DESIZE then fail "unlink: writei" else return 0

/-! ## Names and entries -/

variable {sb : Superblock} {I : Set Nat} {s s' : State} {dp k j n inum : Nat}
  {name b x : List UInt8}

theorem length_strncpy (n : Nat) (t : List UInt8) : (strncpy n t).length = n := by
  induction n generalizing t with
  | zero => rfl
  | succ n ih =>
    rw [strncpy]
    split
    · simp [ih]
    · simp

theorem takeWhile_strncpy (n : Nat) (t : List UInt8) :
    (strncpy n t).takeWhile (· ≠ 0) = (t.take n).takeWhile (· ≠ 0) := by
  induction n generalizing t with
  | zero => simp [strncpy]
  | succ n ih =>
    rw [strncpy]
    cases t with
    | nil => simp
    | cons a t =>
      by_cases ha : a = 0
      · simp [ha]
      · simpa [ha] using ih t

/-- The padded copy holds the name, also one that fills it. -/
theorem nameOf_strncpy (name : List UInt8) : nameOf (strncpy DIRSIZ name) = nameOf name := by
  have htake : (strncpy DIRSIZ name).take DIRSIZ = strncpy DIRSIZ name :=
    List.take_of_length_le (by rw [length_strncpy])
  unfold nameOf
  rw [htake, takeWhile_strncpy]

/-- A name with no NUL in its first `DIRSIZ` bytes is these bytes. -/
theorem nameOf_full (h : (0 : UInt8) ∉ name.take DIRSIZ) : nameOf name = name.take DIRSIZ := by
  unfold nameOf
  refine List.takeWhile_eq_self_iff.2 fun a ha => ?_
  simpa using fun h0 : a = 0 => h (h0 ▸ ha)

theorem length_bytes_strncpy (inum : Nat) (name : List UInt8) :
    (Dirent.bytes ⟨inum, strncpy DIRSIZ name⟩).length = DESIZE := by
  simp [Dirent.bytes, length_strncpy, DESIZE, DIRSIZ]

/-- What is written is read again. -/
theorem ofBytes_bytes (hinum : inum < 2 ^ 16) (hlen : b.length = DIRSIZ) :
    Dirent.ofBytes (Dirent.bytes ⟨inum, b⟩) = ⟨inum, b⟩ := by
  have hlow : (UInt8.ofNat inum).toNat + 256 * (UInt8.ofNat (inum / 256)).toNat = inum := by
    rw [UInt8.toNat_ofNat', UInt8.toNat_ofNat']
    omega
  have hname : ((UInt8.ofNat inum :: UInt8.ofNat (inum / 256) :: b).drop 2).take DIRSIZ = b := by
    simp [← hlen]
  show Dirent.mk ((UInt8.ofNat inum).toNat + 256 * (UInt8.ofNat (inum / 256)).toNat) _ = _
  rw [hlow]
  exact congrArg _ hname

theorem slot_bytes (h0 : 0 < inum) (hinum : inum < 2 ^ 16) (name : List UInt8) :
    (Dirent.ofBytes (Dirent.bytes ⟨inum, strncpy DIRSIZ name⟩)).slot =
      some (nameOf name, inum) := by
  rw [ofBytes_bytes hinum (length_strncpy ..)]
  unfold Dirent.slot
  rw [if_neg (Nat.ne_of_gt h0), nameOf_strncpy]

theorem slot_zero : (Dirent.ofBytes (List.replicate DESIZE 0)).slot = none := by decide

/-! ## The slots of a directory -/

/-- The entries of a directory with these bytes. -/
def slots (b : List UInt8) : List (Option (List UInt8 × Nat)) :=
  (List.range (b.length / DESIZE)).map fun k =>
    (Dirent.ofBytes ((b.drop (k * DESIZE)).take DESIZE)).slot

theorem length_slots (b : List UInt8) : (slots b).length = b.length / DESIZE := by
  simp [slots]

theorem slots_getElem? (b : List UInt8) (k : Nat) :
    (slots b)[k]? = if k < b.length / DESIZE then
      some (Dirent.ofBytes ((b.drop (k * DESIZE)).take DESIZE)).slot else none := by
  unfold slots
  rw [List.getElem?_map]
  by_cases hk : k < b.length / DESIZE
  · rw [if_pos hk, List.getElem?_range hk]
    rfl
  · rw [if_neg hk, List.getElem?_eq_none (by simpa using hk)]
    rfl

/-- Writing an entry changes its slot, or adds one, and leaves the others. -/
theorem slots_splice (hb : b.length % DESIZE = 0) (hj : j * DESIZE ≤ b.length)
    (hx : x.length = DESIZE) :
    SlotTable.Put (slots b) j (Dirent.ofBytes x).slot (slots (splice b (j * DESIZE) x)) ∧
      (splice b (j * DESIZE) x).length % DESIZE = 0 := by
  have hlen : (splice b (j * DESIZE) x).length = max b.length (j * DESIZE + DESIZE) := by
    unfold splice
    simp only [List.length_append, List.length_take, List.length_drop, hx]
    omega
  -- the slots there are afterwards
  have hcount : ∀ k, k < (max b.length (j * DESIZE + DESIZE)) / DESIZE ↔
      k = j ∨ k < b.length / DESIZE := by
    intro k
    unfold DESIZE at *
    omega
  have hother : ∀ k o, k ≠ j → o < DESIZE →
      ¬ (j * DESIZE ≤ k * DESIZE + o ∧ k * DESIZE + o < j * DESIZE + DESIZE) := by
    intro k o hkj ho
    unfold DESIZE at *
    omega
  have hget := splice_getElem? b x hj
  rw [hx] at hget
  refine ⟨fun k => ?_, by unfold DESIZE at *; omega⟩
  rw [slots_getElem?, slots_getElem?, hlen]
  by_cases hkj : k = j
  · subst hkj
    rw [if_pos ((hcount k).2 (.inl rfl)), if_pos rfl]
    have htake : ((splice b (k * DESIZE) x).drop (k * DESIZE)).take DESIZE = x := by
      refine List.ext_getElem? fun o => ?_
      rw [List.getElem?_take, List.getElem?_drop, hget]
      by_cases ho : o < DESIZE
      · rw [if_pos ho, if_pos (by omega), Nat.add_sub_cancel_left]
      · rw [if_neg ho, List.getElem?_eq_none (by omega)]
    rw [htake]
  · rw [if_neg hkj]
    by_cases hk : k < b.length / DESIZE
    · rw [if_pos ((hcount k).2 (.inr hk)), if_pos hk]
      have htake : ((splice b (j * DESIZE) x).drop (k * DESIZE)).take DESIZE =
          (b.drop (k * DESIZE)).take DESIZE := by
        refine List.ext_getElem? fun o => ?_
        rw [List.getElem?_take, List.getElem?_take, List.getElem?_drop, List.getElem?_drop, hget]
        by_cases ho : o < DESIZE
        · rw [if_pos ho, if_pos ho, if_neg (hother k o hkj ho)]
        · rw [if_neg ho, if_neg ho]
      rw [htake]
    · rw [if_neg fun hc => ((hcount k).1 hc).elim hkj hk, if_neg hk]

/-! ## The directory on the disk -/

/-- A directory of whole entries that is the map `m`. -/
structure Dir (sb : Superblock) (I : Set Nat) (dp : Nat) (s : State)
    (m : List UInt8 → Option Nat) : Prop where
  wellFormed : WellFormed sb I s
  type : (s.inode dp).type = T_DIR
  whole : (s.inode dp).size % DESIZE = 0
  map : SlotTable.Represents (slots (s.bytes dp)) m

/-- A turn of a loop over the entries reads the entry. -/
theorem readi_entry (h : WellFormed sb I s) (hdp : dp ∈ I)
    (hk : k < (s.inode dp).size / DESIZE) :
    (readi sb (fun _ => true) dp 0 (k * DESIZE) DESIZE).run s =
      .ok ((DESIZE : Int), ((s.bytes dp).drop (k * DESIZE)).take DESIZE) s := by
  have hM : MAXFILE * BSIZE = 274432 := rfl
  have hsize := h.size hdp
  have hin : k * DESIZE + DESIZE ≤ (s.inode dp).size ∧ DESIZE < 2 ^ 32 := by
    unfold DESIZE at *
    omega
  have hlen : (((s.bytes dp).drop (k * DESIZE)).take DESIZE).length = DESIZE := by
    simp only [List.length_take, List.length_drop, length_bytes]
    omega
  rw [readi_run h hdp (by omega) hin.2 fun _ _ => rfl, if_pos (by omega), hlen]

theorem slots_bytes_getElem? (s : State) (dp k : Nat) :
    (slots (s.bytes dp))[k]? = if k < (s.inode dp).size / DESIZE then
      some (Dirent.ofBytes (((s.bytes dp).drop (k * DESIZE)).take DESIZE)).slot else none := by
  rw [slots_getElem?, length_bytes]

/-- Entries in use have the name and the number of their slot. -/
theorem slot_some {de : Dirent} (h0 : de.inum ≠ 0) : de.slot = some (nameOf de.name, de.inum) :=
  if_neg h0

theorem slot_none {de : Dirent} : de.slot = none ↔ de.inum = 0 := by
  unfold Dirent.slot
  split
  next h0 => simp [h0]
  next h0 => simp [h0]

theorem dirlookupLoop_run (h : WellFormed sb I s) (hdp : dp ∈ I) (name : List UInt8)
    (hwhole : (s.inode dp).size % DESIZE = 0) {fuel : Nat}
    (hfuel : (s.inode dp).size ≤ k * DESIZE + fuel) (hle : k * DESIZE ≤ (s.inode dp).size) :
    (∃ j inum, (dirlookupLoop sb dp name fuel (k * DESIZE)).run s = .ok (some (inum, j * DESIZE)) s ∧
      (slots (s.bytes dp))[j]? = some (some (nameOf name, inum))) ∨
    ((dirlookupLoop sb dp name fuel (k * DESIZE)).run s = .ok none s ∧
      ∀ j inum, k ≤ j → (slots (s.bytes dp))[j]? ≠ some (some (nameOf name, inum))) := by
  have hcount : ∀ k, k * DESIZE < (s.inode dp).size ↔ k < (s.inode dp).size / DESIZE := by
    intro k
    unfold DESIZE at *
    omega
  have hend : ∀ {k}, ¬ k * DESIZE < (s.inode dp).size → ∀ j inum, k ≤ j →
      (slots (s.bytes dp))[j]? ≠ some (some (nameOf name, inum)) := by
    intro k hk j inum hkj hj
    rw [slots_bytes_getElem?, if_neg] at hj
    · cases hj
    · intro hlt
      exact hk ((hcount k).2 (by omega))
  induction fuel generalizing k with
  | zero => exact .inr ⟨rfl, hend (by omega)⟩
  | succ fuel ih =>
    unfold dirlookupLoop
    rw [run_bind, run_read]
    by_cases hlt : k * DESIZE < (s.inode dp).size
    · have hk := (hcount k).1 hlt
      have hslot := slots_bytes_getElem? s dp k
      rw [if_pos hk] at hslot
      obtain ⟨de, hde⟩ : ∃ de, de = Dirent.ofBytes (((s.bytes dp).drop (k * DESIZE)).take DESIZE) :=
        ⟨_, rfl⟩
      rw [← hde] at hslot
      have hnext := ih (k := k + 1) (by unfold DESIZE at *; omega) (by unfold DESIZE at *; omega)
      rw [Nat.succ_mul] at hnext
      -- a slot that is not the one looked for
      have hskip : (∀ inum, de.slot ≠ some (nameOf name, inum)) →
          (∀ j inum, k + 1 ≤ j → (slots (s.bytes dp))[j]? ≠ some (some (nameOf name, inum))) →
          ∀ j inum, k ≤ j → (slots (s.bytes dp))[j]? ≠ some (some (nameOf name, inum)) := by
        intro hno hrest j inum hkj
        by_cases hj : j = k
        · rw [hj, hslot]
          intro he
          exact hno inum (Option.some.inj he)
        · exact hrest j inum (by omega)
      simp only [if_pos hlt, run_bind, readi_entry h hdp hk, ne_eq, not_true_eq_false, if_false,
        ← hde]
      by_cases h0 : de.inum = 0
      · rw [if_pos h0]
        rcases hnext with hfound | ⟨hrun, hrest⟩
        · exact .inl hfound
        · refine .inr ⟨hrun, hskip (fun inum he => ?_) hrest⟩
          rw [slot_none.2 h0] at he
          cases he
      · rw [if_neg h0]
        by_cases hcmp : namecmp name de.name = 0
        · rw [if_pos hcmp]
          refine .inl ⟨k, de.inum, rfl, ?_⟩
          rw [hslot, slot_some h0, namecmp_eq_zero.1 hcmp]
        · rw [if_neg hcmp]
          rcases hnext with hfound | ⟨hrun, hrest⟩
          · exact .inl hfound
          · refine .inr ⟨hrun, hskip (fun inum he => ?_) hrest⟩
            rw [slot_some h0] at he
            exact hcmp (namecmp_eq_zero.2 (Prod.mk.inj (Option.some.inj he)).1.symm)
    · simp only [if_neg hlt]
      exact .inr ⟨rfl, hend hlt⟩

/-- `dirlookup` finds the entry with the name, if there is one. -/
theorem dirlookup_run {m : List UInt8 → Option Nat} (hdp : dp ∈ I) (h : Dir sb I dp s m)
    (name : List UInt8) :
    (∃ j inum, (dirlookup sb dp name).run s = .ok (some (inum, j * DESIZE)) s ∧
      (slots (s.bytes dp))[j]? = some (some (nameOf name, inum)) ∧
      m (nameOf name) = some inum) ∨
    ((dirlookup sb dp name).run s = .ok none s ∧ m (nameOf name) = none) := by
  have hrun : (dirlookup sb dp name).run s =
      (dirlookupLoop sb dp name (s.inode dp).size (0 * DESIZE)).run s := by
    unfold dirlookup
    simp only [run_bind, run_read, h.type, ne_eq, not_true_eq_false, if_false, Nat.zero_mul]
  rw [hrun]
  rcases dirlookupLoop_run h.wellFormed hdp name h.whole
    (by omega : (s.inode dp).size ≤ 0 * DESIZE + (s.inode dp).size) (by omega) with
    ⟨j, inum, hok, hj⟩ | ⟨hok, hno⟩
  · exact .inl ⟨j, inum, hok, hj, h.map.value hj⟩
  · refine .inr ⟨hok, ?_⟩
    cases hm : m (nameOf name) with
    | none => rfl
    | some inum =>
      obtain ⟨j, hj⟩ := h.map.live.1 hm
      exact absurd hj (hno j inum (Nat.zero_le j))

/-- The first empty slot from `k` on; past the last one when there is none. -/
theorem emptyLoop_run (h : WellFormed sb I s) (hdp : dp ∈ I)
    (hwhole : (s.inode dp).size % DESIZE = 0) {fuel : Nat}
    (hfuel : (s.inode dp).size ≤ k * DESIZE + fuel) (hle : k * DESIZE ≤ (s.inode dp).size)
    (hbefore : ∀ j : Nat, j < k → (slots (s.bytes dp))[j]? ≠ some none) :
    ∃ j, (emptyLoop sb dp fuel (k * DESIZE)).run s = .ok (j * DESIZE) s ∧
      ((slots (s.bytes dp))[j]? = some none ∨
        (j * DESIZE = (s.inode dp).size ∧ ∀ k : Nat, (slots (s.bytes dp))[k]? ≠ some none)) := by
  have hcount : ∀ k, k * DESIZE < (s.inode dp).size ↔ k < (s.inode dp).size / DESIZE := by
    intro k
    unfold DESIZE at *
    omega
  have hend : ∀ {k}, k * DESIZE ≤ (s.inode dp).size → ¬ k * DESIZE < (s.inode dp).size →
      (∀ j : Nat, j < k → (slots (s.bytes dp))[j]? ≠ some none) → k * DESIZE = (s.inode dp).size ∧
        ∀ j : Nat, (slots (s.bytes dp))[j]? ≠ some none := by
    intro k hle hlt hbefore
    refine ⟨by omega, fun j hj => ?_⟩
    have hjk : j < k := by
      by_contra hjk
      rw [slots_bytes_getElem?, if_neg] at hj
      · cases hj
      · intro hj'
        exact hlt ((hcount k).2 (by omega))
    exact hbefore j hjk hj
  induction fuel generalizing k with
  | zero => exact ⟨k, rfl, .inr (hend hle (by omega) hbefore)⟩
  | succ fuel ih =>
    unfold emptyLoop
    rw [run_bind, run_read]
    by_cases hlt : k * DESIZE < (s.inode dp).size
    · have hk := (hcount k).1 hlt
      have hslot := slots_bytes_getElem? s dp k
      rw [if_pos hk] at hslot
      obtain ⟨de, hde⟩ : ∃ de, de = Dirent.ofBytes (((s.bytes dp).drop (k * DESIZE)).take DESIZE) :=
        ⟨_, rfl⟩
      rw [← hde] at hslot
      simp only [if_pos hlt, run_bind, readi_entry h hdp hk, ne_eq, not_true_eq_false, if_false,
        ← hde]
      by_cases h0 : de.inum = 0
      · rw [if_pos h0]
        refine ⟨k, rfl, .inl ?_⟩
        rw [hslot, slot_none.2 h0]
      · rw [if_neg h0]
        have hnext := ih (k := k + 1) (by unfold DESIZE at *; omega) (by unfold DESIZE at *; omega)
          fun j hj => by
            by_cases hjk : j = k
            · rw [hjk, hslot]
              intro he
              exact h0 (slot_none.1 (Option.some.inj he))
            · exact hbefore j (by omega)
        rw [Nat.succ_mul] at hnext
        exact hnext
    · simp only [if_neg hlt]
      exact ⟨k, rfl, .inr (hend hle hlt hbefore)⟩

/-! ## Writing an entry -/

/-- The directory has no empty entry, and cannot grow: it is as long as a file
can be, or `bmap` needs more blocks than are free. -/
def CannotGrow (sb : Superblock) (s : State) (dp : Nat) : Prop :=
  (∀ k : Nat, (slots (s.bytes dp))[k]? ≠ some none) ∧
    (MAXFILE * BSIZE < (s.inode dp).size + DESIZE ∨
      (s.freeBlocks sb).card < s.needs dp ((s.inode dp).size / BSIZE))

theorem memOf_getD {g : List UInt8} (hg : g.length = DESIZE) :
    (∀ j, j < DESIZE → memOf g (0 + j) = some (g.getD j 0)) ∧
      (List.range DESIZE).map (fun j => g.getD j 0) = g := by
  refine ⟨fun j hj => ?_, List.ext_getElem? fun j => ?_⟩
  · unfold memOf
    rw [Nat.zero_add, List.getD_eq_getElem?_getD, List.getElem?_eq_getElem (by omega)]
    rfl
  · rw [List.getElem?_map]
    by_cases hj : j < DESIZE
    · rw [List.getElem?_range hj, Option.map_some, List.getD_eq_getElem?_getD,
        List.getElem?_eq_getElem (by omega)]
      rfl
    · rw [List.getElem?_eq_none (by simpa using hj), List.getElem?_eq_none (by omega)]
      rfl

/-- An entry is written in full, or not at all for want of a block. -/
theorem writei_entry {m : List UInt8 → Option Nat} (L : Layout sb I) (hdp : dp ∈ I)
    (h : Dir sb I dp s m) (hx : x.length = DESIZE) (hj : j * DESIZE ≤ (s.inode dp).size)
    (hmax : j * DESIZE + DESIZE ≤ MAXFILE * BSIZE) :
    ∃ (r : Nat) (s' : State), (writei sb (memOf x) dp 0 (j * DESIZE) DESIZE).run s =
        .ok (r : Int) s' ∧ WellFormed sb I s' ∧ (s'.inode dp).type = T_DIR ∧
      (((s.freeBlocks sb).card < s.needs dp (j * DESIZE / BSIZE) ∧ r = 0 ∧
          s'.bytes dp = s.bytes dp) ∨
        (¬ (s.freeBlocks sb).card < s.needs dp (j * DESIZE / BSIZE) ∧ r = DESIZE ∧
          s'.bytes dp = splice (s.bytes dp) (j * DESIZE) x)) := by
  obtain ⟨hmem, hmap⟩ := memOf_getD hx
  have hok : s.Accepts dp (j * DESIZE) DESIZE := ⟨hj, hmax⟩
  obtain ⟨r, s', hrun, -, -, hwf, hbytes, -⟩ := writei_run L h.wellFormed hdp hok hmem
  have hr := writei_block L h.wellFormed hdp hok hmem (by decide)
    (by unfold DESIZE BSIZE; omega) hrun
  refine ⟨r, s', hrun, hwf, (writei_types _ _ _ _ _ _ s r s' hrun dp).trans h.type, ?_⟩
  split at hr
  next hfull =>
    refine .inl ⟨hfull, hr, ?_⟩
    rw [hbytes, hr]
    unfold splice
    simp
  next hroom =>
    refine .inr ⟨hroom, hr, ?_⟩
    rw [hbytes, hr, hmap]

end Xv6.FileSystem
