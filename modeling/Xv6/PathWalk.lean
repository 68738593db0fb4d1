/-
fs.c: `namex`, by a process that runs alone.

`free` is the number of entries of the inode table that have no reference; all
else is by inode number, as `iget` finds an inode by its number and every inode
is on `ROOTDEV`. The content of a directory is its entries.
-/
import Xv6.Lib.Prog
import Xv6.PathNames
import Mathlib.Data.Finset.Card
import Mathlib.Data.Multiset.Count

namespace Xv6.PathWalk

open Conc Prog Fs

structure Dirent where
  inum : Nat
  name : List UInt8

structure State where
  type : Nat → Nat
  nlink : Nat → Nat
  dir : Nat → List Dirent
  ref : Nat → Nat
  valid : Nat → Bool
  locked : Nat → Bool
  free : Nat

/-! ## Inodes -/

/-- Get a reference to an inode. -/
def iget (inum : Nat) : Prog State Nat := atom fun s =>
  if 0 < s.ref inum then
    .ok inum { s with ref := Function.update s.ref inum (s.ref inum + 1) }
  else if s.free = 0 then .panic "iget: no inodes"
  else .ok inum { s with
    ref := Function.update s.ref inum 1
    valid := Function.update s.valid inum false
    free := s.free - 1 }

def idup (ip : Nat) : Prog State Nat := atom fun s =>
  .ok ip { s with ref := Function.update s.ref ip (s.ref ip + 1) }

def acquiresleep (ip : Nat) : Prog State Unit := atom fun s =>
  if s.locked ip then .wait else .ok () { s with locked := Function.update s.locked ip true }

def releasesleep (ip : Nat) : Prog State Unit := modify fun s =>
  { s with locked := Function.update s.locked ip false }

/-- Lock an inode, and read it from disk if necessary. -/
def ilock (ip : Nat) : Prog State Unit := do
  if (← read fun s => s.ref ip) < 1 then fail "ilock"
  else do
    acquiresleep ip
    if (← read fun s => s.valid ip) then return ()
    else do
      modify fun s => { s with valid := Function.update s.valid ip true }
      if (← read fun s => s.type ip) = 0 then fail "ilock: no type"
      else return ()

def iunlock (ip : Nat) : Prog State Unit := do
  if (← read fun s => !s.locked ip || s.ref ip < 1) then fail "iunlock"
  else releasesleep ip

/-- Free the content of an inode that is not in a directory anymore, and the
inode. -/
def freeInode (ip : Nat) : Prog State Unit := do
  acquiresleep ip
  modify fun s => { s with dir := Function.update s.dir ip [] }
  modify fun s => { s with type := Function.update s.type ip 0 }
  modify fun s => { s with valid := Function.update s.valid ip false }
  releasesleep ip

/-- Give up a reference; the last one of an inode without links frees it. -/
def iput (ip : Nat) : Prog State Unit := do
  if (← read fun s => s.ref ip = 1 && s.valid ip && s.nlink ip = 0) then freeInode ip
  modify fun s => { s with
    ref := Function.update s.ref ip (s.ref ip - 1)
    free := if s.ref ip = 1 then s.free + 1 else s.free }

def iunlockput (ip : Nat) : Prog State Unit := do
  iunlock ip
  iput ip

/-! ## Paths -/

/-- The loop of `dirlookup`, with the entries it has not seen. -/
def dirlookupLoop (name : List UInt8) : List Dirent → Prog State (Option Nat)
  | [] => return none
  | de :: des =>
    if de.inum = 0 then dirlookupLoop name des
    else if namecmp name de.name = 0 then do
      let ip ← iget de.inum
      return some ip
    else dirlookupLoop name des

/-- Look for a directory entry in a directory. -/
def dirlookup (dp : Nat) (name : List UInt8) : Prog State (Option Nat) := do
  if (← read fun s => s.type dp) ≠ T_DIR then fail "dirlookup not DIR"
  else do
    let des ← read fun s => s.dir dp
    dirlookupLoop name des

/-- The loop of `namex`: the inode it returns, if any, and `name`. -/
def namexLoop (nameiparent : Bool) (path name : List UInt8) (ip : Nat) :
    Prog State (Option Nat × List UInt8) :=
  match _h : skipelem path name with
  | some (path', name') => do
    ilock ip
    if (← read fun s => s.type ip) ≠ T_DIR then do
      iunlockput ip
      return (none, name')
    else if nameiparent ∧ path' = [] then do
      -- Stop one level early.
      iunlock ip
      return (some ip, name')
    else do
      match ← dirlookup ip name' with
      | none => do
        iunlockput ip
        return (none, name')
      | some next => do
        iunlockput ip
        namexLoop nameiparent path' name' next
  | none =>
    if nameiparent then do
      iput ip
      return (none, name)
    else return (some ip, name)
termination_by path.length
decreasing_by exact skipelem_shorter _h

/-- Look up the inode for a path name, or with `nameiparent` that of its parent. -/
def namex (cwd : Nat) (nameiparent : Bool) (path name : List UInt8) :
    Prog State (Option Nat × List UInt8) := do
  let ip ← if path.head? = some slash then iget ROOTINO else idup cwd
  namexLoop nameiparent path name ip

def namei (cwd : Nat) (path : List UInt8) : Prog State (Option Nat) := do
  let (ip, _) ← namex cwd false path []
  return ip

def nameiparent (cwd : Nat) (path name : List UInt8) : Prog State (Option Nat × List UInt8) :=
  namex cwd true path name

/-! ## What a path means -/

namespace State

/-- The inode that a name stands for in a directory. -/
def lookup (s : State) (dp : Nat) (c : List UInt8) : Option Nat :=
  if s.type dp = T_DIR then
    ((s.dir dp).find? fun de => de.inum ≠ 0 ∧ nameOf de.name = c).map (·.inum)
  else none

/-- Look up components one after another. -/
def walk (s : State) (ip : Nat) (cs : List (List UInt8)) : Option Nat := cs.foldlM s.lookup ip

/-- What `namex` should return: the inode that the components lead to, or with
`parent` the directory before the last of them. -/
def resolve (s : State) (parent : Bool) (ip : Nat) (cs : List (List UInt8)) : Option Nat :=
  if parent then
    if cs = [] then none else (s.walk ip cs.dropLast).filter fun dp => s.type dp = T_DIR
  else s.walk ip cs

/-- Where a path starts. -/
def start (cwd : Nat) (path : List UInt8) : Nat :=
  if path.head? = some slash then ROOTINO else cwd

/-- The inode table has room for references to these inodes. -/
def Room (s : State) (is : Finset Nat) : Prop := (is.filter fun i => s.ref i = 0).card ≤ s.free

/-- Every inode that a component is looked up in is allocated, and the inode
table has room for it and the one that is found. -/
def Clear (s : State) (parent : Bool) : Nat → List (List UInt8) → Prop
  | _, [] => True
  | ip, c :: cs => s.type ip ≠ 0 ∧ ((parent = true ∧ cs = []) ∨
      ∀ next, s.lookup ip c = some next → s.Room {ip, next} ∧ s.Clear parent next cs)

/-- No process is in the file system: no inode is locked, the copies of
inodes in use are of allocated ones, and an allocated inode without links is in
use. -/
structure AtRest (s : State) : Prop where
  unlocked : ∀ i, s.locked i = false
  loaded : ∀ i, 0 < s.ref i → s.valid i → s.type i ≠ 0
  linked : ∀ i, s.ref i = 0 → s.type i ≠ 0 → s.nlink i ≠ 0

end State

variable {s t : State} {held : Multiset Nat} {lock : Option Nat} {ip inum : Nat}

/-- `t` is `s` with the references `held` and the lock `lock` taken in addition. -/
structure Holding (s : State) (held : Multiset Nat) (lock : Option Nat) (t : State) : Prop where
  type : t.type = s.type
  nlink : t.nlink = s.nlink
  dir : t.dir = s.dir
  ref : ∀ i, t.ref i = s.ref i + held.count i
  free : t.free + (held.toFinset.filter fun i => s.ref i = 0).card = s.free
  locked : ∀ i, t.locked i = true ↔ lock = some i
  loaded : ∀ i, 0 < t.ref i → t.valid i → t.type i ≠ 0

theorem State.AtRest.holding (hs : s.AtRest) : Holding s 0 none s where
  type := rfl
  nlink := rfl
  dir := rfl
  ref i := by simp
  free := by simp
  locked i := by simp [hs.unlocked i]
  loaded := hs.loaded

theorem iget_eq (inum : Nat) (t : State) : (iget inum).run t =
    if 0 < t.ref inum then
      .ok inum { t with ref := Function.update t.ref inum (t.ref inum + 1) }
    else if t.free = 0 then .panic "iget: no inodes"
    else .ok inum { t with
      ref := Function.update t.ref inum 1
      valid := Function.update t.valid inum false
      free := t.free - 1 } := run_atom _ _

namespace Holding

/-! ## References -/

theorem ref_pos (h : Holding s held lock t) (hip : ip ∈ held) : 0 < t.ref ip := by
  rw [h.ref]
  exact Nat.add_pos_right _ (Multiset.count_pos.2 hip)

/-- One more reference to an inode that is in the table. -/
theorem addRef (h : Holding s held lock t) (hpos : 0 < t.ref inum) :
    Holding s (inum ::ₘ held) lock
      { t with ref := Function.update t.ref inum (t.ref inum + 1) } where
  type := h.type
  nlink := h.nlink
  dir := h.dir
  ref i := by
    have hi := h.ref i
    by_cases he : i = inum
    · subst he
      simp [hi]
      omega
    · simp [he, hi]
  free := by
    have hfree := h.free
    rw [Multiset.toFinset_cons]
    by_cases hin : inum ∈ held
    · rw [Finset.insert_eq_of_mem (Multiset.mem_toFinset.2 hin)]
      exact hfree
    · have hs : s.ref inum ≠ 0 := by
        rw [h.ref, Multiset.count_eq_zero_of_notMem hin] at hpos
        omega
      rw [Finset.filter_insert, if_neg hs]
      exact hfree
  locked := h.locked
  loaded i hi hv := by
    refine h.loaded i ?_ hv
    by_cases he : i = inum
    · exact he ▸ hpos
    · simpa [he] using hi

theorem iget_run (h : Holding s held lock t) (hroom : s.Room (insert inum held.toFinset)) :
    ∃ u, (iget inum).run t = .ok inum u ∧ Holding s (inum ::ₘ held) lock u := by
  rw [iget_eq]
  split
  next hpos => exact ⟨_, rfl, h.addRef hpos⟩
  next hpos =>
    have href := h.ref inum
    have hnot : inum ∉ held.toFinset := fun hin => by
      have := Multiset.count_pos.2 (Multiset.mem_toFinset.1 hin)
      omega
    have hzero : s.ref inum = 0 := by omega
    have hcard : ((insert inum held.toFinset).filter fun i => s.ref i = 0).card =
        (held.toFinset.filter fun i => s.ref i = 0).card + 1 := by
      rw [Finset.filter_insert, if_pos hzero, Finset.card_insert_of_notMem (by simp [hnot])]
    have hfree := h.free
    unfold State.Room at hroom
    rw [if_neg (by omega)]
    refine ⟨_, rfl, h.type, h.nlink, h.dir, ?_, ?_, h.locked, ?_⟩
    · intro i
      have hi := h.ref i
      by_cases he : i = inum
      · subst he
        have hc := Multiset.count_eq_zero_of_notMem fun hin => hnot (Multiset.mem_toFinset.2 hin)
        simp [hzero, hc]
      · simp [he, hi]
    · rw [Multiset.toFinset_cons, hcard]
      show t.free - 1 + _ = _
      omega
    · intro i hi hv
      by_cases he : i = inum
      · simp [he] at hv
      · exact h.loaded i (by simpa [he] using hi) (by simpa [he] using hv)

theorem iget_fails (h : Holding s held lock t) (hroom : ¬ s.Room (insert inum held.toFinset)) :
    (iget inum).run t = .panic "iget: no inodes" := by
  have href := h.ref inum
  have hfree := h.free
  unfold State.Room at hroom
  have hnot : inum ∉ held.toFinset := by
    intro hin
    rw [Finset.insert_eq_of_mem hin] at hroom
    omega
  have hzero : s.ref inum = 0 := by
    by_contra hne
    rw [Finset.filter_insert, if_neg hne] at hroom
    omega
  rw [Finset.filter_insert, if_pos hzero, Finset.card_insert_of_notMem (by simp [hnot])] at hroom
  have hc := Multiset.count_eq_zero_of_notMem fun hin => hnot (Multiset.mem_toFinset.2 hin)
  rw [iget_eq, if_neg (by omega), if_pos (by omega)]

/-- A reference to an inode that nobody else uses is given up. -/
theorem iput_run (h : Holding s (ip ::ₘ held) none t) (hs : s.AtRest) :
    ∃ u, (iput ip).run t = .ok () u ∧ Holding s held none u := by
  have href := h.ref ip
  rw [Multiset.count_cons_self] at href
  have hkeep : (t.ref ip = 1 && t.valid ip && t.nlink ip = 0) = false := by
    by_contra hall
    simp only [Bool.not_eq_false, Bool.and_eq_true, decide_eq_true_eq] at hall
    obtain ⟨⟨hone, hvalid⟩, hnlink⟩ := hall
    have htype := h.loaded ip (by omega) hvalid
    rw [h.type] at htype
    rw [h.nlink] at hnlink
    exact hs.linked ip (by omega) htype hnlink
  refine ⟨{ t with
    ref := Function.update t.ref ip (t.ref ip - 1)
    free := if t.ref ip = 1 then t.free + 1 else t.free }, ?_, h.type, h.nlink, h.dir, ?_, ?_,
    h.locked, ?_⟩
  · simp only [iput, run_bind, run_read, hkeep, Bool.false_eq_true, if_false, run_modify]
  · intro i
    have hi := h.ref i
    by_cases he : i = ip
    · subst he
      simp [href]
    · simpa [he] using hi
  · have hfree := h.free
    rw [Multiset.toFinset_cons] at hfree
    show (if t.ref ip = 1 then t.free + 1 else t.free) + _ = _
    by_cases hin : ip ∈ held
    · rw [Finset.insert_eq_of_mem (Multiset.mem_toFinset.2 hin)] at hfree
      have := Multiset.count_pos.2 hin
      rw [if_neg (by omega)]
      exact hfree
    · rw [Multiset.count_eq_zero_of_notMem hin] at href
      by_cases hz : s.ref ip = 0
      · rw [Finset.filter_insert, if_pos hz, Finset.card_insert_of_notMem (by simp [hin])] at hfree
        rw [if_pos (by omega)]
        omega
      · rw [Finset.filter_insert, if_neg hz] at hfree
        rw [if_neg (by omega)]
        exact hfree
  · intro i hi hv
    refine h.loaded i ?_ hv
    by_cases he : i = ip
    · subst he
      omega
    · simpa [he] using hi

theorem idup_run (h : Holding s held lock t) (hpos : 0 < t.ref ip) :
    ∃ u, (idup ip).run t = .ok ip u ∧ Holding s (ip ::ₘ held) lock u :=
  ⟨_, run_atom _ _, h.addRef hpos⟩

/-! ## The lock of an inode -/

theorem ilock_run (h : Holding s held none t) (hip : ip ∈ held) (htype : s.type ip ≠ 0) :
    ∃ u, (ilock ip).run t = .ok () u ∧ Holding s held (some ip) u := by
  have hpos := h.ref_pos hip
  have hfree : t.locked ip = false := by simpa using mt (h.locked ip).1
  have hlocked : ∀ i, Function.update t.locked ip true i = true ↔ some ip = some i := by
    intro i
    have hi := h.locked i
    by_cases he : i = ip
    · simp [he]
    · simp only [Function.update_of_ne he, hi, Option.some.injEq]
      exact iff_of_false nofun fun heq => he heq.symm
  cases hv : t.valid ip with
  | true =>
    refine ⟨{ t with locked := Function.update t.locked ip true }, ?_, h.type, h.nlink, h.dir,
      h.ref, h.free, hlocked, h.loaded⟩
    simp [ilock, acquiresleep, run_bind, hfree, hv, show t.ref ip ≠ 0 by omega]
  | false =>
    refine ⟨{ t with
      locked := Function.update t.locked ip true
      valid := Function.update t.valid ip true }, ?_, h.type, h.nlink, h.dir,
      h.ref, h.free, hlocked, ?_⟩
    · simp [ilock, acquiresleep, run_bind, hfree, hv, h.type, htype, show t.ref ip ≠ 0 by omega]
    · intro i hi hvi
      by_cases he : i = ip
      · rw [he]
        show t.type ip ≠ 0
        rw [h.type]
        exact htype
      · exact h.loaded i hi (by simpa [he] using hvi)

/-- Locking an inode that is not allocated stops the kernel. -/
theorem ilock_panics (h : Holding s held none t) (hip : ip ∈ held) (htype : s.type ip = 0) :
    (ilock ip).run t = .panic "ilock: no type" := by
  have hpos := h.ref_pos hip
  have hfree : t.locked ip = false := by simpa using mt (h.locked ip).1
  have htype' : t.type ip = 0 := by rw [h.type, htype]
  have hv : t.valid ip = false := by simpa using fun hv => h.loaded ip hpos hv htype'
  simp [ilock, acquiresleep, run_bind, hfree, hv, htype', show t.ref ip ≠ 0 by omega]

theorem iunlock_run (h : Holding s held (some ip) t) (hip : ip ∈ held) :
    ∃ u, (iunlock ip).run t = .ok () u ∧ Holding s held none u := by
  have hpos := h.ref_pos hip
  have hl : t.locked ip = true := (h.locked ip).2 rfl
  refine ⟨{ t with locked := Function.update t.locked ip false }, ?_, h.type, h.nlink, h.dir,
    h.ref, h.free, ?_, h.loaded⟩
  · simp [iunlock, releasesleep, run_bind, hl, show t.ref ip ≠ 0 by omega]
  · intro i
    have hi := h.locked i
    by_cases he : i = ip
    · simp [he]
    · simp only [Function.update_of_ne he, hi, Option.some.injEq]
      exact iff_of_false (fun heq => he heq.symm) nofun

theorem iunlockput_run (h : Holding s (ip ::ₘ held) (some ip) t) (hs : s.AtRest) :
    ∃ u, (iunlockput ip).run t = .ok () u ∧ Holding s held none u := by
  obtain ⟨u, hu, hheld⟩ := h.iunlock_run (Multiset.mem_cons_self ip held)
  obtain ⟨v, hv, hheld⟩ := hheld.iput_run hs
  refine ⟨v, ?_, hheld⟩
  rw [iunlockput, run_bind, hu]
  exact hv

/-! ## Directories -/

theorem dirlookupLoop_eq (name : List UInt8) (des : List Dirent) :
    dirlookupLoop name des =
      match des.find? fun de => de.inum ≠ 0 ∧ nameOf de.name = nameOf name with
      | none => return none
      | some de => do
        let ip ← iget de.inum
        return some ip := by
  induction des with
  | nil => rfl
  | cons de des ih =>
    rw [dirlookupLoop, List.find?_cons]
    by_cases hz : de.inum = 0
    · simp only [hz, if_true, ih]
      simp
    · simp only [hz, if_false, namecmp_eq_zero]
      by_cases he : nameOf name = nameOf de.name
      · simp [he, hz]
      · simp only [he, if_false, ih]
        simp [Ne.symm he]

theorem dirlookup_eq (h : Holding s held lock t) (hdir : s.type ip = T_DIR) (name : List UInt8) :
    (dirlookup ip name).run t =
      match s.lookup ip (nameOf name) with
      | none => .ok none t
      | some next => (do
        let ip ← iget next
        return some ip : Prog State (Option Nat)).run t := by
  simp only [dirlookup, run_bind, run_read, h.type, h.dir, hdir, ne_eq, not_true_eq_false,
    if_false, State.lookup, if_true]
  rw [dirlookupLoop_eq]
  cases (s.dir ip).find? fun de => de.inum ≠ 0 ∧ nameOf de.name = nameOf name with
  | none => rfl
  | some de => simp [run_bind]

theorem dirlookup_none (h : Holding s held lock t) (hdir : s.type ip = T_DIR)
    {name : List UInt8} (hl : s.lookup ip (nameOf name) = none) :
    (dirlookup ip name).run t = .ok none t := by
  rw [h.dirlookup_eq hdir, hl]

theorem dirlookup_some (h : Holding s held lock t) (hdir : s.type ip = T_DIR)
    {name : List UInt8} {next : Nat} (hl : s.lookup ip (nameOf name) = some next)
    (hroom : s.Room (insert next held.toFinset)) :
    ∃ u, (dirlookup ip name).run t = .ok (some next) u ∧ Holding s (next ::ₘ held) lock u := by
  obtain ⟨u, hu, hheld⟩ := h.iget_run hroom
  refine ⟨u, ?_, hheld⟩
  rw [h.dirlookup_eq hdir, hl]
  simp only [run_bind, hu]
  rfl

theorem dirlookup_panics (h : Holding s held lock t) (hdir : s.type ip = T_DIR)
    {name : List UInt8} {next : Nat} (hl : s.lookup ip (nameOf name) = some next)
    (hroom : ¬ s.Room (insert next held.toFinset)) :
    (dirlookup ip name).run t = .panic "iget: no inodes" := by
  rw [h.dirlookup_eq hdir, hl]
  simp only [run_bind, h.iget_fails hroom]

end Holding

/-! ## The components of a path -/

namespace State

theorem resolve_nil (s : State) (parent : Bool) (ip : Nat) :
    s.resolve parent ip [] = if parent then none else some ip := by
  cases parent <;> rfl

theorem resolve_last (s : State) (ip : Nat) (c : List UInt8) :
    s.resolve true ip [c] = if s.type ip = T_DIR then some ip else none := by
  simp only [resolve, walk, if_true, List.dropLast_singleton, List.foldlM_nil]
  by_cases h : s.type ip = T_DIR <;> simp [h]

theorem resolve_cons (s : State) {parent : Bool} {cs : List (List UInt8)}
    (h : ¬ (parent = true ∧ cs = [])) (ip : Nat) (c : List UInt8) :
    s.resolve parent ip (c :: cs) = (s.lookup ip c).bind fun next => s.resolve parent next cs := by
  cases parent with
  | false => simp [resolve, walk, Option.bind_eq_bind]
  | true =>
    have hcs : cs ≠ [] := fun hnil => h ⟨rfl, hnil⟩
    simp only [resolve, walk, if_true, List.cons_ne_nil, if_false, hcs,
      List.dropLast_cons_of_ne_nil hcs, List.foldlM_cons, Option.bind_eq_bind]
    cases s.lookup ip c <;> rfl

theorem lookup_of_ne {dp : Nat} (h : s.type dp ≠ T_DIR) (c : List UInt8) :
    s.lookup dp c = none := if_neg h

end State

/-! ## The loop of namex -/

/-- The reference that a call returns with. -/
def result (r : Option Nat) : Multiset Nat := r.elim 0 ({·})

theorem namexLoop_none {path name : List UInt8} (h : skipelem path name = none)
    (parent : Bool) (ip : Nat) :
    namexLoop parent path name ip = if parent then do
      iput ip
      return (none, name)
    else return (some ip, name) := by
  rw [namexLoop]
  split
  next hs => rw [hs] at h; cases h
  next => rfl

theorem namexLoop_some {path name path' name' : List UInt8}
    (h : skipelem path name = some (path', name')) (parent : Bool) (ip : Nat) :
    namexLoop parent path name ip = (do
      ilock ip
      if (← read fun s => s.type ip) ≠ T_DIR then do
        iunlockput ip
        return (none, name')
      else if parent ∧ path' = [] then do
        iunlock ip
        return (some ip, name')
      else do
        match ← dirlookup ip name' with
        | none => do
          iunlockput ip
          return (none, name')
        | some ip' => do
          iunlockput ip
          namexLoop parent path' name' ip') := by
  rw [namexLoop]
  split
  next hs => cases hs.symm.trans h; rfl
  next hs => rw [hs] at h; cases h

theorem namexLoop_run (hs : s.AtRest) (parent : Bool) {path : List UInt8} (name : List UInt8)
    (h0 : (0 : UInt8) ∉ path) (h : Holding s {ip} none t)
    (hclear : s.Clear parent ip (components path)) :
    ∃ name' u, (namexLoop parent path name ip).run t =
        .ok (s.resolve parent ip (components path), name') u ∧
      Holding s (result (s.resolve parent ip (components path))) none u ∧
      (parent = true → s.resolve parent ip (components path) ≠ none →
        (components path).getLast? = some (nameOf name')) := by
  induction hn : path.length using Nat.strong_induction_on generalizing path name ip t with
  | _ n ih =>
  cases hsk : skipelem path name with
  | none =>
    rw [skipelem_none hsk, State.resolve_nil, namexLoop_none hsk]
    cases parent with
    | false => exact ⟨name, t, rfl, h, nofun⟩
    | true =>
      obtain ⟨u, hu, hheld⟩ := h.iput_run hs
      refine ⟨name, u, ?_, hheld, fun _ hne => absurd rfl hne⟩
      simp only [if_true, run_bind, hu]
      rfl
  | some r =>
    obtain ⟨path', name'⟩ := r
    obtain ⟨hcons, h0', hnil⟩ := skipelem_some h0 hsk
    have hlt := skipelem_shorter hsk
    rw [hcons] at hclear ⊢
    obtain ⟨htype, hnext⟩ := hclear
    obtain ⟨t₁, hlock, h₁⟩ := h.ilock_run (Multiset.mem_singleton_self ip) htype
    rw [namexLoop_some hsk]
    simp only [run_bind, hlock, run_read, h₁.type]
    by_cases hdir : s.type ip = T_DIR
    · rw [if_neg (not_not.2 hdir)]
      by_cases hstop : parent = true ∧ path' = []
      · -- Stop one level early.
        obtain ⟨t₂, hunlock, h₂⟩ := h₁.iunlock_run (Multiset.mem_singleton_self ip)
        have hone : components path' = [] := hnil.1 hstop.2
        refine ⟨name', t₂, ?_, ?_, fun _ _ => ?_⟩
        · rw [if_pos hstop, hone, hstop.1, State.resolve_last, if_pos hdir, run_bind, hunlock]
          rfl
        · rw [hone, hstop.1, State.resolve_last, if_pos hdir]
          exact h₂
        · rw [hone]
          rfl
      · have hstop' : ¬ (parent = true ∧ components path' = []) := fun hboth =>
          hstop ⟨hboth.1, hnil.2 hboth.2⟩
        rw [if_neg hstop, run_bind, State.resolve_cons s hstop']
        cases hl : s.lookup ip (nameOf name') with
        | none =>
          obtain ⟨t₂, hput, h₂⟩ := h₁.iunlockput_run hs
          refine ⟨name', t₂, ?_, h₂, fun _ hne => absurd rfl hne⟩
          simp only [h₁.dirlookup_none hdir hl, run_bind, hput]
          rfl
        | some next =>
          obtain ⟨hroom, hclear'⟩ := (hnext.resolve_left hstop') next hl
          obtain ⟨t₂, hlook, h₂⟩ := h₁.dirlookup_some hdir hl (by
            rw [Multiset.toFinset_singleton, Finset.pair_comm]
            exact hroom)
          have hswap : (next ::ₘ {ip} : Multiset Nat) = ip ::ₘ {next} := Multiset.pair_comm _ _
          rw [hswap] at h₂
          obtain ⟨t₃, hput, h₃⟩ := h₂.iunlockput_run hs
          obtain ⟨name'', u, hrun, hheld, hlast⟩ :=
            @ih _ (hn ▸ hlt) t₃ next path' name' h0' h₃ hclear' rfl
          refine ⟨name'', u, ?_, hheld, fun hp hne => ?_⟩
          · simp only [hlook, run_bind, hput, hrun, Option.bind_some]
          · have hcs : components path' ≠ [] := fun he => hstop' ⟨hp, he⟩
            rw [List.getLast?_cons_of_ne_nil hcs]
            exact hlast hp hne
    · -- Not a directory.
      obtain ⟨t₂, hput, h₂⟩ := h₁.iunlockput_run hs
      have hres : s.resolve parent ip (nameOf name' :: components path') = none := by
        by_cases hstop : parent = true ∧ components path' = []
        · rw [hstop.1, hstop.2, State.resolve_last, if_neg hdir]
        · rw [State.resolve_cons s hstop, State.lookup_of_ne hdir, Option.bind_none]
      rw [hres]
      refine ⟨name', t₂, ?_, h₂, fun _ hne => absurd rfl hne⟩
      rw [if_pos hdir, run_bind, hput]
      rfl

theorem namexLoop_panics (hs : s.AtRest) (parent : Bool) {path : List UInt8} (name : List UInt8)
    (h0 : (0 : UInt8) ∉ path) (h : Holding s {ip} none t)
    (hclear : ¬ s.Clear parent ip (components path)) :
    ∃ msg, (namexLoop parent path name ip).run t = .panic msg := by
  induction hn : path.length using Nat.strong_induction_on generalizing path name ip t with
  | _ n ih =>
  cases hsk : skipelem path name with
  | none =>
    rw [skipelem_none hsk] at hclear
    exact absurd trivial hclear
  | some r =>
    obtain ⟨path', name'⟩ := r
    obtain ⟨hcons, h0', hnil⟩ := skipelem_some h0 hsk
    have hlt := skipelem_shorter hsk
    rw [hcons] at hclear
    rw [namexLoop_some hsk, run_bind]
    by_cases htype : s.type ip = 0
    · exact ⟨_, by rw [h.ilock_panics (Multiset.mem_singleton_self ip) htype]⟩
    obtain ⟨t₁, hlock, h₁⟩ := h.ilock_run (Multiset.mem_singleton_self ip) htype
    obtain ⟨hstop, hnext⟩ := not_or.1 fun hor => hclear ⟨htype, hor⟩
    simp only [not_forall] at hnext
    obtain ⟨next, hl, hbad⟩ := hnext
    have hdir : s.type ip = T_DIR := by
      by_contra hne
      rw [State.lookup_of_ne hne] at hl
      cases hl
    have hgo : ¬ (parent = true ∧ path' = []) := fun hboth =>
      hstop ⟨hboth.1, hnil.1 hboth.2⟩
    simp only [hlock, run_bind, run_read, h₁.type, hdir, ne_eq, not_true_eq_false, if_false,
      if_neg hgo]
    have hset : insert next ({ip} : Multiset Nat).toFinset = {ip, next} := by
      rw [Multiset.toFinset_singleton, Finset.pair_comm]
    by_cases hroom : s.Room {ip, next}
    · obtain ⟨t₂, hlook, h₂⟩ := h₁.dirlookup_some hdir hl (hset ▸ hroom)
      have hswap : (next ::ₘ {ip} : Multiset Nat) = ip ::ₘ {next} := Multiset.pair_comm _ _
      rw [hswap] at h₂
      obtain ⟨t₃, hput, h₃⟩ := h₂.iunlockput_run hs
      obtain ⟨msg, hrun⟩ := @ih _ (hn ▸ hlt) t₃ next path' name' h0' h₃
        (fun hc => hbad ⟨hroom, hc⟩) rfl
      exact ⟨msg, by simp only [hlook, run_bind, hput, hrun]⟩
    · exact ⟨_, by rw [h₁.dirlookup_panics hdir hl (hset ▸ hroom)]⟩

/-! ## Path resolution -/

/-- The call returns what the components of the path lead to and the last of
them, and changes nothing but the reference count of the inode it returns. -/
def Follows (s : State) (cwd : Nat) (parent : Bool) (path : List UInt8) : Prop :=
  ∀ name, ∃ r name' u, (namex cwd parent path name).run s = .ok (r, name') u ∧
    r = s.resolve parent (State.start cwd path) (components path) ∧
    (parent = true → r ≠ none → (components path).getLast? = some (nameOf name')) ∧
    (∀ i, u.ref i = s.ref i + if r = some i then 1 else 0) ∧ (∀ i, u.locked i = false) ∧
    u.type = s.type ∧ u.nlink = s.nlink ∧ u.dir = s.dir

theorem namex_eq (cwd : Nat) (parent : Bool) (path name : List UInt8) :
    namex cwd parent path name =
      (if path.head? = some slash then iget ROOTINO else idup cwd) >>=
        namexLoop parent path name := by
  unfold namex
  split <;> rfl

theorem start_run (hs : s.AtRest) {cwd : Nat} (hcwd : 0 < s.ref cwd) {path : List UInt8}
    (hroom : s.Room {State.start cwd path}) :
    ∃ t, (if path.head? = some slash then iget ROOTINO else idup cwd).run s =
        .ok (State.start cwd path) t ∧ Holding s {State.start cwd path} none t := by
  unfold State.start at *
  split
  next hslash =>
    rw [if_pos hslash] at hroom
    exact hs.holding.iget_run hroom
  next => exact hs.holding.idup_run hcwd

theorem start_panics (hs : s.AtRest) {cwd : Nat} (hcwd : 0 < s.ref cwd) {path : List UInt8}
    (hroom : ¬ s.Room {State.start cwd path}) :
    (if path.head? = some slash then iget ROOTINO else idup cwd).run s =
      .panic "iget: no inodes" := by
  unfold State.start at *
  split
  next hslash =>
    rw [if_pos hslash] at hroom
    exact hs.holding.iget_fails hroom
  next hslash =>
    rw [if_neg hslash] at hroom
    refine absurd ?_ hroom
    unfold State.Room
    rw [Finset.filter_singleton, if_neg (by omega)]
    exact Nat.zero_le _

/-- `skipelem` finds the components of every path, and `namex` follows them if
and only if the inode table has room and the path does not lead through an inode
that is not allocated: then it stops the kernel. -/
theorem namex_follows (hs : s.AtRest) {cwd : Nat} (hcwd : 0 < s.ref cwd) (parent : Bool)
    {path : List UInt8} (h0 : (0 : UInt8) ∉ path) :
    (∀ name, elements path name = components path) ∧
    (Follows s cwd parent path ↔ s.Room {State.start cwd path} ∧
      s.Clear parent (State.start cwd path) (components path)) := by
  refine ⟨fun name => elements_eq h0, ?_, ?_⟩
  · intro hf
    obtain ⟨r, name', u, hrun, -⟩ := hf []
    rw [namex_eq, run_bind] at hrun
    by_cases hroom : s.Room {State.start cwd path}
    · obtain ⟨t, hstart, h⟩ := start_run hs hcwd hroom
      rw [hstart] at hrun
      refine ⟨hroom, ?_⟩
      by_contra hclear
      obtain ⟨msg, hpanic⟩ := namexLoop_panics hs parent [] h0 h hclear
      cases hpanic.symm.trans hrun
    · rw [start_panics hs hcwd hroom] at hrun
      cases hrun
  · rintro ⟨hroom, hclear⟩ name
    obtain ⟨t, hstart, h⟩ := start_run hs hcwd hroom
    obtain ⟨name', u, hrun, hheld, hlast⟩ := namexLoop_run hs parent name h0 h hclear
    refine ⟨_, name', u, ?_, rfl, hlast, ?_, ?_, hheld.type, hheld.nlink, hheld.dir⟩
    · rw [namex_eq, run_bind, hstart]
      exact hrun
    · intro i
      rw [hheld.ref]
      cases s.resolve parent (State.start cwd path) (components path) with
      | none => simp [result]
      | some j => simp [result, Multiset.count_singleton, eq_comm]
    · intro i
      simpa using mt (hheld.locked i).1 nofun

/-- The root holds the directory "d", and that the file "f". -/
def twoLevels : State where
  type i := if i = 1 ∨ i = 2 then T_DIR else if i = 3 then 2 else 0
  nlink i := if 1 ≤ i ∧ i ≤ 3 then 1 else 0
  dir i :=
    if i = 1 then [⟨1, [0x2e, 0]⟩, ⟨1, [0x2e, 0x2e, 0]⟩, ⟨2, [0x64, 0]⟩]
    else if i = 2 then [⟨2, [0x2e, 0]⟩, ⟨1, [0x2e, 0x2e, 0]⟩, ⟨3, [0x66, 0]⟩]
    else []
  ref i := if i = 1 then 1 else 0
  valid _ := false
  locked _ := false
  free := 49

theorem twoLevels_atRest : twoLevels.AtRest where
  unlocked _ := rfl
  loaded i _ hv := nomatch hv
  linked i _ ht := by
    simp only [twoLevels] at ht ⊢
    split at ht
    next => rw [if_pos (by omega)]; decide
    next =>
      split at ht
      next => rw [if_pos (by omega)]; decide
      next => exact absurd rfl ht

/-- The path "/d//../d/f". -/
theorem namex_follows_twoLevels :
    Follows twoLevels 1 false [slash, 0x64, slash, slash, 0x2e, 0x2e, slash, 0x64, slash, 0x66] :=
  (namex_follows twoLevels_atRest (by decide) false (by decide)).2.2 ⟨by
    unfold State.Room
    decide, by
    have hc : components [slash, 0x64, slash, slash, 0x2e, 0x2e, slash, 0x64, slash, 0x66] =
        [[0x64], [0x2e, 0x2e], [0x64], [0x66]] := by decide
    have hd : twoLevels.lookup 1 [0x64] = some 2 := by decide
    have hup : twoLevels.lookup 2 [0x2e, 0x2e] = some 1 := by decide
    have hf : twoLevels.lookup 2 [0x66] = some 3 := by decide
    have hroom : ∀ i j, twoLevels.Room {i, j} := fun i j => by
      refine Nat.le_trans (Finset.card_filter_le ..) (Nat.le_trans Finset.card_le_two ?_)
      decide
    rw [hc]
    refine ⟨by decide, .inr fun next hnext => ?_⟩
    cases hd.symm.trans hnext
    refine ⟨hroom .., by decide, .inr fun next hnext => ?_⟩
    cases hup.symm.trans hnext
    refine ⟨hroom .., by decide, .inr fun next hnext => ?_⟩
    cases hd.symm.trans hnext
    refine ⟨hroom .., by decide, .inr fun next hnext => ?_⟩
    cases hf.symm.trans hnext
    exact ⟨hroom .., trivial⟩⟩

/-- The current directory of a process has been removed, and its parent too. -/
def removed : State where
  type i := if i = 1 ∨ i = 2 then T_DIR else 0
  nlink i := if i = 1 then 1 else 0
  dir i :=
    if i = 1 then [⟨1, [0x2e, 0]⟩, ⟨1, [0x2e, 0x2e, 0]⟩]
    else if i = 2 then [⟨2, [0x2e, 0]⟩, ⟨3, [0x2e, 0x2e, 0]⟩]
    else []
  ref i := if i = 1 ∨ i = 2 then 1 else 0
  valid _ := false
  locked _ := false
  free := 48

theorem removed_atRest : removed.AtRest where
  unlocked _ := rfl
  loaded i _ hv := nomatch hv
  linked i hr ht := by
    simp only [removed] at hr ht
    split at hr
    next => cases hr
    next h => simp [h] at ht

/-- The path "../x" stops the kernel, though it only leads to an inode that is
not a directory. -/
theorem namex_stops_removed : removed.AtRest ∧ 0 < removed.ref 2 ∧
    removed.resolve false 2 (components [0x2e, 0x2e, slash, 0x78]) = none ∧
    (namex 2 false [0x2e, 0x2e, slash, 0x78] []).run removed = .panic "ilock: no type" ∧
    ¬ Follows removed 2 false [0x2e, 0x2e, slash, 0x78] := by
  have hrun : (namex 2 false [0x2e, 0x2e, slash, 0x78] []).run removed =
      .panic "ilock: no type" := Outcome.eq_panic (by decide +kernel)
  refine ⟨removed_atRest, by decide, by decide, hrun, fun hf => ?_⟩
  obtain ⟨r, name', u, hok, -⟩ := hf []
  cases hrun.symm.trans hok

end Xv6.PathWalk
