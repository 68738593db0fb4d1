/-
fs.c: a directory is a map from names to inode numbers.
-/
import Xv6.Directory
import Xv6.FileTrunc

namespace Xv6.FileSystem

open Conc Prog Fs

variable {sb : Superblock} {I : Set Nat} {s s' s₀ : State} {dp j inum : Nat} {name : List UInt8}
  {m m₀ : List UInt8 → Option Nat}

/-- A call on a directory, with its arguments. -/
inductive DirOp where
  | dirlookup (name : List UInt8)
  | dirlink (name : List UInt8) (inum : Nat)
  | unlink (removable : Nat → Bool) (name : List UInt8)

/-- What a call returns. -/
inductive DirResult where
  | found (entry : Option (Nat × Nat))
  | status (r : Int)

namespace DirOp

def call (sb : Superblock) (dp : Nat) : DirOp → Prog State DirResult
  | .dirlookup name => do
    let entry ← FileSystem.dirlookup sb dp name
    return .found entry
  | .dirlink name inum => do
    let r ← FileSystem.dirlink sb dp name inum
    return .status r
  | .unlink removable name => do
    let r ← FileSystem.unlink sb removable dp name
    return .status r

/-- What is linked has an inode number, and `ushort` has room for it. -/
def Valid : DirOp → Prop
  | .dirlink _ inum => 0 < inum ∧ inum < 2 ^ 16
  | _ => True

/-- The map after a call with this result. -/
def after : DirOp → DirResult → (List UInt8 → Option Nat) → List UInt8 → Option Nat
  | .dirlink name inum, .status r, m =>
    if r = 0 then Function.update m (nameOf name) (some inum) else m
  | .unlink _ name, .status r, m => if r = 0 then Function.update m (nameOf name) none else m
  | _, _, m => m

/-- The names that are not removed. -/
def IsDots (name : List UInt8) : Prop := nameOf name = [0x2e] ∨ nameOf name = [0x2e, 0x2e]

/-- What a call does to a directory with the slots `t` that is the map `m`. -/
inductive Does (cannotGrow : Prop) (t : List (Option (List UInt8 × Nat)))
    (m : List UInt8 → Option Nat) :
    DirOp → DirResult → List (Option (List UInt8 × Nat)) → Prop
  | found {name : List UInt8} {inum j : Nat} (hm : m (nameOf name) = some inum)
      (hj : t[j]? = some (some (nameOf name, inum))) :
      Does cannotGrow t m (.dirlookup name) (.found (some (inum, j * DESIZE))) t
  | missing {name : List UInt8} (hm : m (nameOf name) = none) :
      Does cannotGrow t m (.dirlookup name) (.found none) t
  | linked {name : List UInt8} {inum j : Nat} {t' : List (Option (List UInt8 × Nat))}
      (hm : m (nameOf name) = none) (hgrow : ¬ cannotGrow)
      (hj : t[j]? = some none ∨ (j = t.length ∧ ∀ k : Nat, t[k]? ≠ some none))
      (hput : SlotTable.Put t j (some (nameOf name, inum)) t') :
      Does cannotGrow t m (.dirlink name inum) (.status 0) t'
  | notLinked {name : List UInt8} {inum : Nat} (h : m (nameOf name) ≠ none ∨ cannotGrow) :
      Does cannotGrow t m (.dirlink name inum) (.status (-1)) t
  | removed {removable : Nat → Bool} {name : List UInt8} {inum j : Nat}
      {t' : List (Option (List UInt8 × Nat))} (hdots : ¬ IsDots name)
      (hm : m (nameOf name) = some inum) (hr : removable inum = true)
      (hj : t[j]? = some (some (nameOf name, inum))) (hput : SlotTable.Put t j none t') :
      Does cannotGrow t m (.unlink removable name) (.status 0) t'
  | notRemoved {removable : Nat → Bool} {name : List UInt8}
      (h : IsDots name ∨ ∀ inum, m (nameOf name) = some inum → removable inum = false) :
      Does cannotGrow t m (.unlink removable name) (.status (-1)) t

/-- A name that is not in the directory is linked, unless it cannot grow. -/
theorem Does.links {cannotGrow : Prop} {t t' : List (Option (List UInt8 × Nat))} {r : DirResult}
    (h : Does cannotGrow t m (.dirlink name inum) r t') (hm : m (nameOf name) = none)
    (hgrow : ¬ cannotGrow) : r = .status 0 := by
  cases h with
  | linked => rfl
  | notLinked h => exact absurd h (by simp [hm, hgrow])

end DirOp

/-! ## The calls -/

theorem namecmp_dots (name : List UInt8) :
    (namecmp name [0x2e] = 0 ∨ namecmp name [0x2e, 0x2e] = 0) ↔ DirOp.IsDots name := by
  rw [namecmp_eq_zero, namecmp_eq_zero]
  exact Iff.rfl

/-- A directory of whole entries has as many slots as fit its size. -/
theorem Dir.length (h : Dir sb I dp s m) :
    (slots (s.bytes dp)).length * DESIZE = (s.inode dp).size := by
  have hwhole := h.whole
  rw [length_slots, length_bytes]
  unfold DESIZE at *
  omega

/-- A slot of a directory is within its size. -/
theorem Dir.slot_le (h : Dir sb I dp s m) {e : Option (List UInt8 × Nat)}
    (hj : (slots (s.bytes dp))[j]? = some e) : j * DESIZE + DESIZE ≤ (s.inode dp).size := by
  have hlt := (List.getElem?_eq_some_iff.1 hj).1
  have hlen := h.length
  unfold DESIZE at *
  omega

/-- The block of a slot is there. -/
theorem Dir.slot_there (hdp : dp ∈ I) (h : Dir sb I dp s m) {e : Option (List UInt8 × Nat)}
    (hj : (slots (s.bytes dp))[j]? = some e) : s.needs dp (j * DESIZE / BSIZE) = 0 := by
  have hle := h.slot_le hj
  have h0 := (h.wellFormed.addrAt_ne hdp
    (by unfold DESIZE at *; omega : j * DESIZE < (s.inode dp).size)).2
  unfold State.needs
  rw [if_pos h0]

theorem dirlookup_call (hdp : dp ∈ I) (h : Dir sb I dp s m) (c : Prop) (name : List UInt8) :
    ∃ r s', ((DirOp.dirlookup name).call sb dp).run s = .ok r s' ∧
      (DirOp.dirlookup name).Does c (slots (s.bytes dp)) m r (slots (s'.bytes dp)) ∧
      Dir sb I dp s' ((DirOp.dirlookup name).after r m) := by
  rcases dirlookup_run hdp h name with ⟨j, inum, hrun, hj, hm⟩ | ⟨hrun, hm⟩
  · refine ⟨.found (some (inum, j * DESIZE)), s, ?_, .found hm hj, h⟩
    simp only [DirOp.call, run_bind, hrun]
    rfl
  · refine ⟨.found none, s, ?_, .missing hm, h⟩
    simp only [DirOp.call, run_bind, hrun]
    rfl

theorem dirlink_call (L : Layout sb I) (hdp : dp ∈ I) (h : Dir sb I dp s m)
    (hop : (DirOp.dirlink name inum).Valid) :
    ∃ r s', ((DirOp.dirlink name inum).call sb dp).run s = .ok r s' ∧
      (DirOp.dirlink name inum).Does (CannotGrow sb s dp) (slots (s.bytes dp)) m r
        (slots (s'.bytes dp)) ∧
      Dir sb I dp s' ((DirOp.dirlink name inum).after r m) := by
  obtain ⟨h0, hinum⟩ := hop
  obtain ⟨x, hx⟩ : ∃ x, x = Dirent.bytes ⟨inum, strncpy DIRSIZ name⟩ := ⟨_, rfl⟩
  have hxlen : x.length = DESIZE := by
    rw [hx, length_bytes_strncpy]
  have hxslot : (Dirent.ofBytes x).slot = some (nameOf name, inum) := by
    rw [hx, slot_bytes h0 hinum]
  rcases dirlookup_run hdp h name with ⟨j, inum', hrun, -, hm⟩ | ⟨hrun, hm⟩
  · refine ⟨.status (-1), s, ?_, .notLinked (.inl (by rw [hm]; exact Option.some_ne_none _)), h⟩
    simp only [DirOp.call, dirlink, run_bind, hrun]
    rfl
  · obtain ⟨j, hempty, hj⟩ := emptyLoop_run h.wellFormed hdp h.whole
      (by omega : (s.inode dp).size ≤ 0 * DESIZE + (s.inode dp).size) (by omega)
      fun j hj => absurd hj (Nat.not_lt_zero j)
    rw [Nat.zero_mul] at hempty
    have hjle : j * DESIZE ≤ (s.inode dp).size := by
      rcases hj with hj | ⟨hj, -⟩
      · have hle := h.slot_le hj
        omega
      · omega
    have hsize := h.wellFormed.size hdp
    by_cases hmax : j * DESIZE + DESIZE ≤ MAXFILE * BSIZE
    · obtain ⟨r, s', hwrite, hwf, htype, hcase⟩ := writei_entry L hdp h hxlen hjle hmax
      rcases hcase with ⟨hfull, hr, hsame⟩ | ⟨hroom, hr, hnew⟩
      · -- no block for it
        have hno : CannotGrow sb s dp := by
          rcases hj with hj | ⟨hj, hno⟩
          · rw [h.slot_there hdp hj] at hfull
            omega
          · rw [hj] at hfull
            exact ⟨hno, .inr hfull⟩
        have hsize' : (s'.inode dp).size = (s.inode dp).size := by
          rw [← length_bytes, hsame, length_bytes]
        refine ⟨.status (-1), s', ?_, ?_, ⟨hwf, htype, ?_, ?_⟩⟩
        · subst hr
          simp only [DirOp.call, dirlink, run_bind, hrun, run_read, hempty, ← hx, hwrite]
          rfl
        · rw [hsame]
          exact .notLinked (.inr hno)
        · rw [hsize']
          exact h.whole
        · rw [hsame]
          exact h.map
      · have hput := slots_splice (by rw [length_bytes]; exact h.whole)
          (by rw [length_bytes]; exact hjle) hxlen
        rw [← hnew, hxslot, length_bytes] at hput
        have hgrow : ¬ CannotGrow sb s dp := by
          rintro ⟨hno, hc⟩
          rcases hj with hj | ⟨hj, -⟩
          · exact hno j hj
          · rw [hj] at hroom hmax
            omega
        refine ⟨.status 0, s', ?_, .linked hm hgrow ?_ hput.1, ⟨hwf, htype, hput.2, ?_⟩⟩
        · subst hr
          simp only [DirOp.call, dirlink, run_bind, hrun, run_read, hempty, ← hx, hwrite]
          rfl
        · rcases hj with hj | ⟨hj, hno⟩
          · exact .inl hj
          · refine .inr ⟨?_, hno⟩
            have hlen := h.length
            unfold DESIZE at *
            omega
        · refine h.map.put hm (fun e he => ?_) hput.1
          rcases hj with hj | ⟨hj, -⟩
          · rw [hj] at he
            cases he
          · have hle := h.slot_le he
            unfold DESIZE at *
            omega
    · -- the directory is as long as a file can be
      have hno : CannotGrow sb s dp := by
        rcases hj with hj | ⟨hj, hno⟩
        · have hle := h.slot_le hj
          omega
        · exact ⟨hno, .inl (by omega)⟩
      refine ⟨.status (-1), s, ?_, .notLinked (.inr hno), h⟩
      simp only [DirOp.call, dirlink, run_bind, hrun, run_read, hempty,
        writei_rejects h.wellFormed hdp (by decide : DESIZE < 2 ^ 32) fun hc => hmax hc.2]
      rfl

theorem unlink_call (L : Layout sb I) (hdp : dp ∈ I) (h : Dir sb I dp s m) (c : Prop)
    (removable : Nat → Bool) (name : List UInt8) :
    ∃ r s', ((DirOp.unlink removable name).call sb dp).run s = .ok r s' ∧
      (DirOp.unlink removable name).Does c (slots (s.bytes dp)) m r (slots (s'.bytes dp)) ∧
      Dir sb I dp s' ((DirOp.unlink removable name).after r m) := by
  by_cases hdots : DirOp.IsDots name
  · refine ⟨.status (-1), s, ?_, .notRemoved (.inl hdots), h⟩
    simp only [DirOp.call, unlink, if_pos ((namecmp_dots name).2 hdots)]
    rfl
  · have hcmp : ¬ (namecmp name [0x2e] = 0 ∨ namecmp name [0x2e, 0x2e] = 0) := fun hc =>
      hdots ((namecmp_dots name).1 hc)
    rcases dirlookup_run hdp h name with ⟨j, inum, hrun, hj, hm⟩ | ⟨hrun, hm⟩
    · cases hr : removable inum with
      | false =>
        refine ⟨.status (-1), s, ?_, .notRemoved (.inr fun inum' hm' => ?_), h⟩
        · simp only [DirOp.call, unlink, if_neg hcmp, run_bind, hrun, hr]
          rfl
        · rw [hm] at hm'
          cases hm'
          exact hr
      | true =>
        have hle := h.slot_le hj
        have hsize := h.wellFormed.size hdp
        have hzero : (List.replicate DESIZE (0 : UInt8)).length = DESIZE := List.length_replicate
        obtain ⟨n, s', hwrite, hwf, htype, hcase⟩ := writei_entry L hdp h hzero
          (by omega : j * DESIZE ≤ (s.inode dp).size) (by omega)
        rcases hcase with ⟨hfull, -⟩ | ⟨-, hn, hnew⟩
        · -- the block is there
          rw [h.slot_there hdp hj] at hfull
          omega
        · have hjle : j * DESIZE ≤ (s.bytes dp).length := by
            rw [length_bytes]
            omega
          have hput := slots_splice (by rw [length_bytes]; exact h.whole) hjle hzero
          rw [← hnew, slot_zero, length_bytes] at hput
          refine ⟨.status 0, s', ?_, .removed hdots hm hr hj hput.1, ⟨hwf, htype, hput.2, ?_⟩⟩
          · subst hn
            simp only [DirOp.call, unlink, if_neg hcmp, run_bind, hrun, hr]
            simp only [Bool.not_true, Bool.false_eq_true, if_false, run_bind, hwrite]
            rfl
          · exact h.map.clear hj hput.1
    · refine ⟨.status (-1), s, ?_, .notRemoved (.inr fun inum hm' => ?_), h⟩
      · simp only [DirOp.call, unlink, if_neg hcmp, run_bind, hrun]
        rfl
      · rw [hm] at hm'
        cases hm'

/-- A call does what it does to a map, and leaves a directory. -/
theorem DirOp.call_run (L : Layout sb I) (hdp : dp ∈ I) (h : Dir sb I dp s m) {op : DirOp}
    (hop : op.Valid) :
    ∃ r s', (op.call sb dp).run s = .ok r s' ∧
      op.Does (CannotGrow sb s dp) (slots (s.bytes dp)) m r (slots (s'.bytes dp)) ∧
      Dir sb I dp s' (op.after r m) := by
  cases op with
  | dirlookup name => exact dirlookup_call hdp h _ name
  | dirlink name inum => exact dirlink_call L hdp h hop
  | unlink removable name => exact unlink_call L hdp h _ removable name

/-! ## Runs -/

/-- A run of calls on a directory. Between them, others may change everything
but the directory. -/
inductive DirRuns (sb : Superblock) (I : Set Nat) (dp : Nat) (s₀ : State) :
    List (DirOp × DirResult) → State → Prop
  | start : DirRuns sb I dp s₀ [] s₀
  | call {history : List (DirOp × DirResult)} {s s' : State} {op : DirOp} {r : DirResult}
      (hruns : DirRuns sb I dp s₀ history s) (hop : op.Valid)
      (hcall : (op.call sb dp).run s = .ok r s') : DirRuns sb I dp s₀ (history ++ [(op, r)]) s'
  | elsewhere {history : List (DirOp × DirResult)} {s s' : State}
      (hruns : DirRuns sb I dp s₀ history s) (hwf : WellFormed sb I s')
      (hbytes : s'.bytes dp = s.bytes dp) (htype : (s'.inode dp).type = (s.inode dp).type) :
      DirRuns sb I dp s₀ history s'

/-- Every name with the number of the last link of it that was made, if it has
not been removed since. -/
def mapAfter (history : List (DirOp × DirResult)) (m₀ : List UInt8 → Option Nat) :
    List UInt8 → Option Nat :=
  history.foldl (fun m c => c.1.after c.2 m) m₀

theorem DirRuns.dir (L : Layout sb I) (hdp : dp ∈ I) (h : Dir sb I dp s₀ m₀)
    {history : List (DirOp × DirResult)} (hruns : DirRuns sb I dp s₀ history s) :
    Dir sb I dp s (mapAfter history m₀) := by
  induction hruns with
  | start => exact h
  | call hruns hop hcall ih =>
    obtain ⟨r, s', hrun, -, hdir⟩ := DirOp.call_run L hdp ih hop
    cases hcall.symm.trans hrun
    unfold mapAfter at hdir ⊢
    rw [List.foldl_append]
    exact hdir
  | elsewhere hruns hwf hbytes htype ih =>
    refine ⟨hwf, htype.trans ih.type, ?_, ?_⟩
    · rw [← length_bytes, hbytes, length_bytes]
      exact ih.whole
    · rw [hbytes]
      exact ih.map

/-- A directory is a map from names to inode numbers: no two entries have one
name, and each call does what it does to the map, also with names of `DIRSIZ`
bytes, which have no NUL. -/
theorem directory_is_map (L : Layout sb I) (hdp : dp ∈ I) (h : Dir sb I dp s₀ m₀)
    {history : List (DirOp × DirResult)} (hruns : DirRuns sb I dp s₀ history s) :
    Dir sb I dp s (mapAfter history m₀) ∧
      (∀ op : DirOp, op.Valid → ∃ r s', (op.call sb dp).run s = .ok r s' ∧
        op.Does (CannotGrow sb s dp) (slots (s.bytes dp)) (mapAfter history m₀) r
          (slots (s'.bytes dp))) ∧
      ∀ name : List UInt8, (0 : UInt8) ∉ name.take DIRSIZ → nameOf name = name.take DIRSIZ := by
  have hdir := hruns.dir L hdp h
  refine ⟨hdir, fun op hop => ?_, fun name h0 => nameOf_full h0⟩
  obtain ⟨r, s', hrun, hdoes, -⟩ := DirOp.call_run L hdp hdir hop
  exact ⟨r, s', hrun, hdoes⟩

/-- The small disk with directories in place of its files. -/
def twoDirs : State :=
  { twoFiles with inode := fun i => { twoFiles.inode i with type := T_DIR } }

theorem twoDirs_dir : Dir twoFilesDisk {1, 2} 1 twoDirs fun _ => none := by
  refine ⟨⟨twoFiles_wellFormed.blocks.congr (fun _ _ => rfl) fun _ => rfl,
    twoFiles_wellFormed.size, twoFiles_wellFormed.holeFree⟩, rfl, rfl, ?_⟩
  have hslots : slots (twoDirs.bytes 1) = [] := rfl
  rw [hslots]
  refine ⟨fun hj => ?_, fun {c v} => ⟨fun hc => ?_, fun ⟨k, hk⟩ => ?_⟩⟩
  · cases hj
  · cases hc
  · cases hk

theorem directory_is_map_twoDirs : ∃ s, DirRuns twoFilesDisk {1, 2} 1 twoDirs
      [(.dirlink (List.replicate 14 0x61) 2, .status 0)] s ∧
    Dir twoFilesDisk {1, 2} 1 s
      (mapAfter [(.dirlink (List.replicate 14 0x61) 2, .status 0)] fun _ => none) := by
  have hop : (DirOp.dirlink (List.replicate 14 0x61) 2).Valid := ⟨by decide, by decide⟩
  obtain ⟨r, s, hrun, hdoes, -⟩ := DirOp.call_run twoFilesDisk_layout (.inl rfl) twoDirs_dir hop
  have hgrow : ¬ CannotGrow twoFilesDisk twoDirs 1 := by
    rintro ⟨-, hsize | hfull⟩
    · exact absurd hsize (by decide)
    · exact absurd hfull (by decide +kernel)
  have hr := hdoes.links rfl hgrow
  subst hr
  have hruns : DirRuns twoFilesDisk {1, 2} 1 twoDirs [(_, _)] s := .call .start hop hrun
  exact ⟨s, hruns, (directory_is_map twoFilesDisk_layout (.inl rfl) twoDirs_dir hruns).1⟩

end Xv6.FileSystem
