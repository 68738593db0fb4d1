/-
mkfs.c: the exact condition for a well-formed image.
-/
import Xv6.MkfsImage

namespace Xv6.Mkfs

open Fs

variable {s s' : State} {ino : Nat → Dinode} {c : Nat → List UInt8} {i j n : Nat}
  {args : List Arg} {a : Arg}

/-! ## The end of `main` -/

/-- What was run has put the contents on the disk. -/
theorem run_disk (ops : List Op) (h : Disk s ino c) (hnew : ∀ i, s.freeinode ≤ i → c i = [])
    (hv : Valid s.freeinode ops) (hino : freeinode s.freeinode ops ≤ maxInodes)
    (hrun : ops.foldlM Op.run s = .ok s') : ∃ ino', Disk s' ino' fun i => c i ++ content i ops := by
  induction ops generalizing s ino c with
  | nil =>
    obtain rfl := Except.ok.inj hrun
    refine ⟨ino, ?_⟩
    simp only [content, List.append_nil]
    exact h
  | cons op ops ih =>
    rw [List.foldlM_cons] at hrun
    cases op with
    | ialloc type =>
      have hfi : s.freeinode < maxInodes :=
        Nat.lt_of_lt_of_le (freeinode_le (s.freeinode + 1) ops) hino
      obtain ⟨s₁, din, hs₁, hd, hfi₁, -⟩ := ialloc_spec h hfi type.toNat_lt
      have hc : Function.update c s.freeinode [] = c := by
        rw [← hnew _ (Nat.le_refl _)]
        exact Function.update_eq_self _ c
      have hrun : (s.ialloc type.toNat).map Prod.snd >>= _ = Except.ok s' := hrun
      rw [hs₁] at hrun
      rw [hc] at hd
      exact ih hd (fun i hi => hnew i (by omega)) (hfi₁ ▸ hv) (hfi₁ ▸ hino) hrun
    | iappend inum p =>
      obtain ⟨hlow, hlt, hv⟩ := hv
      have hrun : s.iappend inum p >>= _ = Except.ok s' := hrun
      have hspec := iappend_spec (p := p) h ⟨hlow, hlt⟩
      cases happend : s.iappend inum p with
      | error e =>
        rw [happend] at hrun
        cases hrun
      | ok s₁ =>
        rw [happend] at hspec hrun
        obtain ⟨⟨din, hd⟩, hfi₁, -⟩ := hspec
        obtain ⟨ino', hd'⟩ := ih hd (fun i hi => by
          rw [hfi₁] at hi
          rw [Function.update_of_ne (by omega)]
          exact hnew i hi) (hfi₁ ▸ hv) (hfi₁ ▸ hino) hrun
        refine ⟨ino', ?_⟩
        convert hd' using 1
        funext i
        simp only [content]
        by_cases hi : inum = i
        · rw [if_pos hi, ← hi, Function.update_self, List.append_assoc]
        · rw [if_neg hi, Function.update_of_ne (Ne.symm hi)]

/-- What the end of `main` makes of the files on the disk. -/
structure Final (s s' : State) (ino : Nat → Dinode) (c : Nat → List UInt8) : Prop where
  disk : Disk s ino c
  root : s.Inum ROOTINO
  freeinode : s'.freeinode = s.freeinode
  addr : ∀ i k, s.Inum i → s'.addr i k = addrAt s.image (ino i) k
  size : ∀ i, s.Inum i → i ≠ ROOTINO → (s'.inode i).size = (c i).length
  rootSize : (s'.inode ROOTINO).size = ((c ROOTINO).length / BSIZE + 1) * BSIZE
  image : ∀ b, nmeta ≤ b → s'.image b = s.image b
  bitmap : s'.image sb.bmapstart = (List.range s.freeblock).foldl Bytes.setBit Bytes.zero

theorem finish_spec (h : Disk s ino c) (hroot : s.Inum ROOTINO) :
    ∃ s', finish ROOTINO s = .ok s' ∧ Final s s' ino c := by
  have hsz := h.size _ hroot
  have hmax := h.max _ hroot
  have hhigh := h.files.high
  have himax := Nat.lt_of_lt_of_le hroot.2 h.freeinode.2
  generalize hd : ({ ino ROOTINO with
    size := ((ino ROOTINO).size / BSIZE + 1) * BSIZE } : Dinode) = din
  have hfits : din.Fits := by
    obtain ⟨hshorts, -, haddrs⟩ := h.fits _ hroot
    subst hd
    refine ⟨hshorts, ?_, haddrs⟩
    show ((ino ROOTINO).size / BSIZE + 1) * BSIZE < 2 ^ 32
    have hm : MAXFILE * BSIZE = 274432 := by decide
    unfold BSIZE at hmax hm ⊢
    omega
  have hbm : sb.bmapstart < FSSIZE := Nat.lt_trans bmapstart_lt nmeta_lt
  generalize hs' : ({ s with
    image := Function.update (Function.update s.image (IBLOCK ROOTINO)
        (putDinode (s.image (IBLOCK ROOTINO)) (ROOTINO % IPB * 64) din)) sb.bmapstart
      ((List.range s.freeblock).foldl Bytes.setBit Bytes.zero) } : State) = s'
  have himg : ∀ b, nmeta ≤ b → s'.image b = s.image b := fun b hb => by
    rw [← hs']
    exact (Function.update_of_ne (Nat.ne_of_gt (Nat.lt_of_lt_of_le bmapstart_lt hb)) _ _).trans
      (Function.update_of_ne (Nat.ne_of_gt (Nat.lt_of_lt_of_le (IBLOCK_lt himax) hb)) _ _)
  have hinode : ∀ i, s.Inum i → s'.inode i = if i = ROOTINO then din else ino i := fun i hi => by
    have hib := (IBLOCK_range (Nat.lt_of_lt_of_le hi.2 h.freeinode.2)).2
    have hsame : s'.image (IBLOCK i) = Function.update s.image (IBLOCK ROOTINO)
        (putDinode (s.image (IBLOCK ROOTINO)) (ROOTINO % IPB * 64) din) (IBLOCK i) := by
      rw [← hs']
      exact Function.update_of_ne (Nat.ne_of_lt hib) _ _
    unfold State.inode
    rw [hsame, getDinode_winode hfits, h.dinode i hi]
  refine ⟨s', ?_, h, hroot, by rw [← hs'], fun i k hi => ?_, fun i hi hne => ?_, ?_, himg, ?_⟩
  · unfold finish
    rw [rinode_spec h hroot]
    simp only [bind, Except.bind]
    rw [hd, winode_eq h.files.length himax]
    dsimp only
    unfold State.balloc
    rw [if_pos (by unfold BSIZE; unfold FSSIZE at hhigh; omega)]
    exact congrArg Except.ok ((wsect_of_lt (by exact h.files.length) hbm _).trans hs')
  · have haddrs : (s'.inode i).addrs = (ino i).addrs := by
      rw [hinode i hi]
      split
      next he => rw [he, ← hd]
      next => rfl
    have he : s'.addr i k = addrAt s'.image (ino i) k := by
      unfold State.addr addrAt
      rw [haddrs]
    rw [he]
    exact addrAt_congr fun hne => himg _ (h.files.range i _ hi (by decide) hne).1
  · rw [hinode i hi, if_neg hne]
    exact h.size i hi
  · rw [hinode _ hroot, if_pos rfl, ← hd, ← hsz]
  · rw [← hs']
    exact Function.update_self sb.bmapstart _ (Function.update s.image (IBLOCK ROOTINO)
      (putDinode (s.image (IBLOCK ROOTINO)) (ROOTINO % IPB * 64) din))

/-! ## Blocks and the bitmap -/

theorem getBit_range (n b : Nat) :
    ((List.range n).foldl Bytes.setBit Bytes.zero).getBit b = decide (b < n) := by
  induction n with
  | zero => simp [Bytes.getBit, Bytes.zero]
  | succ n ih =>
    rw [List.range_succ, List.foldl_append, List.foldl_cons, List.foldl_nil, Bytes.getBit_setBit,
      ih, ← Bool.decide_or, decide_eq_decide]
    omega

theorem Final.inum (h : Final s s' ino c) : s'.Inum i ↔ s.Inum i := by
  unfold State.Inum
  rw [h.freeinode]

/-- A block of the content is in a place that is used. -/
theorem lt_places {len bn : Nat} : place bn < places len ↔ bn * BSIZE < len := by
  have hq : bn < (len + BSIZE - 1) / BSIZE ↔ bn * BSIZE < len := by
    unfold BSIZE
    omega
  rw [← hq]
  unfold place places
  split <;> split <;> omega

/-- Only the root directory may have a size that is too large. -/
theorem Final.allocated_iff (h : Final s s' ino c) :
    (∀ i bn, s'.Inum i → bn * BSIZE < (s'.inode i).size →
      bn < MAXFILE ∧ s'.addr i (place bn) ≠ 0) ↔ (c ROOTINO).length % BSIZE ≠ 0 := by
  have huse : ∀ i bn, s.Inum i → bn < MAXFILE →
      (s'.addr i (place bn) ≠ 0 ↔ bn * BSIZE < (c i).length) := fun i bn hi hbn => by
    rw [h.addr i _ hi, h.disk.files.used i _ hi (place_lt hbn), lt_places]
  have hmax : ∀ i bn, s.Inum i → bn * BSIZE < (c i).length → bn < MAXFILE := fun i bn hi hlt => by
    have hm := h.disk.max i hi
    unfold BSIZE at hlt hm
    omega
  constructor
  · intro hall hmod
    have hbn : (c ROOTINO).length = (c ROOTINO).length / BSIZE * BSIZE := by
      unfold BSIZE at hmod ⊢
      omega
    obtain ⟨hlt, hne⟩ := hall ROOTINO ((c ROOTINO).length / BSIZE) (h.inum.2 h.root) (by
      rw [h.rootSize]
      unfold BSIZE
      omega)
    have hlt' := (huse ROOTINO _ h.root hlt).1 hne
    omega
  · intro hmod i bn hi hlt
    rw [h.inum] at hi
    have hlt' : bn * BSIZE < (c i).length := by
      by_cases hr : i = ROOTINO
      · rw [hr, h.rootSize] at hlt
        rw [hr]
        unfold BSIZE at hlt hmod ⊢
        omega
      · rw [h.size i hi hr] at hlt
        exact hlt
    have hbn := hmax i bn hi hlt'
    exact ⟨hbn, (huse i bn hi hbn).2 hlt'⟩

/-- The bytes of a file are its content, followed by zeroes. -/
theorem Final.byte (h : Final s s' ino c) (hi : s.Inum i) {o : Nat} (ho : o / BSIZE < MAXFILE) :
    s'.byte i o = (c i).getD o 0 := by
  unfold State.byte
  rw [h.addr i _ hi]
  have hmod : o % BSIZE < BSIZE := Nat.mod_lt _ (by decide)
  have heq : o / BSIZE * BSIZE + o % BSIZE = o := by
    unfold BSIZE
    omega
  split
  next hz =>
    have hle : ¬o / BSIZE * BSIZE < (c i).length := fun hlt =>
      (h.disk.files.used i _ hi (place_lt ho)).2 (lt_places.2 hlt) hz
    exact (List.getD_eq_default _ _ (by omega)).symm
  next hne =>
    rw [h.image _ (h.disk.files.range i _ hi (place_lt ho) hne).1,
      h.disk.files.bytes i _ _ hi ho hne hmod, heq]

/-! ## The root directory -/

def argEntries : (inum : Nat) → List Arg → List (Nat × List UInt8)
  | _, [] => []
  | inum, a :: args => (inum, a.shortname) :: argEntries (inum + 1) args

/-- The entries of the root directory. -/
def entries (args : List Arg) : List (Nat × List UInt8) :=
  (ROOTINO, [46]) :: (ROOTINO, [46, 46]) :: argEntries 2 args

/-- The names in the root directory. -/
def names (args : List Arg) : List (List UInt8) :=
  [46] :: [46, 46] :: args.map fun a => a.shortname.take DIRSIZ

theorem content_append (i : Nat) (ops ops' : List Op) :
    content i (ops ++ ops') = content i ops ++ content i ops' := by
  induction ops with
  | nil => rfl
  | cons op ops ih =>
    cases op with
    | ialloc type => exact ih
    | iappend inum p =>
      simp only [List.cons_append, content, ih]
      split
      next => exact (List.append_assoc _ _ _).symm
      next => rfl

theorem content_argOps {inum : Nat} (h : 2 ≤ inum) (args : List Arg) :
    content ROOTINO (argOps inum args) =
      ((argEntries inum args).map fun e => dirent e.1 e.2).flatten := by
  have hne : inum ≠ ROOTINO := fun e => by
    unfold ROOTINO at e
    omega
  induction args generalizing inum with
  | nil => rfl
  | cons a args ih =>
    have hfile : ∀ l : List Chunk, content ROOTINO (l.map fun p => .iappend inum p.1) = [] := by
      intro l
      induction l with
      | nil => rfl
      | cons p l ihl =>
        simp only [List.map_cons, content]
        rw [if_neg hne, ihl]
    simp only [argOps, fileOps, List.cons_append, content, if_true, argEntries, List.map_cons,
      List.flatten_cons]
    rw [content_append, hfile, List.nil_append,
      ih (Nat.le_succ_of_le h) fun e => by unfold ROOTINO at e; omega]

theorem content_root (args : List Arg) : content ROOTINO (mainOps args) =
    ((entries args).map fun e => dirent e.1 e.2).flatten := by
  simp only [mainOps, content, if_true, entries, List.map_cons, List.flatten_cons]
  rw [content_argOps (Nat.le_refl 2)]

theorem valid_argOps {fi inum : Nat} (h : 2 ≤ fi) (hi : inum = fi) (args : List Arg) :
    Valid fi (argOps inum args) := by
  have happ : ∀ {fi : Nat} {ops ops' : List Op}, Valid fi ops → Valid (freeinode fi ops) ops' →
      Valid fi (ops ++ ops') := by
    intro fi ops ops' hv hv'
    induction ops generalizing fi with
    | nil => exact hv'
    | cons op ops ih =>
      cases op with
      | ialloc type => exact ih hv hv'
      | iappend inum p => exact ⟨hv.1, hv.2.1, ih hv.2.2 hv'⟩
  induction args generalizing fi inum with
  | nil => trivial
  | cons a args ih =>
    subst hi
    have hfile : ∀ l : List Chunk, Valid (inum + 1) (l.map fun p => .iappend inum p.1) := by
      intro l
      induction l with
      | nil => trivial
      | cons p l ihl => exact ⟨by omega, Nat.lt_succ_self inum, ihl⟩
    refine happ ⟨Nat.le_refl 1, ?_, hfile _⟩ ?_
    · show 1 < inum + 1
      omega
    · rw [freeinode_fileOps]
      exact ih (Nat.le_succ_of_le h) rfl

theorem valid_mainOps (args : List Arg) : Valid 1 (mainOps args) :=
  ⟨Nat.le_refl 1, by decide, Nat.le_refl 1, by decide, valid_argOps (Nat.le_refl 2) rfl args⟩

theorem length_padName (name : List UInt8) : (padName name).length = DIRSIZ := by
  unfold padName
  rw [List.length_append, List.length_take, List.length_replicate]
  omega

theorem length_dirent (inum : Nat) (name : List UInt8) : (dirent inum name).length = 16 := by
  simp only [dirent, List.length_cons, length_padName, DIRSIZ]

theorem length_argEntries (inum : Nat) (args : List Arg) :
    (argEntries inum args).length = args.length := by
  induction args generalizing inum with
  | nil => rfl
  | cons a args ih => simp only [argEntries, List.length_cons, ih]

theorem length_entries (args : List Arg) : (entries args).length = args.length + 2 := by
  simp only [entries, List.length_cons, length_argEntries]

theorem entries_names (args : List Arg) :
    (entries args).map (fun e => e.2.take DIRSIZ) = names args := by
  have harg : ∀ inum, (argEntries inum args).map (fun e => e.2.take DIRSIZ) =
      args.map fun a => a.shortname.take DIRSIZ := by
    induction args with
    | nil => exact fun _ => rfl
    | cons a args ih => exact fun inum => by simp only [argEntries, List.map_cons, ih]
  simp only [entries, List.map_cons, harg, names]
  rfl

theorem shortname_ne (a : Arg) : 0 ∉ a.shortname := by
  have hdir : 0 ∉ stripDir a.path.1 := by
    unfold stripDir
    split
    next => exact fun h => a.path.2 (List.mem_of_mem_drop h)
    next => exact a.path.2
  unfold Arg.shortname stripMark
  split
  next => exact fun h => hdir (List.mem_of_mem_tail h)
  next => exact hdir

theorem argEntries_mem {e : Nat × List UInt8} (args : List Arg) {inum : Nat}
    (h : e ∈ argEntries inum args) : (inum ≤ e.1 ∧ e.1 < inum + args.length) ∧ 0 ∉ e.2 := by
  induction args generalizing inum with
  | nil => exact nomatch h
  | cons a args ih =>
    rw [List.length_cons]
    rcases List.mem_cons.1 h with rfl | h
    · exact ⟨⟨Nat.le_refl inum, by omega⟩, shortname_ne a⟩
    · obtain ⟨hr, hz⟩ := ih h
      exact ⟨by omega, hz⟩

/-- The numbers and the names in the entries. -/
theorem entries_mem {e : Nat × List UInt8} (h : e ∈ entries args) :
    (1 ≤ e.1 ∧ e.1 < args.length + 2) ∧ 0 ∉ e.2 := by
  have hroot : ROOTINO = 1 := rfl
  rcases List.mem_cons.1 h with rfl | h
  · exact ⟨by omega, by decide⟩
  rcases List.mem_cons.1 h with rfl | h
  · exact ⟨by omega, by decide⟩
  obtain ⟨hr, hz⟩ := argEntries_mem args h
  exact ⟨by omega, hz⟩

/-- A byte of an entry. -/
theorem getD_flatten (L : List (List UInt8)) (hL : ∀ l ∈ L, l.length = 16) (j : Nat) {t : Nat}
    (ht : t < 16) : L.flatten.getD (16 * j + t) 0 = (L.getD j []).getD t 0 := by
  induction L generalizing j with
  | nil => simp
  | cons l L ih =>
    have hl := hL l List.mem_cons_self
    rw [List.flatten_cons]
    cases j with
    | zero =>
      rw [List.getD_append _ _ _ _ (by omega), Nat.mul_zero, Nat.zero_add, List.getD_cons_zero]
    | succ j =>
      rw [List.getD_append_right _ _ _ _ (by omega), List.getD_cons_succ,
        show 16 * (j + 1) + t - l.length = 16 * j + t by omega]
      exact ih (fun l' hl' => hL l' (List.mem_cons_of_mem l hl')) j

/-- A name that is padded is found again. -/
theorem takeWhile_padName {name : List UInt8} (h : 0 ∉ name) :
    (padName name).takeWhile (· ≠ 0) = name.take DIRSIZ := by
  have hmem : ∀ b ∈ name.take DIRSIZ, decide (b ≠ 0) = true := fun b hb => by
    rw [decide_eq_true_iff]
    rintro rfl
    exact h (List.mem_of_mem_take hb)
  unfold padName
  rw [List.takeWhile_append_of_pos hmem]
  cases DIRSIZ - name.length <;> simp [List.replicate_succ]

/-- The files on the disk are those of the command line. -/
structure Root (c : Nat → List UInt8) (args : List Arg) : Prop where
  content : c ROOTINO = ((entries args).map fun e => dirent e.1 e.2).flatten
  few : args.length + 2 ≤ NINODES

theorem Root.length (h : Root c args) : (c ROOTINO).length = 16 * (args.length + 2) := by
  rw [h.content, List.length_flatten, List.map_map, ← length_entries args]
  induction entries args with
  | nil => rfl
  | cons e es ih =>
    simp only [List.map_cons, List.sum_cons, Function.comp_apply, length_dirent, ih,
      List.length_cons]
    omega

/-- The bytes of an entry of the root directory. -/
theorem Root.byte (hf : Final s s' ino c) (h : Root c args) {t : Nat} (ht : t < 16)
    (hj : 16 * j < (s'.inode ROOTINO).size) : s'.byte ROOTINO (16 * j + t) =
      (((entries args).map fun e => dirent e.1 e.2).getD j []).getD t 0 := by
  have hlen := h.length
  have hfew := h.few
  rw [hf.rootSize, hlen] at hj
  rw [hf.byte hf.root, h.content]
  · refine getD_flatten _ (fun l hl => ?_) j ht
    obtain ⟨e, -, rfl⟩ := List.mem_map.1 hl
    exact length_dirent _ _
  · have hm : MAXFILE = 268 := by decide
    have hn : NINODES = 200 := by decide
    rw [hm]
    unfold BSIZE at hj ⊢
    omega

theorem getD_dirents (hj : j < (entries args).length) :
    ((entries args).map fun e => dirent e.1 e.2).getD j [] =
      dirent (entries args)[j].1 (entries args)[j].2 := by
  have hl : j < ((entries args).map fun e => dirent e.1 e.2).length := by
    rw [List.length_map]
    exact hj
  rw [List.getD_eq_getElem _ _ hl, List.getElem_map]

theorem Root.entry (hf : Final s s' ino c) (h : Root c args)
    (hj : 16 * j < (s'.inode ROOTINO).size) :
    s'.entryInum j ≠ 0 ↔ j < (entries args).length := by
  have hb : ∀ t, t < 16 → _ := fun t ht => h.byte hf ht hj
  have h₀ := hb 0 (by omega)
  have h₁ := hb 1 (by omega)
  unfold State.entryInum
  rw [Nat.add_zero] at h₀
  rw [h₀, h₁]
  by_cases hlt : j < (entries args).length
  · have hmem := entries_mem (List.getElem_mem hlt)
    have hfew := h.few
    have hn : NINODES = 200 := by decide
    rw [getD_dirents hlt]
    refine iff_of_true ?_ hlt
    show (UInt8.ofNat (entries args)[j].1).toNat +
      256 * (UInt8.ofNat ((entries args)[j].1 / 256)).toNat ≠ 0
    rw [UInt8.toNat_ofNat', UInt8.toNat_ofNat']
    omega
  · have hl : ((entries args).map fun e => dirent e.1 e.2).length ≤ j := by
      rw [List.length_map]
      omega
    rw [List.getD_eq_default _ _ hl]
    exact iff_of_false (fun e => e rfl) hlt

theorem Root.name (hf : Final s s' ino c) (h : Root c args)
    (hj : 16 * j < (s'.inode ROOTINO).size) (hlt : j < (entries args).length) :
    s'.entryName j = (entries args)[j].2.take DIRSIZ := by
  have hpad : ((List.range DIRSIZ).map fun t => s'.byte ROOTINO (16 * j + 2 + t)) =
      padName (entries args)[j].2 := by
    refine List.ext_getElem (by simp [length_padName]) fun t ht ht' => ?_
    rw [length_padName] at ht'
    have ht'' : t < 14 := ht'
    rw [List.getElem_map, List.getElem_range, Nat.add_assoc, h.byte hf (by omega) hj,
      getD_dirents hlt, Nat.add_comm 2 t]
    exact List.getD_eq_getElem (padName (entries args)[j].2) 0 (by rw [length_padName]; exact ht')
  unfold State.entryName
  rw [hpad]
  exact takeWhile_padName (entries_mem (List.getElem_mem hlt)).2

/-- Entries have different names if and only if the names are different. -/
theorem Root.names_iff (hf : Final s s' ino c) (h : Root c args) :
    (∀ j j', 16 * j < (s'.inode ROOTINO).size → 16 * j' < (s'.inode ROOTINO).size →
      s'.entryInum j ≠ 0 → s'.entryInum j' ≠ 0 → s'.entryName j = s'.entryName j' → j = j') ↔
    (names args).Nodup := by
  have hsize : ∀ j, j < (entries args).length → 16 * j < (s'.inode ROOTINO).size := fun j hj => by
    rw [hf.rootSize, h.length]
    rw [length_entries] at hj
    unfold BSIZE
    omega
  rw [← entries_names]
  constructor
  · intro hall
    rw [List.nodup_iff_injective_get]
    rintro ⟨j, hj⟩ ⟨j', hj'⟩ he
    rw [List.length_map] at hj hj'
    simp only [List.get_eq_getElem, List.getElem_map] at he
    have hs := hsize j hj
    have hs' := hsize j' hj'
    refine Fin.ext (hall j j' hs hs' ((h.entry hf hs).2 hj) ((h.entry hf hs').2 hj') ?_)
    rw [h.name hf hs hj, h.name hf hs' hj']
    exact he
  · intro hnd j j' hs hs' hj hj' he
    rw [h.entry hf hs] at hj
    rw [h.entry hf hs'] at hj'
    rw [h.name hf hs hj, h.name hf hs' hj'] at he
    have hl : ∀ {j}, j < (entries args).length →
        j < ((entries args).map fun e => e.2.take DIRSIZ).length := by
      intro j hj
      rw [List.length_map]
      exact hj
    have hl₁ := hl hj
    have hl₂ := hl hj'
    have hget : ((entries args).map fun e => e.2.take DIRSIZ)[j] =
        ((entries args).map fun e => e.2.take DIRSIZ)[j'] := by
      rw [List.getElem_map, List.getElem_map]
      exact he
    exact hnd.getElem_inj_iff.1 hget

/-! ## The condition -/

/-- The files and `.` and `..` have names of their own, there are enough
inodes, and the root directory does not end with a block. -/
def Fine (args : List Arg) : Prop :=
  args.length + 2 ≤ NINODES ∧ (args.length + 2) % (BSIZE / 16) ≠ 0 ∧ (names args).Nodup

theorem Root.fine_iff (hf : Final s s' ino c) (h : Root c args)
    (hfi : s.freeinode = args.length + 2) : WellFormed s' ↔ Fine args := by
  have hb := hf.disk.files
  have hmod : (c ROOTINO).length % BSIZE ≠ 0 ↔ (args.length + 2) % (BSIZE / 16) ≠ 0 := by
    rw [h.length]
    unfold BSIZE
    omega
  constructor
  · intro hw
    exact ⟨h.few, hmod.1 (hf.allocated_iff.1 hw.allocated), (h.names_iff hf).1 hw.names⟩
  · rintro ⟨-, hdir, hnames⟩
    refine ⟨hf.allocated_iff.2 (hmod.2 hdir), fun i k i' k' hi hk hi' hk' => ?_,
      fun i k hi hk => ?_, fun b hb' => ?_, fun i hi => ?_, (h.names_iff hf).2 hnames⟩
    · rw [hf.inum] at hi hi'
      rw [hf.addr i k hi, hf.addr i' k' hi']
      exact hb.inj i k i' k' hi hk hi' hk'
    · rw [hf.inum] at hi
      rw [hf.addr i k hi]
      intro hne
      obtain ⟨hlow, hlt⟩ := hb.range i k hi hk hne
      exact ⟨hlow, Nat.lt_of_lt_of_le hlt hb.high⟩
    · rw [hf.bitmap, getBit_range, decide_eq_true_iff]
      constructor
      · intro hlt
        rcases Nat.lt_or_ge b nmeta with hm | hm
        · exact .inl hm
        · obtain ⟨i, k, hi, hk, he⟩ := hb.onto b hm hlt
          exact .inr ⟨i, k, hf.inum.2 hi, hk, (hf.addr i k hi).trans he⟩
      · rintro (hm | ⟨i, k, hi, hk, he⟩)
        · exact Nat.lt_of_lt_of_le hm hb.low
        · rw [hf.inum] at hi
          rw [hf.addr i k hi] at he
          by_cases hz : b = 0
          · rw [hz]
            exact Nat.lt_of_lt_of_le nmeta_pos hb.low
          · rw [← he]
            exact (hb.range i k hi hk (by rw [he]; exact hz)).2
    · rw [hf.inum] at hi
      have hlt := hi.2
      have hfew := h.few
      show i < NINODES
      omega

/-- What `main` leaves, if there are not too many files. -/
theorem main_final (hmain : main args = .ok s') (hfew : args.length + 2 ≤ NINODES) :
    ∃ s ino c, Final s s' ino c ∧ Root c args ∧ s.freeinode = args.length + 2 := by
  obtain ⟨-, s, hs, hfin⟩ := main_ok_iff.1 hmain
  have hblank : blank.freeinode = 1 := by rw [blank_eq]
  have hfi : s.freeinode = args.length + 2 := by
    rw [run_freeinode hs, hblank, freeinode_mainOps]
  have hmax : NINODES ≤ maxInodes := by decide
  obtain ⟨ino, hd⟩ := run_disk (mainOps args) (blank_disk fun _ => ⟨0, 0, 0, 0, 0, fun _ => 0⟩)
    (fun _ _ => rfl) (by rw [hblank]; exact valid_mainOps args)
    (by rw [hblank, freeinode_mainOps]; omega) hs
  obtain ⟨s₁, hs₁, hf⟩ := finish_spec hd ⟨Nat.le_refl 1, by rw [hfi]; unfold ROOTINO; omega⟩
  obtain rfl := Except.ok.inj (hfin.symm.trans hs₁)
  exact ⟨s, ino, _, hf, ⟨(List.nil_append _).trans (content_root args), hfew⟩, hfi⟩

theorem wellFormed_few (hmain : main args = .ok s') (hfew : args.length + 2 ≤ NINODES) :
    WellFormed s' ↔ Fine args := by
  obtain ⟨s, ino, c, hf, hr, hfi⟩ := main_final hmain hfew
  exact hr.fine_iff hf hfi

theorem main_freeinode (hmain : main args = .ok s) : s.freeinode = args.length + 2 := by
  obtain ⟨-, s₁, hs, hfin⟩ := main_ok_iff.1 hmain
  have hblank : blank.freeinode = 1 := by rw [blank_eq]
  have hfi : s₁.freeinode = args.length + 2 := by
    rw [run_freeinode hs, hblank, freeinode_mainOps]
  rw [← hfi]
  unfold finish at hfin
  cases hr : s₁.rinode ROOTINO with
  | error e =>
    rw [hr] at hfin
    exact nomatch hfin
  | ok din =>
    rw [hr] at hfin
    simp only [bind, Except.bind] at hfin
    cases hw : s₁.winode ROOTINO { din with size := (din.size / BSIZE + 1) * BSIZE } with
    | error e =>
      rw [hw] at hfin
      exact nomatch hfin
    | ok s₂ =>
      rw [hw] at hfin
      dsimp only at hfin
      unfold State.balloc at hfin
      split at hfin
      next =>
        obtain rfl := Except.ok.inj hfin
        have hfi := winode_freeinode hw
        exact hfi
      next => exact nomatch hfin

/-- Where there is room for the files, `mkfs` exits with status 0. -/
theorem main_ok (hok : ∀ a ∈ args, a.Ok) (hfew : args.length + 2 ≤ maxInodes)
    (hfile : ∀ i, (content i (mainOps args)).length ≤ MAXFILE * BSIZE)
    (hroom : nmeta + blocks (args.length + 2) (fun i => content i (mainOps args)) ≤ FSSIZE) :
    ∃ s, main args = .ok s := by
  have hblank : blank.freeinode = 1 := by rw [blank_eq]
  have hblocks : blocks blank.freeinode (fun _ => []) = 0 := by
    rw [hblank]
    rfl
  obtain ⟨s, ino, hs, hd, hfi⟩ := run_spec (mainOps args)
    (blank_disk fun _ => ⟨0, 0, 0, 0, 0, fun _ => 0⟩) (fun _ _ => rfl)
    (by rw [hblocks, blank_eq, Nat.add_zero]) (by rw [hblank]; exact valid_mainOps args)
    (by rw [hblank, freeinode_mainOps]; exact hfew) hfile
    (by rw [hblank, freeinode_mainOps]; exact hroom)
  rw [hblank, freeinode_mainOps] at hfi
  obtain ⟨s', hs', -⟩ := finish_spec hd ⟨Nat.le_refl 1, by rw [hfi]; unfold ROOTINO; omega⟩
  exact ⟨s', main_ok_iff.2 ⟨hok, s, hs, hs'⟩⟩

/-- Where `mkfs` exits with status 0, the image is well formed if and only if
the command line is fine. -/
theorem wellFormed_iff (hmain : main args = .ok s) : WellFormed s ↔ Fine args := by
  by_cases hfew : args.length + 2 ≤ NINODES
  · exact wellFormed_few hmain hfew
  · refine iff_of_false (fun hw => ?_) fun hfine => hfew hfine.1
    -- the last file has a number that is too large
    have hfi := main_freeinode hmain
    have hlt : args.length + 1 < NINODES :=
      hw.inums (args.length + 1) ⟨by omega, by rw [hfi]; omega⟩
    omega

/-- `cat`, with one byte. -/
def oneFile : List Arg := [⟨⟨[99, 97, 116], by decide⟩, some [⟨[120], by decide⟩]⟩]

theorem wellFormed_iff_oneFile : ∃ s, main oneFile = .ok s ∧ WellFormed s := by
  obtain ⟨s, hs⟩ : ∃ s, main oneFile = .ok s := main_ok (by
      intro a ha
      obtain rfl := List.mem_singleton.1 ha
      exact ⟨by decide, rfl⟩) (by decide)
    (fun i => by
      simp only [mainOps, argOps, fileOps, oneFile, content, Option.getD_some, List.map_cons,
        List.map_nil, List.append_nil]
      split <;> split <;> decide) (by decide)
  exact ⟨s, hs, (wellFormed_iff hs).2 ⟨by decide, by decide, by decide⟩⟩

/-- `cat` and `_cat`, which are empty. -/
def twoCats : List Arg :=
  [⟨⟨[99, 97, 116], by decide⟩, some []⟩, ⟨⟨[95, 99, 97, 116], by decide⟩, some []⟩]

/-- Two entries of the root directory have the same name. -/
theorem twoCats_same_name : ∃ s, main twoCats = .ok s ∧ ¬WellFormed s := by
  obtain ⟨s, hs⟩ : ∃ s, main twoCats = .ok s := main_ok (by
      intro a ha
      rcases List.mem_cons.1 ha with rfl | ha
      · exact ⟨by decide, rfl⟩
      · obtain rfl := List.mem_singleton.1 ha
        exact ⟨by decide, rfl⟩) (by decide)
    (fun i => by
      simp only [mainOps, argOps, fileOps, twoCats, List.cons_append, List.nil_append,
        Option.getD_some, List.map_nil, content]
      split <;> decide) (by decide)
  refine ⟨s, hs, fun hw => ?_⟩
  have hnodup := ((wellFormed_few hs (by decide)).1 hw).2.2
  exact absurd hnodup (by decide)

end Xv6.Mkfs
