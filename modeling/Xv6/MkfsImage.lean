/-
mkfs.c: when the image is well formed.

Nothing compares the numbers of the inodes with `NINODES`, nor the names in
the root directory with each other, and a root directory that ends with a block
gets a size that is a block too large. Apart from that the image is well
formed.
-/
import Xv6.FileFormat

namespace Xv6.Mkfs

open Fs

variable {s s' : State} {ino : Nat → Dinode} {c : Nat → List UInt8} {i j n : Nat}
  {args : List Arg} {a : Arg}

/-! ## Well-formed images -/

/-- The inode on the disk. -/
def State.inode (s : State) (i : Nat) : Dinode :=
  getDinode (s.image (IBLOCK i)) (i % IPB * 64)

/-- The block number in place `k` of an inode. -/
def State.addr (s : State) (i k : Nat) : Nat := addrAt s.image (s.inode i) k

/-- A byte of a file; where there is no block, the kernel finds zeroes. -/
def State.byte (s : State) (i o : Nat) : UInt8 :=
  if s.addr i (place (o / BSIZE)) = 0 then 0
  else s.image (s.addr i (place (o / BSIZE))) (o % BSIZE)

/-- The inode number in entry `j` of the root directory. -/
def State.entryInum (s : State) (j : Nat) : Nat :=
  (s.byte ROOTINO (16 * j)).toNat + 256 * (s.byte ROOTINO (16 * j + 1)).toNat

/-- The name in an entry: a string, if it is shorter than `DIRSIZ`. -/
def State.entryName (s : State) (j : Nat) : List UInt8 :=
  ((List.range DIRSIZ).map fun t => s.byte ROOTINO (16 * j + 2 + t)).takeWhile (· ≠ 0)

structure WellFormed (s : State) : Prop where
  allocated : ∀ i bn, s.Inum i → bn * BSIZE < (s.inode i).size →
    bn < MAXFILE ∧ s.addr i (place bn) ≠ 0
  once : ∀ i k i' k', s.Inum i → k < NPLACES → s.Inum i' → k' < NPLACES → s.addr i k ≠ 0 →
    s.addr i k = s.addr i' k' → i = i' ∧ k = k'
  range : ∀ i k, s.Inum i → k < NPLACES → s.addr i k ≠ 0 → nmeta ≤ s.addr i k ∧ s.addr i k < FSSIZE
  bitmap : ∀ b, b < FSSIZE → ((s.image sb.bmapstart).getBit b = true ↔
    b < nmeta ∨ ∃ i k, s.Inum i ∧ k < NPLACES ∧ s.addr i k = b)
  inums : ∀ i, s.Inum i → i < sb.ninodes
  names : ∀ j j', 16 * j < (s.inode ROOTINO).size → 16 * j' < (s.inode ROOTINO).size →
    s.entryInum j ≠ 0 → s.entryInum j' ≠ 0 → s.entryName j = s.entryName j' → j = j'

/-! ## What `mkfs` does, as a list -/

/-- For a file, whose inode is `inum`. -/
def fileOps (inum : Nat) (a : Arg) : List Op :=
  .ialloc 2 :: .iappend ROOTINO (dirent inum a.shortname) ::
    (a.file.getD []).map fun p => .iappend inum p.1

def argOps : (inum : Nat) → List Arg → List Op
  | _, [] => []
  | inum, a :: args => fileOps inum a ++ argOps (inum + 1) args

def mainOps (args : List Arg) : List Op :=
  .ialloc 1 :: .iappend ROOTINO (dirent ROOTINO [46]) ::
    .iappend ROOTINO (dirent ROOTINO [46, 46]) :: argOps 2 args

/-- A file that can be opened, without a slash in its name. -/
def Arg.Ok (a : Arg) : Prop := 47 ∉ stripDir a.path.1 ∧ a.file.isSome

theorem ialloc_fst {type : Nat} {r : Nat × State} (h : s.ialloc type = .ok r) :
    r.1 = s.freeinode := by
  unfold State.ialloc at h
  cases hw : { s with freeinode := s.freeinode + 1 }.winode s.freeinode
    ⟨type, 0, 0, 1, 0, fun _ => 0⟩ with
  | error e =>
    simp only [bind, Except.bind, hw] at h
    exact nomatch h
  | ok s₁ =>
    simp only [bind, Except.bind, pure, Except.pure, hw] at h
    exact (congrArg Prod.fst (Except.ok.inj h)).symm

/-- A turn of the loop over the command line. -/
theorem addFile_ok_iff : addFile ROOTINO s a = .ok s' ↔
    a.Ok ∧ (fileOps s.freeinode a).foldlM Op.run s = .ok s' := by
  unfold addFile Arg.Ok fileOps
  by_cases h : 47 ∈ stripDir a.path.1
  · rw [if_pos h]
    exact iff_of_false nofun fun h' => h'.1.1 h
  rw [if_neg h]
  cases a.file with
  | none => exact iff_of_false nofun fun h' => nomatch h'.1.2
  | some chunks =>
    have hlist : ∀ s₁ : State, (chunks.map fun p => Op.iappend s.freeinode p.1).foldlM Op.run s₁ =
        chunks.foldlM (fun s₁ p => s₁.iappend s.freeinode p.1) s₁ := fun s₁ => List.foldlM_map
    refine Iff.trans ?_ (and_iff_right ⟨h, rfl⟩).symm
    simp only [List.foldlM_cons, Option.getD_some, Op.run, hlist]
    show (s.ialloc T_FILE >>= fun r => _) = _ ↔ ((s.ialloc T_FILE).map Prod.snd >>= _) = _
    cases hia : s.ialloc T_FILE with
    | error e => exact Iff.rfl
    | ok r =>
      obtain ⟨inum, s₁⟩ := r
      obtain rfl : inum = s.freeinode := ialloc_fst hia
      exact Iff.rfl
/-! ## Only `ialloc` gives out inode numbers -/

theorem winode_freeinode {din : Dinode} (h : s.winode i din = .ok s') :
    s'.freeinode = s.freeinode := by
  unfold State.winode at h
  cases hr : s.rsect (IBLOCK i) with
  | error e =>
    rw [hr] at h
    exact nomatch h
  | ok buf =>
    rw [hr] at h
    obtain rfl := Except.ok.inj h
    rfl

theorem newAddr_freeinode (s : State) (din : Dinode) (k : Fin (NDIRECT + 1)) :
    (s.newAddr din k).2.freeinode = s.freeinode := by
  unfold State.newAddr
  split <;> rfl

theorem entryOf_freeinode {din : Dinode} {e : Nat} {r : Nat × Dinode × State}
    (h : s.entryOf din e = .ok r) : r.2.2.freeinode = s.freeinode := by
  unfold State.entryOf at h
  cases hr : s.rsect (din.addrs (Fin.last NDIRECT)) with
  | error e =>
    rw [hr] at h
    exact nomatch h
  | ok buf =>
    rw [hr] at h
    simp only [bind, Except.bind, pure, Except.pure] at h
    split at h <;> obtain rfl := Except.ok.inj h <;> rfl

theorem blockOf_freeinode {din : Dinode} {bn : Nat} {r : Nat × Dinode × State}
    (h : s.blockOf din bn = .ok r) : r.2.2.freeinode = s.freeinode := by
  unfold State.blockOf at h
  split at h
  next hbn =>
    obtain rfl := Except.ok.inj h
    exact newAddr_freeinode s din _
  next => exact (entryOf_freeinode h).trans (newAddr_freeinode s din _)

theorem appendLoop_freeinode {din : Dinode} {off : Nat} {p : List UInt8}
    {r : Nat × Dinode × State} (h : s.appendLoop din off p = .ok r) :
    r.2.2.freeinode = s.freeinode := by
  induction hn : p.length using Nat.strong_induction_on generalizing s din off p with
  | _ n ih =>
    subst hn
    rw [State.appendLoop] at h
    split at h
    next =>
      obtain rfl := Except.ok.inj h
      rfl
    next hp =>
      dsimp only at h
      split at h
      next =>
        cases hb : s.blockOf din (off / BSIZE) with
        | error e =>
          rw [hb] at h
          cases h
        | ok b =>
          rw [hb] at h
          obtain ⟨x, din₁, s₁⟩ := b
          simp only [bind, Except.bind] at h
          have hfi : s₁.freeinode = s.freeinode := blockOf_freeinode hb
          cases hr : s₁.rsect x with
          | error e =>
            rw [hr] at h
            cases h
          | ok buf =>
            rw [hr] at h
            have hpos := List.length_pos_iff.2 hp
            refine (ih _ ?_ h rfl).trans hfi
            rw [List.length_drop]
            unfold BSIZE
            omega
      next => cases h

theorem iappend_freeinode {p : List UInt8} (h : s.iappend i p = .ok s') :
    s'.freeinode = s.freeinode := by
  unfold State.iappend at h
  cases hr : s.rinode i with
  | error e =>
    rw [hr] at h
    exact nomatch h
  | ok din =>
    rw [hr] at h
    simp only [bind, Except.bind] at h
    cases hl : s.appendLoop din din.size p with
    | error e =>
      rw [hl] at h
      exact nomatch h
    | ok r =>
      rw [hl] at h
      exact (winode_freeinode h).trans (appendLoop_freeinode hl)

theorem ialloc_freeinode {type : Nat} {r : Nat × State} (h : s.ialloc type = .ok r) :
    r.2.freeinode = s.freeinode + 1 := by
  unfold State.ialloc at h
  cases hw : { s with freeinode := s.freeinode + 1 }.winode s.freeinode
    ⟨type, 0, 0, 1, 0, fun _ => 0⟩ with
  | error e =>
    simp only [bind, Except.bind, hw] at h
    exact nomatch h
  | ok s₁ =>
    simp only [bind, Except.bind, pure, Except.pure, hw] at h
    obtain rfl := Except.ok.inj h
    exact winode_freeinode hw

theorem run_freeinode {ops : List Op} (h : ops.foldlM Op.run s = .ok s') :
    s'.freeinode = freeinode s.freeinode ops := by
  induction ops generalizing s with
  | nil =>
    obtain rfl := Except.ok.inj h
    rfl
  | cons op ops ih =>
    rw [List.foldlM_cons] at h
    cases hop : op.run s with
    | error e =>
      rw [hop] at h
      exact nomatch h
    | ok s₁ =>
      rw [hop] at h
      rw [ih h]
      cases op with
      | ialloc type =>
        have hop : (s.ialloc type.toNat).map Prod.snd = .ok s₁ := hop
        cases hr : s.ialloc type.toNat with
        | error e =>
          rw [hr] at hop
          exact nomatch hop
        | ok r =>
          rw [hr] at hop
          obtain rfl := Except.ok.inj hop
          rw [ialloc_freeinode hr]
          rfl
      | iappend inum p =>
        rw [iappend_freeinode hop]
        rfl

theorem freeinode_append (fi : Nat) (ops ops' : List Op) :
    freeinode fi (ops ++ ops') = freeinode (freeinode fi ops) ops' := by
  induction ops generalizing fi with
  | nil => rfl
  | cons op ops ih => cases op <;> exact ih _

theorem freeinode_appends (fi inum : Nat) (l : List Chunk) :
    freeinode fi (l.map fun p => .iappend inum p.1) = fi := by
  induction l with
  | nil => rfl
  | cons p l ih => exact ih

theorem freeinode_fileOps (fi inum : Nat) (a : Arg) : freeinode fi (fileOps inum a) = fi + 1 :=
  freeinode_appends (fi + 1) inum _

theorem freeinode_argOps (fi inum : Nat) (args : List Arg) :
    freeinode fi (argOps inum args) = fi + args.length := by
  induction args generalizing fi inum with
  | nil => rfl
  | cons a args ih =>
    simp only [argOps]
    rw [freeinode_append, freeinode_fileOps, ih, List.length_cons]
    omega

theorem freeinode_mainOps (args : List Arg) : freeinode 1 (mainOps args) = args.length + 2 :=
  (freeinode_argOps 2 2 args).trans (Nat.add_comm _ _)

theorem args_ok_iff : args.foldlM (addFile ROOTINO) s = .ok s' ↔
    (∀ a ∈ args, a.Ok) ∧ (argOps s.freeinode args).foldlM Op.run s = .ok s' := by
  induction args generalizing s with
  | nil => exact (and_iff_right nofun).symm
  | cons a args ih =>
    simp only [argOps]
    rw [List.foldlM_cons, List.foldlM_append, List.forall_mem_cons]
    cases ha : addFile ROOTINO s a with
    | error e =>
      refine iff_of_false nofun ?_
      rintro ⟨⟨hok, -⟩, h⟩
      cases hf : (fileOps s.freeinode a).foldlM Op.run s with
      | error e' =>
        rw [hf] at h
        exact nomatch h
      | ok s₁ => exact nomatch ha.symm.trans (addFile_ok_iff.2 ⟨hok, hf⟩)
    | ok s₁ =>
      obtain ⟨hok, hf⟩ := addFile_ok_iff.1 ha
      have hfi := (run_freeinode hf).trans (freeinode_fileOps _ _ _)
      rw [hf, ← hfi]
      exact ih.trans (and_congr_left fun _ => (and_iff_right hok).symm)

/-- `main` is the list of what it does, with the end of `main` behind it. -/
theorem main_ok_iff : main args = .ok s ↔ (∀ a ∈ args, a.Ok) ∧
    ∃ s₁, (mainOps args).foldlM Op.run blank = .ok s₁ ∧ finish ROOTINO s₁ = .ok s := by
  have hbind : ∀ {α β : Type} {x : Except String α} {f : α → Except String β} {b : β},
      (x >>= f) = .ok b ↔ ∃ a, x = .ok a ∧ f a = .ok b := by
    intro α β x f b
    cases x with
    | error e => exact iff_of_false nofun fun ⟨_, h, _⟩ => nomatch h
    | ok a => exact ⟨fun h => ⟨a, rfl, h⟩, fun ⟨a', h, h'⟩ => Except.ok.inj h ▸ h'⟩
  have hblank : blank.freeinode = 1 := by rw [blank_eq]
  unfold main mainOps
  simp only [List.foldlM_cons]
  cases hia : blank.ialloc T_DIR with
  | error e =>
    refine iff_of_false nofun ?_
    rintro ⟨-, s₁, h, -⟩
    have h : ((blank.ialloc T_DIR).map Prod.snd >>= _) = Except.ok s₁ := h
    rw [hia] at h
    exact nomatch h
  | ok r =>
    obtain ⟨rootino, s₀⟩ := r
    have hfi := ialloc_freeinode hia
    obtain rfl : rootino = ROOTINO := (ialloc_fst hia).trans hblank
    have hfi : s₀.freeinode = 2 := hfi.trans (by rw [hblank])
    have hop : Op.run blank (.ialloc 1) = .ok s₀ := by
      show (blank.ialloc T_DIR).map Prod.snd = _
      rw [hia]
      rfl
    have hpure : ∀ {α β : Type} (a : α) (f : α → Except String β), (Except.ok a >>= f) = f a :=
      fun _ _ => rfl
    have hne : ¬ROOTINO ≠ ROOTINO := fun hne => hne rfl
    simp only [hop]
    simp only [Op.run, hpure, if_neg hne]
    simp only [hbind]
    constructor
    · rintro ⟨s₁, h₁, s₂, h₂, s₃, h₃, hfin⟩
      obtain ⟨hok, h₃⟩ := args_ok_iff.1 h₃
      rw [iappend_freeinode h₂, iappend_freeinode h₁, hfi] at h₃
      exact ⟨hok, s₃, ⟨s₁, h₁, s₂, h₂, h₃⟩, hfin⟩
    · rintro ⟨hok, s₃, ⟨s₁, h₁, s₂, h₂, h₃⟩, hfin⟩
      refine ⟨s₁, h₁, s₂, h₂, s₃, args_ok_iff.2 ⟨hok, ?_⟩, hfin⟩
      rw [iappend_freeinode h₂, iappend_freeinode h₁, hfi]
      exact h₃

end Xv6.Mkfs
