/-
mkfs.c and fs.c: what `mkfs` has appended to a file, the kernel reads.
-/
import Xv6.MkfsInodes
import Xv6.Fs.Read
import Mathlib.Algebra.BigOperators.Group.Finset.Basic
import Mathlib.Algebra.Order.BigOperators.Group.Finset

namespace Xv6.Mkfs

open Fs

variable {s s' : State} {ino : Nat → Dinode} {c : Nat → List UInt8} {i bn off r n : Nat}
  {image : Nat → Bytes} {din : Dinode}

/-! ## Reading -/

/-- `bmap` finds the number in its place, and changes nothing. -/
theorem bmap_addrAt (sb : Superblock) (hbn : bn < MAXFILE)
    (hne : addrAt image din (place bn) ≠ 0) :
    bmap sb image din bn = some (addrAt image din (place bn), image, din) := by
  unfold bmap
  by_cases hdir : bn < NDIRECT
  · have hpl : place bn = bn := if_pos hdir
    have he : addrAt image din (place bn) = din.addrs ⟨bn, Nat.lt_succ_of_lt hdir⟩ := by
      rw [hpl]
      exact addrAt_of_lt (Nat.lt_succ_of_lt hdir)
    rw [dif_pos hdir]
    unfold bmapAddr
    rw [he] at hne ⊢
    rw [if_neg hne]
  · have hpl : place bn = bn + 1 := if_neg hdir
    have hge : ¬place bn < NDIRECT + 1 := by omega
    have hind : din.addrs (Fin.last NDIRECT) ≠ 0 := fun h₀ => by
      unfold addrAt at hne
      rw [dif_neg hge, if_pos h₀] at hne
      exact hne rfl
    have he : addrAt image din (place bn) =
        (image (din.addrs (Fin.last NDIRECT))).getLe (4 * (bn - NDIRECT)) 4 := by
      rw [addrAt_of_ge hge hind, hpl]
      congr 2
    rw [dif_neg hdir, if_pos (by unfold MAXFILE at hbn; omega)]
    unfold bmapAddr
    rw [if_neg hind]
    dsimp only
    rw [if_neg hind, ← he, if_neg hne]

/-- The bytes that are read are those of the content. -/
theorem readLoop_spec (sb : Superblock) (h : Disk s ino c) (hi : s.Inum i)
    (hr : off + r ≤ (c i).length) :
    readLoop sb s.image (ino i) off r = some (((c i).drop off).take r, s.image, ino i) := by
  induction hn : r using Nat.strong_induction_on generalizing off r with
  | _ n ih =>
    subst hn
    rw [readLoop]
    by_cases hr₀ : r = 0
    · rw [dif_pos hr₀, hr₀, List.take_zero]
    have hmax := h.max i hi
    have hbn : off / BSIZE < MAXFILE := by
      unfold BSIZE at hmax ⊢
      omega
    have hne : addrAt s.image (ino i) (place (off / BSIZE)) ≠ 0 := by
      refine (h.files.used i _ hi (place_lt hbn)).2 ?_
      have hmono : places (off + 1) ≤ places (c i).length := places_mono (by omega)
      have hpl : places (off + 1) = place (off / BSIZE) + 1 := places_add Nat.one_pos (by
        unfold BSIZE
        omega)
      omega
    rw [dif_neg hr₀, bmap_addrAt sb hbn hne]
    dsimp only
    rw [if_neg hne]
    generalize hm : min r (BSIZE - off % BSIZE) = m
    have hm' : 0 < m ∧ m ≤ r ∧ off % BSIZE + m ≤ BSIZE := by
      unfold BSIZE at hm ⊢
      omega
    obtain ⟨hm₀, hmr, hmb⟩ := hm'
    have hdata : ((List.range m).map fun j =>
        s.image (addrAt s.image (ino i) (place (off / BSIZE))) (off % BSIZE + j)) =
          ((c i).drop off).take m := by
      refine List.ext_getElem (by simp; omega) fun j hj hj' => ?_
      have hjm : j < m := by simpa using hj
      rw [List.getElem_map, List.getElem_range, h.files.bytes i _ _ hi hbn hne (by omega),
        List.getElem_take, List.getElem_drop,
        show off / BSIZE * BSIZE + (off % BSIZE + j) = off + j by unfold BSIZE; omega]
      exact List.getD_eq_getElem _ _ (by omega)
    have hrest : readLoop sb s.image (ino i) (off + m) (r - m) =
        some (((c i).drop (off + m)).take (r - m), s.image, ino i) :=
      ih (r - m) (by omega) (by omega) rfl
    rw [hrest, hdata, Option.map_some]
    have hsplit : ((c i).drop off).take r =
        ((c i).drop off).take m ++ ((c i).drop (off + m)).take (r - m) := by
      rw [← List.drop_drop, ← List.take_add, Nat.add_sub_cancel' hmr]
    rw [hsplit]

theorem readi_spec (sb : Superblock) (h : Disk s ino c) (hi : s.Inum i)
    (hr : off + n ≤ (c i).length) :
    readi sb s.image (ino i) off n = some (((c i).drop off).take n, s.image, ino i) := by
  have hmax := h.max i hi
  have hlt : MAXFILE * BSIZE < 2 ^ 32 := by decide
  unfold readi
  rw [h.size i hi, Nat.mod_eq_of_lt (by omega), if_neg (by omega), if_neg (by omega)]
  exact readLoop_spec sb h hi hr

/-! ## The image before the first inode -/

theorem wsect_zero (n : Nat) (hn : n ≤ FSSIZE) :
    (List.range n).foldl (fun (s : State) i => s.wsect i Bytes.zero)
      ⟨fun _ => Bytes.zero, 0, 1, nmeta⟩ = ⟨fun _ => Bytes.zero, n, 1, nmeta⟩ := by
  induction n with
  | zero => rfl
  | succ n ih =>
    have hsec : sector n = n := sector_of_lt (by
      unfold FSSIZE at hn
      omega)
    rw [List.range_succ, List.foldl_append, ih (by omega)]
    simp only [List.foldl_cons, List.foldl_nil, State.wsect, hsec]
    rw [Nat.max_eq_right (Nat.le_succ n)]
    congr 1
    funext b
    by_cases hb : b = n
    · rw [hb, Function.update_self]
    · rw [Function.update_of_ne hb]

theorem blank_eq : blank =
    ⟨Function.update (fun _ => Bytes.zero) 1 sb.bytes, FSSIZE, 1, nmeta⟩ := by
  unfold blank
  dsimp only
  rw [wsect_zero FSSIZE (Nat.le_refl _), wsect_of_lt rfl (by decide)]

theorem blank_disk (ino : Nat → Dinode) : Disk blank ino fun _ => [] := by
  have hno : ∀ i, ¬blank.Inum i := fun i hi => by
    have hlt := hi.2
    rw [blank_eq] at hlt
    have hle := hi.1
    have hlt' : i < 1 := hlt
    omega
  refine ⟨⟨by rw [blank_eq], by rw [blank_eq], by rw [blank_eq]; exact Nat.le_of_lt nmeta_lt,
    fun i _ hi => absurd hi (hno i), fun i _ hi => absurd hi (hno i),
    fun i _ _ _ hi => absurd hi (hno i), fun b hb hb' => ?_, fun i _ _ hi => absurd hi (hno i),
    fun b hb _ => ?_⟩, by rw [blank_eq]; exact ⟨Nat.le_refl 1, by decide⟩,
    fun i hi => absurd hi (hno i), fun i hi => absurd hi (hno i), fun i hi => absurd hi (hno i),
    fun i hi => absurd hi (hno i)⟩
  · rw [blank_eq] at hb'
    exact absurd hb' (Nat.not_lt.2 hb)
  · rw [blank_eq] at hb ⊢
    have hne : 1 < nmeta := by decide
    show Function.update (fun _ => Bytes.zero) 1 sb.bytes b = Bytes.zero
    exact Function.update_of_ne (Nat.ne_of_gt (Nat.lt_of_lt_of_le hne hb)) _ _

/-! ## Appending -/

/-- What `mkfs` does with the inodes. -/
inductive Op where
  | ialloc (type : UInt16)
  | iappend (inum : Nat) (p : List UInt8)

def Op.run (s : State) : Op → Except String State
  | .ialloc type => (s.ialloc type.toNat).map Prod.snd
  | .iappend inum p => s.iappend inum p

/-- What is appended to an inode. -/
def content (i : Nat) : List Op → List UInt8
  | [] => []
  | .ialloc _ :: ops => content i ops
  | .iappend inum p :: ops => if inum = i then p ++ content i ops else content i ops

/-- The next free inode number, where it was `fi`. -/
def freeinode (fi : Nat) : List Op → Nat
  | [] => fi
  | .ialloc _ :: ops => freeinode (fi + 1) ops
  | .iappend .. :: ops => freeinode fi ops

/-- Bytes are appended to inodes that are there. -/
def Valid (fi : Nat) : List Op → Prop
  | [] => True
  | .ialloc _ :: ops => Valid (fi + 1) ops
  | .iappend inum _ :: ops => 1 ≤ inum ∧ inum < fi ∧ Valid fi ops

/-- How many blocks the files need. -/
def blocks (fi : Nat) (c : Nat → List UInt8) : Nat :=
  ∑ i ∈ Finset.range fi, places (c i).length

theorem freeinode_le (fi : Nat) (ops : List Op) : fi ≤ freeinode fi ops := by
  induction ops generalizing fi with
  | nil => exact Nat.le_refl fi
  | cons op ops ih =>
    cases op with
    | ialloc type => exact Nat.le_trans (Nat.le_succ fi) (ih (fi + 1))
    | iappend inum p => exact ih fi

theorem blocks_mono {fi fi' : Nat} {c c' : Nat → List UInt8} (hfi : fi ≤ fi')
    (h : ∀ i, (c i).length ≤ (c' i).length) : blocks fi c ≤ blocks fi' c' :=
  Nat.le_trans (Finset.sum_le_sum fun i _ => places_mono (h i))
    (Finset.sum_le_sum_of_subset (Finset.range_mono hfi))

/-- One file gets longer. -/
theorem blocks_append {fi : Nat} (hi : i < fi) (p : List UInt8) :
    blocks fi (Function.update c i (c i ++ p)) =
      blocks fi c + (places ((c i).length + p.length) - places (c i).length) := by
  have hmem : i ∈ Finset.range fi := Finset.mem_range.2 hi
  have hmono := places_mono (Nat.le_add_right (c i).length p.length)
  unfold blocks
  rw [← Finset.add_sum_erase _ _ hmem,
    ← Finset.add_sum_erase (Finset.range fi) (fun i => places (c i).length) hmem]
  have hrest : ∑ j ∈ (Finset.range fi).erase i,
      places (Function.update c i (c i ++ p) j).length =
        ∑ j ∈ (Finset.range fi).erase i, places (c j).length :=
    Finset.sum_congr rfl fun j hj => by rw [Function.update_of_ne (Finset.ne_of_mem_erase hj)]
  rw [hrest, Function.update_self, List.length_append]
  omega

/-- Where there is room for all of it, everything is appended. -/
theorem run_spec (ops : List Op) (h : Disk s ino c) (hnew : ∀ i, s.freeinode ≤ i → c i = [])
    (hfb : s.freeblock = nmeta + blocks s.freeinode c) (hv : Valid s.freeinode ops)
    (hino : freeinode s.freeinode ops ≤ maxInodes)
    (hfile : ∀ i, (c i ++ content i ops).length ≤ MAXFILE * BSIZE)
    (hroom : nmeta + blocks (freeinode s.freeinode ops) (fun i => c i ++ content i ops) ≤ FSSIZE) :
    ∃ s' ino', ops.foldlM Op.run s = .ok s' ∧ Disk s' ino' (fun i => c i ++ content i ops) ∧
      s'.freeinode = freeinode s.freeinode ops := by
  induction ops generalizing s ino c with
  | nil =>
    refine ⟨s, ino, rfl, ?_, rfl⟩
    simp only [content, List.append_nil]
    exact h
  | cons op ops ih =>
    cases op with
    | ialloc type =>
      have hfi : s.freeinode < maxInodes :=
        Nat.lt_of_lt_of_le (freeinode_le (s.freeinode + 1) ops) hino
      obtain ⟨s₁, din, hs₁, hd, hfi₁, hfb₁⟩ := ialloc_spec h hfi type.toNat_lt
      have hc : Function.update c s.freeinode [] = c := by
        rw [← hnew _ (Nat.le_refl _)]
        exact Function.update_eq_self _ c
      rw [hc] at hd
      have hblocks : blocks (s.freeinode + 1) c = blocks s.freeinode c := by
        unfold blocks
        rw [Finset.sum_range_succ, hnew _ (Nat.le_refl _)]
        exact Nat.add_zero _
      obtain ⟨s', ino', hs', hd', hfi'⟩ := ih hd (fun i hi => hnew i (by omega))
        (by rw [hfb₁, hfi₁, hblocks]; exact hfb) (hfi₁ ▸ hv) (hfi₁ ▸ hino) hfile (hfi₁ ▸ hroom)
      refine ⟨s', ino', ?_, hd', hfi'.trans (by rw [hfi₁]; rfl)⟩
      rw [List.foldlM_cons]
      show (s.ialloc type.toNat).map Prod.snd >>= _ = _
      rw [hs₁]
      exact hs'
    | iappend inum p =>
      obtain ⟨hlow, hlt, hv⟩ := hv
      have hcont : ∀ i, Function.update c inum (c inum ++ p) i ++ content i ops =
          c i ++ content i (.iappend inum p :: ops) := fun i => by
        simp only [content]
        by_cases hi : inum = i
        · rw [if_pos hi, ← hi, Function.update_self, List.append_assoc]
        · rw [if_neg hi, Function.update_of_ne (Ne.symm hi)]
      have hcont' : (fun i => Function.update c inum (c inum ++ p) i ++ content i ops) =
          fun i => c i ++ content i (.iappend inum p :: ops) := funext hcont
      have happ := blocks_append (c := c) hlt p
      have hle := blocks_mono (freeinode_le s.freeinode ops) fun i =>
        show (Function.update c inum (c inum ++ p) i).length ≤
          (Function.update c inum (c inum ++ p) i ++ content i ops).length by
            rw [List.length_append]
            exact Nat.le_add_right _ _
      rw [hcont'] at hle
      have hroom' : Room s c inum p.length := by
        have hlen := hfile inum
        rw [← hcont, Function.update_self, List.length_append, List.length_append] at hlen
        have hr : nmeta + blocks (freeinode s.freeinode ops)
          (fun i => c i ++ content i (.iappend inum p :: ops)) ≤ FSSIZE := hroom
        exact ⟨by omega, by omega⟩
      have hspec := iappend_spec (p := p) h ⟨hlow, hlt⟩
      cases happend : s.iappend inum p with
      | error e =>
        rw [happend] at hspec
        exact absurd hroom' hspec
      | ok s₁ =>
        rw [happend] at hspec
        obtain ⟨⟨din, hd⟩, hfi₁, hfb₁⟩ := hspec
        obtain ⟨s', ino', hs', hd', hfi'⟩ := ih hd
          (fun i hi => by
            rw [hfi₁] at hi
            rw [Function.update_of_ne (by omega)]
            exact hnew i hi)
          (by rw [hfb₁, hfi₁, happ]; omega) (hfi₁ ▸ hv) (hfi₁ ▸ hino)
          (fun i => hcont i ▸ hfile i) (by rw [hcont', hfi₁]; exact hroom)
        refine ⟨s', ino', ?_, hcont' ▸ hd', hfi'.trans (by rw [hfi₁]; rfl)⟩
        rw [List.foldlM_cons]
        show s.iappend inum p >>= _ = _
        rw [happend]
        exact hs'

/-- Whatever `mkfs` has appended to a file, in any order with what it has
appended to others, the kernel reads from the image, at every offset; and
`bmap` allocates nothing. -/
theorem readi_appended (ops : List Op) (hv : Valid 1 ops) (hino : freeinode 1 ops ≤ maxInodes)
    (hfile : ∀ i, (content i ops).length ≤ MAXFILE * BSIZE)
    (hroom : nmeta + blocks (freeinode 1 ops) (fun i => content i ops) ≤ FSSIZE) :
    ∃ s, ops.foldlM Op.run blank = .ok s ∧ ∀ i, 1 ≤ i → i < freeinode 1 ops →
      ∀ off n, off + n ≤ (content i ops).length →
        ∀ ip, ip = getDinode (s.image (i / IPB + sb.inodestart)) (i % IPB * 64) →
          readi sb s.image ip off n = some (((content i ops).drop off).take n, s.image, ip) := by
  have hfi : blank.freeinode = 1 := by rw [blank_eq]
  have hblocks : blocks blank.freeinode (fun _ => []) = 0 := by
    rw [hfi]
    rfl
  obtain ⟨s, ino, hs, hd, hfi'⟩ := run_spec ops (blank_disk fun _ => ⟨0, 0, 0, 0, 0, fun _ => 0⟩)
    (fun _ _ => rfl) (by rw [hblocks, blank_eq, Nat.add_zero]) (hfi ▸ hv) (hfi ▸ hino) hfile
    (hfi ▸ hroom)
  refine ⟨s, hs, fun i hi hlt off n hr ip hip => ?_⟩
  have hinum : s.Inum i := ⟨hi, by rw [hfi', hfi]; exact hlt⟩
  have hip' : ip = ino i := hip.trans (hd.dinode i hinum)
  rw [hip']
  exact readi_spec sb hd hinum hr

/-- Two files are written by turns. -/
def byTurns : List Op :=
  [.ialloc 1, .ialloc 2, .iappend 1 [97, 98], .iappend 2 [99], .iappend 1 [100]]

theorem readi_appended_byTurns : ∃ s, byTurns.foldlM Op.run blank = .ok s ∧
    ∀ ip, ip = getDinode (s.image (1 / IPB + sb.inodestart)) (1 % IPB * 64) →
      readi sb s.image ip 1 2 = some ([98, 100], s.image, ip) := by
  have hfile : ∀ i, (content i byTurns).length ≤ MAXFILE * BSIZE := fun i => by
    simp only [content, byTurns]
    split <;> split <;> decide
  obtain ⟨s, hs, hread⟩ := readi_appended byTurns (by simp [Valid, byTurns]) (by decide) hfile
    (by decide)
  exact ⟨s, hs, hread 1 (by decide) (by decide) 1 2 (by decide)⟩

end Xv6.Mkfs
