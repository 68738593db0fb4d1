/-
mkfs.c: the inodes on the disk.

Inodes and blocks of files are in different sectors, as long as the numbers of
the inodes are below those that the inode blocks have room for.
-/
import Xv6.MkfsAppend

namespace Xv6.Mkfs

open Fs

variable {s s' : State} {ino ino' : Nat → Dinode} {c : Nat → List UInt8} {m : Nat → Nat}
  {i : Nat} {din : Dinode} {p : List UInt8}

/-- The inode blocks have room for this many inodes. -/
def maxInodes : Nat := ninodeblocks * IPB

/-- The files are on the disk. -/
structure Disk (s : State) (ino : Nat → Dinode) (c : Nat → List UInt8) : Prop where
  files : Files s ino c
  freeinode : 1 ≤ s.freeinode ∧ s.freeinode ≤ maxInodes
  dinode : ∀ i, s.Inum i → getDinode (s.image (IBLOCK i)) (i % IPB * 64) = ino i
  size : ∀ i, s.Inum i → (ino i).size = (c i).length
  max : ∀ i, s.Inum i → (c i).length ≤ MAXFILE * BSIZE
  fits : ∀ i, s.Inum i → (ino i).Fits

/-! ## Sectors of inodes -/

theorem IBLOCK_range (h : i < maxInodes) : 2 + nlog ≤ IBLOCK i ∧ IBLOCK i < sb.bmapstart := by
  have hm : maxInodes = 208 := by decide
  have hs : sb.inodestart = 32 := by decide
  have hb : sb.bmapstart = 45 := by decide
  have hl : 2 + nlog = 32 := by decide
  have hi : IPB = 16 := by decide
  unfold IBLOCK
  rw [hs, hb, hl, hi]
  omega

theorem bmapstart_lt : sb.bmapstart < nmeta := by decide

theorem IBLOCK_lt (h : i < maxInodes) : IBLOCK i < nmeta :=
  Nat.lt_trans (IBLOCK_range h).2 bmapstart_lt

theorem nmeta_lt : nmeta < FSSIZE := by decide

/-- Only the sectors of blocks matter, and the numbers in the inodes. -/
theorem Blocks.congr (h : Blocks s ino c m) (hlen : s'.length = s.length)
    (hfi : s'.freeinode = s.freeinode) (hfb : s'.freeblock = s.freeblock)
    (himg : ∀ b, nmeta ≤ b → s'.image b = s.image b)
    (hino : ∀ i, s.Inum i → (ino' i).addrs = (ino i).addrs) : Blocks s' ino' c m := by
  have hinum : ∀ {i}, s'.Inum i ↔ s.Inum i := by
    intro i
    unfold State.Inum
    rw [hfi]
  have haddr : ∀ i k, s.Inum i → addrAt s'.image (ino' i) k = addrAt s.image (ino i) k :=
    fun i k hi => by
      have hd : addrAt s'.image (ino' i) k = addrAt s'.image (ino i) k := by
        unfold addrAt
        rw [hino i hi]
      rw [hd]
      exact addrAt_congr fun hne => himg _ (h.range i _ hi (by decide) hne).1
  refine ⟨hlen.trans h.length, hfb ▸ h.low, hfb ▸ h.high, fun i k hi hk => ?_,
    fun i k hi hk => ?_, fun i k i' k' hi hk hi' hk' => ?_, fun b hb hb' => ?_,
    fun i bn j hi hbn => ?_, fun b hb hb' => ?_⟩
  · rw [hinum] at hi
    rw [haddr i k hi]
    exact h.used i k hi hk
  · rw [hinum] at hi
    rw [haddr i k hi, hfb]
    exact h.range i k hi hk
  · rw [hinum] at hi hi'
    rw [haddr i k hi, haddr i' k' hi']
    exact h.inj i k i' k' hi hk hi' hk'
  · obtain ⟨i, k, hi, hk, he⟩ := h.onto b hb (hfb ▸ hb')
    exact ⟨i, k, hinum.2 hi, hk, (haddr i k hi).trans he⟩
  · rw [hinum] at hi
    rw [haddr i _ hi]
    intro hne hj
    rw [himg _ (h.range i _ hi (place_lt hbn) hne).1]
    exact h.bytes i bn j hi hbn hne hj
  · rw [hfb] at hb
    rw [himg b (Nat.le_trans h.low hb)]
    exact h.fresh b hb hb'

theorem rinode_spec (h : Disk s ino c) (hi : s.Inum i) : s.rinode i = .ok (ino i) := by
  have hlt := IBLOCK_lt (Nat.lt_of_lt_of_le hi.2 h.freeinode.2)
  unfold State.rinode
  rw [rsect_of_lt h.files.length (Nat.lt_trans hlt nmeta_lt), ← h.dinode i hi]
  rfl

/-- `winode` writes a part of a sector. -/
theorem winode_eq (hlen : s.length = FSSIZE) (hi : i < maxInodes) (din : Dinode) :
    s.winode i din = .ok { s with
      image := Function.update s.image (IBLOCK i)
        (putDinode (s.image (IBLOCK i)) (i % IPB * 64) din) } := by
  have hlt := Nat.lt_trans (IBLOCK_lt hi) nmeta_lt
  unfold State.winode
  rw [rsect_of_lt hlen hlt]
  show Except.ok (s.wsect _ _) = _
  rw [wsect_of_lt hlen hlt]

/-- The other inodes of the sector stay what they are. -/
theorem getDinode_winode (h : din.Fits) (image : Nat → Bytes) (i j : Nat) :
    getDinode (Function.update image (IBLOCK i)
      (putDinode (image (IBLOCK i)) (i % IPB * 64) din) (IBLOCK j)) (j % IPB * 64) =
      if j = i then din else getDinode (image (IBLOCK j)) (j % IPB * 64) := by
  have hipb : IPB = 16 := by decide
  by_cases hji : j = i
  · rw [hji, Function.update_self, if_pos rfl]
    exact getDinode_putDinode h
  · rw [if_neg hji]
    by_cases hb : IBLOCK j = IBLOCK i
    · rw [hb, Function.update_self]
      have hne : i % IPB * 64 + 64 ≤ j % IPB * 64 ∨ j % IPB * 64 + 64 ≤ i % IPB * 64 := by
        unfold IBLOCK at hb
        rw [hipb] at hb ⊢
        omega
      refine getDinode_congr fun o ho ho' => ?_
      rcases hne with hlt | hlt
      · exact putDinode_of_ge (by omega)
      · exact putDinode_of_lt (by omega)
    · rw [Function.update_of_ne hb]

/-! ## `ialloc` and `iappend` -/

/-- A new inode has no content. -/
theorem Blocks.newInode (h : Blocks s ino c m) (hfi : 1 ≤ s.freeinode)
    (hs : s'.length = s.length ∧ s'.freeinode = s.freeinode + 1 ∧ s'.freeblock = s.freeblock ∧
      s'.image = s.image) (hdin : ∀ k, din.addrs k = 0) :
    Blocks s' (Function.update ino s.freeinode din) (Function.update c s.freeinode [])
      (Function.update m s.freeinode 0) := by
  obtain ⟨hlen, hfi', hfb, himg⟩ := hs
  have hinum : ∀ {i}, s'.Inum i ↔ s.Inum i ∨ i = s.freeinode := by
    intro i
    unfold State.Inum
    rw [hfi']
    omega
  have hne : ∀ i, s.Inum i → i ≠ s.freeinode := fun i hi e => Nat.lt_irrefl _ (e ▸ hi.2)
  have hold : ∀ i k, s.Inum i →
      addrAt s'.image (Function.update ino s.freeinode din i) k = addrAt s.image (ino i) k :=
    fun i k hi => by rw [himg, Function.update_of_ne (hne i hi)]
  have hnew : ∀ k, addrAt s'.image (Function.update ino s.freeinode din s.freeinode) k = 0 :=
    fun k => by
      rw [Function.update_self]
      unfold addrAt
      split
      next => exact hdin _
      next => rw [if_pos (hdin _)]
  refine ⟨hlen.trans h.length, hfb ▸ h.low, hfb ▸ h.high, fun i k hi hk => ?_,
    fun i k hi hk => ?_, fun i k i' k' hi hk hi' hk' => ?_, fun b hb hb' => ?_,
    fun i bn j hi hbn => ?_, fun b hb hb' => ?_⟩
  · rcases hinum.1 hi with hi | rfl
    · rw [hold i k hi, Function.update_of_ne (hne i hi)]
      exact h.used i k hi hk
    · rw [hnew, Function.update_self]
      exact iff_of_false (fun e => e rfl) (Nat.not_lt_zero k)
  · rcases hinum.1 hi with hi | rfl
    · rw [hold i k hi, hfb]
      exact h.range i k hi hk
    · rw [hnew]
      exact fun e => absurd rfl e
  · rcases hinum.1 hi with hi | rfl
    · rw [hold i k hi]
      rcases hinum.1 hi' with hi' | rfl
      · rw [hold i' k' hi']
        exact h.inj i k i' k' hi hk hi' hk'
      · rw [hnew]
        exact fun e e' => absurd e' e
    · rw [hnew]
      exact fun e => absurd rfl e
  · obtain ⟨i, k, hi, hk, he⟩ := h.onto b hb (hfb ▸ hb')
    exact ⟨i, k, hinum.2 (.inl hi), hk, (hold i k hi).trans he⟩
  · rcases hinum.1 hi with hi | rfl
    · rw [hold i _ hi, Function.update_of_ne (hne i hi), himg]
      exact h.bytes i bn j hi hbn
    · rw [hnew]
      exact fun e => absurd rfl e
  · rw [himg]
    exact h.fresh b (hfb ▸ hb) hb'

theorem ialloc_spec {type : Nat} (h : Disk s ino c) (hfi : s.freeinode < maxInodes)
    (htype : type < 2 ^ 16) :
    ∃ s' din, s.ialloc type = .ok (s.freeinode, s') ∧
      Disk s' (Function.update ino s.freeinode din) (Function.update c s.freeinode []) ∧
      s'.freeinode = s.freeinode + 1 ∧ s'.freeblock = s.freeblock := by
  generalize hdin : (⟨type, 0, 0, 1, 0, fun _ => 0⟩ : Dinode) = din
  have hfits : din.Fits := by
    rw [← hdin]
    exact ⟨⟨htype, Nat.two_pow_pos 16, Nat.two_pow_pos 16, Nat.one_lt_two_pow (by decide)⟩,
      Nat.two_pow_pos 32, fun _ => Nat.two_pow_pos 32⟩
  have hw := winode_eq (s := { s with freeinode := s.freeinode + 1 }) h.files.length hfi din
  have hzero : ∀ k, din.addrs k = 0 := by
    rw [← hdin]
    exact fun _ => rfl
  have hb : Blocks { s with freeinode := s.freeinode + 1 } _ _ _ :=
    h.files.newInode h.freeinode.1 ⟨rfl, rfl, rfl, rfl⟩ hzero
  generalize hs' : ({ s with
    freeinode := s.freeinode + 1
    image := Function.update s.image (IBLOCK s.freeinode)
      (putDinode (s.image (IBLOCK s.freeinode)) (s.freeinode % IPB * 64) din) } : State) = s'
  have hinum : ∀ {i}, s'.Inum i → i ≠ s.freeinode → s.Inum i := by
    intro i hi hne
    rw [← hs'] at hi
    have hlt : i < s.freeinode + 1 := hi.2
    exact ⟨hi.1, by omega⟩
  refine ⟨s', din, ?_, ⟨?_, ?_, fun i hi => ?_, fun i hi => ?_, fun i hi => ?_, fun i hi => ?_⟩,
    ?_, ?_⟩
  · unfold State.ialloc
    simp only [hdin, bind, Except.bind]
    rw [hw]
    exact congrArg (fun s => Except.ok (_, s)) hs'
  · have hm : (fun i => places (Function.update c s.freeinode [] i).length) =
        Function.update (fun i => places (c i).length) s.freeinode 0 := by
      funext i
      by_cases hi : i = s.freeinode
      · rw [hi, Function.update_self, Function.update_self]
        rfl
      · rw [Function.update_of_ne hi, Function.update_of_ne hi]
    unfold Files
    rw [hm]
    refine hb.congr (by rw [← hs']) (by rw [← hs']) (by rw [← hs']) (fun b hb => ?_) fun _ _ => rfl
    rw [← hs']
    exact Function.update_of_ne (Nat.ne_of_gt (Nat.lt_of_lt_of_le (IBLOCK_lt hfi) hb)) _ s.image
  · rw [← hs']
    exact ⟨Nat.le_add_left _ _, hfi⟩
  · have hg := getDinode_winode hfits s.image s.freeinode i
    rw [← hs']
    refine hg.trans ?_
    by_cases hne : i = s.freeinode
    · rw [if_pos hne, hne, Function.update_self]
    · rw [if_neg hne, Function.update_of_ne hne]
      exact h.dinode i (hinum hi hne)
  · by_cases hne : i = s.freeinode
    · rw [hne, Function.update_self, Function.update_self, ← hdin]
      rfl
    · rw [Function.update_of_ne hne, Function.update_of_ne hne]
      exact h.size i (hinum hi hne)
  · by_cases hne : i = s.freeinode
    · rw [hne, Function.update_self]
      exact Nat.zero_le _
    · rw [Function.update_of_ne hne]
      exact h.max i (hinum hi hne)
  · by_cases hne : i = s.freeinode
    · rw [hne, Function.update_self]
      exact hfits
    · rw [Function.update_of_ne hne]
      exact h.fits i (hinum hi hne)
  · rw [← hs']
  · rw [← hs']

/-- The numbers in an inode are those of blocks. -/
theorem Blocks.addrs_lt (h : Blocks s ino c m) (hi : s.Inum i) (k : Fin (NDIRECT + 1)) :
    (ino i).addrs k < 2 ^ 32 := by
  have hk : (k : Nat) < NPLACES := Nat.lt_of_lt_of_le k.isLt (by decide)
  have he : addrAt s.image (ino i) k = (ino i).addrs k := addrAt_of_lt k.isLt
  rw [← he]
  by_cases hne : addrAt s.image (ino i) k = 0
  · rw [hne]
    decide
  · have hr := (h.range i k hi hk hne).2
    have hh := h.high
    unfold FSSIZE at hh
    omega

/-- `iappend` fails only where there is no room. -/
theorem iappend_spec (h : Disk s ino c) (hi : s.Inum i) :
    match s.iappend i p with
    | .ok s' => (∃ din, Disk s' (Function.update ino i din) (Function.update c i (c i ++ p))) ∧
        s'.freeinode = s.freeinode ∧ s'.freeblock =
          s.freeblock + (places ((c i).length + p.length) - places (c i).length)
    | .error _ => ¬Room s c i p.length := by
  unfold State.iappend
  rw [rinode_spec h hi]
  simp only [bind, Except.bind]
  rw [h.size i hi]
  have hspec := appendLoop_spec (p := p) h.files hi (h.max i hi)
  cases hloop : s.appendLoop (ino i) (c i).length p with
  | error e =>
    rw [hloop] at hspec
    exact hspec
  | ok r =>
    obtain ⟨off, din, s₁⟩ := r
    rw [hloop] at hspec
    have ha : Appended s s₁ ino c i p off din := hspec
    have hfb := ha.freeblock
    have hlen := ha.len
    have hi₁ : s₁.Inum i := by
      unfold State.Inum
      rw [ha.freeinode]
      exact hi
    have himax : i < maxInodes := Nat.lt_of_lt_of_le hi.2 h.freeinode.2
    dsimp only
    rw [winode_eq ha.files.length himax]
    generalize hd : ({ din with size := off } : Dinode) = din'
    have hfits : din'.Fits := by
      have hold := h.fits i hi
      have hf := ha.fields
      have hmax := ha.max
      have hnew := ha.files.addrs_lt hi₁
      rw [Function.update_self] at hnew
      subst hd
      refine ⟨?_, ?_, hnew⟩
      · rw [hf]
        exact hold.shorts
      · have hlt : MAXFILE * BSIZE < 2 ^ 32 := by decide
        exact Nat.lt_of_le_of_lt hmax hlt
    refine ⟨⟨din', ?_, ?_, fun j hj => ?_, fun j hj => ?_, fun j hj => ?_, fun j hj => ?_⟩,
      ha.freeinode, hfb⟩
    · refine Blocks.congr ha.files rfl rfl rfl (fun b hb => ?_) fun j _ => ?_
      · exact Function.update_of_ne (Nat.ne_of_gt (Nat.lt_of_lt_of_le (IBLOCK_lt himax) hb)) _
          s₁.image
      · by_cases hji : j = i
        · rw [hji, Function.update_self, Function.update_self, ← hd]
        · rw [Function.update_of_ne hji, Function.update_of_ne hji]
    · show 1 ≤ s₁.freeinode ∧ s₁.freeinode ≤ maxInodes
      rw [ha.freeinode]
      exact h.freeinode
    · have hj' : s.Inum j := by
        unfold State.Inum at hj ⊢
        rw [← ha.freeinode]
        exact hj
      refine (getDinode_winode hfits s₁.image i j).trans ?_
      by_cases hji : j = i
      · rw [if_pos hji, hji, Function.update_self]
      · rw [if_neg hji, Function.update_of_ne hji,
          ha.low _ (IBLOCK_lt (Nat.lt_of_lt_of_le hj'.2 h.freeinode.2))]
        exact h.dinode j hj'
    all_goals
      have hj' : s.Inum j := by
        unfold State.Inum at hj ⊢
        rw [← ha.freeinode]
        exact hj
    · by_cases hji : j = i
      · rw [hji, Function.update_self, Function.update_self, List.length_append, ← hd]
        exact hlen
      · rw [Function.update_of_ne hji, Function.update_of_ne hji]
        exact h.size j hj'
    · by_cases hji : j = i
      · rw [hji, Function.update_self, List.length_append, ← hlen]
        exact ha.max
      · rw [Function.update_of_ne hji]
        exact h.max j hj'
    · by_cases hji : j = i
      · rw [hji, Function.update_self]
        exact hfits
      · rw [Function.update_of_ne hji]
        exact h.fits j hj'

end Xv6.Mkfs
