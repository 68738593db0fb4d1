/-
mkfs.c: what `iappend` does to the blocks.

The places of a file for block numbers are the direct ones, the one for the
indirect block, and those in the indirect block; they are filled in this
order. `Blocks` says that every block given out is in one place, and that the
blocks of a file are its content, followed by zeroes.
-/
import Xv6.Mkfs
import Mathlib.Data.List.GetD

namespace Xv6.Mkfs

open Fs

/-- How many places a file has. -/
def NPLACES : Nat := NDIRECT + 1 + NINDIRECT

/-- The block number in place `k`. -/
def addrAt (image : Nat → Bytes) (din : Dinode) (k : Nat) : Nat :=
  if h : k < NDIRECT + 1 then din.addrs ⟨k, h⟩
  else if din.addrs (Fin.last NDIRECT) = 0 then 0
  else (image (din.addrs (Fin.last NDIRECT))).getLe (4 * (k - (NDIRECT + 1))) 4

/-- The place for block `bn` of the content. -/
def place (bn : Nat) : Nat := if bn < NDIRECT then bn else bn + 1

/-- How many places a file of this length uses. -/
def places (len : Nat) : Nat :=
  if (len + BSIZE - 1) / BSIZE ≤ NDIRECT then (len + BSIZE - 1) / BSIZE
  else (len + BSIZE - 1) / BSIZE + 1

/-- A number that `ialloc` has returned. -/
def State.Inum (s : State) (i : Nat) : Prop := 1 ≤ i ∧ i < s.freeinode

/-- The blocks of the files, whose inodes are `ino` and contents `c`. File `i`
uses its first `m i` places. -/
structure Blocks (s : State) (ino : Nat → Dinode) (c : Nat → List UInt8) (m : Nat → Nat) :
    Prop where
  length : s.length = FSSIZE
  low : nmeta ≤ s.freeblock
  high : s.freeblock ≤ FSSIZE
  used : ∀ i k, s.Inum i → k < NPLACES → (addrAt s.image (ino i) k ≠ 0 ↔ k < m i)
  range : ∀ i k, s.Inum i → k < NPLACES → addrAt s.image (ino i) k ≠ 0 →
    nmeta ≤ addrAt s.image (ino i) k ∧ addrAt s.image (ino i) k < s.freeblock
  inj : ∀ i k i' k', s.Inum i → k < NPLACES → s.Inum i' → k' < NPLACES →
    addrAt s.image (ino i) k ≠ 0 → addrAt s.image (ino i) k = addrAt s.image (ino i') k' →
    i = i' ∧ k = k'
  onto : ∀ b, nmeta ≤ b → b < s.freeblock →
    ∃ i k, s.Inum i ∧ k < NPLACES ∧ addrAt s.image (ino i) k = b
  bytes : ∀ i bn j, s.Inum i → bn < MAXFILE → addrAt s.image (ino i) (place bn) ≠ 0 → j < BSIZE →
    s.image (addrAt s.image (ino i) (place bn)) j = (c i).getD (bn * BSIZE + j) 0
  fresh : ∀ b, s.freeblock ≤ b → b < FSSIZE → s.image b = Bytes.zero

variable {s s' : State} {ino ino' : Nat → Dinode} {c : Nat → List UInt8} {m : Nat → Nat}
  {i k bn x : Nat} {image : Nat → Bytes} {din : Dinode} {p : List UInt8}

/-! ## Places -/

theorem place_ne (bn : Nat) : place bn ≠ NDIRECT := by
  unfold place
  split <;> omega

theorem place_lt (h : bn < MAXFILE) : place bn < NPLACES := by
  unfold place NPLACES
  unfold MAXFILE at h
  split <;> omega

theorem place_inj {bn' : Nat} (h : place bn = place bn') : bn = bn' := by
  unfold place at h
  split at h <;> split at h <;> omega

/-- The place for the last byte of a file is the last one that it uses. -/
theorem places_add {len n : Nat} (hn : 0 < n) (hend : len % BSIZE + n ≤ BSIZE) :
    places (len + n) = place (len / BSIZE) + 1 := by
  have hq : (len + n + BSIZE - 1) / BSIZE = len / BSIZE + 1 := by
    unfold BSIZE at hend ⊢
    omega
  unfold places place
  rw [hq]
  split <;> split <;> omega

/-- The next byte goes to the last place that is used, or to the next one; the
indirect block is taken together with its first entry. -/
theorem places_cases (len : Nat) : places len = place (len / BSIZE) + 1 ∨
    (places len = place (len / BSIZE) ∨ places len = NDIRECT ∧ len / BSIZE = NDIRECT) ∧
      len = len / BSIZE * BSIZE := by
  by_cases hlen : len % BSIZE = 0
  · right
    have hq : (len + BSIZE - 1) / BSIZE = len / BSIZE := by
      unfold BSIZE at hlen ⊢
      omega
    have hmul : len = len / BSIZE * BSIZE := by
      unfold BSIZE at hlen ⊢
      omega
    refine ⟨?_, hmul⟩
    unfold places place
    rw [hq]
    split <;> split <;> omega
  · left
    have hq : (len + BSIZE - 1) / BSIZE = len / BSIZE + 1 := by
      unfold BSIZE at hlen ⊢
      omega
    unfold places place
    rw [hq]
    split <;> split <;> omega

theorem addrAt_of_lt (h : k < NDIRECT + 1) : addrAt image din k = din.addrs ⟨k, h⟩ := dif_pos h

theorem addrAt_of_ge (h : ¬k < NDIRECT + 1) (ha : din.addrs (Fin.last NDIRECT) ≠ 0) :
    addrAt image din k =
      (image (din.addrs (Fin.last NDIRECT))).getLe (4 * (k - (NDIRECT + 1))) 4 := by
  unfold addrAt
  rw [dif_neg h, if_neg ha]

theorem addrAt_last : addrAt image din NDIRECT = din.addrs (Fin.last NDIRECT) :=
  addrAt_of_lt (Nat.lt_succ_self NDIRECT)

/-- Only the indirect block matters. -/
theorem addrAt_congr {image' : Nat → Bytes}
    (h : addrAt image din NDIRECT ≠ 0 → image' (addrAt image din NDIRECT) =
      image (addrAt image din NDIRECT)) : addrAt image' din k = addrAt image din k := by
  unfold addrAt
  split
  next => rfl
  next =>
    split
    next => rfl
    next ha =>
      rw [addrAt_last] at h
      rw [h ha]

/-! ## A block is given out -/

theorem sector_of_lt (h : x < 2 ^ 22) : sector x = x := by
  unfold sector BSIZE
  omega

theorem rsect_of_lt (hlen : s.length = FSSIZE) (h : x < FSSIZE) : s.rsect x = .ok (s.image x) := by
  unfold FSSIZE at h hlen
  unfold State.rsect
  rw [sector_of_lt (by omega), if_pos (by omega)]

theorem rsect_of_ge (hlen : s.length = FSSIZE) (h : FSSIZE ≤ x) (hx : x < 2 ^ 22) :
    s.rsect x = .error "read" := by
  unfold FSSIZE at h hlen
  unfold State.rsect
  rw [sector_of_lt hx, if_neg (by omega)]

theorem wsect_of_lt (hlen : s.length = FSSIZE) (h : x < FSSIZE) (buf : Bytes) :
    s.wsect x buf = { s with image := Function.update s.image x buf } := by
  unfold FSSIZE at h hlen
  unfold State.wsect
  rw [sector_of_lt (by omega), Nat.max_eq_left (by omega)]

theorem nmeta_pos : 0 < nmeta := by decide

/-- File `i` gets the next block, in its next place. -/
theorem Blocks.alloc (h : Blocks s ino c m) (hi : s.Inum i) (hk : k < NPLACES) (hm : m i = k)
    (hfree : s.freeblock < FSSIZE)
    (hs : s'.length = s.length ∧ s'.freeinode = s.freeinode ∧ s'.freeblock = s.freeblock + 1)
    (haddr : ∀ i' k', s.Inum i' → k' < NPLACES → addrAt s'.image (ino' i') k' =
      if i' = i ∧ k' = k then s.freeblock else addrAt s.image (ino i') k')
    (himg : ∀ b, s'.image b = s.image b ∨
      addrAt s.image (ino i) NDIRECT ≠ 0 ∧ b = addrAt s.image (ino i) NDIRECT)
    (hc : ∀ bn, place bn = k → (c i).length ≤ bn * BSIZE) :
    Blocks s' ino' c (Function.update m i (k + 1)) := by
  obtain ⟨hlen, hfi, hfb⟩ := hs
  have hinum : ∀ {i'}, s'.Inum i' ↔ s.Inum i' := by
    intro i'
    unfold State.Inum
    rw [hfi]
  have hlast : NDIRECT < NPLACES := by decide
  have hlow := h.low
  have hpos := nmeta_pos
  have hnew : ∀ i' k', s.Inum i' → k' < NPLACES → addrAt s.image (ino i') k' ≠ s.freeblock :=
    fun i' k' hi' hk' he => by
      have hr := (h.range i' k' hi' hk' (by omega)).2
      omega
  refine ⟨hlen.trans h.length, by omega, by omega, fun i' k' hi' hk' => ?_,
    fun i' k' hi' hk' => ?_, fun i₁ k₁ i₂ k₂ hi₁ hk₁ hi₂ hk₂ => ?_, fun b hb hb' => ?_,
    fun i' bn j hi' hbn => ?_, fun b hb hb' => ?_⟩
  · rw [hinum] at hi'
    rw [haddr i' k' hi' hk']
    by_cases hii : i' = i
    · rw [hii, Function.update_self]
      by_cases hkk : k' = k
      · rw [if_pos ⟨rfl, hkk⟩]
        exact iff_of_true (by omega) (by omega)
      · rw [if_neg fun e => hkk e.2, h.used i k' hi hk', hm]
        omega
    · rw [if_neg fun e => hii e.1, Function.update_of_ne hii]
      exact h.used i' k' hi' hk'
  · rw [hinum] at hi'
    rw [haddr i' k' hi' hk']
    split
    next => exact fun _ => ⟨hlow, by omega⟩
    next =>
      intro hne
      have hr := h.range i' k' hi' hk' hne
      omega
  · rw [hinum] at hi₁ hi₂
    rw [haddr i₁ k₁ hi₁ hk₁, haddr i₂ k₂ hi₂ hk₂]
    split <;> split
    next h₁ h₂ => exact fun _ _ => ⟨h₁.1.trans h₂.1.symm, h₁.2.trans h₂.2.symm⟩
    next => exact fun _ he => absurd he.symm (hnew i₂ k₂ hi₂ hk₂)
    next => exact fun _ he => absurd he (hnew i₁ k₁ hi₁ hk₁)
    next => exact h.inj i₁ k₁ i₂ k₂ hi₁ hk₁ hi₂ hk₂
  · by_cases hbn : b = s.freeblock
    · exact ⟨i, k, hinum.2 hi, hk, by rw [haddr i k hi hk, if_pos ⟨rfl, rfl⟩, hbn]⟩
    · obtain ⟨i', k', hi', hk', he⟩ := h.onto b hb (by omega)
      refine ⟨i', k', hinum.2 hi', hk', ?_⟩
      rw [haddr i' k' hi' hk', if_neg, he]
      rintro ⟨rfl, rfl⟩
      have hne := (h.used i' k' hi' hk').1 (by omega)
      omega
  · rw [hinum] at hi'
    rw [haddr i' _ hi' (place_lt hbn)]
    split
    next he =>
      obtain ⟨rfl, hp⟩ := he
      intro _ _
      rcases himg s.freeblock with hb | ⟨-, hb⟩
      · rw [hb, h.fresh _ (Nat.le_refl _) hfree]
        exact (List.getD_eq_default _ _ (Nat.le_trans (hc bn hp) (Nat.le_add_right _ _))).symm
      · exact absurd hb.symm (hnew i' NDIRECT hi hlast)
    next =>
      intro hne hj
      rcases himg (addrAt s.image (ino i') (place bn)) with hb | ⟨-, hb⟩
      · rw [hb]
        exact h.bytes i' bn j hi' hbn hne hj
      · exact absurd (h.inj i' (place bn) i NDIRECT hi' (place_lt hbn) hi hlast hne hb).2
          (place_ne bn)
  · rcases himg b with he | ⟨hne, he⟩
    · rw [he]
      exact h.fresh b (by omega) hb'
    · have hr := (h.range i NDIRECT hi hlast hne).2
      omega

/-- Bytes are written behind the content of file `i`, in a block of it. -/
theorem Blocks.write (h : Blocks s ino c m) (hi : s.Inum i) (hbn : bn < MAXFILE)
    (hne : addrAt s.image (ino i) (place bn) ≠ 0) (hoff : bn * BSIZE ≤ (c i).length)
    (hend : (c i).length + p.length ≤ (bn + 1) * BSIZE)
    (hs : s' = { s with
      image := Function.update s.image (addrAt s.image (ino i) (place bn))
        ((s.image (addrAt s.image (ino i) (place bn))).copy ((c i).length - bn * BSIZE) p) }) :
    Blocks s' ino (Function.update c i (c i ++ p)) m := by
  have hlast : NDIRECT < NPLACES := by decide
  have hpl := place_lt hbn
  have himg : ∀ b, b ≠ addrAt s.image (ino i) (place bn) → s'.image b = s.image b := fun b hb => by
    rw [hs]
    exact Function.update_of_ne hb _ _
  -- the block is not an indirect one
  have haddr : ∀ i' k', s.Inum i' → addrAt s'.image (ino i') k' = addrAt s.image (ino i') k' :=
    fun i' k' hi' => addrAt_congr fun hne' => himg _ fun he =>
      place_ne bn (h.inj i' NDIRECT i (place bn) hi' hlast hi hpl hne' he).2.symm
  have hinum : ∀ {i'}, s'.Inum i' ↔ s.Inum i' := by
    intro i'
    rw [hs]
    rfl
  have hfb : s'.freeblock = s.freeblock := by rw [hs]
  refine ⟨by rw [hs]; exact h.length, hfb ▸ h.low, hfb ▸ h.high, fun i' k' hi' hk' => ?_,
    fun i' k' hi' hk' => ?_, fun i₁ k₁ i₂ k₂ hi₁ hk₁ hi₂ hk₂ => ?_, fun b hb hb' => ?_,
    fun i' bn' j hi' hbn' => ?_, fun b hb hb' => ?_⟩
  · rw [hinum] at hi'
    rw [haddr i' k' hi']
    exact h.used i' k' hi' hk'
  · rw [hinum] at hi'
    rw [haddr i' k' hi', hfb]
    exact h.range i' k' hi' hk'
  · rw [hinum] at hi₁ hi₂
    rw [haddr i₁ k₁ hi₁, haddr i₂ k₂ hi₂]
    exact h.inj i₁ k₁ i₂ k₂ hi₁ hk₁ hi₂ hk₂
  · rw [hfb] at hb'
    obtain ⟨i', k', hi', hk', he⟩ := h.onto b hb hb'
    exact ⟨i', k', hinum.2 hi', hk', (haddr i' k' hi').trans he⟩
  · rw [hinum] at hi'
    rw [haddr i' _ hi']
    intro hne' hj
    by_cases hii : i' = i
    · subst hii
      rw [Function.update_self]
      by_cases hbb : bn' = bn
      · subst hbb
        have himg' : s'.image (addrAt s.image (ino i') (place bn')) =
            (s.image (addrAt s.image (ino i') (place bn'))).copy
              ((c i').length - bn' * BSIZE) p := by
          rw [hs]
          exact Function.update_self _ _ _
        rw [himg']
        rcases Nat.lt_or_ge (bn' * BSIZE + j) (c i').length with hlt | hge
        · rw [Bytes.copy_of_lt (by omega), List.getD_append _ _ _ _ hlt]
          exact h.bytes i' bn' j hi' hbn hne hj
        · rw [List.getD_append_right _ _ _ _ hge]
          rcases Nat.lt_or_ge (bn' * BSIZE + j - (c i').length) p.length with hlt | hge'
          · rw [show j = (c i').length - bn' * BSIZE + (bn' * BSIZE + j - (c i').length) by omega,
              Bytes.copy_add hlt]
            congr 1
            omega
          · rw [Bytes.copy_of_ge (by omega), List.getD_eq_default _ _ hge',
              h.bytes i' bn' j hi' hbn hne hj, List.getD_eq_default _ _ hge]
      · rw [himg _ fun he => hbb (place_inj
            (h.inj i' _ i' _ hi' (place_lt hbn') hi' hpl hne' he).2),
          h.bytes i' bn' j hi' hbn' hne' hj]
        -- the new bytes are in another block
        have hother : bn' * BSIZE + j < (c i').length ∨
            (c i').length + p.length ≤ bn' * BSIZE + j := by
          unfold BSIZE at hoff hend hj ⊢
          omega
        rcases hother with hlt | hge
        · rw [List.getD_append _ _ _ _ hlt]
        · rw [List.getD_eq_default _ _ (by omega), List.getD_eq_default]
          rw [List.length_append]
          exact hge
    · rw [Function.update_of_ne hii, himg _ fun he =>
        hii (h.inj i' _ i _ hi' (place_lt hbn') hi hpl hne' he).1]
      exact h.bytes i' bn' j hi' hbn' hne' hj
  · rw [hfb] at hb
    rw [himg b fun he => ?_]
    · exact h.fresh b hb hb'
    · have hr := (h.range i (place bn) hi hpl hne).2
      omega

end Xv6.Mkfs
