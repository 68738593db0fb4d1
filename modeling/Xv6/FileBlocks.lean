/-
fs.c: the blocks of the files.

A file has its blocks to itself. `Blocks` says so, of any set of inodes, and
`Ext` that a step may have given blocks to them but has left their content
alone, as `balloc` and `bmap` do.
-/
import Xv6.FileSystem
import Xv6.MkfsBlocks

namespace Xv6.FileSystem

open Conc Prog Fs
open Mkfs (NPLACES place place_lt place_inj)

/-- The block number in place `k` of an inode. -/
def State.place (s : State) (i k : Nat) : Nat := Mkfs.addrAt s.data (s.inode i) k

/-- Block `b` is marked in the bitmap. -/
def State.used (s : State) (sb : Superblock) (b : Nat) : Bool :=
  (s.data (BBLOCK sb b)).getBit (b % BPB)

/-- The inodes come before the bitmap, and the bitmap before the data. -/
structure Layout (sb : Superblock) (I : Set Nat) : Prop where
  inodes : ∀ {i}, i ∈ I → IBLOCK sb i < sb.bmapstart
  bitmap : ∀ {b}, b < sb.size → BBLOCK sb b < sb.size - sb.nblocks
  size : sb.size < 2 ^ 32

/-- The blocks of the files are data blocks in use, each in one place. What
comes before the data is in use, too. -/
structure Blocks (sb : Superblock) (I : Set Nat) (s : State) : Prop where
  data : ∀ {i k}, i ∈ I → k < NPLACES → s.place i k ≠ 0 →
    sb.size - sb.nblocks ≤ s.place i k ∧ s.place i k < sb.size ∧ s.used sb (s.place i k) = true
  inj : ∀ {i k i' k'}, i ∈ I → k < NPLACES → i' ∈ I → k' < NPLACES → s.place i k ≠ 0 →
    s.place i k = s.place i' k' → i = i' ∧ k = k'
  low : ∀ {b}, b < sb.size → b < sb.size - sb.nblocks → s.used sb b = true

/-- Every block is in use. -/
def Full (sb : Superblock) (s : State) : Prop := ∀ b, b < sb.size → s.used sb b = true

/-- Blocks may have been added to the files; their content is the same. -/
structure Ext (I : Set Nat) (s s' : State) : Prop where
  size : ∀ i, (s'.inode i).size = (s.inode i).size
  place : ∀ {i k}, i ∈ I → k < NPLACES → s.place i k ≠ 0 → s'.place i k = s.place i k
  data : ∀ {i bn}, i ∈ I → bn < MAXFILE → s.addrAt i bn ≠ 0 →
    s'.data (s.addrAt i bn) = s.data (s.addrAt i bn)

variable {sb : Superblock} {I : Set Nat} {s s' s₁ : State} {i k a b n bn : Nat}

theorem addrAt_eq (s : State) (i bn : Nat) : s.addrAt i bn = s.place i (Mkfs.place bn) := by
  unfold State.addrAt State.place Mkfs.place
  by_cases hd : bn < NDIRECT
  · rw [dif_pos hd, if_pos hd, Mkfs.addrAt_of_lt (Nat.lt_succ_of_lt hd)]
  · have hge : ¬ bn + 1 < NDIRECT + 1 := by omega
    rw [dif_neg hd, if_neg hd]
    unfold Mkfs.addrAt
    rw [dif_neg hge, Nat.add_sub_add_right]

theorem place_addr (s : State) (i : Nat) (k : Fin (NDIRECT + 1)) :
    s.place i k = (s.inode i).addrs k := Mkfs.addrAt_of_lt k.2

theorem place_indirect (s : State) (i : Nat) :
    s.place i NDIRECT = (s.inode i).addrs (Fin.last NDIRECT) := Mkfs.addrAt_last

theorem place_entry {j : Nat} (h : s.place i NDIRECT ≠ 0) :
    s.place i (NDIRECT + 1 + j) = (s.data (s.place i NDIRECT)).getLe (4 * j) 4 := by
  rw [place_indirect] at h ⊢
  unfold State.place
  rw [Mkfs.addrAt_of_ge (by omega) h, Nat.add_sub_cancel_left]

theorem place_congr (hinode : s'.inode i = s.inode i)
    (hdata : s.place i NDIRECT ≠ 0 → s'.data (s.place i NDIRECT) = s.data (s.place i NDIRECT)) :
    s'.place i k = s.place i k := by
  unfold State.place
  rw [hinode]
  exact Mkfs.addrAt_congr hdata

theorem indirect_lt : NDIRECT < NPLACES := by decide

namespace Ext

theorem refl (I : Set Nat) (s : State) : Ext I s s :=
  ⟨fun _ => rfl, fun _ _ _ => rfl, fun _ _ _ => rfl⟩

theorem addrAt (h : Ext I s s') (hi : i ∈ I) (hbn : bn < MAXFILE) (h0 : s.addrAt i bn ≠ 0) :
    s'.addrAt i bn = s.addrAt i bn := by
  rw [addrAt_eq] at h0 ⊢
  rw [addrAt_eq, h.place hi (place_lt hbn) h0]

theorem trans (h : Ext I s s₁) (h' : Ext I s₁ s') : Ext I s s' := by
  refine ⟨fun i => (h'.size i).trans (h.size i), fun hi hk h0 => ?_, fun hi hbn h0 => ?_⟩
  · have he := h.place hi hk h0
    exact (h'.place hi hk (by rwa [he])).trans he
  · have he := h.addrAt hi hbn h0
    rw [← h.data hi hbn h0, ← he]
    exact h'.data hi hbn (by rwa [he])

end Ext

namespace Blocks

theorem congr (h : Blocks sb I s)
    (hplace : ∀ {i k}, i ∈ I → k < NPLACES → s'.place i k = s.place i k)
    (hused : ∀ {b}, b < sb.size → s'.used sb b = s.used sb b) : Blocks sb I s' := by
  refine ⟨fun hi hk h0 => ?_, fun hi hk hi' hk' h0 he => ?_, fun hb hlow => ?_⟩
  · rw [hplace hi hk] at h0 ⊢
    obtain ⟨h₁, h₂, h₃⟩ := h.data hi hk h0
    exact ⟨h₁, h₂, (hused h₂).trans h₃⟩
  · rw [hplace hi hk] at h0 he
    rw [hplace hi' hk'] at he
    exact h.inj hi hk hi' hk' h0 he
  · rw [hused hb]
    exact h.low hb hlow

/-- A block that was not in use comes to a place that had none. -/
theorem add (h : Blocks sb I s) (ha : a < sb.size) (hu : s.used sb a = false)
    (hplace : ∀ {i' k'}, i' ∈ I → k' < NPLACES →
      s'.place i' k' = if i' = i ∧ k' = k then a else s.place i' k')
    (hused : ∀ {b}, b < sb.size → s'.used sb b = (s.used sb b || decide (b = a))) :
    Blocks sb I s' := by
  have hlow : sb.size - sb.nblocks ≤ a := by
    by_contra hlt
    rw [h.low ha (by omega)] at hu
    cases hu
  have hne : ∀ {i' k'}, i' ∈ I → k' < NPLACES → s.place i' k' ≠ 0 → s.place i' k' ≠ a := by
    intro i' k' hi' hk' h0 he
    have huse := (h.data hi' hk' h0).2.2
    rw [he, hu] at huse
    cases huse
  refine ⟨fun {i' k'} hi' hk' h0 => ?_, fun {i₁ k₁ i₂ k₂} hi₁ hk₁ hi₂ hk₂ h0 he => ?_,
    fun {b} hb hlow' => ?_⟩
  · rw [hplace hi' hk'] at h0 ⊢
    split at h0
    · next hc =>
      rw [if_pos hc, hused ha]
      exact ⟨hlow, ha, by simp⟩
    · next hc =>
      obtain ⟨h₁, h₂, h₃⟩ := h.data hi' hk' h0
      rw [if_neg hc, hused h₂, h₃]
      exact ⟨h₁, h₂, rfl⟩
  · rw [hplace hi₁ hk₁] at h0 he
    rw [hplace hi₂ hk₂] at he
    split at he
    · next hc =>
      split at he
      · next hc' => exact ⟨hc.1.trans hc'.1.symm, hc.2.trans hc'.2.symm⟩
      · rw [if_pos hc] at h0
        exact absurd he.symm (hne hi₂ hk₂ (he ▸ h0))
    · next hc =>
      rw [if_neg hc] at h0
      split at he
      · exact absurd he (hne hi₁ hk₁ h0)
      · exact h.inj hi₁ hk₁ hi₂ hk₂ h0 he
  · rw [hused hb, h.low hb hlow']
    rfl

end Blocks

/-! ## balloc -/

/-- `balloc` has taken block `a`. -/
def State.allocated (s : State) (sb : Superblock) (a : Nat) : State :=
  (((s.store (BBLOCK sb a) ((s.data (BBLOCK sb a)).setBit (a % BPB))).log_write
    (BBLOCK sb a)).store a Bytes.zero).log_write a

theorem ballocLoop_run (hb : b % BPB = 0) (hn : sb.size ≤ b + n * BPB) :
    (∃ a, b ≤ a ∧ a < sb.size ∧ s.used sb a = false ∧
      (ballocLoop sb n b).run s = .ok a (s.allocated sb a)) ∨
    ((ballocLoop sb n b).run s = .ok 0 s ∧ ∀ a, b ≤ a → a < sb.size → s.used sb a = true) := by
  have hB : BPB = 8192 := rfl
  induction n generalizing b with
  | zero => exact .inr ⟨rfl, fun a hba ha => by omega⟩
  | succ n ih =>
    have hblock : ∀ bi, bi < BPB → BBLOCK sb (b + bi) = BBLOCK sb b ∧ (b + bi) % BPB = bi := by
      intro bi hbi
      unfold BBLOCK
      rw [hB] at *
      omega
    simp only [ballocLoop, takeBit, run_bind, run_atom]
    cases hf : findFree sb (s.data (BBLOCK sb b)) b with
    | some bi =>
      have hmem := List.mem_range.1 (List.mem_of_find?_eq_some hf)
      have hfree := List.find?_some hf
      obtain ⟨hbl, hmod⟩ := hblock bi (by omega)
      refine .inl ⟨b + bi, by omega, by omega, ?_, ?_⟩
      · unfold State.used
        rw [hbl, hmod]
        simpa using hfree
      · unfold State.allocated
        rw [hbl, hmod]
        rfl
    | none =>
      have hall : ∀ a, b ≤ a → a < sb.size → a < b + BPB → s.used sb a = true := by
        intro a hba ha hlt
        obtain ⟨hbl, hmod⟩ := hblock (a - b) (by omega)
        rw [Nat.add_sub_cancel' hba] at hbl hmod
        unfold State.used
        rw [hbl, hmod]
        have hno := List.find?_eq_none.1 hf (a - b) (List.mem_range.2 (by omega))
        simpa using hno
      rcases ih (b := b + BPB) (by rw [Nat.add_mod_right, hb])
        (by rw [Nat.succ_mul] at hn; omega) with ⟨a, hba, ha, hu, hrun⟩ | ⟨hrun, hfull⟩
      · exact .inl ⟨a, by omega, ha, hu, hrun⟩
      · refine .inr ⟨hrun, fun a hba ha => ?_⟩
        by_cases hlt : a < b + BPB
        · exact hall a hba ha hlt
        · exact hfull a (by omega) ha

theorem balloc_run (sb : Superblock) (s : State) :
    (∃ a, a < sb.size ∧ s.used sb a = false ∧ (balloc sb).run s = .ok a (s.allocated sb a)) ∨
    ((balloc sb).run s = .ok 0 s ∧ Full sb s) := by
  have hB : BPB = 8192 := rfl
  rcases @ballocLoop_run sb s 0 ((sb.size + BPB - 1) / BPB) (Nat.zero_mod _)
    (by rw [hB]; omega) with ⟨a, -, ha, hu, hrun⟩ | ⟨hrun, hfull⟩
  · exact .inl ⟨a, ha, hu, hrun⟩
  · exact .inr ⟨hrun, fun b hb => hfull b (Nat.zero_le b) hb⟩

/-! ## The block that `balloc` takes -/

section

variable (L : Layout sb I) (h : Blocks sb I s)

include h in
theorem Blocks.low_of_free (ha : a < sb.size) (hu : s.used sb a = false) :
    sb.size - sb.nblocks ≤ a := by
  by_contra hlt
  rw [h.low ha (by omega)] at hu
  cases hu

include L in
theorem Layout.bitmap_ne (hb : b < sb.size) (ha : sb.size - sb.nblocks ≤ a) :
    a ≠ BBLOCK sb b := by
  have hlt := L.bitmap hb
  omega

theorem allocated_self : (s.allocated sb a).data a = Bytes.zero := Function.update_self ..

include L in
theorem allocated_data (ha : a < sb.size) (hb : sb.size - sb.nblocks ≤ b) (hne : b ≠ a) :
    (s.allocated sb a).data b = s.data b :=
  (Function.update_of_ne hne ..).trans (Function.update_of_ne (L.bitmap_ne ha hb) ..)

include L h in
theorem allocated_used (ha : a < sb.size) (hu : s.used sb a = false) (hb : b < sb.size) :
    (s.allocated sb a).used sb b = (s.used sb b || decide (b = a)) := by
  have hlow := h.low_of_free ha hu
  have hne := (L.bitmap_ne hb hlow).symm
  have hdata : (s.allocated sb a).data (BBLOCK sb b) = Function.update s.data (BBLOCK sb a)
      ((s.data (BBLOCK sb a)).setBit (a % BPB)) (BBLOCK sb b) := Function.update_of_ne hne ..
  unfold State.used
  rw [hdata]
  by_cases hab : BBLOCK sb b = BBLOCK sb a
  · rw [hab, Function.update_self, Bytes.getBit_setBit]
    have hiff : a % BPB = b % BPB ↔ b = a := by
      unfold BBLOCK BPB BSIZE at hab
      unfold BPB BSIZE
      omega
    simp only [hiff]
  · have hba : b ≠ a := fun he => hab (by rw [he])
    rw [Function.update_of_ne hab]
    simp [hba]

include h in
/-- A block of a file is not the one that was free. -/
theorem Blocks.place_ne (hi : i ∈ I) (hk : k < NPLACES) (h0 : s.place i k ≠ 0)
    (hu : s.used sb a = false) : s.place i k ≠ a := by
  intro he
  have huse := (h.data hi hk h0).2.2
  rw [he, hu] at huse
  cases huse

include L h in
theorem bmapAddr_run (hi : i ∈ I) (k : Fin (NDIRECT + 1)) :
    ∃ addr s', (bmapAddr sb i k).run s = .ok addr s' ∧ Blocks sb I s' ∧ Ext I s s' ∧
      (s'.inode i).addrs k = addr ∧ (addr = 0 → Full sb s') := by
  simp only [bmapAddr, run_bind, run_read]
  by_cases hk : (s.inode i).addrs k = 0
  · rw [if_neg (not_not.2 hk), run_bind]
    rcases balloc_run sb s with ⟨a, ha, hu, hrun⟩ | ⟨hrun, hfull⟩
    · have hlow := h.low_of_free ha hu
      have h0 : a ≠ 0 := by
        have hlt := L.bitmap ha
        omega
      obtain ⟨s₂, hs₂⟩ : ∃ s₂, s₂ = (s.allocated sb a).setInode i { s.inode i with
          addrs := Function.update (s.inode i).addrs k a } := ⟨_, rfl⟩
      have hrun₂ : (if a = 0 then (return 0 : Prog State Nat) else do
          setAddr i k a
          return a).run (s.allocated sb a) = .ok a s₂ := by
        rw [if_neg h0, hs₂]
        rfl
      have hself : s₂.inode i = { s.inode i with
          addrs := Function.update (s.inode i).addrs k a } := by
        rw [hs₂]
        exact Function.update_self ..
      have hother : ∀ {i'}, i' ≠ i → s₂.inode i' = s.inode i' := fun hne => by
        rw [hs₂]
        exact Function.update_of_ne hne ..
      have hdata : ∀ {b}, sb.size - sb.nblocks ≤ b → b ≠ a → s₂.data b = s.data b := by
        intro b hb hne
        rw [hs₂]
        exact allocated_data L ha hb hne
      have hind : ∀ {i'}, i' ∈ I → s.place i' NDIRECT ≠ 0 →
          s₂.data (s.place i' NDIRECT) = s.data (s.place i' NDIRECT) := fun hi' h0' =>
        hdata (h.data hi' indirect_lt h0').1 (h.place_ne hi' indirect_lt h0' hu)
      have hplace : ∀ {i' k'}, i' ∈ I → k' < NPLACES →
          s₂.place i' k' = if i' = i ∧ k' = k then a else s.place i' k' := by
        intro i' k' hi' _
        by_cases hii : i' = i
        · subst hii
          by_cases hk' : k' < NDIRECT + 1
          · -- a number in the inode
            have hin : s₂.place i' k' = Function.update (s.inode i').addrs k a ⟨k', hk'⟩ := by
              rw [show s₂.place i' k' = (s₂.inode i').addrs ⟨k', hk'⟩ from Mkfs.addrAt_of_lt hk',
                hself]
            rw [hin]
            by_cases hkk : k' = k
            · have hfin : (⟨k', hk'⟩ : Fin (NDIRECT + 1)) = k := Fin.ext hkk
              rw [if_pos ⟨rfl, hkk⟩, hfin, Function.update_self]
            · have hfin : (⟨k', hk'⟩ : Fin (NDIRECT + 1)) ≠ k := fun he =>
                hkk (congrArg Fin.val he)
              rw [if_neg fun hc => hkk hc.2, Function.update_of_ne hfin]
              exact (Mkfs.addrAt_of_lt hk').symm
          · -- an entry of the indirect block, which may be the new one
            have hnot : ¬ (i' = i' ∧ k' = k) := fun hc => hk' (hc.2 ▸ k.2)
            rw [if_neg hnot]
            by_cases hlast : k = Fin.last NDIRECT
            · subst hlast
              have hold : s.place i' k' = 0 := by
                unfold State.place Mkfs.addrAt
                rw [dif_neg hk', if_pos hk]
              have hlast₂ : (s₂.inode i').addrs (Fin.last NDIRECT) = a := by
                rw [hself]
                exact Function.update_self (Fin.last NDIRECT) a (s.inode i').addrs
              have hnew : s₂.place i' k' = 0 := by
                unfold State.place Mkfs.addrAt
                rw [dif_neg hk', hlast₂, if_neg h0, hs₂]
                exact (congrArg (fun d : Bytes => d.getLe _ 4) allocated_self).trans
                  (Bytes.getLe_zero ..)
              rw [hold, hnew]
            · have hlast' : (s₂.inode i').addrs (Fin.last NDIRECT) =
                  (s.inode i').addrs (Fin.last NDIRECT) := by
                rw [hself]
                exact Function.update_of_ne (Ne.symm hlast) ..
              unfold State.place Mkfs.addrAt
              rw [dif_neg hk', dif_neg hk', hlast']
              split
              · rfl
              · next h0' =>
                have he := hind hi' (by rw [place_indirect]; exact h0')
                rw [place_indirect] at he
                rw [he]
        · rw [if_neg fun hc => hii hc.1]
          exact place_congr (hother hii) (hind hi')
      have hused : ∀ {b}, b < sb.size → s₂.used sb b = (s.used sb b || decide (b = a)) := by
        intro b hb
        rw [hs₂]
        exact allocated_used L h ha hu hb
      refine ⟨a, s₂, ?_, h.add ha hu hplace hused, ⟨fun i' => ?_, fun {i' k'} hi' hk' h0' => ?_,
        fun {i' bn} hi' hbn h0' => ?_⟩, ?_, fun he => absurd he h0⟩
      · rw [hrun]
        exact hrun₂
      · by_cases hii : i' = i
        · rw [hii, hself]
        · rw [hother hii]
      · rw [hplace hi' hk', if_neg]
        intro hc
        rw [hc.1, hc.2, place_addr, hk] at h0'
        exact h0' rfl
      · rw [addrAt_eq] at h0' ⊢
        exact hdata (h.data hi' (place_lt hbn) h0').1 (h.place_ne hi' (place_lt hbn) h0' hu)
      · rw [hself]
        exact Function.update_self ..
    · rw [hrun]
      exact ⟨0, s, rfl, h, Ext.refl I s, hk, fun _ => hfull⟩
  · rw [if_pos hk]
    exact ⟨_, s, rfl, h, Ext.refl I s, rfl, fun he => absurd he hk⟩

include L h in
/-- The block for `bn`, with the content of every file as it was. -/
theorem bmap_run (hi : i ∈ I) (hbn : bn < MAXFILE) :
    ∃ addr s', (bmap sb i bn).run s = .ok addr s' ∧ Blocks sb I s' ∧ Ext I s s' ∧
      (addr ≠ 0 → s'.addrAt i bn = addr) ∧ (addr = 0 → Full sb s') := by
  unfold bmap
  by_cases hd : bn < NDIRECT
  · rw [dif_pos hd]
    obtain ⟨addr, s', hrun, hB, hE, haddr, hfull⟩ :=
      bmapAddr_run L h hi ⟨bn, Nat.lt_succ_of_lt hd⟩
    refine ⟨addr, s', hrun, hB, hE, fun _ => ?_, hfull⟩
    unfold State.addrAt
    rw [dif_pos hd, haddr]
  · obtain ⟨j, hj⟩ : ∃ j, j = bn - NDIRECT := ⟨_, rfl⟩
    have hjlt : j < NINDIRECT := by
      unfold MAXFILE at hbn
      omega
    have hpl : Mkfs.place bn = NDIRECT + 1 + j := by
      unfold Mkfs.place
      rw [if_neg hd]
      omega
    rw [dif_neg hd, ← hj, if_pos hjlt, run_bind]
    obtain ⟨ind, s₁, hrun, hB, hE, haddr, hfull⟩ := bmapAddr_run L h hi (Fin.last NDIRECT)
    rw [hrun]
    have hind : s₁.place i NDIRECT = ind := (place_indirect s₁ i).trans haddr
    by_cases h0 : ind = 0
    · refine ⟨0, s₁, ?_, hB, hE, fun hne => absurd rfl hne, fun _ => hfull h0⟩
      simp only [h0, if_true]
      rfl
    · have hentry : s₁.addrAt i bn = (s₁.data ind).getLe (4 * j) 4 := by
        rw [addrAt_eq, hpl, place_entry (by rwa [hind]), hind]
      simp only [h0, if_false, run_bind, bread, run_read]
      by_cases he : (s₁.data ind).getLe (4 * j) 4 = 0
      · rw [if_neg (not_not.2 he), run_bind]
        rcases balloc_run sb s₁ with ⟨b, hb, hu, hrun₂⟩ | ⟨hrun₂, hfull₂⟩
        · have hlow := hB.low_of_free hb hu
          have hb0 : b ≠ 0 := by
            have hlt := L.bitmap hb
            omega
          obtain ⟨hindlow, hindlt, hinduse⟩ := hB.data hi indirect_lt (by rwa [hind])
          rw [hind] at hindlow hindlt hinduse
          have hindb : ind ≠ b := fun heq => by
            rw [heq, hu] at hinduse
            cases hinduse
          obtain ⟨s₃, hs₃⟩ : ∃ s₃, s₃ = ((s₁.allocated sb b).store ind
              (((s₁.allocated sb b).data ind).putLe (4 * j) 4 b)).log_write ind := ⟨_, rfl⟩
          have hinddata : (s₁.allocated sb b).data ind = s₁.data ind :=
            allocated_data L hb hindlow hindb
          have hself : s₃.data ind = (s₁.data ind).putLe (4 * j) 4 b := by
            rw [hs₃, ← hinddata]
            exact Function.update_self ..
          have hdata : ∀ {c}, sb.size - sb.nblocks ≤ c → c ≠ b → c ≠ ind →
              s₃.data c = s₁.data c := by
            intro c hc hcb hci
            rw [hs₃]
            exact (Function.update_of_ne hci ..).trans (allocated_data L hb hc hcb)
          have hinode : s₃.inode = s₁.inode := by
            rw [hs₃]
            rfl
          have hind₃ : s₃.place i NDIRECT = ind := by
            rw [place_indirect, hinode]
            exact haddr
          have hplace : ∀ {i' k'}, i' ∈ I → k' < NPLACES →
              s₃.place i' k' = if i' = i ∧ k' = NDIRECT + 1 + j then b else s₁.place i' k' := by
            intro i' k' hi' hk'
            by_cases hii : i' = i
            · subst hii
              by_cases hk : k' < NDIRECT + 1
              · rw [if_neg (by omega)]
                unfold State.place
                rw [Mkfs.addrAt_of_lt hk, Mkfs.addrAt_of_lt hk, hinode]
              · obtain ⟨j', rfl⟩ : ∃ j', k' = NDIRECT + 1 + j' := ⟨k' - (NDIRECT + 1), by omega⟩
                rw [place_entry (by rw [hind₃]; exact h0), hind₃, hself,
                  place_entry (by rw [hind]; exact h0), hind]
                by_cases hjj : j' = j
                · subst hjj
                  have hlt := L.size
                  rw [if_pos ⟨rfl, rfl⟩, Bytes.getLe_putLe, Nat.mod_eq_of_lt (by omega)]
                · rw [if_neg (by omega), Bytes.getLe_putLe_of_disjoint (by omega)]
            · rw [if_neg fun hc => hii hc.1]
              refine place_congr (by rw [hinode]) fun h0' => ?_
              refine hdata (hB.data hi' indirect_lt h0').1 (hB.place_ne hi' indirect_lt h0' hu) ?_
              intro heq
              exact hii (hB.inj hi' indirect_lt hi indirect_lt h0' (heq.trans hind.symm)).1
          have hused : ∀ {c}, c < sb.size → s₃.used sb c = (s₁.used sb c || decide (c = b)) := by
            intro c hc
            rw [← allocated_used L hB hb hu hc, hs₃]
            unfold State.used
            exact congrArg (fun d : Bytes => d.getBit _)
              (Function.update_of_ne (L.bitmap_ne hc hindlow).symm ..)
          have hE₃ : Ext I s₁ s₃ := by
            refine ⟨fun i' => by rw [hinode], fun {i' k'} hi' hk' h0' => ?_,
              fun {i' bn'} hi' hbn' h0' => ?_⟩
            · rw [hplace hi' hk', if_neg]
              intro hc
              rw [hc.1, hc.2, ← hpl, ← addrAt_eq, hentry, he] at h0'
              exact h0' rfl
            · rw [addrAt_eq] at h0' ⊢
              refine hdata (hB.data hi' (place_lt hbn') h0').1
                (hB.place_ne hi' (place_lt hbn') h0' hu) fun heq => ?_
              exact Mkfs.place_ne bn' (hB.inj hi' (place_lt hbn') hi indirect_lt h0'
                (heq.trans hind.symm)).2
          refine ⟨b, s₃, ?_, hB.add hb hu hplace hused, hE.trans hE₃, fun _ => ?_,
            fun heq => absurd heq hb0⟩
          · rw [hrun₂, hs₃]
            simp only [hb0, if_false]
            rfl
          · rw [addrAt_eq, hpl, hplace hi (by rw [← hpl]; exact place_lt hbn), if_pos ⟨rfl, rfl⟩]
        · refine ⟨0, s₁, ?_, hB, hE, fun hne => absurd rfl hne, fun _ => hfull₂⟩
          rw [hrun₂]
          rfl
      · rw [if_pos he]
        exact ⟨_, s₁, rfl, hB, hE, fun _ => hentry, fun heq => absurd heq he⟩

/-- A block that is there is found, and nothing changes. -/
theorem bmap_there (hbn : bn < MAXFILE) (h0 : s.addrAt i bn ≠ 0) :
    (bmap sb i bn).run s = .ok (s.addrAt i bn) s := by
  unfold State.addrAt at h0 ⊢
  unfold bmap
  by_cases hd : bn < NDIRECT
  · rw [dif_pos hd] at h0 ⊢
    rw [dif_pos hd]
    simp only [bmapAddr, run_bind, run_read, if_pos h0]
    rfl
  · rw [dif_neg hd] at h0 ⊢
    have hjlt : bn - NDIRECT < NINDIRECT := by
      unfold MAXFILE at hbn
      omega
    rw [dif_neg hd, if_pos hjlt]
    split at h0
    · exact absurd rfl h0
    · next hind =>
      simp only [bmapAddr, run_bind, run_read, ne_eq, hind, not_false_eq_true, if_true, if_false,
        bread, Conc.Prog.pure_eq, run_ret, h0]

end

end Xv6.FileSystem
