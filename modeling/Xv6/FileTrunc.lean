/-
fs.c: itrunc, and files under any sequence of operations.
-/
import Xv6.FileBytes

namespace Xv6.FileSystem

open Conc Prog Fs
open Mkfs (NPLACES place place_lt place_inj)

variable {sb : Superblock} {I : Set Nat} {s s' s₁ : State} {i k a b n off bn : Nat} {mem : Mem}

/-! ## itrunc -/

/-- The blocks in `F` are free, and in no place any more. -/
theorem Blocks.remove (h : Blocks sb I s) {F : Set Nat}
    (hF : ∀ {b}, b ∈ F → sb.size - sb.nblocks ≤ b)
    (hplace : ∀ {i k}, i ∈ I → k < NPLACES → s'.place i k ≠ 0 →
      s'.place i k = s.place i k ∧ s.place i k ∉ F)
    (hused : ∀ {b}, b < sb.size → b ∉ F → s'.used sb b = s.used sb b) : Blocks sb I s' := by
  refine ⟨fun hi hk h0 => ?_, fun hi hk hi' hk' h0 he => ?_, fun {b} hb hlow => ?_⟩
  · obtain ⟨heq, hF'⟩ := hplace hi hk h0
    rw [heq] at h0 ⊢
    obtain ⟨h₁, h₂, h₃⟩ := h.data hi hk h0
    exact ⟨h₁, h₂, (hused h₂ hF').trans h₃⟩
  · obtain ⟨heq, -⟩ := hplace hi hk h0
    obtain ⟨heq', -⟩ := hplace hi' hk' (by rwa [← he])
    rw [heq] at h0 he
    rw [heq'] at he
    exact h.inj hi hk hi' hk' h0 he
  · rw [hused hb fun hF' => by have := hF hF'; omega]
    exact h.low hb hlow

/-- `bfree` of a block in use. -/
theorem bfree_run (L : Layout sb I) (ha : a < sb.size)
    (hu : s.used sb a = true) :
    ∃ s', (bfree sb a).run s = .ok () s' ∧ s'.inode = s.inode ∧
      (∀ {b}, sb.size - sb.nblocks ≤ b → s'.data b = s.data b) ∧
      ∀ {b}, b < sb.size → b ≠ a → s'.used sb b = s.used sb b := by
  obtain ⟨s', hs'⟩ : ∃ s', s' = (s.store (BBLOCK sb a)
      ((s.data (BBLOCK sb a)).clearBit (a % BPB))).log_write (BBLOCK sb a) := ⟨_, rfl⟩
  refine ⟨s', ?_, by rw [hs']; rfl, fun {b} hb => ?_, fun {b} hb hne => ?_⟩
  · unfold State.used at hu
    simp only [bfree, run_atom, hu, if_true, hs']
  · rw [hs']
    exact Function.update_of_ne (L.bitmap_ne ha hb) ..
  · unfold State.used
    rw [hs']
    show (Function.update s.data (BBLOCK sb a) _ (BBLOCK sb b)).getBit _ = _
    by_cases hab : BBLOCK sb b = BBLOCK sb a
    · rw [hab, Function.update_self, Bytes.getBit_clearBit]
      have hmod : ¬ a % BPB = b % BPB := by
        unfold BBLOCK BPB BSIZE at hab
        unfold BPB BSIZE
        omega
      simp [hmod]
    · rw [Function.update_of_ne hab]

theorem freeEntries_run (L : Layout sb I) (d : Bytes) {js : List Nat} (hnodup : js.Nodup)
    (hdata : ∀ j ∈ js, d.getLe (4 * j) 4 ≠ 0 →
      d.getLe (4 * j) 4 < sb.size ∧ s.used sb (d.getLe (4 * j) 4) = true)
    (hinj : ∀ j ∈ js, ∀ j' ∈ js, d.getLe (4 * j) 4 ≠ 0 →
      d.getLe (4 * j) 4 = d.getLe (4 * j') 4 → j = j') :
    ∃ s', (freeEntries sb d js).run s = .ok () s' ∧ s'.inode = s.inode ∧
      (∀ {b}, sb.size - sb.nblocks ≤ b → s'.data b = s.data b) ∧
      ∀ {b}, b < sb.size → (∀ j ∈ js, d.getLe (4 * j) 4 ≠ 0 → d.getLe (4 * j) 4 ≠ b) →
        s'.used sb b = s.used sb b := by
  induction js generalizing s with
  | nil => exact ⟨s, rfl, rfl, fun _ => rfl, fun _ _ => rfl⟩
  | cons j js ih =>
    obtain ⟨hj, hnodup'⟩ := List.nodup_cons.1 hnodup
    have hinj' : ∀ j₁ ∈ js, ∀ j₂ ∈ js, d.getLe (4 * j₁) 4 ≠ 0 →
        d.getLe (4 * j₁) 4 = d.getLe (4 * j₂) 4 → j₁ = j₂ := fun j₁ h₁ j₂ h₂ =>
      hinj j₁ (List.mem_cons_of_mem _ h₁) j₂ (List.mem_cons_of_mem _ h₂)
    by_cases h0 : d.getLe (4 * j) 4 = 0
    · obtain ⟨s', hrun, hinode, hkeep, hused⟩ := ih hnodup'
        (fun j' hj' => hdata j' (List.mem_cons_of_mem _ hj')) hinj'
      refine ⟨s', ?_, hinode, hkeep, fun hb hno => hused hb fun j' hj' =>
        hno j' (List.mem_cons_of_mem _ hj')⟩
      simp only [freeEntries, h0, ne_eq, not_true_eq_false, if_false]
      exact hrun
    · obtain ⟨hlt, hu⟩ := hdata j List.mem_cons_self h0
      obtain ⟨s₁, hrun₁, hinode₁, hkeep₁, hused₁⟩ := bfree_run L hlt hu
      obtain ⟨s', hrun, hinode, hkeep, hused⟩ := ih (s := s₁) hnodup' (fun j' hj' h0' => by
        obtain ⟨hlt', hu'⟩ := hdata j' (List.mem_cons_of_mem _ hj') h0'
        refine ⟨hlt', (hused₁ hlt' fun he => hj ?_).trans hu'⟩
        rw [← hinj j' (List.mem_cons_of_mem _ hj') j List.mem_cons_self h0' he]
        exact hj') hinj'
      refine ⟨s', ?_, hinode.trans hinode₁, fun hb => (hkeep hb).trans (hkeep₁ hb),
        fun hb hno => ?_⟩
      · simp only [freeEntries, ne_eq, h0, not_false_eq_true, if_true, run_bind, hrun₁]
        exact hrun
      · have hne := hno j List.mem_cons_self h0
        exact (hused hb fun j' hj' => hno j' (List.mem_cons_of_mem _ hj')).trans
          (hused₁ hb (Ne.symm hne))

/-- Blocks may have been taken from file `i`; what the files still have is as
it was. -/
structure Trim (sb : Superblock) (I : Set Nat) (i : Nat) (s s' : State) : Prop where
  size : ∀ i', (s'.inode i').size = (s.inode i').size
  other : ∀ {i' k}, i' ∈ I → i' ≠ i → s'.place i' k = s.place i' k
  data : ∀ {b}, sb.size - sb.nblocks ≤ b → s'.data b = s.data b

theorem Trim.trans (h : Trim sb I i s s₁) (h' : Trim sb I i s₁ s') : Trim sb I i s s' :=
  ⟨fun i' => (h'.size i').trans (h.size i'),
    fun hi' hii => (h'.other hi' hii).trans (h.other hi' hii),
    fun hb => (h'.data hb).trans (h.data hb)⟩

/-- Number `k` of file `i` is cleared. -/
def State.clearAddr (s : State) (i : Nat) (k : Fin (NDIRECT + 1)) : State :=
  s.setInode i { s.inode i with addrs := Function.update (s.inode i).addrs k 0 }

/-- The places that number `k` of an inode is, or is the way to. -/
def Under (k : Fin (NDIRECT + 1)) (k' : Nat) : Prop :=
  k' = k ∨ k = Fin.last NDIRECT ∧ NDIRECT < k'

theorem place_clearAddr_of_ne {i' : Nat} (hii : i' ≠ i) (k : Fin (NDIRECT + 1)) (k' : Nat) :
    (s.clearAddr i k).place i' k' = s.place i' k' :=
  place_congr (Function.update_of_ne hii ..) fun _ => rfl

theorem place_clearAddr (k : Fin (NDIRECT + 1)) {k' : Nat} :
    (s.clearAddr i k).place i k' ≠ 0 →
      (s.clearAddr i k).place i k' = s.place i k' ∧ ¬ Under k k' := by
  intro h0
  have haddrs : ((s.clearAddr i k).inode i).addrs = Function.update (s.inode i).addrs k 0 := by
    unfold State.clearAddr State.setInode
    simp
  unfold State.place at h0 ⊢
  unfold Mkfs.addrAt at h0 ⊢
  rw [haddrs] at h0 ⊢
  by_cases hk' : k' < NDIRECT + 1
  · rw [dif_pos hk'] at h0
    have hne : (⟨k', hk'⟩ : Fin (NDIRECT + 1)) ≠ k := by
      intro he
      rw [he, Function.update_self] at h0
      exact h0 rfl
    rw [dif_pos hk', dif_pos hk', Function.update_of_ne hne]
    refine ⟨rfl, ?_⟩
    rintro (he | ⟨-, hlt⟩)
    · exact hne (Fin.ext he)
    · omega
  · rw [dif_neg hk'] at h0
    have hne : Fin.last NDIRECT ≠ k := by
      intro he
      rw [he, Function.update_self] at h0
      exact h0 (if_pos rfl)
    rw [dif_neg hk', dif_neg hk', Function.update_of_ne hne]
    refine ⟨rfl, ?_⟩
    rintro (he | ⟨he, -⟩)
    · exact hk' (he ▸ k.2)
    · exact hne he.symm

/-- The blocks that file `i` had under its number `k` have been freed, and the
number is cleared. -/
theorem Blocks.clearAddr (h : Blocks sb I s) (hi : i ∈ I) (k : Fin (NDIRECT + 1))
    (hinode : s₁.inode = s.inode) (hkeep : ∀ {b}, sb.size - sb.nblocks ≤ b → s₁.data b = s.data b)
    (hused : ∀ {b}, b < sb.size →
      (∀ k', k' < NPLACES → Under k k' → s.place i k' ≠ 0 → s.place i k' ≠ b) →
      s₁.used sb b = s.used sb b) :
    Blocks sb I (s₁.clearAddr i k) ∧ Trim sb I i s (s₁.clearAddr i k) := by
  have hplace₁ : ∀ {i' k'}, i' ∈ I → s₁.place i' k' = s.place i' k' := fun hi' =>
    place_congr (by rw [hinode]) fun h0 => hkeep (h.data hi' indirect_lt h0).1
  refine ⟨h.remove (F := {b | ∃ k', k' < NPLACES ∧ Under k k' ∧ s.place i k' ≠ 0 ∧
    s.place i k' = b}) ?_ ?_ ?_, fun i' => ?_, fun hi' hii => ?_, hkeep⟩
  · rintro b ⟨k', hk', -, h0, rfl⟩
    exact (h.data hi hk' h0).1
  · intro i' k' hi' hk' h0
    by_cases hii : i' = i
    · subst hii
      obtain ⟨he, hnot⟩ := place_clearAddr k h0
      rw [he, hplace₁ hi'] at h0 ⊢
      refine ⟨rfl, ?_⟩
      rintro ⟨k₂, hk₂, hunder, -, he₂⟩
      obtain ⟨-, rfl⟩ := h.inj hi' hk' hi' hk₂ h0 he₂.symm
      exact hnot hunder
    · rw [place_clearAddr_of_ne hii, hplace₁ hi'] at h0 ⊢
      refine ⟨rfl, ?_⟩
      rintro ⟨k₂, hk₂, -, -, he₂⟩
      exact hii (h.inj hi' hk' hi hk₂ h0 he₂.symm).1
  · intro b hb hF
    exact hused hb fun k' hk' hunder h0 he => hF ⟨k', hk', hunder, h0, he⟩
  · show (Function.update s₁.inode i _ i').size = _
    by_cases hii : i' = i
    · rw [hii, Function.update_self, hinode]
    · rw [Function.update_of_ne hii, hinode]
  · rw [place_clearAddr_of_ne hii, hplace₁ hi']

theorem truncAddrs_run (L : Layout sb I) (h : Blocks sb I s) (hi : i ∈ I)
    {ks : List (Fin (NDIRECT + 1))} (hks : ∀ k ∈ ks, k ≠ Fin.last NDIRECT) :
    ∃ s', (truncAddrs sb i ks).run s = .ok () s' ∧ Blocks sb I s' ∧ Trim sb I i s s' := by
  induction ks generalizing s with
  | nil => exact ⟨s, rfl, h, fun _ => rfl, fun _ _ => rfl, fun _ => rfl⟩
  | cons k ks ih =>
    have hks' : ∀ k ∈ ks, k ≠ Fin.last NDIRECT := fun k' hk' => hks k' (List.mem_cons_of_mem _ hk')
    by_cases h0 : (s.inode i).addrs k = 0
    · obtain ⟨s', hrun, hB, hT⟩ := ih h hks'
      refine ⟨s', ?_, hB, hT⟩
      simp only [truncAddrs, run_bind, run_read, h0, ne_eq, not_true_eq_false, if_false]
      exact hrun
    · have hk : (k : Nat) < NPLACES := Nat.lt_of_lt_of_le k.2 indirect_lt
      obtain ⟨-, hlt, hu⟩ := h.data hi hk (by rwa [place_addr])
      rw [place_addr] at hlt hu
      obtain ⟨s₁, hrun₁, hinode₁, hkeep₁, hused₁⟩ := bfree_run L hlt hu
      obtain ⟨hB₁, hT₁⟩ := h.clearAddr hi k hinode₁ hkeep₁ fun {b} hb hno => by
        have hne := hno k hk (.inl rfl)
        rw [place_addr] at hne
        exact hused₁ hb (hne h0).symm
      obtain ⟨s', hrun, hB, hT⟩ := ih hB₁ hks'
      refine ⟨s', ?_, hB, hT₁.trans hT⟩
      simp only [truncAddrs, run_bind, run_read, h0, ne_eq, not_false_eq_true, if_true, hrun₁]
      exact hrun

/-- The part of `itrunc` on the indirect block. -/
theorem truncIndirect_run (L : Layout sb I) (h : Blocks sb I s) (hi : i ∈ I) :
    ∃ s', (truncIndirect sb i).run s = .ok () s' ∧ Blocks sb I s' ∧ Trim sb I i s s' := by
  simp only [truncIndirect, run_bind, run_read]
  by_cases h0 : (s.inode i).addrs (Fin.last NDIRECT) = 0
  · rw [if_neg (not_not.2 h0)]
    exact ⟨s, rfl, h, fun _ => rfl, fun _ _ => rfl, fun _ => rfl⟩
  · have hind : s.place i NDIRECT ≠ 0 := by rwa [place_indirect]
    have hentry : ∀ j, (s.data (s.place i NDIRECT)).getLe (4 * j) 4 =
        s.place i (NDIRECT + 1 + j) := fun j => (place_entry hind).symm
    have hlt : ∀ j, j ∈ List.range NINDIRECT → NDIRECT + 1 + j < NPLACES := fun j hj => by
      have := List.mem_range.1 hj
      unfold NPLACES
      omega
    obtain ⟨-, hltind, huind⟩ := h.data hi indirect_lt hind
    obtain ⟨s₁, hrun₁, hinode₁, hkeep₁, hused₁⟩ := freeEntries_run L (s.data (s.place i NDIRECT))
      List.nodup_range (s := s) (fun j hj h0' => by
        rw [hentry] at h0' ⊢
        exact (h.data hi (hlt j hj) h0').2) fun j hj j' hj' h0' he => by
        rw [hentry, hentry] at he
        rw [hentry] at h0'
        have := (h.inj hi (hlt j hj) hi (hlt j' hj') h0' he).2
        omega
    have huind₁ : s₁.used sb (s.place i NDIRECT) = true := by
      refine (hused₁ hltind fun j hj h0' he => ?_).trans huind
      rw [hentry] at h0' he
      have := (h.inj hi (hlt j hj) hi indirect_lt h0' he).2
      omega
    obtain ⟨s₂, hrun₂, hinode₂, hkeep₂, hused₂⟩ := bfree_run L hltind huind₁
    obtain ⟨hB, hT⟩ := h.clearAddr hi (Fin.last NDIRECT) (hinode₂.trans hinode₁)
      (fun hb => (hkeep₂ hb).trans (hkeep₁ hb)) fun {b} hb hno => by
        refine (hused₂ hb (hno NDIRECT indirect_lt (.inl rfl) hind).symm).trans
          (hused₁ hb fun j hj h0' => ?_)
        rw [hentry] at h0' ⊢
        exact hno _ (hlt j hj) (.inr ⟨rfl, by omega⟩) h0'
    refine ⟨s₂.clearAddr i (Fin.last NDIRECT), ?_, hB, hT⟩
    rw [place_indirect] at hrun₁ hrun₂
    simp only [ne_eq, h0, not_false_eq_true, if_true, run_bind, bread, run_read, hrun₁, hrun₂]
    rfl

theorem itrunc_run (L : Layout sb I) (h : WellFormed sb I s) (hi : i ∈ I) :
    ∃ s', (itrunc sb i).run s = .ok () s' ∧ WellFormed sb I s' ∧ s'.bytes i = [] ∧
      ∀ i', i' ∈ I → i' ≠ i → s'.bytes i' = s.bytes i' := by
  have hks : ∀ k ∈ (List.finRange NDIRECT).map Fin.castSucc, k ≠ Fin.last NDIRECT := by
    intro k hk
    obtain ⟨k', -, rfl⟩ := List.mem_map.1 hk
    exact Fin.castSucc_ne_last k'
  obtain ⟨s₁, hrun₁, hB₁, hT₁⟩ := truncAddrs_run L h.blocks hi hks
  obtain ⟨s₂, hrun₂, hB₂, hT₂⟩ := truncIndirect_run L hB₁ hi
  obtain ⟨s₃, hs₃⟩ : ∃ s₃, s₃ = s₂.setInode i { s₂.inode i with size := 0 } := ⟨_, rfl⟩
  obtain ⟨hB₃, haddr₃⟩ := hB₂.setSize i 0
  rw [← hs₃] at hB₃ haddr₃
  obtain ⟨s₄, hrun₄, hinode₄, hB₄, -, hsame₄⟩ := iupdate_run L hB₃ hi
  have hT := hT₁.trans hT₂
  have hself : (s₄.inode i).size = 0 := by
    rw [hinode₄, hs₃]
    unfold State.setInode
    simp
  have hsize : ∀ i', i' ≠ i → (s₄.inode i').size = (s.inode i').size := by
    intro i' hii
    rw [hinode₄, hs₃, ← hT.size]
    exact congrArg Dinode.size (Function.update_of_ne hii ..)
  have haddr : ∀ {i' bn}, i' ∈ I → i' ≠ i → bn < MAXFILE → s₄.addrAt i' bn = s.addrAt i' bn := by
    intro i' bn hi' hii hbn
    rw [(hsame₄ hi' hbn).1, haddr₃, addrAt_eq, addrAt_eq, hT.other hi' hii]
  have hdata : ∀ {i' bn}, i' ∈ I → i' ≠ i → bn < MAXFILE → s.addrAt i' bn ≠ 0 →
      s₄.data (s.addrAt i' bn) = s.data (s.addrAt i' bn) := by
    intro i' bn hi' hii hbn h0
    have h₃ : s₃.addrAt i' bn = s.addrAt i' bn := by
      rw [← (hsame₄ hi' hbn).1, haddr hi' hii hbn]
    have hd := (hsame₄ hi' hbn).2 (by rwa [h₃])
    rw [h₃] at hd
    rw [hd, hs₃]
    rw [addrAt_eq] at h0 ⊢
    exact hT.data (h.blocks.data hi' (place_lt hbn) h0).1
  refine ⟨s₄, ?_, ⟨hB₄, fun {i'} hi' => ?_, fun {i'} hi' bn hbn hlt => ?_⟩, ?_, fun i' hi' hii => ?_⟩
  · simp only [itrunc, run_bind, hrun₁, hrun₂, run_modify, ← hs₃, hrun₄]
  · by_cases hii : i' = i
    · rw [hii, hself]
      exact Nat.zero_le _
    · rw [hsize i' hii]
      exact h.size hi'
  · by_cases hii : i' = i
    · rw [hii, hself] at hlt
      exact absurd hlt (Nat.not_lt_zero _)
    · rw [haddr hi' hii hbn]
      rw [hsize i' hii] at hlt
      exact h.holeFree hi' bn hbn hlt
  · exact List.eq_nil_of_length_eq_zero ((length_bytes s₄ i).trans hself)
  · refine List.ext_getElem? fun o => ?_
    rw [bytes_getElem?, bytes_getElem?, hsize i' hii]
    by_cases ho : o < (s.inode i').size
    · obtain ⟨hbn, h0⟩ := h.addrAt_ne hi' ho
      rw [if_pos ho, if_pos ho]
      unfold State.byte
      rw [haddr hi' hii hbn, hdata hi' hii hbn h0]
    · rw [if_neg ho, if_neg ho]

/-! ## Operations -/

/-- A call on one of the files, with its arguments. -/
inductive Op (I : Set Nat) where
  | writei (mem : Mem) (i : I) (src off n : Nat)
  | readi (writable : Nat → Bool) (i : I) (dst off n : Nat)
  | itrunc (i : I)

/-- What a call returns; `readi` with the bytes that it has copied out. -/
inductive Result where
  | wrote (r : Int)
  | got (r : Int) (out : List UInt8)
  | empty

namespace Op

def call (sb : Superblock) : Op I → Prog State Result
  | .writei mem i src off n => do
    let r ← FileSystem.writei sb mem i src off n
    return .wrote r
  | .readi writable i dst off n => do
    let (r, out) ← FileSystem.readi sb writable i dst off n
    return .got r out
  | .itrunc i => do
    FileSystem.itrunc sb i
    return .empty

/-- Offsets and lengths are 32 bits; sources can be read, and destinations
written. -/
def Valid : Op I → Prop
  | .writei mem _ src off n =>
    off < 2 ^ 32 ∧ n < 2 ^ 32 ∧ ∀ j, j < n → (mem (src + j)).isSome = true
  | .readi writable _ dst off n =>
    off < 2 ^ 32 ∧ n < 2 ^ 32 ∧ ∀ j, j < n → writable (dst + j) = true
  | .itrunc _ => True

/-- What a call does to files that are byte arrays. A write may be short where
there are no blocks. -/
inductive Does (noBlocks : Prop) (files : I → List UInt8) :
    Op I → Result → (I → List UInt8) → Prop
  | writei {mem : Mem} {i : I} {src off n r : Nat}
      (hok : off ≤ (files i).length ∧ off + n ≤ MAXFILE * BSIZE) (hr : r ≤ n)
      (hshort : r < n → noBlocks) :
      Does noBlocks files (.writei mem i src off n) (.wrote r)
        (Function.update files i (splice (files i) off ((mem.bytes src n).take r)))
  | writeiRejects {mem : Mem} {i : I} {src off n : Nat}
      (hno : ¬ (off ≤ (files i).length ∧ off + n ≤ MAXFILE * BSIZE)) :
      Does noBlocks files (.writei mem i src off n) (.wrote (-1)) files
  | readi {writable : Nat → Bool} {i : I} {dst off n : Nat}
      (hok : off ≤ (files i).length ∧ off + n < 2 ^ 32) :
      Does noBlocks files (.readi writable i dst off n)
        (.got (((files i).drop off).take n).length (((files i).drop off).take n)) files
  | readiRejects {writable : Nat → Bool} {i : I} {dst off n : Nat}
      (hno : ¬ (off ≤ (files i).length ∧ off + n < 2 ^ 32)) :
      Does noBlocks files (.readi writable i dst off n) (.got 0 []) files
  | itrunc {i : I} : Does noBlocks files (.itrunc i) .empty (Function.update files i [])

end Op

/-- The files, as the blocks have them. -/
def State.files (s : State) (I : Set Nat) (i : I) : List UInt8 := s.bytes i

/-- A run of calls, each of which does what it does to byte arrays. -/
inductive Runs (sb : Superblock) : State → List (Op I) → State → Prop
  | nil (s : State) : Runs sb s [] s
  | cons {s s₁ s' : State} {op : Op I} {ops : List (Op I)} {r : Result}
      (hcall : (op.call sb).run s = .ok r s₁)
      (hdoes : op.Does (Full sb s₁) (s.files I) r (s₁.files I))
      (hrest : Runs sb s₁ ops s') : Runs sb s (op :: ops) s'

theorem files_update {i : I} {x : List UInt8} (hi : s'.bytes i = x)
    (hother : ∀ i', i' ∈ I → i' ≠ i → s'.bytes i' = s.bytes i') :
    s'.files I = Function.update (s.files I) i x := by
  funext i'
  by_cases hii : i' = i
  · rw [hii, Function.update_self]
    exact hi
  · rw [Function.update_of_ne hii]
    exact hother i' i'.2 fun he => hii (Subtype.ext he)

theorem Op.call_run (L : Layout sb I) (h : WellFormed sb I s) {op : Op I} (hop : op.Valid) :
    ∃ r s', (op.call sb).run s = .ok r s' ∧ WellFormed sb I s' ∧
      op.Does (Full sb s') (s.files I) r (s'.files I) := by
  have hlen : ∀ i : I, (s.files I i).length = (s.inode i).size := fun i => length_bytes s i
  cases op with
  | writei mem i src off n =>
    obtain ⟨-, hn, hmem⟩ := hop
    by_cases hok : s.Accepts i off n
    · have hmem' : ∀ j, j < n → mem (src + j) = some ((mem (src + j)).getD 0) := by
        intro j hj
        obtain ⟨x, hx⟩ := Option.isSome_iff_exists.1 (hmem j hj)
        rw [hx]
        rfl
      obtain ⟨r, s', hrun, hr, hfull, hwf, hself, hother⟩ := writei_run L h i.2 hok
        (g := fun j => (mem (src + j)).getD 0) hmem'
      have htake : (mem.bytes src n).take r =
          (List.range r).map fun j => (mem (src + j)).getD 0 := by
        rw [Mem.bytes_eq (g := fun j => (mem (src + j)).getD 0) hmem', ← List.map_take,
          List.take_range, Nat.min_eq_left hr]
      rw [← htake] at hself
      refine ⟨.wrote r, s', ?_, hwf, ?_⟩
      · simp only [Op.call, run_bind, hrun]
        rfl
      · rw [files_update hself hother]
        exact .writei (by rwa [hlen]) hr hfull
    · refine ⟨.wrote (-1), s, ?_, h, .writeiRejects (by rwa [hlen])⟩
      simp only [Op.call, run_bind, writei_rejects h i.2 hn hok]
      rfl
  | readi writable i dst off n =>
    obtain ⟨hoff, hn, hw⟩ := hop
    have hrun := readi_run h i.2 hoff hn hw
    by_cases hok : off ≤ (s.inode i).size ∧ off + n < 2 ^ 32
    · rw [if_pos hok] at hrun
      refine ⟨_, s, ?_, h, .readi (by rwa [hlen])⟩
      simp only [Op.call, run_bind, hrun]
      rfl
    · rw [if_neg hok] at hrun
      refine ⟨.got 0 [], s, ?_, h, .readiRejects (by rwa [hlen])⟩
      simp only [Op.call, run_bind, hrun]
      rfl
  | itrunc i =>
    obtain ⟨s', hrun, hwf, hself, hother⟩ := itrunc_run L h i.2
    refine ⟨.empty, s', ?_, hwf, ?_⟩
    · simp only [Op.call, run_bind, hrun]
      rfl
    · rw [files_update hself hother]
      exact .itrunc

/-- Files are byte arrays, under any sequence of calls. -/
theorem files_are_byte_arrays (L : Layout sb I) (h : WellFormed sb I s) (ops : List (Op I))
    (hops : ∀ op ∈ ops, op.Valid) : ∃ s', Runs sb s ops s' ∧ WellFormed sb I s' := by
  induction ops generalizing s with
  | nil => exact ⟨s, .nil s, h⟩
  | cons op ops ih =>
    obtain ⟨r, s₁, hcall, hwf, hdoes⟩ := Op.call_run L h (hops op List.mem_cons_self)
    obtain ⟨s', hruns, hwf'⟩ := ih hwf fun op' hop' => hops op' (List.mem_cons_of_mem _ hop')
    exact ⟨s', .cons hcall hdoes hruns, hwf'⟩

/-! ## A small disk -/

/-- A disk of 40 blocks with two empty files. -/
def twoFiles : State where
  data := Function.update (fun _ => Bytes.zero) 4 fun o =>
    if o = 0 then 255 else if o = 1 then 3 else 0
  inode _ := { type := 2, major := 0, minor := 0, nlink := 1, size := 0, addrs := fun _ => 0 }
  off := 0
  locked := false
  logged := ∅

def twoFilesDisk : Superblock where
  magic := FSMAGIC
  size := 40
  nblocks := 30
  ninodes := 16
  nlog := 1
  logstart := 2
  inodestart := 3
  bmapstart := 4

theorem twoFilesDisk_layout : Layout twoFilesDisk {1, 2} := by
  refine ⟨?_, ?_, by decide⟩
  · rintro i (rfl | rfl) <;> decide
  · intro b hb
    change b < 40 at hb
    change b / (BSIZE * 8) + 4 < 40 - 30
    unfold BSIZE
    omega

theorem place_twoFiles (i k : Nat) : twoFiles.place i k = 0 := by
  unfold State.place Mkfs.addrAt
  split
  · rfl
  · exact if_pos rfl

theorem twoFiles_wellFormed : WellFormed twoFilesDisk {1, 2} twoFiles := by
  refine ⟨⟨fun _ _ h0 => absurd (place_twoFiles ..) h0, fun _ _ _ _ h0 _ =>
    absurd (place_twoFiles ..) h0, ?_⟩, fun _ => Nat.zero_le _, fun _ bn _ hlt =>
    absurd hlt (Nat.not_lt_zero _)⟩
  intro b _ hlow
  change b < 10 at hlow
  exact (by decide : ∀ b, b < 10 → twoFiles.used twoFilesDisk b = true) b hlow

theorem files_are_byte_arrays_twoFiles : ∃ s', Runs twoFilesDisk twoFiles
    [.writei (fun _ => some 7) ⟨1, .inl rfl⟩ 0 0 3, .readi (fun _ => true) ⟨1, .inl rfl⟩ 0 1 9,
      .itrunc (⟨1, .inl rfl⟩ : ({1, 2} : Set Nat))] s' ∧ WellFormed twoFilesDisk {1, 2} s' := by
  refine files_are_byte_arrays twoFilesDisk_layout twoFiles_wellFormed _ ?_
  intro op hop
  simp only [List.mem_cons, List.not_mem_nil, or_false] at hop
  obtain rfl | rfl | rfl := hop
  · exact ⟨by decide, by decide, fun _ _ => rfl⟩
  · exact ⟨by decide, by decide, fun _ _ => rfl⟩
  · trivial

end Xv6.FileSystem
