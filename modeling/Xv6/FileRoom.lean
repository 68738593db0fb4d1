/-
fs.c: when a file can grow, and what a write leaves alone.

`bmap` fails just when it needs more blocks than are free.
-/
import Xv6.FileBytes
import Mathlib.Data.Finset.Card

namespace Xv6.FileSystem

open Conc Prog Fs
open Mkfs (NPLACES place place_lt place_inj)

variable {sb : Superblock} {I : Set Nat} {s s' s₁ : State} {i k a b n off bn addr : Nat} {mem : Mem}

/-- The blocks that are not in use. -/
def State.freeBlocks (s : State) (sb : Superblock) : Finset Nat :=
  (Finset.range sb.size).filter fun b => s.used sb b = false

/-- How many blocks `bmap` has to allocate. -/
def State.needs (s : State) (i bn : Nat) : Nat :=
  if s.addrAt i bn ≠ 0 then 0
  else if NDIRECT ≤ bn ∧ (s.inode i).addrs (Fin.last NDIRECT) = 0 then 2 else 1

theorem freeBlocks_eq_zero : (s.freeBlocks sb).card = 0 ↔ Full sb s := by
  unfold State.freeBlocks Full
  rw [Finset.card_eq_zero, Finset.filter_eq_empty_iff]
  simp

/-- One block less is free when a free one has been taken. -/
theorem freeBlocks_take (ha : a < sb.size) (hu : s.used sb a = false)
    (h : ∀ b, b < sb.size → s'.used sb b = (s.used sb b || decide (b = a))) :
    (s.freeBlocks sb).card = (s'.freeBlocks sb).card + 1 := by
  have hins : s.freeBlocks sb = insert a (s'.freeBlocks sb) := by
    unfold State.freeBlocks
    ext b
    simp only [Finset.mem_filter, Finset.mem_insert, Finset.mem_range]
    constructor
    · rintro ⟨hb, hfree⟩
      by_cases hba : b = a
      · exact .inl hba
      · refine .inr ⟨hb, ?_⟩
        simp [h b hb, hfree, hba]
    · rintro (rfl | ⟨hb, hfree⟩)
      · exact ⟨ha, hu⟩
      · rw [h b hb] at hfree
        simp only [Bool.or_eq_false_iff] at hfree
        exact ⟨hb, hfree.1⟩
  have hnot : a ∉ s'.freeBlocks sb := by
    unfold State.freeBlocks
    simp [h a ha]
  rw [hins, Finset.card_insert_of_notMem hnot]

section

variable (L : Layout sb I) (h : Blocks sb I s)

include L h

/-- `balloc` fails just when no block is free. -/
theorem balloc_room (hrun : (balloc sb).run s = .ok addr s') :
    (addr = 0 ∧ (s.freeBlocks sb).card = 0) ∨
      (addr ≠ 0 ∧ (s.freeBlocks sb).card = (s'.freeBlocks sb).card + 1 ∧
        s'.data addr = Bytes.zero) := by
  rcases balloc_run sb s with ⟨a, ha, hu, hok⟩ | ⟨hok, hfull⟩
  · rw [hok] at hrun
    cases hrun
    have hlow := h.low_of_free ha hu
    have hlt := L.bitmap ha
    exact .inr ⟨by omega, freeBlocks_take ha hu fun b hb => allocated_used L h ha hu hb,
      allocated_self⟩
  · rw [hok] at hrun
    cases hrun
    exact .inl ⟨rfl, freeBlocks_eq_zero.2 hfull⟩

theorem bmapAddr_room {k : Fin (NDIRECT + 1)} (hrun : (bmapAddr sb i k).run s = .ok addr s') :
    ((s.inode i).addrs k ≠ 0 ∧ addr = (s.inode i).addrs k ∧ s' = s) ∨
      ((s.inode i).addrs k = 0 ∧ addr = 0 ∧ (s.freeBlocks sb).card = 0) ∨
      ((s.inode i).addrs k = 0 ∧ addr ≠ 0 ∧
        (s.freeBlocks sb).card = (s'.freeBlocks sb).card + 1 ∧ s'.data addr = Bytes.zero) := by
  simp only [bmapAddr, run_bind, run_read] at hrun
  by_cases hk : (s.inode i).addrs k = 0
  · rw [if_neg (not_not.2 hk)] at hrun
    obtain ⟨a, s₁, hb, hrest⟩ := bind_run_ok hrun
    rcases balloc_room L h hb with ⟨ha, hcard⟩ | ⟨ha, hcard, hzero⟩
    · rw [if_pos ha] at hrest
      cases hrest
      exact .inr (.inl ⟨hk, rfl, hcard⟩)
    · rw [if_neg ha] at hrest
      cases hrest
      exact .inr (.inr ⟨hk, ha, hcard, hzero⟩)
  · rw [if_pos hk] at hrun
    cases hrun
    exact .inl ⟨hk, rfl, rfl⟩

/-- `bmap` fails just when it needs more blocks than are free. -/
theorem bmap_room (hi : i ∈ I) (hbn : bn < MAXFILE) (hrun : (bmap sb i bn).run s = .ok addr s') :
    addr = 0 ↔ (s.freeBlocks sb).card < s.needs i bn := by
  by_cases h0 : s.addrAt i bn = 0
  · unfold State.needs
    rw [if_neg (not_not.2 h0)]
    unfold bmap at hrun
    by_cases hd : bn < NDIRECT
    · rw [dif_pos hd] at hrun
      have haddr : (s.inode i).addrs ⟨bn, Nat.lt_succ_of_lt hd⟩ = 0 := by
        unfold State.addrAt at h0
        rwa [dif_pos hd] at h0
      rw [if_neg (by omega)]
      rcases bmapAddr_room L h hrun with ⟨hne, -⟩ | ⟨-, ha, hcard⟩ | ⟨-, ha, hcard, -⟩
      · exact absurd haddr hne
      · omega
      · omega
    · have hj : bn - NDIRECT < NINDIRECT := by
        unfold MAXFILE at hbn
        omega
      rw [dif_neg hd, if_pos hj] at hrun
      obtain ⟨ind, s₁, hind, hrest⟩ := bind_run_ok hrun
      obtain ⟨ind', s₁', hind', hB₁, -, hat, -⟩ := bmapAddr_run L h hi (Fin.last NDIRECT)
      cases hind.symm.trans hind'
      rcases bmapAddr_room L h hind with ⟨hne, he, rfl⟩ | ⟨hz, ha, hcard⟩ | ⟨hz, ha, hcard, hzero⟩
      · -- the indirect block is there, without an entry
        have hentry : (s₁.data ind).getLe (4 * (bn - NDIRECT)) 4 = 0 := by
          unfold State.addrAt at h0
          rwa [dif_neg hd, if_neg hne, ← he] at h0
        rw [if_neg (by rw [he]; exact hne)] at hrest
        simp only [run_bind, bread, run_read, hentry, ne_eq, not_true_eq_false, if_false] at hrest
        rw [← run_bind] at hrest
        obtain ⟨a, s₂, hb, hrest⟩ := bind_run_ok hrest
        rw [if_neg fun hc => hne hc.2]
        rcases balloc_room L h hb with ⟨ha, hcard⟩ | ⟨ha, hcard, -⟩
        · rw [if_pos ha] at hrest
          cases hrest
          omega
        · rw [if_neg ha] at hrest
          cases hrest
          omega
      · rw [if_pos ha] at hrest
        cases hrest
        rw [if_pos ⟨by omega, hz⟩]
        omega
      · -- the indirect block is new
        have hentry : (s₁.data ind).getLe (4 * (bn - NDIRECT)) 4 = 0 := by
          rw [hzero]
          exact Bytes.getLe_zero ..
        rw [if_neg ha] at hrest
        simp only [run_bind, bread, run_read, hentry, ne_eq, not_true_eq_false, if_false] at hrest
        rw [← run_bind] at hrest
        obtain ⟨a, s₂, hb, hrest⟩ := bind_run_ok hrest
        rw [if_pos ⟨by omega, hz⟩]
        rcases balloc_room L hB₁ hb with ⟨ha', hcard'⟩ | ⟨ha', hcard', -⟩
        · rw [if_pos ha'] at hrest
          cases hrest
          omega
        · rw [if_neg ha'] at hrest
          cases hrest
          omega
  · rw [bmap_there hbn h0] at hrun
    cases hrun
    unfold State.needs
    rw [if_pos h0]
    omega

end


/-! ## What stays -/

/-- A program that leaves the types of inodes alone. -/
def KeepsTypes {α : Type} (p : Prog State α) : Prop :=
  ∀ s r s', p.run s = .ok r s' → ∀ j, (s'.inode j).type = (s.inode j).type

namespace KeepsTypes

variable {α β : Type}

theorem ret (r : α) : KeepsTypes (.ret r : Prog State α) := by
  intro s r' s' hrun j
  cases hrun
  rfl

theorem bind {p : Prog State α} {q : α → Prog State β} (hp : KeepsTypes p)
    (hq : ∀ r, KeepsTypes (q r)) : KeepsTypes (p >>= q) := by
  intro s r s' hrun j
  obtain ⟨a, s₁, h₁, h₂⟩ := bind_run_ok hrun
  rw [hq a s₁ r s' h₂ j, hp s a s₁ h₁ j]

theorem read (f : State → α) : KeepsTypes (Prog.read f) := by
  intro s r s' hrun j
  cases hrun
  rfl

theorem fail (msg : String) : KeepsTypes (Prog.fail msg : Prog State α) := by
  intro s r s' hrun j
  cases hrun

theorem modify {f : State → State} (hf : ∀ s j, ((f s).inode j).type = (s.inode j).type) :
    KeepsTypes (Prog.modify f) := by
  intro s r s' hrun j
  cases hrun
  exact hf s j

theorem ite {c : Prop} [Decidable c] {p q : Prog State α} (hp : KeepsTypes p)
    (hq : KeepsTypes q) : KeepsTypes (if c then p else q) := by
  split
  · exact hp
  · exact hq

end KeepsTypes

theorem setInode_type {ip : Dinode} (h : ip.type = (s.inode i).type) (j : Nat) :
    ((s.setInode i ip).inode j).type = (s.inode j).type := by
  show (Function.update s.inode i ip j).type = _
  by_cases hj : j = i
  · rw [hj, Function.update_self, h]
  · rw [Function.update_of_ne hj]

theorem logStore_types (b : Nat) (f : Bytes → Bytes) : KeepsTypes (logStore b f) :=
  .modify fun _ _ => rfl

theorem ballocLoop_types (sb : Superblock) (n b : Nat) : KeepsTypes (ballocLoop sb n b) := by
  induction n generalizing b with
  | zero => exact .ret 0
  | succ n ih =>
    unfold ballocLoop
    refine .bind ?_ fun r => ?_
    · intro s r s' hrun j
      simp only [takeBit, run_atom] at hrun
      split at hrun
      · cases hrun
        rfl
      · cases hrun
        rfl
    · cases r with
      | none => exact ih _
      | some bi => exact .bind (logStore_types _ _) fun _ => .ret _

theorem bmapAddr_types (sb : Superblock) (i : Nat) (k : Fin (NDIRECT + 1)) :
    KeepsTypes (bmapAddr sb i k) := by
  unfold bmapAddr
  refine .bind (.read _) fun addr => .ite (.ret _) ?_
  refine .bind (ballocLoop_types _ _ _) fun addr => .ite (.ret _) ?_
  exact .bind (.modify fun s j => setInode_type (by rfl) j) fun _ => .ret _

theorem bmap_types (sb : Superblock) (i bn : Nat) : KeepsTypes (bmap sb i bn) := by
  unfold bmap
  split
  · exact bmapAddr_types _ _ _
  · refine .ite (.bind (bmapAddr_types _ _ _) fun ind => .ite (.ret _) ?_) (.fail _)
    refine .bind (.read _) fun a => .ite (.ret _) ?_
    refine .bind (ballocLoop_types _ _ _) fun addr => .ite (.ret _) ?_
    exact .bind (logStore_types _ _) fun _ => .ret _

theorem writeiLoop_types (sb : Superblock) (mem : Mem) (i n fuel tot off src : Nat) :
    KeepsTypes (writeiLoop sb mem i n fuel tot off src) := by
  induction fuel generalizing tot off src with
  | zero => exact .ret _
  | succ fuel ih =>
    unfold writeiLoop
    refine .ite (.bind (bmap_types _ _ _) fun addr => .ite (.ret _) ?_) (.ret _)
    refine .bind ?_ fun r => .ite (.ret _) (.bind (.modify fun _ _ => rfl) fun _ => ih _ _ _)
    intro s r s' hrun j
    cases hrun
    rfl

theorem writei_types (sb : Superblock) (mem : Mem) (i src off n : Nat) :
    KeepsTypes (writei sb mem i src off n) := by
  unfold writei
  refine .bind (.read _) fun ip => .ite (.ret _) (.ite (.ret _) ?_)
  refine .bind (writeiLoop_types _ _ _ _ _ _ _ _) fun r => .bind (.modify fun s j => ?_) fun _ =>
    .bind (.bind (.read _) fun _ => logStore_types _ _) fun _ => .ret _
  split
  · exact setInode_type (by rfl) j
  · rfl

/-! ## Writes to one block -/

/-- A write to one block is done in full, or not at all where the block is
missing and there is no room for it. -/
theorem writei_block (L : Layout sb I) (h : WellFormed sb I s) (hi : i ∈ I) {src : Nat}
    {g : Nat → UInt8} (hok : s.Accepts i off n) (hmem : ∀ j, j < n → mem (src + j) = some (g j))
    (hn : 0 < n) (hend : off % BSIZE + n ≤ BSIZE) {r : Nat}
    (hrun : (writei sb mem i src off n).run s = .ok (r : Int) s') :
    r = if (s.freeBlocks sb).card < s.needs i (off / BSIZE) then 0 else n := by
  obtain ⟨hoff, hmax⟩ := hok
  have hM : MAXFILE * BSIZE = 274432 := rfl
  have hbn : off / BSIZE < MAXFILE := by
    unfold BSIZE at *
    omega
  simp only [writei] at hrun
  obtain ⟨ip, s₀, hread, hrun⟩ := bind_run_ok hrun
  obtain ⟨rfl, rfl⟩ : s.inode i = ip ∧ s = s₀ := by
    cases hread
    exact ⟨rfl, rfl⟩
  rw [if_neg (by omega), if_neg (by omega)] at hrun
  obtain ⟨⟨tot, off'⟩, s₁, hloop, hrun⟩ := bind_run_ok hrun
  obtain ⟨-, s₂, -, hrun⟩ := bind_run_ok hrun
  obtain ⟨-, s₃, -, hrun⟩ := bind_run_ok hrun
  have htot : tot = r := by
    cases hrun
    rfl
  rw [← htot]
  obtain ⟨m, rfl⟩ : ∃ m, n = m + 1 := ⟨n - 1, by omega⟩
  unfold writeiLoop at hloop
  rw [if_pos (by omega)] at hloop
  obtain ⟨addr, s₄, hbmap, hloop⟩ := bind_run_ok hloop
  have hroom := bmap_room L h.blocks hi hbn hbmap
  by_cases h0 : addr = 0
  · rw [if_pos h0] at hloop
    cases hloop
    rw [if_pos (hroom.1 h0)]
  · rw [if_neg h0] at hloop
    rw [if_neg fun hc => h0 (hroom.2 hc)]
    obtain ⟨c, s₅, hcopy, hloop⟩ := bind_run_ok hloop
    have hmin : min (m + 1 - 0) (BSIZE - off % BSIZE) = m + 1 := by omega
    rw [hmin] at hcopy hloop
    have hlen : (mem.bytes src (m + 1)).length = m + 1 := by
      rw [Mem.bytes_eq hmem, List.length_map, List.length_range]
    simp only [either_copyin, run_atom, hlen, if_true] at hcopy
    cases hcopy
    rw [if_neg (by decide)] at hloop
    obtain ⟨-, s₆, -, hloop⟩ := bind_run_ok hloop
    cases m with
    | zero =>
      cases hloop
      rfl
    | succ m =>
      unfold writeiLoop at hloop
      rw [if_neg (by omega)] at hloop
      cases hloop
      omega

end Xv6.FileSystem
