/-
fs.c and file.c: how many blocks one transaction of `filewrite` logs.

Every block of the content costs at most two blocks of the log, itself and the
block of the bitmap, and so does the indirect block, once. The first block
costs one if the write starts inside of it, since then it is there already.
-/
import Xv6.FileSystem
import Xv6.Lib.Rely

namespace Xv6.FileSystem

open Conc Prog Fs Relation

/-- What other processes may do: anything to other files, and to the file and
its indirect block while this process has not locked it, but they leave it
without holes. -/
structure Others (i : Nat) (s s' : State) : Prop where
  logged : s'.logged = s.logged
  locked : s'.locked = s.locked
  inode : s.locked = true → s'.inode i = s.inode i
  indirect : s.locked = true → (s.inode i).addrs (Fin.last NDIRECT) ≠ 0 →
    s'.data ((s.inode i).addrs (Fin.last NDIRECT)) = s.data ((s.inode i).addrs (Fin.last NDIRECT))
  holeFree : s.locked = false → s.HoleFree i → s'.HoleFree i

/-- The transaction fits into what `begin_op` reserves. -/
def State.Fits (s : State) : Prop := s.logged.card ≤ Log.MAXOPBLOCKS

/-- What the indirect block may still cost. -/
def State.indirectCost (s : State) (i : Nat) : Nat :=
  if (s.inode i).addrs (Fin.last NDIRECT) ≠ 0 ∧ (s.inode i).addrs (Fin.last NDIRECT) ∈ s.logged
  then 0 else 2

/-- What the content blocks of the next `r` bytes cost, if none is there. -/
def contentCost (off r : Nat) : Nat :=
  if r = 0 then 0 else 2 * ((off % BSIZE + r + BSIZE - 1) / BSIZE)

variable {sb : Superblock} {mem : Mem} {s s' s₁ : State} {i b n c : Nat}

/-- The others have moved while this process had the inode locked. -/
structure Held (i : Nat) (s s' : State) : Prop where
  locked : s'.locked = true
  logged : s'.logged = s.logged
  inode : s'.inode i = s.inode i
  addrAt : ∀ bn, s'.addrAt i bn = s.addrAt i bn

theorem Held.of_others (h : ReflTransGen (Others i) s s') (hl : s.locked = true) :
    Held i s s' := by
  induction h with
  | refl => exact ⟨hl, rfl, rfl, fun _ => rfl⟩
  | @tail s₁ s₂ _ h ih =>
    refine ⟨h.locked.trans ih.locked, h.logged.trans ih.logged,
      (h.inode ih.locked).trans ih.inode, fun bn => Eq.trans ?_ (ih.addrAt bn)⟩
    unfold State.addrAt
    rw [h.inode ih.locked]
    by_cases hind : (s₁.inode i).addrs (Fin.last NDIRECT) = 0
    · simp [hind]
    · rw [h.indirect ih.locked hind]

/-- A part of the transaction, which logs at most `c` more blocks. -/
structure Logs (c : Nat) (s s' : State) : Prop where
  locked : s'.locked = true
  sub : s.logged ⊆ s'.logged
  card : s'.logged.card ≤ s.logged.card + c

theorem Held.logs (h : Held i s s') : Logs 0 s s' :=
  ⟨h.locked, h.logged ▸ Finset.Subset.refl _, (congrArg Finset.card h.logged).le⟩

theorem Logs.trans {d : Nat} (h : Logs c s s₁) (h' : Logs d s₁ s') : Logs (c + d) s s' :=
  ⟨h'.locked, h.sub.trans h'.sub, by have := h.card; have := h'.card; omega⟩

theorem Logs.insert (h : s.locked = true) (d : Nat → Bytes) :
    Logs 1 s { s with data := d, logged := insert b s.logged } :=
  ⟨h, Finset.subset_insert _ _, Finset.card_insert_le _ _⟩

theorem Logs.fits (h : Logs c s s') (hc : s.logged.card + c ≤ Log.MAXOPBLOCKS) : s'.Fits :=
  h.card.trans hc

/-! ## Blocks -/

theorem logStore_keeps {f : Bytes → Bytes} (hl : s.locked = true)
    (hc : (insert b s.logged).card ≤ Log.MAXOPBLOCKS) :
    Keeps (Others i) State.Fits (logStore b f)
      (fun _ s' => Logs 1 s s' ∧ s'.inode i = s.inode i ∧ s'.logged = insert b s.logged) s := by
  refine Keeps.modify fun s₁ hR => ?_
  have h := Held.of_others hR hl
  have hlogs : Logs 1 s ((s₁.store b (f (s₁.data b))).log_write b) :=
    (Nat.zero_add 1) ▸ h.logs.trans (Logs.insert h.locked _)
  have hlogged : insert b s₁.logged = insert b s.logged := congrArg (insert b) h.logged
  exact ⟨(congrArg Finset.card hlogged).le.trans hc, hlogs, h.inode, hlogged⟩

theorem ballocLoop_keeps (hl : s.locked = true) (hc : s.logged.card + 2 ≤ Log.MAXOPBLOCKS) :
    Keeps (Others i) State.Fits (ballocLoop sb n b)
      (fun addr s' => Logs 2 s s' ∧ s'.inode i = s.inode i ∧ (addr ≠ 0 → addr ∈ s'.logged)) s := by
  induction n generalizing b s with
  | zero => exact ⟨⟨hl, Finset.Subset.refl _, by omega⟩, rfl, fun h => absurd rfl h⟩
  | succ n ih =>
    refine Keeps.bind (Q := fun r s₁ => Logs (if r = none then 0 else 1) s s₁ ∧
      s₁.inode i = s.inode i) (Keeps.atom fun s₁ hR r s₂ hf => ?_) fun r s₁ hr => ?_
    · have h := Held.of_others hR hl
      split at hf
      · next bi hbi =>
        obtain ⟨rfl, rfl⟩ := Outcome.ok.inj hf
        have hlogs : Logs 1 s ((s₁.store (BBLOCK sb b)
            ((s₁.data (BBLOCK sb b)).setBit bi)).log_write (BBLOCK sb b)) :=
          Nat.zero_add 1 ▸ h.logs.trans (Logs.insert h.locked _)
        exact ⟨hlogs.fits (by omega), by simpa using hlogs, h.inode⟩
      · obtain ⟨rfl, rfl⟩ := Outcome.ok.inj hf
        exact ⟨h.logs.fits (by omega), by simpa using h.logs, h.inode⟩
    · obtain ⟨hlogs, hinode⟩ := hr
      have hcard := hlogs.card
      cases r with
      | none =>
        simp only [if_true] at hlogs hcard
        refine (ih hlogs.locked (by omega)).mono fun addr s₂ h => ?_
        obtain ⟨hlogs₂, hinode₂, hmem⟩ := h
        exact ⟨Nat.zero_add 2 ▸ hlogs.trans hlogs₂, hinode₂.trans hinode, hmem⟩
      | some bi =>
        simp only [reduceCtorEq, if_false] at hlogs hcard
        have hins := Finset.card_insert_le (b + bi) s₁.logged
        refine Keeps.bind (logStore_keeps hlogs.locked (by omega)) fun _ s₂ h => ?_
        obtain ⟨hlogs₂, hinode₂, hlogged⟩ := h
        refine ⟨hlogs.trans hlogs₂, hinode₂.trans hinode, fun _ => ?_⟩
        rw [hlogged]
        exact Finset.mem_insert_self ..

theorem balloc_keeps (hl : s.locked = true) (hc : s.logged.card + 2 ≤ Log.MAXOPBLOCKS) :
    Keeps (Others i) State.Fits (balloc sb)
      (fun addr s' => Logs 2 s s' ∧ s'.inode i = s.inode i ∧ (addr ≠ 0 → addr ∈ s'.logged)) s :=
  ballocLoop_keeps hl hc

/-- A block number that is in the inode. -/
theorem bmapAddr_keeps_there {k : Fin (NDIRECT + 1)} (hl : s.locked = true) (hs : s.Fits)
    (hk : (s.inode i).addrs k ≠ 0) :
    Keeps (Others i) State.Fits (bmapAddr sb i k)
      (fun addr s' => addr = (s.inode i).addrs k ∧ Held i s s') s := by
  refine Keeps.bind (Q := fun addr s' => addr = (s.inode i).addrs k ∧ Held i s s')
    (Keeps.read fun s₁ hR => ?_) fun addr s₁ h => ?_
  · have h := Held.of_others hR hl
    exact ⟨h.logs.fits hs, by rw [h.inode], h⟩
  · obtain ⟨rfl, h⟩ := h
    rw [if_pos hk]
    exact ⟨rfl, h⟩

theorem bmapAddr_keeps {k : Fin (NDIRECT + 1)} (hl : s.locked = true)
    (hc : s.logged.card + 2 ≤ Log.MAXOPBLOCKS) (hk : (s.inode i).addrs k = 0) :
    Keeps (Others i) State.Fits (bmapAddr sb i k)
      (fun addr s' => Logs 2 s s' ∧ (addr ≠ 0 → addr ∈ s'.logged) ∧
        (s'.inode i).addrs = Function.update (s.inode i).addrs k addr) s := by
  refine Keeps.bind (Q := fun addr s' => addr = 0 ∧ Held i s s')
    (Keeps.read fun s₁ hR => ?_) fun addr s₁ h => ?_
  · have h := Held.of_others hR hl
    exact ⟨h.logs.fits (by omega), by rw [h.inode, hk], h⟩
  · obtain ⟨rfl, h⟩ := h
    have hlogged := h.logged
    rw [if_neg (by simp)]
    refine Keeps.bind (balloc_keeps h.locked (by rw [hlogged]; exact hc)) fun addr s₂ h₂ => ?_
    obtain ⟨hlogs, hinode, hmem⟩ := h₂
    have hlogs₂ : Logs 2 s s₂ := Nat.zero_add 2 ▸ h.logs.trans hlogs
    split
    · next h0 =>
      refine ⟨hlogs₂, fun hne => absurd rfl hne, ?_⟩
      rw [hinode, h.inode, ← hk, Function.update_eq_self]
    · next h0 =>
      refine Keeps.bind (Q := fun _ s' => Logs 2 s s' ∧ addr ∈ s'.logged ∧
        (s'.inode i).addrs = Function.update (s.inode i).addrs k addr)
        (Keeps.modify fun s₃ hR => ?_) fun _ s₃ h₃ => ⟨h₃.1, fun _ => h₃.2.1, h₃.2.2⟩
      have h₃ := Held.of_others hR hlogs₂.locked
      have hlogs₃ := hlogs₂.trans h₃.logs
      refine ⟨hlogs₃.fits hc, ⟨hlogs₃.locked, hlogs₃.sub, hlogs₃.card⟩, ?_, ?_⟩
      · show addr ∈ s₃.logged
        rw [h₃.logged]
        exact hmem h0
      · show (Function.update s₃.inode i _ i).addrs = _
        rw [Function.update_self, h₃.inode, hinode, h.inode]

/-! ## The blocks of the inode -/

theorem indirectCost_le (h : s.logged ⊆ s'.logged)
    (hinode : (s'.inode i).addrs (Fin.last NDIRECT) = (s.inode i).addrs (Fin.last NDIRECT)) :
    s'.indirectCost i ≤ s.indirectCost i := by
  unfold State.indirectCost
  rw [hinode]
  by_cases hin : (s.inode i).addrs (Fin.last NDIRECT) ≠ 0 ∧
      (s.inode i).addrs (Fin.last NDIRECT) ∈ s.logged
  · rw [if_pos hin, if_pos ⟨hin.1, h hin.2⟩]
  · rw [if_neg hin]
    split <;> omega

theorem indirectCost_eq_zero (h0 : (s.inode i).addrs (Fin.last NDIRECT) ≠ 0)
    (h : (s.inode i).addrs (Fin.last NDIRECT) ∈ s.logged) : s.indirectCost i = 0 :=
  if_pos ⟨h0, h⟩

theorem indirectCost_le_two : s.indirectCost i ≤ 2 := by
  unfold State.indirectCost
  split <;> omega

/-- After `bmap`, with the block that it found passed to `log_write`, too. -/
structure Mapped (i : Nat) (s : State) (addr : Nat) (s' : State) : Prop where
  locked : s'.locked = true
  card : s'.logged.card ≤ s.logged.card + s.indirectCost i + 2
  found : addr ≠ 0 →
    (insert addr s'.logged).card + s'.indirectCost i ≤ s.logged.card + s.indirectCost i + 2

theorem Mapped.of_logs {addr : Nat} (h : Logs 2 s s')
    (hind : (s'.inode i).addrs (Fin.last NDIRECT) = (s.inode i).addrs (Fin.last NDIRECT))
    (hmem : addr ≠ 0 → addr ∈ s'.logged) : Mapped i s addr s' := by
  have hcard := h.card
  have hcost := indirectCost_le h.sub hind
  refine ⟨h.locked, by omega, fun h0 => ?_⟩
  rw [Finset.insert_eq_of_mem (hmem h0)]
  omega

theorem Mapped.of_held {addr : Nat} (h : Held i s s') : Mapped i s addr s' := by
  have hcard := h.logs.card
  have hcost := indirectCost_le h.logs.sub (by rw [h.inode])
  have hins := Finset.card_insert_le addr s'.logged
  exact ⟨h.locked, by omega, fun _ => by omega⟩

/-- The block is there already. -/
theorem bmap_keeps_there {bn : Nat} (hl : s.locked = true) (hs : s.Fits) (hbn : bn < MAXFILE)
    (hthere : s.addrAt i bn ≠ 0) :
    Keeps (Others i) State.Fits (bmap sb i bn) (fun _ s' => Held i s s') s := by
  unfold State.addrAt at hthere
  unfold bmap
  split at hthere
  · next hd =>
    rw [dif_pos hd]
    exact (bmapAddr_keeps_there hl hs hthere).mono fun _ _ h => h.2
  · next hd =>
    split at hthere
    · exact absurd rfl hthere
    · next hind =>
      rw [dif_neg hd, if_pos (by unfold MAXFILE at hbn; omega)]
      refine Keeps.bind (bmapAddr_keeps_there hl hs hind) fun ind s₁ h₁ => ?_
      obtain ⟨rfl, h₁⟩ := h₁
      rw [if_neg hind]
      refine Keeps.bind (Q := fun a s' => Held i s s' ∧
        a.getLe (4 * (bn - NDIRECT)) 4 ≠ 0) (Keeps.read fun s₂ hR => ?_) fun a s₂ h₂ => ?_
      · have h₂ := Held.of_others hR h₁.locked
        have haddr := (h₂.addrAt bn).trans (h₁.addrAt bn)
        have hinode := h₂.inode.trans h₁.inode
        have hlogged := h₂.logged.trans h₁.logged
        unfold State.addrAt at haddr
        rw [dif_neg hd, dif_neg hd, hinode, if_neg hind, if_neg hind] at haddr
        refine ⟨(congrArg Finset.card hlogged).le.trans hs,
          ⟨h₂.locked, hlogged, hinode, fun bn => (h₂.addrAt bn).trans (h₁.addrAt bn)⟩, ?_⟩
        rw [haddr]
        exact hthere
      · rw [if_pos h₂.2]
        exact h₂.1

theorem bmap_keeps {bn : Nat} (hl : s.locked = true)
    (hc : s.logged.card + s.indirectCost i + 2 ≤ Log.MAXOPBLOCKS) :
    Keeps (Others i) State.Fits (bmap sb i bn) (Mapped i s) s := by
  unfold bmap
  split
  · next hd =>
    by_cases hk : (s.inode i).addrs ⟨bn, Nat.lt_succ_of_lt hd⟩ = 0
    · refine (bmapAddr_keeps hl (by omega) hk).mono fun addr s' h => ?_
      obtain ⟨hlogs, hmem, haddrs⟩ := h
      refine Mapped.of_logs hlogs ?_ hmem
      rw [haddrs, Function.update_of_ne]
      exact fun he => absurd (congrArg Fin.val he).symm (by simp; omega)
    · exact (bmapAddr_keeps_there hl (by unfold State.Fits; omega) hk).mono fun _ _ h =>
        Mapped.of_held h.2
  · split
    · -- the indirect block, and then the entry
      refine Keeps.bind (Q := fun ind s₁ => s₁.locked = true ∧
        (s₁.inode i).addrs (Fin.last NDIRECT) = ind ∧
        s₁.logged.card + s₁.indirectCost i ≤ s.logged.card + s.indirectCost i +
          if ind = 0 then 2 else 0) ?_ fun ind s₁ h₁ => ?_
      · by_cases hk : (s.inode i).addrs (Fin.last NDIRECT) = 0
        · refine (bmapAddr_keeps hl (by omega) hk).mono fun ind s₁ h => ?_
          obtain ⟨hlogs, hmem, haddrs⟩ := h
          have hcard := hlogs.card
          have hind : (s₁.inode i).addrs (Fin.last NDIRECT) = ind := by
            rw [haddrs, Function.update_self]
          have htwo : s.indirectCost i = 2 := if_neg fun h => h.1 hk
          have hle : s₁.indirectCost i ≤ 2 := indirectCost_le_two
          refine ⟨hlogs.locked, hind, ?_⟩
          split
          · omega
          · next h0 =>
            have hcost : s₁.indirectCost i = 0 := by
              refine indirectCost_eq_zero ?_ ?_
              · rwa [hind]
              · rw [hind]
                exact hmem h0
            omega
        · refine (bmapAddr_keeps_there hl (by unfold State.Fits; omega) hk).mono fun ind s₁ h => ?_
          obtain ⟨rfl, h⟩ := h
          have hcost := indirectCost_le h.logs.sub (by rw [h.inode])
          have hcard := h.logs.card
          refine ⟨h.locked, by rw [h.inode], ?_⟩
          rw [if_neg hk]
          omega
      · obtain ⟨hl₁, hind, hcost⟩ := h₁
        split
        · next h0 =>
          rw [if_pos h0] at hcost
          exact ⟨hl₁, by omega, fun h => absurd rfl h⟩
        · next h0 =>
          rw [if_neg h0] at hcost
          refine Keeps.bind (Q := fun _ s₂ => Held i s₁ s₂) (Keeps.read fun s₂ hR => ?_)
            fun a s₂ h₂ => ?_
          · have h₂ := Held.of_others hR hl₁
            exact ⟨h₂.logs.fits (by omega), h₂⟩
          · have hcost₂ := indirectCost_le h₂.logs.sub (by rw [h₂.inode])
            have hcard₂ := h₂.logs.card
            split
            · have hins := Finset.card_insert_le (a.getLe (4 * (bn - NDIRECT)) 4) s₂.logged
              exact ⟨h₂.locked, by omega, fun _ => by omega⟩
            · refine Keeps.bind (balloc_keeps h₂.locked (by omega)) fun addr s₃ h₃ => ?_
              obtain ⟨hlogs₃, hinode₃, hmem₃⟩ := h₃
              have hcard₃ := hlogs₃.card
              have hcost₃ := indirectCost_le hlogs₃.sub (by rw [hinode₃])
              have hind₃ : (s₃.inode i).addrs (Fin.last NDIRECT) = ind := by
                rw [hinode₃, h₂.inode, hind]
              split
              · exact ⟨hlogs₃.locked, by omega, fun h => absurd rfl h⟩
              · next hne =>
                have hins : (insert ind s₃.logged).card ≤
                    s.logged.card + s.indirectCost i + 2 := by
                  by_cases hin : ind ∈ s₃.logged
                  · rw [Finset.insert_eq_of_mem hin]
                    omega
                  · have htwo : s₃.indirectCost i = 2 := if_neg fun h => hin (hind₃ ▸ h.2)
                    have := Finset.card_insert_le ind s₃.logged
                    omega
                refine Keeps.bind (logStore_keeps hlogs₃.locked (by omega)) fun _ s₄ h₄ => ?_
                obtain ⟨hlogs₄, hinode₄, hlogged₄⟩ := h₄
                have hmem₄ : addr ∈ s₄.logged := hlogs₄.sub (hmem₃ hne)
                have hcost₄ : s₄.indirectCost i = 0 := by
                  refine indirectCost_eq_zero ?_ ?_
                  · rwa [hinode₄, hind₃]
                  · rw [hinode₄, hind₃, hlogged₄]
                    exact Finset.mem_insert_self ..
                refine ⟨hlogs₄.locked, by rw [hlogged₄]; exact hins, fun _ => ?_⟩
                rw [Finset.insert_eq_of_mem hmem₄, hlogged₄, hcost₄]
                exact hins
    · exact Keeps.fail

/-! ## The loop -/

/-- What one turn of the loop takes off the cost. -/
theorem contentCost_next {off r m : Nat} (hr : 0 < r) (hm : m = min r (BSIZE - off % BSIZE)) :
    contentCost (off + m) (r - m) + 2 ≤ contentCost off r := by
  unfold contentCost
  unfold BSIZE at *
  rw [if_neg (by omega : ¬ r = 0)]
  split <;> omega

theorem log_write_keeps {addr : Nat} (hl : s.locked = true)
    (hc : (insert addr s.logged).card ≤ Log.MAXOPBLOCKS) :
    Keeps (Others i) State.Fits (modify fun s => s.log_write addr)
      (fun _ s' => s'.locked = true ∧ s'.logged = insert addr s.logged ∧
        s'.indirectCost i ≤ s.indirectCost i) s := by
  refine Keeps.modify fun s₁ hR => ?_
  have h := Held.of_others hR hl
  have hlogged : insert addr s₁.logged = insert addr s.logged := congrArg (insert addr) h.logged
  refine ⟨(congrArg Finset.card hlogged).le.trans hc, h.locked, hlogged, ?_⟩
  refine indirectCost_le ?_ (by rw [← h.inode]; rfl)
  rw [← h.logged]
  exact Finset.subset_insert ..

/-- `either_copyin` logs nothing. -/
theorem either_copyin_keeps {addr off src m : Nat} (hl : s.locked = true) (hs : s.Fits) :
    Keeps (Others i) State.Fits (either_copyin mem addr off src m)
      (fun _ s' => s'.locked = true ∧ s'.logged = s.logged ∧
        s'.indirectCost i ≤ s.indirectCost i) s := by
  refine Keeps.atom fun s₁ hR r s₂ hf => ?_
  obtain ⟨-, rfl⟩ := Outcome.ok.inj hf
  have h := Held.of_others hR hl
  exact ⟨(congrArg Finset.card h.logged).le.trans hs, h.locked, h.logged,
    indirectCost_le h.logs.sub (by rw [← h.inode]; rfl)⟩

/-- One turn of the loop with the block that `bmap` finds, and then the rest. -/
theorem writeTurn_keeps {addr off src m c : Nat} {rest : Prog State (Nat × Nat)}
    {Q : Nat × Nat → State → Prop} {ret : Nat × Nat} (hl : s.locked = true) (hs : s.Fits)
    (hc : (insert addr s.logged).card + s.indirectCost i ≤ c) (hcm : c ≤ Log.MAXOPBLOCKS)
    (hret : ∀ s', s'.locked = true → s'.logged = s.logged → Q ret s')
    (hrest : ∀ s', s'.locked = true → s'.logged.card + s'.indirectCost i ≤ c →
      Keeps (Others i) State.Fits rest Q s') :
    Keeps (Others i) State.Fits (do
      let r ← either_copyin mem addr (off % BSIZE) src m
      if r = -1 then return ret
      else do
        modify fun s => s.log_write addr
        rest) Q s := by
  refine Keeps.bind (either_copyin_keeps hl hs) fun r s₁ h₁ => ?_
  obtain ⟨hl₁, hlogged₁, hcost₁⟩ := h₁
  split
  · exact hret s₁ hl₁ hlogged₁
  · refine Keeps.bind (log_write_keeps hl₁ (by rw [hlogged₁]; omega)) fun _ s₂ h₂ => ?_
    obtain ⟨hl₂, hlogged₂, hcost₂⟩ := h₂
    refine hrest s₂ hl₂ ?_
    rw [hlogged₂, hlogged₁]
    omega

theorem writeiLoop_keeps {fuel tot off src : Nat} (hl : s.locked = true)
    (hc : s.logged.card + s.indirectCost i + contentCost off (n - tot) + 1 ≤ Log.MAXOPBLOCKS) :
    Keeps (Others i) State.Fits (writeiLoop sb mem i n fuel tot off src)
      (fun _ s' => s'.locked = true ∧ s'.logged.card + 1 ≤ Log.MAXOPBLOCKS) s := by
  induction fuel generalizing tot off src s with
  | zero => exact ⟨hl, by omega⟩
  | succ fuel ih =>
    unfold writeiLoop
    split
    · next htot =>
      obtain ⟨m, hm⟩ : ∃ m, m = min (n - tot) (BSIZE - off % BSIZE) := ⟨_, rfl⟩
      have hnext := contentCost_next (by omega : 0 < n - tot) hm
      rw [← hm]
      refine Keeps.bind (bmap_keeps hl (by omega)) fun addr s₁ h₁ => ?_
      have hcard₁ := h₁.card
      split
      · exact ⟨h₁.locked, by omega⟩
      · next h0 =>
        have hfound := h₁.found h0
        have hsub := Finset.card_le_card (Finset.subset_insert addr s₁.logged)
        refine writeTurn_keeps h₁.locked (by unfold State.Fits; omega) hfound (by omega)
          (fun s₂ hl₂ hlogged₂ => ⟨hl₂, by rw [hlogged₂]; omega⟩) fun s₂ hl₂ hcost₂ => ?_
        refine ih hl₂ ?_
        rw [show n - (tot + m) = n - tot - m by omega]
        omega
    · exact ⟨hl, by omega⟩

/-- The whole loop of a write of at most `maxWrite` bytes. -/
theorem writei_loop_keeps {off src : Nat} (hl : s.locked = true) (h0 : s.logged = ∅)
    (hfree : s.HoleFree i) (hoff : off ≤ (s.inode i).size) (hend : off + n ≤ MAXFILE * BSIZE)
    (hn : n ≤ maxWrite) :
    Keeps (Others i) State.Fits (writeiLoop sb mem i n n 0 off src)
      (fun _ s' => s'.locked = true ∧ s'.logged.card + 1 ≤ Log.MAXOPBLOCKS) s := by
  have htwo : s.indirectCost i ≤ 2 := indirectCost_le_two
  have hcard : s.logged.card = 0 := by rw [h0, Finset.card_empty]
  have hmax : maxWrite = 3072 := rfl
  have hops : Log.MAXOPBLOCKS = 10 := rfl
  by_cases halign : off % BSIZE = 0
  · refine writeiLoop_keeps hl ?_
    unfold contentCost
    unfold BSIZE at *
    split <;> omega
  · -- the write starts inside of a block
    cases n with
    | zero => exact ⟨hl, by omega⟩
    | succ k =>
      obtain ⟨n, hk⟩ : ∃ n, n = k + 1 := ⟨_, rfl⟩
      rw [← hk] at hend hn ⊢
      rw [show writeiLoop sb mem i n n 0 off src =
        writeiLoop sb mem i n (k + 1) 0 off src by rw [hk]]
      unfold writeiLoop
      rw [if_pos (by omega)]
      obtain ⟨m, hm⟩ : ∃ m, m = min (n - 0) (BSIZE - off % BSIZE) := ⟨_, rfl⟩
      have hthere : s.addrAt i (off / BSIZE) ≠ 0 := by
        refine hfree _ ?_ ?_
        · unfold BSIZE at *
          omega
        · unfold BSIZE at *
          omega
      have hbn : off / BSIZE < MAXFILE := by
        unfold BSIZE at *
        omega
      rw [← hm]
      refine Keeps.bind (bmap_keeps_there hl (by unfold State.Fits; omega) hbn hthere)
        fun addr s₁ h₁ => ?_
      have hlogged₁ := h₁.logged.trans h0
      split
      · exact ⟨h₁.locked, by rw [hlogged₁, Finset.card_empty]; omega⟩
      · have hone : (insert addr s₁.logged).card = 1 := by rw [hlogged₁]; rfl
        have htwo₁ : s₁.indirectCost i ≤ 2 := indirectCost_le_two
        refine writeTurn_keeps (c := 3) h₁.locked (by unfold State.Fits; rw [hlogged₁]; simp)
          (by omega) (by omega)
          (fun s₂ hl₂ hlogged₂ => ⟨hl₂, by rw [hlogged₂, hlogged₁, Finset.card_empty]; omega⟩)
          fun s₂ hl₂ hcost₂ => ?_
        refine writeiLoop_keeps hl₂ ?_
        unfold contentCost
        unfold BSIZE at *
        split <;> omega

/-! ## The transaction -/

theorem iupdate_keeps (hl : s.locked = true) (hc : s.logged.card + 1 ≤ Log.MAXOPBLOCKS) :
    Keeps (Others i) State.Fits (iupdate sb i) (fun _ _ => True) s := by
  refine Keeps.bind (Q := fun _ s' => Held i s s') (Keeps.read fun s₁ hR => ?_) fun ip s₁ h₁ => ?_
  · have h := Held.of_others hR hl
    exact ⟨h.logs.fits (by omega), h⟩
  · have hins := Finset.card_insert_le (IBLOCK sb i) s₁.logged
    rw [h₁.logged] at hins
    exact (logStore_keeps h₁.locked (by rw [h₁.logged]; omega)).mono fun _ _ _ => trivial

theorem writei_keeps {off src : Nat} (hl : s.locked = true) (h0 : s.logged = ∅)
    (hfree : s.HoleFree i) (hn : n ≤ maxWrite) :
    Keeps (Others i) State.Fits (writei sb mem i src off n) (fun _ _ => True) s := by
  refine Keeps.bind (Q := fun ip s' => ip = s.inode i ∧ Held i s s')
    (Keeps.read fun s₁ hR => ?_) fun ip s₁ h₁ => ?_
  · have h := Held.of_others hR hl
    refine ⟨?_, h.inode, h⟩
    unfold State.Fits
    rw [h.logged, h0]
    exact Nat.zero_le _
  · obtain ⟨rfl, h₁⟩ := h₁
    split
    · trivial
    · next hoff =>
      split
      · trivial
      · next hend =>
        have hfree₁ : s₁.HoleFree i := fun bn hbn hsize => by
          rw [h₁.inode] at hsize
          rw [h₁.addrAt]
          exact hfree bn hbn hsize
        have hmax : maxWrite = 3072 := rfl
        have hfile : MAXFILE * BSIZE = 274432 := rfl
        refine Keeps.bind (writei_loop_keeps h₁.locked (h₁.logged.trans h0) hfree₁
          (by rw [h₁.inode]; omega) (by omega) hn) fun res s₂ h₂ => ?_
        obtain ⟨hl₂, hcard₂⟩ := h₂
        refine Keeps.bind (Q := fun _ s' => s'.locked = true ∧
          s'.logged.card + 1 ≤ Log.MAXOPBLOCKS) (Keeps.modify fun s₃ hR => ?_) fun _ s₃ h₃ => ?_
        · have h := Held.of_others hR hl₂
          have hlogged : (if res.2 > (s₃.inode i).size then
              s₃.setInode i { s₃.inode i with size := res.2 } else s₃).logged = s₂.logged := by
            split <;> exact h.logged
          have hlocked : (if res.2 > (s₃.inode i).size then
              s₃.setInode i { s₃.inode i with size := res.2 } else s₃).locked = true := by
            split <;> exact h.locked
          unfold State.Fits
          rw [hlogged]
          exact ⟨by omega, hlocked, hcard₂⟩
        · exact Keeps.bind (iupdate_keeps h₃.1 h₃.2) fun _ _ _ => trivial

/-- What the others may do to the file that is not locked. -/
theorem Others.unlocked (h : ReflTransGen (Others i) s s') (hl : s.locked = false)
    (hfree : s.HoleFree i) : s'.locked = false ∧ s'.logged = s.logged ∧ s'.HoleFree i := by
  induction h with
  | refl => exact ⟨hl, rfl, hfree⟩
  | tail _ h ih =>
    obtain ⟨hl₁, hlogged₁, hfree₁⟩ := ih
    exact ⟨h.locked.trans hl₁, h.logged.trans hlogged₁, h.holeFree hl₁ hfree₁⟩

theorem Others.logged_eq (h : ReflTransGen (Others i) s s') : s'.logged = s.logged := by
  induction h with
  | refl => rfl
  | tail _ h ih => exact h.logged.trans ih

theorem modify_keeps_fits {f : State → State} (hs : s.Fits)
    (hf : ∀ s, (f s).logged = s.logged) :
    Keeps (Others i) State.Fits (modify f) (fun _ s' => s'.Fits) s := by
  refine Keeps.modify fun s₁ hR => ?_
  have hfits : (f s₁).Fits := by
    unfold State.Fits
    rw [hf, Others.logged_eq hR]
    exact hs
  exact ⟨hfits, hfits⟩

/-- In every state of a turn of `filewrite`, the transaction has logged at most
`MAXOPBLOCKS` blocks, wherever the write starts and whatever the bitmap says. -/
theorem writeChunk_fits {src n1 : Nat} {p : Prog State Int} (hl : s.locked = false)
    (h0 : s.logged = ∅) (hfree : s.HoleFree i) (hn : n1 ≤ maxWrite)
    (hr : Reaches (Others i) (writeChunk sb mem i src n1) s p s') :
    s'.logged.card ≤ Log.MAXOPBLOCKS := by
  have hempty : s.Fits := by
    unfold State.Fits
    rw [h0]
    exact Nat.zero_le _
  refine Keeps.reaches (I := State.Fits) (Q := fun _ _ => True) (fun s s' h hs => ?_) hr hempty ?_
  · unfold State.Fits at *
    rwa [h.logged]
  unfold writeChunk
  -- `begin_op`, and then `ilock`
  refine Keeps.bind (Q := fun _ s₁ => s₁.locked = false ∧ s₁.logged = ∅ ∧ s₁.HoleFree i)
    (Keeps.modify fun s₁ hR => ?_) fun _ s₁ h₁ => ?_
  · obtain ⟨hl₁, -, hfree₁⟩ := Others.unlocked hR hl hfree
    exact ⟨Nat.zero_le _, hl₁, rfl, hfree₁⟩
  refine Keeps.bind (Q := fun _ s₂ => s₂.locked = true ∧ s₂.logged = ∅ ∧ s₂.HoleFree i)
    (Keeps.modify fun s₂ hR => ?_) fun _ s₂ h₂ => ?_
  · obtain ⟨hl₁, h0₁, hfree₁⟩ := h₁
    obtain ⟨-, hlogged₂, hfree₂⟩ := Others.unlocked hR hl₁ hfree₁
    have h0₂ := hlogged₂.trans h0₁
    refine ⟨?_, rfl, h0₂, hfree₂⟩
    show s₂.logged.card ≤ _
    rw [h0₂]
    exact Nat.zero_le _
  refine Keeps.bind (Q := fun _ s₃ => s₃.locked = true ∧ s₃.logged = ∅ ∧ s₃.HoleFree i)
    (Keeps.read fun s₃ hR => ?_) fun off s₃ h₃ => ?_
  · obtain ⟨hl₂, h0₂, hfree₂⟩ := h₂
    have h := Held.of_others hR hl₂
    have h0₃ := h.logged.trans h0₂
    refine ⟨?_, h.locked, h0₃, fun bn hbn hsize => ?_⟩
    · unfold State.Fits
      rw [h0₃]
      exact Nat.zero_le _
    · rw [h.inode] at hsize
      rw [h.addrAt]
      exact hfree₂ bn hbn hsize
  obtain ⟨hl₃, h0₃, hfree₃⟩ := h₃
  have hfits₃ : s₃.Fits := by
    unfold State.Fits
    rw [h0₃]
    exact Nat.zero_le _
  refine Keeps.bind ((writei_keeps hl₃ h0₃ hfree₃ hn).inv hfits₃) fun r s₄ h₄ => ?_
  refine Keeps.bind (Q := fun _ s₅ => s₅.Fits) ?_ fun _ s₅ h₅ => ?_
  · split
    · exact modify_keeps_fits h₄.2 fun _ => rfl
    · exact h₄.2
  · exact Keeps.bind (modify_keeps_fits h₅ fun _ => rfl) fun _ _ _ => trivial

/-- A file of 100 bytes, in block 30 of a disk of 40 blocks: the bitmap marks it
and the five blocks before the data. -/
def short : State where
  data := Function.update (fun _ => Bytes.zero) 4
    ([0, 1, 2, 3, 4, 30].foldl Bytes.setBit Bytes.zero)
  inode _ := { type := 2, major := 0, minor := 0, nlink := 1, size := 100,
               addrs := Function.update (fun _ => 0) 0 30 }
  off := 100
  locked := false
  logged := ∅

def smallDisk : Superblock where
  magic := FSMAGIC
  size := 40
  nblocks := 35
  ninodes := 16
  nlog := 1
  logstart := 2
  inodestart := 3
  bmapstart := 4

set_option maxRecDepth 100000 in
theorem writeChunk_fits_short : short.HoleFree 1 ∧ ∃ r s',
    (writeChunk smallDisk (fun _ => some 7) 1 0 3072).run short = .ok r s' ∧
      s'.logged.card ≤ Log.MAXOPBLOCKS := by
  have hfree : short.HoleFree 1 := fun bn _ hsize => by
    obtain rfl : bn = 0 := by
      change bn * 1024 < 100 at hsize
      omega
    exact (by decide : short.addrAt 1 0 ≠ 0)
  obtain ⟨r, hrun⟩ := Outcome.eq_ok (by decide +kernel :
    ((writeChunk smallDisk (fun _ => some 7) 1 0 3072).run short).isOk) short
  exact ⟨hfree, r, _, hrun, writeChunk_fits rfl rfl hfree (by decide) (.of_run hrun)⟩

end Xv6.FileSystem
