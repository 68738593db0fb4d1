/-
fs.c: files are byte arrays.

The content of a file is scattered over its blocks. `Wrote` says what a write
has done so far to the bytes of every file.
-/
import Xv6.FileBlocks

namespace Xv6.FileSystem

open Conc Prog Fs
open Mkfs (NPLACES place place_lt place_inj)

variable {sb : Superblock} {I : Set Nat} {s s' s₁ : State} {i k a b n bn : Nat}

/-- The byte at offset `o` of a file. -/
def State.byte (s : State) (i o : Nat) : UInt8 := s.data (s.addrAt i (o / BSIZE)) (o % BSIZE)

/-- The content of a file. -/
def State.bytes (s : State) (i : Nat) : List UInt8 :=
  (List.range (s.inode i).size).map (s.byte i)

/-- What a write has done so far: the bytes of file `i` from `off` to `off'`
are those of `f` now, and all else is as it was. -/
structure Wrote (I : Set Nat) (i : Nat) (f : Nat → UInt8) (off off' : Nat) (s s' : State) :
    Prop where
  size : ∀ i, (s'.inode i).size = (s.inode i).size
  there : ∀ {i' bn}, i' ∈ I → bn < MAXFILE → s.addrAt i' bn ≠ 0 → s'.addrAt i' bn ≠ 0
  new : ∀ {o}, off ≤ o → o < off' → s'.addrAt i (o / BSIZE) ≠ 0 ∧ s'.byte i o = f o
  old : ∀ {i' o}, i' ∈ I → o / BSIZE < MAXFILE → s.addrAt i' (o / BSIZE) ≠ 0 →
    ¬ (i' = i ∧ off ≤ o ∧ o < off') → s'.byte i' o = s.byte i' o

variable {f : Nat → UInt8} {off off' n m : Nat} {mem : Mem}

theorem Wrote.of_ext (h : Ext I s s') (f : Nat → UInt8) (off : Nat) :
    Wrote I i f off off s s' := by
  refine ⟨h.size, fun hi hbn h0 => ?_, fun hle hlt => by omega, fun hi hbn h0 _ => ?_⟩
  · rwa [h.addrAt hi hbn h0]
  · unfold State.byte
    rw [h.addrAt hi hbn h0, h.data hi hbn h0]

theorem Wrote.trans {off₁ : Nat} (h : Wrote I i f off off₁ s s₁) (h' : Wrote I i f off₁ off' s₁ s')
    (hi : i ∈ I) (hmax : off₁ ≤ MAXFILE * BSIZE) (hle : off ≤ off₁) (hle' : off₁ ≤ off') :
    Wrote I i f off off' s s' := by
  refine ⟨fun i' => (h'.size i').trans (h.size i'), fun hi' hbn h0 =>
    h'.there hi' hbn (h.there hi' hbn h0), fun {o} hlo hhi => ?_, fun {i' o} hi' hbn h0 hno => ?_⟩
  · by_cases ho : o < off₁
    · obtain ⟨h0, hbyte⟩ := h.new hlo ho
      have hbn : o / BSIZE < MAXFILE := by
        unfold BSIZE at *
        omega
      exact ⟨h'.there hi hbn h0, (h'.old hi hbn h0 (by omega)).trans hbyte⟩
    · exact h'.new (by omega) hhi
  · rw [h'.old hi' hbn (h.there hi' hbn h0) (fun hc => hno ⟨hc.1, by omega, hc.2.2⟩)]
    exact h.old hi' hbn h0 fun hc => hno ⟨hc.1, hc.2.1, by omega⟩

/-- Bytes are written within one block of the file. -/
theorem Blocks.writeBlock (L : Layout sb I) (h : Blocks sb I s) (hi : i ∈ I)
    (hbn : off / BSIZE < MAXFILE) (h0 : s.addrAt i (off / BSIZE) ≠ 0) {src : List UInt8}
    (hend : off % BSIZE + src.length ≤ BSIZE)
    (hsrc : ∀ j, j < src.length → src.getD j 0 = f (off + j))
    (hs' : s' = (s.store (s.addrAt i (off / BSIZE))
      ((s.data (s.addrAt i (off / BSIZE))).copy (off % BSIZE) src)).log_write
        (s.addrAt i (off / BSIZE))) :
    Blocks sb I s' ∧ Wrote I i f off (off + src.length) s s' := by
  obtain ⟨addr, haddr⟩ : ∃ addr, addr = s.addrAt i (off / BSIZE) := ⟨_, rfl⟩
  rw [← haddr] at h0 hs'
  have hpl : s.place i (Mkfs.place (off / BSIZE)) = addr := by rw [haddr, addrAt_eq]
  obtain ⟨hlow, hlt, -⟩ := h.data hi (place_lt hbn) (by rwa [hpl])
  rw [hpl] at hlow hlt
  have hself : s'.data addr = (s.data addr).copy (off % BSIZE) src := by
    rw [hs']
    exact Function.update_self ..
  have hother : ∀ {c}, c ≠ addr → s'.data c = s.data c := by
    intro c hc
    rw [hs']
    exact Function.update_of_ne hc ..
  have hinode : s'.inode = s.inode := by
    rw [hs']
    rfl
  have hplace : ∀ {i' k'}, i' ∈ I → k' < NPLACES → s'.place i' k' = s.place i' k' := by
    intro i' k' hi' _
    refine place_congr (by rw [hinode]) fun h0' => hother fun heq => ?_
    exact Mkfs.place_ne _ (h.inj hi' indirect_lt hi (place_lt hbn) h0' (heq.trans hpl.symm)).2.symm
  have haddrAt : ∀ {i' bn'}, i' ∈ I → bn' < MAXFILE → s'.addrAt i' bn' = s.addrAt i' bn' := by
    intro i' bn' hi' hbn'
    rw [addrAt_eq, addrAt_eq, hplace hi' (place_lt hbn')]
  refine ⟨h.congr hplace fun {c} hc => ?_, fun i' => by rw [hinode], fun hi' hbn' h0' => ?_,
    fun {o} hlo hhi => ?_, fun {i' o} hi' hbn' h0' hno => ?_⟩
  · unfold State.used
    rw [hother (L.bitmap_ne hc hlow).symm]
  · rwa [haddrAt hi' hbn']
  · have ho : o / BSIZE = off / BSIZE ∧ o % BSIZE = off % BSIZE + (o - off) := by
      unfold BSIZE at *
      omega
    unfold State.byte
    rw [ho.1, haddrAt hi hbn, ← haddr, hself, ho.2, Bytes.copy_add (by omega), hsrc _ (by omega),
      Nat.add_sub_cancel' hlo]
    exact ⟨h0, rfl⟩
  · unfold State.byte
    rw [haddrAt hi' hbn']
    by_cases heq : s.addrAt i' (o / BSIZE) = addr
    · rw [heq, hself]
      rw [addrAt_eq] at heq h0'
      obtain ⟨hii, hpp⟩ := h.inj hi' (place_lt hbn') hi (place_lt hbn) h0' (heq.trans hpl.symm)
      have hoo := place_inj hpp
      have hout : ¬ (off ≤ o ∧ o < off + src.length) := fun hc => hno ⟨hii, hc⟩
      by_cases hlo : o < off
      · exact congrFun rfl _ |>.trans (Bytes.copy_of_lt (by unfold BSIZE at *; omega))
      · exact Bytes.copy_of_ge (by unfold BSIZE at *; omega)
    · rw [hother heq]

/-! ## writei -/

theorem Mem.bytes_eq {src : Nat} {g : Nat → UInt8} (h : ∀ j, j < n → mem (src + j) = some (g j)) :
    mem.bytes src n = (List.range n).map g := by
  induction n generalizing src g with
  | zero => rfl
  | succ n ih =>
    have h₀ := h 0 (by omega)
    rw [Nat.add_zero] at h₀
    rw [Mem.bytes, h₀, List.range_succ_eq_map, List.map_cons, List.map_map]
    refine congrArg (g 0 :: ·) (ih fun j hj => ?_)
    rw [Nat.add_assoc, Nat.add_comm 1 j]
    exact h (j + 1) (by omega)

theorem writeiLoop_run (L : Layout sb I) (h : Blocks sb I s) (hi : i ∈ I) {fuel tot src : Nat}
    (hfuel : n - tot ≤ fuel) (htot : tot ≤ n) (hend : off + (n - tot) ≤ MAXFILE * BSIZE)
    (hmem : ∀ j, j < n - tot → mem (src + j) = some (f (off + j))) :
    ∃ r s', (writeiLoop sb mem i n fuel tot off src).run s = .ok (tot + r, off + r) s' ∧
      r ≤ n - tot ∧ Blocks sb I s' ∧ Wrote I i f off (off + r) s s' ∧
      (r < n - tot → Full sb s') := by
  induction fuel generalizing s tot off src with
  | zero =>
    exact ⟨0, s, rfl, Nat.zero_le _, h, Wrote.of_ext (Ext.refl I s) f off, fun hlt => by omega⟩
  | succ fuel ih =>
    unfold writeiLoop
    by_cases hlt : tot < n
    · obtain ⟨m, hm⟩ : ∃ m, m = min (n - tot) (BSIZE - off % BSIZE) := ⟨_, rfl⟩
      have hm' : 0 < m ∧ m ≤ n - tot ∧ off % BSIZE + m ≤ BSIZE ∧ off / BSIZE < MAXFILE := by
        unfold BSIZE at *
        omega
      obtain ⟨hm0, hmn, hmb, hbn⟩ := hm'
      rw [if_pos hlt, run_bind, ← hm]
      obtain ⟨addr, s₁, hrun, hB, hE, haddr, hfull⟩ := bmap_run L h hi hbn
      rw [hrun]
      by_cases h0 : addr = 0
      · refine ⟨0, s₁, ?_, Nat.zero_le _, hB, Wrote.of_ext hE f off, fun _ => hfull h0⟩
        simp only [h0, if_true]
        rfl
      · have hat := haddr h0
        have hbytes : mem.bytes src m = (List.range m).map fun j => f (off + j) :=
          Mem.bytes_eq fun j hj => hmem j (by omega)
        have hlen : (mem.bytes src m).length = m := by
          rw [hbytes, List.length_map, List.length_range]
        obtain ⟨hB₂, hW₂⟩ := hB.writeBlock (f := f) L hi hbn (by rwa [hat])
          (by rw [hlen]; exact hmb) (fun j hj => by
            rw [hlen] at hj
            rw [hbytes, List.getD_eq_getElem?_getD, List.getElem?_map,
              List.getElem?_range hj]
            rfl) (by rw [hat])
        rw [hlen] at hW₂
        have hmem' : ∀ j, j < n - (tot + m) → mem (src + m + j) = some (f (off + m + j)) := by
          intro j hj
          rw [Nat.add_assoc, hmem (m + j) (by omega), Nat.add_assoc]
        obtain ⟨r, s', hrun', hr, hB', hW', hfull'⟩ := ih hB₂ (by omega : n - (tot + m) ≤ fuel)
          (by omega) (by omega : off + m + (n - (tot + m)) ≤ MAXFILE * BSIZE) hmem'
        refine ⟨m + r, s', ?_, by omega, hB', ?_, fun hr' => hfull' (by omega)⟩
        · simp only [h0, if_false, run_bind, either_copyin, run_atom, hlen, if_true]
          rw [if_neg (by decide), run_bind, run_modify, ← Nat.add_assoc, ← Nat.add_assoc]
          exact hrun'
        · have hW₁ := (Wrote.of_ext hE f off).trans hW₂ hi (by omega) (Nat.le_refl _) (by omega)
          rw [← Nat.add_assoc]
          exact hW₁.trans hW' hi (by omega) (by omega) (by omega)
    · rw [if_neg hlt]
      exact ⟨0, s, rfl, Nat.zero_le _, h, Wrote.of_ext (Ext.refl I s) f off, fun hlt' => by omega⟩

/-! ## Files -/

/-- The blocks of the files are all there, and nobody else's. -/
structure WellFormed (sb : Superblock) (I : Set Nat) (s : State) : Prop where
  blocks : Blocks sb I s
  size : ∀ {i}, i ∈ I → (s.inode i).size ≤ MAXFILE * BSIZE
  holeFree : ∀ {i}, i ∈ I → s.HoleFree i

theorem WellFormed.addrAt_ne {o : Nat} (h : WellFormed sb I s) (hi : i ∈ I)
    (ho : o < (s.inode i).size) : o / BSIZE < MAXFILE ∧ s.addrAt i (o / BSIZE) ≠ 0 := by
  have hsize := h.size hi
  have hbn : o / BSIZE < MAXFILE := by
    unfold BSIZE at *
    omega
  refine ⟨hbn, h.holeFree hi _ hbn ?_⟩
  have hle := Nat.div_mul_le_self o BSIZE
  omega

/-- Nothing but blocks that are no data and the bitmap is none of has changed. -/
theorem iupdate_run (L : Layout sb I) (h : Blocks sb I s) (hi : i ∈ I) :
    ∃ s', (iupdate sb i).run s = .ok () s' ∧ s'.inode = s.inode ∧ Blocks sb I s' ∧
      (∀ b, s'.used sb b = s.used sb b) ∧ ∀ {i' bn}, i' ∈ I → bn < MAXFILE →
        s'.addrAt i' bn = s.addrAt i' bn ∧ (s.addrAt i' bn ≠ 0 → s'.data (s.addrAt i' bn) = s.data (s.addrAt i' bn)) := by
  obtain ⟨s', hs'⟩ : ∃ s', s' = (s.store (IBLOCK sb i) (putDinode (s.data (IBLOCK sb i))
      (i % IPB * 64) (s.inode i))).log_write (IBLOCK sb i) := ⟨_, rfl⟩
  have hother : ∀ {c}, c ≠ IBLOCK sb i → s'.data c = s.data c := by
    intro c hc
    rw [hs']
    exact Function.update_of_ne hc ..
  have hmap : ∀ b, BBLOCK sb b ≠ IBLOCK sb i := by
    intro b
    have hlt := L.inodes hi
    have hle : sb.bmapstart ≤ BBLOCK sb b := Nat.le_add_left ..
    omega
  have hdata : ∀ {i' k}, i' ∈ I → k < NPLACES → s.place i' k ≠ 0 →
      s'.data (s.place i' k) = s.data (s.place i' k) := by
    intro i' k hi' hk h0
    obtain ⟨hlow, hlt, -⟩ := h.data hi' hk h0
    refine hother fun he => ?_
    have h₁ := L.inodes hi
    have h₂ := L.bitmap hlt
    have h₃ : sb.bmapstart ≤ BBLOCK sb (s.place i' k) := Nat.le_add_left ..
    omega
  have hinode : s'.inode = s.inode := by
    rw [hs']
    rfl
  have hplace : ∀ {i' k}, i' ∈ I → k < NPLACES → s'.place i' k = s.place i' k := fun hi' _ =>
    place_congr (by rw [hinode]) (hdata hi' indirect_lt)
  have hused : ∀ b, s'.used sb b = s.used sb b := fun b => by
    unfold State.used
    rw [hother (hmap b)]
  refine ⟨s', by rw [hs']; rfl, hinode, h.congr hplace fun {b} _ => hused b, hused,
    fun hi' hbn => ?_⟩
  · rw [addrAt_eq, addrAt_eq]
    exact ⟨hplace hi' (place_lt hbn), hdata hi' (place_lt hbn)⟩

/-- A new size, and nothing else. -/
theorem Blocks.setSize (h : Blocks sb I s) (i size : Nat) :
    Blocks sb I (s.setInode i { s.inode i with size := size }) ∧
      ∀ i' bn, (s.setInode i { s.inode i with size := size }).addrAt i' bn = s.addrAt i' bn := by
  have haddrs : ∀ i', ((s.setInode i { s.inode i with size := size }).inode i').addrs =
      (s.inode i').addrs := by
    intro i'
    show (Function.update s.inode i _ i').addrs = _
    by_cases hii : i' = i
    · rw [hii, Function.update_self]
    · rw [Function.update_of_ne hii]
  refine ⟨h.congr (fun {i' k} _ _ => ?_) fun _ => rfl, fun i' bn => ?_⟩
  · unfold State.place Mkfs.addrAt
    rw [haddrs]
    rfl
  · unfold State.addrAt
    rw [haddrs]
    rfl

/-- `off` and `n` are in the range that `writei` accepts. -/
def State.Accepts (s : State) (i off n : Nat) : Prop :=
  off ≤ (s.inode i).size ∧ off + n ≤ MAXFILE * BSIZE

instance (s : State) (i off n : Nat) : Decidable (s.Accepts i off n) := by
  unfold State.Accepts
  infer_instance

/-- Write bytes at an offset of a byte array that it starts in. -/
def splice (bytes : List UInt8) (off : Nat) (src : List UInt8) : List UInt8 :=
  bytes.take off ++ src ++ bytes.drop (off + src.length)

theorem splice_getElem? (bytes src : List UInt8) (h : off ≤ bytes.length) (o : Nat) :
    (splice bytes off src)[o]? =
      if off ≤ o ∧ o < off + src.length then src[o - off]? else bytes[o]? := by
  unfold splice
  rw [List.getElem?_append, List.getElem?_append, List.length_append, List.length_take,
    Nat.min_eq_left h]
  by_cases ho : o < off
  · rw [if_pos (by omega), if_pos ho, if_neg (by omega), List.getElem?_take_of_lt ho]
  · by_cases ho' : o < off + src.length
    · rw [if_pos ho', if_neg ho, if_pos ⟨by omega, ho'⟩]
    · rw [if_neg ho', if_neg (by omega), List.getElem?_drop]
      congr 1
      omega

theorem bytes_getElem? (s : State) (i o : Nat) :
    (s.bytes i)[o]? = if o < (s.inode i).size then some (s.byte i o) else none := by
  unfold State.bytes
  rw [List.getElem?_map]
  by_cases ho : o < (s.inode i).size
  · rw [if_pos ho, List.getElem?_range ho]
    rfl
  · rw [if_neg ho, List.getElem?_eq_none (by simpa using ho)]
    rfl

theorem length_bytes (s : State) (i : Nat) : (s.bytes i).length = (s.inode i).size := by
  unfold State.bytes
  rw [List.length_map, List.length_range]

theorem writei_rejects (h : WellFormed sb I s) (hi : i ∈ I) {src : Nat}
    (hn : n < 2 ^ 32) (hno : ¬ s.Accepts i off n) :
    (writei sb mem i src off n).run s = .ok (-1) s := by
  have hsize := h.size hi
  have hmax : MAXFILE * BSIZE = 274432 := rfl
  unfold State.Accepts at hno
  simp only [writei, run_bind, run_read]
  by_cases hwrap : off > (s.inode i).size ∨ (off + n) % 2 ^ 32 < off
  · rw [if_pos hwrap]
    rfl
  · rw [if_neg hwrap, if_pos (by omega)]
    rfl

theorem writei_run (L : Layout sb I) (h : WellFormed sb I s) (hi : i ∈ I) {src : Nat}
    {g : Nat → UInt8} (hok : s.Accepts i off n) (hmem : ∀ j, j < n → mem (src + j) = some (g j)) :
    ∃ (r : Nat) (s' : State), (writei sb mem i src off n).run s = .ok (r : Int) s' ∧ r ≤ n ∧
      (r < n → Full sb s') ∧ WellFormed sb I s' ∧
      s'.bytes i = splice (s.bytes i) off ((List.range r).map g) ∧
      ∀ i', i' ∈ I → i' ≠ i → s'.bytes i' = s.bytes i' := by
  obtain ⟨hoff, hend⟩ := hok
  have hmax : MAXFILE * BSIZE = 274432 := rfl
  have hf : ∀ j, g j = (fun o => g (o - off)) (off + j) := fun j => by
    show g j = g (off + j - off)
    rw [Nat.add_sub_cancel_left]
  have hmem' : ∀ j, j < n - 0 → mem (src + j) = some ((fun o => g (o - off)) (off + j)) :=
    fun j hj => (hmem j (by omega)).trans (congrArg some (hf j))
  obtain ⟨r, s₁, hrun, hr, hB₁, hW, hfull⟩ := writeiLoop_run (f := fun o => g (o - off)) L h.blocks
    hi (by omega : n - 0 ≤ n) (Nat.zero_le n) (by omega : off + (n - 0) ≤ MAXFILE * BSIZE) hmem'
  rw [Nat.zero_add] at hrun
  -- the new size, and the inode block
  obtain ⟨s₂, hs₂⟩ : ∃ s₂, s₂ = if off + r > (s₁.inode i).size then
      s₁.setInode i { s₁.inode i with size := off + r } else s₁ := ⟨_, rfl⟩
  have hs₂' : Blocks sb I s₂ ∧ (∀ i' bn, s₂.addrAt i' bn = s₁.addrAt i' bn) ∧ s₂.data = s₁.data ∧
      (s₂.inode i).size = max (s.inode i).size (off + r) ∧
      ∀ i', i' ≠ i → (s₂.inode i').size = (s.inode i').size := by
    have hsz := hW.size i
    rw [hs₂]
    split
    · obtain ⟨hB, haddr⟩ := hB₁.setSize i (off + r)
      refine ⟨hB, haddr, rfl, ?_, fun i' hii => ?_⟩
      · show (Function.update s₁.inode i _ i).size = _
        rw [Function.update_self]
        show off + r = _
        omega
      · show (Function.update s₁.inode i _ i').size = _
        rw [Function.update_of_ne hii, hW.size]
    · exact ⟨hB₁, fun _ _ => rfl, rfl, by omega, fun i' _ => hW.size i'⟩
  obtain ⟨hB₂, haddr₂, hdata₂, hsize₂, hsize₂'⟩ := hs₂'
  obtain ⟨s₃, hrun₃, hinode₃, hB₃, hused₃, hsame₃⟩ := iupdate_run L hB₂ hi
  have haddr₃ : ∀ {i' bn}, i' ∈ I → bn < MAXFILE → s₃.addrAt i' bn = s₁.addrAt i' bn :=
    fun hi' hbn => (hsame₃ hi' hbn).1.trans (haddr₂ _ _)
  have hbyte₃ : ∀ {i' o}, i' ∈ I → o / BSIZE < MAXFILE → s₁.addrAt i' (o / BSIZE) ≠ 0 →
      s₃.byte i' o = s₁.byte i' o := by
    intro i' o hi' hbn h0
    have hd := (hsame₃ hi' hbn).2
    rw [haddr₂] at hd
    unfold State.byte
    rw [haddr₃ hi' hbn, hd h0, hdata₂]
  have hfull₃ : r < n → Full sb s₃ := fun hlt b hb => by
    have hu := hfull (by omega) b hb
    unfold State.used at hu
    rw [hused₃]
    unfold State.used
    rwa [hdata₂]
  refine ⟨r, s₃, ?_, by omega, hfull₃, ⟨hB₃, fun {i'} hi' => ?_, fun {i'} hi' bn hbn hlt => ?_⟩, ?_,
    fun i' hi' hii => ?_⟩
  · simp only [writei, run_bind, run_read]
    rw [if_neg (by omega), if_neg (by omega)]
    simp only [run_bind, hrun, run_modify, ← hs₂, hrun₃]
    rfl
  · rw [hinode₃]
    by_cases hii : i' = i
    · subst hii
      have := h.size hi'
      omega
    · rw [hsize₂' i' hii]
      exact h.size hi'
  · rw [haddr₃ hi' hbn]
    rw [hinode₃] at hlt
    by_cases hold : bn * BSIZE < (s.inode i').size
    · exact hW.there hi' hbn (h.holeFree hi' bn hbn hold)
    · have hii : i' = i := by
        by_contra hii
        rw [hsize₂' i' hii] at hlt
        omega
      subst hii
      have hnew := (hW.new (by omega : off ≤ bn * BSIZE) (by omega)).1
      rwa [Nat.mul_div_cancel _ (by decide)] at hnew
  · refine List.ext_getElem? fun o => ?_
    rw [splice_getElem? _ _ (by rw [length_bytes]; exact hoff), bytes_getElem?, bytes_getElem?,
      List.length_map, List.length_range, hinode₃, hsize₂]
    by_cases hin : off ≤ o ∧ o < off + r
    · obtain ⟨h0, hbyte⟩ := hW.new hin.1 hin.2
      have hbn : o / BSIZE < MAXFILE := by
        unfold BSIZE at *
        omega
      rw [if_pos (by omega), if_pos hin, hbyte₃ hi hbn h0, hbyte, List.getElem?_map,
        List.getElem?_range (by omega)]
      rfl
    · rw [if_neg hin]
      by_cases ho : o < (s.inode i).size
      · obtain ⟨hbn, h0⟩ := h.addrAt_ne hi ho
        rw [if_pos (by omega), if_pos ho, hbyte₃ hi hbn (hW.there hi hbn h0),
          hW.old hi hbn h0 fun hc => hin hc.2]
      · rw [if_neg (by omega), if_neg ho]
  · refine List.ext_getElem? fun o => ?_
    rw [bytes_getElem?, bytes_getElem?, hinode₃, hsize₂' i' hii]
    by_cases ho : o < (s.inode i').size
    · obtain ⟨hbn, h0⟩ := h.addrAt_ne hi' ho
      rw [if_pos ho, if_pos ho, hbyte₃ hi' hbn (hW.there hi' hbn h0),
        hW.old hi' hbn h0 fun hc => hii hc.1]
    · rw [if_neg ho, if_neg ho]

/-! ## readi -/

theorem readiLoop_run (h : WellFormed sb I s) (hi : i ∈ I) {writable : Nat → Bool}
    {fuel tot dst : Nat} (hfuel : n - tot ≤ fuel) (htot : tot ≤ n)
    (hend : off + (n - tot) ≤ (s.inode i).size)
    (hw : ∀ j, j < n - tot → writable (dst + j) = true) :
    (readiLoop sb writable i n fuel tot off dst).run s =
      .ok ((n : Int), (List.range (n - tot)).map fun j => s.byte i (off + j)) s := by
  induction fuel generalizing tot off dst with
  | zero =>
    have he : n - tot = 0 := by omega
    have ht : tot = n := by omega
    rw [he, ht]
    rfl
  | succ fuel ih =>
    unfold readiLoop
    by_cases hlt : tot < n
    · obtain ⟨m, hm⟩ : ∃ m, m = min (n - tot) (BSIZE - off % BSIZE) := ⟨_, rfl⟩
      have hm' : 0 < m ∧ m ≤ n - tot ∧ off % BSIZE + m ≤ BSIZE := by
        unfold BSIZE at *
        omega
      obtain ⟨hm0, hmn, hmb⟩ := hm'
      obtain ⟨hbn, h0⟩ := h.addrAt_ne hi (by omega : off < (s.inode i).size)
      have hw' : ∀ j, j < n - (tot + m) → writable (dst + m + j) = true := by
        intro j hj
        rw [Nat.add_assoc]
        exact hw (m + j) (by omega)
      have hall : ((List.range m).all fun j => writable (dst + j)) = true := by
        rw [List.all_eq_true]
        intro j hj
        exact hw j (by have := List.mem_range.1 hj; omega)
      have hrest := ih (by omega : n - (tot + m) ≤ fuel) (by omega)
        (by omega : off + m + (n - (tot + m)) ≤ (s.inode i).size) hw'
      have hdata : ∀ j, j < m →
          s.data (s.addrAt i (off / BSIZE)) (off % BSIZE + j) = s.byte i (off + j) := by
        intro j hj
        have ho : (off + j) / BSIZE = off / BSIZE ∧ (off + j) % BSIZE = off % BSIZE + j := by
          unfold BSIZE at *
          omega
        unfold State.byte
        rw [ho.1, ho.2]
      rw [if_pos hlt, run_bind, ← hm, bmap_there hbn h0]
      simp only [h0, if_false, run_bind, bread, run_read, hall, if_true, hrest]
      have hsplit : n - tot = m + (n - (tot + m)) := by omega
      rw [hsplit, List.range_add, List.map_append, List.map_map]
      have hcopy : (List.range m).map (fun j =>
          s.data (s.addrAt i (off / BSIZE)) (off % BSIZE + j)) = (List.range m).map fun j => s.byte i (off + j) :=
        List.map_congr_left fun j hj => hdata j (List.mem_range.1 hj)
      rw [hcopy]
      have hshift : (List.range (n - (tot + m))).map (fun j => s.byte i (off + m + j)) =
          (List.range (n - (tot + m))).map ((fun j => s.byte i (off + j)) ∘ fun j => m + j) :=
        List.map_congr_left fun j _ => by rw [Function.comp_apply, Nat.add_assoc]
      rw [hshift]
      rfl
    · have he : n - tot = 0 := by omega
      have ht : tot = n := by omega
      rw [if_neg hlt, he, ht]
      rfl

theorem readi_run (h : WellFormed sb I s) (hi : i ∈ I) {writable : Nat → Bool} {dst : Nat}
    (hoff : off < 2 ^ 32) (hn : n < 2 ^ 32)
    (hw : ∀ j, j < n → writable (dst + j) = true) :
    (readi sb writable i dst off n).run s =
      if off ≤ (s.inode i).size ∧ off + n < 2 ^ 32 then
        .ok ((((s.bytes i).drop off).take n).length, ((s.bytes i).drop off).take n) s
      else .ok (0, []) s := by
  have hsize := h.size hi
  have hmax : MAXFILE * BSIZE = 274432 := rfl
  simp only [readi, run_bind, run_read]
  by_cases hok : off ≤ (s.inode i).size ∧ off + n < 2 ^ 32
  · obtain ⟨n', hn'⟩ : ∃ n', n' = if (off + n) % 2 ^ 32 > (s.inode i).size then
        (s.inode i).size - off else n := ⟨_, rfl⟩
    have hcases : n' ≤ n ∧ off + n' ≤ (s.inode i).size ∧
        (n' = n ∨ off + n' = (s.inode i).size) := by
      rw [hn']
      split <;> omega
    have hout : ((s.bytes i).drop off).take n =
        (List.range (n' - 0)).map fun j => s.byte i (off + j) := by
      refine List.ext_getElem? fun o => ?_
      rw [List.getElem?_take, List.getElem?_drop, bytes_getElem?, List.getElem?_map]
      by_cases ho : o < n'
      · rw [if_pos (by omega), if_pos (by omega), List.getElem?_range (by omega)]
        rfl
      · rw [List.getElem?_eq_none (by simpa using ho)]
        split
        · rw [if_neg (by omega)]
          rfl
        · rfl
    rw [if_neg (by omega), if_pos hok, ← hn', hout, List.length_map, List.length_range]
    exact readiLoop_run h hi (by omega) (Nat.zero_le n') (by omega) fun j hj => hw j (by omega)
  · rw [if_neg hok, if_pos (by omega)]
    rfl

end Xv6.FileSystem
