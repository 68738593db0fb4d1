/-
mkfs.c: `iappend` appends.

It fails only where the file would become too large, or where there are not
enough blocks left.
-/
import Xv6.MkfsBlocks

namespace Xv6.Mkfs

open Fs

variable {s s' : State} {ino : Nat → Dinode} {c : Nat → List UInt8} {m : Nat → Nat}
  {i k bn x : Nat} {image : Nat → Bytes} {din : Dinode} {p : List UInt8}

/-! ## One block -/

/-- What `iappend` has when it has found the block of number `bn`. There may be
one block too many, which it is going to read. -/
structure Given (s s' : State) (ino : Nat → Dinode) (c : Nat → List UInt8) (m : Nat → Nat)
    (i bn x : Nat) (din : Dinode) : Prop where
  length : s'.length = FSSIZE
  freeinode : s'.freeinode = s.freeinode
  freeblock : s'.freeblock = s.freeblock + (place bn + 1 - m i)
  low : ∀ b, b < nmeta → s'.image b = s.image b
  fields : din = { ino i with addrs := din.addrs }
  ok : s'.freeblock ≤ FSSIZE → x = addrAt s'.image din (place bn) ∧ x ≠ 0 ∧
    Blocks s' (Function.update ino i din) c (Function.update m i (place bn + 1))
  dead : FSSIZE < s'.freeblock → FSSIZE ≤ x ∧ x < 2 ^ 22

/-- A new number in a place of the inode. -/
theorem addrAt_update {v : Nat} {din' : Dinode} (hk : k < NDIRECT + 1)
    (hd : din'.addrs = Function.update din.addrs ⟨k, hk⟩ v)
    (h : k = NDIRECT → din.addrs ⟨k, hk⟩ = 0 ∧ image v = Bytes.zero) (j : Nat) :
    addrAt image din' j = if j = k then v else addrAt image din j := by
  by_cases hj : j < NDIRECT + 1
  · rw [addrAt_of_lt hj, addrAt_of_lt hj, hd]
    by_cases hjk : j = k
    · subst hjk
      rw [if_pos rfl]
      exact Function.update_self _ _ _
    · rw [if_neg hjk]
      exact Function.update_of_ne (fun e => hjk (Fin.mk.inj e)) _ _
  · rw [if_neg (by omega)]
    by_cases hkl : k = NDIRECT
    · subst hkl
      obtain ⟨h₀, hzero⟩ := h rfl
      have hlast : (⟨NDIRECT, hk⟩ : Fin (NDIRECT + 1)) = Fin.last NDIRECT := rfl
      unfold addrAt
      rw [dif_neg hj, dif_neg hj, hd, hlast, Function.update_self, 
        if_pos (c := din.addrs (Fin.last NDIRECT) = 0) (hlast ▸ h₀), hzero, Bytes.getLe_zero]
      exact ite_self _
    · have hlast : Function.update din.addrs ⟨k, hk⟩ v (Fin.last NDIRECT) =
          din.addrs (Fin.last NDIRECT) :=
        Function.update_of_ne (fun e => hkl (Fin.mk.inj e).symm) _ _
      unfold addrAt
      rw [dif_neg hj, dif_neg hj, hd, hlast]

/-- A place of the inode gets a block. -/
theorem Blocks.newAddr (h : Blocks s ino c m) (hi : s.Inum i) (hk : k < NDIRECT + 1)
    (hm : m i = k) (hfree : s.freeblock < FSSIZE)
    (hc : ∀ bn, place bn = k → (c i).length ≤ bn * BSIZE)
    (hdin : din = { ino i with addrs := Function.update (ino i).addrs ⟨k, hk⟩ s.freeblock }) :
    Blocks { s with freeblock := s.freeblock + 1 } (Function.update ino i din) c
      (Function.update m i (k + 1)) := by
  have hk' : k < NPLACES := Nat.lt_of_lt_of_le hk (Nat.le_add_right _ _)
  have he : addrAt s.image (ino i) k = (ino i).addrs ⟨k, hk⟩ := addrAt_of_lt hk
  have hzero : (ino i).addrs ⟨k, hk⟩ = 0 := by
    rw [← he]
    by_contra hne
    have hlt := (h.used i k hi hk').1 hne
    omega
  refine h.alloc hi hk' hm hfree ⟨rfl, rfl, rfl⟩ (fun i' k' hi' _ => ?_) (fun _ => .inl rfl) hc
  by_cases hii : i' = i
  · subst hii
    rw [Function.update_self, addrAt_update hk (congrArg Dinode.addrs hdin) fun _ =>
      ⟨hzero, h.fresh _ (Nat.le_refl _) hfree⟩]
    simp only [true_and]
  · rw [Function.update_of_ne hii, if_neg fun e => hii e.1]

/-- `k` is a place that is not used yet. -/
theorem newAddr_new (h : Blocks s ino c m) (hi : s.Inum i) (hk : k < NDIRECT + 1) (hm : m i ≤ k) :
    s.newAddr (ino i) ⟨k, hk⟩ =
      ({ ino i with addrs := Function.update (ino i).addrs ⟨k, hk⟩ s.freeblock },
        { s with freeblock := s.freeblock + 1 }) := by
  have he : addrAt s.image (ino i) k = (ino i).addrs ⟨k, hk⟩ := addrAt_of_lt hk
  refine if_pos ?_
  rw [← he]
  by_contra hne
  have hlt := (h.used i k hi (Nat.lt_of_lt_of_le hk (Nat.le_add_right _ _))).1 hne
  omega

theorem newAddr_old (h : Blocks s ino c m) (hi : s.Inum i) (hk : k < NDIRECT + 1) (hm : k < m i) :
    s.newAddr (ino i) ⟨k, hk⟩ = (ino i, s) := by
  have he : addrAt s.image (ino i) k = (ino i).addrs ⟨k, hk⟩ := addrAt_of_lt hk
  refine if_neg ?_
  rw [← he]
  exact (h.used i k hi (Nat.lt_of_lt_of_le hk (Nat.le_add_right _ _))).2 hm

/-- The block is in its place already. -/
theorem Blocks.given (h : Blocks s ino c m) (hi : s.Inum i) (hbn : bn < MAXFILE)
    (hm : m i = place bn + 1) (hx : x = addrAt s.image (ino i) (place bn)) :
    Given s s ino c m i bn x (ino i) := by
  refine ⟨h.length, rfl, by omega, fun _ _ => rfl, rfl, fun _ => ⟨hx, ?_, ?_⟩, fun hd => ?_⟩
  · rw [hx]
    exact (h.used i _ hi (place_lt hbn)).2 (by omega)
  · have hino : Function.update ino i (ino i) = ino := Function.update_eq_self i ino
    have hmi : Function.update m i (m i) = m := Function.update_eq_self i m
    rw [hino, ← hm, hmi]
    exact h
  · have hh := h.high
    omega

/-- In the indirect block. -/
theorem entryOf_spec (h : Blocks s ino c m) (hi : s.Inum i) (hbn : bn < MAXFILE)
    (hind : NDIRECT ≤ bn)
    (hm : m i = place bn + 1 ∨ m i = place bn ∧ (c i).length ≤ bn * BSIZE) :
    ∃ x s', s.entryOf (ino i) (bn - NDIRECT) = .ok (x, ino i, s') ∧
      Given s s' ino c m i bn x (ino i) := by
  have hpl : place bn = bn + 1 := if_neg (by omega)
  have hlast : NDIRECT < NPLACES := by decide
  have hge : ¬place bn < NDIRECT + 1 := by omega
  have hne : addrAt s.image (ino i) NDIRECT ≠ 0 := (h.used i _ hi hlast).2 (by omega)
  obtain ⟨hlow, hlt⟩ := h.range i _ hi hlast hne
  rw [addrAt_last] at hne hlow hlt
  have hhigh := h.high
  have haddr : addrAt s.image (ino i) (place bn) =
      (s.image ((ino i).addrs (Fin.last NDIRECT))).getLe (4 * (bn - NDIRECT)) 4 := by
    rw [addrAt_of_ge hge hne, hpl]
    congr 2
  unfold State.entryOf
  rw [rsect_of_lt h.length (by omega)]
  simp only [bind, Except.bind]
  rw [← haddr]
  rcases hm with hm | ⟨hm, hlen⟩
  · rw [if_neg ((h.used i _ hi (place_lt hbn)).2 (by omega))]
    exact ⟨_, _, rfl, h.given hi hbn hm rfl⟩
  · have hzero : addrAt s.image (ino i) (place bn) = 0 := by
      by_contra hne'
      have hlt := (h.used i _ hi (place_lt hbn)).1 hne'
      omega
    have hw := wsect_of_lt (s := { s with freeblock := s.freeblock + 1 }) h.length
      (show (ino i).addrs (Fin.last NDIRECT) < FSSIZE by omega)
    rw [if_pos hzero, hw]
    have hfb : s.freeblock < 256 ^ 4 := by
      unfold FSSIZE at hhigh
      omega
    refine ⟨_, _, rfl, h.length, rfl, ?_, fun b hb => Function.update_of_ne (by omega) _ _, rfl,
      fun hok => ?_, fun hd => ?_⟩
    · show s.freeblock + 1 = _
      omega
    · -- the new number, and those of the other places
      have hnew : ∀ i' k', s.Inum i' → k' < NPLACES →
          addrAt (Function.update s.image ((ino i).addrs (Fin.last NDIRECT))
            ((s.image ((ino i).addrs (Fin.last NDIRECT))).putLe (4 * (bn - NDIRECT)) 4
              s.freeblock)) (ino i') k' =
            if i' = i ∧ k' = place bn then s.freeblock else addrAt s.image (ino i') k' :=
        fun i' k' hi' hk' => by
          by_cases hii : i' = i
          · subst hii
            by_cases hk : k' < NDIRECT + 1
            · rw [if_neg (by omega), addrAt_of_lt hk, addrAt_of_lt hk]
            · rw [addrAt_of_ge hk hne, Function.update_self]
              by_cases hkk : k' = place bn
              · rw [if_pos ⟨rfl, hkk⟩, hkk, hpl,
                  show bn + 1 - (NDIRECT + 1) = bn - NDIRECT by omega, Bytes.getLe_putLe,
                  Nat.mod_eq_of_lt hfb]
              · rw [if_neg fun e => hkk e.2, addrAt_of_ge hk hne,
                  Bytes.getLe_putLe_of_disjoint (by omega)]
          · rw [if_neg fun e => hii e.1]
            refine addrAt_congr fun hne' => Function.update_of_ne (fun he => ?_) _ _
            have hl : addrAt s.image (ino i) NDIRECT = (ino i).addrs (Fin.last NDIRECT) :=
              addrAt_last
            rw [← hl] at he
            exact hii (h.inj i' _ i _ hi' hlast hi hlast hne' he).1
      refine ⟨?_, ?_, ?_⟩
      · rw [Bytes.getLe_putLe, Nat.mod_eq_of_lt hfb]
        exact ((hnew i _ hi (place_lt hbn)).trans (if_pos ⟨rfl, rfl⟩)).symm
      · rw [Bytes.getLe_putLe, Nat.mod_eq_of_lt hfb]
        have hp := nmeta_pos
        have hl := h.low
        omega
      · rw [Function.update_eq_self]
        have hok' : s.freeblock + 1 ≤ FSSIZE := hok
        refine h.alloc hi (place_lt hbn) hm (by omega) ⟨rfl, rfl, rfl⟩ hnew (fun b => ?_)
          fun bn' hp => place_inj hp ▸ hlen
        by_cases hb : b = (ino i).addrs (Fin.last NDIRECT)
        · rw [addrAt_last]
          exact .inr ⟨hne, hb⟩
        · exact .inl (Function.update_of_ne hb _ s.image)
    · have hd' : FSSIZE < s.freeblock + 1 := hd
      rw [Bytes.getLe_putLe, Nat.mod_eq_of_lt hfb]
      unfold FSSIZE at hd' hhigh ⊢
      omega

/-- The block for the next byte of a file. -/
theorem blockOf_spec (h : Blocks s ino c m) (hi : s.Inum i)
    (hbn : (c i).length / BSIZE < MAXFILE) (hm : m i = places (c i).length) :
    match s.blockOf (ino i) ((c i).length / BSIZE) with
    | .ok (x, din, s') => Given s s' ino c m i ((c i).length / BSIZE) x din
    | .error _ => FSSIZE < s.freeblock + (place ((c i).length / BSIZE) + 1 - m i) := by
  generalize hb : (c i).length / BSIZE = bn at hbn ⊢
  have hcases := places_cases (c i).length
  rw [hb, ← hm] at hcases
  have hhigh := h.high
  unfold State.blockOf
  by_cases hdir : bn < NDIRECT
  · have hpl : place bn = bn := if_pos hdir
    have hlt : bn < NDIRECT + 1 := by omega
    rw [dif_pos hdir]
    rcases hcases with hold | ⟨hnew, hlen⟩
    · rw [newAddr_old h hi hlt (by omega)]
      exact h.given hi hbn hold (by rw [hpl, addrAt_of_lt hlt])
    · have hmb : m i = bn := by omega
      rw [newAddr_new h hi hlt (by omega)]
      refine ⟨h.length, rfl, ?_, fun _ _ => rfl, rfl, fun hok => ⟨?_, ?_, ?_⟩, fun hd => ?_⟩
      · show s.freeblock + 1 = _
        omega
      · rw [hpl]
        exact (addrAt_of_lt hlt).symm
      · show Function.update (ino i).addrs ⟨bn, hlt⟩ s.freeblock ⟨bn, hlt⟩ ≠ 0
        rw [Function.update_self]
        have hp := nmeta_pos
        have hl := h.low
        omega
      · have hok' : s.freeblock + 1 ≤ FSSIZE := hok
        rw [hpl]
        refine h.newAddr hi hlt hmb (by omega) (fun bn' hp => ?_) rfl
        have hbb : bn' = bn := place_inj (hp.trans hpl.symm)
        rw [hbb]
        exact Nat.le_of_eq hlen
      · have hd' : FSSIZE < s.freeblock + 1 := hd
        show FSSIZE ≤ Function.update (ino i).addrs ⟨bn, hlt⟩ s.freeblock ⟨bn, hlt⟩ ∧
          Function.update (ino i).addrs ⟨bn, hlt⟩ s.freeblock ⟨bn, hlt⟩ < 2 ^ 22
        rw [Function.update_self]
        unfold FSSIZE at hd' hhigh ⊢
        omega
  · have hpl : place bn = bn + 1 := if_neg hdir
    have hlt : NDIRECT < NDIRECT + 1 := Nat.lt_succ_self _
    rw [dif_neg hdir]
    by_cases hind : NDIRECT < m i
    · -- there is an indirect block
      have ha := newAddr_old h hi hlt hind
      rw [show (⟨NDIRECT, hlt⟩ : Fin (NDIRECT + 1)) = Fin.last NDIRECT from rfl] at ha
      rw [ha]
      obtain ⟨x, s', he, hg⟩ := entryOf_spec h hi hbn (by omega) (by
        rcases hcases with hold | ⟨hnew, hlen⟩
        · exact .inl hold
        · exact .inr ⟨by omega, Nat.le_of_eq hlen⟩)
      dsimp only
      rw [he]
      exact hg
    · have hmi : m i = NDIRECT ∧ bn = NDIRECT := by omega
      obtain ⟨hmi, hbd⟩ := hmi
      have hlen : (c i).length = bn * BSIZE := by
        rcases hcases with hold | ⟨-, hlen⟩
        · omega
        · exact hlen
      have ha := newAddr_new h hi hlt (Nat.le_of_eq hmi)
      rw [show (⟨NDIRECT, hlt⟩ : Fin (NDIRECT + 1)) = Fin.last NDIRECT from rfl] at ha
      rw [ha]
      dsimp only
      generalize hd : ({ ino i with
        addrs := Function.update (ino i).addrs (Fin.last NDIRECT) s.freeblock } : Dinode) = din₁
      have hlast : din₁.addrs (Fin.last NDIRECT) = s.freeblock := by
        subst hd
        exact Function.update_self (Fin.last NDIRECT) s.freeblock (ino i).addrs
      rcases Nat.lt_or_ge s.freeblock FSSIZE with hfree | hfull
      · have h₁ := h.newAddr hi hlt hmi hfree (fun bn' hp => absurd hp (place_ne bn')) hd.symm
        have hm₁ : Function.update m i (NDIRECT + 1) i = NDIRECT + 1 := Function.update_self _ _ _
        obtain ⟨x, s', he, hg⟩ := entryOf_spec h₁ hi hbn (by omega)
          (.inr ⟨by omega, Nat.le_of_eq hlen⟩)
        rw [Function.update_self] at he hg
        rw [he]
        refine ⟨hg.length, hg.freeinode, ?_, hg.low, ?_, fun hok => ?_, hg.dead⟩
        · have hf := hg.freeblock
          rw [hm₁] at hf
          have hf' : s'.freeblock = s.freeblock + 1 + (place bn + 1 - (NDIRECT + 1)) := hf
          omega
        · rw [← hd]
        · have hb := hg.ok hok
          rw [Function.update_idem, Function.update_idem] at hb
          exact hb
      · unfold State.entryOf
        have hsec := rsect_of_ge (s := { s with freeblock := s.freeblock + 1 }) h.length hfull (by
          unfold FSSIZE at hhigh
          omega)
        rw [hlast, hsec]
        show FSSIZE < _
        omega

/-! ## The loop -/

/-- The blocks of the files, with every place used that the content needs. -/
def Files (s : State) (ino : Nat → Dinode) (c : Nat → List UInt8) : Prop :=
  Blocks s ino c fun i => places (c i).length

/-- There is room for `n` more bytes in file `i`. -/
def Room (s : State) (c : Nat → List UInt8) (i n : Nat) : Prop :=
  (c i).length + n ≤ MAXFILE * BSIZE ∧
    s.freeblock + (places ((c i).length + n) - places (c i).length) ≤ FSSIZE

/-- The bytes have been appended, but for the inode on the disk. -/
structure Appended (s s' : State) (ino : Nat → Dinode) (c : Nat → List UInt8) (i : Nat)
    (p : List UInt8) (off : Nat) (din : Dinode) : Prop where
  len : off = (c i).length + p.length
  max : off ≤ MAXFILE * BSIZE
  freeinode : s'.freeinode = s.freeinode
  freeblock : s'.freeblock =
    s.freeblock + (places ((c i).length + p.length) - places (c i).length)
  low : ∀ b, b < nmeta → s'.image b = s.image b
  fields : din = { ino i with addrs := din.addrs }
  files : Files s' (Function.update ino i din) (Function.update c i (c i ++ p))

theorem places_mono {len len' : Nat} (h : len ≤ len') : places len ≤ places len' := by
  have hq : (len + BSIZE - 1) / BSIZE ≤ (len' + BSIZE - 1) / BSIZE :=
    Nat.div_le_div_right (by omega)
  unfold places
  split <;> split <;> omega

theorem appendLoop_spec (h : Files s ino c) (hi : s.Inum i)
    (hmax : (c i).length ≤ MAXFILE * BSIZE) :
    match s.appendLoop (ino i) (c i).length p with
    | .ok (off, din, s') => Appended s s' ino c i p off din
    | .error _ => ¬Room s c i p.length := by
  induction hn : p.length using Nat.strong_induction_on generalizing s ino c p with
  | _ n ih =>
    subst hn
    rw [State.appendLoop]
    by_cases hp : p = []
    · rw [dif_pos hp, hp]
      refine ⟨rfl, hmax, rfl, (Nat.add_eq_left.2 (Nat.sub_self _)).symm, fun _ _ => rfl, rfl, ?_⟩
      rw [Function.update_eq_self, List.append_nil, Function.update_eq_self]
      exact h
    rw [dif_neg hp]
    have hpos := List.length_pos_iff.2 hp
    by_cases hbn : (c i).length / BSIZE < MAXFILE
    swap
    · dsimp only
      rw [if_neg hbn]
      rintro ⟨hr, -⟩
      unfold BSIZE at hbn hr
      omega
    dsimp only
    rw [if_pos hbn]
    generalize hb : (c i).length / BSIZE = bn at hbn ⊢
    generalize hn₁ : min p.length ((bn + 1) * BSIZE - (c i).length) = n₁
    -- the part of the bytes that fits in the block
    have hoff : bn * BSIZE ≤ (c i).length := by
      unfold BSIZE at hb ⊢
      omega
    have hn₁' : 0 < n₁ ∧ n₁ ≤ p.length ∧ (c i).length % BSIZE + n₁ ≤ BSIZE ∧
        (c i).length + n₁ ≤ (bn + 1) * BSIZE := by
      unfold BSIZE at hb hn₁ ⊢
      omega
    obtain ⟨hn₀, hnp, hnb, hend⟩ := hn₁'
    have hpl : places ((c i).length + n₁) = place bn + 1 := hb ▸ places_add hn₀ hnb
    have hfull : FSSIZE < s.freeblock + (place bn + 1 - places (c i).length) →
        ¬Room s c i p.length := fun hlt ⟨_, hr⟩ => by
      have hm := places_mono (Nat.add_le_add_left hnp (c i).length)
      omega
    have hspec := blockOf_spec h hi (hb ▸ hbn) rfl
    rw [hb] at hspec
    cases hblk : s.blockOf (ino i) bn with
    | error e =>
      rw [hblk] at hspec
      exact hfull hspec
    | ok r =>
      obtain ⟨x, din, s'⟩ := r
      rw [hblk] at hspec
      have hg : Given s s' ino c _ i bn x din := hspec
      simp only [bind, Except.bind]
      rcases Nat.lt_or_ge FSSIZE s'.freeblock with hd | hok
      · obtain ⟨hx, hx'⟩ := hg.dead hd
        rw [rsect_of_ge hg.length hx hx']
        exact hfull (hg.freeblock ▸ hd)
      · obtain ⟨hx, hx₀, hbl⟩ := hg.ok hok
        have hi' : s'.Inum i := by
          unfold State.Inum
          rw [hg.freeinode]
          exact hi
        have hself : Function.update ino i din i = din := Function.update_self i din ino
        have hne : addrAt s'.image (Function.update ino i din i) (place bn) ≠ 0 := by
          rw [hself, ← hx]
          exact hx₀
        obtain ⟨hlow, hlt⟩ := hbl.range i _ hi' (place_lt hbn) hne
        rw [hself, ← hx] at hlow hlt
        have hxs : x < FSSIZE := by omega
        rw [rsect_of_lt hg.length hxs]
        dsimp only
        rw [wsect_of_lt hg.length hxs]
        have htake : (p.take n₁).length = n₁ := List.length_take_of_le hnp
        generalize hs₂ : ({ s' with
          image := Function.update s'.image x
            ((s'.image x).copy ((c i).length - bn * BSIZE) (p.take n₁)) } : State) = s₂
        have hw : Blocks s₂ _ (Function.update c i (c i ++ p.take n₁)) _ :=
          hbl.write hi' hbn hne hoff (by omega) (by
            rw [hself, ← hx]
            exact hs₂.symm)
        have hc₂ : Function.update c i (c i ++ p.take n₁) i = c i ++ p.take n₁ :=
          Function.update_self i _ c
        have hlen₂ : (c i ++ p.take n₁).length = (c i).length + n₁ := by
          rw [List.length_append, htake]
        have hfiles : Files s₂ (Function.update ino i din)
            (Function.update c i (c i ++ p.take n₁)) := by
          unfold Files
          convert hw using 1
          funext i'
          by_cases hii : i' = i
          · rw [hii, Function.update_self, Function.update_self, hlen₂, hpl]
          · rw [Function.update_of_ne hii, Function.update_of_ne hii]
        have hmax₂ : (c i).length + n₁ ≤ MAXFILE * BSIZE :=
          Nat.le_trans hend (Nat.mul_le_mul_right _ hbn)
        have hdrop : (p.drop n₁).length = p.length - n₁ := List.length_drop
        have hrest := ih (p.drop n₁).length (by omega) (p := p.drop n₁) hfiles
          (by rw [← hs₂]; exact hi') (by rw [hc₂, hlen₂]; exact hmax₂) rfl
        rw [hself, hc₂, hlen₂] at hrest
        have hfb₂ : s₂.freeblock = s.freeblock + (place bn + 1 - places (c i).length) := by
          rw [← hs₂]
          exact hg.freeblock
        have hm₁ := places_mono (Nat.le_add_right (c i).length n₁)
        have hm₂ := places_mono (Nat.add_le_add_left hnp (c i).length)
        cases hloop : s₂.appendLoop din ((c i).length + n₁) (p.drop n₁) with
        | error e =>
          rw [hloop] at hrest
          rintro ⟨hr, hr'⟩
          refine hrest ⟨by rw [hc₂, hlen₂, hdrop]; omega, ?_⟩
          have hsum : (c i).length + n₁ + (p.length - n₁) = (c i).length + p.length := by omega
          rw [hc₂, hlen₂, hdrop, hsum]
          omega
        | ok r =>
          obtain ⟨off, din', s₃⟩ := r
          rw [hloop] at hrest
          have ha : Appended s₂ s₃ _ _ i _ off din' := hrest
          obtain ⟨hoff', hmax', hfi, hfb, hlo, hfields, hfiles'⟩ := ha
          rw [hc₂, hlen₂, hdrop] at hoff' hfb
          rw [hself] at hfields
          rw [show (c i).length + n₁ + (p.length - n₁) = (c i).length + p.length by omega] at hfb
          refine ⟨by omega, hmax', ?_, by omega, fun b hb => ?_, ?_, ?_⟩
          · rw [hfi, ← hs₂]
            exact hg.freeinode
          · rw [hlo b hb, ← hs₂]
            exact (Function.update_of_ne (by omega) _ _).trans (hg.low b hb)
          · rw [hfields, hg.fields]
          · rw [hc₂, Function.update_idem, Function.update_idem, List.append_assoc,
              List.take_append_drop] at hfiles'
            exact hfiles'

end Xv6.Mkfs
