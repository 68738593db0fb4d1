/-
string.c and ulib.c: the two `memmove`s.

Addresses are 64 bits wide, and pointer arithmetic wraps. The kernel's length
is an `uint` and the one of the user library an `int`, both 32 bits.
-/
import Mathlib.Algebra.Group.Nat.Defs
import Mathlib.Logic.Function.Basic

namespace Xv6

/-- The bytes of an address space. -/
abbrev Bytes64 := BitVec 64 → UInt8

/-- `while(n-- > 0) *d++ = *s++;` -/
def copyUp : (n : Nat) → (d s : BitVec 64) → Bytes64 → Bytes64
  | 0, _, _, m => m
  | n + 1, d, s, m => copyUp n (d + 1) (s + 1) (Function.update m d (m s))

/-- `while(n-- > 0) *--d = *--s;` -/
def copyDown : (n : Nat) → (d s : BitVec 64) → Bytes64 → Bytes64
  | 0, _, _, m => m
  | n + 1, d, s, m => copyDown n (d - 1) (s - 1) (Function.update m (d - 1) (m (s - 1)))

/-- `memmove` of the kernel. -/
def KernelString.memmove (dst src : BitVec 64) (n : BitVec 32) (m : Bytes64) : Bytes64 :=
  if n = 0 then m
  else if src < dst ∧ src + n.setWidth 64 > dst then
    copyDown n.toNat (dst + n.setWidth 64) (src + n.setWidth 64) m
  else copyUp n.toNat dst src m

/-- `memmove` of the user library. -/
def Ulib.memmove (vdst vsrc : BitVec 64) (n : BitVec 32) (m : Bytes64) : Bytes64 :=
  if vsrc > vdst then copyUp n.toInt.toNat vdst vsrc m
  else copyDown n.toInt.toNat (vdst + n.signExtend 64) (vsrc + n.signExtend 64) m

/-- The range of `n` bytes at `p` does not wrap around. -/
def Range (p : BitVec 64) (n : Nat) : Prop := p.toNat + n ≤ 2 ^ 64

/-- The bytes of `m` with those at `src` moved to `dst`. -/
def moved (dst src : BitVec 64) (n : Nat) (m : Bytes64) : Bytes64 := fun a =>
  if dst.toNat ≤ a.toNat ∧ a.toNat < dst.toNat + n then m (src + (a - dst)) else m a

variable {d s dst src : BitVec 64} {n : Nat} {m : Bytes64}

/-! ## The loops -/

/-- Upwards, a byte is read before it is overwritten if the destination does
not start within the source. -/
theorem copyUp_eq (hd : Range d n) (hs : Range s n)
    (hover : d.toNat ≤ s.toNat ∨ s.toNat + n ≤ d.toNat) : copyUp n d s m = moved d s n m := by
  induction n generalizing d s m with
  | zero =>
    funext a
    rw [copyUp, moved, if_neg (by omega)]
  | succ n ih =>
    unfold Range at hd hs
    rw [copyUp]
    by_cases hn : n = 0
    · subst hn
      funext a
      rw [copyUp, moved]
      by_cases ha : a = d
      · subst ha
        rw [Function.update_self, if_pos (by omega), BitVec.sub_self, BitVec.add_zero]
      · have hne : a.toNat ≠ d.toNat := fun h => ha (BitVec.eq_of_toNat_eq h)
        rw [Function.update_of_ne ha, if_neg (by omega)]
    · have hd1 : (d + 1).toNat = d.toNat + 1 := by
        rw [BitVec.toNat_add]
        exact Nat.mod_eq_of_lt (by simp; omega)
      have hs1 : (s + 1).toNat = s.toNat + 1 := by
        rw [BitVec.toNat_add]
        exact Nat.mod_eq_of_lt (by simp; omega)
      rw [ih (by unfold Range; omega) (by unfold Range; omega) (by omega)]
      funext a
      unfold moved
      have hstep : s + 1 + (a - (d + 1)) = s + (a - d) := by
        apply BitVec.eq_of_toNat_eq
        simp [BitVec.toNat_add, BitVec.toNat_sub]
        omega
      rw [hd1, hstep]
      by_cases ha : a = d
      · subst ha
        rw [if_neg (by omega), if_pos (by omega), Function.update_self, BitVec.sub_self,
          BitVec.add_zero]
      · have hne : a.toNat ≠ d.toNat := fun h => ha (BitVec.eq_of_toNat_eq h)
        by_cases hin : d.toNat + 1 ≤ a.toNat ∧ a.toNat < d.toNat + 1 + n
        · have hread : s + (a - d) ≠ d := by
            intro h
            have h := congrArg BitVec.toNat h
            rw [BitVec.toNat_add, BitVec.toNat_sub] at h
            omega
          rw [if_pos hin, if_pos (by omega), Function.update_of_ne hread]
        · rw [if_neg hin, if_neg (by omega), Function.update_of_ne ha]

/-- Downwards, a byte is read before it is overwritten if the destination is
not below the source. -/
theorem copyDown_eq (hd : Range d n) (hs : Range s n) (hover : s.toNat ≤ d.toNat) :
    copyDown n (d + BitVec.ofNat 64 n) (s + BitVec.ofNat 64 n) m = moved d s n m := by
  induction n generalizing m with
  | zero =>
    funext a
    rw [copyDown, moved, if_neg (by omega)]
  | succ n ih =>
    unfold Range at hd hs
    have hpred : ∀ p : BitVec 64, p + BitVec.ofNat 64 (n + 1) - 1 = p + BitVec.ofNat 64 n := by
      intro p
      apply BitVec.eq_of_toNat_eq
      simp [BitVec.toNat_add, BitVec.toNat_sub]
      omega
    rw [copyDown, hpred, hpred, ih (by unfold Range; omega) (by unfold Range; omega)]
    funext a
    unfold moved
    have hdn : (d + BitVec.ofNat 64 n).toNat = d.toNat + n := by
      rw [BitVec.toNat_add, BitVec.toNat_ofNat]
      omega
    by_cases ha : a = d + BitVec.ofNat 64 n
    · subst ha
      have hread : d + BitVec.ofNat 64 n - d = BitVec.ofNat 64 n := by
        rw [BitVec.add_comm, BitVec.add_sub_cancel]
      rw [hdn, if_neg (by omega), if_pos (by omega), Function.update_self, hread]
    · have hne : a.toNat ≠ d.toNat + n := fun h => ha (BitVec.eq_of_toNat_eq (h.trans hdn.symm))
      by_cases hin : d.toNat ≤ a.toNat ∧ a.toNat < d.toNat + n
      · have hread : s + (a - d) ≠ d + BitVec.ofNat 64 n := by
          intro h
          have h := congrArg BitVec.toNat h
          rw [hdn, BitVec.toNat_add, BitVec.toNat_sub] at h
          omega
        rw [if_pos hin, if_pos (by omega), Function.update_of_ne hread]
      · rw [if_neg hin, if_neg (by omega), Function.update_of_ne ha]

/-! ## memmove -/

theorem kernel_memmove {n : BitVec 32} (hd : Range dst n.toNat) (hs : Range src n.toNat) :
    KernelString.memmove dst src n m = moved dst src n.toNat m := by
  have hwidth : n.setWidth 64 = BitVec.ofNat 64 n.toNat := by
    apply BitVec.eq_of_toNat_eq
    simp
  unfold KernelString.memmove
  split
  next h0 =>
    subst h0
    funext a
    rw [moved, if_neg]
    simp
  next h0 =>
    have hpos : 0 < n.toNat := Nat.pos_of_ne_zero fun h => h0 (BitVec.eq_of_toNat_eq h)
    rw [hwidth]
    unfold Range at hd hs
    split
    next hover => exact copyDown_eq hd hs (Nat.le_of_lt (BitVec.lt_def.1 hover.1))
    next hover =>
      refine copyUp_eq hd hs ?_
      by_contra hno
      have hlt : src.toNat < dst.toNat := by omega
      have hend : (src + BitVec.ofNat 64 n.toNat).toNat = src.toNat + n.toNat := by
        rw [BitVec.toNat_add, BitVec.toNat_ofNat]
        omega
      refine hover ⟨BitVec.lt_def.2 hlt, BitVec.lt_def.2 ?_⟩
      rw [hend]
      omega

theorem user_memmove {n : BitVec 32} (hd : Range dst n.toInt.toNat)
    (hs : Range src n.toInt.toNat) :
    Ulib.memmove dst src n m = moved dst src n.toInt.toNat m := by
  unfold Ulib.memmove
  split
  next hover =>
    refine copyUp_eq hd hs (.inl ?_)
    exact Nat.le_of_lt (BitVec.lt_def.1 hover)
  next hover =>
    have hle : src.toNat ≤ dst.toNat := by
      by_contra hlt
      exact hover (BitVec.lt_def.2 (by omega))
    by_cases hneg : n.toInt < 0
    · -- no turn of the loop
      have h0 : n.toInt.toNat = 0 := by omega
      rw [h0]
      funext a
      rw [copyDown, moved, if_neg (by omega)]
    · have hwidth : n.signExtend 64 = BitVec.ofNat 64 n.toInt.toNat := by
        apply BitVec.eq_of_toInt_eq
        rw [BitVec.toInt_signExtend_of_le (by decide), BitVec.toInt_ofNat']
        have hlt := @BitVec.toInt_lt 32 n
        rw [Int.toNat_of_nonneg (by omega), Int.bmod_eq_of_le (by omega) (by omega)]
      rw [hwidth]
      exact copyDown_eq hd hs hle

/-- Both `memmove`s move the bytes, however the ranges overlap, and change no
other; so they agree. -/
theorem memmove_overlap (dst src : BitVec 64) (n : BitVec 32) (m : Bytes64) :
    (Range dst n.toNat → Range src n.toNat →
      KernelString.memmove dst src n m = moved dst src n.toNat m) ∧
    (Range dst n.toInt.toNat → Range src n.toInt.toNat →
      Ulib.memmove dst src n m = moved dst src n.toInt.toNat m) ∧
    (0 ≤ n.toInt → Range dst n.toNat → Range src n.toNat →
      KernelString.memmove dst src n m = Ulib.memmove dst src n m) := by
  refine ⟨fun hd hs => kernel_memmove hd hs, fun hd hs => user_memmove hd hs,
    fun h0 hd hs => ?_⟩
  have hlen : n.toInt.toNat = n.toNat := by
    rw [BitVec.toInt_eq_toNat_cond] at h0 ⊢
    split
    next => simp
    next h => omega
  rw [kernel_memmove hd hs, user_memmove (by rwa [hlen]) (by rwa [hlen]), hlen]

/-- Each byte holds the last eight bits of its address. -/
def counting : Bytes64 := fun a => UInt8.ofNat a.toNat

/-- A range moved up by one, over itself. -/
theorem memmove_overlap_shift :
    KernelString.memmove 0x1001 0x1000 8 counting = Ulib.memmove 0x1001 0x1000 8 counting ∧
      KernelString.memmove 0x1001 0x1000 8 counting 0x1008 = 7 := by
  have hd : Range 0x1001 8 := by
    unfold Range
    decide
  have hs : Range 0x1000 8 := by
    unfold Range
    decide
  obtain ⟨hkernel, -, hagree⟩ := memmove_overlap 0x1001 0x1000 8 counting
  refine ⟨hagree (by decide) hd hs, ?_⟩
  rw [hkernel hd hs]
  decide

end Xv6
