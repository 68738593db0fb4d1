/-
Bytes by their offsets, with little-endian numbers in them.

A number of `n` bytes at an offset depends on these bytes alone, and writing
one changes them alone, so what is read back is decided by where it is.
-/
import Mathlib.Data.Nat.Basic
import Mathlib.Tactic.Ring
import Mathlib.Tactic.Common
import Mathlib.Logic.Function.Basic

/-- Bytes by their offsets. -/
abbrev Bytes := Nat → UInt8

namespace Bytes

def zero : Bytes := fun _ => 0

/-- The list of bytes is written at `off`. -/
def copy (d : Bytes) (off : Nat) (src : List UInt8) : Bytes :=
  fun i => if off ≤ i ∧ i < off + src.length then src.getD (i - off) 0 else d i

/-- The number in the `n` bytes at `off`. -/
def getLe (d : Bytes) (off : Nat) : (n : Nat) → Nat
  | 0 => 0
  | n + 1 => (d off).toNat + 256 * getLe d (off + 1) n

/-- The low `n` bytes of `v` are written at `off`. -/
def putLe (d : Bytes) (off : Nat) : (n v : Nat) → Bytes
  | 0, _ => d
  | n + 1, v => putLe (Function.update d off (UInt8.ofNat v)) (off + 1) n (v / 256)

/-- Numbers of four bytes are written, the first at `off`. -/
def putUints (d : Bytes) (off : Nat) : List Nat → Bytes
  | [] => d
  | v :: vs => putUints (d.putLe off 4 v) (off + 4) vs

variable {d d' : Bytes} {off n v i : Nat} {src : List UInt8} {vs : List Nat}

theorem copy_of_lt (h : i < off) : d.copy off src i = d i := if_neg (by omega)

theorem copy_of_ge (h : off + src.length ≤ i) : d.copy off src i = d i := if_neg (by omega)

theorem copy_add (h : i < src.length) : d.copy off src (off + i) = src.getD i 0 := by
  unfold copy
  rw [if_pos (by omega), Nat.add_sub_cancel_left]

theorem getLe_congr (h : ∀ i, off ≤ i → i < off + n → d i = d' i) :
    d.getLe off n = d'.getLe off n := by
  induction n generalizing off with
  | zero => rfl
  | succ n ih =>
    simp only [getLe]
    rw [h off (by omega) (by omega), ih fun i hi hi' => h i (by omega) (by omega)]

theorem putLe_of_lt (h : i < off) : d.putLe off n v i = d i := by
  induction n generalizing d off v with
  | zero => rfl
  | succ n ih =>
    simp only [putLe]
    rw [ih (by omega), Function.update_of_ne (by omega)]

theorem putLe_of_ge (h : off + n ≤ i) : d.putLe off n v i = d i := by
  induction n generalizing d off v with
  | zero => rfl
  | succ n ih =>
    simp only [putLe]
    rw [ih (by omega), Function.update_of_ne (by omega)]

theorem getLe_putLe : (d.putLe off n v).getLe off n = v % 256 ^ n := by
  induction n generalizing d off v with
  | zero => rw [Nat.pow_zero, Nat.mod_one]; rfl
  | succ n ih =>
    simp only [putLe, getLe]
    have hmod : v % 256 ^ (n + 1) = v % 256 + 256 * (v / 256 % 256 ^ n) := by
      rw [Nat.pow_succ', Nat.mod_mul]
    rw [ih, putLe_of_lt (Nat.lt_succ_self off), Function.update_self, UInt8.toNat_ofNat',
      hmod]

/-- A number elsewhere stays what it is. -/
theorem getLe_putLe_of_disjoint {off' n' : Nat} (h : off' + n' ≤ off ∨ off + n ≤ off') :
    (d.putLe off n v).getLe off' n' = d.getLe off' n' := by
  refine getLe_congr fun i hi hi' => ?_
  rcases h with h | h
  · exact putLe_of_lt (by omega)
  · exact putLe_of_ge (by omega)

@[simp] theorem getLe_zero (off n : Nat) : zero.getLe off n = 0 := by
  induction n generalizing off with
  | zero => rfl
  | succ n ih =>
    simp only [getLe]
    rw [ih]
    rfl

theorem putUints_of_lt (h : i < off) : d.putUints off vs i = d i := by
  induction vs generalizing d off with
  | nil => rfl
  | cons v vs ih =>
    simp only [putUints]
    rw [ih (by omega), putLe_of_lt h]

theorem putUints_of_ge (h : off + 4 * vs.length ≤ i) : d.putUints off vs i = d i := by
  induction vs generalizing d off with
  | nil => rfl
  | cons v vs ih =>
    rw [List.length_cons] at h
    simp only [putUints]
    rw [ih (by omega), putLe_of_ge (by omega)]

theorem getLe_putUints (h : i < vs.length) :
    (d.putUints off vs).getLe (off + 4 * i) 4 = vs[i] % 256 ^ 4 := by
  induction vs generalizing d off i with
  | nil => exact nomatch h
  | cons v vs ih =>
    simp only [putUints]
    cases i with
    | zero =>
      have hfirst : ((d.putLe off 4 v).putUints (off + 4) vs).getLe off 4 =
          (d.putLe off 4 v).getLe off 4 :=
        getLe_congr fun i _ hi => putUints_of_lt (by omega)
      exact hfirst.trans getLe_putLe
    | succ i =>
      rw [show off + 4 * (i + 1) = off + 4 + 4 * i by omega]
      exact ih (by simpa using h)

/-! ## Bits -/

/-- Bit `b`, of byte `b / 8`. -/
def getBit (d : Bytes) (b : Nat) : Bool := (d (b / 8)).toNat.testBit (b % 8)

def setBit (d : Bytes) (b : Nat) : Bytes :=
  fun i => if i = b / 8 then d i ||| UInt8.ofNat (1 <<< (b % 8)) else d i

theorem getBit_setBit {a b : Nat} : (d.setBit a).getBit b = (d.getBit b || decide (a = b)) := by
  unfold getBit setBit
  by_cases hab : b / 8 = a / 8
  · have hp : 2 ^ (a % 8) < 2 ^ 8 := Nat.pow_lt_pow_right (by omega) (by omega)
    rw [if_pos hab, UInt8.toNat_or, Nat.testBit_or, UInt8.toNat_ofNat', Nat.one_shiftLeft,
      Nat.mod_eq_of_lt hp, Nat.testBit_two_pow]
    congr 1
    rw [decide_eq_decide]
    omega
  · rw [if_neg hab, decide_eq_false (fun he : a = b => hab (by rw [he])), Bool.or_false]

def clearBit (d : Bytes) (b : Nat) : Bytes :=
  fun i => if i = b / 8 then d i &&& ~~~ UInt8.ofNat (1 <<< (b % 8)) else d i

theorem getBit_clearBit {a b : Nat} :
    (d.clearBit a).getBit b = (d.getBit b && ! decide (a = b)) := by
  unfold getBit clearBit
  by_cases hab : b / 8 = a / 8
  · have hp : 2 ^ (a % 8) < 2 ^ 8 := Nat.pow_lt_pow_right (by omega) (by omega)
    have hnot : (~~~ UInt8.ofNat (1 <<< (a % 8))).toNat = 2 ^ 8 - (2 ^ (a % 8) + 1) := by
      rw [UInt8.toNat_not, UInt8.toNat_ofNat', Nat.one_shiftLeft, Nat.mod_eq_of_lt hp,
        Nat.sub_sub, Nat.add_comm 1]
      rfl
    have hlt : b % 8 < 8 := Nat.mod_lt _ (by omega)
    rw [if_pos hab, UInt8.toNat_and, Nat.testBit_and, hnot, Nat.testBit_two_pow_sub_succ hp,
      Nat.testBit_two_pow, decide_eq_true hlt, Bool.true_and]
    congr 2
    rw [decide_eq_decide]
    omega
  · rw [if_neg hab, decide_eq_false (fun he : a = b => hab (by rw [he]))]
    simp

end Bytes
