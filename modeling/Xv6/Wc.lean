/-
user/wc.c: lines, words and bytes of a file, read in pieces of any length.
-/
import Xv6.Printf

namespace Xv6.Wc

open Printf

/-- `'\n'` -/
def newline : UInt8 := 10

/-- `" \r\t\n\v"` -/
def white : List UInt8 := [32, 13, 9, 10, 11]

/-- The variables of `wc`. -/
structure Counts where
  l : BitVec 32
  w : BitVec 32
  c : BitVec 32
  inword : Bool

/-- One byte. -/
def Counts.step (s : Counts) (b : UInt8) : Counts :=
  let s := { s with c := s.c + 1 }
  let s := if b = newline then { s with l := s.l + 1 } else s
  if b ∈ white then { s with inword := false }
  else if ! s.inword then { s with w := s.w + 1, inword := true }
  else s

/-- The loop of `wc`, on what `read` returns: some bytes, none at the end of
the file, or an error. -/
def loop : List (Option (List UInt8)) → Counts → Option Counts
  | [], s | some [] :: _, s => some s
  | some p :: reads, s => loop reads (p.foldl Counts.step s)
  | none :: _, _ => none

/-- `"wc: read error\n"` -/
def readError : List UInt8 :=
  [119, 99, 58, 32, 114, 101, 97, 100, 32, 101, 114, 114, 111, 114, 10]

/-- `"%d %d %d %s\n"` -/
def fmt : List UInt8 := [37, 100, 32, 37, 100, 32, 37, 100, 32, 37, 115, 10]

/-- What `wc` prints, and whether it exits with 1. -/
def wc (reads : List (Option (List UInt8))) (name : List UInt8) : Option (List UInt8 × Bool) :=
  match loop reads ⟨0, 0, 0, false⟩ with
  | none => some (readError, true)
  | some s =>
    (vprintf fmt false [.num (s.l.signExtend 64), .num (s.w.signExtend 64),
      .num (s.c.signExtend 64), .str (some name)]).map (·, false)

/-! ## The counts of a text -/

/-- The words of a text: what stands between white space. -/
def words (t : List UInt8) : List (List UInt8) := (t.splitOnP (· ∈ white)).filter (· ≠ [])

/-- How many words begin in `t`, after a word or not. -/
def starts : (inword : Bool) → (t : List UInt8) → Nat
  | _, [] => 0
  | inword, b :: t =>
    if b ∈ white then starts false t
    else (if inword then 0 else 1) + starts true t

theorem starts_eq (t : List UInt8) (inword : Bool) :
    starts inword t =
      (if inword then (t.splitOnP (· ∈ white)).tail.filter (· ≠ []) else words t).length := by
  induction t generalizing inword with
  | nil => cases inword <;> rfl
  | cons b t ih =>
    rw [starts, words, List.splitOnP_cons_eq_if_modifyHead]
    by_cases hb : b ∈ white
    · have hfalse := ih false
      rw [if_neg Bool.false_ne_true, words] at hfalse
      rw [if_pos hb, hfalse]
      cases inword <;> simp [hb]
    · have htrue := ih true
      rw [if_pos rfl] at htrue
      obtain ⟨x, xs, hsplit⟩ := List.exists_cons_of_ne_nil
        (List.splitOnP_ne_nil (fun b => decide (b ∈ white)) t)
      rw [hsplit] at htrue
      rw [if_neg hb, htrue]
      cases inword <;> simp [hb, hsplit, Nat.add_comm]

theorem step_l (s : Counts) (b : UInt8) :
    (s.step b).l = s.l + BitVec.ofNat 32 (if b = newline then 1 else 0) := by
  unfold Counts.step
  dsimp only
  split_ifs <;> simp

theorem step_w (s : Counts) (b : UInt8) :
    (s.step b).w = s.w + BitVec.ofNat 32 (if b ∈ white ∨ s.inword then 0 else 1) := by
  unfold Counts.step
  dsimp only
  split_ifs <;> simp_all

theorem step_c (s : Counts) (b : UInt8) : (s.step b).c = s.c + BitVec.ofNat 32 1 := by
  unfold Counts.step
  dsimp only
  split_ifs <;> rfl

theorem step_inword (s : Counts) (b : UInt8) : (s.step b).inword = decide (b ∉ white) := by
  unfold Counts.step
  dsimp only
  split_ifs <;> simp_all

/-- The variables after some bytes. -/
theorem foldl_step (t : List UInt8) (s : Counts) :
    (t.foldl Counts.step s).l = s.l + BitVec.ofNat 32 (t.count newline) ∧
      (t.foldl Counts.step s).w = s.w + BitVec.ofNat 32 (starts s.inword t) ∧
      (t.foldl Counts.step s).c = s.c + BitVec.ofNat 32 t.length := by
  induction t generalizing s with
  | nil => simp [starts]
  | cons b t ih =>
    obtain ⟨hl, hw, hc⟩ := ih (s.step b)
    rw [List.foldl_cons, hl, hw, hc, step_l, step_w, step_c, step_inword]
    refine ⟨?_, ?_, ?_⟩
    · rw [List.count_cons, BitVec.add_assoc, ← BitVec.ofNat_add]
      simp [Nat.add_comm]
    · rw [BitVec.add_assoc, ← BitVec.ofNat_add, starts]
      by_cases hb : b ∈ white
      · simp [hb]
      · cases s.inword <;> simp [hb]
    · rw [BitVec.add_assoc, ← BitVec.ofNat_add, List.length_cons, Nat.add_comm]

/-- The loop counts the same however the bytes come. -/
theorem loop_eq {reads : List (List UInt8)} (h : ∀ p ∈ reads, p ≠ []) (s : Counts) :
    loop (reads.map some) s = some (reads.flatten.foldl Counts.step s) := by
  induction reads generalizing s with
  | nil => rfl
  | cons p reads ih =>
    obtain ⟨b, t, rfl⟩ := List.exists_cons_of_ne_nil (h p List.mem_cons_self)
    have hrest : ∀ q ∈ reads, q ≠ [] := fun q hq => h q (List.mem_cons_of_mem _ hq)
    have hstep : loop (some (b :: t) :: reads.map some) s =
        loop (reads.map some) ((b :: t).foldl Counts.step s) := rfl
    rw [List.map_cons, hstep, ih hrest, List.flatten_cons, List.foldl_append]

theorem setWidth_signExtend (x : BitVec 32) : (x.signExtend 64).setWidth 32 = x := by
  ext i hi
  rw [BitVec.getElem_setWidth, BitVec.getLsbD_signExtend]
  simp [hi, show i < 64 by omega]

/-- A decimal number of 32 bits. -/
def decimal (n : Nat) : List UInt8 := number 10 (BitVec.ofNat 32 n).toInt

/-- `wc` prints the lines, words and bytes of the whole file, however `read`
cuts it. -/
theorem wc_counts_the_file (reads : List (List UInt8)) (h : ∀ p ∈ reads, p ≠ [])
    (name : List UInt8) :
    wc (reads.map some) name =
      some (decimal (reads.flatten.count newline) ++ [32] ++ decimal (words reads.flatten).length ++
        [32] ++ decimal reads.flatten.length ++ [32] ++ name ++ [10], false) := by
  have hpieces : ∀ x y z : BitVec 64, vprintf fmt false [.num x, .num y, .num z, .str (some name)] =
      some ([Piece.int x, .byte 32 (by decide), .int y, .byte 32 (by decide), .int z,
        .byte 32 (by decide), .str (some name), .byte 10 (by decide)].flatMap Piece.text) := by
    intro x y z
    exact vprintf_pieces [Piece.int x, .byte 32 (by decide), .int y, .byte 32 (by decide), .int z,
      .byte 32 (by decide), .str (some name), .byte 10 (by decide)] false []
  rw [wc, loop_eq h]
  dsimp only
  rw [hpieces]
  generalize reads.flatten = t
  obtain ⟨hl, hw, hc⟩ := foldl_step t ⟨0, 0, 0, false⟩
  generalize t.foldl Counts.step ⟨0, 0, 0, false⟩ = s at hl hw hc ⊢
  have hwords : starts false t = (words t).length := starts_eq t false
  rw [hwords] at hw
  have hl' : s.l = BitVec.ofNat 32 (t.count newline) := hl.trans (BitVec.zero_add _)
  have hw' : s.w = BitVec.ofNat 32 (words t).length := hw.trans (BitVec.zero_add _)
  have hc' : s.c = BitVec.ofNat 32 t.length := hc.trans (BitVec.zero_add _)
  simp [Piece.text, decimal, setWidth_signExtend, hl', hw', hc']

/-- `"a b\n"`, cut within the second word. -/
theorem wc_counts_the_file_cut :
    wc ([[97, 32, 98], [98, 10]].map some) [120] =
      some (decimal ([[97, 32, 98], [98, 10]].flatten.count newline) ++ [32] ++
        decimal (words [[97, 32, 98], [98, 10]].flatten).length ++ [32] ++
        decimal [[97, 32, 98], [98, 10]].flatten.length ++ [32] ++ [120] ++ [10], false) :=
  wc_counts_the_file [[97, 32, 98], [98, 10]] (by simp) [120]

end Xv6.Wc
