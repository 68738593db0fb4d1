/-
user/printf.c: numbers as `printf` prints them, and `atoi` of ulib.c reads
them.
-/
import Mathlib.Data.Nat.Digits.Lemmas

namespace Xv6.Printf

/-- `"0123456789ABCDEF"` -/
def digits : List UInt8 := [48, 49, 50, 51, 52, 53, 54, 55, 56, 57, 65, 66, 67, 68, 69, 70]

def minus : UInt8 := 45

def percent : UInt8 := 37

/-- `buf[16]` in `printint` -/
def BUFSIZE : Nat := 16

/-- The loop of `printint`, with `room` bytes left of `buf`. `none` is a write
beyond the buffer. -/
def convert (base : Nat) : (room x : Nat) → (buf : List UInt8) → Option (List UInt8)
  | 0, _, _ => none
  | room + 1, x, buf =>
    let buf := buf ++ [digits.getD (x % base) 0]
    if x / base = 0 then some buf else convert base room (x / base) buf

/-- The bytes that `printint` writes. -/
def printint (xx : BitVec 32) (base : Nat) (sgn : Bool) : Option (List UInt8) :=
  let neg := sgn && xx.toInt < 0
  let x := if neg then (-xx).toNat else xx.toNat
  match convert base BUFSIZE x [] with
  | none => none
  | some buf =>
    if neg then
      if buf.length < BUFSIZE then some (buf ++ [minus]).reverse else none
    else some buf.reverse

/-- The loop of `printptr`, with `n` digits left. -/
def ptrLoop : (n : Nat) → (x : BitVec 64) → List UInt8
  | 0, _ => []
  | n + 1, x => digits.getD (x >>> 60).toNat 0 :: ptrLoop n (x <<< 4)

def printptr (x : BitVec 64) : List UInt8 := 48 :: 120 :: ptrLoop 16 x

/-- What `va_arg` gets: a register, or a string (`none`: a null pointer). -/
inductive Arg where
  | num (x : BitVec 64)
  | str (s : Option (List UInt8))

/-- `"(null)"` -/
def null : List UInt8 := [40, 110, 117, 108, 108, 41]

/-- What `vprintf` writes for the byte `c` after a `%`, and the arguments that
are left. `none`: there is no such argument. -/
def directive (c : UInt8) (ap : List Arg) : Option (List UInt8 × List Arg) :=
  if c = 100 then -- %d
    match ap with
    | .num x :: ap => (printint (x.truncate 32) 10 true).map (·, ap)
    | _ => none
  else if c = 108 then -- %l
    match ap with
    | .num x :: ap => (printint (x.truncate 32) 10 false).map (·, ap)
    | _ => none
  else if c = 120 then -- %x
    match ap with
    | .num x :: ap => (printint (x.truncate 32) 16 false).map (·, ap)
    | _ => none
  else if c = 112 then -- %p
    match ap with
    | .num x :: ap => some (printptr x, ap)
    | _ => none
  else if c = 115 then -- %s
    match ap with
    | .str s :: ap => some (s.getD null, ap)
    | _ => none
  else if c = 99 then -- %c
    match ap with
    | .num x :: ap => some ([UInt8.ofNat x.toNat], ap)
    | _ => none
  else if c = percent then some ([percent], ap)
  else some ([percent, c], ap)

/-- The loop of `vprintf`, in state `'%'` or not. -/
def vprintf : (fmt : List UInt8) → (state : Bool) → (ap : List Arg) → Option (List UInt8)
  | [], _, _ => some []
  | c :: fmt, false, ap =>
    if c = percent then vprintf fmt true ap else (vprintf fmt false ap).map (c :: ·)
  | c :: fmt, true, ap =>
    match directive c ap with
    | none => none
    | some (out, ap) => (vprintf fmt false ap).map (out ++ ·)

/-- The loop of `atoi`, on a string and what follows it in memory; `int` wraps
around. -/
def atoi : List UInt8 → BitVec 32 → BitVec 32
  | [], n => n
  | c :: s, n =>
    if 48 ≤ c ∧ c ≤ 57 then atoi s (n * 10 + BitVec.ofNat 32 c.toNat - 48) else n

/-! ## Numerals -/

/-- The numeral of `x`, most significant digit first. -/
def numeral (base x : Nat) : List UInt8 :=
  if x = 0 then [48] else ((Nat.digits base x).map fun d => digits.getD d 0).reverse

variable {base x room : Nat} {buf : List UInt8}

/-- With room for all digits, the loop appends the numeral in reverse. -/
theorem convert_eq (hb : 1 < base) (hx : x < base ^ (room + 1)) :
    convert base (room + 1) x buf = some (buf ++ (numeral base x).reverse) := by
  induction room generalizing x buf with
  | zero =>
    rw [Nat.zero_add, pow_one] at hx
    rw [convert, Nat.div_eq_of_lt hx, if_pos rfl, Nat.mod_eq_of_lt hx, numeral]
    split
    next h0 =>
      rw [h0]
      rfl
    next h0 =>
      rw [Nat.digits_of_lt base x h0 hx]
      rfl
  | succ room ih =>
    rw [convert]
    by_cases hlt : x < base
    · rw [if_pos (Nat.div_eq_of_lt hlt), Nat.mod_eq_of_lt hlt, numeral]
      split
      next h0 =>
        rw [h0]
        rfl
      next h0 =>
        rw [Nat.digits_of_lt base x h0 hlt]
        rfl
    · have hdiv : x / base ≠ 0 := by
        rw [Nat.div_ne_zero_iff]
        omega
      have hx0 : x ≠ 0 := by omega
      rw [if_neg hdiv, ih (Nat.div_lt_of_lt_mul (by rwa [← pow_succ'])), numeral, numeral,
        if_neg hdiv, if_neg hx0, Nat.digits_def' hb (Nat.pos_of_ne_zero hx0), List.append_assoc]
      simp

/-- A signed number in base 10, or an unsigned one. -/
def number (base : Nat) (v : Int) : List UInt8 :=
  (if v < 0 then [minus] else []) ++ numeral base v.natAbs

theorem length_numeral_le (hb : 1 < base) {k : Nat} (hk : 0 < k) (hx : x < base ^ k) :
    (numeral base x).length ≤ k := by
  rw [numeral]
  split
  next => exact hk
  next =>
    rw [List.length_reverse, List.length_map]
    exact (Nat.digits_length_le_iff hb x).2 hx

/-- `printint` writes the number, and never beyond its buffer. -/
theorem printint_eq (xx : BitVec 32) (hb : 10 ≤ base) (sgn : Bool) :
    printint xx base sgn = some (number base (if sgn then xx.toInt else xx.toNat)) := by
  have hpow : ∀ x < 2 ^ 32, x < base ^ 10 := by
    intro x hx
    have h10 : 2 ^ 32 ≤ 10 ^ 10 := by decide
    exact Nat.lt_of_lt_of_le hx (Nat.le_trans h10 (Nat.pow_le_pow_left hb 10))
  have hconv : ∀ x < 2 ^ 32, convert base BUFSIZE x [] = some (numeral base x).reverse := by
    intro x hx
    refine convert_eq (by omega) (Nat.lt_of_lt_of_le (hpow x hx) ?_)
    exact Nat.pow_le_pow_right (by omega) (by decide)
  rw [printint, number]
  by_cases hneg : sgn = true ∧ xx.toInt < 0
  · obtain ⟨rfl, hlt⟩ := hneg
    have habs : (-xx).toNat = xx.toInt.natAbs := by
      have hx := xx.isLt
      rw [BitVec.toInt_eq_toNat_cond] at hlt ⊢
      rw [BitVec.toNat_neg]
      split at hlt <;> omega
    have hlen : (numeral base xx.toInt.natAbs).length ≤ 10 :=
      length_numeral_le (by omega) (by decide) (hpow _ (habs ▸ (-xx).isLt))
    have hroom : (numeral base xx.toInt.natAbs).reverse.length < BUFSIZE := by
      rw [List.length_reverse]
      exact Nat.lt_of_le_of_lt hlen (by decide)
    simp only [hlt, decide_true, Bool.and_true, if_true, habs,
      hconv xx.toInt.natAbs (habs ▸ (-xx).isLt)]
    rw [if_pos hroom]
    simp
  · have hdec : (sgn && decide (xx.toInt < 0)) = false := by
      simpa using hneg
    have hv : ¬ (if sgn then xx.toInt else (xx.toNat : Int)) < 0 := by
      cases sgn with
      | true => simpa using hneg
      | false => simp
    have habs : (if sgn then xx.toInt else (xx.toNat : Int)).natAbs = xx.toNat := by
      cases sgn with
      | true =>
        have hge : ¬ xx.toInt < 0 := by simpa using hneg
        have hx := xx.isLt
        simp only [if_true]
        rw [BitVec.toInt_eq_toNat_cond] at hge ⊢
        split <;> omega
      | false => simp
    simp only [hdec, Bool.false_eq_true, if_false, hconv _ xx.isLt, if_neg hv, habs]
    simp

/-! ## Formats -/

/-- `x` in hexadecimal with all its `n` digits. -/
def hex (n x : Nat) : List UInt8 :=
  match n with
  | 0 => []
  | n + 1 => hex n (x / 16) ++ [digits.getD (x % 16) 0]

/-- The digits from the other end: the first one is the highest. -/
theorem hex_succ (n x : Nat) (hx : x < 16 ^ (n + 1)) :
    hex (n + 1) x = digits.getD (x / 16 ^ n) 0 :: hex n (x % 16 ^ n) := by
  induction n generalizing x with
  | zero =>
    rw [Nat.zero_add, pow_one] at hx
    simp [hex, Nat.mod_eq_of_lt hx]
  | succ n ih =>
    have hdiv : x / 16 < 16 ^ (n + 1) := Nat.div_lt_of_lt_mul (by rwa [← pow_succ'])
    have hquot : x / 16 / 16 ^ n = x / 16 ^ (n + 1) := by
      rw [Nat.div_div_eq_div_mul, pow_succ']
    have hrest : x % 16 ^ (n + 1) / 16 = x / 16 % 16 ^ n := by
      rw [pow_succ', Nat.mod_mul_right_div_self]
    have hlast : x % 16 ^ (n + 1) % 16 = x % 16 :=
      Nat.mod_mod_of_dvd x (Dvd.intro_left (16 ^ n) (pow_succ 16 n).symm)
    rw [hex, ih (x / 16) hdiv, hquot, hex, hrest, hlast]
    rfl

/-- The loop of `printptr` shifts the digits that are left to the top. -/
theorem ptrLoop_eq {n : Nat} (hn : n ≤ 16) (x : Nat) (hx : x < 16 ^ n) :
    ptrLoop n (BitVec.ofNat 64 (x * 16 ^ (16 - n))) = hex n x := by
  induction n generalizing x with
  | zero => rfl
  | succ n ih =>
    have hn' : 16 - n = 16 - (n + 1) + 1 := by omega
    have hsplit : 16 ^ n * 16 ^ (16 - n) = 16 ^ 16 := by
      rw [← pow_add]
      congr 1
      omega
    have hpos : 0 < 16 ^ (16 - n) := by positivity
    have hmod : x % 16 ^ n < 16 ^ n := Nat.mod_lt _ (by positivity)
    have htop : 16 ^ 15 = 16 ^ n * 16 ^ (16 - (n + 1)) := by
      rw [← pow_add]
      congr 1
      omega
    have hbound : x * 16 ^ (16 - (n + 1)) < 2 ^ 64 := by
      calc x * 16 ^ (16 - (n + 1))
          < 16 ^ (n + 1) * 16 ^ (16 - (n + 1)) :=
            Nat.mul_lt_mul_of_pos_right hx (by positivity)
        _ = 2 ^ 64 := by
          rw [← pow_add, show n + 1 + (16 - (n + 1)) = 16 by omega]
          norm_num
    have hfirst : ((BitVec.ofNat 64 (x * 16 ^ (16 - (n + 1)))) >>> 60).toNat = x / 16 ^ n := by
      rw [BitVec.toNat_ushiftRight, BitVec.toNat_ofNat, Nat.mod_eq_of_lt hbound,
        Nat.shiftRight_eq_div_pow, show 2 ^ 60 = 16 ^ 15 by norm_num, htop,
        Nat.mul_div_mul_right _ _ (by positivity)]
    have hshift : (BitVec.ofNat 64 (x * 16 ^ (16 - (n + 1)))) <<< 4 =
        BitVec.ofNat 64 (x % 16 ^ n * 16 ^ (16 - n)) := by
      apply BitVec.eq_of_toNat_eq
      rw [BitVec.toNat_shiftLeft, BitVec.toNat_ofNat, BitVec.toNat_ofNat,
        Nat.mod_eq_of_lt hbound, Nat.shiftLeft_eq, show 2 ^ 64 = 16 ^ 16 by norm_num,
        show 2 ^ 4 = 16 by norm_num, mul_assoc, ← pow_succ, ← hn', ← hsplit,
        Nat.mul_mod_mul_right, Nat.mul_mod_mul_right, Nat.mod_mod]
    rw [ptrLoop, hfirst, hshift, ih (by omega) _ hmod, hex_succ n x hx]

/-- `printptr` writes all sixteen digits. -/
theorem printptr_eq (x : BitVec 64) : printptr x = 48 :: 120 :: hex 16 x.toNat := by
  have hx : x.toNat < 16 ^ 16 := x.isLt
  have hloop := ptrLoop_eq (Nat.le_refl 16) x.toNat hx
  rw [Nat.sub_self, pow_zero, mul_one, BitVec.ofNat_toNat, BitVec.setWidth_eq] at hloop
  rw [printptr, hloop]

/-- The bytes after a `%` that `vprintf` knows. -/
def known : List UInt8 := [100, 108, 120, 112, 115, 99, 37]

/-- A piece of a format with the argument that it takes. -/
inductive Piece where
  | byte (c : UInt8) (hc : c ≠ percent)
  | int (x : BitVec 64)
  | long (x : BitVec 64)
  | hex (x : BitVec 64)
  | ptr (x : BitVec 64)
  | str (s : Option (List UInt8))
  | char (x : BitVec 64)
  | percent
  | unknown (c : UInt8) (hc : c ∉ known)

namespace Piece

/-- The piece in the format. -/
def fmt : Piece → List UInt8
  | .byte c _ => [c]
  | .int _ => [37, 100]
  | .long _ => [37, 108]
  | .hex _ => [37, 120]
  | .ptr _ => [37, 112]
  | .str _ => [37, 115]
  | .char _ => [37, 99]
  | .percent => [37, 37]
  | .unknown c _ => [37, c]

/-- The arguments that the piece takes. -/
def args : Piece → List Arg
  | .byte _ _ | .percent | .unknown _ _ => []
  | .int x | .long x | .hex x | .ptr x | .char x => [.num x]
  | .str s => [.str s]

/-- What is printed for the piece. `%l` prints no more than 32 bits, and `%x`
prints a negative number as an unsigned one. -/
def text : Piece → List UInt8
  | .byte c _ => [c]
  | .int x => number 10 (x.truncate 32).toInt
  | .long x => numeral 10 (x.toNat % 2 ^ 32)
  | .hex x => numeral 16 (x.toNat % 2 ^ 32)
  | .ptr x => 48 :: 120 :: Printf.hex 16 x.toNat
  | .str s => s.getD null
  | .char x => [UInt8.ofNat x.toNat]
  | .percent => [37]
  | .unknown c _ => [37, c]

end Piece

theorem number_natCast (base x : Nat) : number base x = numeral base x := by
  have hpos : ¬ (x : Int) < 0 := by omega
  rw [number, if_neg hpos, Int.natAbs_natCast, List.nil_append]

/-- Without a sign, 32 bits of the argument are printed. -/
theorem printint_unsigned (hb : 10 ≤ base) (x : BitVec 64) :
    printint (x.setWidth 32) base false = some (numeral base (x.toNat % 2 ^ 32)) := by
  rw [printint_eq _ hb, if_neg Bool.false_ne_true, number_natCast, BitVec.toNat_setWidth]

/-- With a sign, they are printed as an `int`. -/
theorem printint_signed (x : BitVec 64) :
    printint (x.setWidth 32) 10 true = some (number 10 (x.setWidth 32).toInt) := by
  rw [printint_eq _ (Nat.le_refl 10), if_pos rfl]

/-- One piece. -/
theorem vprintf_piece (q : Piece) (fmt : List UInt8) (ap : List Arg) :
    vprintf (q.fmt ++ fmt) false (q.args ++ ap) =
      (vprintf fmt false ap).map (q.text ++ ·) := by
  cases q with
  | byte c hc =>
    simp [Piece.fmt, Piece.args, Piece.text, vprintf, hc]
  | int x =>
    simp [Piece.fmt, Piece.args, Piece.text, vprintf, percent, directive, printint_signed]
  | long x =>
    simp [Piece.fmt, Piece.args, Piece.text, vprintf, percent, directive,
      printint_unsigned]
  | hex x =>
    simp [Piece.fmt, Piece.args, Piece.text, vprintf, percent, directive,
      printint_unsigned]
  | ptr x =>
    simp [Piece.fmt, Piece.args, Piece.text, vprintf, percent, directive, printptr_eq]
  | str s =>
    simp [Piece.fmt, Piece.args, Piece.text, vprintf, percent, directive]
  | char x =>
    simp [Piece.fmt, Piece.args, Piece.text, vprintf, percent, directive]
  | percent =>
    simp [Piece.fmt, Piece.args, Piece.text, vprintf, percent, directive]
  | unknown c hc =>
    simp only [known, List.mem_cons, List.not_mem_nil, or_false, not_or] at hc
    simp [Piece.fmt, Piece.args, Piece.text, vprintf, percent, directive, hc]

/-- What `vprintf` writes after a `%` is the text of a piece. -/
theorem directive_piece {c : UInt8} {ap ap' : List Arg} {out : List UInt8}
    (h : directive c ap = some (out, ap')) :
    ∃ q : Piece, q.fmt = [37, c] ∧ ap = q.args ++ ap' ∧ out = q.text := by
  by_cases hc : c ∈ known
  · simp only [known, List.mem_cons, List.not_mem_nil, or_false] at hc
    rcases hc with rfl | rfl | rfl | rfl | rfl | rfl | rfl
    · rcases ap with _ | ⟨x | s, ap⟩ <;>
        simp only [directive, if_true, BitVec.truncate, printint_signed, Option.map_some,
          reduceCtorEq, Option.some.injEq, Prod.mk.injEq] at h
      obtain ⟨rfl, rfl⟩ := h
      exact ⟨.int x, rfl, rfl, rfl⟩
    · rcases ap with _ | ⟨x | s, ap⟩ <;> simp [directive, printint_unsigned] at h
      obtain ⟨rfl, rfl⟩ := h
      exact ⟨.long x, rfl, rfl, rfl⟩
    · rcases ap with _ | ⟨x | s, ap⟩ <;> simp [directive, printint_unsigned] at h
      obtain ⟨rfl, rfl⟩ := h
      exact ⟨.hex x, rfl, rfl, rfl⟩
    · rcases ap with _ | ⟨x | s, ap⟩ <;> simp [directive, printptr_eq] at h
      obtain ⟨rfl, rfl⟩ := h
      exact ⟨.ptr x, rfl, rfl, rfl⟩
    · rcases ap with _ | ⟨x | s, ap⟩ <;> simp [directive] at h
      obtain ⟨rfl, rfl⟩ := h
      exact ⟨.str s, rfl, rfl, rfl⟩
    · rcases ap with _ | ⟨x | s, ap⟩ <;> simp [directive] at h
      obtain ⟨rfl, rfl⟩ := h
      exact ⟨.char x, rfl, rfl, rfl⟩
    · simp [directive, percent] at h
      obtain ⟨rfl, rfl⟩ := h
      exact ⟨.percent, rfl, rfl, rfl⟩
  · have hne := hc
    simp only [known, List.mem_cons, List.not_mem_nil, or_false, not_or] at hne
    simp [directive, percent, hne] at h
    obtain ⟨rfl, rfl⟩ := h
    exact ⟨.unknown c hc, rfl, rfl, rfl⟩

/-- A `%` that ends the format prints nothing. -/
theorem vprintf_pieces (qs : List Piece) (last : Bool) (ap : List Arg) :
    vprintf (qs.flatMap Piece.fmt ++ if last then [percent] else []) false
        (qs.flatMap Piece.args ++ ap) =
      some (qs.flatMap Piece.text) := by
  induction qs with
  | nil => cases last <;> rfl
  | cons q qs ih =>
    rw [List.flatMap_cons, List.flatMap_cons, List.append_assoc, List.append_assoc,
      vprintf_piece, ih]
    rfl

/-- Any format that finds its arguments is made of pieces. -/
theorem vprintf_exists_pieces {n : Nat} (fmt : List UInt8) (hn : fmt.length ≤ n) (ap : List Arg)
    {out : List UInt8} (h : vprintf fmt false ap = some out) :
    ∃ (qs : List Piece) (last : Bool) (rest : List Arg),
      fmt = (qs.flatMap Piece.fmt ++ if last then [percent] else []) ∧
        ap = qs.flatMap Piece.args ++ rest ∧ out = qs.flatMap Piece.text := by
  induction n generalizing fmt ap out with
  | zero =>
    obtain rfl : fmt = [] := List.eq_nil_of_length_eq_zero (Nat.le_zero.1 hn)
    exact ⟨[], false, ap, rfl, rfl, (Option.some.inj h).symm⟩
  | succ n ih =>
    rcases fmt with _ | ⟨c, fmt⟩
    · exact ⟨[], false, ap, rfl, rfl, (Option.some.inj h).symm⟩
    · rw [List.length_cons] at hn
      by_cases hc : c = percent
      · subst hc
        rcases fmt with _ | ⟨c, fmt⟩
        · exact ⟨[], true, ap, rfl, rfl, (Option.some.inj h).symm⟩
        · rw [List.length_cons] at hn
          rw [vprintf, if_pos rfl, vprintf] at h
          split at h
          next => cases h
          next out' ap' hdir =>
            obtain ⟨q, hfmt, rfl, rfl⟩ := directive_piece hdir
            obtain ⟨out'', hrest, rfl⟩ := Option.map_eq_some_iff.1 h
            obtain ⟨qs, last, rest, rfl, rfl, rfl⟩ := ih fmt (by omega) ap' hrest
            refine ⟨q :: qs, last, rest, ?_, ?_, ?_⟩
            · rw [List.flatMap_cons, hfmt]
              rfl
            · rw [List.flatMap_cons, List.append_assoc]
            · rw [List.flatMap_cons]
      · rw [vprintf, if_neg hc] at h
        obtain ⟨out', hrest, rfl⟩ := Option.map_eq_some_iff.1 h
        obtain ⟨qs, last, rest, rfl, rfl, rfl⟩ := ih fmt (by omega) ap hrest
        exact ⟨.byte c hc :: qs, last, rest, rfl, rfl, rfl⟩

/-- A format is printed piece by piece, and each piece takes its own argument.
`vprintf` has no text only where an argument is missing or of the wrong kind. -/
theorem vprintf_prints_the_pieces (fmt out : List UInt8) (ap : List Arg) :
    vprintf fmt false ap = some out ↔
      ∃ (qs : List Piece) (last : Bool) (rest : List Arg),
        fmt = (qs.flatMap Piece.fmt ++ if last then [percent] else []) ∧
          ap = qs.flatMap Piece.args ++ rest ∧ out = qs.flatMap Piece.text := by
  constructor
  · intro h
    exact vprintf_exists_pieces fmt (Nat.le_refl _) ap h
  · intro h
    obtain ⟨qs, last, rest, rfl, rfl, rfl⟩ := h
    exact vprintf_pieces qs last rest

/-! ## Reading a number back -/

/-- The numeral ends with the last digit. -/
theorem numeral_succ (hb : 1 < base) (x : Nat) :
    numeral base x =
      (if x / base = 0 then [] else numeral base (x / base)) ++ [digits.getD (x % base) 0] := by
  by_cases h0 : x = 0
  · subst h0
    simp [numeral, digits]
  · rw [numeral, if_neg h0, Nat.digits_def' hb (Nat.pos_of_ne_zero h0)]
    split
    next hdiv => simp [hdiv]
    next hdiv => simp [numeral, hdiv]

/-- A decimal digit as a byte. -/
theorem digit_eq {d : Nat} (hd : d < 10) : digits.getD d 0 = UInt8.ofNat (48 + d) := by
  interval_cases d <;> rfl

theorem digit_toNat {d : Nat} (hd : d < 10) : (digits.getD d 0).toNat = 48 + d := by
  rw [digit_eq hd]
  simp
  omega

/-- `atoi` of one more digit. -/
theorem atoi_digit {d : Nat} (hd : d < 10) (s : List UInt8) (n : Nat) :
    atoi (digits.getD d 0 :: s) (BitVec.ofNat 32 n) = atoi s (BitVec.ofNat 32 (10 * n + d)) := by
  have hnat := digit_toNat hd
  have hc : 48 ≤ digits.getD d 0 ∧ digits.getD d 0 ≤ 57 := by
    rw [UInt8.le_iff_toNat_le, UInt8.le_iff_toNat_le, hnat]
    simp
    omega
  rw [atoi, if_pos hc, hnat]
  congr 1
  apply BitVec.eq_of_toNat_eq
  simp
  omega

/-- `atoi` reads a numeral modulo `2^32`, and goes on after it. -/
theorem atoi_numeral (x : Nat) (s : List UInt8) :
    atoi (numeral 10 x ++ s) 0 = atoi s (BitVec.ofNat 32 x) := by
  induction x using Nat.strong_induction_on generalizing s with
  | _ x ih =>
    have hmod : x % 10 < 10 := Nat.mod_lt _ (by decide)
    have hx : 10 * (x / 10) + x % 10 = x := Nat.div_add_mod x 10
    rw [numeral_succ (by decide)]
    split
    next hdiv =>
      have hone := atoi_digit hmod s 0
      rw [hdiv] at hx
      rw [hx] at hone
      exact hone
    next hdiv =>
      have hlt : x / 10 < x := by omega
      rw [List.append_assoc, ih (x / 10) hlt, List.singleton_append, atoi_digit hmod, hx]

/-- `atoi` reads back what `printf("%d")` wrote, up to a byte that is no digit,
unless the number is negative: `atoi` knows no sign, and returns 0. -/
theorem atoi_printint (xx : BitVec 32) (rest : List UInt8)
    (hrest : ∀ c ∈ rest.head?, ¬ (48 ≤ c ∧ c ≤ 57)) :
    ∃ out, printint xx 10 true = some out ∧
      atoi (out ++ rest) 0 = if xx.toInt < 0 then 0 else xx := by
  refine ⟨number 10 xx.toInt, printint_eq xx (Nat.le_refl 10) true, ?_⟩
  rw [number]
  split
  next hneg =>
    rw [List.append_assoc, List.singleton_append, atoi, if_neg (by decide)]
  next hpos =>
    have hend : ∀ n, atoi rest n = n := by
      intro n
      cases rest with
      | nil => rfl
      | cons c rest => rw [atoi, if_neg (hrest c rfl)]
    have habs : xx.toInt.natAbs = xx.toNat := by
      have hx := xx.isLt
      rw [BitVec.toInt_eq_toNat_cond] at hpos ⊢
      split <;> omega
    rw [List.nil_append, atoi_numeral, hend, habs, BitVec.ofNat_toNat, BitVec.setWidth_eq]

theorem atoi_printint_max :
    ∃ out, printint 2147483647 10 true = some out ∧
      atoi (out ++ [10, 49]) 0 = if (2147483647 : BitVec 32).toInt < 0 then 0 else 2147483647 :=
  atoi_printint 2147483647 [10, 49] (by simp)

end Xv6.Printf
