/-
file.c: `fileread` of an inode, with the bytes that it writes to user memory.

`readi` here is that of `FileSystem` together with what a copy has written when
it fails. `mapped` says of a page whether `walkaddr` finds it.
-/
import Xv6.FileRoom
import Xv6.FileTrunc
import Xv6.Kernel.State

namespace Xv6.FileRead

open Conc Prog Fs FileSystem

/-- Bytes that have been written, with their addresses. -/
abbrev Writes := List (Nat × UInt8)

/-- Copy from kernel to user; an iteration copies at least one byte. -/
def copyout (mapped : Nat → Bool) : (fuel dstva : Nat) → (src : List UInt8) → Int × Writes
  | 0, _, _ => (0, [])
  | fuel + 1, dstva, src =>
    if src.length > 0 then
      let va0 := PGROUNDDOWN dstva
      if ! mapped (va0 / PGSIZE) then (-1, [])
      else
        let n := min (PGSIZE - (dstva - va0)) src.length
        let rest := copyout mapped fuel (va0 + PGSIZE) (src.drop n)
        (rest.1, (List.range n).map (fun j => (dstva + j, src.getD j 0)) ++ rest.2)
    else (0, [])

/-- The loop of `readi`; `-1` is what `tot` is set to when a copy fails. -/
def readiLoop (sb : Superblock) (mapped : Nat → Bool) (i n : Nat) :
    (fuel tot off dst : Nat) → Prog State (Int × Writes)
  | 0, tot, _, _ => return (tot, [])
  | fuel + 1, tot, off, dst =>
    if tot < n then do
      let addr ← bmap sb i (off / BSIZE)
      if addr = 0 then return (tot, [])
      else do
        let d ← bread addr
        let m := min (n - tot) (BSIZE - off % BSIZE)
        let (r, out) := copyout mapped m dst ((List.range m).map fun j => d (off % BSIZE + j))
        if r = -1 then return (-1, out)
        else do
          let (r, out') ← readiLoop sb mapped i n fuel (tot + m) (off + m) (dst + m)
          return (r, out ++ out')
    else return (tot, [])

/-- Read data from inode; `off` and `n` are `uint`s. -/
def readi (sb : Superblock) (mapped : Nat → Bool) (i dst off n : Nat) :
    Prog State (Int × Writes) := do
  let ip ← read fun s => s.inode i
  if off > ip.size ∨ (off + n) % 2 ^ 32 < off then return (0, [])
  else
    let n := if (off + n) % 2 ^ 32 > ip.size then ip.size - off else n
    readiLoop sb mapped i n n 0 off dst

/-- Read from file of inode `ip`; the length is an `int`, which `readi` takes
for an `uint`. -/
def fileread (sb : Superblock) (mapped : Nat → Bool) (readable : Bool) (ip addr : Nat) (n : Int) :
    Prog State (Int × Writes) := do
  if ! readable then return (-1, [])
  else do
    ilock
    let off ← read fun s => s.off
    let (r, out) ← readi sb mapped ip addr off (n % 2 ^ 32).toNat
    (if r > 0 then modify fun s => { s with off := s.off + r.toNat } else return ())
    iunlock
    return (r, out)

/-! ## copyout -/

variable {sb : Superblock} {I : Set Nat} {s s' : State} {i off tot m k fuel dst : Nat} {n r : Int}
  {mapped : Nat → Bool} {src : List UInt8} {out : Writes}

theorem pgrounddown_le (a : Nat) : PGROUNDDOWN a ≤ a ∧ a - PGROUNDDOWN a < PGSIZE ∧
    PGROUNDDOWN a / PGSIZE = a / PGSIZE := by
  unfold PGROUNDDOWN PGSIZE
  omega

/-- `copyout` writes no more than it is given, and something unless it fails
at the first page. -/
theorem copyout_spec (hfuel : src.length ≤ fuel) :
    ((copyout mapped fuel dst src).1 = 0 ∨ (copyout mapped fuel dst src).1 = -1) ∧
      (copyout mapped fuel dst src).2.length ≤ src.length ∧
      (src ≠ [] → mapped (dst / PGSIZE) = false → copyout mapped fuel dst src = (-1, [])) ∧
      (src ≠ [] → mapped (dst / PGSIZE) = true → (copyout mapped fuel dst src).2 ≠ []) := by
  induction fuel generalizing dst src with
  | zero =>
    have hnil : src = [] := List.length_eq_zero_iff.1 (by omega)
    exact ⟨.inl rfl, Nat.zero_le _, fun h => absurd hnil h, fun h => absurd hnil h⟩
  | succ fuel ih =>
    obtain ⟨hle, hlt, hpage⟩ := pgrounddown_le dst
    unfold copyout
    by_cases hsrc : src.length > 0
    · rw [if_pos hsrc]
      simp only [hpage]
      cases hm : mapped (dst / PGSIZE) with
      | false => exact ⟨.inr rfl, Nat.zero_le _, fun _ _ => rfl, fun _ h => by cases h⟩
      | true =>
        obtain ⟨k, hk⟩ : ∃ k, k = min (PGSIZE - (dst - PGROUNDDOWN dst)) src.length := ⟨_, rfl⟩
        rw [← hk]
        have hk0 : 0 < k ∧ k ≤ src.length := by omega
        have hdrop : (src.drop k).length = src.length - k := List.length_drop
        obtain ⟨hres, hlen, -, -⟩ := @ih (PGROUNDDOWN dst + PGSIZE) (src.drop k) (by omega)
        simp only [Bool.not_true, Bool.false_eq_true, if_false]
        refine ⟨hres, ?_, fun _ h => (by cases h), fun _ _ => ?_⟩
        · rw [List.length_append, List.length_map, List.length_range]
          omega
        · rw [ne_eq, List.append_eq_nil_iff, List.map_eq_nil_iff, List.range_eq_nil]
          omega
    · have hnil : src = [] := List.length_eq_zero_iff.1 (by omega)
      rw [if_neg hsrc]
      exact ⟨.inl rfl, Nat.zero_le _, fun h => absurd hnil h, fun h => absurd hnil h⟩

/-! ## readi -/

/-- The loop returns the end, or fails; it writes no more than it is asked for,
and something unless it fails at the first page. -/
theorem readiLoop_spec (h : WellFormed sb I s) (hi : i ∈ I) (hfuel : k - tot ≤ fuel)
    (htot : tot ≤ k) (hend : off + (k - tot) ≤ (s.inode i).size) :
    ∃ r out, (readiLoop sb mapped i k fuel tot off dst).run s = .ok (r, out) s ∧
      (r = k ∨ r = -1) ∧ out.length ≤ k - tot ∧
      (tot < k → mapped (dst / PGSIZE) = false → r = -1 ∧ out = []) ∧
      (tot < k → mapped (dst / PGSIZE) = true → out ≠ []) := by
  induction fuel generalizing tot off dst with
  | zero =>
    have ht : tot = k := by omega
    subst ht
    exact ⟨tot, [], rfl, .inl rfl, Nat.zero_le _, fun hlt => by omega, fun hlt => by omega⟩
  | succ fuel ih =>
    unfold readiLoop
    by_cases hlt : tot < k
    · obtain ⟨m, hm⟩ : ∃ m, m = min (k - tot) (BSIZE - off % BSIZE) := ⟨_, rfl⟩
      have hm' : 0 < m ∧ m ≤ k - tot := by
        unfold BSIZE at *
        omega
      obtain ⟨hm0, hmk⟩ := hm'
      obtain ⟨hbn, h0⟩ := h.addrAt_ne hi (by omega : off < (s.inode i).size)
      obtain ⟨src, hsrc⟩ : ∃ src, src = (List.range m).map fun j =>
        s.data (s.addrAt i (off / BSIZE)) (off % BSIZE + j) := ⟨_, rfl⟩
      have hlen : src.length = m := by
        rw [hsrc, List.length_map, List.length_range]
      have hne : src ≠ [] := by
        rw [← List.length_pos_iff]
        omega
      obtain ⟨hres, hout, hfail, hsome⟩ := @copyout_spec m dst mapped src (by omega)
      rw [if_pos hlt, run_bind, bmap_there hbn h0]
      simp only [h0, if_false, run_bind, bread, run_read, ← hm, ← hsrc]
      by_cases hr : (copyout mapped m dst src).1 = -1
      · rw [if_pos hr]
        refine ⟨-1, (copyout mapped m dst src).2, rfl, .inr rfl, by omega,
          fun _ hm => ⟨rfl, ?_⟩, fun _ hm => hsome hne hm⟩
        rw [hfail hne hm]
      · obtain ⟨r, out, hrun, hrk, hlen', -, -⟩ := @ih (off + m) (tot + m) (dst + m) (by omega)
          (by omega) (by omega)
        rw [if_neg hr]
        simp only [run_bind, hrun]
        refine ⟨r, (copyout mapped m dst src).2 ++ out, rfl, hrk, ?_, fun _ hm => ?_,
          fun _ hm hnil => ?_⟩
        · rw [List.length_append]
          omega
        · exact absurd (by rw [hfail hne hm]) hr
        · exact hsome hne hm (List.append_eq_nil_iff.1 hnil).1
    · have ht : tot = k := by omega
      subst ht
      rw [if_neg hlt]
      exact ⟨tot, [], rfl, .inl rfl, Nat.zero_le _, fun hlt' => absurd hlt' hlt,
        fun hlt' => absurd hlt' hlt⟩

/-- How much `readi` reads: as much as there is when the sum wraps around. -/
def amount (size off n : Nat) : Nat :=
  if off > size ∨ (off + n) % 2 ^ 32 < off then 0
  else if (off + n) % 2 ^ 32 > size then size - off else n

theorem readi_spec (h : WellFormed sb I s) (hi : i ∈ I) (hoff : off < 2 ^ 32) {n : Nat}
    (hn : n < 2 ^ 32) :
    ∃ r out, (readi sb mapped i dst off n).run s = .ok (r, out) s ∧
      (r = amount (s.inode i).size off n ∨ r = -1) ∧
      out.length ≤ amount (s.inode i).size off n ∧
      (0 < amount (s.inode i).size off n → mapped (dst / PGSIZE) = false → r = -1 ∧ out = []) ∧
      (0 < amount (s.inode i).size off n → mapped (dst / PGSIZE) = true → out ≠ []) := by
  have hsize := h.size hi
  have hmax : MAXFILE * BSIZE = 274432 := rfl
  unfold amount
  simp only [readi, run_bind, run_read]
  by_cases hno : off > (s.inode i).size ∨ (off + n) % 2 ^ 32 < off
  · rw [if_pos hno, if_pos hno]
    exact ⟨0, [], rfl, .inl rfl, Nat.zero_le _, fun hlt => absurd hlt (Nat.lt_irrefl 0),
      fun hlt => absurd hlt (Nat.lt_irrefl 0)⟩
  · rw [if_neg hno, if_neg hno]
    obtain ⟨k, hk⟩ : ∃ k, k = if (off + n) % 2 ^ 32 > (s.inode i).size then
      (s.inode i).size - off else n := ⟨_, rfl⟩
    have hend : off + k ≤ (s.inode i).size := by
      rw [hk]
      split <;> omega
    rw [← hk]
    exact readiLoop_spec h hi (by omega) (Nat.zero_le k) (by omega)

/-! ## fileread -/

/-- `read` has delivered no more than asked for: it has written at most
`max n 0` bytes, returned at most that, and advanced the offset by what it has
returned. -/
def Bounded (n r : Int) (out : Writes) (off off' : Nat) : Prop :=
  (out.length : Int) ≤ max n 0 ∧ r ≤ max n 0 ∧ off' = if r > 0 then off + r.toNat else off

/-- A negative length is taken for one of more than 2 ^ 31, unless the sum with
the offset wraps around. -/
def Harmless (s : State) (mapped : Nat → Bool) (readable : Bool) (i addr : Nat) (n : Int) : Prop :=
  0 ≤ n ∨ readable = false ∨ 0 ≤ (s.off : Int) + n ∨ (s.inode i).size ≤ s.off ∨
    mapped (addr / PGSIZE) = false

theorem fileread_run (h : WellFormed sb I s) (hi : i ∈ I) (hoff : s.off < 2 ^ 32) (n : Int)
    (mapped : Nat → Bool) (dst : Nat) :
    ∃ r out s', (fileread sb mapped true i dst n).run s = .ok (r, out) s' ∧
      s'.off = (if r > 0 then s.off + r.toNat else s.off) ∧
      (r = amount (s.inode i).size s.off (n % 2 ^ 32).toNat ∨ r = -1) ∧
      out.length ≤ amount (s.inode i).size s.off (n % 2 ^ 32).toNat ∧
      (0 < amount (s.inode i).size s.off (n % 2 ^ 32).toNat →
        mapped (dst / PGSIZE) = false → r = -1 ∧ out = []) ∧
      (0 < amount (s.inode i).size s.off (n % 2 ^ 32).toNat →
        mapped (dst / PGSIZE) = true → out ≠ []) := by
  have hlock : WellFormed sb I { s with locked := true } := ⟨⟨h.blocks.data, h.blocks.inj,
    h.blocks.low⟩, h.size, h.holeFree⟩
  obtain ⟨r, out, hrun, hspec⟩ := @readi_spec sb I { s with locked := true } i s.off dst mapped hlock
    hi hoff (n % 2 ^ 32).toNat (by omega)
  by_cases hr : r > 0
  · refine ⟨r, out, { s with off := s.off + r.toNat, locked := false }, ?_, ?_, hspec⟩
    · simp only [fileread, Bool.not_true, Bool.false_eq_true, if_false, run_bind, ilock,
        run_modify, run_read, hrun, if_pos hr]
      rfl
    · rw [if_pos hr]
  · refine ⟨r, out, { s with locked := false }, ?_, ?_, hspec⟩
    · simp only [fileread, Bool.not_true, Bool.false_eq_true, if_false, run_bind, ilock,
        run_modify, run_read, hrun, if_neg hr]
      rfl
    · rw [if_neg hr]

/-- `read` delivers no more than asked for, except with a negative length whose
sum with the offset does not wrap around, on a file that goes on there, to a
page that is mapped. -/
theorem fileread_bounded (h : WellFormed sb I s) (hi : i ∈ I) (hoff : s.off < 2 ^ 32)
    (hlow : -2 ^ 31 ≤ n) (hhigh : n < 2 ^ 31) (mapped : Nat → Bool) (readable : Bool)
    (dst : Nat) :
    ∃ r out s', (fileread sb mapped readable i dst n).run s = .ok (r, out) s' ∧
      (Bounded n r out s.off s'.off ↔ Harmless s mapped readable i dst n) := by
  have hsize := h.size hi
  have hmax : MAXFILE * BSIZE = 274432 := rfl
  cases readable with
  | false =>
    refine ⟨-1, [], s, rfl, iff_of_true ⟨?_, ?_, ?_⟩ (.inr (.inl rfl))⟩
    · simp
    · omega
    · rfl
  | true =>
    obtain ⟨r, out, s', hrun, hoff', hr, hlen, hfail, hsome⟩ :=
      fileread_run h hi hoff n mapped dst
    refine ⟨r, out, s', hrun, ?_⟩
    -- how much there is to read
    have hamount : amount (s.inode i).size s.off (n % 2 ^ 32).toNat ≤ n.toNat ∨
        (n < 0 ∧ (s.off : Int) + n < 0 ∧
          amount (s.inode i).size s.off (n % 2 ^ 32).toNat = (s.inode i).size - s.off) := by
      unfold amount
      split
      next => exact .inl (Nat.zero_le _)
      next => split <;> omega
    unfold Bounded Harmless
    rcases hamount with hle | ⟨hneg, hsum, hamount⟩
    · refine iff_of_true ⟨by omega, by omega, hoff'⟩ ?_
      by_contra hno
      rw [not_or, not_or, not_or, not_or] at hno
      obtain ⟨hneg, -, hsum, hmore, hmapped⟩ := hno
      have hpos : 0 < amount (s.inode i).size s.off (n % 2 ^ 32).toNat := by
        unfold amount
        rw [if_neg (by omega)]
        split <;> omega
      omega
    · rw [hamount] at hr hlen hfail hsome
      constructor
      · rintro ⟨hout, -, -⟩
        by_contra hno
        rw [not_or, not_or, not_or, not_or] at hno
        obtain ⟨-, -, -, hmore, hmapped⟩ := hno
        have hne := hsome (by omega) (by simpa using hmapped)
        have hpos := List.length_pos_iff.2 hne
        omega
      · intro hharm
        by_cases hmore : (s.inode i).size ≤ s.off
        · exact ⟨by omega, by omega, hoff'⟩
        · have hmapped : mapped (dst / PGSIZE) = false := by
            rcases hharm with h0 | h0 | h0 | h0 | h0
            · omega
            · cases h0
            · omega
            · omega
            · exact h0
          obtain ⟨rfl, rfl⟩ := hfail (by omega) hmapped
          exact ⟨by simp, by omega, hoff'⟩

/-- A file of two bytes, read from the offset `off` on. -/
theorem twoBytes_file (off : Nat) : ∃ s, WellFormed twoFilesDisk {1, 2} s ∧
    (s.inode 1).size = 2 ∧ s.off = off := by
  obtain ⟨mem, g, hmem⟩ : ∃ (mem : Mem) (g : Nat → UInt8), ∀ j, j < 2 → mem (0 + j) = some (g j) :=
    ⟨fun _ => some 7, fun _ => 7, fun _ _ => rfl⟩
  have hok : twoFiles.Accepts 1 0 2 := ⟨Nat.zero_le _, by decide⟩
  obtain ⟨k, s, hwrite, -, -, hwf, hbytes, -⟩ := writei_run twoFilesDisk_layout
    twoFiles_wellFormed (.inl rfl) hok hmem
  have hk := writei_block twoFilesDisk_layout twoFiles_wellFormed (.inl rfl) hok hmem (by decide)
    (by decide) hwrite
  rw [if_neg (by decide +kernel)] at hk
  refine ⟨{ s with off := off },
    ⟨⟨hwf.blocks.data, hwf.blocks.inj, hwf.blocks.low⟩, hwf.size, hwf.holeFree⟩, ?_, rfl⟩
  show (s.inode 1).size = 2
  rw [← length_bytes, hbytes, hk]
  rfl

/-- Its second byte is asked for with the length -1, which is harmless there. -/
theorem fileread_bounded_negative : ∃ s r out s', (s.inode 1).size = 2 ∧ s.off = 1 ∧
    (fileread twoFilesDisk (fun _ => true) true 1 0 (-1)).run s = .ok (r, out) s' ∧
    Bounded (-1) r out s.off s'.off := by
  obtain ⟨s, hwf, hsize, hoff⟩ := twoBytes_file 1
  obtain ⟨r, out, s', hrun, hiff⟩ := fileread_bounded (n := -1) hwf (.inl rfl)
    (by rw [hoff]; decide) (by decide) (by decide) (fun _ => true) true 0
  refine ⟨s, r, out, s', hsize, hoff, hrun, hiff.2 (.inr (.inr (.inl ?_)))⟩
  rw [hoff]
  decide

/-- All of it from the start on, for the length -1. -/
theorem fileread_negative : ¬ ∀ (s : State) (n r : Int) (out : Writes) (s' : State),
    WellFormed twoFilesDisk {1, 2} s → s.off < 2 ^ 32 → -2 ^ 31 ≤ n → n < 2 ^ 31 →
    (fileread twoFilesDisk (fun _ => true) true 1 0 n).run s = .ok (r, out) s' →
    Bounded n r out s.off s'.off := by
  intro hall
  obtain ⟨s, hwf, hsize, hoff⟩ := twoBytes_file 0
  have hoff' : s.off < 2 ^ 32 := by
    rw [hoff]
    decide
  obtain ⟨r, out, s', hrun, -, -, -, -, hsome⟩ :=
    fileread_run hwf (.inl rfl) hoff' (-1) (fun _ => true) 0
  have hamount : amount (s.inode 1).size s.off ((-1 : Int) % 2 ^ 32).toNat = 2 := by
    rw [hsize, hoff]
    decide
  have hpos := List.length_pos_iff.2 (hsome (by rw [hamount]; decide) rfl)
  obtain ⟨hout, -, -⟩ := hall s (-1) r out s' hwf hoff' (by decide) (by decide) hrun
  omega

end Xv6.FileRead
