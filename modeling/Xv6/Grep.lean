/-
grep.c: the loop that reads and prints.

A call of `read` may return any number of bytes, up to what is asked for and
what is left; it returns none if none are asked for. The buffer is the list of
its bytes before `buf + m`, and a string in it ends at a NUL.
-/
import Xv6.GrepMatch
import Mathlib.Data.List.TakeWhile

namespace Xv6.Grep

def newline : UInt8 := 0x0a

/-- `sizeof(buf)` -/
def bufSize : Nat := 1024

/-- `read`, with what is left after it; `chunk` is how much there is now. -/
def read (chunk k : Nat) (input : List UInt8) : List UInt8 × List UInt8 :=
  (input.take (min k (max 1 chunk)), input.drop (min k (max 1 chunk)))

/-- The string at `p`. -/
def str (p : List UInt8) : List UInt8 := p.takeWhile (· ≠ 0)

/-- The offset of the first `c` in the string at `p`. -/
def strchr (p : List UInt8) (c : UInt8) : Option Nat := (str p).findIdx? (· = c)

/-- The loop over the lines in the buffer: what it writes, and the bytes from
`p` on at its end. -/
def printLines (pattern p : List UInt8) : List UInt8 × List UInt8 :=
  match _h : strchr p newline with
  | none => ([], p)
  | some q =>
    let line := p.take q
    let next := printLines pattern (p.drop (q + 1))
    (if matchText pattern (str line) then line ++ newline :: next.1 else next.1, next.2)
termination_by p.length
decreasing_by
  obtain ⟨hlt, -⟩ := List.findIdx?_eq_some_iff_getElem.1 _h
  have hle : (str p).length ≤ p.length := (List.takeWhile_sublist _).length_le
  rw [List.length_drop]
  omega

/-- What is left is shorter if something has been read. -/
theorem read_shorter {chunk k : Nat} {input : List UInt8} (h : (read chunk k input).1 ≠ []) :
    (read chunk k input).2.length < input.length := by
  unfold read at *
  have hpos : 0 < (input.take (min k (max 1 chunk))).length := List.length_pos_iff.2 h
  rw [List.length_take] at hpos
  rw [List.length_drop]
  omega

/-- What `grep` writes, with `buf` in the buffer and `input` still to be read,
which comes in the given chunks. -/
def grepLoop (pattern : List UInt8) (chunks : Nat → Nat) (buf input : List UInt8) : List UInt8 :=
  let got := read (chunks 0) (bufSize - buf.length - 1) input
  if _h : got.1 ≠ [] then
    let printed := printLines pattern (buf ++ got.1)
    printed.1 ++ grepLoop pattern (fun i => chunks (i + 1)) printed.2 got.2
  else []
termination_by input.length
decreasing_by exact read_shorter _h

def grep (pattern : List UInt8) (chunks : Nat → Nat) (input : List UInt8) : List UInt8 :=
  grepLoop pattern chunks [] input

/-! ## The lines of the input -/

/-- What stands before the newlines, and what follows the last one. -/
def complete (s : List UInt8) : List (List UInt8) := (s.splitOn newline).dropLast

def unfinished (s : List UInt8) : List UInt8 := (s.splitOn newline).getLastD []

/-- A line, if it matches. -/
def printed (pattern line : List UInt8) : List UInt8 :=
  if matchText pattern line then line ++ [newline] else []

/-- The lines that match, in order; the last one may have no newline. -/
def matching (pattern input : List UInt8) : List UInt8 :=
  (complete input).flatMap (printed pattern) ++
    if matchText pattern (unfinished input) then unfinished input else []

/-- A line and its newline fit the buffer, beside the NUL. -/
def Fits (line : List UInt8) : Prop := line.length + 1 < bufSize

instance (line : List UInt8) : Decidable (Fits line) := by
  unfold Fits
  infer_instance

variable {pattern s t line : List UInt8}

theorem splitOn_line (hno : newline ∉ line) (s : List UInt8) :
    (line ++ newline :: s).splitOn newline = line :: s.splitOn newline := by
  have hall : ∀ a ∈ line, (a == newline) = false := by
    intro a ha
    simpa using fun he : a = newline => hno (he ▸ ha)
  unfold List.splitOn
  rw [List.splitOnP_append_cons _ _ (by simp), List.splitOnP_eq_singleton hall]
  rfl

theorem splitOn_none (hno : newline ∉ s) : s.splitOn newline = [s] := by
  have hall : ∀ a ∈ s, (a == newline) = false := by
    intro a ha
    simpa using fun he : a = newline => hno (he ▸ ha)
  exact List.splitOnP_eq_singleton hall

theorem splitOn_ne_nil (s : List UInt8) : s.splitOn newline ≠ [] := List.splitOnP_ne_nil _ s

theorem complete_line (hno : newline ∉ line) (s : List UInt8) :
    complete (line ++ newline :: s) = line :: complete s := by
  unfold complete
  rw [splitOn_line hno, List.dropLast_cons_of_ne_nil (splitOn_ne_nil s)]

theorem complete_none (hno : newline ∉ s) : complete s = [] := by
  unfold complete
  rw [splitOn_none hno]
  rfl

/-- The first line starts with a string that has no newline. -/
theorem complete_append (hno : newline ∉ s) (t : List UInt8) :
    complete (s ++ t) = [] ∨ ∃ u ls, complete (s ++ t) = (s ++ u) :: ls := by
  by_cases hin : newline ∈ t
  · obtain ⟨u, v, rfl, hu⟩ := List.eq_append_cons_of_mem hin
    refine .inr ⟨u, complete v, ?_⟩
    rw [← List.append_assoc, complete_line]
    simp [hno, hu]
  · refine .inl (complete_none ?_)
    simp [hno, hin]

/-! ## The buffer -/

theorem str_eq (h0 : (0 : UInt8) ∉ s) : str s = s := by
  refine List.takeWhile_eq_self_iff.2 fun a ha => ?_
  simpa using fun h : a = 0 => h0 (h ▸ ha)

/-- The lines in the buffer are printed; what follows them has no newline. -/
theorem printLines_eq (pattern : List UInt8) {b : List UInt8} (h0 : (0 : UInt8) ∉ b) :
    ∃ ls last, printLines pattern b = (ls.flatMap (printed pattern), last) ∧
      newline ∉ last ∧ (0 : UInt8) ∉ last ∧ last.length ≤ b.length ∧
      (∀ l ∈ ls, l.length + 1 ≤ b.length) ∧
      ∀ t, complete (b ++ t) = ls ++ complete (last ++ t) := by
  induction b using printLines.induct pattern with
  | case1 p hnone =>
    have hno : newline ∉ p := by
      intro hin
      unfold strchr at hnone
      rw [str_eq h0, List.findIdx?_eq_none_iff] at hnone
      simpa using hnone newline hin
    refine ⟨[], p, ?_, hno, h0, Nat.le_refl _, nofun, fun t => rfl⟩
    rw [printLines]
    split
    next => rfl
    next hq => rw [hnone] at hq; cases hq
  | case2 p q hsome ih =>
    have hfind := hsome
    unfold strchr at hfind
    rw [str_eq h0, List.findIdx?_eq_some_iff_getElem] at hfind
    obtain ⟨hlt, hq, hbefore⟩ := hfind
    have hq : p[q] = newline := by simpa using hq
    have hsplit : p = p.take q ++ newline :: p.drop (q + 1) := by
      rw [← hq, List.getElem_cons_drop, List.take_append_drop]
    have hno : newline ∉ p.take q := by
      intro hin
      obtain ⟨j, hj, he⟩ := List.getElem_of_mem hin
      rw [List.length_take] at hj
      rw [List.getElem_take] at he
      exact hbefore j (by omega) (by simpa using he)
    have hline0 : (0 : UInt8) ∉ p.take q := fun h => h0 (List.mem_of_mem_take h)
    obtain ⟨ls, last, hrun, hlast, hlast0, hlen, hls, hall⟩ :=
      ih fun h => h0 (List.mem_of_mem_drop h)
    rw [List.length_drop] at hlen hls
    refine ⟨p.take q :: ls, last, ?_, hlast, hlast0, by omega, fun l hl => ?_, fun t => ?_⟩
    · rw [printLines]
      split
      next hq => rw [hsome] at hq; cases hq
      next q' hq' =>
        rw [hsome] at hq'
        obtain rfl := Option.some.inj hq'
        simp only [hrun, str_eq hline0, List.flatMap_cons]
        unfold printed
        split
        next => simp
        next => rfl
    · rcases List.mem_cons.1 hl with rfl | hl
      · rw [List.length_take]
        omega
      · have hle := hls l hl
        omega
    · conv => lhs; rw [hsplit]
      rw [List.append_assoc, List.cons_append, complete_line hno, hall]
      rfl

/-- `grep` prints the lines that match, up to the first that does not fit the
buffer. -/
theorem grepLoop_eq (pattern : List UInt8) (chunks : Nat → Nat) {buf input : List UInt8}
    (hno : newline ∉ buf) (hbuf : buf.length < bufSize) (hbuf0 : (0 : UInt8) ∉ buf)
    (hinput : (0 : UInt8) ∉ input) : grepLoop pattern chunks buf input =
      ((complete (buf ++ input)).takeWhile Fits).flatMap (printed pattern) := by
  induction hn : input.length using Nat.strongRecOn generalizing chunks buf input with
  | _ n ih =>
    subst hn
    rw [grepLoop]
    obtain ⟨k, hk⟩ : ∃ k, k = min (bufSize - buf.length - 1) (max 1 (chunks 0)) := ⟨_, rfl⟩
    have hread : read (chunks 0) (bufSize - buf.length - 1) input =
        (input.take k, input.drop k) := by
      rw [hk]
      rfl
    simp only [hread]
    split
    next hgot =>
      have h0 : (0 : UInt8) ∉ buf ++ input.take k := by
        rw [List.mem_append]
        rintro (h | h)
        · exact hbuf0 h
        · exact hinput (List.mem_of_mem_take h)
      have hlen : (buf ++ input.take k).length < bufSize := by
        rw [List.length_append, List.length_take]
        omega
      obtain ⟨ls, last, hrun, hlast, hlast0, hle, hls, hall⟩ := printLines_eq pattern h0
      have hshort : (input.drop k).length < input.length := by
        have hpos := List.length_pos_iff.2 hgot
        rw [List.length_take] at hpos
        rw [List.length_drop]
        omega
      rw [hrun, ih _ hshort (fun i => chunks (i + 1)) hlast (by omega) hlast0
        (fun h => hinput (List.mem_of_mem_drop h)) rfl]
      have hcat : buf ++ input = buf ++ input.take k ++ input.drop k := by
        rw [List.append_assoc, List.take_append_drop]
      rw [hcat, hall, List.takeWhile_append_of_pos, List.flatMap_append]
      intro l hl
      have hfit := hls l hl
      simp only [decide_eq_true_eq]
      unfold Fits
      omega
    next hgot =>
      have hgot : input.take k = [] := by
        by_contra h
        exact hgot h
      rw [List.take_eq_nil_iff] at hgot
      rcases hgot with h0 | rfl
      · -- the buffer is full
        rcases complete_append hno input with hnil | ⟨u, ls, hcons⟩
        · rw [hnil]
          rfl
        · have hfit : ¬ Fits (buf ++ u) := by
            unfold Fits
            rw [List.length_append]
            omega
          rw [hcons, List.takeWhile_cons_of_neg (by simpa using hfit)]
          rfl
      · rw [List.append_nil, complete_none hno]
        rfl

/-- `grep` reaches the lines that match: none comes at or after the first that
does not fit the buffer, and an unfinished last one does not match. -/
def Reached (pattern input : List UInt8) : Prop :=
  (∀ line ∈ (complete input).dropWhile Fits, matchText pattern line = false) ∧
    (unfinished input = [] ∨ matchText pattern (unfinished input) = false)

/-- What `grep` writes does not depend on the chunks, and is the lines that
match if and only if it reaches them. -/
theorem grep_prints (pattern : List UInt8) {input : List UInt8} (hinput : (0 : UInt8) ∉ input)
    (chunks : Nat → Nat) :
    (grep pattern chunks input = matching pattern input ↔ Reached pattern input) ∧
      ∀ chunks', grep pattern chunks' input = grep pattern chunks input := by
  have hrun : ∀ chunks, grep pattern chunks input =
      ((complete input).takeWhile Fits).flatMap (printed pattern) := fun chunks =>
    grepLoop_eq pattern chunks (by simp) (by decide) (by simp) hinput
  refine ⟨?_, fun chunks' => by rw [hrun, hrun]⟩
  have hsplit : (complete input).flatMap (printed pattern) =
      ((complete input).takeWhile Fits).flatMap (printed pattern) ++
        ((complete input).dropWhile Fits).flatMap (printed pattern) := by
    rw [← List.flatMap_append, List.takeWhile_append_dropWhile]
  have hnone : ∀ line, printed pattern line = [] ↔ matchText pattern line = false := by
    intro line
    unfold printed
    split
    next h => simp [h]
    next h => simpa using h
  unfold matching Reached
  rw [hrun, hsplit, List.append_assoc, List.self_eq_append_right, List.append_eq_nil_iff,
    List.flatMap_eq_nil_iff]
  refine and_congr (forall_congr' fun line => imp_congr_right fun _ => hnone line) ?_
  split
  next h => simp [h]
  next h => exact iff_of_true rfl (.inr (by simpa using h))

/-- An input of one line. -/
theorem grep_prints_line : grep [0x61] (fun _ => 1) [0x61, newline] =
    matching [0x61] [0x61, newline] :=
  (grep_prints [0x61] (by decide) fun _ => 1).1.2 ⟨by decide +kernel, .inl (by decide)⟩

/-- The last line has no newline, and is not printed. -/
theorem grep_drops_last : ¬ ∀ pattern input : List UInt8, (0 : UInt8) ∉ input →
    ∀ chunks, grep pattern chunks input = matching pattern input := by
  intro h
  have hgrep : grep [0x61] (fun _ => 1) [0x61] = [] :=
    grepLoop_eq [0x61] (fun _ => 1) (by simp) (by decide) (by simp) (by decide)
  have hmatch : matchText [0x61] [0x61] = true := by
    simp [matchText, caret, matchLoop, matchhere.eq_def, dollar]
  have hall : matching [0x61] [0x61] = [0x61] := by
    unfold matching
    exact congrArg _ (if_pos hmatch)
  have h' := h [0x61] [0x61] (by decide) fun _ => 1
  rw [hgrep, hall] at h'
  cases h'

end Xv6.Grep
