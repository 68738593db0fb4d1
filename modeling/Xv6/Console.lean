/-
console.c: the line discipline between `consoleintr`, which takes characters
one by one from the uart, and `consoleread`.

Any number of processes read. What runs under `cons.lock` is one step: all of
`consoleintr`, and of `consoleread` the part up to its next `sleep` or its
return. `r`, `w` and `e` are unsigned 32-bit numbers. The destinations of the
reads are writable, and what `consputc` and `procdump` print is left out.

`committed`, `taken` and `calls` are auxiliary: every character that `w` has
passed, every character that a reader has taken out, with the call that did
it, and how many calls each process has begun.
-/
import Mathlib.Algebra.Group.Nat.Defs
import Mathlib.Algebra.Group.Int.Defs
import Mathlib.Data.List.Induction
import Xv6.Lib.Machine
import Xv6.Lib.RingQueue

namespace Xv6.Console

open Conc

def INPUT_BUF_SIZE : Nat := 128

/-- `x++` and `x--` of a `uint`. -/
def inc (x : Nat) : Nat := (x + 1) % 2 ^ 32
def dec (x : Nat) : Nat := (x + 2 ^ 32 - 1) % 2 ^ 32

/-- `x - y` of two `uint`s. -/
def diff (x y : Nat) : Nat := (x + 2 ^ 32 - y) % 2 ^ 32

/-- `'\n'`, `'\r'`, the delete key, and `C('D')`, `C('H')`, `C('P')`, `C('U')`. -/
def NL : UInt8 := 10
def CR : UInt8 := 13
def DEL : UInt8 := 0x7f
def ctrlD : UInt8 := 4
def ctrlH : UInt8 := 8
def ctrlP : UInt8 := 16
def ctrlU : UInt8 := 21

/-- `cons`. -/
structure Cons where
  buf : Nat → UInt8
  r : Nat
  w : Nat
  e : Nat

namespace Cons

-- with a variable for the index, which the kernel must not compute with
theorem r_with_e (s : Cons) (e : Nat) : ({ s with e := e } : Cons).r = s.r := rfl

theorem w_with_e (s : Cons) (e : Nat) : ({ s with e := e } : Cons).w = s.w := rfl

/-- The characters from index `i` up to index `j`. -/
def between (s : Cons) (i j : Nat) : List UInt8 :=
  (List.range (diff j i)).map fun k => s.buf ((i + k) % 2 ^ 32 % INPUT_BUF_SIZE)

/-- The characters that the next reads get. -/
def ready (s : Cons) : List UInt8 := s.between s.r s.w

/-- The loop of `C('U')`; it has no more than `e - w` turns. -/
def killLine : (turns : Nat) → Cons → Cons
  | 0, s => s
  | turns + 1, s =>
    if s.e ≠ s.w ∧ s.buf (dec s.e % INPUT_BUF_SIZE) ≠ NL then killLine turns { s with e := dec s.e }
    else s

/-- `consoleintr`; does it wake the readers? -/
def consoleintr (s : Cons) (c : UInt8) : Cons × Bool :=
  if c = ctrlP then (s, false)
  else if c = ctrlU then (killLine (diff s.e s.w) s, false)
  else if c = ctrlH ∨ c = DEL then
    if s.e ≠ s.w then ({ s with e := dec s.e }, false) else (s, false)
  else if c ≠ 0 ∧ diff s.e s.r < INPUT_BUF_SIZE then
    let c := if c = CR then NL else c
    -- store for consumption by consoleread()
    let s := { s with buf := Function.update s.buf (s.e % INPUT_BUF_SIZE) c, e := inc s.e }
    if c = NL ∨ c = ctrlD ∨ diff s.e s.r = INPUT_BUF_SIZE then ({ s with w := s.e }, true)
    else (s, false)
  else (s, false)

end Cons

/-- Where a process is in `consoleread(user_dst, dst, target)`: `n` bytes are
left to get, `got` are stored at `dst`. -/
inductive PC where
  | idle
  | sleeping (target n : Nat) (got : List UInt8)
  | woken (target n : Nat) (got : List UInt8)
  | ret (target : Nat) (got : List UInt8) (r : Int)
  deriving DecidableEq

/-- The loop of `consoleread`, with the lock held, and the characters that it
takes out. -/
def Cons.readLoop (killed : Bool) (target : Nat) :
    (n : Nat) → (s : Cons) → (got : List UInt8) → PC × Cons × List UInt8
  | 0, s, got => (.ret target got target, s, [])
  | n + 1, s, got =>
    if s.r = s.w then
      if killed then (.ret target got (-1), s, []) else (.sleeping target (n + 1) got, s, [])
    else
      let c := s.buf (s.r % INPUT_BUF_SIZE)
      let s := { s with r := inc s.r }
      if c = ctrlD then
        -- Save ^D for next time, to make sure caller gets a 0-byte result.
        if n + 1 < target then (.ret target got (target - (n + 1) : Nat), { s with r := dec s.r }, [])
        else (.ret target got (target - (n + 1) : Nat), s, [c])
      else if c = NL then (.ret target (got ++ [c]) (target - n : Nat), s, [c])
      else
        let (pc, s, took) := s.readLoop killed target n (got ++ [c])
        (pc, s, c :: took)

/-- The console and the processes `P` that read from it. -/
structure State (P : Type) where
  cons : Cons
  pc : P → PC
  killed : P → Bool
  committed : List UInt8
  taken : List ((P × Nat) × UInt8)
  calls : P → Nat

/-- `wakeup(&cons.r)`, or `kill`. -/
def PC.wake : PC → PC
  | .sleeping target n got => .woken target n got
  | pc => pc

inductive Event (P : Type) where
  | input (c : UInt8)
  | read (p : P) (n : Nat)
  | go (p : P)
  | kill (p : P)

namespace State

variable {P : Type} [DecidableEq P]

def intr (s : State P) (c : UInt8) : State P :=
  let (cons, wake) := s.cons.consoleintr c
  if wake then
    { s with
      cons := cons, pc := fun p => (s.pc p).wake
      committed := s.committed ++ cons.between s.cons.w cons.w }
  else { s with cons := cons }

/-- Process `p` is in the loop of `consoleread`. -/
def readOn (s : State P) (p : P) (target n : Nat) (got : List UInt8) : State P :=
  let (pc, cons, took) := s.cons.readLoop (s.killed p) target n got
  { s with
    cons := cons, pc := Function.update s.pc p pc
    taken := s.taken ++ took.map fun c => ((p, s.calls p), c) }

/-- The next step of process `p`. -/
def go (s : State P) (p : P) : Option (State P) :=
  match s.pc p with
  | .woken target n got => some (s.readOn p target n got)
  | .ret .. => some { s with pc := Function.update s.pc p .idle }
  | _ => none

end State

def machine (P : Type) [DecidableEq P] : Machine (State P) (Event P) where
  init s := s.cons.r = 0 ∧ s.cons.w = 0 ∧ s.cons.e = 0 ∧ (∀ p, s.pc p = .idle) ∧
    s.committed = [] ∧ s.taken = []
  next s
    | .input c => some (s.intr c)
    | .read p n =>
      if s.pc p = .idle then
        some ({ s with calls := Function.update s.calls p (s.calls p + 1) }.readOn p n n [])
      else none
    | .go p => s.go p
    | .kill p => some { s with
        killed := Function.update s.killed p true, pc := Function.update s.pc p (s.pc p).wake }

/-! ## The lines in the ring -/

theorem Cons.between_ring {s : Cons} {i j : Nat} {q : List UInt8}
    (h : RingQueue INPUT_BUF_SIZE (2 ^ 32) s.buf i j q) : s.between i j = q :=
  (h.eq_map (by decide)).symm

/-- The ring holds `ready`, which can be read, and the line `edit` that is
being typed. -/
structure Cons.Holds (s : Cons) (ready edit : List UInt8) : Prop where
  ring : RingQueue INPUT_BUF_SIZE (2 ^ 32) s.buf s.r s.e (ready ++ edit)
  w : s.w = (s.r + ready.length) % 2 ^ 32
  line : ∀ c ∈ edit, c ≠ NL
  full : (ready ++ edit).length = INPUT_BUF_SIZE → edit = []

namespace Cons.Holds

variable {s : Cons} {ready edit : List UInt8}

theorem le (h : s.Holds ready edit) : ready.length + edit.length ≤ 128 :=
  List.length_append ▸ h.ring.length_le

theorem e (h : s.Holds ready edit) : s.e = (s.r + (ready.length + edit.length)) % 2 ^ 32 := by
  rw [h.ring.tail_eq, List.length_append]

theorem w_r (h : s.Holds ready edit) : diff s.w s.r = ready.length := by
  have hr := h.ring.head_lt
  have hle := h.le
  rw [h.w, diff]
  omega

theorem e_r (h : s.Holds ready edit) : diff s.e s.r = ready.length + edit.length := by
  have hr := h.ring.head_lt
  have hle := h.le
  rw [h.e, diff]
  omega

theorem e_w (h : s.Holds ready edit) : diff s.e s.w = edit.length := by
  have hr := h.ring.head_lt
  have hle := h.le
  rw [h.e, h.w, diff]
  omega

theorem e_eq_w (h : s.Holds ready edit) : s.e = s.w ↔ edit = [] := by
  have hr := h.ring.head_lt
  have hle := h.le
  rw [h.e, h.w, ← List.length_eq_zero_iff]
  omega

theorem r_eq_w (h : s.Holds ready edit) : s.r = s.w ↔ ready = [] := by
  have hr := h.ring.head_lt
  have hle := h.le
  rw [h.w, ← List.length_eq_zero_iff]
  omega

theorem between_eq (h : s.Holds ready edit) :
    s.between s.r s.w = ready ∧ s.between s.w s.e = edit := by
  obtain ⟨hready, hedit⟩ := h.ring.append
  rw [← h.w] at hready hedit
  exact ⟨between_ring hready, between_ring hedit⟩

/-- The last character of the line is erased. -/
theorem erase {c : UInt8} (h : s.Holds ready (edit ++ [c])) :
    s.buf (dec s.e % INPUT_BUF_SIZE) = c ∧ ({ s with e := dec s.e } : Cons).Holds ready edit := by
  have hring := h.ring
  rw [← List.append_assoc] at hring
  obtain ⟨hc, hring⟩ := hring.pull
  refine ⟨hc, hring, h.w, fun x hx => h.line x (List.mem_append_left _ hx), fun hfull => ?_⟩
  have hle := h.le
  simp only [List.length_append, List.length_singleton] at hfull hle
  unfold INPUT_BUF_SIZE at hfull
  omega

theorem killLine (h : s.Holds ready edit) :
    Holds (Cons.killLine edit.length s) ready [] ∧ (Cons.killLine edit.length s).r = s.r ∧
      (Cons.killLine edit.length s).w = s.w ∧ (Cons.killLine edit.length s).buf = s.buf := by
  induction edit using List.reverseRecOn generalizing s with
  | nil => exact ⟨h, rfl, rfl, rfl⟩
  | append_singleton edit c ih =>
    obtain ⟨hc, herase⟩ := h.erase
    have hne : s.e ≠ s.w := by
      intro he
      exact absurd (h.e_eq_w.1 he) (by simp)
    have hnl : s.buf (dec s.e % INPUT_BUF_SIZE) ≠ NL := by
      rw [hc]
      exact h.line c (by simp)
    rw [List.length_append, List.length_singleton, Cons.killLine, if_pos ⟨hne, hnl⟩]
    exact ih herase

/-- A character is stored at the end of the line. -/
theorem store (h : s.Holds ready edit) (hroom : ready.length + edit.length < 128) (c : UInt8) :
    RingQueue INPUT_BUF_SIZE (2 ^ 32) (Function.update s.buf (s.e % INPUT_BUF_SIZE) c) s.r (inc s.e)
      (ready ++ (edit ++ [c])) := by
  have hlen : (ready ++ edit).length < INPUT_BUF_SIZE := by rwa [List.length_append]
  rw [← List.append_assoc]
  exact (h.ring.write (by decide) hlen).push hlen (Function.update_self ..)

/-- It ends the line. -/
theorem commit (h : s.Holds ready edit) (hroom : ready.length + edit.length < 128) (c : UInt8) :
    Holds { s with
      buf := Function.update s.buf (s.e % INPUT_BUF_SIZE) c, e := inc s.e, w := inc s.e }
      (ready ++ (edit ++ [c])) [] ∧
    Cons.between { s with
      buf := Function.update s.buf (s.e % INPUT_BUF_SIZE) c, e := inc s.e, w := inc s.e }
      s.w (inc s.e) = edit ++ [c] := by
  have hring := h.store hroom c
  have hsecond := hring.append.2
  rw [← h.w] at hsecond
  refine ⟨⟨?_, hring.tail_eq, nofun, fun _ => rfl⟩, @between_ring
    { s with buf := Function.update s.buf (s.e % INPUT_BUF_SIZE) c, e := inc s.e, w := inc s.e }
    s.w (inc s.e) _ hsecond⟩
  rw [List.append_nil]
  exact hring

/-- It does not. -/
theorem extend (h : s.Holds ready edit) (hroom : ready.length + edit.length < 128) {c : UInt8}
    (hnl : c ≠ NL) (hfull : diff (inc s.e) s.r ≠ INPUT_BUF_SIZE) :
    Holds { s with buf := Function.update s.buf (s.e % INPUT_BUF_SIZE) c, e := inc s.e }
      ready (edit ++ [c]) := by
  have hring := h.store hroom c
  have hend : inc s.e = (s.r + (ready.length + (edit.length + 1))) % 2 ^ 32 := by
    rw [hring.tail_eq]
    simp only [List.length_append, List.length_singleton]
  have hr := h.ring.head_lt
  refine ⟨hring, h.w, fun x hx => ?_, fun hlen => absurd ?_ hfull⟩
  · rcases List.mem_append.1 hx with hx | hx
    · exact h.line x hx
    · rw [List.mem_singleton.1 hx]
      exact hnl
  · simp only [List.length_append, List.length_singleton] at hlen
    rw [hend, diff, hlen]
    unfold INPUT_BUF_SIZE
    omega

/-- What a character typed does: it changes the line, or ends it. -/
theorem consoleintr (h : s.Holds ready edit) (c : UInt8) :
    (s.consoleintr c).1.r = s.r ∧
    (((s.consoleintr c).2 = false ∧ (s.consoleintr c).1.w = s.w ∧
        ∃ edit', (s.consoleintr c).1.Holds ready edit') ∨
      ((s.consoleintr c).2 = true ∧ c ≠ ctrlH ∧ c ≠ DEL ∧ c ≠ ctrlU ∧
        ∃ c', (s.consoleintr c).1.Holds (ready ++ (edit ++ [c'])) [] ∧
          (s.consoleintr c).1.between s.w (s.consoleintr c).1.w = edit ++ [c'])) := by
  unfold Cons.consoleintr
  by_cases hP : c = ctrlP
  · rw [if_pos hP]
    exact ⟨rfl, .inl ⟨rfl, rfl, edit, h⟩⟩
  rw [if_neg hP]
  by_cases hU : c = ctrlU
  · rw [if_pos hU, h.e_w]
    obtain ⟨hk, hr, hw, -⟩ := h.killLine
    exact ⟨hr, .inl ⟨rfl, hw, [], hk⟩⟩
  rw [if_neg hU]
  by_cases hH : c = ctrlH ∨ c = DEL
  · rw [if_pos hH]
    by_cases hne : s.e ≠ s.w
    · rw [if_pos hne]
      refine ⟨r_with_e s _, .inl ⟨rfl, w_with_e s _, ?_⟩⟩
      rcases List.eq_nil_or_concat' edit with rfl | ⟨edit', x, rfl⟩
      · exact absurd (h.e_eq_w.2 rfl) hne
      · exact ⟨edit', h.erase.2⟩
    · rw [if_neg hne]
      exact ⟨rfl, .inl ⟨rfl, rfl, edit, h⟩⟩
  rw [if_neg hH]
  by_cases hroom : c ≠ 0 ∧ diff s.e s.r < INPUT_BUF_SIZE
  · rw [if_pos hroom]
    have hlen : ready.length + edit.length < 128 := h.e_r ▸ hroom.2
    obtain ⟨hH, hDEL⟩ := not_or.1 hH
    obtain ⟨c', hc'⟩ : ∃ c', c' = if c = CR then NL else c := ⟨_, rfl⟩
    dsimp only
    rw [← hc']
    by_cases hend : c' = NL ∨ c' = ctrlD ∨ diff (inc s.e) s.r = INPUT_BUF_SIZE
    · rw [if_pos hend]
      exact ⟨rfl, .inr ⟨rfl, hH, hDEL, hU, c', h.commit hlen c'⟩⟩
    · rw [if_neg hend]
      obtain ⟨hnl, hno⟩ := not_or.1 hend
      exact ⟨rfl, .inl ⟨rfl, rfl, _, h.extend hlen hnl (not_or.1 hno).2⟩⟩
  · rw [if_neg hroom]
    exact ⟨rfl, .inl ⟨rfl, rfl, edit, h⟩⟩

/-- A character is taken out. -/
theorem take {c : UInt8} (h : s.Holds (c :: ready) edit) :
    s.buf (s.r % INPUT_BUF_SIZE) = c ∧ ({ s with r := inc s.r } : Cons).Holds ready edit ∧
      dec (inc s.r) = s.r := by
  obtain ⟨hc, hring⟩ := h.ring.pop
  have hr := h.ring.head_lt
  have hw := h.w
  rw [List.length_cons] at hw
  refine ⟨hc, ⟨hring, ?_, h.line, fun hfull => h.full ?_⟩, ?_⟩
  · show s.w = (inc s.r + ready.length) % 2 ^ 32
    rw [hw, inc]
    omega
  · have hle := h.le
    rw [List.length_append, INPUT_BUF_SIZE] at hfull
    rw [List.length_cons] at hle
    omega
  · unfold dec inc
    omega

end Cons.Holds

/-! ## What a read gets -/

/-- No line ends in these characters. -/
def Plain (got : List UInt8) : Prop := ∀ c ∈ got, c ≠ NL ∧ c ≠ ctrlD

/-- A read of `target` bytes has got `got`, taken out `took` and returned `r`,
with `ready` left to read: it was killed, it got all it asked for, a line or
what is before a ^D, or it found a ^D first. -/
inductive Ended (target : Nat) (got took ready : List UInt8) : Int → Prop where
  | killed : took = got → Plain got → got.length < target → Ended target got took ready (-1)
  | full : took = got → Plain got → got.length = target → Ended target got took ready got.length
  | line (l : List UInt8) : took = got → got = l ++ [NL] → Plain l → got.length ≤ target →
      Ended target got took ready got.length
  | before : took = got → Plain got → got ≠ [] → got.length < target → ready.head? = some ctrlD →
      Ended target got took ready got.length
  | eof : took = [ctrlD] → got = [] → 0 < target → Ended target got took ready got.length

/-- What the loop of `consoleread` has done, when it began with `got`. -/
def LoopDone (target : Nat) (got took ready : List UInt8) : PC → Prop
  | .idle | .woken .. => False
  | .sleeping target' n got' => target' = target ∧ 0 < n ∧ got'.length + n = target ∧ Plain got' ∧
      got' = got ++ took ∧ ready = []
  | .ret target' got' r => target' = target ∧ Ended target got' (got ++ took) ready r

theorem LoopDone.cons {target : Nat} {got took ready : List UInt8} {c : UInt8} {pc : PC}
    (h : LoopDone target (got ++ [c]) took ready pc) : LoopDone target got (c :: took) ready pc := by
  cases pc with
  | idle => exact h
  | woken target' n got' => exact h
  | sleeping target' n got' => simpa [LoopDone] using h
  | ret target' got' r => simpa [LoopDone] using h

theorem Cons.Holds.readLoop {s : Cons} {ready edit : List UInt8} {killed : Bool} {target n : Nat}
    {got : List UInt8} (h : s.Holds ready edit) (hn : got.length + n = target)
    (hgot : Plain got) : ∃ ready',
      ready = (s.readLoop killed target n got).2.2 ++ ready' ∧
      (s.readLoop killed target n got).2.1.Holds ready' edit ∧
      (s.readLoop killed target n got).2.1.w = s.w ∧
      LoopDone target got (s.readLoop killed target n got).2.2 ready'
        (s.readLoop killed target n got).1 := by
  induction n generalizing s ready got with
  | zero =>
    obtain rfl : got.length = target := hn
    refine ⟨ready, rfl, h, rfl, rfl, ?_⟩
    show Ended got.length got (got ++ []) ready got.length
    rw [List.append_nil]
    exact .full rfl hgot rfl
  | succ n ih =>
    unfold Cons.readLoop
    split
    next he =>
      obtain rfl := h.r_eq_w.1 he
      split
      next =>
        refine ⟨[], rfl, h, rfl, rfl, ?_⟩
        rw [List.append_nil]
        exact .killed rfl hgot (by omega)
      next =>
        exact ⟨[], rfl, h, rfl, rfl, Nat.succ_pos n, hn, hgot, (List.append_nil got).symm, rfl⟩
    next hne =>
      cases ready with
      | nil => exact absurd (h.r_eq_w.2 rfl) hne
      | cons c ready =>
        obtain ⟨hc, htake, hback⟩ := h.take
        rw [hc]
        dsimp only
        split
        next hD =>
          subst hD
          have hlen : target - (n + 1) = got.length := by omega
          rw [hlen]
          split
          next hlt =>
            rw [hback]
            refine ⟨ctrlD :: ready, rfl, h, rfl, rfl, ?_⟩
            rw [List.append_nil]
            refine .before rfl hgot ?_ (by omega) rfl
            rintro rfl
            simp only [List.length_nil] at hn
            omega
          next hge =>
            have hnil : got = [] := List.length_eq_zero_iff.1 (by omega)
            subst hnil
            exact ⟨ready, rfl, htake, rfl, rfl, .eof rfl rfl (by omega)⟩
        next hD =>
          split
          next hNL =>
            subst hNL
            have hlen : target - n = (got ++ [NL]).length := by
              rw [List.length_append, List.length_singleton]
              omega
            rw [hlen]
            refine ⟨ready, rfl, htake, rfl, rfl, .line got rfl rfl hgot ?_⟩
            rw [List.length_append, List.length_singleton]
            omega
          next hNL =>
            have hgot' : Plain (got ++ [c]) := by
              intro x hx
              rcases List.mem_append.1 hx with hx | hx
              · exact hgot x hx
              · rw [List.mem_singleton.1 hx]
                exact ⟨hNL, hD⟩
            obtain ⟨ready', hsplit, hs, hw, hdone⟩ := @ih { s with r := inc s.r } ready (got ++ [c])
              htake (by rw [List.length_append, List.length_singleton]; omega) hgot'
            exact ⟨ready', congrArg (c :: ·) hsplit, hs, hw, hdone.cons⟩

end Xv6.Console
