/-
sh.c: `gettoken` and `peek`.

The string is the list of its bytes; memory has a NUL after them, and a pointer
is an index. `Spelled` says which tokens a string consists of.
-/
import Mathlib.Data.List.TakeWhile
import Mathlib.Tactic.Tauto

namespace Xv6.Shell

/-- What stops the shell; the last stands for loops that go on for longer. -/
inductive Stop where
  | panic (msg : String)
  | fault
  | running

def bar : UInt8 := 0x7c

def lparen : UInt8 := 0x28

def rparen : UInt8 := 0x29

def semi : UInt8 := 0x3b

def amp : UInt8 := 0x26

def less : UInt8 := 0x3c

def greater : UInt8 := 0x3e

def plus : UInt8 := 0x2b

/-- What `gettoken` returns for a word, the letter a. -/
def letter : UInt8 := 0x61

def whitespace : List UInt8 := [0x20, 0x09, 0x0d, 0x0a, 0x0b]

def symbols : List UInt8 := [less, bar, greater, amp, semi, lparen, rparen]

/-- Whether `c` is in a string that has no NUL. -/
def strchr (s : List UInt8) (c : UInt8) : Bool := decide (c ∈ s)

def load (m : List UInt8) (s : Nat) : Except Stop UInt8 :=
  match m[s]? with
  | some c => .ok c
  | none => .error .fault

/-- The loops that advance `s` while the byte there is as `p` says. -/
def skip (m : List UInt8) (es : Nat) (p : UInt8 → Bool) (s : Nat) : Except Stop Nat :=
  if s < es then
    match load m s with
    | .ok c => if p c then skip m es p (s + 1) else .ok s
    | .error e => .error e
  else .ok s
termination_by es - s

/-- The condition of the loop over a word. -/
def inWord (c : UInt8) : Bool := ! strchr whitespace c && ! strchr symbols c

/-- The `switch` of `gettoken`: the token at `q`, and where it ends. -/
def token (m : List UInt8) (es q : Nat) : Except Stop (UInt8 × Nat) := do
  let c ← load m q
  if c = 0 then pure (c, q)
  else if strchr [bar, lparen, rparen, semi, amp, less] c then pure (c, q + 1)
  else if c = greater then do
    let c' ← load m (q + 1)
    if c' = greater then pure (plus, q + 2) else pure (c, q + 1)
  else do
    let eq ← skip m es inWord q
    pure (letter, eq)

/-- The token, where it starts and ends, and where the next one starts. -/
def gettoken (m : List UInt8) (es s : Nat) : Except Stop (UInt8 × (Nat × Nat) × Nat) := do
  let q ← skip m es (strchr whitespace) s
  let (ret, eq) ← token m es q
  let s ← skip m es (strchr whitespace) eq
  pure (ret, (q, eq), s)

def peek (m : List UInt8) (es s : Nat) (toks : List UInt8) : Except Stop (Bool × Nat) := do
  let s ← skip m es (strchr whitespace) s
  let c ← load m s
  pure (c ≠ 0 && strchr toks c, s)

/-! ## Tokens -/

inductive Token where
  | word (w : List UInt8)
  | bar
  | lparen
  | rparen
  | semi
  | amp
  | less
  | greater
  | append

/-- A byte of words. -/
def WordByte (c : UInt8) : Prop := c ∉ whitespace ∧ c ∉ symbols

instance (c : UInt8) : Decidable (WordByte c) := inferInstanceAs (Decidable (_ ∧ _))

namespace Token

def text : Token → List UInt8
  | word w => w
  | bar => [Shell.bar]
  | lparen => [Shell.lparen]
  | rparen => [Shell.rparen]
  | semi => [Shell.semi]
  | amp => [Shell.amp]
  | less => [Shell.less]
  | greater => [Shell.greater]
  | append => [Shell.greater, Shell.greater]

/-- What `gettoken` returns. -/
def code : Token → UInt8
  | word _ => letter
  | bar => Shell.bar
  | lparen => Shell.lparen
  | rparen => Shell.rparen
  | semi => Shell.semi
  | amp => Shell.amp
  | less => Shell.less
  | greater => Shell.greater
  | append => plus

/-- A word has some bytes, all of words. -/
def Valid : Token → Prop
  | word w => w ≠ [] ∧ ∀ c ∈ w, WordByte c
  | _ => True

/-- The token is not longer when the text `l` comes after it. -/
def Stops (l : List UInt8) : Token → Prop
  | word _ => ∀ c ∈ l.head?, ¬ WordByte c
  | greater => ∀ c ∈ l.head?, c ≠ Shell.greater
  | _ => True

end Token

/-- The string is a spelling of the tokens: whitespace may stand anywhere
between them, and must where they would run together. -/
inductive Spelled : List Token → List UInt8 → Prop
  | nil {l : List UInt8} (hl : ∀ c ∈ l, c ∈ whitespace) : Spelled [] l
  | cons {sp l : List UInt8} {t : Token} {ts : List Token} (hsp : ∀ c ∈ sp, c ∈ whitespace)
      (ht : t.Valid) (hstop : t.Stops l) (h : Spelled ts l) :
      Spelled (t :: ts) (sp ++ (t.text ++ l))

variable {b l r w : List UInt8} {t : Token} {ts toks : List Token} {c : UInt8} {s q : Nat}

/-- The bytes of words are those that the loop of `gettoken` takes. -/
theorem inWord_iff : inWord c = true ↔ WordByte c := by
  simp [inWord, strchr, WordByte]

/-- A token starts with a byte that is not whitespace. -/
theorem Token.Valid.text_eq (ht : t.Valid) :
    ∃ c l, t.text = c :: l ∧ c ∉ whitespace ∧ ∀ w, t = word w → WordByte c := by
  cases t with
  | word w =>
    obtain ⟨hne, hall⟩ := ht
    cases w with
    | nil => exact absurd rfl hne
    | cons c w =>
      have hc := hall c List.mem_cons_self
      exact ⟨c, w, rfl, hc.1, fun _ _ => hc⟩
  | bar | lparen | rparen | semi | amp | less | greater | append =>
    exact ⟨_, _, rfl, by decide, nofun⟩

/-- The first token, after the whitespace. -/
theorem Spelled.trim (h : Spelled toks l) : toks = [] ∧ l.dropWhile (strchr whitespace) = [] ∨
    ∃ t ts r, toks = t :: ts ∧ l.dropWhile (strchr whitespace) = t.text ++ r ∧ t.Valid ∧
      t.Stops r ∧ Spelled ts r := by
  cases h with
  | nil hl =>
    refine .inl ⟨rfl, List.dropWhile_eq_nil_iff.2 fun c hc => ?_⟩
    simp [strchr, hl c hc]
  | @cons sp r t ts hsp ht hstop h =>
    refine .inr ⟨t, ts, r, rfl, ?_, ht, hstop, h⟩
    rw [List.dropWhile_append_of_pos fun c hc => by simp [strchr, hsp c hc]]
    obtain ⟨c, l, hc, hspace, -⟩ := ht.text_eq
    rw [hc, List.cons_append, List.dropWhile_cons_of_neg (by simp [strchr, hspace])]

theorem Spelled.dropWhile (h : Spelled toks l) :
    Spelled toks (l.dropWhile (strchr whitespace)) := by
  rcases h.trim with ⟨rfl, hl⟩ | ⟨t, ts, r, rfl, hl, ht, hstop, h⟩
  · rw [hl]
    exact .nil nofun
  · rw [hl]
    exact @Spelled.cons [] _ _ _ nofun ht hstop h

/-- Every string is a spelling of some tokens. -/
theorem exists_spelled (l : List UInt8) : ∃ toks, Spelled toks l := by
  induction hn : l.length using Nat.strongRecOn generalizing l with
  | _ n ih =>
    subst hn
    have hsp : ∀ c ∈ l.takeWhile (strchr whitespace), c ∈ whitespace := fun c hc => by
      simpa [strchr] using List.mem_takeWhile_imp hc
    have hcat := List.takeWhile_append_dropWhile (p := strchr whitespace) (l := l)
    cases hr : l.dropWhile (strchr whitespace) with
    | nil =>
      rw [hr, List.append_nil] at hcat
      exact ⟨[], .nil (hcat ▸ hsp)⟩
    | cons c r =>
      -- a token, when the rest has one less
      have hstep : ∀ (t : Token) (r' : List UInt8), c :: r = t.text ++ r' → t.Valid → t.Stops r' →
          ∃ toks, Spelled toks l := by
        intro t r' htext ht hstop
        obtain ⟨d, t', htt, -⟩ := ht.text_eq
        have hlen : r'.length < l.length := by
          rw [← hcat, hr, htext, htt]
          simp only [List.length_append, List.length_cons]
          omega
        obtain ⟨ts, h⟩ := ih _ hlen r' rfl
        refine ⟨t :: ts, ?_⟩
        rw [← hcat, hr, htext]
        exact .cons hsp ht hstop h
      have hc : c ∉ whitespace := by
        have hhead := List.head_dropWhile_not (strchr whitespace) (l := l) (by simp [hr])
        simpa [hr, strchr] using hhead
      by_cases hsym : c ∈ symbols
      · simp only [symbols, List.mem_cons, List.not_mem_nil, or_false] at hsym
        rcases hsym with rfl | rfl | rfl | rfl | rfl | rfl | rfl
        · exact hstep .less r rfl trivial trivial
        · exact hstep .bar r rfl trivial trivial
        · by_cases hnext : r.head? = some greater
          · obtain ⟨r', rfl⟩ : ∃ r', r = greater :: r' := by
              cases r with
              | nil => cases hnext
              | cons d r =>
                obtain rfl := Option.some.inj hnext
                exact ⟨r, rfl⟩
            exact hstep .append r' rfl trivial trivial
          · refine hstep .greater r rfl trivial fun d hd hgt => hnext ?_
            rw [← hgt]
            exact hd
        · exact hstep .amp r rfl trivial trivial
        · exact hstep .semi r rfl trivial trivial
        · exact hstep .lparen r rfl trivial trivial
        · exact hstep .rparen r rfl trivial trivial
      · have hword := List.takeWhile_append_dropWhile (p := fun c => decide (WordByte c))
          (l := c :: r)
        refine hstep (.word ((c :: r).takeWhile fun c => decide (WordByte c)))
          ((c :: r).dropWhile fun c => decide (WordByte c)) hword.symm ⟨?_, fun d hd => ?_⟩
          fun d hd hword => ?_
        · rw [List.takeWhile_cons_of_pos (by simp [WordByte, hc, hsym])]
          simp
        · simpa using List.mem_takeWhile_imp hd
        · have hnot := List.head?_dropWhile_not (fun c => decide (WordByte c)) (c :: r)
          rw [Option.mem_def.1 hd] at hnot
          simp [hword] at hnot

/-! ## Reading the string -/

/-- The string `b` goes on with `l` at the index `s`. -/
def At (b : List UInt8) (s : Nat) (l : List UInt8) : Prop := ∃ pre, b = pre ++ l ∧ pre.length = s

theorem At.next (h : At b s (c :: l)) : At b (s + 1) l := by
  obtain ⟨pre, rfl, rfl⟩ := h
  exact ⟨pre ++ [c], by simp, by simp⟩

theorem At.append (h : At b s (r ++ l)) : At b (s + r.length) l := by
  obtain ⟨pre, rfl, rfl⟩ := h
  exact ⟨pre ++ r, by simp, by simp⟩

theorem At.load (h : At b s (c :: l)) : load (b ++ [0]) s = .ok c := by
  obtain ⟨pre, rfl, rfl⟩ := h
  simp [Shell.load]

/-- The NUL may be read. -/
theorem At.load_nil (h : At b s []) : Shell.load (b ++ [0]) s = .ok 0 := by
  obtain ⟨pre, rfl, rfl⟩ := h
  simp [Shell.load]

theorem At.lt_iff (h : At b s l) : s < b.length ↔ l ≠ [] := by
  obtain ⟨pre, rfl, rfl⟩ := h
  simp [List.length_pos_iff]

theorem skip_spec {p : UInt8 → Bool} (h : At b s l) :
    skip (b ++ [0]) b.length p s = .ok (s + (l.takeWhile p).length) ∧
      At b (s + (l.takeWhile p).length) (l.dropWhile p) := by
  induction l generalizing s with
  | nil =>
    rw [skip, if_neg fun hlt => h.lt_iff.1 hlt rfl]
    exact ⟨rfl, h⟩
  | cons c l ih =>
    rw [skip, if_pos (h.lt_iff.2 (List.cons_ne_nil c l)), h.load]
    by_cases hp : p c = true
    · obtain ⟨hskip, hat⟩ := ih h.next
      have hlen : s + ((l.takeWhile p).length + 1) = s + 1 + (l.takeWhile p).length := by omega
      rw [List.takeWhile_cons_of_pos hp, List.dropWhile_cons_of_pos hp, List.length_cons, hlen]
      exact ⟨by simp only [hp, if_true, hskip], hat⟩
    · rw [List.takeWhile_cons_of_neg hp, List.dropWhile_cons_of_neg hp]
      exact ⟨by simp [hp], h⟩

theorem exists_skip {p : UInt8 → Bool} (h : At b s l) :
    ∃ s', skip (b ++ [0]) b.length p s = .ok s' ∧ At b s' (l.dropWhile p) :=
  ⟨_, skip_spec h⟩

/-- The text of the string from `s` on is a spelling of the tokens. -/
def Rest (b : List UInt8) (s : Nat) (toks : List Token) : Prop := ∃ l, At b s l ∧ Spelled toks l

/-- The word `w` stands at the pointers, and no byte of a word follows it. -/
def Points (b : List UInt8) (p : Nat × Nat) (w : List UInt8) : Prop :=
  ∃ l, At b p.1 (w ++ l) ∧ p.2 = p.1 + w.length ∧ (∀ c ∈ w, WordByte c) ∧
    ∀ c ∈ l.head?, ¬ WordByte c

/-- The next token is an operator that starts with a byte of `s`. -/
def startsIn (s : List UInt8) : List Token → Bool
  | [] => false
  | .word _ :: _ => false
  | t :: _ => strchr s (t.text.headD 0)

theorem startsIn_cons (hts : ∀ c ∈ r, c ∈ symbols) (ht : t.Valid) (htext : t.text = c :: l) :
    startsIn r (t :: ts) = strchr r c := by
  cases t with
  | word w =>
    obtain rfl : w = c :: l := htext
    have hc := (ht.2 c List.mem_cons_self).2
    exact (decide_eq_false fun hmem => hc (hts c hmem)).symm
  | bar | lparen | rparen | semi | amp | less | greater | append =>
    obtain ⟨rfl, -⟩ := List.cons.inj htext
    rfl

theorem peek_spec (hb : 0 ∉ b) (h : Rest b s toks) (tks : List UInt8)
    (htks : ∀ c ∈ tks, c ∈ symbols) :
    ∃ s', peek (b ++ [0]) b.length s tks = .ok (startsIn tks toks, s') ∧ Rest b s' toks ∧
      (s' = b.length ↔ toks = []) := by
  obtain ⟨l, hat, hsp⟩ := h
  obtain ⟨s', hskip, hat'⟩ := exists_skip (p := strchr whitespace) hat
  rcases hsp.trim with ⟨rfl, hl⟩ | ⟨t, ts, r, rfl, hl, ht, -, -⟩
  · rw [hl] at hat'
    refine ⟨s', ?_, ⟨[], hat', .nil nofun⟩, ⟨fun _ => rfl, fun _ => ?_⟩⟩
    · simp only [peek, hskip, hat'.load_nil, bind, Except.bind]
      rfl
    · obtain ⟨pre, hpre, rfl⟩ := hat'
      rw [hpre, List.append_nil]
  · obtain ⟨c, l', htext, -, -⟩ := ht.text_eq
    have hrest : Rest b s' (t :: ts) := ⟨_, hat', hsp.dropWhile⟩
    rw [hl, htext] at hat'
    have hlt := hat'.lt_iff.2 (List.cons_ne_nil c _)
    refine ⟨s', ?_, hrest, ⟨fun hend => absurd hend (Nat.ne_of_lt hlt), nofun⟩⟩
    have hc : c ≠ 0 := by
      obtain ⟨pre, hpre, -⟩ := hat'
      rintro rfl
      exact hb (by rw [hpre]; simp)
    rw [startsIn_cons htks ht htext]
    simp [peek, hskip, At.load hat', hc, bind, Except.bind, pure, Except.pure]

theorem gettoken_nil (h : Rest b s []) :
    ∃ p s', gettoken (b ++ [0]) b.length s = .ok (0, p, s') ∧ Rest b s' [] := by
  obtain ⟨l, hat, hsp⟩ := h
  obtain ⟨q, hskip, hat'⟩ := exists_skip (p := strchr whitespace) hat
  rcases hsp.trim with ⟨-, hl⟩ | ⟨t, ts, r, hnil, -⟩
  · rw [hl] at hat'
    obtain ⟨s', hskip', hat''⟩ := exists_skip (p := strchr whitespace) hat'
    have htoken : token (b ++ [0]) b.length q = .ok (0, q) := by
      simp only [token, hat'.load_nil, bind, Except.bind]
      rfl
    refine ⟨(q, q), s', ?_, _, hat'', .nil nofun⟩
    simp only [gettoken, hskip, htoken, hskip', bind, Except.bind]
    rfl
  · cases hnil

/-- `token` takes the text of a token. -/
theorem token_spec (hb : 0 ∉ b) (hat : At b q (t.text ++ r)) (ht : t.Valid) (hstop : t.Stops r) :
    token (b ++ [0]) b.length q = .ok (t.code, q + t.text.length) := by
  cases t with
  | word w =>
    obtain ⟨hne, hall⟩ := ht
    obtain ⟨hskip, -⟩ := skip_spec (p := inWord) hat
    have hword : (w ++ r).takeWhile inWord = w := by
      rw [List.takeWhile_append_of_pos fun c hc => inWord_iff.2 (hall c hc)]
      cases r with
      | nil => simp
      | cons c r =>
        rw [List.takeWhile_cons_of_neg fun hc => hstop c rfl (inWord_iff.1 hc), List.append_nil]
    obtain ⟨c, w', rfl⟩ := List.exists_cons_of_ne_nil hne
    have hc := hall c List.mem_cons_self
    have hzero : c ≠ 0 := by
      obtain ⟨pre, hpre, -⟩ := hat
      rintro rfl
      exact hb (by rw [hpre]; simp [Token.text])
    have hop : strchr [bar, lparen, rparen, semi, amp, less] c = false := by
      refine decide_eq_false fun hmem => hc.2 ?_
      simp only [symbols, List.mem_cons, List.not_mem_nil, or_false] at hmem ⊢
      tauto
    have hgt : c ≠ greater := fun hcd => hc.2 (hcd ▸ by decide)
    have hload : load (b ++ [0]) q = .ok c := At.load hat
    rw [Token.text, hword] at hskip
    simp only [token, hload, if_neg hzero, hop, if_neg hgt, hskip, bind, Except.bind]
    rfl
  | bar | lparen | rparen | semi | amp | less =>
    have hload := At.load hat
    simp only [token, hload, bind, Except.bind]
    rfl
  | append =>
    have hload := At.load hat
    have hload' := At.load (At.next hat)
    simp only [token, hload, hload', bind, Except.bind]
    rfl
  | greater =>
    have hload := At.load hat
    cases r with
    | nil =>
      have hload' := At.load_nil (At.next hat)
      simp only [token, hload, hload', bind, Except.bind]
      rfl
    | cons c r =>
      have hload' := At.load (At.next hat)
      have hc : c ≠ greater := hstop c rfl
      simp only [token, hload, hload', bind, Except.bind, if_neg hc]
      rfl

theorem gettoken_cons (hb : 0 ∉ b) (h : Rest b s (t :: ts)) :
    ∃ p s', gettoken (b ++ [0]) b.length s = .ok (t.code, p, s') ∧ Rest b s' ts ∧
      ∀ w, t = .word w → Points b p w := by
  obtain ⟨l, hat, hsp⟩ := h
  obtain ⟨q, hskip, hat'⟩ := exists_skip (p := strchr whitespace) hat
  rcases hsp.trim with ⟨hnil, -⟩ | ⟨t, ts, r, heq, hl, ht, hstop, hrest⟩
  · cases hnil
  · obtain ⟨rfl, rfl⟩ := List.cons.inj heq
    rw [hl] at hat'
    have htoken := token_spec hb hat' ht hstop
    obtain ⟨s', hskip', hat''⟩ := exists_skip (p := strchr whitespace) hat'.append
    refine ⟨(q, q + t.text.length), s', ?_, ⟨_, hat'', hrest.dropWhile⟩, ?_⟩
    · simp only [gettoken, hskip, htoken, hskip', bind, Except.bind]
      rfl
    · rintro w rfl
      exact ⟨r, hat', rfl, ht.2, hstop⟩

end Xv6.Shell
