/-
sh.c: the parser accepts the grammar, and builds its trees.

What a function does depends on the tokens of the rest of the string. Words and
redirections are parsed item by item; from there on the parser follows the
derivation, and where there is none it panics.
-/
import Xv6.Shell
import Mathlib.Data.List.Forall2

namespace Xv6.Shell

open Conc

/-- The command with pointers into `b` has the strings of the other. -/
inductive Means (b : List UInt8) : Cmd Ptr → Cmd (List UInt8) → Prop
  | exec {argv : List Ptr} {ws : List (List UInt8)} (h : List.Forall₂ (Points b) argv ws) :
      Means b (.exec argv) (.exec ws)
  | redir {c : Cmd Ptr} {t : Cmd (List UInt8)} {p : Ptr} {f : List UInt8} {mode fd : Nat}
      (h : Means b c t) (hp : Points b p f) : Means b (.redir c p mode fd) (.redir t f mode fd)
  | pipe {c c' : Cmd Ptr} {t t' : Cmd (List UInt8)} (h : Means b c t) (h' : Means b c' t') :
      Means b (.pipe c c') (.pipe t t')
  | list {c c' : Cmd Ptr} {t t' : Cmd (List UInt8)} (h : Means b c t) (h' : Means b c' t') :
      Means b (.list c c') (.list t t')
  | back {c : Cmd Ptr} {t : Cmd (List UInt8)} (h : Means b c t) : Means b (.back c) (.back t)

variable {b : List UInt8} {s argc : Nat} {c c' : Cmd Ptr} {t : Cmd (List UInt8)} {p : Ptr}
  {w f : List UInt8} {ts rts toks rest : List Token} {ws : List (List UInt8)} {rs : List Redir}
  {op : Token} {mode fd n : Nat}

theorem Means.addArg (h : Means b c t) (hp : Points b p w) :
    Means b (c.addArg p) (t.addArg w) := by
  induction h with
  | exec h => exact .exec (List.rel_append h (.cons hp .nil))
  | redir _ hf ih => exact .redir ih hf
  | pipe h h' => exact .pipe h h'
  | list h h' => exact .list h h'
  | back h => exact .back h

theorem Means.redirect (h : Means b c t) (hp : Points b p f) (hop : op.mode = some (mode, fd)) :
    Means b (c.redirect op.code p) (.redir t f mode fd) := by
  cases op with
  | less | greater | append =>
    obtain ⟨rfl, rfl⟩ := Prod.mk.inj (Option.some.inj hop)
    exact .redir h hp
  | word | bar | lparen | rparen | semi | amp => cases hop

theorem Means.iterate_back (h : Means b c t) (n : Nat) :
    Means b (Cmd.back^[n] c) (Cmd.back^[n] t) := by
  induction n generalizing c t with
  | zero => exact h
  | succ n ih => exact ih (.back h)

def addArgs (t : Cmd (List UInt8)) (ws : List (List UInt8)) : Cmd (List UInt8) :=
  ws.foldl (fun t w => Cmd.addArg w t) t

theorem addArgs_redir (t : Cmd (List UInt8)) (ws : List (List UInt8)) :
    addArgs (.redir t f mode fd) ws = .redir (addArgs t ws) f mode fd := by
  induction ws generalizing t with
  | nil => rfl
  | cons w ws ih => exact ih (t.addArg w)

theorem addArgs_exec (argv ws : List (List UInt8)) :
    addArgs (.exec argv) ws = .exec (argv ++ ws) := by
  induction ws generalizing argv with
  | nil => simp [addArgs]
  | cons w ws ih =>
    refine (ih (argv ++ [w])).trans ?_
    rw [List.append_assoc]
    rfl

/-! ## Loops -/

theorem parseback_ends (hb : 0 ∉ b) (h : Rest b s (List.replicate n .amp ++ rest))
    (hrest : startsIn [amp] rest = false) :
    ∃ s', Ends (fun fuel => parseback (b ++ [0]) b.length fuel c s) (.ok (Cmd.back^[n] c, s')) ∧
      Rest b s' rest := by
  induction n generalizing c s with
  | zero =>
    obtain ⟨s', hpeek, h', -⟩ := peek_spec hb h [amp] (by simp [symbols])
    refine ⟨s', .succ (.of_forall fun fuel => ?_), h'⟩
    simp only [List.replicate_zero, List.nil_append, hrest] at hpeek
    simp only [parseback, hpeek, bind, Except.bind]
    rfl
  | succ n ih =>
    obtain ⟨s₁, hpeek, h₁, -⟩ := peek_spec hb h [amp] (by simp [symbols])
    obtain ⟨p, s₂, htok, h₂, -⟩ := gettoken_cons hb h₁
    obtain ⟨s', hends, h'⟩ := ih (c := .back c) h₂
    refine ⟨s', .succ ?_, h'⟩
    have hmore : startsIn [amp] (List.replicate (n + 1) .amp ++ rest) = true := rfl
    rw [hmore] at hpeek
    simp only [parseback, hpeek, htok, bind, Except.bind, if_true]
    exact hends

theorem exists_amps (toks : List Token) :
    ∃ n rest, toks = List.replicate n .amp ++ rest ∧ startsIn [amp] rest = false := by
  induction toks with
  | nil => exact ⟨0, [], rfl, rfl⟩
  | cons t toks ih =>
    cases t with
    | amp =>
      obtain ⟨n, rest, rfl, hrest⟩ := ih
      exact ⟨n + 1, rest, rfl, hrest⟩
    | word | bar | lparen | rparen | semi | less | greater | append =>
      exact ⟨0, _, rfl, rfl⟩

theorem mode_startsIn (hop : op.mode = some (mode, fd)) (ts : List Token) :
    startsIn [less, greater] (op :: ts) = true := by
  cases op with
  | less | greater | append => rfl
  | word | bar | lparen | rparen | semi | amp => cases hop

/-- One redirection. -/
theorem parseredirs_step (hb : 0 ∉ b) (h : Rest b s (op :: .word f :: ts))
    (hop : op.mode = some (mode, fd)) (hc : Means b c t) :
    ∃ c' s', (∀ r, Ends (fun fuel => parseredirs (b ++ [0]) b.length fuel c' s') r →
        Ends (fun fuel => parseredirs (b ++ [0]) b.length fuel c s) r) ∧ Rest b s' ts ∧
      Means b c' (.redir t f mode fd) := by
  obtain ⟨s₁, hpeek, h₁, -⟩ := peek_spec hb h [less, greater] (by simp [symbols])
  obtain ⟨p₁, s₂, htok, h₂, -⟩ := gettoken_cons hb h₁
  obtain ⟨p₂, s₃, htok', h₃, hpoints⟩ := gettoken_cons hb h₂
  refine ⟨c.redirect op.code p₂, s₃, fun r hends => .succ ?_, h₃, hc.redirect (hpoints f rfl) hop⟩
  rw [mode_startsIn hop] at hpeek
  simp only [parseredirs, hpeek, htok, htok', bind, Except.bind, if_true, Token.code]
  exact hends

theorem parseredirs_none (hb : 0 ∉ b) (h : Rest b s rest)
    (hrest : startsIn [less, greater] rest = false) :
    ∃ s', Ends (fun fuel => parseredirs (b ++ [0]) b.length fuel c s) (.ok (c, s')) ∧
      Rest b s' rest := by
  obtain ⟨s', hpeek, h', -⟩ := peek_spec hb h [less, greater] (by simp [symbols])
  refine ⟨s', .succ (.of_forall fun fuel => ?_), h'⟩
  rw [hrest] at hpeek
  simp only [parseredirs, hpeek, bind, Except.bind]
  rfl

/-- A redirection without a file. -/
theorem parseredirs_panic (hb : 0 ∉ b) (h : Rest b s (op :: rest))
    (hop : op.mode = some (mode, fd)) (hrest : ∀ f r, rest ≠ .word f :: r) :
    Ends (fun fuel => parseredirs (b ++ [0]) b.length fuel c s)
      (.error (.panic "missing file for redirection")) := by
  obtain ⟨s₁, hpeek, h₁, -⟩ := peek_spec hb h [less, greater] (by simp [symbols])
  obtain ⟨p₁, s₂, htok, h₂, -⟩ := gettoken_cons hb h₁
  rw [mode_startsIn hop] at hpeek
  refine .succ (.of_forall fun fuel => ?_)
  cases rest with
  | nil =>
    obtain ⟨p₂, s₃, htok', -⟩ := gettoken_nil h₂
    simp only [parseredirs, hpeek, htok, htok', bind, Except.bind, if_true]
    rfl
  | cons t' rest =>
    obtain ⟨p₂, s₃, htok', -⟩ := gettoken_cons hb h₂
    have hcode : t'.code ≠ letter := by
      cases t' with
      | word f => exact absurd rfl (hrest f rest)
      | bar | lparen | rparen | semi | amp | less | greater | append => decide
    simp only [parseredirs, hpeek, htok, htok', bind, Except.bind, if_true, if_pos hcode]

/-! ## Words and redirections -/

/-- How `parseredirs` and then the loop of `parseexec` end. -/
inductive Goes (b : List UInt8) (c : Cmd Ptr) (argc s : Nat) :
    Except Stop (Cmd Ptr × Nat) → Prop
  | args {c' : Cmd Ptr} {s' : Nat} {r : Except Stop (Cmd Ptr × Nat)}
      (h : Ends (fun fuel => parseredirs (b ++ [0]) b.length fuel c s) (.ok (c', s')))
      (h' : Ends (fun fuel => parseargs (b ++ [0]) b.length fuel c' argc s') r) :
      Goes b c argc s r
  | stops {e : Stop}
      (h : Ends (fun fuel => parseredirs (b ++ [0]) b.length fuel c s) (.error e)) :
      Goes b c argc s (.error e)

theorem Goes.ends {r : Except Stop (Cmd Ptr × Nat)} (h : Goes b c argc s r) :
    Ends (fun fuel => parseredirs (b ++ [0]) b.length fuel c s >>= fun x =>
      parseargs (b ++ [0]) b.length fuel x.1 argc x.2) r := by
  cases h with
  | args h h' => exact h.bind h'
  | stops h => exact h.bind_error

/-- The next token is none, or starts with one of these. -/
def Follows (tks : List UInt8) (rest : List Token) : Prop := rest = [] ∨ startsIn tks rest = true

theorem goes_word (hb : 0 ∉ b) (h : Rest b s (.word w :: ts)) (c : Cmd Ptr) (argc : Nat) :
    ∃ p s', Rest b s' ts ∧ Points b p w ∧
      ∀ r, (argc + 1 < MAXARGS → Goes b (c.addArg p) (argc + 1) s' r) →
        (¬ argc + 1 < MAXARGS → r = .error (.panic "too many args")) → Goes b c argc s r := by
  obtain ⟨s₁, hredirs, h₁⟩ := parseredirs_none (c := c) hb h rfl
  obtain ⟨s₂, hpeek, h₂, -⟩ := peek_spec hb h₁ [bar, rparen, amp, semi] (by simp [symbols])
  obtain ⟨p, s₃, htok, h₃, hpoints⟩ := gettoken_cons hb h₂
  have hzero : letter ≠ 0 := by decide
  refine ⟨p, s₃, h₃, hpoints w rfl, fun r hgoes hpanic => .args hredirs (.succ ?_)⟩
  simp only [parseargs, hpeek, startsIn, htok, Token.code, bind, Except.bind, hzero, if_false,
    ne_eq, not_true_eq_false, ge_iff_le]
  by_cases hlt : argc + 1 < MAXARGS
  · simp only [Nat.not_le.2 hlt, if_false]
    exact (hgoes hlt).ends
  · simp only [Nat.not_lt.1 hlt, if_true]
    exact .of_forall fun _ => (hpanic hlt).symm

/-- The items are parsed, and more arguments and redirections are there. -/
theorem goes_items (hb : 0 ∉ b) (hi : Items ts ws rs) (h : Rest b s (ts ++ rest))
    (hc : Means b c t) (argc : Nat) (hargc : argc + ws.length < MAXARGS) :
    ∃ c' s', Rest b s' rest ∧ Means b c' ((addArgs t ws).wrap rs) ∧
      ∀ r, Goes b c' (argc + ws.length) s' r → Goes b c argc s r := by
  induction hi generalizing s c t argc with
  | nil => exact ⟨c, s, h, hc, fun _ hr => hr⟩
  | @word w ts ws rs hi ih =>
    obtain ⟨p, s₁, h₁, hp, hword⟩ := goes_word hb h c argc
    rw [List.length_cons] at hargc
    obtain ⟨c', s', h', hc', hgoes⟩ := ih h₁ (hc.addArg hp) (argc + 1) (by omega)
    refine ⟨c', s', h', hc', fun r hr => hword r (fun _ => hgoes r ?_) fun hlt => ?_⟩
    · rw [Nat.add_right_comm]
      exact hr
    · omega
  | redir hop hi ih =>
    obtain ⟨c₁, s₁, hstep, h₁, hc₁⟩ := parseredirs_step hb h hop hc
    obtain ⟨c', s', h', hc', hgoes⟩ := ih h₁ hc₁ argc hargc
    rw [addArgs_redir] at hc'
    refine ⟨c', s', h', hc', fun r hr => ?_⟩
    cases hgoes r hr with
    | args hends hargs => exact .args (hstep _ hends) hargs
    | stops hends => exact .stops (hstep _ hends)

/-- The loop ends before what may follow. -/
theorem goes_follows (hb : 0 ∉ b) (h : Rest b s rest)
    (hrest : Follows [bar, rparen, amp, semi] rest) :
    ∃ s', Goes b c argc s (.ok (c, s')) ∧ Rest b s' rest := by
  have hnone : startsIn [less, greater] rest = false := by
    rcases hrest with rfl | hrest
    · rfl
    · cases rest with
      | nil => rfl
      | cons t rest =>
        cases t with
        | word | bar | lparen | rparen | semi | amp => rfl
        | less | greater | append => cases hrest
  obtain ⟨s₁, hredirs, h₁⟩ := parseredirs_none (c := c) hb h hnone
  obtain ⟨s₂, hpeek, h₂, -⟩ := peek_spec hb h₁ [bar, rparen, amp, semi] (by simp [symbols])
  rcases hrest with rfl | hrest
  · obtain ⟨p, s₃, htok, h₃⟩ := gettoken_nil h₂
    refine ⟨s₃, .args hredirs (.succ (.of_forall fun fuel => ?_)), h₃⟩
    simp only [parseargs, hpeek, startsIn, htok, bind, Except.bind, if_true]
    rfl
  · refine ⟨s₂, .args hredirs (.succ (.of_forall fun fuel => ?_)), h₂⟩
    rw [hrest] at hpeek
    simp only [parseargs, hpeek, bind, Except.bind, if_true]
    rfl

/-- What cannot come after items, when `k` more words may. -/
inductive Blocked : (k : Nat) → List Token → Prop
  | lparen {k : Nat} {rest : List Token} : Blocked k (.lparen :: rest)
  | redir {k mode fd : Nat} {op : Token} {rest : List Token} (hop : op.mode = some (mode, fd))
      (h : ∀ f r, rest ≠ .word f :: r) : Blocked k (op :: rest)
  | full {w : List UInt8} {rest : List Token} : Blocked 0 (.word w :: rest)

theorem goes_blocked {k : Nat} (hb : 0 ∉ b) (h : Rest b s rest) (hrest : Blocked k rest)
    (c : Cmd Ptr) (argc : Nat) (hk : argc + 1 + k = MAXARGS) : ∃ msg, Goes b c argc s (.error (.panic msg)) := by
  cases hrest with
  | lparen =>
    obtain ⟨s₁, hredirs, h₁⟩ := parseredirs_none (c := c) hb h rfl
    obtain ⟨s₂, hpeek, h₂, -⟩ := peek_spec hb h₁ [bar, rparen, amp, semi] (by simp [symbols])
    obtain ⟨p, s₃, htok, -⟩ := gettoken_cons hb h₂
    refine ⟨"syntax", .args hredirs (.succ (.of_forall fun fuel => ?_))⟩
    simp only [parseargs, hpeek, startsIn, htok, bind, Except.bind]
    rfl
  | redir hop hne => exact ⟨_, .stops (parseredirs_panic hb h hop hne)⟩
  | full =>
    obtain ⟨p, s', -, -, hword⟩ := goes_word hb h c argc
    refine ⟨_, hword _ (fun hlt => ?_) fun _ => rfl⟩
    omega

/-- As many items as there are, with at most `k` words. -/
theorem exists_items (k : Nat) (toks : List Token) : ∃ ts ws rs rest, toks = ts ++ rest ∧
    Items ts ws rs ∧ ws.length ≤ k ∧
    (Follows [bar, rparen, amp, semi] rest ∨ Blocked (k - ws.length) rest) := by
  induction hn : toks.length using Nat.strongRecOn generalizing toks k with
  | _ n ih =>
    subst hn
    have hredir : ∀ {op : Token} {mode fd : Nat} (rest : List Token), toks = op :: rest →
        op.mode = some (mode, fd) → ∃ ts ws rs rest, toks = ts ++ rest ∧ Items ts ws rs ∧
          ws.length ≤ k ∧
          (Follows [bar, rparen, amp, semi] rest ∨ Blocked (k - ws.length) rest) := by
      rintro op mode fd rest rfl hop
      by_cases hword : ∃ f r, rest = .word f :: r
      · obtain ⟨f, r, rfl⟩ := hword
        obtain ⟨ts, ws, rs, rest, rfl, hi, hlen, hrest⟩ :=
          ih r.length (by simp only [List.length_cons]; omega) k r rfl
        exact ⟨op :: .word f :: ts, ws, _, rest, rfl, .redir hop hi, hlen, hrest⟩
      · refine ⟨[], [], [], _, rfl, .nil, Nat.zero_le k, .inr (.redir hop fun f r heq => ?_)⟩
        exact hword ⟨f, r, heq⟩
    cases toks with
    | nil => exact ⟨[], [], [], [], rfl, .nil, Nat.zero_le k, .inl (.inl rfl)⟩
    | cons t toks =>
      cases t with
      | word w =>
        cases k with
        | zero => exact ⟨[], [], [], _, rfl, .nil, Nat.le_refl 0, .inr .full⟩
        | succ k =>
          obtain ⟨ts, ws, rs, rest, rfl, hi, hlen, hrest⟩ := ih _ (Nat.lt_succ_self _) k toks rfl
          refine ⟨.word w :: ts, w :: ws, rs, rest, rfl, .word hi, Nat.succ_le_succ hlen, ?_⟩
          rw [List.length_cons, Nat.succ_sub_succ]
          exact hrest
      | less | greater | append => exact hredir toks rfl rfl
      | lparen => exact ⟨[], [], [], _, rfl, .nil, Nat.zero_le k, .inr .lparen⟩
      | bar | rparen | semi | amp =>
        exact ⟨[], [], [], _, rfl, .nil, Nat.zero_le k, .inl (.inr rfl)⟩

/-! ## The functions for the symbols -/

theorem ok_bind {ε α β : Type} (a : α) (f : α → Except ε β) : (Except.ok a >>= f) = f a := rfl

/-- The function that parses what derives from a symbol. -/
def parser (b : List UInt8) (fuel : Nat) : Symbol → Nat → Except Stop (Cmd Ptr × Nat)
  | .line => parseline (b ++ [0]) b.length fuel
  | .pipe => parsepipe (b ++ [0]) b.length fuel
  | .exec => parseexec (b ++ [0]) b.length fuel

/-- What may follow what derives from a symbol. -/
def Symbol.follow : Symbol → List UInt8
  | .line => [rparen]
  | .pipe => [rparen, amp, semi]
  | .exec => [bar, rparen, amp, semi]

variable {s₁ : Nat} {e : Stop} {r : Except Stop (Cmd Ptr × Nat)}

theorem parseexec_goes (hb : 0 ∉ b) (h : Rest b s toks) (hno : startsIn [lparen] toks = false) :
    ∃ s', Rest b s' toks ∧ ∀ r, Goes b (.exec []) 0 s' r → Ends (parser b · .exec s) r := by
  obtain ⟨s', hpeek, h', -⟩ := peek_spec hb h [lparen] (by simp [symbols])
  refine ⟨s', h', fun r hgoes => .succ ?_⟩
  rw [hno] at hpeek
  simp only [parser, parseexec, hpeek, ok_bind]
  exact hgoes.ends

/-- A block, up to its line. -/
theorem parseexec_block (hb : 0 ∉ b) (h : Rest b s (.lparen :: toks)) :
    ∃ s', Rest b s' toks ∧
      (∀ e, Ends (parser b · .line s') (.error e) → Ends (parser b · .exec s) (.error e)) ∧
      ∀ c s₁ rest, Ends (parser b · .line s') (.ok (c, s₁)) → Rest b s₁ rest →
        (startsIn [rparen] rest = false →
          Ends (parser b · .exec s) (.error (.panic "syntax - missing )"))) ∧
        ∀ rest', rest = .rparen :: rest' → ∃ s₂, Rest b s₂ rest' ∧
          ∀ r, Ends (fun fuel => parseredirs (b ++ [0]) b.length fuel c s₂) r →
            Ends (parser b · .exec s) r := by
  obtain ⟨s₁, hpeek, h₁, -⟩ := peek_spec hb h [lparen] (by simp [symbols])
  obtain ⟨s₂, hpeek', h₂, -⟩ := peek_spec hb h₁ [lparen] (by simp [symbols])
  obtain ⟨p, s₃, htok, h₃, -⟩ := gettoken_cons hb h₂
  have htrue : startsIn [lparen] (.lparen :: toks) = true := rfl
  rw [htrue] at hpeek hpeek'
  refine ⟨s₃, h₃, fun e he => .succ (.succ ?_), fun c s₄ rest hc h₄ => ⟨fun hno => ?_, ?_⟩⟩
  · simp only [parser, parseexec, parseblock, hpeek, hpeek', htok, ok_bind, if_true]
    exact he.bind_error
  · obtain ⟨s₅, hpeek₅, -⟩ := peek_spec hb h₄ [rparen] (by simp [symbols])
    rw [hno] at hpeek₅
    refine .succ (.succ ?_)
    simp only [parser, parseexec, parseblock, hpeek, hpeek', htok, ok_bind, if_true]
    refine hc.bind (.of_forall fun fuel => ?_)
    simp only [hpeek₅, ok_bind]
    rfl
  · rintro rest' rfl
    obtain ⟨s₅, hpeek₅, h₅, -⟩ := peek_spec hb h₄ [rparen] (by simp [symbols])
    obtain ⟨p', s₆, htok', h₆, -⟩ := gettoken_cons hb h₅
    have htrue' : startsIn [rparen] (.rparen :: rest') = true := rfl
    rw [htrue'] at hpeek₅
    refine ⟨s₆, h₆, fun r hr => .succ (.succ ?_)⟩
    simp only [parser, parseexec, parseblock, hpeek, hpeek', htok, ok_bind, if_true]
    refine hc.bind ?_
    simp only [hpeek₅, htok', ok_bind]
    exact hr

theorem parsepipe_error (h : Ends (parser b · .exec s) (.error e)) :
    Ends (parser b · .pipe s) (.error e) := by
  refine .succ ?_
  simp only [parser, parsepipe]
  exact h.bind_error

theorem parsepipe_single (hb : 0 ∉ b) (hc : Ends (parser b · .exec s) (.ok (c, s₁)))
    (h : Rest b s₁ rest) (hno : startsIn [bar] rest = false) :
    ∃ s', Rest b s' rest ∧ Ends (parser b · .pipe s) (.ok (c, s')) := by
  obtain ⟨s', hpeek, h', -⟩ := peek_spec hb h [bar] (by simp [symbols])
  rw [hno] at hpeek
  refine ⟨s', h', .succ ?_⟩
  simp only [parser, parsepipe]
  refine hc.bind (.of_forall fun fuel => ?_)
  simp only [hpeek, ok_bind]
  rfl

theorem parsepipe_bar (hb : 0 ∉ b) (hc : Ends (parser b · .exec s) (.ok (c, s₁)))
    (h : Rest b s₁ (.bar :: rest)) : ∃ s', Rest b s' rest ∧
      (∀ e, Ends (parser b · .pipe s') (.error e) → Ends (parser b · .pipe s) (.error e)) ∧
      ∀ c' s₂, Ends (parser b · .pipe s') (.ok (c', s₂)) →
        Ends (parser b · .pipe s) (.ok (.pipe c c', s₂)) := by
  obtain ⟨s₂, hpeek, h₂, -⟩ := peek_spec hb h [bar] (by simp [symbols])
  obtain ⟨p, s₃, htok, h₃, -⟩ := gettoken_cons hb h₂
  have htrue : startsIn [bar] (.bar :: rest) = true := rfl
  rw [htrue] at hpeek
  refine ⟨s₃, h₃, fun e he => .succ ?_, fun c' s₄ hc' => .succ ?_⟩
  · simp only [parser, parsepipe]
    refine hc.bind ?_
    simp only [hpeek, htok, ok_bind, if_true]
    exact he.bind_error
  · simp only [parser, parsepipe]
    refine hc.bind ?_
    simp only [hpeek, htok, ok_bind, if_true]
    exact hc'.bind (.of_forall fun _ => rfl)

theorem parseline_error (h : Ends (parser b · .pipe s) (.error e)) :
    Ends (parser b · .line s) (.error e) := by
  refine .succ ?_
  simp only [parser, parseline]
  exact h.bind_error

theorem parseline_single (hb : 0 ∉ b) (hc : Ends (parser b · .pipe s) (.ok (c, s₁)))
    (h : Rest b s₁ (List.replicate n .amp ++ rest)) (hamp : startsIn [amp] rest = false)
    (hno : startsIn [semi] rest = false) :
    ∃ s', Rest b s' rest ∧ Ends (parser b · .line s) (.ok (Cmd.back^[n] c, s')) := by
  obtain ⟨s₂, hback, h₂⟩ := parseback_ends (c := c) hb h hamp
  obtain ⟨s₃, hpeek, h₃, -⟩ := peek_spec hb h₂ [semi] (by simp [symbols])
  rw [hno] at hpeek
  refine ⟨s₃, h₃, .succ ?_⟩
  simp only [parser, parseline]
  refine hc.bind (hback.bind (.of_forall fun fuel => ?_))
  simp only [hpeek, ok_bind]
  rfl

theorem parseline_semi (hb : 0 ∉ b) (hc : Ends (parser b · .pipe s) (.ok (c, s₁)))
    (h : Rest b s₁ (List.replicate n .amp ++ .semi :: rest)) : ∃ s', Rest b s' rest ∧
      (∀ e, Ends (parser b · .line s') (.error e) → Ends (parser b · .line s) (.error e)) ∧
      ∀ c' s₂, Ends (parser b · .line s') (.ok (c', s₂)) →
        Ends (parser b · .line s) (.ok (.list (Cmd.back^[n] c) c', s₂)) := by
  obtain ⟨s₂, hback, h₂⟩ := parseback_ends (c := c) hb h rfl
  obtain ⟨s₃, hpeek, h₃, -⟩ := peek_spec hb h₂ [semi] (by simp [symbols])
  obtain ⟨p, s₄, htok, h₄, -⟩ := gettoken_cons hb h₃
  have htrue : startsIn [semi] (.semi :: rest) = true := rfl
  rw [htrue] at hpeek
  refine ⟨s₄, h₄, fun e he => .succ ?_, fun c' s₅ hc' => .succ ?_⟩
  · simp only [parser, parseline]
    refine hc.bind (hback.bind ?_)
    simp only [hpeek, htok, ok_bind, if_true]
    exact he.bind_error
  · simp only [parser, parseline]
    refine hc.bind (hback.bind ?_)
    simp only [hpeek, htok, ok_bind, if_true]
    exact hc'.bind (.of_forall fun _ => rfl)

end Xv6.Shell
