/-
sh.c: `parsecmd` accepts just the strings of the grammar, and its command has
their trees once `nulterminate` has ended the strings in it.
-/
import Xv6.ShellParse

namespace Xv6.Shell

open Conc

variable {b : List UInt8} {s s₁ argc n : Nat} {c c' : Cmd Ptr} {t t' : Cmd (List UInt8)} {p : Ptr}
  {w : List UInt8} {ts rts toks rest : List Token} {ws : List (List UInt8)} {rs : List Redir}
  {X : Symbol} {r : Except Stop (Cmd Ptr × Nat)} {tks tks' : List UInt8}

/-! ## The next token -/

theorem exists_of_startsIn (t : Token) (ht : t = .bar ∨ t = .lparen ∨ t = .rparen ∨ t = .semi)
    (h : startsIn [t.code] rest = true) : ∃ rest', rest = t :: rest' := by
  cases rest with
  | nil => cases h
  | cons t' rest =>
    refine ⟨rest, ?_⟩
    rcases ht with rfl | rfl | rfl | rfl <;> cases t' <;> first | rfl | cases h

/-- What starts with one byte does not start with another. -/
theorem Follows.not_startsIn (h : Follows tks rest)
    (hdis : tks.all (fun c => ! strchr tks' c) = true) :
    startsIn tks' rest = false := by
  rcases h with rfl | h
  · rfl
  · cases rest with
    | nil => rfl
    | cons t rest =>
      cases t with
      | word => rfl
      | bar | lparen | rparen | semi | amp | less | greater | append =>
        exact (Bool.not_eq_true' _).mp (List.all_eq_true.1 hdis _ (of_decide_eq_true h))

theorem Follows.mono (h : Follows tks rest) (hsub : tks.all (strchr tks') = true) :
    Follows tks' rest := by
  rcases h with rfl | h
  · exact .inl rfl
  · cases rest with
    | nil => cases h
    | cons t rest =>
      refine .inr ?_
      cases t with
      | word => cases h
      | bar | lparen | rparen | semi | amp | less | greater | append =>
        exact List.all_eq_true.1 hsub _ (of_decide_eq_true h)

theorem Items.no_block (h : Items ts ws rs) (hrest : startsIn [lparen] rest = false) :
    startsIn [lparen] (ts ++ rest) = false := by
  cases h with
  | nil => exact hrest
  | word => rfl
  | @redir op _ _ _ _ _ _ hop =>
    cases op with
    | less | greater | append => rfl
    | word | bar | lparen | rparen | semi | amp => cases hop

/-- Redirections are parsed, and wrap the command. -/
theorem redirs_items (hb : 0 ∉ b) (hi : Items rts [] rs) (h : Rest b s (rts ++ rest))
    (hc : Means b c t) : ∃ c' s', Rest b s' rest ∧ Means b c' (t.wrap rs) ∧
      ∀ r, Ends (fun fuel => parseredirs (b ++ [0]) b.length fuel c' s') r →
        Ends (fun fuel => parseredirs (b ++ [0]) b.length fuel c s) r := by
  generalize hws : ([] : List (List UInt8)) = ws at hi
  induction hi generalizing s c t with
  | nil => exact ⟨c, s, h, hc, fun _ hr => hr⟩
  | word => cases hws
  | redir hop hi ih =>
    obtain ⟨c₁, s₁, hstep, h₁, hc₁⟩ := parseredirs_step hb h hop hc
    obtain ⟨c', s', h', hc', hends⟩ := ih h₁ hc₁ hws
    exact ⟨c', s', h', hc', fun r hr => hstep r (hends r hr)⟩

/-! ## What the parser accepts derives -/

/-- A panic, or the command of a derivation of the first tokens. -/
def Sound (b : List UInt8) (X : Symbol) (toks : List Token)
    (r : Except Stop (Cmd Ptr × Nat)) : Prop :=
  (∃ msg, r = .error (.panic msg)) ∨ ∃ c s ts rest t, r = .ok (c, s) ∧ toks = ts ++ rest ∧
    Derives X ts t ∧ Means b c t ∧ Rest b s rest

def Parses (b : List UInt8) (X : Symbol) (toks : List Token) : Prop :=
  ∀ s, Rest b s toks → ∃ r, Ends (parser b · X s) r ∧ Sound b X toks r

/-- The redirections after a block. -/
theorem parseredirs_sound (hb : 0 ∉ b) (h : Rest b s toks) (hc : Means b c t) :
    ∃ r, Ends (fun fuel => parseredirs (b ++ [0]) b.length fuel c s) r ∧
      ((∃ msg, r = .error (.panic msg)) ∨ ∃ c' s' rts rs rest, r = .ok (c', s') ∧
        toks = rts ++ rest ∧ Items rts [] rs ∧ Means b c' (t.wrap rs) ∧ Rest b s' rest) := by
  obtain ⟨rts, ws, rs, rest, rfl, hi, hlen, hrest⟩ := exists_items 0 toks
  obtain rfl := List.eq_nil_of_length_eq_zero (Nat.le_zero.1 hlen)
  obtain ⟨c', s', h', hc', hends⟩ := redirs_items hb hi h hc
  have hnone : startsIn [less, greater] rest = false → ∃ r,
      Ends (fun fuel => parseredirs (b ++ [0]) b.length fuel c s) r ∧
      ((∃ msg, r = .error (.panic msg)) ∨ ∃ c' s' rts' rs rest', r = .ok (c', s') ∧
        rts ++ rest = rts' ++ rest' ∧ Items rts' [] rs ∧ Means b c' (t.wrap rs) ∧
        Rest b s' rest') := by
    intro hno
    obtain ⟨s₁, hok, h₁⟩ := parseredirs_none (c := c') hb h' hno
    exact ⟨_, hends _ hok, .inr ⟨c', s₁, rts, rs, rest, rfl, rfl, hi, hc', h₁⟩⟩
  rcases hrest with hrest | hrest
  · exact hnone (hrest.not_startsIn rfl)
  · cases hrest with
    | lparen => exact hnone rfl
    | redir hop hne => exact ⟨_, hends _ (parseredirs_panic hb h' hop hne), .inl ⟨_, rfl⟩⟩
    | full => exact hnone rfl

theorem exec_parses (hb : 0 ∉ b)
    (hline : ∀ toks', toks'.length < toks.length → Parses b .line toks') :
    Parses b .exec toks := by
  intro s h
  cases hblock : startsIn [lparen] toks with
  | false =>
    obtain ⟨s₁, h₁, hends⟩ := parseexec_goes hb h hblock
    obtain ⟨ts, ws, rs, rest, rfl, hi, hlen, hrest⟩ := exists_items 9 toks
    have hlt : ws.length < MAXARGS := Nat.lt_succ_of_le hlen
    obtain ⟨c', s₂, h₂, hc', hgoes⟩ := goes_items hb hi h₁ (.exec .nil) 0
      (by rw [Nat.zero_add]; exact hlt)
    rw [addArgs_exec, List.nil_append] at hc'
    rw [Nat.zero_add] at hgoes
    rcases hrest with hrest | hrest
    · obtain ⟨s₃, hok, h₃⟩ := goes_follows hb h₂ hrest
      exact ⟨_, hends _ (hgoes _ hok),
        .inr ⟨c', s₃, ts, rest, _, rfl, rfl, .words hi hlt, hc', h₃⟩⟩
    · obtain ⟨msg, hpanic⟩ := goes_blocked hb h₂ hrest c' ws.length
        (by unfold MAXARGS; omega)
      exact ⟨_, hends _ (hgoes _ hpanic), .inl ⟨msg, rfl⟩⟩
  | true =>
    obtain ⟨toks, rfl⟩ := exists_of_startsIn .lparen (by simp) hblock
    obtain ⟨s₁, h₁, herror, hok⟩ := parseexec_block hb h
    obtain ⟨r, hends, hr⟩ := hline toks (Nat.lt_succ_self _) s₁ h₁
    rcases hr with ⟨msg, rfl⟩ | ⟨c, s₂, ts, rest, t, rfl, rfl, hd, hc, h₂⟩
    · exact ⟨_, herror _ hends, .inl ⟨msg, rfl⟩⟩
    · obtain ⟨hno, hclose⟩ := hok c s₂ rest hends h₂
      cases hparen : startsIn [rparen] rest with
      | false => exact ⟨_, hno hparen, .inl ⟨_, rfl⟩⟩
      | true =>
        obtain ⟨rest, rfl⟩ := exists_of_startsIn .rparen (by simp) hparen
        obtain ⟨s₃, h₃, hredirs⟩ := hclose rest rfl
        obtain ⟨r, hends', hr⟩ := parseredirs_sound hb h₃ hc
        refine ⟨r, hredirs r hends', ?_⟩
        rcases hr with hr | ⟨c', s', rts, rs, rest', rfl, rfl, hi, hc', h'⟩
        · exact .inl hr
        · exact .inr ⟨c', s', .lparen :: (ts ++ .rparen :: rts), rest', _, rfl, by simp,
            .block hd hi, hc', h'⟩

theorem pipe_parses (hb : 0 ∉ b) (hexec : Parses b .exec toks)
    (hpipe : ∀ toks', toks'.length < toks.length → Parses b .pipe toks') :
    Parses b .pipe toks := by
  intro s h
  obtain ⟨r, hends, hr⟩ := hexec s h
  rcases hr with ⟨msg, rfl⟩ | ⟨c, s₁, ts, rest, t, rfl, rfl, hd, hc, h₁⟩
  · exact ⟨_, parsepipe_error hends, .inl ⟨msg, rfl⟩⟩
  · cases hbar : startsIn [bar] rest with
    | false =>
      obtain ⟨s₂, h₂, hok⟩ := parsepipe_single hb hends h₁ hbar
      exact ⟨_, hok, .inr ⟨c, s₂, ts, rest, t, rfl, rfl, .single hd, hc, h₂⟩⟩
    | true =>
      obtain ⟨rest, rfl⟩ := exists_of_startsIn .bar (by simp) hbar
      obtain ⟨s₂, h₂, herror, hok⟩ := parsepipe_bar hb hends h₁
      obtain ⟨r, hends', hr⟩ := hpipe rest
        (by simp only [List.length_append, List.length_cons]; omega) s₂ h₂
      rcases hr with ⟨msg, rfl⟩ | ⟨c', s₃, ts', rest', t', rfl, rfl, hd', hc', h₃⟩
      · exact ⟨_, herror _ hends', .inl ⟨msg, rfl⟩⟩
      · exact ⟨_, hok c' s₃ hends', .inr ⟨_, s₃, ts ++ .bar :: ts', rest', _, rfl, by simp,
          .pipe hd hd', .pipe hc hc', h₃⟩⟩

theorem line_parses (hb : 0 ∉ b) (hpipe : Parses b .pipe toks)
    (hline : ∀ toks', toks'.length < toks.length → Parses b .line toks') :
    Parses b .line toks := by
  intro s h
  obtain ⟨r, hends, hr⟩ := hpipe s h
  rcases hr with ⟨msg, rfl⟩ | ⟨c, s₁, ts, rest, t, rfl, rfl, hd, hc, h₁⟩
  · exact ⟨_, parseline_error hends, .inl ⟨msg, rfl⟩⟩
  · obtain ⟨n, rest, rfl, hamp⟩ := exists_amps rest
    cases hsemi : startsIn [semi] rest with
    | false =>
      obtain ⟨s₂, h₂, hok⟩ := parseline_single hb hends h₁ hamp hsemi
      exact ⟨_, hok, .inr ⟨_, s₂, ts ++ List.replicate n .amp, rest, _, rfl, by simp, .line n hd,
        hc.iterate_back n, h₂⟩⟩
    | true =>
      obtain ⟨rest, rfl⟩ := exists_of_startsIn .semi (by simp) hsemi
      obtain ⟨s₂, h₂, herror, hok⟩ := parseline_semi hb hends h₁
      obtain ⟨r, hends', hr⟩ := hline rest
        (by simp only [List.length_append, List.length_cons]; omega) s₂ h₂
      rcases hr with ⟨msg, rfl⟩ | ⟨c', s₃, ts', rest', t', rfl, rfl, hd', hc', h₃⟩
      · exact ⟨_, herror _ hends', .inl ⟨msg, rfl⟩⟩
      · exact ⟨_, hok c' s₃ hends', .inr ⟨_, s₃, ts ++ (List.replicate n .amp ++ .semi :: ts'),
          rest', _, rfl, by simp, .list n hd hd', .list (hc.iterate_back n) hc', h₃⟩⟩

/-- The parser ends, with a panic or the command of a derivation. -/
theorem parses (hb : 0 ∉ b) (X : Symbol) (toks : List Token) : Parses b X toks := by
  induction hn : toks.length using Nat.strongRecOn generalizing X toks with
  | _ n ih =>
    subst hn
    have hexec : Parses b .exec toks := exec_parses hb fun toks' hlt => ih _ hlt .line toks' rfl
    have hpipe : Parses b .pipe toks :=
      pipe_parses hb hexec fun toks' hlt => ih _ hlt .pipe toks' rfl
    cases X with
    | exec => exact hexec
    | pipe => exact hpipe
    | line => exact line_parses hb hpipe fun toks' hlt => ih _ hlt .line toks' rfl

/-! ## What derives is accepted -/

theorem follows_amps (hrest : Follows [amp, semi, rparen] rest) (n : Nat) :
    Follows [rparen, amp, semi] (List.replicate n .amp ++ rest) := by
  cases n with
  | zero => exact hrest.mono rfl
  | succ n => exact .inr rfl

theorem complete (hb : 0 ∉ b) (hd : Derives X ts t) : ∀ s rest, Rest b s (ts ++ rest) →
    Follows X.follow rest → ∃ c s', Ends (parser b · X s) (.ok (c, s')) ∧ Means b c t ∧
      Rest b s' rest := by
  induction hd with
  | words hi hlt =>
    intro s rest h hrest
    obtain ⟨s₁, h₁, hends⟩ := parseexec_goes hb h (hi.no_block (hrest.not_startsIn rfl))
    obtain ⟨c', s₂, h₂, hc', hgoes⟩ := goes_items hb hi h₁ (.exec .nil) 0
      (by rw [Nat.zero_add]; exact hlt)
    rw [addArgs_exec, List.nil_append] at hc'
    obtain ⟨s₃, hok, h₃⟩ := goes_follows hb h₂ hrest
    exact ⟨c', s₃, hends _ (hgoes _ hok), hc', h₃⟩
  | @block ts rts c rs hd hi ih =>
    intro s rest h hrest
    rw [List.cons_append, List.append_assoc, List.cons_append] at h
    obtain ⟨s₁, h₁, -, hok⟩ := parseexec_block hb h
    obtain ⟨c₁, s₂, hends, hc₁, h₂⟩ := ih s₁ _ h₁ (.inr rfl)
    obtain ⟨s₃, h₃, hredirs⟩ := (hok c₁ s₂ _ hends h₂).2 _ rfl
    obtain ⟨c', s₄, h₄, hc', hends'⟩ := redirs_items hb hi h₃ hc₁
    obtain ⟨s₅, hok', h₅⟩ := parseredirs_none (c := c') hb h₄ (hrest.not_startsIn rfl)
    exact ⟨c', s₅, hredirs _ (hends' _ hok'), hc', h₅⟩
  | single hd ih =>
    intro s rest h hrest
    obtain ⟨c, s₁, hends, hc, h₁⟩ := ih s rest h (hrest.mono rfl)
    obtain ⟨s₂, h₂, hok⟩ := parsepipe_single hb hends h₁ (hrest.not_startsIn rfl)
    exact ⟨c, s₂, hok, hc, h₂⟩
  | pipe hd hd' ih ih' =>
    intro s rest h hrest
    rw [List.append_assoc, List.cons_append] at h
    obtain ⟨c, s₁, hends, hc, h₁⟩ := ih s _ h (.inr rfl)
    obtain ⟨s₂, h₂, -, hok⟩ := parsepipe_bar hb hends h₁
    obtain ⟨c', s₃, hends', hc', h₃⟩ := ih' s₂ rest h₂ hrest
    exact ⟨_, s₃, hok c' s₃ hends', .pipe hc hc', h₃⟩
  | line n hd ih =>
    intro s rest h hrest
    rw [List.append_assoc] at h
    obtain ⟨c, s₁, hends, hc, h₁⟩ := ih s _ h (follows_amps (hrest.mono rfl) n)
    obtain ⟨s₂, h₂, hok⟩ := parseline_single hb hends h₁ (hrest.not_startsIn rfl)
      (hrest.not_startsIn rfl)
    exact ⟨_, s₂, hok, hc.iterate_back n, h₂⟩
  | list n hd hd' ih ih' =>
    intro s rest h hrest
    rw [List.append_assoc, List.append_assoc, List.cons_append] at h
    obtain ⟨c, s₁, hends, hc, h₁⟩ := ih s _ h (follows_amps (.inr rfl) n)
    obtain ⟨s₂, h₂, -, hok⟩ := parseline_semi hb hends h₁
    obtain ⟨c', s₃, hends', hc', h₃⟩ := ih' s₂ rest h₂ hrest
    exact ⟨_, s₃, hok c' s₃ hends', .list (hc.iterate_back n) hc', h₃⟩

/-! ## nulterminate -/

/-- The ends of the strings of a command. -/
def Cmd.ends : Cmd Ptr → List Nat
  | .exec argv => argv.map (·.2)
  | .redir cmd file _ _ => cmd.ends ++ [file.2]
  | .pipe left right => left.ends ++ right.ends
  | .list left right => left.ends ++ right.ends
  | .back cmd => cmd.ends

/-- Memory with a NUL at each of these places. -/
def zero (m : List UInt8) (is : List Nat) : List UInt8 := is.foldl (fun m i => m.set i 0) m

variable {m m' : List UInt8} {is : List Nat} {i : Nat}

theorem zero_append (m : List UInt8) (is js : List Nat) :
    zero m (is ++ js) = zero (zero m is) js := List.foldl_append

@[simp] theorem zero_length (m : List UInt8) (is : List Nat) : (zero m is).length = m.length := by
  induction is generalizing m with
  | nil => rfl
  | cons i is ih => exact (ih (m.set i 0)).trans List.length_set

theorem zero_of_not_mem (hi : i ∉ is) : (zero m is)[i]? = m[i]? := by
  induction is generalizing m with
  | nil => rfl
  | cons j is ih =>
    rw [List.mem_cons, not_or] at hi
    exact (ih hi.2).trans (List.getElem?_set_ne fun h => hi.1 h.symm)

theorem zero_of_mem (hi : i ∈ is) (hlt : i < m.length) : (zero m is)[i]? = some 0 := by
  induction is generalizing m with
  | nil => cases hi
  | cons j is ih =>
    by_cases his : i ∈ is
    · exact ih his (by rw [List.length_set]; exact hlt)
    · obtain rfl : i = j := by simpa [his] using hi
      refine (zero_of_not_mem his).trans ?_
      rw [List.getElem?_set_self hlt]

theorem foldlM_store (argv : List Ptr) (h : ∀ p ∈ argv, p.2 < m.length) :
    argv.foldlM (fun m p => store m p.2 0) m = .ok (zero m (argv.map (·.2))) := by
  induction argv generalizing m with
  | nil => rfl
  | cons p argv ih =>
    rw [List.foldlM_cons, store, if_pos (h p List.mem_cons_self), ok_bind]
    refine ih fun q hq => ?_
    rw [List.length_set]
    exact h q (List.mem_cons_of_mem p hq)

theorem nulterminate_eq (h : ∀ i ∈ c.ends, i < m.length) :
    nulterminate c m = .ok (zero m c.ends) := by
  induction c generalizing m with
  | exec argv => exact foldlM_store argv fun p hp => h _ (List.mem_map_of_mem hp)
  | redir c p mode fd ih =>
    rw [nulterminate, ih fun i hi => h i (List.mem_append_left _ hi), ok_bind, store, zero_length,
      if_pos (h p.2 (by simp [Cmd.ends])), Cmd.ends, zero_append]
    rfl
  | pipe l r ihl ihr | list l r ihl ihr =>
    rw [nulterminate, ihl fun i hi => h i (List.mem_append_left _ hi), ok_bind,
      ihr fun i hi => by rw [zero_length]; exact h i (List.mem_append_right _ hi), Cmd.ends,
      zero_append]
  | back c ih => exact ih h

/-- No word goes on at `i`. -/
def IsEnd (b : List UInt8) (i : Nat) : Prop := i ≤ b.length ∧ ∀ c, b[i]? = some c → ¬ WordByte c

theorem Points.isEnd (h : Points b p w) : IsEnd b p.2 := by
  obtain ⟨l, ⟨pre, rfl, hpre⟩, hend, -, hstop⟩ := h
  rw [hend, ← hpre]
  refine ⟨by simp, fun c hc => ?_⟩
  refine hstop c ?_
  rw [← List.append_assoc, List.getElem?_append_right (by simp)] at hc
  simpa [List.head?_eq_getElem?] using hc

theorem Means.isEnd (h : Means b c t) : ∀ i ∈ c.ends, IsEnd b i := by
  induction h with
  | exec h =>
    intro i hi
    obtain ⟨p, hp, rfl⟩ := List.mem_map.1 hi
    induction h with
    | nil => cases hp
    | cons hpw _ ih =>
      rcases List.mem_cons.1 hp with rfl | hp
      · exact hpw.isEnd
      · exact ih hp (List.mem_map_of_mem hp)
  | redir _ hp ih =>
    intro i hi
    rcases List.mem_append.1 hi with hi | hi
    · exact ih i hi
    · rw [List.mem_singleton.1 hi]
      exact hp.isEnd
  | pipe _ _ ih ih' | list _ _ ih ih' =>
    intro i hi
    rcases List.mem_append.1 hi with hi | hi
    · exact ih i hi
    · exact ih' i hi
  | back _ ih => exact ih

theorem takeWhile_ne_zero {l : List UInt8} (hw : 0 ∉ w) (h : ∀ k < w.length, l[k]? = w[k]?)
    (hend : l[w.length]? = some 0) : l.takeWhile (· ≠ 0) = w := by
  induction w generalizing l with
  | nil =>
    cases l with
    | nil => rfl
    | cons c l =>
      obtain rfl : c = 0 := by simpa using hend
      rfl
  | cons a w ih =>
    rw [List.mem_cons, not_or] at hw
    cases l with
    | nil => simp at hend
    | cons c l =>
      obtain rfl : c = a := by simpa using h 0 (Nat.succ_pos _)
      have hc : decide (c ≠ 0) = true := decide_eq_true fun hc => hw.1 hc.symm
      rw [List.takeWhile_cons_of_pos (p := fun c : UInt8 => decide (c ≠ 0)) hc,
        ih hw.2 (fun k hk => by simpa using h (k + 1) (by simpa using hk)) (by simpa using hend)]

/-- A word is a string of its own once its end is a NUL. -/
theorem Points.cstring (hb : 0 ∉ b) (h : Points b p w) (his : ∀ i ∈ is, IsEnd b i)
    (hp : p.2 ∈ is) : cstring (zero (b ++ [0]) is) p = w := by
  obtain ⟨l, ⟨pre, rfl, hpre⟩, hend, hword, -⟩ := h
  have hw : 0 ∉ w := fun hzero => hb (by simp [hzero])
  have hget : ∀ k < w.length, (pre ++ (w ++ l))[pre.length + k]? = w[k]? := by
    intro k hk
    rw [List.getElem?_append_right (Nat.le_add_right ..), Nat.add_sub_cancel_left,
      List.getElem?_append_left hk]
  refine takeWhile_ne_zero hw (fun k hk => ?_) ?_
  · have hnot : pre.length + k ∉ is := by
      intro hmem
      have hk' := hget k hk
      rw [List.getElem?_eq_getElem hk] at hk'
      exact (his _ hmem).2 _ hk' (hword _ (List.getElem_mem hk))
    rw [List.getElem?_drop, ← hpre, zero_of_not_mem hnot,
      List.getElem?_append_left (by simp only [List.length_append]; omega)]
    exact hget k hk
  · rw [List.getElem?_drop, ← hend]
    refine zero_of_mem hp ?_
    rw [hend, ← hpre]
    simp

theorem Means.map_cstring (hb : 0 ∉ b) (h : Means b c t) (his : ∀ i ∈ is, IsEnd b i)
    (hsub : ∀ i ∈ c.ends, i ∈ is) : c.map (cstring (zero (b ++ [0]) is)) = t := by
  induction h with
  | exec h =>
    rw [Cmd.map]
    congr 1
    induction h with
    | nil => rfl
    | cons hpw _ ih =>
      rw [List.map_cons, hpw.cstring hb his (hsub _ List.mem_cons_self),
        ih fun i hi => hsub i (List.mem_cons_of_mem _ hi)]
  | redir _ hp ih =>
    rw [Cmd.map, ih fun i hi => hsub i (List.mem_append_left _ hi),
      hp.cstring hb his (hsub _ (by simp [Cmd.ends]))]
  | pipe _ _ ih ih' | list _ _ ih ih' =>
    rw [Cmd.map, ih fun i hi => hsub i (List.mem_append_left _ hi),
      ih' fun i hi => hsub i (List.mem_append_right _ hi)]
  | back _ ih => rw [Cmd.map, ih hsub]

/-! ## parsecmd -/

/-- The command of a whole string, with its strings. -/
theorem parsecmd_ok (hb : 0 ∉ b) (hends : Ends (parser b · .line 0) (.ok (c, s)))
    (hc : Means b c t) (h : Rest b s []) :
    ∃ m, Ends (parsecmd · b) (.ok (c, m)) ∧ c.map (cstring m) = t := by
  obtain ⟨s', hpeek, -, hend⟩ := peek_spec hb h [] nofun
  have hnul : nulterminate c (b ++ [0]) = .ok (zero (b ++ [0]) c.ends) := by
    refine nulterminate_eq fun i hi => ?_
    have hle := (hc.isEnd i hi).1
    simp
    omega
  refine ⟨_, ?_, hc.map_cstring hb hc.isEnd fun _ hi => hi⟩
  have hs' : s' = b.length := hend.2 rfl
  refine hends.bind (.of_forall fun fuel => ?_)
  simp only [hpeek, ok_bind, hs', hnul, ne_eq, not_true_eq_false, if_false]
  rfl

/-- Of every string, the command is the one of its only derivation; a string
without one makes the shell panic, and nothing is read or written beyond its
end. -/
theorem parsecmd_correct (b : { l : List UInt8 // 0 ∉ l }) :
    (∃ c m toks, Ends (parsecmd · b) (.ok (c, m)) ∧ Spelled toks b ∧
      Derives .line toks (c.map (cstring m)) ∧
      ∀ toks' t, Spelled toks' b → Derives .line toks' t → t = c.map (cstring m)) ∨
    ∃ msg, Ends (parsecmd · b) (.error (.panic msg)) ∧
      ∀ toks t, Spelled toks b → ¬ Derives .line toks t := by
  obtain ⟨b, hb⟩ := b
  have hrest : ∀ {toks : List Token}, Spelled toks b → Rest b 0 toks := fun h =>
    ⟨b, ⟨[], rfl, rfl⟩, h⟩
  have hcomplete : ∀ toks t, Spelled toks b → Derives .line toks t → ∃ c s,
      Ends (parser b · .line 0) (.ok (c, s)) ∧ Means b c t ∧ Rest b s [] := fun toks t hsp hd =>
    complete hb hd 0 [] (by rw [List.append_nil]; exact hrest hsp) (.inl rfl)
  obtain ⟨toks, hsp⟩ := exists_spelled b
  obtain ⟨r, hends, hr⟩ := parses hb .line toks 0 (hrest hsp)
  rcases hr with ⟨msg, rfl⟩ | ⟨c, s, ts, rest, t, rfl, rfl, hd, hc, h⟩
  · refine .inr ⟨msg, hends.bind_error, fun toks' t' hsp' hd' => ?_⟩
    obtain ⟨c', s', hends', -⟩ := hcomplete toks' t' hsp' hd'
    cases hends.unique hends'
  · cases hnil : rest with
    | nil =>
      rw [hnil] at h hsp
      rw [List.append_nil] at hsp
      obtain ⟨m, hok, rfl⟩ := parsecmd_ok hb hends hc h
      refine .inl ⟨c, m, ts, hok, hsp, hd, fun toks' t' hsp' hd' => ?_⟩
      obtain ⟨c', s', hends', hc', h'⟩ := hcomplete toks' t' hsp' hd'
      obtain ⟨rfl, rfl⟩ := Prod.mk.inj (Except.ok.inj (hends.unique hends'))
      obtain ⟨m', hok', rfl⟩ := parsecmd_ok hb hends' hc' h'
      obtain ⟨-, rfl⟩ := Prod.mk.inj (Except.ok.inj (hok.unique hok'))
      rfl
    | cons tok rest' =>
      obtain ⟨s', hpeek, -, hend⟩ := peek_spec hb h [] nofun
      have hne : s' ≠ b.length := fun heq => by
        have hcons := hend.1 heq
        rw [hnil] at hcons
        cases hcons
      refine .inr ⟨"syntax", hends.bind (.of_forall fun fuel => ?_), fun toks' t' hsp' hd' => ?_⟩
      · simp only [hpeek, ok_bind, if_pos hne]
      · obtain ⟨c', s₂, hends', -, h'⟩ := hcomplete toks' t' hsp' hd'
        obtain ⟨-, rfl⟩ := Prod.mk.inj (Except.ok.inj (hends.unique hends'))
        obtain ⟨s₃, hpeek', -, hend'⟩ := peek_spec hb h' [] nofun
        rw [hpeek] at hpeek'
        obtain ⟨-, rfl⟩ := Prod.mk.inj (Except.ok.inj hpeek')
        exact hne (hend'.2 rfl)

end Xv6.Shell
