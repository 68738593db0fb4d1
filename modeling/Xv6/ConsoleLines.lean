/-
console.c: what holds of the console and its readers in any interleaving.

Every character that a newline, a ^D or a full buffer has committed is taken
out by exactly one read, in the order typed; the keys that erase change the
line being typed alone.
-/
import Xv6.Console

namespace Xv6.Console

open Conc

variable {P : Type} [DecidableEq P]

/-- The characters that a call has taken out. -/
def State.charsOf (s : State P) (c : P × Nat) : List UInt8 :=
  (s.taken.filter fun x => x.1 = c).map Prod.snd

/-- A process that is asleep or woken in a call knows what it has got. -/
def PC.Knows (chars : List UInt8) : PC → Prop
  | .sleeping target n got | .woken target n got => got.length + n = target ∧ Plain got ∧ chars = got
  | _ => True

def PC.asleep : PC → Bool
  | .sleeping .. => true
  | _ => false

/-- What holds between the steps. -/
structure Inv (s : State P) (ready edit : List UInt8) : Prop where
  holds : s.cons.Holds ready edit
  committed : s.committed = s.taken.map Prod.snd ++ ready
  knows : ∀ p, (s.pc p).Knows (s.charsOf (p, s.calls p))
  fresh : ∀ p k, s.calls p < k → s.charsOf (p, k) = []
  asleep : ∀ p, (s.pc p).asleep → ready = []

theorem knows_wake {chars : List UInt8} {pc : PC} (h : pc.Knows chars) : pc.wake.Knows chars := by
  cases pc <;> exact h

theorem not_asleep_wake (pc : PC) : pc.wake.asleep = false := by cases pc <;> rfl

theorem charsOf_append {s s' : State P} {c c' : P × Nat} {took : List UInt8}
    (h : s'.taken = s.taken ++ took.map fun x => (c, x)) :
    s'.charsOf c' = s.charsOf c' ++ if c = c' then took else [] := by
  unfold State.charsOf
  rw [h, List.filter_append, List.map_append]
  congr 1
  by_cases hc : c = c'
  · subst hc
    rw [if_pos rfl, List.filter_eq_self.2]
    · rw [List.map_map]
      exact List.map_id took
    · intro x hx
      obtain ⟨a, -, rfl⟩ := List.mem_map.1 hx
      exact decide_eq_true rfl
  · rw [if_neg hc, List.filter_eq_nil_iff.2]
    · rfl
    · intro x hx
      obtain ⟨a, -, rfl⟩ := List.mem_map.1 hx
      simpa using hc

namespace Inv

variable {s s' : State P} {ready edit : List UInt8} {p : P}

/-- A character is typed. -/
theorem intr (h : Inv s ready edit) (c : UInt8) :
    (s.intr c).cons.r = s.cons.r ∧ (s.intr c).taken = s.taken ∧
    ∃ ready' edit', Inv (s.intr c) ready' edit' ∧
      (ready' = ready ∧ (s.intr c).cons.w = s.cons.w ∧ (s.intr c).committed = s.committed ∨
        c ≠ ctrlH ∧ c ≠ DEL ∧ c ≠ ctrlU) := by
  obtain ⟨hr, hcase⟩ := h.holds.consoleintr c
  unfold State.intr
  obtain ⟨res, hres⟩ : ∃ res, res = s.cons.consoleintr c := ⟨_, rfl⟩
  rw [← hres] at hr hcase ⊢
  dsimp only
  rcases hcase with ⟨hwake, hw, edit', hs⟩ | ⟨hwake, hH, hDEL, hU, c', hs, hbetween⟩
  · rw [if_neg (by rw [hwake]; decide)]
    exact ⟨hr, rfl, ready, edit', ⟨hs, h.committed, h.knows, h.fresh, h.asleep⟩, .inl ⟨rfl, hw, rfl⟩⟩
  · rw [if_pos hwake]
    refine ⟨hr, rfl, ready ++ (edit ++ [c']), [], ⟨hs, ?_, fun q => knows_wake (h.knows q), h.fresh,
      fun q hq => ?_⟩, .inr ⟨hH, hDEL, hU⟩⟩
    · show s.committed ++ res.1.between s.cons.w res.1.w = _
      rw [hbetween, h.committed, List.append_assoc]
    · rw [not_asleep_wake] at hq
      cases hq

/-- A process in a call goes on in the loop of `consoleread`. -/
theorem readOn {target n : Nat} {got : List UInt8} (h : Inv s ready edit)
    (hn : got.length + n = target) (hgot : Plain got) (hchars : s.charsOf (p, s.calls p) = got) :
    ∃ ready' took, Inv (s.readOn p target n got) ready' edit ∧
      (s.readOn p target n got).charsOf (p, s.calls p) = got ++ took ∧
      LoopDone target got took ready' ((s.readOn p target n got).pc p) := by
  obtain ⟨ready', hsplit, hs, hw, hdone⟩ :=
    @Cons.Holds.readLoop s.cons ready edit (s.killed p) target n got h.holds hn hgot
  unfold State.readOn
  obtain ⟨res, hres⟩ : ∃ res, res = s.cons.readLoop (s.killed p) target n got := ⟨_, rfl⟩
  rw [← hres] at hsplit hs hw hdone ⊢
  dsimp only
  obtain ⟨s₁, hs₁⟩ : ∃ s₁ : State P, s₁ = { s with
    cons := res.2.1, pc := Function.update s.pc p res.1
    taken := s.taken ++ res.2.2.map fun c => ((p, s.calls p), c) } := ⟨_, rfl⟩
  rw [← hs₁]
  have htaken : s₁.taken = s.taken ++ res.2.2.map fun c => ((p, s.calls p), c) := by rw [hs₁]
  have hcalls : s₁.calls = s.calls := by rw [hs₁]
  have hpc : s₁.pc = Function.update s.pc p res.1 := by rw [hs₁]
  have hown : s₁.charsOf (p, s.calls p) = got ++ res.2.2 := by
    rw [charsOf_append htaken, if_pos rfl, hchars]
  have hother : ∀ c, (p, s.calls p) ≠ c → s₁.charsOf c = s.charsOf c := by
    intro c hc
    rw [charsOf_append htaken, if_neg hc, List.append_nil]
  refine ⟨ready', res.2.2,
    ⟨by rw [hs₁]; exact hs, ?_, fun q => ?_, fun q k hk => ?_, fun q hq => ?_⟩, hown, ?_⟩
  · have hmap : (res.2.2.map fun c => ((p, s.calls p), c)).map Prod.snd = res.2.2 := by
      rw [List.map_map]
      exact List.map_id _
    rw [htaken, List.map_append, hmap, List.append_assoc, ← hsplit, ← h.committed, hs₁]
  · rw [hcalls, hpc]
    by_cases hq : q = p
    · subst hq
      rw [Function.update_self, hown]
      cases hres₁ : res.1 with
      | idle => exact trivial
      | ret target got r => exact trivial
      | woken target n got =>
        rw [hres₁] at hdone
        exact hdone.elim
      | sleeping target' n' got' =>
        rw [hres₁] at hdone
        obtain ⟨rfl, -, hlen, hplain, rfl, -⟩ := hdone
        exact ⟨hlen, hplain, rfl⟩
    · rw [Function.update_of_ne hq, hother _ fun he => hq (Prod.mk.inj he).1.symm]
      exact h.knows q
  · rw [hcalls] at hk
    rw [hother _ fun he => ?_]
    · exact h.fresh q k hk
    · obtain ⟨rfl, rfl⟩ := Prod.mk.inj he
      exact absurd hk (Nat.lt_irrefl _)
  · rw [hpc] at hq
    by_cases hqp : q = p
    · subst hqp
      rw [Function.update_self] at hq
      cases hres₁ : res.1 with
      | idle => rw [hres₁] at hq; cases hq
      | ret target got r => rw [hres₁] at hq; cases hq
      | woken target n got => rw [hres₁] at hq; cases hq
      | sleeping target' n' got' =>
        rw [hres₁] at hdone
        exact hdone.2.2.2.2.2
    · rw [Function.update_of_ne hqp] at hq
      have hnil := h.asleep q hq
      rw [hsplit, List.append_eq_nil_iff] at hnil
      exact hnil.2
  · rw [Function.update_self]
    exact hdone

/-- A process begins a call. -/
theorem called (h : Inv s ready edit) (hidle : s.pc p = .idle) :
    Inv { s with calls := Function.update s.calls p (s.calls p + 1) } ready edit ∧
      State.charsOf { s with calls := Function.update s.calls p (s.calls p + 1) }
        (p, s.calls p + 1) = [] := by
  have hnew := h.fresh p (s.calls p + 1) (Nat.lt_succ_self _)
  refine ⟨⟨h.holds, h.committed, fun q => ?_, fun q k hk => ?_, h.asleep⟩, hnew⟩
  · by_cases hq : q = p
    · subst hq
      rw [show State.pc { s with calls := _ } q = .idle from hidle]
      exact trivial
    · show (s.pc q).Knows (s.charsOf (q, Function.update s.calls p (s.calls p + 1) q))
      rw [Function.update_of_ne hq]
      exact h.knows q
  · refine h.fresh q k ?_
    by_cases hq : q = p
    · subst hq
      have hk' : Function.update s.calls q (s.calls q + 1) q < k := hk
      rw [Function.update_self] at hk'
      omega
    · have hk' : Function.update s.calls p (s.calls p + 1) q < k := hk
      rwa [Function.update_of_ne hq] at hk'

/-- What an event does; a read that ends has ended as it should. -/
theorem next {e : Event P} (h : Inv s ready edit) (hn : (machine P).next s e = some s') :
    ∃ ready' edit', Inv s' ready' edit' ∧
      ∀ p target got r, (e = .go p ∨ ∃ n, e = .read p n) → s'.pc p = .ret target got r →
        Ended target got (s'.charsOf (p, s'.calls p)) ready' r := by
  cases e with
  | input c =>
    obtain rfl := Option.some.inj hn
    obtain ⟨-, -, ready', edit', hi, -⟩ := h.intr c
    refine ⟨ready', edit', hi, fun p target got r he _ => ?_⟩
    rcases he with he | ⟨n, he⟩ <;> cases he
  | kill p =>
    obtain rfl := Option.some.inj hn
    refine ⟨ready, edit, ⟨h.holds, h.committed, fun q => ?_, h.fresh, fun q hq => ?_⟩,
      fun p target got r he _ => ?_⟩
    · show (Function.update s.pc p (s.pc p).wake q).Knows (s.charsOf (q, s.calls q))
      by_cases hqp : q = p
      · subst hqp
        rw [Function.update_self]
        exact knows_wake (h.knows q)
      · rw [Function.update_of_ne hqp]
        exact h.knows q
    · have hq : (Function.update s.pc p (s.pc p).wake q).asleep := hq
      by_cases hqp : q = p
      · subst hqp
        rw [Function.update_self, not_asleep_wake] at hq
        cases hq
      · rw [Function.update_of_ne hqp] at hq
        exact h.asleep q hq
    · rcases he with he | ⟨n, he⟩ <;> cases he
  | read p n =>
    have hn : (if s.pc p = .idle then some ({ s with
      calls := Function.update s.calls p (s.calls p + 1) }.readOn p n n []) else none) = some s' := hn
    split at hn
    case isFalse => cases hn
    next hidle =>
      obtain rfl := Option.some.inj hn
      obtain ⟨h₁, hnil⟩ := h.called hidle
      obtain ⟨s₁, hs₁⟩ : ∃ s₁, s₁ = { s with
        calls := Function.update s.calls p (s.calls p + 1) } := ⟨_, rfl⟩
      have hcalls : s₁.calls p = s.calls p + 1 := by
        rw [hs₁]
        exact Function.update_self ..
      rw [← hs₁] at h₁ hnil ⊢
      rw [← hcalls] at hnil
      obtain ⟨ready', took, hi, hchars, hdone⟩ := @readOn _ _ _ _ _ p n n [] h₁ (Nat.zero_add n)
        nofun hnil
      refine ⟨ready', edit, hi, fun q target got r he hret => ?_⟩
      obtain rfl : p = q := by
        rcases he with he | ⟨m, he⟩
        · cases he
        · exact (Event.read.inj he).1
      rw [hret] at hdone
      rw [show (s₁.readOn p n n []).calls = s₁.calls from rfl, hchars]
      exact hdone.1 ▸ hdone.2
  | go p =>
    have hg : s.go p = some s' := hn
    unfold State.go at hg
    split at hg
    next target n got hpc =>
      obtain rfl := Option.some.inj hg
      have hk := h.knows p
      rw [hpc] at hk
      obtain ⟨hlen, hplain, hgot⟩ := hk
      obtain ⟨ready', took, hi, hchars, hdone⟩ := h.readOn hlen hplain hgot
      refine ⟨ready', edit, hi, fun q target' got' r he hret => ?_⟩
      obtain rfl : p = q := by
        rcases he with he | ⟨m, he⟩
        · exact Event.go.inj he
        · cases he
      rw [hret] at hdone
      rw [show (s.readOn p target n got).calls = s.calls from rfl, hchars]
      exact hdone.1 ▸ hdone.2
    next hpc =>
      obtain rfl := Option.some.inj hg
      refine ⟨ready, edit, ⟨h.holds, h.committed, fun q => ?_, h.fresh, fun q hq => ?_⟩,
        fun q target' got' r he hret => ?_⟩
      · show (Function.update s.pc p .idle q).Knows (s.charsOf (q, s.calls q))
        by_cases hqp : q = p
        · subst hqp
          rw [Function.update_self]
          exact trivial
        · rw [Function.update_of_ne hqp]
          exact h.knows q
      · have hq : (Function.update s.pc p .idle q).asleep := hq
        by_cases hqp : q = p
        · subst hqp
          rw [Function.update_self] at hq
          cases hq
        · rw [Function.update_of_ne hqp] at hq
          exact h.asleep q hq
      · obtain rfl : p = q := by
          rcases he with he | ⟨m, he⟩
          · exact Event.go.inj he
          · cases he
        have hret : Function.update s.pc p .idle p = .ret target' got' r := hret
        rw [Function.update_self] at hret
        cases hret
    next => cases hg

theorem init (hi : (machine P).init s) : Inv s [] [] := by
  obtain ⟨hr, hw, he, hidle, hc, ht⟩ := hi
  have hring : RingQueue INPUT_BUF_SIZE (2 ^ 32) s.cons.buf s.cons.r s.cons.e [] := by
    rw [hr, he]
    exact .nil (by decide)
  refine ⟨⟨hring, by rw [hr, hw]; rfl, nofun, fun _ => rfl⟩, by rw [hc, ht]; rfl, fun p => ?_,
    fun p k _ => by rw [State.charsOf, ht]; rfl, fun p _ => rfl⟩
  rw [hidle p]
  exact trivial

theorem reachable (h : (machine P).Reachable s) : ∃ ready edit, Inv s ready edit := by
  refine Machine.Reachable.invariant (I := fun s => ∃ ready edit, Inv s ready edit)
    (fun _ hi => ⟨[], [], init hi⟩) ?_ h
  rintro s e s' ⟨ready, edit, hs⟩ hn
  obtain ⟨ready', edit', hi, -⟩ := hs.next hn
  exact ⟨ready', edit', hi⟩

end Inv

/-- The line discipline, whatever is typed and read in whatever order. The
indices stay in order, and in a full ring all is committed. The keys that
erase leave what is committed. What is committed is what reads have taken out
and, in order, what they can take next; no process sleeps while there is any.
A read that ends got all it asked for, a line, what is before a ^D or, for a
^D at its start, nothing; or it was killed. -/
theorem console_lines {s : State P} (h : (machine P).Reachable s) :
    (diff s.cons.w s.cons.r ≤ diff s.cons.e s.cons.r ∧
      diff s.cons.e s.cons.r ≤ INPUT_BUF_SIZE) ∧
    (s.cons.e = (s.cons.r + INPUT_BUF_SIZE) % 2 ^ 32 → s.cons.w = s.cons.e) ∧
    (∀ c, c = ctrlH ∨ c = DEL ∨ c = ctrlU → (s.intr c).cons.r = s.cons.r ∧
      (s.intr c).cons.w = s.cons.w ∧ (s.intr c).cons.ready = s.cons.ready ∧
      (s.intr c).committed = s.committed ∧ (s.intr c).taken = s.taken) ∧
    s.committed = s.taken.map Prod.snd ++ s.cons.ready ∧
    (∀ p, (s.pc p).asleep → s.cons.r = s.cons.w) ∧
    ∀ e s' p target got r, (machine P).next s e = some s' → (e = .go p ∨ ∃ n, e = .read p n) →
      s'.pc p = .ret target got r →
      Ended target got (s'.charsOf (p, s'.calls p)) s'.cons.ready r := by
  obtain ⟨ready, edit, hi⟩ := Inv.reachable h
  have hready : s.cons.ready = ready := hi.holds.between_eq.1
  have hle := hi.holds.le
  refine ⟨⟨?_, ?_⟩, fun he => ?_, fun c hc => ?_, ?_, fun p hp => ?_,
    fun e s' p target got r hn he hret => ?_⟩
  · rw [hi.holds.w_r, hi.holds.e_r]
    omega
  · rw [hi.holds.e_r]
    exact hle
  · refine (hi.holds.e_eq_w.2 (hi.holds.full ?_)).symm
    have hr := hi.holds.ring.head_lt
    have htail := hi.holds.e
    rw [he] at htail
    rw [List.length_append]
    unfold INPUT_BUF_SIZE at *
    omega
  · obtain ⟨hr, ht, ready', edit', hi', ⟨rfl, hw, hcom⟩ | ⟨hH, hDEL, hU⟩⟩ := hi.intr c
    · exact ⟨hr, hw, hi'.holds.between_eq.1.trans hready.symm, hcom, ht⟩
    · rcases hc with rfl | rfl | rfl
      · exact absurd rfl hH
      · exact absurd rfl hDEL
      · exact absurd rfl hU
  · rw [hready]
    exact hi.committed
  · exact hi.holds.r_eq_w.2 (hi.asleep p hp)
  · obtain ⟨ready', edit', hi', hend⟩ := hi.next hn
    rw [show s'.cons.ready = ready' from hi'.holds.between_eq.1]
    exact hend p target got r he hret

/-- A process reads before anything is typed; then comes a line with a key
that erases. -/
def typeLine : List (Event Unit) :=
  .read () 100 :: [97, DEL, 98, CR].map .input ++ [.go ()]

/-- The console at boot. -/
def boot (P : Type) : State P where
  cons := ⟨fun _ => 0, 0, 0, 0⟩
  pc _ := .idle
  killed _ := false
  committed := []
  taken := []
  calls _ := 0

theorem console_lines_typeLine : ∃ s, (machine Unit).Reachable s ∧
    s.pc () = .ret 100 [98, NL] 2 ∧ s.committed = s.taken.map Prod.snd ++ s.cons.ready := by
  obtain ⟨s, hs, hpc⟩ : ∃ s, (machine Unit).exec (boot Unit) typeLine = some s ∧
      s.pc () = .ret 100 [98, NL] 2 := ⟨_, rfl, by decide⟩
  have hreach : (machine Unit).Reachable s :=
    ⟨_, _, ⟨rfl, rfl, rfl, fun _ => rfl, rfl, rfl⟩, hs⟩
  exact ⟨s, hreach, hpc, (console_lines hreach).2.2.2.1⟩

end Xv6.Console
