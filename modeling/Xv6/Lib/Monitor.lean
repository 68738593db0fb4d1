/-
Monitors: data that processes touch only while they hold one lock, and which
they may sleep on.

A process holds the lock through several steps. `sleep` gives the lock up and
puts the process to sleep in one step; a process that is woken takes the lock
again and goes on.
-/
import Mathlib.Logic.Function.Basic
import Xv6.Lib.Machine

namespace Conc

/-- How a step of the process with the lock ends. -/
inductive Act (K Ch : Type) where
  | goto (k : K)
  | wake (ch : Ch) (k : K)
  /-- Sleep on `ch`, and go on at `k` with the lock. -/
  | sleep (ch : Ch) (k : K)
  | leave

/-- Where a process is. -/
inductive Pos (K Ch : Type) where
  | out
  | enter (k : K)
  | inside (k : K)
  | asleep (ch : Ch) (k : K)

/-- The data `σ`, the processes `P`, the places `K` of their code. -/
structure Monitor (σ P K Ch : Type) where
  init : σ → Prop
  /-- The process may begin at `k`. -/
  enter : σ → P → K → Bool
  step : σ → P → K → σ × Act K Ch
  /-- A kill, which also wakes the process. -/
  kill : σ → P → σ

namespace Monitor

variable {σ P K Ch : Type}

structure State (σ P K Ch : Type) where
  data : σ
  lock : Option P
  pos : P → Pos K Ch

inductive Event (P K : Type) where
  | call (p : P) (k : K)
  | go (p : P)
  | kill (p : P)

end Monitor

/-- A process that sleeps on `ch` is made runnable. -/
def Pos.wake {K Ch : Type} [DecidableEq Ch] (ch : Ch) : Pos K Ch → Pos K Ch
  | .asleep ch' k => if ch' = ch then .enter k else .asleep ch' k
  | x => x

/-- A process that sleeps is made runnable. -/
def Pos.rouse {K Ch : Type} : Pos K Ch → Pos K Ch
  | .asleep _ k => .enter k
  | x => x

def Pos.isInside {K Ch : Type} : Pos K Ch → Bool
  | .inside _ => true
  | _ => false

/-- Where the process is after a step. -/
def Act.pos {K Ch : Type} : Act K Ch → Pos K Ch
  | .goto k | .wake _ k => .inside k
  | .sleep ch k => .asleep ch k
  | .leave => .out

/-- What a step does to the other processes. -/
def Act.others {K Ch : Type} [DecidableEq Ch] : Act K Ch → Pos K Ch → Pos K Ch
  | .wake ch _ => Pos.wake ch
  | _ => id

namespace Monitor

variable {σ P K Ch : Type} [DecidableEq P] [DecidableEq Ch] (M : Monitor σ P K Ch)

def go (s : State σ P K Ch) (p : P) : Option (State σ P K Ch) :=
  match s.pos p with
  | .out | .asleep .. => none
  | .enter k =>
    if s.lock = none then
      some { s with lock := some p, pos := Function.update s.pos p (.inside k) }
    else none
  | .inside k =>
    let r := M.step s.data p k
    some {
      data := r.1
      lock := if r.2.pos.isInside then some p else none
      pos := Function.update (fun q => r.2.others (s.pos q)) p r.2.pos }

def next (s : State σ P K Ch) : Event P K → Option (State σ P K Ch)
  | .call p k =>
    match s.pos p with
    | .out =>
      if M.enter s.data p k then some { s with pos := Function.update s.pos p (.enter k) }
      else none
    | _ => none
  | .go p => M.go s p
  | .kill p =>
    some { s with data := M.kill s.data p, pos := Function.update s.pos p (s.pos p).rouse }

def machine : Machine (State σ P K Ch) (Event P K) where
  init s := M.init s.data ∧ s.lock = none ∧ ∀ p, s.pos p = .out
  next := M.next

/-! ## Rules -/

/-- A process is inside when it has the lock. -/
def Held (s : State σ P K Ch) : Prop := ∀ p, s.lock = some p ↔ (s.pos p).isInside

/-- An invariant `I` of the data, and what a process at a place knows of it,
which the steps of the others do not change. -/
structure Keeps (I : σ → Prop) (L : σ → P → Pos K Ch → Prop) : Prop where
  init : ∀ d, M.init d → I d ∧ ∀ p, L d p .out
  call : ∀ d p k, L d p .out → M.enter d p k → L d p (.enter k)
  lock : ∀ d p k, L d p (.enter k) → L d p (.inside k)
  wake : ∀ d p ch k, L d p (.asleep ch k) → L d p (.enter k)
  step : ∀ d p k, I d → L d p (.inside k) →
    I (M.step d p k).1 ∧ L (M.step d p k).1 p (M.step d p k).2.pos
  frame : ∀ d p k q x, q ≠ p → x.isInside = false → I d → L d p (.inside k) → L d q x →
    L (M.step d p k).1 q x
  kill : ∀ d p, I d → I (M.kill d p) ∧ ∀ q x, L d q x → L (M.kill d p) q x

/-- Who sleeps has something to wait for, or the process with the lock, being
at `k`, owes a wakeup. -/
structure Alert (L : σ → P → Pos K Ch → Prop) (waits : σ → P → Ch → K → Prop)
    (owes : K → Ch → Prop) : Prop where
  sleep : ∀ d p k ch k', L d p (.inside k) → (M.step d p k).2 = .sleep ch k' →
    waits (M.step d p k).1 p ch k'
  keep : ∀ d p k q ch k', q ≠ p → L d p (.inside k) → waits d q ch k' →
    waits (M.step d p k).1 q ch k' ∨ (∃ k'', (M.step d p k).2 = .wake ch k'') ∨
      ∃ k'', (M.step d p k).2.pos = .inside k'' ∧ owes k'' ch
  pay : ∀ d p k ch, L d p (.inside k) → owes k ch → (∃ k'', (M.step d p k).2 = .wake ch k'') ∨
    ∃ k'', (M.step d p k).2.pos = .inside k'' ∧ owes k'' ch
  kill : ∀ d p q ch k, waits d q ch k → waits (M.kill d p) q ch k

variable {M} {I : σ → Prop} {L : σ → P → Pos K Ch → Prop} {waits : σ → P → Ch → K → Prop}
  {owes : K → Ch → Prop} {s s' : State σ P K Ch} {p : P}

omit [DecidableEq P] [DecidableEq Ch] in
theorem Held.alone (h : Held s) (hp : (s.pos p).isInside) {q : P} (hq : q ≠ p) :
    (s.pos q).isInside = false := by
  cases hi : (s.pos q).isInside with
  | false => rfl
  | true =>
    have hl := (h q).2 hi
    rw [(h p).2 hp] at hl
    exact absurd (Option.some.inj hl).symm hq

@[simp] theorem isInside_wake (ch : Ch) (x : Pos K Ch) :
    (x.wake ch).isInside = x.isInside := by
  cases x with
  | asleep ch' k =>
    rw [Pos.wake]
    split <;> rfl
  | _ => rfl

@[simp] theorem isInside_others (a : Act K Ch) (x : Pos K Ch) :
    (a.others x).isInside = x.isInside := by
  cases a with
  | wake ch k => exact isInside_wake ch x
  | _ => rfl

omit [DecidableEq Ch] in
@[simp] theorem isInside_rouse (x : Pos K Ch) : x.rouse.isInside = x.isInside := by
  cases x <;> rfl

theorem Held.next {e : Event P K} (h : Held s) (hs : M.next s e = some s') : Held s' := by
  intro q
  cases e with
  | call p k =>
    simp only [Monitor.next] at hs
    split at hs
    next hp =>
      split at hs
      next =>
        obtain rfl := Option.some.inj hs
        change s.lock = some q ↔ _
        rw [h q]
        by_cases hq : q = p
        · simp [hq, hp, Pos.isInside]
        · simp [Function.update_of_ne hq]
      next => cases hs
    next => cases hs
  | go p =>
    simp only [Monitor.next, go] at hs
    split at hs
    next => cases hs
    next => cases hs
    next k hp =>
      split at hs
      next hl =>
        obtain rfl := Option.some.inj hs
        by_cases hq : q = p
        · simp [hq, Pos.isInside]
        · have hn : ¬ (s.pos q).isInside := by
            rw [← h q, hl]
            simp
          simp only [Function.update_of_ne hq]
          exact iff_of_false (fun he => hq (Option.some.inj he).symm) hn
      next => cases hs
    next k hp =>
      obtain rfl := Option.some.inj hs
      by_cases hq : q = p
      · simp [hq]
      · have hn := h.alone (p := p) (by rw [hp]; rfl) hq
        simp only [Function.update_of_ne hq, isInside_others, hn]
        split
        · exact iff_of_false (fun he => hq (Option.some.inj he).symm) (by simp)
        · simp
  | kill p =>
    obtain rfl := Option.some.inj hs
    change s.lock = some q ↔ _
    rw [h q]
    by_cases hq : q = p
    · simp [hq]
    · simp [Function.update_of_ne hq]

theorem Held.ofReachable (h : M.machine.Reachable s) : Held s := by
  refine h.invariant (I := Held) ?_ ?_
  · intro s hi p
    rw [hi.2.1, hi.2.2]
    simp [Pos.isInside]
  · intro s e s' hs he
    exact Held.next (M := M) (e := e) hs he

/-- The invariant holds in every reachable state, and so does what each
process knows. -/
theorem Keeps.next {e : Event P K} (h : M.Keeps I L) (hh : Held s) (hI : I s.data)
    (hL : ∀ p, L s.data p (s.pos p)) (hs : M.next s e = some s') :
    I s'.data ∧ ∀ p, L s'.data p (s'.pos p) := by
  cases e with
  | call p k =>
    simp only [Monitor.next] at hs
    split at hs
    next hp =>
      split at hs
      next he =>
        obtain rfl := Option.some.inj hs
        refine ⟨hI, fun q => ?_⟩
        by_cases hq : q = p
        · have hout := hL p
          rw [hp] at hout
          rw [hq]
          simpa using h.call s.data p k hout he
        · simpa [Function.update_of_ne hq] using hL q
      next => cases hs
    next => cases hs
  | go p =>
    simp only [Monitor.next, go] at hs
    split at hs
    next => cases hs
    next => cases hs
    next k hp =>
      split at hs
      next =>
        obtain rfl := Option.some.inj hs
        refine ⟨hI, fun q => ?_⟩
        by_cases hq : q = p
        · have hin := hL p
          rw [hp] at hin
          rw [hq]
          simpa using h.lock s.data p k hin
        · simpa [Function.update_of_ne hq] using hL q
      next => cases hs
    next k hp =>
      obtain rfl := Option.some.inj hs
      have hin := hL p
      rw [hp] at hin
      obtain ⟨hI', hself⟩ := h.step s.data p k hI hin
      refine ⟨hI', fun q => ?_⟩
      by_cases hq : q = p
      · rw [hq]
        simpa using hself
      · have hn := hh.alone (p := p) (by rw [hp]; rfl) hq
        have hq' := h.frame s.data p k q (s.pos q) hq hn hI hin (hL q)
        simp only [Function.update_of_ne hq]
        -- a wakeup moves the sleepers
        cases ha : (M.step s.data p k).2 with
        | wake ch k' =>
          simp only [Act.others]
          cases hx : s.pos q with
          | asleep ch' k'' =>
            rw [hx] at hq'
            rw [Pos.wake]
            split
            · exact h.wake _ q ch' k'' hq'
            · exact hq'
          | _ =>
            rw [hx] at hq'
            exact hq'
        | _ => exact hq'
  | kill p =>
    obtain rfl := Option.some.inj hs
    obtain ⟨hI', hL'⟩ := h.kill s.data p hI
    refine ⟨hI', fun q => ?_⟩
    have hq' := hL' q (s.pos q) (hL q)
    by_cases hq : q = p
    · subst hq
      simp only [Function.update_self]
      cases hx : s.pos q with
      | asleep ch k =>
        rw [hx] at hq'
        exact h.wake _ q ch k hq'
      | _ =>
        rw [hx] at hq'
        exact hq'
    · simpa [Function.update_of_ne hq] using hq'

theorem Keeps.reachable (h : M.Keeps I L) (hr : M.machine.Reachable s) :
    I s.data ∧ ∀ p, L s.data p (s.pos p) := by
  have hall : Held s ∧ I s.data ∧ ∀ p, L s.data p (s.pos p) := by
    refine hr.invariant
      (I := fun s : State σ P K Ch => Held s ∧ I s.data ∧ ∀ p, L s.data p (s.pos p)) ?_ ?_
    · intro s hi
      obtain ⟨hI, hL⟩ := h.init s.data hi.1
      refine ⟨Held.ofReachable (M := M) (.init hi), hI, fun p => ?_⟩
      rw [hi.2.2]
      exact hL p
    · intro s e s' hs he
      exact ⟨Held.next (M := M) (e := e) hs.1 he, h.next (e := e) hs.1 hs.2.1 hs.2.2 he⟩
  exact hall.2

/-- Who still sleeps after a step slept before, and was not woken. -/
theorem Pos.asleep_of_others {a : Act K Ch} {x : Pos K Ch} {ch : Ch} {k : K}
    (h : a.others x = .asleep ch k) : x = .asleep ch k ∧ ¬ ∃ k', a = .wake ch k' := by
  cases a with
  | wake ch' k' =>
    rw [Act.others] at h
    cases x with
    | asleep ch'' k'' =>
      rw [Pos.wake] at h
      split at h
      next => cases h
      next hc =>
        refine ⟨h, fun hw => hc ?_⟩
        obtain ⟨_, hw⟩ := hw
        obtain ⟨rfl, -⟩ : ch'' = ch ∧ k'' = k := by simpa using h
        obtain ⟨rfl, -⟩ : ch' = ch'' ∧ _ := by simpa using hw
        rfl
    | _ => cases h
  | _ => exact ⟨h, by simp⟩

/-- A process sleeps only while it has something to wait for, or while the
process with the lock owes it a wakeup. -/
def Watched (waits : σ → P → Ch → K → Prop) (owes : K → Ch → Prop) (s : State σ P K Ch) : Prop :=
  ∀ q ch k, s.pos q = .asleep ch k → waits s.data q ch k ∨
    ∃ p k', s.lock = some p ∧ s.pos p = .inside k' ∧ owes k' ch

theorem Alert.next {e : Event P K} (h : M.Alert L waits owes) (hh : Held s)
    (hL : ∀ p, L s.data p (s.pos p)) (hw : Watched waits owes s) (hs : M.next s e = some s') :
    Watched waits owes s' := by
  intro q ch k' hq
  cases e with
  | call p k =>
    simp only [Monitor.next] at hs
    split at hs
    next hp =>
      split at hs
      next he =>
        obtain rfl := Option.some.inj hs
        have hne : q ≠ p := by
          intro he
          simp [he] at hq
        simp only [Function.update_of_ne hne] at hq
        rcases hw q ch k' hq with hwait | ⟨p', k'', hl, hp', ho⟩
        · exact .inl hwait
        refine .inr ⟨p', k'', hl, ?_, ho⟩
        have hne' : p' ≠ p := by
          intro he
          rw [he, hp] at hp'
          cases hp'
        simpa [Function.update_of_ne hne'] using hp'
      next => cases hs
    next => cases hs
  | go p =>
    simp only [Monitor.next, go] at hs
    split at hs
    next => cases hs
    next => cases hs
    next k hp =>
      split at hs
      next hl =>
        obtain rfl := Option.some.inj hs
        have hne : q ≠ p := by
          intro he
          simp [he] at hq
        simp only [Function.update_of_ne hne] at hq
        refine (hw q ch k' hq).imp_right ?_
        intro hw'
        obtain ⟨p', k'', hl', -⟩ := hw'
        rw [hl] at hl'
        cases hl'
      next => cases hs
    next k hp =>
      obtain rfl := Option.some.inj hs
      have hin := hL p
      rw [hp] at hin
      -- who owes a wakeup after the step is still inside
      have howes : ∀ k'', (M.step s.data p k).2.pos = .inside k'' → owes k'' ch →
          ∃ p' k', (if (M.step s.data p k).2.pos.isInside then some p else none) = some p' ∧
            Function.update (fun q => (M.step s.data p k).2.others (s.pos q)) p
              (M.step s.data p k).2.pos p' = .inside k' ∧ owes k' ch := by
        intro k'' hk ho
        refine ⟨p, k'', ?_, ?_, ho⟩
        · rw [hk]
          rfl
        · rw [Function.update_self, hk]
      by_cases hne : q = p
      · subst hne
        simp only [Function.update_self] at hq
        cases ha : (M.step s.data q k).2 with
        | sleep ch'' k'' =>
          rw [ha] at hq
          obtain ⟨rfl, rfl⟩ : ch'' = ch ∧ k'' = k' := by simpa [Act.pos] using hq
          exact .inl (h.sleep s.data q k ch'' k'' hin ha)
        | _ =>
          rw [ha] at hq
          cases hq
      · simp only [Function.update_of_ne hne] at hq
        obtain ⟨hx, hnw⟩ := Pos.asleep_of_others hq
        rcases hw q ch k' hx with hwait | ⟨p', k'', hl, hp', ho⟩
        · rcases h.keep s.data p k q ch k' hne hin hwait with hk | hk | ⟨k'', hk, ho⟩
          · exact .inl hk
          · exact absurd hk hnw
          · exact .inr (howes k'' hk ho)
        · have hlp := (hh p).2 (by rw [hp]; rfl)
          rw [hlp] at hl
          obtain rfl := Option.some.inj hl
          rw [hp] at hp'
          obtain rfl : k = k'' := by simpa using hp'
          rcases h.pay s.data p k ch hin ho with hk | ⟨k'', hk, ho⟩
          · exact absurd hk hnw
          · exact .inr (howes k'' hk ho)
  | kill p =>
    obtain rfl := Option.some.inj hs
    have hne : q ≠ p := by
      intro he
      rw [he] at hq
      simp only [Function.update_self] at hq
      cases hx : s.pos p with
      | _ =>
        rw [hx] at hq
        cases hq
    simp only [Function.update_of_ne hne] at hq
    rcases hw q ch k' hq with hwait | ⟨p', k'', hl, hp', ho⟩
    · exact .inl (h.kill s.data p q ch k' hwait)
    · refine .inr ⟨p', k'', hl, ?_, ho⟩
      by_cases he : p' = p
      · rw [he] at hp' ⊢
        simp [hp', Pos.rouse]
      · simpa [Function.update_of_ne he] using hp'

/-- No wakeup is lost. -/
theorem Alert.reachable (h : M.Alert L waits owes) (hk : M.Keeps I L)
    (hr : M.machine.Reachable s) : Watched waits owes s := by
  have hall : M.machine.Reachable s ∧ Watched waits owes s := by
    refine hr.invariant
      (I := fun s : State σ P K Ch => M.machine.Reachable s ∧ Watched waits owes s) ?_ ?_
    · intro s hi
      refine ⟨.init hi, fun q ch k hq => ?_⟩
      rw [hi.2.2] at hq
      cases hq
    · intro s e s' hs he
      exact ⟨hs.1.next he, h.next (e := e) (Held.ofReachable hs.1) (hk.reachable hs.1).2 hs.2 he⟩
  exact hall.2

end Monitor

end Conc
