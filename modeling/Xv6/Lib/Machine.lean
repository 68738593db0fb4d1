/-
Machines that take one event at a time.

Where a system is given by what each event does to a state, a run is a list
of events. `exec` is the state after a run; an event that is not enabled
ends it with `none`.
-/
import Mathlib.Logic.Basic
import Mathlib.Data.List.Basic

namespace Conc

/-- The initial states, and the state after an event. -/
structure Machine (σ E : Type) where
  init : σ → Prop
  next : σ → E → Option σ

namespace Machine

variable {σ E : Type} (M : Machine σ E)

/-- The state after some events. -/
def exec (s : σ) : List E → Option σ
  | [] => some s
  | e :: es => (M.next s e).bind fun s' => exec s' es

/-- A state that some run reaches. -/
def Reachable (s : σ) : Prop := ∃ s₀ es, M.init s₀ ∧ M.exec s₀ es = some s

variable {M}

@[simp] theorem exec_nil (s : σ) : M.exec s [] = some s := rfl

@[simp] theorem exec_cons (s : σ) (e : E) (es : List E) :
    M.exec s (e :: es) = (M.next s e).bind fun s' => M.exec s' es := rfl

theorem exec_append (s : σ) (es es' : List E) :
    M.exec s (es ++ es') = (M.exec s es).bind fun s' => M.exec s' es' := by
  induction es generalizing s with
  | nil => rfl
  | cons e es ih =>
    simp only [List.cons_append, exec_cons]
    cases M.next s e with
    | none => rfl
    | some s' => exact ih s'

theorem exec_concat {s s' s'' : σ} {es : List E} {e : E} (h : M.exec s es = some s')
    (he : M.next s' e = some s'') : M.exec s (es ++ [e]) = some s'' := by
  simp [exec_append, h, he]

theorem Reachable.init {s : σ} (h : M.init s) : M.Reachable s := ⟨s, [], h, rfl⟩

theorem Reachable.next {s s' : σ} {e : E} (h : M.Reachable s) (he : M.next s e = some s') :
    M.Reachable s' := by
  obtain ⟨s₀, es, hi, hr⟩ := h
  exact ⟨s₀, es ++ [e], hi, exec_concat hr he⟩

/-- What holds at the start and is kept by every step of a run holds at its
end. -/
theorem exec_invariant {I : σ → Prop} {s s' : σ} {es : List E} (hi : I s)
    (hstep : ∀ es₁ e es₂ s₁ s₂, es = es₁ ++ e :: es₂ → M.exec s es₁ = some s₁ →
      M.next s₁ e = some s₂ → I s₁ → I s₂) (h : M.exec s es = some s') : I s' := by
  induction es generalizing s with
  | nil =>
    obtain rfl := Option.some.inj h
    exact hi
  | cons e es ih =>
    rw [exec_cons, Option.bind_eq_some_iff] at h
    obtain ⟨s₁, h₁, h₂⟩ := h
    refine ih (hstep [] e es s s₁ rfl rfl h₁ hi) (fun es₁ e' es₂ s₂ s₃ he hr hn => ?_) h₂
    refine hstep (e :: es₁) e' es₂ s₂ s₃ (by rw [he]; rfl) ?_ hn
    rw [exec_cons, h₁]
    exact hr

/-- An invariant holds in every reachable state. -/
theorem Reachable.invariant {I : σ → Prop} (hinit : ∀ s, M.init s → I s)
    (hstep : ∀ s e s', I s → M.next s e = some s' → I s') {s : σ} (h : M.Reachable s) : I s := by
  obtain ⟨s₀, es, hi, hr⟩ := h
  exact exec_invariant (hinit s₀ hi) (fun _ e _ s₁ s₂ _ _ hn hs => hstep s₁ e s₂ hs hn) hr

/-! ## Conditions on the steps and the states of a run -/

variable (M) in
/-- Every step of a run meets a condition on the state before it and the
event. -/
def Meets (C : σ → E → Prop) : σ → List E → Prop
  | _, [] => True
  | s, e :: es => C s e ∧ match M.next s e with
    | none => True
    | some s' => Meets C s' es

variable (M) in
/-- Every state that a run passes through has a property. -/
def Throughout (I : σ → Prop) : σ → List E → Prop
  | s, [] => I s
  | s, e :: es => I s ∧ match M.next s e with
    | none => True
    | some s' => Throughout I s' es

instance decidableMeets (C : σ → E → Prop) [∀ s e, Decidable (C s e)] :
    ∀ s es, Decidable (M.Meets C s es)
  | _, [] => .isTrue trivial
  | s, e :: es =>
    have : Decidable (match M.next s e with
      | none => True
      | some s' => M.Meets C s' es) := match M.next s e with
      | none => .isTrue trivial
      | some s' => decidableMeets C s' es
    inferInstanceAs (Decidable (_ ∧ _))

theorem meets_cons {C : σ → E → Prop} {s s' : σ} {e : E} {es : List E} (h : M.next s e = some s') :
    M.Meets C s (e :: es) ↔ C s e ∧ M.Meets C s' es := by
  simp only [Meets, h]

theorem throughout_cons {I : σ → Prop} {s s' : σ} {e : E} {es : List E}
    (h : M.next s e = some s') : M.Throughout I s (e :: es) ↔ I s ∧ M.Throughout I s' es := by
  simp only [Throughout, h]

/-- What steps that meet a condition keep holds at the end of a run of such
steps. -/
theorem Meets.invariant {C : σ → E → Prop} {I : σ → Prop} {s s' : σ} {es : List E}
    (h : M.Meets C s es) (hi : I s)
    (hstep : ∀ s e s', I s → C s e → M.next s e = some s' → I s') (hr : M.exec s es = some s') :
    I s' := by
  induction es generalizing s with
  | nil =>
    obtain rfl := Option.some.inj hr
    exact hi
  | cons e es ih =>
    rw [exec_cons, Option.bind_eq_some_iff] at hr
    obtain ⟨s₁, h₁, h₂⟩ := hr
    obtain ⟨hc, hm⟩ := (meets_cons h₁).1 h
    exact ih hm (hstep s e s₁ hi hc h₁) h₂

/-- Where the step that loses a property is the one that breaks the condition,
a run keeps the property throughout if and only if its steps meet the
condition. -/
theorem throughout_iff_meets {C : σ → E → Prop} {K I : σ → Prop} {s s' : σ} {es : List E}
    (hstep : ∀ s e s', K s → M.next s e = some s' → K s')
    (hlose : ∀ s e s', K s → I s → M.next s e = some s' → (I s' ↔ C s e)) (hk : K s) (hi : I s)
    (hr : M.exec s es = some s') : M.Throughout I s es ↔ M.Meets C s es := by
  induction es generalizing s with
  | nil => exact iff_of_true hi trivial
  | cons e es ih =>
    rw [exec_cons, Option.bind_eq_some_iff] at hr
    obtain ⟨s₁, h₁, h₂⟩ := hr
    rw [throughout_cons h₁, meets_cons h₁]
    have hl := hlose s e s₁ hk hi h₁
    constructor
    · rintro ⟨-, ht⟩
      have hi₁ : I s₁ := by
        cases es with
        | nil => exact ht
        | cons => exact ht.1
      exact ⟨hl.1 hi₁, (ih (hstep s e s₁ hk h₁) hi₁ h₂).1 ht⟩
    · rintro ⟨hc, hm⟩
      exact ⟨hi, (ih (hstep s e s₁ hk h₁) (hl.2 hc) h₂).2 hm⟩

end Machine

end Conc
