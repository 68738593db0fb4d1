/-
One program among others that keep to a promise.

`Keeps R I p Q s` says that `p`, from the state `s`, satisfies `I` after each
of its actions and `Q` when it returns, whatever the others do before an
action of `p`, as long as each of their steps is in `R`. `Keeps.reaches` turns
this into a fact about every state that is reached.
-/
import Xv6.Lib.Prog
import Mathlib.Logic.Relation

namespace Conc

open Relation

namespace Prog

variable {σ α β : Type} {R : σ → σ → Prop} {I : σ → Prop}

/-- What is left of a program and the state, after some of its actions and of
the steps of the others. -/
inductive Reaches (R : σ → σ → Prop) : Prog σ α → σ → Prog σ α → σ → Prop
  | refl (p : Prog σ α) (s : σ) : Reaches R p s p s
  | other {p q : Prog σ α} {s s₁ s' : σ} : R s s₁ → Reaches R p s₁ q s' → Reaches R p s q s'
  | act {δ : Type} {f : σ → Outcome σ δ} {k : δ → Prog σ α} {q : Prog σ α} {b : δ}
      {s s₁ s' : σ} :
      f s = .ok b s₁ → Reaches R (k b) s₁ q s' → Reaches R (.act f k) s q s'

/-- A run of the program alone is one of them. -/
theorem Reaches.of_run {p : Prog σ α} {s s' : σ} {a : α} (h : p.run s = .ok a s') :
    Reaches R p s (.ret a) s' := by
  induction p generalizing s with
  | ret b =>
    obtain ⟨rfl, rfl⟩ := Outcome.ok.inj h
    exact .refl _ _
  | act f k ih =>
    rw [run_act] at h
    split at h
    · next b s₁ hf => exact .act hf (ih b h)
    · cases h
    · cases h

/-- `I` after each action of the program and `Q` at its end. -/
def Keeps (R : σ → σ → Prop) (I : σ → Prop) : Prog σ α → (α → σ → Prop) → σ → Prop
  | .ret a, Q, s => Q a s
  | .act f k, Q, s => ∀ s₁, ReflTransGen R s s₁ → ∀ b s₂, f s₁ = .ok b s₂ →
      I s₂ ∧ Keeps R I (k b) Q s₂

namespace Keeps

variable {p : Prog σ α} {k : α → Prog σ β} {Q Q' : α → σ → Prop} {s : σ}

theorem mono (h : Keeps R I p Q s) (hQ : ∀ a s', Q a s' → Q' a s') : Keeps R I p Q' s := by
  induction p generalizing s with
  | ret a => exact hQ a s h
  | act f j ih => exact fun s₁ hR b s₂ hf => ⟨(h s₁ hR b s₂ hf).1, ih b (h s₁ hR b s₂ hf).2⟩

theorem bind {Q' : β → σ → Prop} (hp : Keeps R I p Q s)
    (hk : ∀ a s', Q a s' → Keeps R I (k a) Q' s') : Keeps R I (p >>= k) Q' s := by
  induction p generalizing s with
  | ret a => exact hk a s hp
  | act f j ih => exact fun s₁ hR b s₂ hf => ⟨(hp s₁ hR b s₂ hf).1, ih b (hp s₁ hR b s₂ hf).2⟩

/-- `I` still holds at the end. -/
theorem inv (h : Keeps R I p Q s) (hs : I s) : Keeps R I p (fun a s' => Q a s' ∧ I s') s := by
  induction p generalizing s with
  | ret a => exact ⟨h, hs⟩
  | act f j ih =>
    intro s₁ hR b s₂ hf
    obtain ⟨hs₂, hj⟩ := h s₁ hR b s₂ hf
    exact ⟨hs₂, ih b hj hs₂⟩

theorem atom {f : σ → Outcome σ α}
    (h : ∀ s₁, ReflTransGen R s s₁ → ∀ b s₂, f s₁ = .ok b s₂ → I s₂ ∧ Q b s₂) :
    Keeps R I (Prog.atom f) Q s := h

theorem read {f : σ → α} (h : ∀ s₁, ReflTransGen R s s₁ → I s₁ ∧ Q (f s₁) s₁) :
    Keeps R I (Prog.read f) Q s := fun s₁ hR b s₂ hf => by
  obtain ⟨rfl, rfl⟩ := Outcome.ok.inj hf
  exact h s₁ hR

theorem modify {f : σ → σ} {Q : Unit → σ → Prop}
    (h : ∀ s₁, ReflTransGen R s s₁ → I (f s₁) ∧ Q () (f s₁)) :
    Keeps R I (Prog.modify f) Q s := fun s₁ hR b s₂ hf => by
  obtain ⟨-, rfl⟩ := Outcome.ok.inj hf
  exact h s₁ hR

theorem fail {msg : String} : Keeps R I (Prog.fail msg : Prog σ α) Q s := fun _ _ _ _ hf =>
  nomatch hf

/-- Every state that is reached satisfies `I`, which the others keep. -/
theorem reaches {q : Prog σ α} {s' : σ} (hI : ∀ s s', R s s' → I s → I s')
    (hr : Reaches R p s q s') (hs : I s) (h : Keeps R I p Q s) : I s' := by
  replace h := h.mono fun _ _ _ => True.intro
  induction hr with
  | refl => exact hs
  | @other p q s s₁ s' hR hr ih =>
    refine ih (hI _ _ hR hs) ?_
    cases p with
    | ret a => trivial
    | act f k => exact fun s₂ hR₂ b s₃ hf => h s₂ (.head hR hR₂) b s₃ hf
  | @act δ f k q b s s₁ s' hf hr ih =>
    obtain ⟨h₁, hk⟩ := h s .refl b s₁ hf
    exact ih h₁ hk

end Keeps

end Prog

end Conc
