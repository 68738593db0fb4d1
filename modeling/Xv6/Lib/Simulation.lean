/-
Simulations between machines: what the states of one machine have to do with
those of another, kept step by step.
-/
import Xv6.Lib.Machine

namespace Conc.Machine

variable {σ τ E F : Type} {M : Machine σ E} {N : Machine τ F} {R : σ → τ → Prop}

/-- Every step of `M` is some steps of `N`. -/
structure Simulation (M : Machine σ E) (N : Machine τ F) (R : σ → τ → Prop) : Prop where
  init : ∀ s, M.init s → ∃ t, N.init t ∧ R s t
  step : ∀ s e s' t, R s t → M.next s e = some s' → ∃ es t', N.exec t es = some t' ∧ R s' t'

theorem Reachable.exec {t t' : τ} {es : List F} (h : N.Reachable t) (he : N.exec t es = some t') :
    N.Reachable t' := by
  obtain ⟨t₀, es₀, hi, hr⟩ := h
  refine ⟨t₀, es₀ ++ es, hi, ?_⟩
  rw [exec_append, hr]
  exact he

/-- A state that `M` reaches stands for one that `N` reaches. -/
theorem Simulation.reachable {s : σ} (h : Simulation M N R) (hs : M.Reachable s) :
    ∃ t, N.Reachable t ∧ R s t := by
  refine hs.invariant (I := fun s => ∃ t, N.Reachable t ∧ R s t) ?_ ?_
  · intro s hi
    obtain ⟨t, ht, hr⟩ := h.init s hi
    exact ⟨t, .init ht, hr⟩
  · intro s e s' hs he
    obtain ⟨t, ht, hr⟩ := hs
    obtain ⟨es, t', hes, hr'⟩ := h.step s e s' t hr he
    exact ⟨t', ht.exec hes, hr'⟩

end Conc.Machine
