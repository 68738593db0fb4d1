/-
Counting: sums over threads and finite maps that change in one place.
-/
import Mathlib.Algebra.BigOperators.Group.Finset.Basic
import Mathlib.Algebra.BigOperators.Group.Finset.Piecewise
import Mathlib.Algebra.Order.BigOperators.Group.Finset
import Mathlib.Data.Fintype.Basic

namespace Conc

variable {T G : Type} [DecidableEq T]

/-- Changing one thread's value changes a sum over the threads by the
difference. -/
theorem sum_update [Fintype T] (F : G → Nat) (γ : T → G) (t : T) (g : G) :
    (∑ u, F (Function.update γ t g u)) + F (γ t) = (∑ u, F (γ u)) + F g := by
  have h₁ := Finset.add_sum_erase Finset.univ (fun u => F (Function.update γ t g u)) (Finset.mem_univ t)
  have h₂ := Finset.add_sum_erase Finset.univ (fun u => F (γ u)) (Finset.mem_univ t)
  have h₃ : ∑ u ∈ Finset.univ.erase t, F (Function.update γ t g u) =
      ∑ u ∈ Finset.univ.erase t, F (γ u) :=
    Finset.sum_congr rfl fun u hu => by rw [Function.update_of_ne (Finset.ne_of_mem_erase hu)]
  simp only [Function.update_self] at h₁
  omega

/-- A count of keys that changes at one key. -/
theorem card_filter_change {K : Type} [Fintype K] [DecidableEq K] {P P' : K → Prop}
    [DecidablePred P] [DecidablePred P'] {k : K} (h : ∀ k', k' ≠ k → (P' k' ↔ P k')) :
    (Finset.univ.filter P').card + (if P k then 1 else 0) =
      (Finset.univ.filter P).card + if P' k then 1 else 0 := by
  have hsplit : ∀ (R : K → Prop) [DecidablePred R], (Finset.univ.filter R).card =
      ((Finset.univ.erase k).filter R).card + if R k then 1 else 0 := by
    intro R _
    rw [← Finset.insert_erase (Finset.mem_univ k), Finset.filter_insert]
    split
    · rw [Finset.card_insert_of_notMem (by simp)]
      simp
    · simp
  have hsame : (Finset.univ.erase k).filter P' = (Finset.univ.erase k).filter P :=
    Finset.filter_congr fun k' hk' => h k' (Finset.ne_of_mem_erase hk')
  rw [hsplit P, hsplit P', hsame]
  omega

end Conc
