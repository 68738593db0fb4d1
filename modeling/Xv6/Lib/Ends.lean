/-
Loops that take the number of their iterations as an argument.

`Ends f r` says that `f` gives `r` whenever it may go on for long enough.
-/
import Mathlib.Logic.Basic

namespace Conc

variable {α β ε : Type}

def Ends (f : Nat → α) (r : α) : Prop := ∃ m, ∀ fuel ≥ m, f fuel = r

namespace Ends

variable {f g : Nat → α} {r r' : α} {a : α} {e : ε}

theorem of_shift {k : Nat} (hf : ∀ fuel, f (fuel + k) = g fuel) (hg : Ends g r) : Ends f r := by
  obtain ⟨m, hm⟩ := hg
  refine ⟨m + k, fun fuel hfuel => ?_⟩
  obtain ⟨n, rfl⟩ := Nat.exists_eq_add_of_le' (Nat.le_trans (Nat.le_add_left k m) hfuel)
  rw [hf]
  exact hm n (Nat.le_of_add_le_add_right hfuel)

/-- One more iteration. -/
theorem succ (h : Ends (fun fuel => f (fuel + 1)) r) : Ends f r :=
  of_shift (fun _ => rfl) h

theorem of_forall (h : ∀ fuel, f fuel = r) : Ends f r := ⟨0, fun fuel _ => h fuel⟩

theorem unique (h : Ends f r) (h' : Ends f r') : r = r' := by
  obtain ⟨m, hm⟩ := h
  obtain ⟨m', hm'⟩ := h'
  rw [← hm (max m m') (Nat.le_max_left ..), hm' (max m m') (Nat.le_max_right ..)]

theorem bind {f : Nat → Except ε α} {g : Nat → α → Except ε β} {r : Except ε β}
    (hf : Ends f (.ok a)) (hg : Ends (fun fuel => g fuel a) r) :
    Ends (fun fuel => f fuel >>= g fuel) r := by
  obtain ⟨m, hm⟩ := hf
  obtain ⟨m', hm'⟩ := hg
  refine ⟨max m m', fun fuel hfuel => ?_⟩
  simp only [hm fuel (Nat.le_trans (Nat.le_max_left ..) hfuel)]
  exact hm' fuel (Nat.le_trans (Nat.le_max_right ..) hfuel)

theorem bind_error {f : Nat → Except ε α} {g : Nat → α → Except ε β} (hf : Ends f (.error e)) :
    Ends (fun fuel => f fuel >>= g fuel) (.error e) := by
  obtain ⟨m, hm⟩ := hf
  refine ⟨m, fun fuel hfuel => ?_⟩
  simp only [hm fuel hfuel]
  rfl

end Ends

end Conc
