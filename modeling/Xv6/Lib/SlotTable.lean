/-
Maps kept as tables of slots.

A slot is empty or has a key and a value. A key is in one slot at most; a new
one goes to any empty slot, or to the end.
-/
import Mathlib.Data.List.Basic
import Mathlib.Logic.Function.Basic

namespace SlotTable

variable {κ ν : Type} [DecidableEq κ] {t t' : List (Option (κ × ν))} {m : κ → Option ν}
  {c : κ} {v : ν} {j k : Nat}

/-- The slots that are not empty are those of the map, each key in one slot. -/
structure Represents (t : List (Option (κ × ν))) (m : κ → Option ν) : Prop where
  distinct : ∀ {j k : Nat} {c : κ} {v w : ν},
    t[j]? = some (some (c, v)) → t[k]? = some (some (c, w)) → j = k
  live : ∀ {c v}, m c = some v ↔ ∃ k : Nat, t[k]? = some (some (c, v))

/-- The tables agree but for slot `j`, which has `e`. -/
def Put (t : List (Option (κ × ν))) (j : Nat) (e : Option (κ × ν)) (t' : List (Option (κ × ν))) :
    Prop :=
  ∀ k : Nat, t'[k]? = if k = j then some e else t[k]?

omit [DecidableEq κ] in
theorem Put.self {e : Option (κ × ν)} (h : Put t j e t') : t'[j]? = some e := by
  simp [h j]

omit [DecidableEq κ] in
theorem Put.other {e : Option (κ × ν)} (h : Put t j e t') (hk : k ≠ j) : t'[k]? = t[k]? := by
  simp [h k, hk]

omit [DecidableEq κ] in
/-- A slot of the new table is the one that changed, or was there. -/
theorem Put.cases {e x : Option (κ × ν)} (h : Put t j e t') (hk : t'[k]? = some x) :
    (k = j ∧ x = e) ∨ (k ≠ j ∧ t[k]? = some x) := by
  by_cases hkj : k = j
  · subst hkj
    rw [h.self] at hk
    exact .inl ⟨rfl, (Option.some.inj hk).symm⟩
  · rw [h.other hkj] at hk
    exact .inr ⟨hkj, hk⟩

namespace Represents

omit [DecidableEq κ] in
theorem value (h : Represents t m) (hk : t[k]? = some (some (c, v))) : m c = some v :=
  h.live.2 ⟨k, hk⟩

omit [DecidableEq κ] in
theorem absent (h : Represents t m) (hm : m c = none) (k : Nat) (v : ν) :
    t[k]? ≠ some (some (c, v)) := by
  intro hk
  rw [h.value hk] at hm
  cases hm

/-- A key that is not in the table comes to a slot that has none. -/
theorem put (h : Represents t m) (hm : m c = none) (hj : ∀ e, t[j]? ≠ some (some e))
    (hput : Put t j (some (c, v)) t') : Represents t' (Function.update m c (some v)) := by
  refine ⟨fun {k₁ k₂ d v₁ v₂} h₁ h₂ => ?_, fun {d w} => ?_⟩
  · rcases hput.cases h₁ with ⟨hk₁, he₁⟩ | ⟨-, h₁⟩
    · rcases hput.cases h₂ with ⟨hk₂, -⟩ | ⟨-, h₂⟩
      · rw [hk₁, hk₂]
      · cases he₁
        exact absurd h₂ (h.absent hm k₂ v₂)
    · rcases hput.cases h₂ with ⟨-, he₂⟩ | ⟨-, h₂⟩
      · cases he₂
        exact absurd h₁ (h.absent hm k₁ v₁)
      · exact h.distinct h₁ h₂
  · by_cases hd : d = c
    · subst hd
      rw [Function.update_self]
      constructor
      · intro hw
        cases hw
        exact ⟨j, hput.self⟩
      · rintro ⟨k, hk⟩
        rcases hput.cases hk with ⟨-, he⟩ | ⟨-, hk⟩
        · cases he
          rfl
        · exact absurd hk (h.absent hm k w)
    · rw [Function.update_of_ne hd, h.live]
      constructor
      · rintro ⟨k, hk⟩
        refine ⟨k, ?_⟩
        rw [hput.other fun hkj => hj _ (hkj ▸ hk), hk]
      · rintro ⟨k, hk⟩
        rcases hput.cases hk with ⟨-, he⟩ | ⟨-, hk⟩
        · cases he
          exact absurd rfl hd
        · exact ⟨k, hk⟩

/-- The slot of a key is emptied. -/
theorem clear (h : Represents t m) (hj : t[j]? = some (some (c, v))) (hput : Put t j none t') :
    Represents t' (Function.update m c none) := by
  have hold : ∀ {k : Nat} {e : κ × ν}, t'[k]? = some (some e) → k ≠ j ∧ t[k]? = some (some e) := by
    intro k e hk
    rcases hput.cases hk with ⟨-, he⟩ | hk
    · cases he
    · exact hk
  refine ⟨fun h₁ h₂ => h.distinct (hold h₁).2 (hold h₂).2, fun {d w} => ?_⟩
  by_cases hd : d = c
  · subst hd
    rw [Function.update_self]
    constructor
    · intro hw
      cases hw
    · rintro ⟨k, hk⟩
      obtain ⟨hkj, hk⟩ := hold hk
      exact absurd (h.distinct hk hj) hkj
  · rw [Function.update_of_ne hd, h.live]
    constructor
    · rintro ⟨k, hk⟩
      refine ⟨k, ?_⟩
      rw [hput.other, hk]
      intro hkj
      rw [hkj, hj] at hk
      cases hk
      exact hd rfl
    · rintro ⟨k, hk⟩
      exact ⟨k, (hold hk).2⟩

end Represents

end SlotTable
