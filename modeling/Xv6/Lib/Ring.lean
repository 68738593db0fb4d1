/-
Circular doubly linked lists with a sentinel.

A node is `none`, the sentinel, or `some a`. The links of a ring lead from the
sentinel through the nodes of a list, in order, back to the sentinel, and the
same way back.
-/
import Mathlib.Data.List.Nodup
import Mathlib.Logic.Function.Basic

/-- The `next` and `prev` fields of the nodes. -/
structure Links (α : Type) where
  next : Option α → Option α
  prev : Option α → Option α

namespace Links

variable {α : Type}

/-- The links form one ring, of the sentinel and the nodes of `l`, in this
order. -/
structure Ring (L : Links α) (l : List α) : Prop where
  nodup : l.Nodup
  next_none : L.next none = l.head?
  prev_none : L.prev none = l.getLast?
  next_some : ∀ l₁ b l₂, l = l₁ ++ b :: l₂ → L.next (some b) = l₂.head?
  prev_some : ∀ l₁ b l₂, l = l₁ ++ b :: l₂ → L.prev (some b) = l₁.getLast?

variable [DecidableEq α]

/-- `b->next->prev = b->prev; b->prev->next = b->next` -/
def unlink (L : Links α) (b : α) : Links α :=
  let L : Links α := { L with prev := Function.update L.prev (L.next (some b)) (L.prev (some b)) }
  { L with next := Function.update L.next (L.prev (some b)) (L.next (some b)) }

/-- `b->next = head.next; b->prev = &head; head.next->prev = b; head.next = b` -/
def insertFront (L : Links α) (b : α) : Links α :=
  let L : Links α := { L with next := Function.update L.next (some b) (L.next none) }
  let L : Links α := { L with prev := Function.update L.prev (some b) none }
  let L : Links α := { L with prev := Function.update L.prev (L.next none) (some b) }
  { L with next := Function.update L.next none (some b) }

/-- A sentinel that points to itself. -/
def empty (L : Links α) : Links α where
  next := Function.update L.next none none
  prev := Function.update L.prev none none

variable {L : Links α} {l l₁ l₂ : List α} {b : α}

theorem Ring.empty : L.empty.Ring [] where
  nodup := .nil
  next_none := by simp [Links.empty]
  prev_none := by simp [Links.empty]
  next_some l₁ b l₂ h := by simp at h
  prev_some l₁ b l₂ h := by simp at h

theorem Ring.insertFront (h : L.Ring l) (hb : b ∉ l) : (L.insertFront b).Ring (b :: l) := by
  have hhead : L.next none ≠ some b := by
    rw [h.next_none]
    exact fun he => hb (List.mem_of_mem_head? he)
  have hnext : ∀ x, x ≠ b → (L.insertFront b).next (some x) = L.next (some x) := fun x hx => by
    simp [Links.insertFront, hx]
  refine ⟨List.nodup_cons.2 ⟨hb, h.nodup⟩, by simp [Links.insertFront], ?_, fun l₁ x l₂ hl => ?_,
    fun l₁ x l₂ hl => ?_⟩
  · cases l with
    | nil => simp [Links.insertFront, h.next_none]
    | cons a l => simp [Links.insertFront, h.next_none, h.prev_none]
  · cases l₁ with
    | nil =>
      obtain ⟨rfl, rfl⟩ := List.cons.inj hl
      simp [Links.insertFront, h.next_none]
    | cons a l₁ =>
      obtain ⟨rfl, rfl⟩ := List.cons.inj hl
      rw [hnext x (by rintro rfl; simp at hb)]
      exact h.next_some l₁ x l₂ rfl
  · cases l₁ with
    | nil =>
      obtain ⟨rfl, rfl⟩ := List.cons.inj hl
      simp [Links.insertFront, hhead.symm]
    | cons a l₁ =>
      obtain ⟨rfl, rfl⟩ := List.cons.inj hl
      have hxb : x ≠ b := by
        rintro rfl
        simp at hb
      cases l₁ with
      | nil => simp [Links.insertFront, h.next_none]
      | cons c l₁ =>
        have hxc : x ≠ c := by
          rintro rfl
          have hn := h.nodup
          simp at hn
        have hp := h.prev_some (c :: l₁) x l₂ rfl
        simp [Links.insertFront, h.next_none, hxb, hxc, hp]

omit [DecidableEq α] in
/-- Where a node of two lists put together is. -/
theorem append_eq_append_cons {m₁ m₂ : List α} {x : α} (h : l₁ ++ l₂ = m₁ ++ x :: m₂) :
    (∃ t, l₁ = m₁ ++ x :: t ∧ m₂ = t ++ l₂) ∨ ∃ t, l₂ = t ++ x :: m₂ ∧ m₁ = l₁ ++ t := by
  rcases List.append_eq_append_iff.1 h with ⟨t, hm, hl⟩ | ⟨t, hl, hm⟩
  · exact .inr ⟨t, hl, hm⟩
  · cases t with
    | nil => exact .inr ⟨[], hm.symm, by simpa using hl.symm⟩
    | cons c t =>
      obtain ⟨rfl, rfl⟩ := List.cons.inj hm
      exact .inl ⟨t, hl, rfl⟩

theorem Ring.unlink (h : L.Ring (l₁ ++ b :: l₂)) : (L.unlink b).Ring (l₁ ++ l₂) := by
  have hnb := h.next_some l₁ b l₂ rfl
  have hpb := h.prev_some l₁ b l₂ rfl
  obtain ⟨hn₁, hn₂, hdis⟩ := List.nodup_append.1 h.nodup
  have hn₂ := (List.nodup_cons.1 hn₂).2
  have hnext : ∀ a, (L.unlink b).next a = if a = l₁.getLast? then l₂.head? else L.next a := by
    intro a
    simp [Links.unlink, Function.update_apply, hnb, hpb]
  have hprev : ∀ a, (L.unlink b).prev a = if a = l₂.head? then l₁.getLast? else L.prev a := by
    intro a
    simp [Links.unlink, Function.update_apply, hnb, hpb]
  refine ⟨h.nodup.sublist (by simp), ?_, ?_, fun m₁ x m₂ hm => ?_, fun m₁ x m₂ hm => ?_⟩
  · rw [hnext, h.next_none]
    cases l₁ with
    | nil => simp
    | cons a l₁ => simp [List.getLast?_cons]
  · rw [hprev, h.prev_none]
    cases l₂ with
    | nil => simp
    | cons a l₂ => simp [List.getLast?_cons]
  · rw [hnext]
    rcases append_eq_append_cons hm with ⟨t, rfl, rfl⟩ | ⟨t, rfl, rfl⟩
    · cases t with
      | nil => simp
      | cons c t =>
        have hx : some x ≠ (m₁ ++ x :: c :: t).getLast? := fun he => by
          have hmem : x ∈ c :: t := List.mem_of_getLast? (by simpa [List.getLast?_cons] using he.symm)
          exact (List.nodup_cons.1 (List.nodup_append.1 hn₁).2.1).1 hmem
        rw [if_neg hx]
        exact h.next_some m₁ x (c :: t ++ b :: l₂) (by simp)
    · have hx : some x ≠ l₁.getLast? := fun he =>
        hdis x (List.mem_of_getLast? he.symm) x (by simp) rfl
      rw [if_neg hx]
      exact h.next_some (l₁ ++ b :: t) x m₂ (by simp)
  · rw [hprev]
    rcases append_eq_append_cons hm with ⟨t, rfl, rfl⟩ | ⟨t, rfl, rfl⟩
    · have hx : some x ≠ l₂.head? := fun he =>
        hdis x (by simp) x (List.mem_cons_of_mem _ (List.mem_of_mem_head? he.symm)) rfl
      rw [if_neg hx]
      exact h.prev_some m₁ x (t ++ b :: l₂) (by simp)
    · cases t with
      | nil => simp
      | cons c t =>
        have hx : some x ≠ (c :: t ++ x :: m₂).head? := fun he => by
          have hxc : c = x := by simpa using he.symm
          simp [hxc] at hn₂
        rw [if_neg hx]
        have hp := h.prev_some (l₁ ++ b :: c :: t) x m₂ (by simp)
        rw [hp]
        simp [List.getLast?_append, List.getLast?_cons]

end Links
