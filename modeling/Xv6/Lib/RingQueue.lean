/-
Queues in a ring buffer with wrapping indices.

A ring of `n` slots is read at `head` and written at `tail`. Both indices only
grow, modulo `M`; the slot of index `i` is `i % n`. Where `n` divides `M`, an
index that wraps does not change the order of the slots.
-/
import Mathlib.Data.List.GetD
import Mathlib.Logic.Function.Basic

/-- The slots from `head` up to `tail` hold the queue `q`. -/
structure RingQueue {α : Type} (n M : Nat) (ring : Nat → α) (head tail : Nat) (q : List α) :
    Prop where
  head_lt : head < M
  tail_eq : tail = (head + q.length) % M
  length_le : q.length ≤ n
  get : ∀ j (h : j < q.length), ring ((head + j) % M % n) = q[j]

namespace RingQueue

variable {α : Type} {n M : Nat} {ring : Nat → α} {head tail : Nat} {q q' : List α} {a : α}

theorem nil (h : head < M) : RingQueue n M ring head head [] where
  head_lt := h
  tail_eq := (Nat.mod_eq_of_lt h).symm
  length_le := Nat.zero_le n
  get j hj := absurd hj (Nat.not_lt_zero j)

/-- The queue is empty when the indices are equal. -/
theorem eq_iff (h : RingQueue n M ring head tail q) (hM : n < M) : head = tail ↔ q = [] := by
  rw [h.tail_eq, ← List.length_eq_zero_iff]
  have hlen := h.length_le
  have hhead := h.head_lt
  constructor
  · intro he
    by_cases hw : head + q.length < M
    · rw [Nat.mod_eq_of_lt hw] at he
      omega
    · rw [Nat.mod_eq_sub_mod (by omega), Nat.mod_eq_of_lt (by omega)] at he
      omega
  · intro he
    rw [he, Nat.add_zero, Nat.mod_eq_of_lt hhead]

/-- The slots at two places less than `n` apart are different. -/
theorem slot_ne (hd : n ∣ M) {i j : Nat} (hij : i < j) (hj : j < i + n) :
    i % M % n ≠ j % M % n := by
  rw [Nat.mod_mod_of_dvd i hd, Nat.mod_mod_of_dvd j hd]
  intro he
  have hdvd : n ∣ j - i := Nat.dvd_of_mod_eq_zero (Nat.sub_mod_eq_zero_of_mod_eq he.symm)
  exact absurd (Nat.le_of_dvd (by omega) hdvd) (by omega)

/-- What is written in the slot at `tail` of a queue that is not full is not
yet in it. -/
theorem write (h : RingQueue n M ring head tail q) (hd : n ∣ M) (hq : q.length < n) :
    RingQueue n M (Function.update ring (tail % n) a) head tail q where
  head_lt := h.head_lt
  tail_eq := h.tail_eq
  length_le := h.length_le
  get j hj := by
    have hne : (head + j) % M % n ≠ tail % n := by
      rw [h.tail_eq]
      exact slot_ne hd (by omega) (by omega)
    rw [Function.update_of_ne hne]
    exact h.get j hj

theorem push (h : RingQueue n M ring head tail q) (hq : q.length < n)
    (ha : ring (tail % n) = a) : RingQueue n M ring head ((tail + 1) % M) (q ++ [a]) where
  head_lt := h.head_lt
  tail_eq := by
    rw [h.tail_eq, List.length_append, List.length_singleton, Nat.mod_add_mod, Nat.add_assoc]
  length_le := by
    rw [List.length_append, List.length_singleton]
    exact hq
  get j hj := by
    rw [List.length_append, List.length_singleton] at hj
    by_cases hlt : j < q.length
    · rw [List.getElem_append_left hlt]
      exact h.get j hlt
    · obtain rfl : j = q.length := by omega
      rw [List.getElem_concat_length rfl, ← h.tail_eq]
      exact ha

theorem pop (h : RingQueue n M ring head tail (a :: q)) :
    ring (head % n) = a ∧ RingQueue n M ring ((head + 1) % M) tail q := by
  have hget := h.get 0 (Nat.zero_lt_succ _)
  rw [Nat.add_zero, Nat.mod_eq_of_lt h.head_lt] at hget
  refine ⟨hget, Nat.mod_lt _ (Nat.zero_lt_of_lt h.head_lt), ?_, ?_, fun j hj => ?_⟩
  · rw [h.tail_eq, List.length_cons, Nat.mod_add_mod, Nat.add_assoc, Nat.add_comm 1]
  · exact Nat.le_of_succ_le h.length_le
  · have hj' := h.get (j + 1) (Nat.succ_lt_succ hj)
    rw [Nat.mod_add_mod, Nat.add_assoc, Nat.add_comm 1 j]
    exact hj'

/-- The last element is taken back. -/
theorem pull (h : RingQueue n M ring head tail (q ++ [a])) :
    ring ((tail + M - 1) % M % n) = a ∧ RingQueue n M ring head ((tail + M - 1) % M) q := by
  have hlen := h.length_le
  have hhead := h.head_lt
  rw [List.length_append, List.length_singleton] at hlen
  have htail : (tail + M - 1) % M = (head + q.length) % M := by
    have hM : 0 < M := Nat.zero_lt_of_lt hhead
    have hsum : tail % M = (head + (q.length + 1)) % M := by
      rw [h.tail_eq, Nat.mod_mod, List.length_append, List.length_singleton]
    rw [Nat.add_sub_assoc hM, Nat.add_mod, hsum, ← Nat.add_mod,
      show head + (q.length + 1) + (M - 1) = head + q.length + M by omega, Nat.add_mod_right]
  rw [htail]
  refine ⟨?_, hhead, rfl, by omega, fun j hj => ?_⟩
  · rw [h.get q.length (by simp)]
    simp
  · rw [h.get j (by rw [List.length_append]; omega), List.getElem_append_left hj]

/-- Two queues one behind the other. -/
theorem append (h : RingQueue n M ring head tail (q ++ q')) :
    RingQueue n M ring head ((head + q.length) % M) q ∧
      RingQueue n M ring ((head + q.length) % M) tail q' := by
  have hlen := h.length_le
  have hM : 0 < M := Nat.zero_lt_of_lt h.head_lt
  rw [List.length_append] at hlen
  refine ⟨⟨h.head_lt, rfl, by omega, fun j hj => ?_⟩, Nat.mod_lt _ hM, ?_, by omega, fun j hj => ?_⟩
  · rw [h.get j (by rw [List.length_append]; omega), List.getElem_append_left hj]
  · rw [h.tail_eq, List.length_append, Nat.mod_add_mod, Nat.add_assoc]
  · have hget := h.get (q.length + j) (by rw [List.length_append]; omega)
    rw [Nat.mod_add_mod, Nat.add_assoc, hget,
      List.getElem_append_right (Nat.le_add_right q.length j)]
    simp

/-- The queue is what the slots hold. -/
theorem eq_map (h : RingQueue n M ring head tail q) (hM : n < M) :
    q = (List.range ((tail + M - head) % M)).map fun j => ring ((head + j) % M % n) := by
  have hhead := h.head_lt
  have hlen := h.length_le
  have hdiff : (tail + M - head) % M = q.length := by
    rw [h.tail_eq]
    by_cases hw : head + q.length < M
    · rw [Nat.mod_eq_of_lt hw, show head + q.length + M - head = q.length + M by omega,
        Nat.add_mod_right, Nat.mod_eq_of_lt (by omega)]
    · have htail : (head + q.length) % M = head + q.length - M := by
        rw [Nat.mod_eq_sub_mod (by omega), Nat.mod_eq_of_lt (by omega)]
      rw [htail, show head + q.length - M + M - head = q.length by omega,
        Nat.mod_eq_of_lt (by omega)]
  rw [hdiff]
  refine List.ext_getElem (by simp) fun j h₁ h₂ => ?_
  rw [List.getElem_map, List.getElem_range, h.get j h₁]

end RingQueue
