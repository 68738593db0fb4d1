/-
A circular list of free blocks, in the order of their addresses.

A block is an address and a size in units of `unit` bytes. `Seg` says that the
headers in memory link the blocks of a list, and then lead on to `z`; a
circular list is one that leads on to its own first block.
-/
import Mathlib.Algebra.GroupWithZero.Nat
import Mathlib.Data.List.Basic
import Mathlib.Logic.Function.Basic
import Mathlib.Tactic.ByContra

namespace FreeList

/-- A block: its address and its size. -/
abbrev Block := Nat × Nat

/-- The headers of all blocks, by their addresses. -/
structure Headers where
  ptr : Nat → Nat
  size : Nat → Nat

/-- The address of the first block of a list that goes on to `z`. -/
def head (B : List Block) (z : Nat) : Nat :=
  match B with
  | [] => z
  | b :: _ => b.1

/-- The headers of the blocks have their sizes, and link them. -/
def Seg (s : Headers) : (B : List Block) → (z : Nat) → Prop
  | [], _ => True
  | b :: B, z => s.size b.1 = b.2 ∧ s.ptr b.1 = head B z ∧ Seg s B z

variable {s s' : Headers} {B C : List Block} {b c p : Block} {x z : Nat}

@[simp] theorem head_cons (b : Block) (B : List Block) (z : Nat) : head (b :: B) z = b.1 := rfl

theorem head_append (B C : List Block) (z : Nat) : head (B ++ C) z = head B (head C z) := by
  cases B with
  | nil => rfl
  | cons b B => rfl

theorem seg_append : Seg s (B ++ C) z ↔ Seg s B (head C z) ∧ Seg s C z := by
  induction B with
  | nil => simp [Seg]
  | cons b B ih => simp only [List.cons_append, Seg, head_append, ih, and_assoc]

/-- Only the headers of the blocks matter. -/
theorem Seg.congr (h : Seg s B z)
    (hsame : ∀ b ∈ B, s'.ptr b.1 = s.ptr b.1 ∧ s'.size b.1 = s.size b.1) : Seg s' B z := by
  induction B with
  | nil => trivial
  | cons b B ih =>
    obtain ⟨hsize, hptr, hrest⟩ := h
    obtain ⟨hp, hs⟩ := hsame b List.mem_cons_self
    exact ⟨hs.trans hsize, hp.trans hptr, ih hrest fun c hc => hsame c (List.mem_cons_of_mem b hc)⟩

theorem Seg.size (h : Seg s B z) (hb : b ∈ B) : s.size b.1 = b.2 := by
  induction B with
  | nil => cases hb
  | cons c B ih =>
    obtain ⟨hsize, -, hrest⟩ := h
    rcases List.mem_cons.1 hb with rfl | hb
    · exact hsize
    · exact ih hrest hb

theorem Seg.rotate (h : Seg s (B ++ C) (head (B ++ C) z)) : Seg s (C ++ B) (head (C ++ B) z) := by
  rw [seg_append] at h
  rw [seg_append]
  cases B with
  | nil =>
    rw [List.append_nil]
    exact ⟨h.2, trivial⟩
  | cons b B =>
    cases C with
    | nil => exact ⟨trivial, h.1⟩
    | cons c C => exact ⟨h.2, h.1⟩

/-! ## Walking along a list -/

/-- A circular list may be read from any of its blocks on. -/
theorem exists_rotation (h : Seg s B (head B z)) (hx : x ∈ B.map (·.1)) :
    ∃ b C, b.1 = x ∧ Seg s (b :: C) x ∧ (b :: C).Perm B := by
  obtain ⟨b, hb, rfl⟩ := List.mem_map.1 hx
  obtain ⟨u, v, rfl⟩ := List.append_of_mem hb
  refine ⟨b, v ++ u, rfl, h.rotate, ?_⟩
  rw [← List.cons_append]
  exact List.perm_append_comm

/-! ## The order of the blocks -/

variable {unit : Nat}

/-- The block `b` ends before `c` starts, and does not touch it. -/
def Before (unit : Nat) (b c : Block) : Prop := b.1 + unit * b.2 < c.1

/-- The blocks have no byte in common. -/
def Apart (unit : Nat) (b c : Block) : Prop :=
  b.1 + unit * b.2 ≤ c.1 ∨ c.1 + unit * c.2 ≤ b.1

theorem Apart.symm (h : Apart unit b c) : Apart unit c b := Or.symm h

instance : Std.Symm (Apart unit) := ⟨fun _ _ h => h.symm⟩

theorem Before.lt (h : Before unit b c) : b.1 < c.1 := by
  unfold Before at h
  omega

theorem Before.apart (h : Before unit b c) : Apart unit b c := .inl (Nat.le_of_lt h)

/-- What comes after a block in the list has a higher address. -/
theorem lt_of_pairwise {u v : List Block} (h : (u ++ b :: v).Pairwise (Before unit)) :
    (∀ c ∈ u, c.1 < b.1) ∧ ∀ c ∈ v, b.1 < c.1 := by
  rw [List.pairwise_append] at h
  obtain ⟨-, hv, huv⟩ := h
  exact ⟨fun c hc => (huv c hc b List.mem_cons_self).lt,
    fun c hc => ((List.pairwise_cons.1 hv).1 c hc).lt⟩

/-- An address that is no block's lies after some block and before the next. -/
theorem exists_split (h : (b :: B).Pairwise (Before unit)) (hb : b.1 < x)
    (hx : ∀ c ∈ B, c.1 ≠ x) :
    ∃ u p v, b :: B = u ++ p :: v ∧ p.1 < x ∧ ∀ c ∈ v, x < c.1 := by
  induction B generalizing b with
  | nil => exact ⟨[], b, [], rfl, hb, nofun⟩
  | cons c B ih =>
    have hc := hx c List.mem_cons_self
    obtain ⟨hbc, hB⟩ := List.pairwise_cons.1 h
    by_cases hlt : c.1 < x
    · obtain ⟨u, p, v, hsplit, hp, hv⟩ := ih hB hlt fun d hd => hx d (List.mem_cons_of_mem c hd)
      exact ⟨b :: u, p, v, by rw [hsplit]; rfl, hp, hv⟩
    · refine ⟨[], b, c :: B, rfl, hb, fun d hd => ?_⟩
      rcases List.mem_cons.1 hd with rfl | hd
      · omega
      · have hcd := ((List.pairwise_cons.1 hB).1 d hd).lt
        omega

/-- The two conditions under which the search for the place of a block at `x`
stops at the block at `p`. -/
def Stops (s : Headers) (x p : Nat) : Prop :=
  (x > p ∧ x < s.ptr p) ∨ (p ≥ s.ptr p ∧ (x > p ∨ x < s.ptr p))

instance (s : Headers) (x p : Nat) : Decidable (Stops s x p) := by
  unfold Stops
  infer_instance

/-- The search stops at the last block before `x`, and nowhere else. -/
theorem stops_iff {u v : List Block} {first : Nat}
    (hseg : Seg s (u ++ p :: v) first) (hord : (u ++ p :: v).Pairwise (Before unit))
    (hfirst : head (u ++ p :: v) z = first) (hp : p.1 < x) (hv : ∀ c ∈ v, x < c.1)
    (hc : c ∈ u ++ p :: v) : Stops s x c.1 ↔ c.1 = p.1 := by
  have hlow : ∀ d ∈ u ++ p :: v, first ≤ d.1 := by
    intro d hd
    cases hB : u ++ p :: v with
    | nil => simp at hB
    | cons e B =>
      rw [hB] at hd hord hfirst
      have he : e.1 = first := hfirst
      rcases List.mem_cons.1 hd with rfl | hd
      · omega
      · have hlt := ((List.pairwise_cons.1 hord).1 d hd).lt
        omega
  have hfx : first < x := by
    have hle := hlow p (by simp)
    omega
  have hpord := lt_of_pairwise hord
  -- the links
  have hnext : ∀ {u' v' : List Block} {d : Block}, u ++ p :: v = u' ++ d :: v' →
      s.ptr d.1 = head v' first := by
    intro u' v' d hsplit
    rw [hsplit, seg_append] at hseg
    exact hseg.2.2.1
  constructor
  · intro hstop
    obtain ⟨u', v', hsplit⟩ := List.append_of_mem hc
    have hptr := hnext hsplit
    have hcord := lt_of_pairwise (hsplit ▸ hord)
    have hmem : ∀ d ∈ u ++ p :: v, c.1 < d.1 → d ∈ v' := by
      intro d hd hlt
      rw [hsplit] at hd
      rcases List.mem_append.1 hd with hd | hd
      · have hdlt := hcord.1 d hd
        omega
      · rcases List.mem_cons.1 hd with rfl | hd
        · omega
        · exact hd
    have habove : p.1 < c.1 → x < c.1 := by
      intro hlt
      rcases List.mem_append.1 hc with hcu | hcv
      · have hclt := hpord.1 c hcu
        omega
      · rcases List.mem_cons.1 hcv with rfl | hcv
        · omega
        · exact hv c hcv
    by_contra hne
    rcases Nat.lt_or_gt_of_ne hne with hlt | hgt
    · -- the block before x is further on
      have hpv := hmem p (by simp) hlt
      cases v' with
      | nil => cases hpv
      | cons q v' =>
        have hq : q.1 ≤ p.1 := by
          rcases List.mem_cons.1 hpv with rfl | hpv
          · exact Nat.le_refl _
          · have hord' := hsplit ▸ hord
            rw [List.pairwise_append] at hord'
            have hqp := ((List.pairwise_cons.1 (List.pairwise_cons.1 hord'.2.1).2).1 p hpv).lt
            omega
        have hcq := hcord.2 q List.mem_cons_self
        change s.ptr c.1 = q.1 at hptr
        unfold Stops at hstop
        omega
    · have hx := habove hgt
      cases v' with
      | nil =>
        change s.ptr c.1 = first at hptr
        unfold Stops at hstop
        omega
      | cons q v' =>
        have hcq := hcord.2 q List.mem_cons_self
        change s.ptr c.1 = q.1 at hptr
        unfold Stops at hstop
        omega
  · intro hcp
    have hptr := hnext (d := p) rfl
    rw [hcp]
    unfold Stops
    rw [hptr]
    cases v with
    | nil =>
      have hle := hlow p (by simp)
      exact .inr ⟨hle, .inl hp⟩
    | cons q v => exact .inl ⟨hp, hv q List.mem_cons_self⟩

/-! ## Inserting a block -/

/-- The list `u ++ p :: v` with `b` inserted after `p`, and merged with the
neighbours that it touches. -/
inductive Inserted (unit : Nat) (u : List Block) (p : Block) (b : Block) :
    (v : List Block) → List Block → Prop
  | apart {v : List Block} (hp : Before unit p b) (hv : ∀ c ∈ v, Before unit b c) :
      Inserted unit u p b v (u ++ p :: b :: v)
  | up {q : Block} {v : List Block} (hp : Before unit p b) (hq : b.1 + unit * b.2 = q.1) :
      Inserted unit u p b (q :: v) (u ++ p :: (b.1, b.2 + q.2) :: v)
  | down {v : List Block} (hp : p.1 + unit * p.2 = b.1) (hv : ∀ c ∈ v, Before unit b c) :
      Inserted unit u p b v (u ++ (p.1, p.2 + b.2) :: v)
  | both {q : Block} {v : List Block} (hp : p.1 + unit * p.2 = b.1)
      (hq : b.1 + unit * b.2 = q.1) :
      Inserted unit u p b (q :: v) (u ++ (p.1, p.2 + (b.2 + q.2)) :: v)

namespace Inserted

variable {u v B' : List Block}

theorem sum (h : Inserted unit u p b v B') :
    (B'.map (·.2)).sum = ((u ++ p :: v).map (·.2)).sum + b.2 := by
  cases h with
  | apart | up | down | both =>
    simp only [List.map_append, List.map_cons, List.sum_append, List.sum_cons]
    omega

theorem pairwise (h : Inserted unit u p b v B') (hord : (u ++ p :: v).Pairwise (Before unit)) :
    B'.Pairwise (Before unit) := by
  have hlt := lt_of_pairwise hord
  simp only [List.pairwise_append, List.pairwise_cons, List.mem_cons, forall_eq_or_imp] at hord
  obtain ⟨hu, ⟨hpv, hv⟩, huv⟩ := hord
  cases h with
  | apart hp hbv =>
    simp only [List.pairwise_append, List.pairwise_cons, List.mem_cons, forall_eq_or_imp]
    refine ⟨hu, ⟨⟨hp, hpv⟩, hbv, hv⟩, fun c hc => ⟨(huv c hc).1, ?_, (huv c hc).2⟩⟩
    have hcp := (huv c hc).1
    unfold Before at *
    omega
  | @up q v hp hq =>
    simp only [List.pairwise_append, List.pairwise_cons, List.mem_cons, forall_eq_or_imp] at *
    obtain ⟨hqv, hv⟩ := hv
    have hmul := Nat.mul_add unit b.2 q.2
    refine ⟨hu, ⟨⟨hp, hpv.2⟩, fun c hc => ?_, hv⟩, fun c hc => ⟨(huv c hc).1, ?_, (huv c hc).2.2⟩⟩
    · have hqc := hqv c hc
      simp only [Before] at hqc ⊢
      omega
    · have hcp := (huv c hc).1
      unfold Before at *
      omega
  | down hp hbv =>
    simp only [List.pairwise_append, List.pairwise_cons, List.mem_cons, forall_eq_or_imp]
    have hmul := Nat.mul_add unit p.2 b.2
    refine ⟨hu, ⟨fun c hc => ?_, hv⟩, fun c hc => ⟨(huv c hc).1, (huv c hc).2⟩⟩
    have hbc := hbv c hc
    simp only [Before] at hbc ⊢
    omega
  | @both q v hp hq =>
    simp only [List.pairwise_append, List.pairwise_cons, List.mem_cons, forall_eq_or_imp] at *
    obtain ⟨hqv, hv⟩ := hv
    have hmul := Nat.mul_add unit p.2 (b.2 + q.2)
    have hmul' := Nat.mul_add unit b.2 q.2
    refine ⟨hu, ⟨fun c hc => ?_, hv⟩, fun c hc => ⟨(huv c hc).1, (huv c hc).2.2⟩⟩
    have hqc := hqv c hc
    simp only [Before] at hqc ⊢
    omega

/-- Every block is an old one, or one that `b` is at the end of, or that goes
on after it with an old one. -/
theorem mem (h : Inserted unit u p b v B') {c : Block} (hc : c ∈ B') : c ∈ u ++ p :: v ∨
    ((c.1 = b.1 ∨ c.1 = p.1 ∧ c.1 + unit * p.2 = b.1 ∧ p.2 + b.2 ≤ c.2) ∧ b.2 ≤ c.2 ∧
      (c.1 + unit * c.2 = b.1 + unit * b.2 ∨
        ∃ q ∈ v, b.1 + unit * b.2 = q.1 ∧ c.1 + unit * c.2 = q.1 + unit * q.2)) := by
  cases h with
  | apart hp hv =>
    simp only [List.mem_append, List.mem_cons] at hc ⊢
    rcases hc with hc | rfl | rfl | hc
    · exact .inl (.inl hc)
    · exact .inl (.inr (.inl rfl))
    · exact .inr ⟨.inl rfl, Nat.le_refl _, .inl rfl⟩
    · exact .inl (.inr (.inr hc))
  | @up q v hp hq =>
    have hmul := Nat.mul_add unit b.2 q.2
    simp only [List.mem_append, List.mem_cons] at hc ⊢
    rcases hc with hc | rfl | rfl | hc
    · exact .inl (.inl hc)
    · exact .inl (.inr (.inl rfl))
    · exact .inr ⟨.inl rfl, Nat.le_add_right .., .inr ⟨q, .inl rfl, hq, by simp only; omega⟩⟩
    · exact .inl (.inr (.inr (.inr hc)))
  | down hp hv =>
    have hmul := Nat.mul_add unit p.2 b.2
    simp only [List.mem_append, List.mem_cons] at hc ⊢
    rcases hc with hc | rfl | hc
    · exact .inl (.inl hc)
    · exact .inr ⟨.inr ⟨rfl, hp, Nat.le_refl _⟩, Nat.le_add_left .., .inl (by simp only; omega)⟩
    · exact .inl (.inr (.inr hc))
  | @both q v hp hq =>
    have hmul := Nat.mul_add unit p.2 (b.2 + q.2)
    have hmul' := Nat.mul_add unit b.2 q.2
    simp only [List.mem_append, List.mem_cons] at hc ⊢
    rcases hc with hc | rfl | hc
    · exact .inl (.inl hc)
    · exact .inr ⟨.inr ⟨rfl, hp, by simp only; omega⟩, by simp only; omega,
        .inr ⟨q, .inl rfl, hq, by simp only; omega⟩⟩
    · exact .inl (.inr (.inr (.inr hc)))

/-- The new block, or one that it has become a part of. -/
theorem exists_mem (h : Inserted unit u p b v B') : ∃ c ∈ B', b.2 ≤ c.2 := by
  cases h with
  | apart => exact ⟨b, by simp, Nat.le_refl _⟩
  | up => exact ⟨_, List.mem_append_right u (.tail p (.head _)), Nat.le_add_right ..⟩
  | down => exact ⟨_, List.mem_append_right u (.head _), Nat.le_add_left ..⟩
  | @both q =>
    refine ⟨_, List.mem_append_right u (.head _), ?_⟩
    simp only
    omega

/-- A block that has no byte of `b` and the list has none of the new list. -/
theorem apart_all (h : Inserted unit u p b v B') {a : Block} (ha : 0 < unit * a.2)
    (hb : Apart unit a b) (hall : ∀ c ∈ u ++ p :: v, Apart unit a c) :
    ∀ c ∈ B', Apart unit a c := by
  intro c hc
  have hp := hall p (by simp)
  rcases h.mem hc with hc | ⟨hstart, -, hend⟩
  · exact hall c hc
  · unfold Apart at *
    rcases hend with hend | ⟨q, hq, htouch, hend⟩
    · omega
    · have haq := hall q (by simp [hq])
      omega

/-- The block before is still there, perhaps longer. -/
theorem mem_addr (h : Inserted unit u p b v B') : p.1 ∈ B'.map (·.1) := by
  cases h with
  | apart | up | down | both =>
    simp

end Inserted

end FreeList
