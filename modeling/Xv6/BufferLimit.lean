/-
When the cache runs out: `bget` finds every buffer referenced, and the kernel
stops.
-/
import Xv6.BufferRing

namespace Xv6.BufferCache

open Conc

variable {P : Type} {n : Nat} {B : Type} [DecidableEq P] [Fintype P] {s s' : State P n B}
  {l : List (Fin n)} {p : P} {b : Fin n} {dev blockno : Nat}

/-- The buffers that processes have or wait for, and the pins of the log. -/
def State.inUse (s : State P n B) : Nat := ∑ b, (s.holders b + s.waiters b + s.pins b)

/-- There is a buffer for the block. -/
def State.Room (s : State P n B) (dev blockno : Nat) : Prop :=
  ∃ b, s.refcnt b = 0 ∨ s.Caches b dev blockno

/-- At the end of the second loop no buffer is unused, and none has the
block. -/
theorem Inv.full (h : Inv s l) (hp : s.pc p = .recycle dev blockno none) :
    ¬ s.Room dev blockno := by
  obtain ⟨hno, l₁, l₂, hl, hlast, hl₂⟩ : s.At l p (.recycle dev blockno none) := hp ▸ h.at' p
  obtain rfl := List.getLast?_eq_none_iff.1 hlast.symm
  rintro ⟨b, hb | hb⟩
  · have hmem : b ∈ [] ++ l₂ := hl ▸ h.all b
    exact hl₂ b hmem hb
  · exact hno b hb

/-- Every buffer that is referenced has a user or a pin. -/
theorem Inv.le_inUse (h : Inv s l) (hall : ∀ b, s.refcnt b ≠ 0) : n ≤ s.inUse := by
  have hle : ∑ _b : Fin n, 1 ≤ s.inUse := Finset.sum_le_sum fun b _ => by
    have hcount := h.count b
    have hpos := hall b
    omega
  simpa using hle

/-! ## The two loops, to their ends -/

omit [Fintype P] in
theorem next_go (s : State P n B) (p : P) : (machine P n B).next s (.go p) = s.go p := rfl

omit [Fintype P] in
/-- One more step of process `p`. -/
theorem exec_go {u : State P n B} {C : State P n B → Prop} (hgo : s.go p = some u)
    (h : ∃ k t, (machine P n B).exec u (List.replicate k (.go p)) = some t ∧ C t) :
    ∃ k t, (machine P n B).exec s (List.replicate k (.go p)) = some t ∧ C t := by
  obtain ⟨k, t, ht, hC⟩ := h
  refine ⟨k + 1, t, ?_, hC⟩
  rw [List.replicate_succ, Machine.exec_cons, next_go, hgo]
  exact ht

/-- How `bget` ends: with a buffer for the block, or in the panic. -/
def State.Ends (s : State P n B) (p : P) (dev blockno : Nat) (room : Prop) : Prop :=
  (room ∧ ∃ b, s.pc p = .acquire dev blockno b ∧ s.Caches b dev blockno) ∨
    (¬ room ∧ s.pc p = .recycle dev blockno none)

theorem Inv.recycle_ends {b : Option (Fin n)} (h : Inv s l)
    (hp : s.pc p = .recycle dev blockno b) :
    ∃ k t, (machine P n B).exec s (List.replicate k (.go p)) = some t ∧
      t.Ends p dev blockno (s.Room dev blockno) := by
  obtain ⟨-, l₁, l₂, hl, hlast, -⟩ : s.At l p (.recycle dev blockno b) := hp ▸ h.at' p
  -- on the nodes that the loop has yet to visit
  induction l₁ using List.reverseRecOn generalizing s l₂ b with
  | nil =>
    obtain rfl : b = none := hlast
    exact ⟨0, s, rfl, .inr ⟨h.full hp, hp⟩⟩
  | append_singleton l₁ c ih =>
    obtain rfl : b = some c := by simpa using hlast
    by_cases hc : s.refcnt c = 0
    · refine ⟨1, (s.assign c dev blockno).unlock.goto p (.acquire dev blockno c), ?_,
        .inl ⟨⟨c, .inl hc⟩, c, goto_self, ?_⟩⟩
      · rw [List.replicate_one, Machine.exec_cons, next_go, State.go, hp]
        simp only [hc, if_true]
        rfl
      · simp [State.Caches, State.goto, State.unlock, State.assign]
    · refine exec_go (u := s.goto p (.recycle dev blockno (s.links.prev (some c)))) ?_
        (ih (h.recycleNext hp hc) goto_self (c :: l₂) (by simpa using hl) ?_)
      · rw [State.go, hp]
        simp only [hc, if_false]
      · exact h.ring.prev_some l₁ c l₂ (by simpa using hl)

theorem Inv.lookup_ends {b : Option (Fin n)} (h : Inv s l)
    (hp : s.pc p = .lookup dev blockno b) :
    ∃ k t, (machine P n B).exec s (List.replicate k (.go p)) = some t ∧
      t.Ends p dev blockno (s.Room dev blockno) := by
  obtain ⟨l₁, l₂, hl, hhead, -⟩ : s.At l p (.lookup dev blockno b) := hp ▸ h.at' p
  induction l₂ generalizing s l₁ b with
  | nil =>
    obtain rfl : b = none := hhead
    refine exec_go ?_ ((h.lookupDone hp).recycle_ends goto_self)
    rw [State.go, hp]
  | cons c l₂ ih =>
    obtain rfl : b = some c := hhead
    by_cases hc : s.Caches c dev blockno
    · refine ⟨1, (s.ref c).unlock.goto p (.acquire dev blockno c), ?_,
        .inl ⟨⟨c, .inr hc⟩, c, goto_self, hc⟩⟩
      have hif : s.dev c = dev ∧ s.blockno c = blockno := hc
      rw [List.replicate_one, Machine.exec_cons, next_go, State.go, hp]
      simp only [hif, and_self, if_true]
      rfl
    · refine exec_go (u := s.goto p (.lookup dev blockno (s.links.next (some c)))) ?_
        (ih (h.lookupNext hp hc) goto_self (l₁ ++ [c]) (by simpa using hl) ?_)
      · have hif : ¬ (s.dev c = dev ∧ s.blockno c = blockno) := hc
        rw [State.go, hp]
        simp only [hif, if_false]
      · exact h.ring.next_some l₁ c l₂ hl

/-- In every run, `bget` that is let run on ends with a buffer for the block,
or, if none has the block and none is unused, in the panic; there at least as
many buffers are held, waited for or pinned as there are. -/
theorem bget_ends (h : (machine P n B).Reachable s)
    (hp : (∃ b, s.pc p = .lookup dev blockno b) ∨ ∃ b, s.pc p = .recycle dev blockno b) :
    (∃ k t, (machine P n B).exec s (List.replicate k (.go p)) = some t ∧
      ((s.Room dev blockno ∧ ∃ b, t.pc p = .acquire dev blockno b ∧ t.Caches b dev blockno) ∨
        (¬ s.Room dev blockno ∧ t.pc p = .recycle dev blockno none))) ∧
    (s.pc p = .recycle dev blockno none → ¬ s.Room dev blockno ∧ n ≤ s.inUse) := by
  obtain ⟨l, hI⟩ := Inv.reachable h
  refine ⟨?_, fun hnone => ?_⟩
  · rcases hp with ⟨b, hb⟩ | ⟨b, hb⟩
    · exact hI.lookup_ends hb
    · exact hI.recycle_ends hb
  · have hfull := hI.full hnone
    exact ⟨hfull, hI.le_inUse fun b hb => hfull ⟨b, .inl hb⟩⟩

/-- The cache after `binit`. -/
def unread (P : Type) (n : Nat) : State P n Nat where
  links := binit ⟨fun _ => none, fun _ => none⟩
  valid _ := false
  dev _ := 0
  blockno _ := 0
  refcnt _ := 0
  data _ := 0
  lock _ := none
  bcacheLock := none
  disk b := b
  pc _ := .user
  pins _ := 0
  clock := 0
  last _ := none

theorem unread_init (P : Type) (n : Nat) [DecidableEq P] : (machine P n Nat).init (unread P n) :=
  ⟨⟨_, rfl⟩, fun _ => ⟨rfl, rfl, rfl, rfl, rfl, rfl, rfl⟩, rfl, fun _ => rfl⟩

/-- Process `p` is the next to read a block, and gets as far as the disk: past
`n` buffers with other blocks, and the `p` that the others have. -/
def reads {m : Nat} (n : Nat) (p : Fin m) : List (Event (Fin m) n Nat) :=
  .bread p 1 (100 + p) :: List.replicate (n + p + 3) (.go p)

/-- One process has the only buffer, and another wants a block. -/
theorem bget_ends_one : ∃ s : State (Fin 2) 1 Nat, (machine (Fin 2) 1 Nat).Reachable s ∧
    s.pc 1 = .recycle 1 101 none ∧ ¬ s.Room 1 101 ∧ 1 ≤ s.inUse := by
  obtain ⟨s, hs, hp⟩ : ∃ s, (machine (Fin 2) 1 Nat).exec (unread (Fin 2) 1)
      (reads 1 0 ++ .bread 1 1 101 :: List.replicate 3 (.go 1)) = some s ∧
      s.pc 1 = .recycle 1 101 none := ⟨_, rfl, by decide⟩
  have hr : (machine (Fin 2) 1 Nat).Reachable s := ⟨unread .., _, unread_init .., hs⟩
  exact ⟨s, hr, hp, (bget_ends hr (.inr ⟨none, hp⟩)).2 hp⟩

/-! ## Thirty readers are enough -/

/-- Thirty processes wait for the disk with one block each, and one more wants
a block. -/
def manyReaders : List (Event (Fin 64) 30 Nat) :=
  ((List.finRange 64).take 30).flatMap (reads 30) ++ .bread 30 1 130 :: List.replicate 61 (.go 30)

set_option maxRecDepth 100000 in
/-- NPROC = 64 and NBUF = 30. -/
theorem manyReaders_panic : ∃ s : State (Fin 64) 30 Nat, (machine (Fin 64) 30 Nat).Reachable s ∧
    s.pc 30 = .recycle 1 130 none ∧
    ∀ p : Fin 64, p < 30 → ∃ b, s.pc p = .read 1 (100 + p) b := by
  have hrun : ((machine (Fin 64) 30 Nat).exec (unread (Fin 64) 30) manyReaders).map (fun s =>
      (s.pc 30, decide (∀ p : Fin 64, p < 30 → ∃ b, s.pc p = .read 1 (100 + p) b))) =
      some (.recycle 1 130 none, true) := by decide +kernel
  obtain ⟨s, hs, hp⟩ := Option.map_eq_some_iff.1 hrun
  obtain ⟨hpanic, hreads⟩ := Prod.mk.inj hp
  exact ⟨s, ⟨unread .., manyReaders, unread_init .., hs⟩, hpanic, of_decide_eq_true hreads⟩

end Xv6.BufferCache
