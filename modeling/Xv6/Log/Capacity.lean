/-
log.c: how many blocks a transaction may hold.

`begin_op` admits operations for up to `LOGSIZE` blocks, but the log that mkfs
lays out has `LOGSIZE` blocks with its header, and `log_write` panics at the
first block that is one too many for the rest, even at one that it would
absorb.
-/
import Xv6.Log.Model
import Mathlib.Algebra.Order.BigOperators.Group.Finset

namespace Xv6.Log

open Conc

variable {P B : Type} [DecidableEq P] {sb : Superblock}

/-- The blocks passed to `log_write` since the last commit. -/
def State.logged (s : State P B) : Finset Nat := (s.since.map Prod.snd).toFinset

/-- Those that one operation passed. -/
def State.blocksOf (s : State P B) (o : Op P) : Finset Nat :=
  ((s.since.filter fun x => x.1 = o).map Prod.snd).toFinset

/-- The operations that passed them. -/
def State.loggers (s : State P B) : Finset (Op P) := (s.since.map Prod.fst).toFinset

/-- Each operation logs at most `MAXOPBLOCKS` distinct blocks. -/
def OpFits (s : State P B) : Event P B → Prop
  | .logWrite p b => (insert b (s.blocksOf (p, s.opNo p))).card ≤ MAXOPBLOCKS
  | _ => True

/-- `log_write` is called only while a log of `LOGSIZE` blocks has room for
one more, next to its header. -/
def Room (s : State P B) : Event P B → Prop
  | .logWrite .. => s.logged.card < LOGSIZE - 1
  | _ => True

instance (s : State P B) (e : Event P B) : Decidable (OpFits s e) := by
  cases e <;> unfold OpFits <;> infer_instance

instance (s : State P B) (e : Event P B) : Decidable (Room s e) := by
  cases e <;> unfold Room <;> infer_instance

/-- The in-memory header lists the logged blocks, each once. -/
structure Listed (sb : Superblock) (s : State P B) : Prop where
  lh_le : s.lh.length ≤ sb.nlog - 1
  head_le : s.head.length ≤ sb.nlog - 1
  nodup : s.boot = none → s.lh.Nodup
  mem : s.boot = none → ∀ b, b ∈ s.lh ↔ b ∈ s.logged
  boot : s.boot ≠ none → s.since = []

namespace Listed

variable {s s' : State P B} {p : P} {b : Nat}

omit [DecidableEq P] in
theorem congr (h : Listed sb s) (hlh : s'.lh = s.lh) (hhead : s'.head = s.head)
    (hboot : s'.boot = s.boot) (hsince : s'.since = s.since) : Listed sb s' := by
  obtain ⟨h₁, h₂, h₃, h₄, h₅⟩ := h
  unfold State.logged at h₄
  constructor <;> simpa only [State.logged, hlh, hhead, hboot, hsince]

omit [DecidableEq P] in
theorem length_eq (h : Listed sb s) (hb : s.boot = none) : s.lh.length = s.logged.card := by
  rw [← List.toFinset_card_of_nodup (h.nodup hb)]
  congr 1
  ext b
  rw [List.mem_toFinset, h.mem hb b]

theorem logWrite (h : Listed sb s) (hb : s.boot = none) (hs : s.logWrite sb p b = some s') :
    Listed sb s' := by
  unfold State.logWrite at hs
  split at hs
  · split at hs
    · obtain rfl := Option.some.inj hs
      exact h.congr rfl rfl rfl rfl
    · next hroom =>
      split at hs
      · obtain rfl := Option.some.inj hs
        exact h.congr rfl rfl rfl rfl
      · dsimp only at hs
        split at hs
        · next hmem =>
          obtain rfl := Option.some.inj hs
          refine ⟨h.lh_le, h.head_le, h.nodup, fun _ c => ?_, fun hn => absurd hb hn⟩
          have := h.mem hb
          simp only [State.logged, List.map_append, List.toFinset_append, List.map_cons,
            List.map_nil, Finset.mem_union] at this ⊢
          rw [this c]
          constructor
          · exact .inl
          · rintro (hc | hc)
            · exact hc
            · obtain rfl : c = b := by simpa using hc
              exact (this c).1 hmem
        · next hmem =>
          obtain rfl := Option.some.inj hs
          refine ⟨?_, h.head_le, fun _ => ?_, fun _ c => ?_, fun hn => absurd hb hn⟩
          · rw [List.length_append, List.length_singleton]
            omega
          · rw [List.nodup_append]
            refine ⟨h.nodup hb, List.nodup_singleton b, fun c hc d hd he => hmem ?_⟩
            rwa [← List.mem_singleton.1 hd, ← he]
          · have := h.mem hb
            simp only [State.logged, List.map_append, List.toFinset_append, List.map_cons,
              List.map_nil, Finset.mem_union, List.mem_append] at this ⊢
            rw [this c]
            simp
  · cases hs

theorem commit (h : Listed sb s) (hs : s.commit sb p = some s') : Listed sb s' := by
  cases hpc : s.pc p <;> simp only [State.commit, hpc] at hs
  case out | op => cases hs
  case writeLog tail | installTrans tail =>
    split at hs
    · split at hs
      · obtain rfl := Option.some.inj hs
        exact h.congr rfl rfl rfl rfl
      · cases hs
    · obtain rfl := Option.some.inj hs
      exact h.congr rfl rfl rfl rfl
  all_goals obtain rfl := Option.some.inj hs
  · exact ⟨h.lh_le, h.lh_le, h.nodup, h.mem, h.boot⟩
  · exact ⟨Nat.zero_le _, Nat.zero_le _, fun _ => List.nodup_nil, by simp [State.logged, State.goto],
      fun _ => rfl⟩
  · exact h.congr rfl rfl rfl rfl

omit [DecidableEq P] in
theorem recover (h : Listed sb s) (hs : s.recover sb = some s') : Listed sb s' := by
  unfold State.recover at hs
  split at hs
  · cases hs
  · next hb =>
    obtain rfl := Option.some.inj hs
    exact ⟨h.head_le, h.head_le, nofun, nofun,
      fun _ => h.boot (by rw [hb]; nofun)⟩
  · next hb =>
    have hsince := h.boot (by rw [hb]; nofun)
    split at hs
    all_goals
      obtain rfl := Option.some.inj hs
      exact ⟨h.lh_le, h.head_le, nofun, nofun, fun _ => hsince⟩
  · next hb =>
    obtain rfl := Option.some.inj hs
    have hsince := h.boot (by rw [hb]; nofun)
    exact ⟨Nat.zero_le _, Nat.zero_le _, fun _ => List.nodup_nil,
      fun _ => by simp [State.logged, hsince], fun _ => hsince⟩

theorem next {e : Event P B} (h : Listed sb s) (he : (machine P B sb).next s e = some s') :
    Listed sb s' := by
  cases e with
  | crash =>
    obtain rfl := Option.some.inj he
    exact ⟨Nat.zero_le _, h.head_le, nofun, nofun, fun _ => rfl⟩
  | recover =>
    simp only [machine] at he
    split at he
    · exact h.recover he
    · cases he
  | _ =>
    simp only [machine] at he
    split at he
    case isFalse => cases he
    next hrun =>
    first
    | exact h.logWrite hrun.2 he
    | exact h.commit he
    | (simp only [State.beginOp, State.bread, State.modify, State.brelse, State.evict,
        State.endOp] at he
       repeat' split at he
       all_goals first
        | (obtain rfl := Option.some.inj he
           exact h.congr rfl rfl rfl rfl)
        | cases he)

omit [DecidableEq P] in
theorem mkfs (d : Nat → B) : Listed sb (State.mkfs d : State P B) :=
  ⟨Nat.zero_le _, Nat.zero_le _, nofun, nofun, fun _ => rfl⟩

end Listed

/-! ## When log_write panics -/

def State.TooBig (s : State P B) : Prop := s.panicked = some "too big a transaction"

section

variable {s s' : State P B} {e : Event P B}

/-- With the superblock of mkfs, the step that panics is a `log_write` that
finds no room. -/
theorem not_tooBig_iff_room (h : Listed .mkfs s) (hs : ¬ s.TooBig)
    (he : (machine P B .mkfs).next s e = some s') : ¬ s'.TooBig ↔ Room s e := by
  unfold State.TooBig at *
  cases e with
  | crash =>
    obtain rfl := Option.some.inj he
    exact iff_of_true nofun trivial
  | recover =>
    simp only [machine] at he
    split at he
    case isFalse => cases he
    next hp =>
    have hp' : s'.panicked = s.panicked := by
      unfold State.recover at he
      repeat' split at he
      all_goals first
        | (obtain rfl := Option.some.inj he
           rfl)
        | cases he
    exact iff_of_true (by rwa [hp']) trivial
  | logWrite p b =>
    simp only [machine] at he
    split at he
    case isFalse => cases he
    next hrun =>
    have hlen := h.length_eq hrun.2
    have hroom : (s.lh.length ≥ LOGSIZE ∨ s.lh.length ≥ Superblock.mkfs.nlog - 1) ↔
        ¬ Room s (.logWrite p b) := by
      simp only [Room, Superblock.mkfs, ← hlen, LOGSIZE, MAXOPBLOCKS]
      omega
    unfold State.logWrite at he
    split at he
    · split at he
      · next hn =>
        obtain rfl := Option.some.inj he
        exact iff_of_false (not_not.2 rfl) (hroom.1 hn)
      · next hn =>
        refine iff_of_true ?_ (not_not.1 fun hr => hn (hroom.2 hr))
        dsimp only at he
        repeat' split at he
        all_goals
          obtain rfl := Option.some.inj he
          first | exact hs | simp [State.panic]
    · cases he
  | _ =>
    simp only [machine, State.beginOp, State.bread, State.modify, State.brelse, State.evict,
      State.endOp, State.commit] at he
    refine iff_of_true ?_ trivial
    repeat' split at he
    all_goals first
      | (obtain rfl := Option.some.inj he
         first | exact hs | simp [State.panic])
      | cases he

/-- A step by an operation that keeps to `MAXOPBLOCKS` blocks leaves each
operation with at most that many. -/
theorem blocksOf_le_next (hf : OpFits s e) (h : ∀ o, (s.blocksOf o).card ≤ MAXOPBLOCKS)
    (he : (machine P B sb).next s e = some s') : ∀ o, (s'.blocksOf o).card ≤ MAXOPBLOCKS := by
  intro o
  have hkeep : s'.since = s.since → (s'.blocksOf o).card ≤ MAXOPBLOCKS := fun hs => by
    unfold State.blocksOf
    rw [hs]
    exact h o
  have hempty : s'.since = [] → (s'.blocksOf o).card ≤ MAXOPBLOCKS := fun hs => by
    simp [State.blocksOf, hs]
  cases e with
  | crash =>
    obtain rfl := Option.some.inj he
    exact hempty rfl
  | recover =>
    simp only [machine, State.recover] at he
    repeat' split at he
    all_goals first
      | (obtain rfl := Option.some.inj he
         exact hkeep rfl)
      | cases he
  | logWrite p b =>
    have hadd : s'.since = s.since ++ [((p, s.opNo p), b)] → (s'.blocksOf o).card ≤ MAXOPBLOCKS :=
      fun hs => by
        have hb : s'.blocksOf o =
            if (p, s.opNo p) = o then insert b (s.blocksOf o) else s.blocksOf o := by
          ext c
          simp only [State.blocksOf, hs, List.filter_append, List.map_append, List.toFinset_append,
            Finset.mem_union]
          split
          · next ho => simp [ho, or_comm]
          · next ho => simp [ho]
        rw [hb]
        split
        · next ho =>
          subst ho
          exact hf
        · exact h o
    simp only [machine, State.logWrite] at he
    repeat' split at he
    all_goals first
      | (obtain rfl := Option.some.inj he
         first | exact hkeep rfl | exact hadd rfl)
      | cases he
  | _ =>
    simp only [machine, State.beginOp, State.bread, State.modify, State.brelse, State.evict,
      State.endOp, State.commit] at he
    repeat' split at he
    all_goals first
      | (obtain rfl := Option.some.inj he
         first | exact hkeep rfl | exact hempty rfl)
      | cases he

omit [DecidableEq P] in
/-- The blocks logged since the last commit are at most `MAXOPBLOCKS` for each
operation that logged any. -/
theorem logged_le [DecidableEq P] (h : ∀ o, (s.blocksOf o).card ≤ MAXOPBLOCKS) :
    s.logged.card ≤ s.loggers.card * MAXOPBLOCKS := by
  have hsub : s.logged ⊆ s.loggers.biUnion s.blocksOf := fun b hb => by
    simp only [State.logged, List.mem_toFinset, List.mem_map] at hb
    obtain ⟨x, hx, rfl⟩ := hb
    simp only [State.loggers, State.blocksOf, Finset.mem_biUnion, List.mem_toFinset, List.mem_map,
      List.mem_filter, decide_eq_true_eq]
    exact ⟨x.1, ⟨x, hx, rfl⟩, x, ⟨hx, rfl⟩, rfl⟩
  exact (Finset.card_le_card hsub).trans (Finset.card_biUnion_le_card_mul _ _ _ fun o _ => h o)

end

/-- With the superblock of mkfs, the blocks in the log never outgrow it;
`log_write` never panics in a run if and only if it is never called with
`LOGSIZE - 1` distinct blocks logged since the last commit; and there are at
most `MAXOPBLOCKS` for each operation, if each keeps to that many. -/
theorem log_room {s₀ s : State P B} {es : List (Event P B)} (hi : (machine P B .mkfs).init s₀)
    (hr : (machine P B .mkfs).exec s₀ es = some s) :
    s.lh.length ≤ Superblock.mkfs.nlog - 1 ∧
    ((machine P B .mkfs).Throughout (fun s => ¬ s.TooBig) s₀ es ↔
      (machine P B .mkfs).Meets Room s₀ es) ∧
    ((machine P B .mkfs).Meets OpFits s₀ es →
      s.logged.card ≤ s.loggers.card * MAXOPBLOCKS) := by
  obtain ⟨d, rfl⟩ := hi
  have hl : Listed .mkfs s :=
    Machine.exec_invariant (Listed.mkfs d) (fun _ _ _ _ _ _ _ hn h => h.next hn) hr
  refine ⟨hl.lh_le, ?_, fun hf => ?_⟩
  · exact Machine.throughout_iff_meets (fun _ _ _ h => h.next)
      (fun _ _ _ h => not_tooBig_iff_room h) (Listed.mkfs d) nofun hr
  · refine logged_le (hf.invariant (I := fun s => ∀ o, (s.blocksOf o).card ≤ MAXOPBLOCKS) ?_
      (fun _ _ _ h hf => blocksOf_le_next hf h) hr)
    exact fun o => Nat.zero_le _

/-- One operation's writes to the ten blocks from `b` on. -/
def writeBlocks {P : Type} (p : P) (b : Nat) : List (Event P Unit) :=
  (List.range MAXOPBLOCKS).flatMap fun i =>
    [.bread p (b + i), .modify p (b + i) (), .logWrite p (b + i), .brelse p (b + i)]

/-- Three operations begin and write ten blocks each, up to the last
`log_write`. -/
def threeOps : List (Event (Fin 3) Unit) :=
  .recover :: .recover :: .recover :: .beginOp 0 :: .beginOp 1 :: .beginOp 2 ::
    (writeBlocks (0 : Fin 3) 100 ++ writeBlocks 1 200 ++ writeBlocks 2 300).take 119

theorem log_write_panics : (machine (Fin 3) Unit .mkfs).Meets OpFits (.mkfs fun _ => ()) threeOps ∧
    ∃ s, (machine (Fin 3) Unit .mkfs).exec (.mkfs fun _ => ()) threeOps = some s ∧ s.TooBig := by
  refine ⟨by decide +kernel, ?_⟩
  obtain ⟨s, hs⟩ : ∃ s, (machine (Fin 3) Unit .mkfs).exec (.mkfs fun _ => ()) threeOps = some s :=
    Option.isSome_iff_exists.1 (by decide +kernel)
  have hp : (((machine (Fin 3) Unit .mkfs).exec (.mkfs fun _ => ()) threeOps).bind
      State.panicked) = some "too big a transaction" := by decide +kernel
  rw [hs] at hp
  exact ⟨s, hs, hp⟩

/-- One operation writes ten blocks. -/
def oneOp : List (Event Unit Unit) :=
  .recover :: .recover :: .recover :: .beginOp () :: writeBlocks () 100

theorem log_room_oneOp : (machine Unit Unit .mkfs).Throughout (fun s => ¬ s.TooBig)
    (.mkfs fun _ => ()) oneOp := by
  obtain ⟨s, hs⟩ : ∃ s, (machine Unit Unit .mkfs).exec (.mkfs fun _ => ()) oneOp = some s :=
    Option.isSome_iff_exists.1 (by decide +kernel)
  exact (log_room ⟨_, rfl⟩ hs).2.1.2 (by decide +kernel)

end Xv6.Log
