/-
spinlock.c and proc.c: nested `push_off`s, and who carries the saved flag.

A CPU runs the thread of its scheduler or that of a process; `sched` and
`scheduler` hand the CPU over. `intr_on` and `intr_off`, and traps, which turn
interrupts off and restore them, come where `noff` is 0. An `acquire` that
spins does nothing else. `depth`, `first`, `before` and `lent` are auxiliary:
the outstanding `push_off`s of a thread, the flag before the first of them,
the flag that the CPU had before the first of them or of those of the thread
that has handed it over since, and whether one has.
-/
import Xv6.Kernel.State
import Xv6.Lib.Machine
import Mathlib.Logic.Function.Basic
import Mathlib.Tactic.ByContra

namespace Xv6.Nesting

open Conc

/-- The spinlocks; those of processes are in `proc[]`. -/
inductive Lock (P L : Type) where
  | proc (p : P)
  | other (l : L)
  deriving DecidableEq

/-- The threads of the kernel. -/
inductive Thread (C P : Type) where
  | scheduler (c : C)
  | proc (p : P)
  deriving DecidableEq

structure State (C P L : Type) where
  /-- `intr_get()` -/
  intr : C → Bool
  noff : C → Nat
  intena : C → Bool
  /-- The process whose thread the CPU runs, if it is not the scheduler's. -/
  run : C → Option P
  /-- The CPU that holds a lock. -/
  owner : Lock P L → Option C
  /-- The lock that `acquire` spins for. -/
  spin : C → Option (Lock P L)
  state : P → ProcState
  /-- The variable `intena` of `sched`; none in a new process, which starts in
  `forkret`. -/
  saved : P → Option Bool
  depth : Thread C P → Nat
  first : Thread C P → Bool
  before : Thread C P → Bool
  lent : Thread C P → Bool

inductive Event (C P L : Type) where
  | push_off (c : C)
  | pop_off (c : C)
  | acquire (c : C) (k : Lock P L)
  /-- `__sync_lock_test_and_set` finds the lock free. -/
  | acquired (c : C)
  | release (c : C) (k : Lock P L)
  /-- `intr_on` and `intr_off`, and traps. -/
  | intr (c : C) (on : Bool)
  /-- `sched`, with what `p->state` has been set to. -/
  | sched (c : C) (state : ProcState)
  /-- The `swtch` of `scheduler` to process `p`. -/
  | swtch (c : C) (p : P)
  /-- Changes of `p->state` by others. -/
  | setState (c : C) (p : P) (state : ProcState)
  /-- `allocproc`, which makes a context that starts in `forkret`. -/
  | allocproc (c : C) (p : P)

section

variable {C P L : Type} [DecidableEq C] [DecidableEq P] [DecidableEq L]

namespace State

/-- The thread that a CPU runs. -/
def thread (s : State C P L) (c : C) : Thread C P :=
  match s.run c with
  | none => .scheduler c
  | some p => .proc p

def push_off (s : State C P L) (c : C) : State C P L :=
  { s with
    intr := Function.update s.intr c false
    intena := if s.noff c = 0 then Function.update s.intena c (s.intr c) else s.intena
    noff := Function.update s.noff c (s.noff c + 1)
    depth := Function.update s.depth (s.thread c) (s.depth (s.thread c) + 1)
    first := if s.depth (s.thread c) = 0 then Function.update s.first (s.thread c) (s.intr c)
      else s.first
    before := if s.depth (s.thread c) = 0 then Function.update s.before (s.thread c) (s.intr c)
      else s.before
    lent := if s.depth (s.thread c) = 0 then Function.update s.lent (s.thread c) false
      else s.lent }

/-- `pop_off`, unless it panics. -/
def pop_off (s : State C P L) (c : C) : Option (State C P L) :=
  if s.intr c = true ∨ s.noff c < 1 then none
  else some { s with
    noff := Function.update s.noff c (s.noff c - 1)
    intr := if s.noff c - 1 = 0 ∧ s.intena c = true then Function.update s.intr c true else s.intr
    depth := Function.update s.depth (s.thread c) (s.depth (s.thread c) - 1) }

/-- `sched` saves the flag in the thread, and the scheduler goes on. -/
def sched (s : State C P L) (c : C) (p : P) (state : ProcState) : State C P L :=
  { s with
    saved := Function.update s.saved p (some (s.intena c))
    state := Function.update s.state p state
    run := Function.update s.run c none
    before := Function.update s.before (.scheduler c) (s.before (.proc p))
    lent := Function.update s.lent (.scheduler c) true }

/-- The scheduler switches to a process, which goes on in `sched`, where it
restores the flag, or starts in `forkret`. -/
def swtch (s : State C P L) (c : C) (p : P) : State C P L :=
  let s := { s with
    state := Function.update s.state p .RUNNING
    run := Function.update s.run c (some p) }
  match s.saved p with
  | some intena => { s with intena := Function.update s.intena c intena }
  | none => { s with
    depth := Function.update s.depth (.proc p) 1
    before := Function.update s.before (.proc p) (s.before (.scheduler c))
    lent := Function.update s.lent (.proc p) true }

end State

/-- The next state; there is none after a panic. -/
def next (s : State C P L) : Event C P L → Option (State C P L)
  | .push_off c => if s.spin c = none then some (s.push_off c) else none
  | .pop_off c => if s.spin c = none then s.pop_off c else none
  | .acquire c k =>
    if s.spin c = none ∧ s.owner k ≠ some c then
      some { s.push_off c with spin := Function.update s.spin c (some k) }
    else none
  | .acquired c =>
    match s.spin c with
    | none => none
    | some k =>
      if s.owner k = none then
        some { s with
          spin := Function.update s.spin c none
          owner := Function.update s.owner k (some c) }
      else none
  | .release c k =>
    if s.spin c = none ∧ s.owner k = some c then
      { s with owner := Function.update s.owner k none }.pop_off c
    else none
  | .intr c on =>
    if s.spin c = none ∧ s.noff c = 0 then some { s with intr := Function.update s.intr c on }
    else none
  | .sched c state =>
    match s.run c with
    | none => none
    | some p =>
      if s.spin c = none ∧ s.owner (.proc p) = some c ∧ s.noff c = 1 ∧ state ≠ .RUNNING ∧
          s.intr c = false then some (s.sched c p state)
      else none
  | .swtch c p =>
    -- `scheduler` holds `p->lock` then, and no other
    if s.spin c = none ∧ s.run c = none ∧ s.owner (.proc p) = some c ∧ s.noff c = 1 ∧
        s.state p = .RUNNABLE then some (s.swtch c p)
    else none
  | .setState c p state =>
    if s.owner (.proc p) = some c ∧ s.state p ≠ .RUNNING ∧ state ≠ .RUNNING then
      some { s with state := Function.update s.state p state }
    else none
  | .allocproc c p =>
    if s.owner (.proc p) = some c ∧ s.state p = .UNUSED then
      some { s with
        state := Function.update s.state p .USED
        saved := Function.update s.saved p none }
    else none

end

/-- At boot every CPU runs its scheduler, and holds no lock. -/
def AtBoot {C P L : Type} (s : State C P L) : Prop :=
  (∀ c, s.run c = none) ∧ (∀ c, s.noff c = 0) ∧ (∀ k, s.owner k = none) ∧
    (∀ c, s.spin c = none) ∧ (∀ p, s.state p = .UNUSED) ∧ (∀ p, s.saved p = none) ∧
    ∀ t, s.depth t = 0

def machine (C P L : Type) [DecidableEq C] [DecidableEq P] [DecidableEq L] :
    Machine (State C P L) (Event C P L) := ⟨AtBoot, next⟩

/-! ## The invariant -/

/-- `noff` counts the `push_off`s of the thread that runs, and `intena` is the
flag before the first; a process that is switched away has one, and the flag. -/
structure Inv {C P L : Type} (s : State C P L) : Prop where
  noff : ∀ c, s.noff c = s.depth (s.thread c)
  off : ∀ c, 0 < s.noff c → s.intr c = false
  intena : ∀ c, 0 < s.noff c → s.intena c = s.before (s.thread c)
  running : ∀ {c p}, s.run c = some p → s.state p = .RUNNING
  unique : ∀ {c c' p}, s.run c = some p → s.run c' = some p → c = c'
  left : ∀ {c p}, s.run c = some p → s.depth (.scheduler c) = 1
  saved : ∀ {p intena}, (∀ c, s.run c ≠ some p) → s.saved p = some intena →
    s.depth (.proc p) = 1 ∧ intena = s.before (.proc p)
  own : ∀ t, 0 < s.depth t → s.lent t = false → s.before t = s.first t

variable {C P L : Type} {s s' : State C P L} {c c' : C} {p : P}

theorem thread_none (h : s.run c = none) : s.thread c = .scheduler c := by
  unfold State.thread
  rw [h]

theorem thread_some (h : s.run c = some p) : s.thread c = .proc p := by
  unfold State.thread
  rw [h]

/-- Different CPUs run different threads. -/
theorem Inv.thread_ne (h : Inv s) (hne : c' ≠ c) : s.thread c' ≠ s.thread c := by
  intro he
  unfold State.thread at he
  cases hc : s.run c with
  | none =>
    cases hc' : s.run c' with
    | none =>
      simp only [hc, hc'] at he
      cases he
      exact hne rfl
    | some p' =>
      simp only [hc, hc'] at he
      cases he
  | some p =>
    cases hc' : s.run c' with
    | none =>
      simp only [hc, hc'] at he
      cases he
    | some p' =>
      simp only [hc, hc'] at he
      cases he
      exact hne (h.unique hc' hc)

/-- A process that no CPU runs is not the thread of one. -/
theorem thread_ne_proc (h : ∀ c, s.run c ≠ some p) (c : C) : s.thread c ≠ .proc p := by
  unfold State.thread
  cases hc : s.run c with
  | none => exact nofun
  | some p' =>
    intro he
    cases he
    exact h c hc

/-- The scheduler of a CPU that runs a process is not the thread of one. -/
theorem thread_ne_scheduler (h : s.run c = some p) (c' : C) : s.thread c' ≠ .scheduler c := by
  unfold State.thread
  cases hc : s.run c' with
  | none =>
    intro he
    cases he
    rw [h] at hc
    cases hc
  | some p' => exact nofun


section

variable [DecidableEq C] [DecidableEq P] [DecidableEq L]

/-! ## One lemma for each change -/

omit [DecidableEq L] in
theorem Inv.push_off (h : Inv s) (c : C) : Inv (s.push_off c) := by
  have hthread : ∀ c', (s.push_off c).thread c' = s.thread c' := fun _ => rfl
  have hnoff := h.noff c
  refine ⟨fun c' => ?_, fun c' hpos => ?_, fun c' hpos => ?_, h.running, h.unique,
    fun {c' p} hr => ?_, fun {p intena} hr hs => ?_, fun t hpos hlent => ?_⟩
  · rw [hthread]
    simp only [State.push_off]
    by_cases hc : c' = c
    · rw [hc, Function.update_self, Function.update_self, hnoff]
    · rw [Function.update_of_ne hc, Function.update_of_ne (h.thread_ne hc), h.noff]
  · simp only [State.push_off] at hpos ⊢
    by_cases hc : c' = c
    · rw [hc, Function.update_self]
    · rw [Function.update_of_ne hc] at hpos ⊢
      exact h.off c' hpos
  · rw [hthread]
    simp only [State.push_off, ← hnoff] at hpos ⊢
    by_cases hc : c' = c
    · subst hc
      by_cases h0 : s.noff c' = 0
      · rw [if_pos h0, if_pos h0, Function.update_self, Function.update_self]
      · rw [if_neg h0, if_neg h0]
        exact h.intena c' (Nat.pos_of_ne_zero h0)
    · rw [Function.update_of_ne hc] at hpos
      have hold := h.intena c' hpos
      by_cases h0 : s.noff c = 0
      · rw [if_pos h0, if_pos h0, Function.update_of_ne hc, Function.update_of_ne (h.thread_ne hc)]
        exact hold
      · rw [if_neg h0, if_neg h0]
        exact hold
  · have hne : s.thread c ≠ .scheduler c' := thread_ne_scheduler hr c
    simp only [State.push_off]
    rw [Function.update_of_ne hne.symm]
    exact h.left hr
  · have hne : s.thread c ≠ .proc p := thread_ne_proc hr c
    obtain ⟨hdepth, hintena⟩ := h.saved hr hs
    simp only [State.push_off]
    rw [Function.update_of_ne hne.symm]
    refine ⟨hdepth, ?_⟩
    split
    next => rwa [Function.update_of_ne hne.symm]
    next => exact hintena
  · simp only [State.push_off] at hpos hlent ⊢
    by_cases h0 : s.depth (s.thread c) = 0
    · rw [if_pos h0] at hlent ⊢
      rw [if_pos h0]
      by_cases ht : t = s.thread c
      · rw [ht, Function.update_self, Function.update_self]
      · rw [Function.update_of_ne ht] at hpos hlent ⊢
        rw [Function.update_of_ne ht]
        exact h.own t hpos hlent
    · rw [if_neg h0] at hlent ⊢
      rw [if_neg h0]
      by_cases ht : t = s.thread c
      · subst ht
        exact h.own _ (Nat.pos_of_ne_zero h0) hlent
      · rw [Function.update_of_ne ht] at hpos
        exact h.own t hpos hlent

omit [DecidableEq L] in
/-- What `pop_off` does, when it does not panic. -/
theorem pop_off_eq (hpop : s.pop_off c = some s') : s.intr c = false ∧ 0 < s.noff c ∧
    s' = { s with
      noff := Function.update s.noff c (s.noff c - 1)
      intr := if s.noff c - 1 = 0 ∧ s.intena c = true then Function.update s.intr c true
        else s.intr
      depth := Function.update s.depth (s.thread c) (s.depth (s.thread c) - 1) } := by
  unfold State.pop_off at hpop
  split at hpop
  next => cases hpop
  next hno =>
    rw [not_or] at hno
    refine ⟨by simpa using hno.1, by omega, (Option.some.inj hpop).symm⟩

omit [DecidableEq L] in
theorem Inv.pop_off (h : Inv s) (hpop : s.pop_off c = some s') : Inv s' := by
  obtain ⟨-, hpos, rfl⟩ := pop_off_eq hpop
  have hnoff := h.noff c
  refine ⟨fun c' => ?_, fun c' hpos' => ?_, fun c' hpos' => ?_, h.running, h.unique,
    fun {c' p} hr => ?_, fun {p intena} hr hs => ?_, fun t hpos' hlent => ?_⟩
  · show Function.update s.noff c _ c' = Function.update s.depth (s.thread c) _ (s.thread c')
    by_cases hc : c' = c
    · rw [hc, Function.update_self, Function.update_self, hnoff]
    · rw [Function.update_of_ne hc, Function.update_of_ne (h.thread_ne hc), h.noff]
  · simp only at hpos' ⊢
    by_cases hc : c' = c
    · subst hc
      rw [Function.update_self] at hpos'
      rw [if_neg (by omega)]
      exact h.off c' hpos
    · rw [Function.update_of_ne hc] at hpos'
      have hold := h.off c' hpos'
      split
      next => rwa [Function.update_of_ne hc]
      next => exact hold
  · have hold : 0 < s.noff c' := by
      simp only at hpos'
      by_cases hc : c' = c
      · rw [hc]
        exact hpos
      · rwa [Function.update_of_ne hc] at hpos'
    exact h.intena c' hold
  · have hne : s.thread c ≠ .scheduler c' := thread_ne_scheduler hr c
    simp only
    rw [Function.update_of_ne hne.symm]
    exact h.left hr
  · have hne : s.thread c ≠ .proc p := thread_ne_proc hr c
    simp only
    rw [Function.update_of_ne hne.symm]
    exact h.saved hr hs
  · refine h.own t ?_ hlent
    simp only at hpos'
    by_cases ht : t = s.thread c
    · rw [ht, ← hnoff]
      exact hpos
    · rwa [Function.update_of_ne ht] at hpos'

omit [DecidableEq L] in
/-- When the last `push_off` of a thread is undone, the flag is what the CPU
had before. -/
theorem Inv.last (h : Inv s) (hpop : s.pop_off c = some s') (hlast : s.depth (s.thread c) = 1) :
    s'.intr c = s.before (s.thread c) := by
  obtain ⟨hoff, hpos, rfl⟩ := pop_off_eq hpop
  have hnoff := h.noff c
  have hbefore := h.intena c hpos
  simp only
  rw [← hbefore]
  split
  next hon => rw [Function.update_self, hon.2]
  next hon =>
    rw [hoff]
    by_contra hne
    exact hon ⟨by omega, by simpa using Ne.symm hne⟩

omit [DecidableEq L] in
theorem Inv.sched (h : Inv s) (hrun : s.run c = some p) (hone : s.noff c = 1)
    {state : ProcState} : Inv (s.sched c p state) := by
  have hdepth := h.noff c
  rw [thread_some hrun, hone] at hdepth
  have hintena := h.intena c (by omega)
  rw [thread_some hrun] at hintena
  have hrun' : ∀ c', (s.sched c p state).run c' = if c' = c then none else s.run c' := by
    intro c'
    exact Function.update_apply ..
  have hother : ∀ {c'}, c' ≠ c → (s.sched c p state).thread c' = s.thread c' := by
    intro c' hc
    unfold State.thread
    rw [hrun', if_neg hc]
  have hself : (s.sched c p state).thread c = .scheduler c := by
    unfold State.thread
    rw [hrun', if_pos rfl]
  have hsched : ∀ {c'}, c' ≠ c → s.thread c' ≠ .scheduler c := fun _ => thread_ne_scheduler hrun _
  refine ⟨fun c' => ?_, h.off, fun c' hpos => ?_, fun {c' p'} hr => ?_, fun {c₁ c₂ p'} h₁ h₂ => ?_,
    fun {c' p'} hr => ?_, fun {p' intena} hr hs => ?_, fun t hpos hlent => ?_⟩
  · by_cases hc : c' = c
    · rw [hc, hself]
      exact hone.trans (h.left hrun).symm
    · rw [hother hc]
      exact h.noff c'
  · show s.intena c' = Function.update s.before (.scheduler c) _ _
    by_cases hc : c' = c
    · rw [hc, hself, Function.update_self, hintena]
    · rw [hother hc, Function.update_of_ne (hsched hc)]
      exact h.intena c' hpos
  · rw [hrun'] at hr
    split at hr
    next => cases hr
    next hc =>
      have hp : p' ≠ p := by
        intro he
        subst he
        exact hc (h.unique hr hrun)
      show Function.update s.state p state p' = _
      rw [Function.update_of_ne hp]
      exact h.running hr
  · rw [hrun'] at h₁ h₂
    split at h₁
    next => cases h₁
    next =>
      split at h₂
      next => cases h₂
      next => exact h.unique h₁ h₂
  · rw [hrun'] at hr
    split at hr
    next => cases hr
    next => exact h.left hr
  · show s.depth (.proc p') = 1 ∧
      intena = Function.update s.before (.scheduler c) (s.before (.proc p)) (.proc p')
    have hne : Thread.proc p' ≠ .scheduler c := nofun
    rw [Function.update_of_ne hne]
    change Function.update s.saved p _ p' = _ at hs
    by_cases hp : p' = p
    · subst hp
      rw [Function.update_self] at hs
      exact ⟨hdepth.symm, (Option.some.inj hs).symm.trans hintena⟩
    · rw [Function.update_of_ne hp] at hs
      refine h.saved (fun c' hc' => ?_) hs
      have hno := hr c'
      rw [hrun'] at hno
      split at hno
      next he =>
        rw [he, hrun] at hc'
        exact hp (Option.some.inj hc').symm
      next => exact hno hc'
  · show Function.update s.before (.scheduler c) (s.before (.proc p)) t = s.first t
    change Function.update s.lent (.scheduler c) true t = false at hlent
    by_cases ht : t = .scheduler c
    · rw [ht, Function.update_self] at hlent
      cases hlent
    · rw [Function.update_of_ne ht] at hlent ⊢
      exact h.own t hpos hlent

omit [DecidableEq L] in
/-- The two ways in which a process goes on. -/
theorem swtch_cases (s : State C P L) (c : C) (p : P) :
    (∃ intena, s.saved p = some intena ∧ s.swtch c p = { s with
      state := Function.update s.state p .RUNNING
      run := Function.update s.run c (some p)
      intena := Function.update s.intena c intena }) ∨
    (s.saved p = none ∧ s.swtch c p = { s with
      state := Function.update s.state p .RUNNING
      run := Function.update s.run c (some p)
      depth := Function.update s.depth (.proc p) 1
      before := Function.update s.before (.proc p) (s.before (.scheduler c))
      lent := Function.update s.lent (.proc p) true }) := by
  cases hs : s.saved p with
  | some intena => exact .inl ⟨intena, rfl, by simp only [State.swtch, hs]⟩
  | none => exact .inr ⟨rfl, by simp only [State.swtch, hs]⟩

omit [DecidableEq L] in
theorem swtch_run (s : State C P L) (c : C) (p : P) (c' : C) :
    (s.swtch c p).run c' = if c' = c then some p else s.run c' := by
  rcases swtch_cases s c p with ⟨intena, -, he⟩ | ⟨-, he⟩
  · rw [he]
    exact Function.update_apply ..
  · rw [he]
    exact Function.update_apply ..

omit [DecidableEq L] in
theorem swtch_state (s : State C P L) (c : C) (p p' : P) :
    (s.swtch c p).state p' = if p' = p then .RUNNING else s.state p' := by
  rcases swtch_cases s c p with ⟨intena, -, he⟩ | ⟨-, he⟩
  · rw [he]
    exact Function.update_apply ..
  · rw [he]
    exact Function.update_apply ..

omit [DecidableEq L] in
theorem swtch_same (s : State C P L) (c : C) (p : P) :
    (s.swtch c p).noff = s.noff ∧ (s.swtch c p).intr = s.intr ∧
      (s.swtch c p).saved = s.saved ∧ (s.swtch c p).first = s.first ∧
      ∀ t, t ≠ .proc p → (s.swtch c p).depth t = s.depth t ∧ (s.swtch c p).before t = s.before t ∧
        (s.swtch c p).lent t = s.lent t := by
  rcases swtch_cases s c p with ⟨intena, -, he⟩ | ⟨-, he⟩
  · rw [he]
    exact ⟨rfl, rfl, rfl, rfl, fun t _ => ⟨rfl, rfl, rfl⟩⟩
  · rw [he]
    exact ⟨rfl, rfl, rfl, rfl, fun t ht => ⟨Function.update_of_ne ht ..,
      Function.update_of_ne ht .., Function.update_of_ne ht ..⟩⟩

omit [DecidableEq L] in
/-- The thread that goes on, or starts. -/
theorem Inv.swtch_thread (h : Inv s) (hnot : ∀ c', s.run c' ≠ some p)
    (hintena : s.intena c = s.before (.scheduler c)) :
    (s.swtch c p).depth (.proc p) = 1 ∧
      (s.swtch c p).intena c = (s.swtch c p).before (.proc p) ∧
      ((s.swtch c p).lent (.proc p) = false →
        (s.swtch c p).before (.proc p) = s.first (.proc p)) ∧
      ∀ c', c' ≠ c → (s.swtch c p).intena c' = s.intena c' := by
  rcases swtch_cases s c p with ⟨intena, hs, he⟩ | ⟨-, he⟩
  · obtain ⟨hd, hi⟩ := h.saved hnot hs
    rw [he]
    refine ⟨hd, ?_, fun hlent => h.own _ (by omega) hlent, fun c' hc => ?_⟩
    · exact (Function.update_self ..).trans hi
    · exact Function.update_of_ne hc ..
  · rw [he]
    refine ⟨Function.update_self .., ?_, fun hlent => ?_, fun _ _ => rfl⟩
    · show s.intena c = Function.update s.before (.proc p) (s.before (.scheduler c)) (.proc p)
      rw [Function.update_self, hintena]
    · change Function.update s.lent (.proc p) true (.proc p) = false at hlent
      rw [Function.update_self] at hlent
      cases hlent

omit [DecidableEq L] in
theorem Inv.swtch (h : Inv s) (hrun : s.run c = none) (hone : s.noff c = 1)
    (hstate : s.state p = .RUNNABLE) : Inv (s.swtch c p) := by
  have hdepth := h.noff c
  rw [thread_none hrun, hone] at hdepth
  have hintena := h.intena c (by omega)
  rw [thread_none hrun] at hintena
  have hnot : ∀ c', s.run c' ≠ some p := by
    intro c' hr
    rw [h.running hr] at hstate
    cases hstate
  have hrun' := swtch_run s c p
  have hstate' := swtch_state s c p
  have hother : ∀ {c'}, c' ≠ c → (s.swtch c p).thread c' = s.thread c' := by
    intro c' hc
    unfold State.thread
    rw [hrun', if_neg hc]
  have hself : (s.swtch c p).thread c = .proc p := by
    unfold State.thread
    rw [hrun', if_pos rfl]
  have hne : ∀ c', s.thread c' ≠ .proc p := thread_ne_proc hnot
  obtain ⟨hnoff, hintr, hsaved, hfirst, hthreads⟩ := swtch_same s c p
  obtain ⟨hdepth', hintena', hown', hintenas⟩ := h.swtch_thread hnot hintena
  refine ⟨fun c' => ?_, fun c' hpos => ?_, fun c' hpos => ?_, fun {c' p'} hr => ?_,
    fun {c₁ c₂ p'} h₁ h₂ => ?_, fun {c' p'} hr => ?_, fun {p' intena} hr hs => ?_,
    fun t hpos hlent => ?_⟩
  · rw [hnoff]
    by_cases hc : c' = c
    · rw [hc, hself, hdepth', hone]
    · rw [hother hc, (hthreads _ (hne c')).1, h.noff]
  · rw [hnoff] at hpos
    rw [hintr]
    exact h.off c' hpos
  · rw [hnoff] at hpos
    by_cases hc : c' = c
    · rw [hc, hself, hintena']
    · rw [hother hc, (hthreads _ (hne c')).2.1, hintenas c' hc]
      exact h.intena c' hpos
  · rw [hrun'] at hr
    rw [hstate']
    split at hr
    next =>
      cases hr
      rw [if_pos rfl]
    next =>
      have hp : p' ≠ p := by
        intro he
        exact hnot c' (he ▸ hr)
      rw [if_neg hp]
      exact h.running hr
  · rw [hrun'] at h₁ h₂
    split at h₁
    next hc₁ =>
      cases h₁
      split at h₂
      next hc₂ => rw [hc₁, hc₂]
      next => exact absurd h₂ (hnot c₂)
    next hc₁ =>
      split at h₂
      next hc₂ =>
        cases h₂
        exact absurd h₁ (hnot c₁)
      next => exact h.unique h₁ h₂
  · have hsched : Thread.scheduler c' ≠ .proc p := by simp
    rw [(hthreads _ hsched).1]
    rw [hrun'] at hr
    split at hr
    next hc => rw [hc, hdepth]
    next => exact h.left hr
  · have hp : p' ≠ p := by
      intro he
      have hno := hr c
      rw [hrun', if_pos rfl, he] at hno
      exact hno rfl
    have hproc : Thread.proc (C := C) p' ≠ .proc p := fun he => hp (Thread.proc.inj he)
    rw [(hthreads _ hproc).1, (hthreads _ hproc).2.1]
    rw [hsaved] at hs
    refine h.saved (fun c' hc' => ?_) hs
    have hno := hr c'
    rw [hrun'] at hno
    split at hno
    next he =>
      rw [he, hrun] at hc'
      cases hc'
    next => exact hno hc'
  · rw [hfirst]
    by_cases ht : t = .proc p
    · subst ht
      exact hown' hlent
    · obtain ⟨hd, hb, hl⟩ := hthreads t ht
      rw [hd] at hpos
      rw [hl] at hlent
      rw [hb]
      exact h.own t hpos hlent

/-! ## Steps and runs -/

omit [DecidableEq C] [DecidableEq P] [DecidableEq L] in
/-- Locks and spinning do not matter. -/
theorem Inv.locks (h : Inv s) (owner : Lock P L → Option C) (spin : C → Option (Lock P L)) :
    Inv { s with owner := owner, spin := spin } :=
  ⟨h.noff, h.off, h.intena, h.running, h.unique, h.left, h.saved, h.own⟩

omit [DecidableEq C] [DecidableEq L] in
/-- Another state of a process that does not run. -/
theorem Inv.setState (h : Inv s) (hstate : s.state p ≠ .RUNNING) (state : ProcState) :
    Inv { s with state := Function.update s.state p state } := by
  refine ⟨h.noff, h.off, h.intena, fun {c' p'} hr => ?_, h.unique, h.left, h.saved, h.own⟩
  have hrunning := h.running hr
  have hne : p' ≠ p := by
    intro he
    rw [he] at hrunning
    exact hstate hrunning
  exact (Function.update_of_ne hne ..).trans hrunning

/-- What an event does, apart from who holds and spins for the locks. -/
inductive Step (s : State C P L) : State C P L → Prop
  | push (c : C) (spin : C → Option (Lock P L)) : Step s { s.push_off c with spin := spin }
  | pop {s' : State C P L} (c : C) (owner : Lock P L → Option C)
      (hpop : { s with owner := owner }.pop_off c = some s') : Step s s'
  | locks (owner : Lock P L → Option C) (spin : C → Option (Lock P L)) :
      Step s { s with owner := owner, spin := spin }
  | intr (c : C) (on : Bool) (hnoff : s.noff c = 0) :
      Step s { s with intr := Function.update s.intr c on }
  | sched {c : C} {p : P} (state : ProcState) (hrun : s.run c = some p) (hone : s.noff c = 1) :
      Step s (s.sched c p state)
  | swtch {c : C} {p : P} (hrun : s.run c = none) (hone : s.noff c = 1)
      (hstate : s.state p = .RUNNABLE) : Step s (s.swtch c p)
  | setState {p : P} (state : ProcState) (hstate : s.state p ≠ .RUNNING) :
      Step s { s with state := Function.update s.state p state }
  | allocproc {p : P} (hstate : s.state p = .UNUSED) : Step s { s with
      state := Function.update s.state p .USED
      saved := Function.update s.saved p none }

theorem next_step {e : Event C P L} (he : next s e = some s') : Step s s' := by
  cases e with
  | push_off c =>
    simp only [next] at he
    split at he
    next =>
      cases he
      exact .push c s.spin
    next => cases he
  | pop_off c =>
    simp only [next] at he
    split at he
    next => exact .pop c s.owner he
    next => cases he
  | acquire c k =>
    simp only [next] at he
    split at he
    next =>
      cases he
      exact .push c _
    next => cases he
  | acquired c =>
    simp only [next] at he
    split at he
    next => cases he
    next k hk =>
      split at he
      next =>
        cases he
        exact .locks _ _
      next => cases he
  | release c k =>
    simp only [next] at he
    split at he
    next => exact .pop c _ he
    next => cases he
  | intr c on =>
    simp only [next] at he
    split at he
    next hc =>
      cases he
      exact .intr c on hc.2
    next => cases he
  | sched c state =>
    simp only [next] at he
    split at he
    next => cases he
    next p hrun =>
      split at he
      next hc =>
        cases he
        exact .sched state hrun hc.2.2.1
      next => cases he
  | swtch c p =>
    simp only [next] at he
    split at he
    next hc =>
      cases he
      exact .swtch hc.2.1 hc.2.2.2.1 hc.2.2.2.2
    next => cases he
  | setState c p state =>
    simp only [next] at he
    split at he
    next hc =>
      cases he
      exact .setState state hc.2.1
    next => cases he
  | allocproc c p =>
    simp only [next] at he
    split at he
    next hc =>
      cases he
      exact .allocproc hc.2
    next => cases he

theorem Inv.step (h : Inv s) {e : Event C P L} (he : next s e = some s') : Inv s' := by
  cases next_step he with
  | push c spin => exact (h.push_off c).locks _ _
  | pop c owner hpop => exact (h.locks owner s.spin).pop_off hpop
  | locks owner spin => exact h.locks owner spin
  | intr c on hnoff =>
    refine ⟨h.noff, fun c' hpos => ?_, h.intena, h.running, h.unique, h.left, h.saved, h.own⟩
    show Function.update s.intr c on c' = false
    rw [Function.update_of_ne]
    · exact h.off c' hpos
    · rintro rfl
      exact absurd hnoff (Nat.ne_of_gt hpos)
  | sched state hrun hone => exact h.sched hrun hone
  | swtch hrun hone hstate => exact h.swtch hrun hone hstate
  | setState state hstate => exact h.setState hstate state
  | @allocproc p hunused =>
    have hstate : s.state p ≠ .RUNNING := by
      rw [hunused]
      exact nofun
    have h' := h.setState hstate .USED
    refine ⟨h'.noff, h'.off, h'.intena, h'.running, h'.unique, h'.left,
      fun {p' intena} hr hs => ?_, h'.own⟩
    change Function.update s.saved p none p' = some intena at hs
    by_cases hp : p' = p
    · rw [hp, Function.update_self] at hs
      cases hs
    · rw [Function.update_of_ne hp] at hs
      exact h.saved hr hs

omit [DecidableEq C] [DecidableEq P] [DecidableEq L] in
theorem AtBoot.inv (h : AtBoot s) : Inv s := by
  obtain ⟨hrun, hnoff, -, -, -, hsaved, hdepth⟩ := h
  refine ⟨fun c => ?_, fun c hpos => ?_, fun c hpos => ?_, fun {c p} hr => ?_,
    fun {c c' p} hr _ => ?_, fun {c p} hr => ?_, fun {p intena} _ hs => ?_, fun t hpos _ => ?_⟩
  · rw [hnoff, hdepth]
  · rw [hnoff] at hpos
    cases hpos
  · rw [hnoff] at hpos
    cases hpos
  · rw [hrun] at hr
    cases hr
  · rw [hrun] at hr
    cases hr
  · rw [hrun] at hr
    cases hr
  · rw [hsaved] at hs
    cases hs
  · rw [hdepth] at hpos
    cases hpos

/-- Only `pop_off` undoes a `push_off` of a thread. -/
theorem Inv.undone (h : Inv s) {e : Event C P L} (he : next s e = some s')
    (hpos : 0 < s.depth (s.thread c)) (hzero : s'.depth (s.thread c) = 0) :
    ∃ owner, { s with owner := owner }.pop_off c = some s' := by
  cases next_step he with
  | push c' spin =>
    change Function.update s.depth (s.thread c') _ (s.thread c) = 0 at hzero
    by_cases hc : s.thread c = s.thread c'
    · rw [hc, Function.update_self] at hzero
      omega
    · rw [Function.update_of_ne hc] at hzero
      omega
  | pop c' owner hpop =>
    by_cases hc : c = c'
    · subst hc
      exact ⟨owner, hpop⟩
    · obtain ⟨-, -, rfl⟩ := pop_off_eq hpop
      change Function.update s.depth (s.thread c') _ (s.thread c) = 0 at hzero
      rw [Function.update_of_ne (h.thread_ne hc)] at hzero
      omega
  | @swtch c' p hrun hone hstate =>
    have hne : s.thread c ≠ .proc p := by
      refine thread_ne_proc (fun c'' hr => ?_) c
      have hrunning := h.running hr
      rw [hstate] at hrunning
      cases hrunning
    rcases swtch_cases s c' p with ⟨intena, -, he⟩ | ⟨-, he⟩
    · rw [he] at hzero
      exact absurd hzero (Nat.ne_of_gt hpos)
    · rw [he] at hzero
      change Function.update s.depth (.proc p) 1 (s.thread c) = 0 at hzero
      rw [Function.update_of_ne hne] at hzero
      omega
  | locks | intr | sched | setState | allocproc => exact absurd hzero (Nat.ne_of_gt hpos)

/-- A process gets the flag of another thread only when it starts. -/
theorem lent_step {e : Event C P L} (he : next s e = some s') (hlent : s'.lent (.proc p) = true) :
    s.lent (.proc p) = true ∨ s.saved p = none := by
  cases next_step he with
  | push c' spin =>
    change (if _ then Function.update s.lent (s.thread c') false else s.lent) (.proc p) = true
      at hlent
    split at hlent
    next =>
      by_cases hc : Thread.proc p = s.thread c'
      · rw [hc, Function.update_self] at hlent
        cases hlent
      · rw [Function.update_of_ne hc] at hlent
        exact .inl hlent
    next => exact .inl hlent
  | pop c' owner hpop =>
    obtain ⟨-, -, rfl⟩ := pop_off_eq hpop
    exact .inl hlent
  | @sched c' p' state hrun hone =>
    change Function.update s.lent (.scheduler c') true (.proc p) = true at hlent
    have hne : Thread.proc p ≠ .scheduler c' := nofun
    rw [Function.update_of_ne hne] at hlent
    exact .inl hlent
  | @swtch c' p' hrun hone hstate =>
    rcases swtch_cases s c' p' with ⟨intena, -, he⟩ | ⟨hs, he⟩
    · rw [he] at hlent
      exact .inl hlent
    · rw [he] at hlent
      change Function.update s.lent (.proc p') true (.proc p) = true at hlent
      by_cases hp : p = p'
      · rw [hp]
        exact .inr hs
      · have hne : Thread.proc (C := C) p ≠ .proc p' := fun he => hp (Thread.proc.inj he)
        rw [Function.update_of_ne hne] at hlent
        exact .inl hlent
  | locks | intr | setState | allocproc => exact .inl hlent

/-- Interrupts are off while `noff` is positive; `noff` counts the `push_off`s
of the thread that runs; and when the last of them is undone the flag is what
it was before the first, unless the thread has been lent the flag of another,
as a scheduler is and a process that starts. -/
theorem intr_nesting (h : (machine C P L).Reachable s) :
    (∀ c, 0 < s.noff c → s.intr c = false) ∧ (∀ c, s.noff c = s.depth (s.thread c)) ∧
      (∀ e s' c, next s e = some s' → 0 < s.depth (s.thread c) → s'.depth (s.thread c) = 0 →
        s'.intr c = s.before (s.thread c) ∧
          (s.lent (s.thread c) = false → s'.intr c = s.first (s.thread c))) ∧
      ∀ e s' p, next s e = some s' → s'.lent (.proc p) = true →
        s.lent (.proc p) = true ∨ s.saved p = none := by
  have hinv : Inv s := h.invariant (I := Inv) (fun _ hboot => AtBoot.inv hboot) fun _ _ _ hs he =>
    hs.step he
  refine ⟨hinv.off, hinv.noff, fun e s' c he hpos hzero => ?_, fun e s' p he hlent =>
    lent_step he hlent⟩
  obtain ⟨owner, hpop⟩ := hinv.undone he hpos hzero
  have hone : s.depth (s.thread c) = 1 := by
    obtain ⟨-, -, rfl⟩ := pop_off_eq hpop
    change Function.update s.depth (s.thread c) (s.depth (s.thread c) - 1) (s.thread c) = 0 at hzero
    rw [Function.update_self] at hzero
    omega
  have hlast := (hinv.locks owner s.spin).last hpop hone
  exact ⟨hlast, fun hlent => hlast.trans (hinv.own _ hpos hlent)⟩

end

/-! ## One CPU -/

/-- A CPU and a place for a process, at boot. -/
def oneCpu : State Unit Unit Empty where
  intr _ := false
  noff _ := 0
  intena _ := false
  run _ := none
  owner _ := none
  spin _ := none
  state _ := .UNUSED
  saved _ := none
  depth _ := 0
  first _ := false
  before _ := false
  lent _ := false

theorem oneCpu_atBoot : AtBoot oneCpu :=
  ⟨fun _ => rfl, fun _ => rfl, fun _ => rfl, fun _ => rfl, fun _ => rfl, fun _ => rfl, fun _ => rfl⟩

/-- The scheduler runs a process, which yields with interrupts off, as after a
timer interrupt in user space. -/
def yields : List (Event Unit Unit Empty) :=
  [.intr () true, .acquire () (.proc ()), .acquired (), .allocproc () (),
    .setState () () .RUNNABLE, .swtch () (), .release () (.proc ()), .intr () false,
    .acquire () (.proc ()), .acquired (), .sched () .RUNNABLE]

/-- The scheduler has the CPU again, and its `release` brings back the flag it
was lent. -/
theorem intr_nesting_oneCpu : ∃ s s', (machine Unit Unit Empty).exec oneCpu yields = some s ∧
    s.noff () = s.depth (s.thread ()) ∧ next s (.release () (.proc ())) = some s' ∧
    s'.intr () = s.before (s.thread ()) := by
  have hrun : (match (machine Unit Unit Empty).exec oneCpu yields with
      | none => false
      | some s =>
        match next s (.release () (.proc ())) with
        | none => false
        | some s' => decide (0 < s.depth (s.thread ()) ∧ s'.depth (s.thread ()) = 0)) = true := by
    decide
  split at hrun
  · cases hrun
  next s hs =>
    split at hrun
    · cases hrun
    next s' hs' =>
      rw [decide_eq_true_eq] at hrun
      obtain ⟨-, hnoff, hundone, -⟩ := intr_nesting ⟨oneCpu, yields, oneCpu_atBoot, hs⟩
      exact ⟨s, s', hs, hnoff (), hs', (hundone _ s' () hs' hrun.1 hrun.2).1⟩

/-- The scheduler's flag was on before its `acquire`, and is off after its
`release`. -/
theorem scheduler_flag_lost : ¬ ∀ (s s' : State Unit Unit Empty) (e : Event Unit Unit Empty),
    (machine Unit Unit Empty).Reachable s → next s e = some s' → 0 < s.depth (s.thread ()) →
    s'.depth (s.thread ()) = 0 → s'.intr () = s.first (s.thread ()) := by
  intro hall
  have hrun : (match (machine Unit Unit Empty).exec oneCpu yields with
      | none => false
      | some s =>
        match next s (.release () (.proc ())) with
        | none => false
        | some s' => decide (0 < s.depth (s.thread ()) ∧ s'.depth (s.thread ()) = 0 ∧
            s'.intr () ≠ s.first (s.thread ()))) = true := by decide
  cases hs : (machine Unit Unit Empty).exec oneCpu yields with
  | none =>
    rw [hs] at hrun
    cases hrun
  | some s =>
    simp only [hs] at hrun
    cases hs' : next s (.release () (.proc ())) with
    | none =>
      rw [hs'] at hrun
      cases hrun
    | some s' =>
      simp only [hs', decide_eq_true_eq] at hrun
      exact hrun.2.2 (hall s s' _ ⟨oneCpu, yields, oneCpu_atBoot, hs⟩ hs' hrun.1 hrun.2.1)

end Xv6.Nesting
