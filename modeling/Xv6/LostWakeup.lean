/-
proc.c: no wakeup is lost.

A process that calls `sleep` takes its own lock before it gives `lk` up and
has it until it is `SLEEPING`, so a `wakeup` that is called after the caller
got `lk` finds it asleep, or woken already.
-/
import Xv6.SleepLocks

namespace Xv6.Sleep

open Conc

variable {n : Nat} {C L Ch : Type}

namespace PC

/-- In `sleep`, before `release(lk)`. -/
def early : PC n L Ch → Bool
  | .sleepAcquire .. | .sleepRelease .. => true
  | _ => false

/-- In `wakeup(chan)`: the channel, and how many slots of `proc[]` it has
seen. -/
def scanned : PC n L Ch → Option (Ch × Nat)
  | .scan (.wakeup chan) i => some (chan, i)
  | .scanTest (.wakeup chan) i => some (chan, i)
  | .scanRelease (.wakeup chan) i _ => some (chan, i + 1)
  | .yieldAcquire k | .yieldSet k | .schedYield k | .yieldRelease k => k.scanned
  | _ => none

end PC

namespace Kernel

/-- Process `p` sleeps on `chan`, or is about to. -/
def Pending (s : Kernel n C L Ch) (p : Fin n) (chan : Ch) : Prop :=
  (∃ lk, s.pc p = .sleepSet chan lk) ∨ s.state p = .SLEEPING ∧ s.chan p = some chan

/-- What a step may do to the processes other than `p`: it puts none to
sleep. -/
structure Others (p : Fin n) (s s' : Kernel n C L Ch) : Prop where
  state : ∀ q, q ≠ p → s'.state q = .SLEEPING → s.state q = .SLEEPING
  chan : ∀ q, q ≠ p → ∀ ch, s'.chan q = some ch → s.chan q = some ch
  pc : ∀ q, q ≠ p → s'.pc q = s.pc q ∨ s'.pc q = .forkret
  sleeps : ∀ q, q ≠ p → s'.sleeps q = s.sleeps q
  wakes : ∀ q, q ≠ p → s'.wakes q = s.wakes q

namespace Others

variable {s s' s'' : Kernel n C L Ch} {p q : Fin n} {c : C} {k : Lock n L} {st : ProcState}

theorem refl (p : Fin n) (s : Kernel n C L Ch) : Others p s s :=
  ⟨fun _ _ h => h, fun _ _ _ h => h, fun _ _ => .inl rfl, fun _ _ => rfl, fun _ _ => rfl⟩

theorem goto {pc : PC n L Ch} (h : Others p s s') : Others p s (s'.goto p pc) := by
  refine ⟨h.state, h.chan, fun q hq => ?_, h.sleeps, h.wakes⟩
  rw [show (s'.goto p pc).pc q = s'.pc q from Function.update_of_ne hq _ _]
  exact h.pc q hq

theorem setState (h : Others p s s') (hst : st ≠ .SLEEPING ∨ q = p) :
    Others p s (s'.setState q st) := by
  refine ⟨fun r hr hs => ?_, h.chan, h.pc, h.sleeps, h.wakes⟩
  have hs' : Function.update s'.state q st r = .SLEEPING := hs
  by_cases hrq : r = q
  · subst hrq
    rw [Function.update_self] at hs'
    exact absurd hs' (hst.resolve_right hr)
  · rw [Function.update_of_ne hrq] at hs'
    exact h.state r hr hs'

variable [DecidableEq C] [DecidableEq L]

theorem acquire (p : Fin n) (h : s.acquire c k = some s') : Others p s s' := by
  obtain ⟨-, rfl⟩ := acquire_eq h
  exact ⟨fun _ _ h => h, fun _ _ _ h => h, fun _ _ => .inl rfl, fun _ _ => rfl, fun _ _ => rfl⟩

theorem release (p : Fin n) (h : s.release c k = some s') : Others p s s' := by
  obtain ⟨-, rfl⟩ := release_eq h
  exact ⟨fun _ _ h => h, fun _ _ _ h => h, fun _ _ => .inl rfl, fun _ _ => rfl, fun _ _ => rfl⟩

omit [DecidableEq L] in
theorem sched {pc : PC n L Ch} (h : s.sched c p pc = some s') : Others p s s' := by
  unfold Kernel.sched at h
  split at h
  · obtain rfl := Option.some.inj h
    have hgoto : Others p s (s.goto p pc) := (refl p s).goto
    exact ⟨hgoto.state, hgoto.chan, hgoto.pc, hgoto.sleeps, hgoto.wakes⟩
  · cases h

omit [DecidableEq C] [DecidableEq L] in
theorem visit [DecidableEq Ch] (p i : Fin n) (s : Kernel n C L Ch) (f : Scan Ch) :
    Others p s (s.visit i f).1 := by
  cases f with
  | wakeup chan =>
    simp only [Kernel.visit]
    split
    · exact (refl p s).setState (.inl (by decide))
    · exact refl p s
  | kill pid =>
    have hkill : Others p s { s with killed := Function.update s.killed i true } :=
      ⟨fun _ _ h => h, fun _ _ _ h => h, fun _ _ => .inl rfl, fun _ _ => rfl, fun _ _ => rfl⟩
    simp only [Kernel.visit]
    split
    · split
      · exact hkill.setState (.inl (by decide))
      · exact hkill
    · exact refl p s

variable [DecidableEq Ch]

theorem goProc (h : s.goProc c p = some s') : Others p s s' := by
  unfold Kernel.goProc at h
  cases hpc : s.pc p <;> rw [hpc] at h <;> dsimp only at h
  case user | dead => cases h
  case forkret | sleepRelease | sleepDrop | scanRelease | yieldRelease | exitRelease =>
    obtain ⟨s₁, hr, rfl⟩ := Option.map_eq_some_iff.1 h
    exact (release p hr).goto
  case sleepAcquire | sleepLock | yieldAcquire | exitAcquire =>
    obtain ⟨s₁, ha, rfl⟩ := Option.map_eq_some_iff.1 h
    exact (acquire p ha).goto
  case schedSleep | schedYield | schedExit => exact sched h
  case sleepSet chan lk =>
    obtain rfl := Option.some.inj h
    refine .goto (.setState ⟨fun _ _ h => h, fun q hq ch hc => ?_, fun _ _ => .inl rfl,
      fun _ _ => rfl, fun _ _ => rfl⟩ (.inr rfl))
    rwa [← Function.update_of_ne hq (some chan) s.chan]
  case sleepTidy lk =>
    obtain rfl := Option.some.inj h
    refine .goto ⟨fun _ _ h => h, fun q hq ch hc => ?_, fun _ _ => .inl rfl, fun _ _ => rfl,
      fun _ _ => rfl⟩
    rwa [← Function.update_of_ne hq none s.chan]
  case yieldSet | exitSet =>
    obtain rfl := Option.some.inj h
    exact ((refl p s).setState (.inr rfl)).goto
  case scan f i =>
    split at h
    · split at h
      · obtain rfl := Option.some.inj h
        exact (refl p s).goto
      · obtain ⟨s₁, ha, rfl⟩ := Option.map_eq_some_iff.1 h
        exact (acquire p ha).goto
    · obtain rfl := Option.some.inj h
      exact (refl p s).goto
  case scanTest f i =>
    obtain rfl := Option.some.inj h
    exact (visit p i s f).goto

omit [DecidableEq C] [DecidableEq L] [DecidableEq Ch] in
theorem timer (h : s.timer c p = some s') : Others p s s' := by
  unfold Kernel.timer at h
  split at h
  all_goals first
    | (split at h
       · obtain rfl := Option.some.inj h
         exact (refl p s).goto
       · cases h)
    | cases h

omit [DecidableEq Ch] in
theorem call {e : Event n C L Ch} (h : s.call c p e = some s') : Others p s s' := by
  cases e with
  | go | timer => cases h
  | acquire _ k => exact acquire p h
  | release _ k => exact release p h
  | sleep _ chan lk =>
    simp only [Kernel.call] at h
    split at h
    · obtain rfl := Option.some.inj h
      exact .goto ⟨fun _ _ h => h, fun _ _ _ h => h, fun _ _ => .inl rfl,
        fun q hq => Function.update_of_ne hq _ _, fun _ _ => rfl⟩
    · cases h
  | scan _ f =>
    obtain rfl := Option.some.inj h
    exact .goto ⟨fun _ _ h => h, fun _ _ _ h => h, fun _ _ => .inl rfl, fun _ _ => rfl,
      fun q hq => Function.update_of_ne hq _ _⟩
  | exit _ lk =>
    simp only [Kernel.call] at h
    split at h
    · obtain rfl := Option.some.inj h
      exact (refl p s).goto
    · cases h
  | alloc _ q pid =>
    simp only [Kernel.call] at h
    split at h
    · obtain rfl := Option.some.inj h
      exact .setState ⟨fun _ _ h => h, fun _ _ _ h => h, fun _ _ => .inl rfl, fun _ _ => rfl,
        fun _ _ => rfl⟩ (.inl (by decide))
    · cases h
  | publish _ q =>
    simp only [Kernel.call] at h
    split at h
    · obtain rfl := Option.some.inj h
      have hset : Others p s (s.setState q .RUNNABLE) := (refl p s).setState (.inl (by decide))
      refine ⟨hset.state, hset.chan, fun r _ => ?_, hset.sleeps, hset.wakes⟩
      by_cases hrq : r = q
      · subst hrq
        exact .inr (Function.update_self ..)
      · exact .inl (Function.update_of_ne hrq _ _)
    · cases h
  | freeproc _ q =>
    simp only [Kernel.call] at h
    split at h
    · obtain rfl := Option.some.inj h
      refine .setState ⟨fun _ _ h => h, fun r _ ch hc => ?_, fun _ _ => .inl rfl, fun _ _ => rfl,
        fun _ _ => rfl⟩ (.inl (by decide))
      have hc' : Function.update s.chan q none r = some ch := hc
      by_cases hrq : r = q
      · subst hrq
        rw [Function.update_self] at hc'
        cases hc'
      · rwa [Function.update_of_ne hrq] at hc'
    · cases h

end Others

end Kernel

section

variable [DecidableEq C] [DecidableEq L] [DecidableEq Ch]
variable {s s' : Kernel n C L Ch} {c : C} {p q : Fin n} {chan : Ch}

omit [DecidableEq C] [DecidableEq L] [DecidableEq Ch] in
@[simp] theorem goto_pc (pc : PC n L Ch) : (s.goto p pc).pc p = pc := Function.update_self ..

omit [DecidableEq L] [DecidableEq Ch] in
theorem sched_pc {pc : PC n L Ch} (h : s.sched c p pc = some s') :
    s'.pc p = pc ∧ s'.state = s.state ∧ s'.chan = s.chan := by
  unfold Kernel.sched at h
  split at h
  · obtain rfl := Option.some.inj h
    exact ⟨goto_pc pc, rfl, rfl⟩
  · cases h

/-- Only the first part of `sleep` comes before `release(lk)`. -/
theorem own_early (h : Good s) (hs : s.goProc c p = some s') (he : (s'.pc p).early) :
    ∃ ch lk, s.pc p = .sleepAcquire ch lk ∧ s'.pc p = .sleepRelease ch lk := by
  have hy := h.yields p
  unfold Kernel.goProc at hs
  cases hpc : s.pc p <;> rw [hpc] at hs hy <;> dsimp only at hs
  case user | dead => cases hs
  case schedSleep | schedYield | schedExit =>
    rw [(sched_pc hs).1] at he
    cases he
  case sleepAcquire chan lk =>
    obtain ⟨s₁, -, rfl⟩ := Option.map_eq_some_iff.1 hs
    exact ⟨chan, lk, rfl, goto_pc _⟩
  case yieldRelease k =>
    obtain ⟨s₁, -, rfl⟩ := Option.map_eq_some_iff.1 hs
    rw [goto_pc] at he
    obtain ⟨hk, -⟩ := hy k rfl
    cases k <;> first | (cases hk; done) | exact nomatch he
  case scan =>
    split at hs
    · split at hs
      · obtain rfl := Option.some.inj hs
        rw [goto_pc] at he
        cases he
      · obtain ⟨s₁, -, rfl⟩ := Option.map_eq_some_iff.1 hs
        rw [goto_pc] at he
        cases he
    · obtain rfl := Option.some.inj hs
      rw [goto_pc] at he
      cases he
  case scanRelease f i found =>
    obtain ⟨s₁, -, rfl⟩ := Option.map_eq_some_iff.1 hs
    rw [goto_pc] at he
    cases found <;> cases he
  case sleepSet | sleepTidy | scanTest | yieldSet | exitSet =>
    obtain rfl := Option.some.inj hs
    rw [goto_pc] at he
    cases he
  all_goals
    obtain ⟨s₁, -, rfl⟩ := Option.map_eq_some_iff.1 hs
    rw [goto_pc] at he
    cases he

omit [DecidableEq C] [DecidableEq L] in
theorem visit_sleeping {i : Fin n} {f : Scan Ch} (h : (s.visit i f).1.state p = .SLEEPING) :
    s.state p = .SLEEPING := by
  have hset : ∀ s₁ : Kernel n C L Ch, s₁.state = s.state →
      (s₁.setState i .RUNNABLE).state p = .SLEEPING → s.state p = .SLEEPING := fun s₁ hs₁ hst => by
    have hst' : Function.update s₁.state i .RUNNABLE p = .SLEEPING := hst
    by_cases hpi : p = i
    · subst hpi
      rw [Function.update_self] at hst'
      cases hst'
    · rwa [Function.update_of_ne hpi, hs₁] at hst'
  cases f with
  | wakeup chan =>
    simp only [Kernel.visit] at h
    split at h
    · exact hset s rfl h
    · exact h
  | kill pid =>
    simp only [Kernel.visit] at h
    split at h
    · split at h
      · exact hset { s with killed := Function.update s.killed i true } rfl h
      · exact h
    · exact h

/-- A process falls asleep on `chan` only by a call of `sleep(chan, lk)` that
has given `lk` up. -/
theorem own_pending (h : Good s) (hc : s.cpu c = .run p) (hs : s.goProc c p = some s')
    (hp : s'.Pending p chan) : s.Pending p chan ∨ ∃ lk, s.pc p = .sleepRelease chan lk := by
  have hy := h.yields p
  have hst := h.runs c p hc
  unfold Kernel.Pending at hp ⊢
  unfold Kernel.goProc at hs
  cases hpc : s.pc p <;> rw [hpc] at hs hy hst <;> dsimp only at hs
  case user | dead => cases hs
  case schedSleep | schedYield | schedExit =>
    obtain ⟨h₁, h₂, h₃⟩ := sched_pc hs
    rw [h₁, h₂, h₃] at hp
    exact .inl (hp.imp nofun id)
  case sleepRelease chan' lk =>
    obtain ⟨s₁, hr, rfl⟩ := Option.map_eq_some_iff.1 hs
    obtain ⟨-, rfl⟩ := Kernel.release_eq hr
    rw [goto_pc] at hp
    rcases hp with ⟨lk', he⟩ | hp
    · obtain ⟨rfl, rfl⟩ := PC.sleepSet.inj he
      exact .inr ⟨lk, rfl⟩
    · exact .inl (.inr hp)
  case sleepSet chan' lk =>
    obtain rfl := Option.some.inj hs
    rw [goto_pc] at hp
    obtain ⟨-, hch⟩ := hp.resolve_left nofun
    have hch' : Function.update s.chan p (some chan') p = some chan := hch
    rw [Function.update_self] at hch'
    obtain rfl := Option.some.inj hch'
    exact .inl (.inl ⟨lk, rfl⟩)
  case sleepTidy lk =>
    obtain rfl := Option.some.inj hs
    rw [goto_pc] at hp
    obtain ⟨-, hch⟩ := hp.resolve_left nofun
    have hch' : Function.update s.chan p none p = some chan := hch
    rw [Function.update_self] at hch'
    cases hch'
  case yieldRelease k =>
    obtain ⟨s₁, hr, rfl⟩ := Option.map_eq_some_iff.1 hs
    obtain ⟨-, rfl⟩ := Kernel.release_eq hr
    rw [goto_pc] at hp
    obtain ⟨hk, -⟩ := hy k rfl
    rcases hp with ⟨lk, rfl⟩ | hp
    · cases hk
    · exact .inl (.inr hp)
  case forkret | sleepDrop | exitRelease =>
    obtain ⟨s₁, hr, rfl⟩ := Option.map_eq_some_iff.1 hs
    obtain ⟨-, rfl⟩ := Kernel.release_eq hr
    rw [goto_pc] at hp
    exact .inl (.inr (hp.resolve_left nofun))
  case scanRelease f i found =>
    obtain ⟨s₁, hr, rfl⟩ := Option.map_eq_some_iff.1 hs
    obtain ⟨-, rfl⟩ := Kernel.release_eq hr
    rw [goto_pc] at hp
    exact .inl (.inr (hp.resolve_left (by cases found <;> nofun)))
  case sleepAcquire | sleepLock | yieldAcquire | exitAcquire =>
    obtain ⟨s₁, ha, rfl⟩ := Option.map_eq_some_iff.1 hs
    obtain ⟨-, rfl⟩ := Kernel.acquire_eq ha
    rw [goto_pc] at hp
    exact .inl (.inr (hp.resolve_left nofun))
  case yieldSet | exitSet =>
    obtain rfl := Option.some.inj hs
    rw [goto_pc] at hp
    obtain ⟨hst', -⟩ := hp.resolve_left nofun
    have hst'' : Function.update s.state p _ p = .SLEEPING := hst'
    rw [Function.update_self] at hst''
    cases hst''
  case scan f i =>
    split at hs
    · split at hs
      · obtain rfl := Option.some.inj hs
        rw [goto_pc] at hp
        exact .inl (.inr (hp.resolve_left nofun))
      · obtain ⟨s₁, ha, rfl⟩ := Option.map_eq_some_iff.1 hs
        obtain ⟨-, rfl⟩ := Kernel.acquire_eq ha
        rw [goto_pc] at hp
        exact .inl (.inr (hp.resolve_left nofun))
    · obtain rfl := Option.some.inj hs
      rw [goto_pc] at hp
      exact .inl (.inr (hp.resolve_left nofun))
  case scanTest f i =>
    obtain rfl := Option.some.inj hs
    rw [goto_pc] at hp
    obtain ⟨hst', hch⟩ := hp.resolve_left nofun
    exact .inl (.inr ⟨visit_sleeping hst', by rwa [← (Good.visit_frame s i f).2.2.2.1]⟩)

/-- How far a `wakeup(chan)` gets in one step: past a slot only if that is its
own, or it has seen that slot. -/
theorem own_scanned {i : Nat} (hs : s.goProc c p = some s')
    (hi : (s'.pc p).scanned = some (chan, i)) : (s.pc p).scanned = some (chan, i) ∨
      i = p + 1 ∧ s.pc p = .scan (.wakeup chan) p ∨
      ∃ j : Fin n, i = j + 1 ∧ s.pc p = .scanTest (.wakeup chan) j ∧
        s' = (s.visit j (.wakeup chan)).1.goto p (.scanRelease (.wakeup chan) j false) := by
  unfold Kernel.goProc at hs
  cases hpc : s.pc p <;> rw [hpc] at hs <;> dsimp only at hs
  case user | dead => cases hs
  case schedSleep | schedExit =>
    rw [(sched_pc hs).1] at hi
    cases hi
  case schedYield k =>
    rw [(sched_pc hs).1] at hi
    exact .inl hi
  case sleepSet | sleepTidy | exitSet =>
    obtain rfl := Option.some.inj hs
    rw [goto_pc] at hi
    cases hi
  case yieldSet k =>
    obtain rfl := Option.some.inj hs
    rw [goto_pc] at hi
    exact .inl hi
  case yieldAcquire | yieldRelease =>
    obtain ⟨s₁, -, rfl⟩ := Option.map_eq_some_iff.1 hs
    rw [goto_pc] at hi
    exact .inl hi
  case scan f j =>
    split at hs
    · split at hs
      · next hskip =>
        obtain rfl := Option.some.inj hs
        rw [goto_pc] at hi
        cases f with
        | wakeup chan' =>
          obtain ⟨rfl, rfl⟩ := Prod.mk.inj (Option.some.inj hi)
          simp only [Kernel.skips, decide_eq_true_eq] at hskip
          subst hskip
          exact .inr (.inl ⟨rfl, rfl⟩)
        | kill pid => cases hi
      · obtain ⟨s₁, -, rfl⟩ := Option.map_eq_some_iff.1 hs
        rw [goto_pc] at hi
        exact .inl (by cases f <;> exact hi)
    · obtain rfl := Option.some.inj hs
      rw [goto_pc] at hi
      cases hi
  case scanTest f j =>
    obtain rfl := Option.some.inj hs
    rw [goto_pc] at hi
    cases f with
    | wakeup chan' =>
      obtain ⟨rfl, rfl⟩ := Prod.mk.inj (Option.some.inj hi)
      refine .inr (.inr ⟨j, rfl, rfl, ?_⟩)
      have : (s.visit j (.wakeup chan')).2 = false := by
        simp only [Kernel.visit]
        split <;> rfl
      rw [this]
    | kill pid => cases hi
  case scanRelease f j found =>
    obtain ⟨s₁, -, rfl⟩ := Option.map_eq_some_iff.1 hs
    rw [goto_pc] at hi
    cases found
    · cases f <;> exact .inl hi
    · cases hi
  all_goals
    obtain ⟨s₁, -, rfl⟩ := Option.map_eq_some_iff.1 hs
    rw [goto_pc] at hi
    cases hi

/-- The scheduler leaves the processes where they are, and puts none to
sleep. -/
theorem goCpu_frame (hc : ∀ p, s.cpu c ≠ .run p) (hs : s.go c = some s') :
    s'.pc = s.pc ∧ s'.chan = s.chan ∧ s'.sleeps = s.sleeps ∧ s'.wakes = s.wakes ∧
      ∀ q, s'.state q = .SLEEPING → s.state q = .SLEEPING := by
  unfold Kernel.go at hs
  cases hr : s.cpu c with
  | run q => exact absurd hr (hc q)
  | scan j =>
    rw [hr] at hs
    dsimp only at hs
    split at hs
    · obtain ⟨s₁, ha, rfl⟩ := Option.map_eq_some_iff.1 hs
      obtain ⟨-, rfl⟩ := Kernel.acquire_eq ha
      exact ⟨rfl, rfl, rfl, rfl, fun _ h => h⟩
    · obtain rfl := Option.some.inj hs
      exact ⟨rfl, rfl, rfl, rfl, fun _ h => h⟩
  | picked i =>
    rw [hr] at hs
    dsimp only at hs
    split at hs
    · obtain rfl := Option.some.inj hs
      refine ⟨rfl, rfl, rfl, rfl, fun q hq => ?_⟩
      have hq' : Function.update s.state i .RUNNING q = .SLEEPING := hq
      by_cases hqi : q = i
      · subst hqi
        rw [Function.update_self] at hq'
        cases hq'
      · rwa [Function.update_of_ne hqi] at hq'
    · obtain rfl := Option.some.inj hs
      exact ⟨rfl, rfl, rfl, rfl, fun _ h => h⟩
  | drop i =>
    rw [hr] at hs
    obtain ⟨s₁, ha, rfl⟩ := Option.map_eq_some_iff.1 hs
    obtain ⟨-, rfl⟩ := Kernel.release_eq ha
    exact ⟨rfl, rfl, rfl, rfl, fun _ h => h⟩

/-- A step is one of the scheduler, or of the process that the CPU runs. -/
theorem next_cases {e : Event n C L Ch} (hs : (machine n C L Ch).next s e = some s') :
    ((∀ p, s.cpu e.cpu ≠ .run p) ∧ s.go e.cpu = some s') ∨
    ∃ p, s.cpu e.cpu = .run p ∧ (s.goProc e.cpu p = some s' ∨ s.timer e.cpu p = some s' ∨
      s.pc p = .user ∧ s.call e.cpu p e = some s') := by
  cases e with
  | go c =>
    by_cases hc : ∃ p, s.cpu c = .run p
    · obtain ⟨p, hc⟩ := hc
      have hs' : s.go c = some s' := hs
      unfold Kernel.go at hs'
      rw [hc] at hs'
      exact .inr ⟨p, hc, .inl hs'⟩
    · exact .inl ⟨fun p hp => hc ⟨p, hp⟩, hs⟩
  | timer c =>
    simp only [machine] at hs
    split at hs
    · next p hc => exact .inr ⟨p, hc, .inr (.inl hs)⟩
    · cases hs
  | _ =>
    simp only [machine] at hs
    split at hs
    · next p hc =>
      split at hs
      · next hpc => exact .inr ⟨p, hc, .inr (.inr ⟨hpc, hs⟩)⟩
      · cases hs
    · cases hs

omit [DecidableEq Ch] in
theorem next_call [DecidableEq Ch] {e : Event n C L Ch} (hs : (machine n C L Ch).next s e = some s')
    (hgo : ∀ c, e ≠ .go c) (htimer : ∀ c, e ≠ .timer c) (hc : s.cpu e.cpu = .run p) :
    s.call e.cpu p e = some s' := by
  cases e with
  | go c => exact absurd rfl (hgo c)
  | timer c => exact absurd rfl (htimer c)
  | _ =>
    simp only [machine] at hs
    split at hs
    next q hq =>
      cases hq.symm.trans hc
      split at hs
      · exact hs
      · cases hs
    next => cases hs

omit [DecidableEq C] [DecidableEq L] [DecidableEq Ch] in
theorem timer_eq (hs : s.timer c p = some s') : s' = s.goto p (.yieldAcquire (s.pc p)) := by
  unfold Kernel.timer at hs
  split at hs
  all_goals first
    | (split at hs
       · exact (Option.some.inj hs).symm
       · cases hs)
    | cases hs

omit [DecidableEq Ch] in
/-- A call by process `p` itself. -/
theorem call_own {e : Event n C L Ch} (hpc : s.pc p = .user) (hs : s.call c p e = some s') :
    s.sleeps p ≤ s'.sleeps p ∧ s.wakes p ≤ s'.wakes p ∧
      ((s'.pc p).early → s.sleeps p < s'.sleeps p) ∧
      ((s'.pc p).scanned ≠ none → s.wakes p < s'.wakes p) ∧
      ∀ ch, s'.Pending p ch → s.Pending p ch := by
  have hsame : ∀ s₁ : Kernel n C L Ch, s₁.pc p = .user ∨ s₁.pc p = .forkret →
      s₁.sleeps = s.sleeps → s₁.wakes = s.wakes →
      (s₁.state p = .SLEEPING → s.state p = .SLEEPING) →
      (∀ ch, s₁.chan p = some ch → s.chan p = some ch) → s.sleeps p ≤ s₁.sleeps p ∧
      s.wakes p ≤ s₁.wakes p ∧ ((s₁.pc p).early → s.sleeps p < s₁.sleeps p) ∧
      ((s₁.pc p).scanned ≠ none → s.wakes p < s₁.wakes p) ∧
      ∀ ch, s₁.Pending p ch → s.Pending p ch := fun s₁ hp hsl hw hst hch => by
    refine ⟨by rw [hsl], by rw [hw], fun he => ?_, fun he => ?_, fun ch hpend => ?_⟩
    · rcases hp with hp | hp <;> rw [hp] at he <;> cases he
    · rcases hp with hp | hp <;> rw [hp] at he <;> exact absurd rfl he
    · rcases hpend with ⟨lk, he⟩ | ⟨h₁, h₂⟩
      · rcases hp with hp | hp <;> rw [hp] at he <;> cases he
      · exact .inr ⟨hst h₁, hch ch h₂⟩
  have hset : ∀ q st, st ≠ .SLEEPING → Function.update s.state q st p = .SLEEPING →
      s.state p = .SLEEPING := fun q st hne hst => by
    by_cases hpq : p = q
    · subst hpq
      rw [Function.update_self] at hst
      exact absurd hst hne
    · rwa [Function.update_of_ne hpq] at hst
  cases e with
  | go | timer => cases hs
  | acquire _ k =>
    obtain ⟨-, rfl⟩ := Kernel.acquire_eq hs
    exact hsame _ (.inl hpc) rfl rfl id fun _ => id
  | release _ k =>
    obtain ⟨-, rfl⟩ := Kernel.release_eq hs
    exact hsame _ (.inl hpc) rfl rfl id fun _ => id
  | sleep _ chan lk =>
    simp only [Kernel.call] at hs
    split at hs
    · obtain rfl := Option.some.inj hs
      have hlt : s.sleeps p < Function.update s.sleeps p (s.sleeps p + 1) p := by
        rw [Function.update_self]
        exact Nat.lt_succ_self _
      refine ⟨hlt.le, Nat.le_refl _, fun _ => hlt, fun hsc => ?_, fun ch hp => ?_⟩
      · rw [goto_pc] at hsc
        exact absurd rfl hsc
      · unfold Kernel.Pending at hp
        rw [goto_pc] at hp
        exact .inr (hp.resolve_left (by simp))
    · cases hs
  | scan _ f =>
    obtain rfl := Option.some.inj hs
    have hlt : s.wakes p < Function.update s.wakes p (s.wakes p + 1) p := by
      rw [Function.update_self]
      exact Nat.lt_succ_self _
    refine ⟨Nat.le_refl _, hlt.le, fun he => ?_, fun _ => hlt, fun ch hp => ?_⟩
    · rw [goto_pc] at he
      cases he
    · unfold Kernel.Pending at hp
      rw [goto_pc] at hp
      exact .inr (hp.resolve_left (by simp))
  | exit _ lk =>
    simp only [Kernel.call] at hs
    split at hs
    · obtain rfl := Option.some.inj hs
      refine ⟨Nat.le_refl _, Nat.le_refl _, fun he => ?_, fun hsc => ?_, fun ch hp => ?_⟩
      · rw [goto_pc] at he
        cases he
      · rw [goto_pc] at hsc
        exact absurd rfl hsc
      · unfold Kernel.Pending at hp
        rw [goto_pc] at hp
        exact .inr (hp.resolve_left (by simp))
    · cases hs
  | alloc _ q pid =>
    simp only [Kernel.call] at hs
    split at hs
    · obtain rfl := Option.some.inj hs
      exact hsame _ (.inl hpc) rfl rfl (hset q .USED (by decide)) fun _ => id
    · cases hs
  | publish _ q =>
    simp only [Kernel.call] at hs
    split at hs
    · obtain rfl := Option.some.inj hs
      refine hsame _ ?_ rfl rfl (hset q .RUNNABLE (by decide)) fun _ => id
      by_cases hpq : p = q
      · subst hpq
        exact .inr (goto_pc _)
      · exact .inl ((Function.update_of_ne hpq _ _).trans hpc)
    · cases hs
  | freeproc _ q =>
    simp only [Kernel.call] at hs
    split at hs
    · obtain rfl := Option.some.inj hs
      refine hsame _ (.inl hpc) rfl rfl (hset q .UNUSED (by decide)) fun ch hch => ?_
      have hch' : Function.update s.chan q none p = some ch := hch
      by_cases hpq : p = q
      · subst hpq
        rw [Function.update_self] at hch'
        cases hch'
      · rwa [Function.update_of_ne hpq] at hch'
    · cases hs

theorem goProc_counts (hs : s.goProc c p = some s') : s'.sleeps = s.sleeps ∧ s'.wakes = s.wakes := by
  unfold Kernel.goProc at hs
  cases hpc : s.pc p <;> rw [hpc] at hs <;> dsimp only at hs
  case user | dead => cases hs
  case schedSleep | schedYield | schedExit =>
    unfold Kernel.sched at hs
    split at hs
    · obtain rfl := Option.some.inj hs
      exact ⟨rfl, rfl⟩
    · cases hs
  case forkret | sleepRelease | sleepDrop | scanRelease | yieldRelease | exitRelease =>
    obtain ⟨s₁, hr, rfl⟩ := Option.map_eq_some_iff.1 hs
    obtain ⟨-, rfl⟩ := Kernel.release_eq hr
    exact ⟨rfl, rfl⟩
  case sleepAcquire | sleepLock | yieldAcquire | exitAcquire =>
    obtain ⟨s₁, ha, rfl⟩ := Option.map_eq_some_iff.1 hs
    obtain ⟨-, rfl⟩ := Kernel.acquire_eq ha
    exact ⟨rfl, rfl⟩
  case scan =>
    split at hs
    · split at hs
      · obtain rfl := Option.some.inj hs
        exact ⟨rfl, rfl⟩
      · obtain ⟨s₁, ha, rfl⟩ := Option.map_eq_some_iff.1 hs
        obtain ⟨-, rfl⟩ := Kernel.acquire_eq ha
        exact ⟨rfl, rfl⟩
    · obtain rfl := Option.some.inj hs
      exact ⟨rfl, rfl⟩
  case scanTest f i =>
    obtain rfl := Option.some.inj hs
    exact (Good.visit_frame s i f).2.2.2.2
  all_goals
    obtain rfl := Option.some.inj hs
    exact ⟨rfl, rfl⟩

/-- How a step changes the place of a process in `sleep`. -/
theorem early_next {e : Event n C L Ch} (h : Good s) (hs : (machine n C L Ch).next s e = some s')
    (q : Fin n) : s.sleeps q ≤ s'.sleeps q ∧ ((s'.pc q).early → s.sleeps q < s'.sleeps q ∨
      s'.pc q = s.pc q ∨
        ∃ ch lk, s.pc q = .sleepAcquire ch lk ∧ s'.pc q = .sleepRelease ch lk) := by
  rcases next_cases hs with ⟨hc, hs⟩ | ⟨p, hc, hs⟩
  · obtain ⟨hpc, -, hsl, -, -⟩ := goCpu_frame hc hs
    rw [hpc, hsl]
    exact ⟨Nat.le_refl _, fun _ => .inr (.inl rfl)⟩
  by_cases hq : q = p
  · subst hq
    rcases hs with hs | hs | ⟨hpc, hs⟩
    · exact ⟨by rw [(goProc_counts hs).1], fun he => .inr (.inr (own_early h hs he))⟩
    · obtain rfl := timer_eq hs
      refine ⟨Nat.le_refl _, fun he => ?_⟩
      rw [goto_pc] at he
      cases he
    · obtain ⟨hle, -, he, -⟩ := call_own hpc hs
      exact ⟨hle, fun h' => .inl (he h')⟩
  · have ho : Kernel.Others p s s' := by
      rcases hs with hs | hs | ⟨-, hs⟩
      · exact .goProc hs
      · exact .timer hs
      · exact .call hs
    refine ⟨(ho.sleeps q hq).ge, fun he => .inr (.inl ?_)⟩
    refine (ho.pc q hq).resolve_right fun hf => ?_
    rw [hf] at he
    cases he

/-- A step puts a process to sleep on `chan` only if it was on its way
there. -/
theorem pending_next {e : Event n C L Ch} (h : Good s) (hs : (machine n C L Ch).next s e = some s')
    (hp : s'.Pending q chan) : s.Pending q chan ∨ ∃ lk, s.pc q = .sleepRelease chan lk := by
  rcases next_cases hs with ⟨hc, hs⟩ | ⟨p, hc, hs⟩
  · obtain ⟨hpc, hch, -, -, hst⟩ := goCpu_frame hc hs
    unfold Kernel.Pending at hp ⊢
    rw [hpc, hch] at hp
    exact .inl (hp.imp_right (.imp_left (hst q)))
  by_cases hq : q = p
  · subst hq
    rcases hs with hs | hs | ⟨hpc, hs⟩
    · exact own_pending h hc hs hp
    · obtain rfl := timer_eq hs
      unfold Kernel.Pending at hp
      rw [goto_pc] at hp
      exact .inl (.inr (hp.resolve_left nofun))
    · exact .inl ((call_own hpc hs).2.2.2.2 chan hp)
  · have ho : Kernel.Others p s s' := by
      rcases hs with hs | hs | ⟨-, hs⟩
      · exact .goProc hs
      · exact .timer hs
      · exact .call hs
    rcases hp with ⟨lk, he⟩ | ⟨hst, hch⟩
    · refine .inl (.inl ⟨lk, ?_⟩)
      rw [← he]
      refine ((ho.pc q hq).resolve_right fun hf => ?_).symm
      rw [hf] at he
      cases he
    · exact .inl (.inr ⟨ho.state q hq hst, ho.chan q hq chan hch⟩)

/-- How far a `wakeup(chan)` is after a step. -/
theorem scanned_next {e : Event n C L Ch} {i : Nat} (hs : (machine n C L Ch).next s e = some s')
    (hi : (s'.pc q).scanned = some (chan, i)) : s.wakes q < s'.wakes q ∨
      s.wakes q = s'.wakes q ∧ ((s.pc q).scanned = some (chan, i) ∨
        i = q + 1 ∧ s.pc q = .scan (.wakeup chan) q ∨
        ∃ j : Fin n, i = j + 1 ∧ s.cpu e.cpu = .run q ∧ s.pc q = .scanTest (.wakeup chan) j ∧
          s' = (s.visit j (.wakeup chan)).1.goto q (.scanRelease (.wakeup chan) j false)) := by
  rcases next_cases hs with ⟨hc, hs⟩ | ⟨p, hc, hs⟩
  · obtain ⟨hpc, -, -, hw, -⟩ := goCpu_frame hc hs
    rw [hpc] at hi
    exact .inr ⟨by rw [hw], .inl hi⟩
  by_cases hq : q = p
  · subst hq
    rcases hs with hs | hs | ⟨hpc, hs⟩
    · refine .inr ⟨by rw [(goProc_counts hs).2], (own_scanned hs hi).imp_right (.imp_right ?_)⟩
      exact fun ⟨j, h₁, h₂, h₃⟩ => ⟨j, h₁, hc, h₂, h₃⟩
    · obtain rfl := timer_eq hs
      rw [goto_pc] at hi
      exact .inr ⟨rfl, .inl hi⟩
    · exact .inl ((call_own hpc hs).2.2.2.1 (by rw [hi]; nofun))
  · have ho : Kernel.Others p s s' := by
      rcases hs with hs | hs | ⟨-, hs⟩
      · exact .goProc hs
      · exact .timer hs
      · exact .call hs
    refine .inr ⟨(ho.wakes q hq).symm, .inl ?_⟩
    rcases ho.pc q hq with hpc | hpc
    · rwa [← hpc]
    · rw [hpc] at hi
      cases hi

/-- The calls of a process are counted up. -/
theorem wakes_next {e : Event n C L Ch} (hs : (machine n C L Ch).next s e = some s') (q : Fin n) :
    s.wakes q ≤ s'.wakes q := by
  rcases next_cases hs with ⟨hc, hs⟩ | ⟨p, hc, hs⟩
  · rw [(goCpu_frame hc hs).2.2.2.1]
  by_cases hq : q = p
  · subst hq
    rcases hs with hs | hs | ⟨hpc, hs⟩
    · rw [(goProc_counts hs).2]
    · rw [timer_eq hs]
      rfl
    · exact (call_own hpc hs).2.1
  · rcases hs with hs | hs | ⟨-, hs⟩
    · exact ((Kernel.Others.goProc hs).wakes q hq).ge
    · exact ((Kernel.Others.timer hs).wakes q hq).ge
    · exact ((Kernel.Others.call hs).wakes q hq).ge

omit [DecidableEq C] [DecidableEq L] [DecidableEq Ch] in
/-- A process that is about to fall asleep runs. -/
theorem runs_of_early (h : Good s) (hp : (s.pc p).early ∨ ∃ ch lk, s.pc p = .sleepSet ch lk) :
    ∃ c, s.cpu c = .run p := by
  by_contra hn
  have hpark := h.parked p fun c hc => hn ⟨c, hc⟩
  rcases hp with hp | ⟨ch, lk, hp⟩
  · cases hpc : s.pc p <;> rw [hpc] at hp hpark <;> first | cases hp; done | skip
    all_goals cases hst : s.state p <;> rw [hst] at hpark <;> exact hpark
  · rw [hp] at hpark
    cases hst : s.state p <;> rw [hst] at hpark <;> exact hpark

/-- What a `wakeup` has seen does not sleep on its channel, while the process
`S` calls `sleep` no more than `N` times and `W` is in its `w`-th call. -/
structure Woken (N w : Nat) (S W : Fin n) (chan : Ch) (s : Kernel n C L Ch) : Prop where
  sleeps : N ≤ s.sleeps S
  wakes : w ≤ s.wakes W
  woken : s.sleeps S = N → s.wakes W = w → (s.pc S).early = false ∧
    ∀ i, (s.pc W).scanned = some (chan, i) → (S : Nat) < i → ¬ s.Pending S chan

omit [DecidableEq C] [DecidableEq L] in
/-- After `wakeup` has held the lock of `S`, it does not sleep on the
channel. -/
theorem not_pending_visit {S W : Fin n} (h : Good s) (hc : s.cpu c = .run W) (hWS : W ≠ S)
    (hpc : s.pc W = .scanTest (.wakeup chan) S) (k : PC n L Ch) :
    ¬ ((s.visit S (.wakeup chan)).1.goto W k).Pending S chan := by
  have hlock : s.owner (.proc S) = some c := h.locks_of_run hc _ (by
    rw [hpc]
    exact List.mem_singleton.2 rfl)
  rintro (⟨lk, he⟩ | ⟨hst, hch⟩)
  · have he' : s.pc S = .sleepSet chan lk := by
      rw [← (Good.visit_frame s S (.wakeup chan)).2.2.1, ← he]
      exact (Function.update_of_ne hWS.symm _ _).symm
    obtain ⟨c', hc'⟩ := runs_of_early h (.inr ⟨chan, lk, he'⟩)
    have hown := h.locks_of_run hc' (.proc S) (by
      rw [he']
      exact List.mem_singleton.2 rfl)
    rw [hlock] at hown
    rw [← Option.some.inj hown, hc] at hc'
    exact hWS (Cpu.run.inj hc')
  · change (s.visit S (.wakeup chan)).1.state S = .SLEEPING at hst
    change (s.visit S (.wakeup chan)).1.chan S = some chan at hch
    rw [(Good.visit_frame s S (.wakeup chan)).2.2.2.1] at hch
    have hs := visit_sleeping hst
    simp only [Kernel.visit, hs, hch, and_self, if_true, Kernel.setState, Function.update_self] at hst
    cases hst

theorem Woken.next {N w : Nat} {S W : Fin n} {e : Event n C L Ch} (hw : Woken N w S W chan s)
    (h : Good s) (hWS : W ≠ S) (hs : (machine n C L Ch).next s e = some s') :
    Woken N w S W chan s' := by
  obtain ⟨hsl, hearly⟩ := early_next h hs S
  have hwk := wakes_next hs W
  refine ⟨hw.sleeps.trans hsl, hw.wakes.trans hwk, fun hN hw' => ?_⟩
  have h₁ := hw.sleeps
  have h₂ := hw.wakes
  obtain ⟨hne, hseen⟩ := hw.woken (by omega) (by omega)
  have hne' : (s'.pc S).early = false := by
    by_contra he
    rcases hearly (by simpa using he) with hlt | hpc | ⟨ch, lk, hpc, -⟩
    · omega
    · rw [hpc] at he
      exact he hne
    · rw [hpc] at hne
      cases hne
  refine ⟨hne', fun i hi hlt hp => ?_⟩
  have hstay : ¬ s.Pending S chan → False := fun hnp => by
    rcases pending_next h hs hp with hp | ⟨lk, hpc⟩
    · exact hnp hp
    · rw [hpc] at hne
      cases hne
  rcases scanned_next hs hi with hlt' | ⟨-, hsame | ⟨rfl, hpc⟩ | ⟨j, rfl, hc, hpc, rfl⟩⟩
  · omega
  · exact hstay (hseen i hsame hlt)
  · have hSW : (S : Nat) ≠ W := fun he => hWS (Fin.ext he.symm)
    exact hstay (hseen W (by rw [hpc]; rfl) (by omega))
  · by_cases hSj : S = j
    · subst hSj
      exact not_pending_visit h hc hWS hpc _ hp
    · have hSj' : (S : Nat) ≠ j := fun he => hSj (Fin.ext he)
      exact hstay (hseen j (by rw [hpc]; rfl) (by omega))

/-- The process has not gone past `release(lk)` in its call of
`sleep(chan, lk)`, or has called `sleep` again, or is past it. -/
def Falling (N : Nat) (S : Fin n) (chan : Ch) (lk : L) (s : Kernel n C L Ch) : Prop :=
  N ≤ s.sleeps S ∧ (s.sleeps S = N → (s.pc S).early →
    s.pc S = .sleepAcquire chan lk ∨ s.pc S = .sleepRelease chan lk)

theorem Falling.next {N : Nat} {S : Fin n} {lk : L} {e : Event n C L Ch}
    (hf : Falling N S chan lk s) (h : Good s) (hs : (machine n C L Ch).next s e = some s') :
    Falling N S chan lk s' := by
  obtain ⟨hsl, hearly⟩ := early_next h hs S
  refine ⟨hf.1.trans hsl, fun hN he => ?_⟩
  have hle := hf.1
  rcases hearly he with hlt | hpc | ⟨ch, lk', hpc, hpc'⟩
  · omega
  · rw [hpc] at he ⊢
    exact hf.2 (by omega) he
  · rcases hf.2 (by omega) (by rw [hpc]; rfl) with hq | hq
    · rw [hpc] at hq
      obtain ⟨rfl, rfl⟩ := PC.sleepAcquire.inj hq
      exact .inr hpc'
    · rw [hpc] at hq
      cases hq

omit [DecidableEq C] [DecidableEq L] [DecidableEq Ch] in
/-- Whoever has `lk` knows that the process is past `release(lk)`. -/
theorem Falling.released {N : Nat} {S W : Fin n} {lk : L} (hf : Falling N S chan lk s) (h : Good s)
    (hWS : W ≠ S) (hc : s.cpu c = .run W) (hlk : s.owner (.other lk) = some c)
    (hN : s.sleeps S = N) : (s.pc S).early = false := by
  by_contra he
  have he' : (s.pc S).early = true := by simpa using he
  obtain ⟨c', hc'⟩ := runs_of_early h (.inl he')
  have hown := h.locks_of_run hc' (.other lk) (by
    rcases hf.2 hN he' with hpc | hpc <;> rw [hpc] <;> simp [PC.locks])
  rw [hlk] at hown
  rw [← Option.some.inj hown, hc] at hc'
  exact hWS (Cpu.run.inj hc')

/-- A process past `release(lk)` stays so, or calls `sleep` again. -/
theorem early_exec {N : Nat} {S : Fin n} {es : List (Event n C L Ch)} (h : Good s)
    (hN : N ≤ s.sleeps S ∧ (s.sleeps S = N → (s.pc S).early = false))
    (hr : (machine n C L Ch).exec s es = some s') :
    Good s' ∧ N ≤ s'.sleeps S ∧ (s'.sleeps S = N → (s'.pc S).early = false) := by
  refine Machine.exec_invariant (I := fun s => Good s ∧ N ≤ s.sleeps S ∧
    (s.sleeps S = N → (s.pc S).early = false)) ⟨h, hN⟩ (fun _ e _ s₁ s₂ _ _ hn hi => ?_) hr
  obtain ⟨hsl, hearly⟩ := early_next hi.1 hn S
  refine ⟨hi.1.next hn, hi.2.1.trans hsl, fun hN' => ?_⟩
  have hle := hi.2.1
  have hne := hi.2.2 (by omega)
  by_contra he
  rcases hearly (by simpa using he) with hlt | hpc | ⟨ch, lk, hpc, -⟩
  · omega
  · rw [hpc] at he
    exact he hne
  · rw [hpc] at hne
    cases hne

end

/-- In `wakeup(chan)`. -/
def PC.Wakes (chan : Ch) : PC n L Ch → Prop
  | .scan (.wakeup ch) _ | .scanTest (.wakeup ch) _ | .scanRelease (.wakeup ch) _ _ => ch = chan
  | _ => False

variable [DecidableEq C] [DecidableEq L] [DecidableEq Ch]

/-- A step of `wakeup(chan)` changes only what sleeps on `chan`. -/
theorem wakes_state {s s' : Kernel n C L Ch} {c : C} {W : Fin n} {chan : Ch}
    (hW : (s.pc W).Wakes chan) (hs : s.goProc c W = some s') (q : Fin n)
    (hq : s'.state q ≠ s.state q) :
    s.state q = .SLEEPING ∧ s.chan q = some chan ∧ s'.state q = .RUNNABLE := by
  unfold Kernel.goProc at hs
  cases hpc : s.pc W <;> rw [hpc] at hs hW
  case scan f i =>
    dsimp only at hs
    split at hs
    · split at hs
      · obtain rfl := Option.some.inj hs
        exact absurd rfl hq
      · obtain ⟨s₁, ha, rfl⟩ := Option.map_eq_some_iff.1 hs
        obtain ⟨-, rfl⟩ := Kernel.acquire_eq ha
        exact absurd rfl hq
    · obtain rfl := Option.some.inj hs
      exact absurd rfl hq
  case scanTest f i =>
    obtain rfl := Option.some.inj hs
    cases f with
    | kill pid => exact hW.elim
    | wakeup ch =>
      obtain rfl : ch = chan := hW
      change (s.visit i (.wakeup ch)).1.state q ≠ _ at hq
      show _ ∧ _ ∧ (s.visit i (.wakeup ch)).1.state q = _
      simp only [Kernel.visit] at hq ⊢
      split at hq
      · next hsleep =>
        rw [if_pos hsleep]
        by_cases hqi : q = i
        · subst hqi
          exact ⟨hsleep.1, hsleep.2, Function.update_self ..⟩
        · exact absurd (Function.update_of_ne hqi _ _) hq
      · exact absurd rfl hq
  case scanRelease f i found =>
    obtain ⟨s₁, hr, rfl⟩ := Option.map_eq_some_iff.1 hs
    obtain ⟨-, rfl⟩ := Kernel.release_eq hr
    exact absurd rfl hq
  all_goals exact hW.elim

/-- From any reachable state on: where process `S` calls `sleep(chan, lk)`,
process `W` later has `lk`, calls `wakeup(chan)` after that and gets to its
end, `S` does not sleep on `chan` then, or it has called `sleep` again; a step
of `wakeup(chan)` changes no state but that of a process sleeping on `chan`;
and when `sleep` returns, its CPU has `lk` and no other lock, and `p->chan` is
clear. -/
theorem sleep_wakeup {s : Kernel n C L Ch} (h : (machine n C L Ch).Reachable s) :
    (∀ (c c' d d' : C) (S W : Fin n) (chan : Ch) (lk : L) (s₁ s₂ s₃ s₄ s₅ s₆ : Kernel n C L Ch)
      (es es' es'' : List (Event n C L Ch)),
      s.cpu c = .run S → (machine n C L Ch).next s (.sleep c chan lk) = some s₁ →
      (machine n C L Ch).exec s₁ es = some s₂ →
      W ≠ S → s₂.cpu c' = .run W → s₂.owner (.other lk) = some c' →
      (machine n C L Ch).exec s₂ es' = some s₃ →
      s₃.cpu d = .run W → (machine n C L Ch).next s₃ (.scan d (.wakeup chan)) = some s₄ →
      (machine n C L Ch).exec s₄ es'' = some s₅ → s₅.wakes W = s₄.wakes W →
      s₅.cpu d' = .run W → s₅.pc W = .scan (.wakeup chan) n →
      (machine n C L Ch).next s₅ (.go d') = some s₆ →
      s₆.state S = .SLEEPING → s₆.chan S = some chan → s₁.sleeps S < s₆.sleeps S) ∧
    (∀ (c : C) (W : Fin n) (chan : Ch) (s' : Kernel n C L Ch), s.cpu c = .run W →
      (s.pc W).Wakes chan → (machine n C L Ch).next s (.go c) = some s' →
      ∀ q, s'.state q ≠ s.state q →
        s.state q = .SLEEPING ∧ s.chan q = some chan ∧ s'.state q = .RUNNABLE) ∧
    ∀ (c : C) (S : Fin n) (lk : L) (s' : Kernel n C L Ch), s.cpu c = .run S →
      s.pc S = .sleepLock lk → (machine n C L Ch).next s (.go c) = some s' →
      (∀ k, s'.owner k = some c ↔ k = .other lk) ∧ s'.chan S = none ∧ s'.pc S = .user := by
  have hg := Good.ofReachable h
  refine ⟨fun c c' d d' S W chan lk s₁ s₂ s₃ s₄ s₅ s₆ es es' es'' hc h₁ h₂ hWS hc' hlk h₃ hd h₄ h₅
    hw hd' hpc h₆ hst hch => ?_, fun c W chan s' hc hW hs q hq => ?_, fun c S lk s' hc hpc hs => ?_⟩
  · have hfall₁ : Falling (s₁.sleeps S) S chan lk s₁ := by
      refine ⟨Nat.le_refl _, fun _ _ => .inl ?_⟩
      have hcall := next_call h₁ (by simp) (by simp) hc
      simp only [Kernel.call] at hcall
      split at hcall
      · obtain rfl := Option.some.inj hcall
        exact goto_pc _
      · cases hcall
    obtain ⟨hg₂, hfall₂⟩ := Machine.exec_invariant (I := fun s => Good s ∧
      Falling (s₁.sleeps S) S chan lk s) ⟨hg.next h₁, hfall₁⟩
      (fun _ _ _ _ _ _ _ hn hi => ⟨hi.1.next hn, hi.2.next hi.1 hn⟩) h₂
    obtain ⟨hg₃, hle₃, hearly₃⟩ := early_exec hg₂
      ⟨hfall₂.1, fun hN => hfall₂.released hg₂ hWS hc' hlk hN⟩ h₃
    have hex : (machine n C L Ch).exec s₃ [.scan d (.wakeup chan)] = some s₄ := by
      rw [Machine.exec_cons, h₄]
      rfl
    obtain ⟨hg₄, hle₄, hearly₄⟩ := early_exec hg₃ ⟨hle₃, hearly₃⟩ hex
    have hwoken₄ : Woken (s₁.sleeps S) (s₄.wakes W) S W chan s₄ := by
      refine ⟨hle₄, Nat.le_refl _, fun hN _ => ⟨hearly₄ hN, fun i hi hlt => ?_⟩⟩
      obtain rfl := Option.some.inj (next_call h₄ (by simp) (by simp) hd)
      rw [goto_pc] at hi
      obtain ⟨-, rfl⟩ := Prod.mk.inj (Option.some.inj hi)
      exact absurd hlt (Nat.not_lt_zero _)
    obtain ⟨hg₅, hwoken₅⟩ := Machine.exec_invariant (I := fun s => Good s ∧
      Woken (s₁.sleeps S) (s₄.wakes W) S W chan s) ⟨hg₄, hwoken₄⟩
      (fun _ _ _ _ _ _ _ hn hi => ⟨hi.1.next hn, hi.2.next hi.1 hWS hn⟩) h₅
    -- The last step of the loop only returns.
    have hs₆ : s₆ = s₅.goto W .user := by
      have hgo : s₅.goProc d' W = some s₆ := by
        have h₆' : s₅.go d' = some s₆ := h₆
        unfold Kernel.go at h₆'
        rwa [hd'] at h₆'
      unfold Kernel.goProc at hgo
      rw [hpc] at hgo
      simp only [Nat.lt_irrefl, dite_false] at hgo
      exact (Option.some.inj hgo).symm
    rw [hs₆] at hst hch ⊢
    show _ < s₅.sleeps S
    refine lt_of_le_of_ne hwoken₅.sleeps fun hN => ?_
    exact (hwoken₅.woken hN.symm hw).2 n (by rw [hpc]; rfl) S.isLt (.inr ⟨hst, hch⟩)
  · have hgo : s.goProc c W = some s' := by
      have hs' : s.go c = some s' := hs
      unfold Kernel.go at hs'
      rwa [hc] at hs'
    exact wakes_state hW hgo q hq
  · have hgo : s.goProc c S = some s' := by
      have hs' : s.go c = some s' := hs
      unfold Kernel.go at hs'
      rwa [hc] at hs'
    have hex := hg.exact_of_run hc (by rw [hpc]; rfl)
    have htidy := hg.tidy S (by rw [hpc]; rfl)
    unfold Kernel.goProc at hgo
    rw [hpc] at hgo hex
    obtain ⟨s₁, ha, rfl⟩ := Option.map_eq_some_iff.1 hgo
    obtain ⟨-, rfl⟩ := Kernel.acquire_eq ha
    refine ⟨fun k => ?_, htidy, goto_pc _⟩
    show Function.update s.owner (.other lk) (some c) k = some c ↔ _
    by_cases hk : k = .other lk
    · subst hk
      simp
    · rw [Function.update_of_ne hk]
      exact iff_of_false (fun ho => by cases hex k ho) hk

/-- Two processes that are ready to run. -/
def Kernel.two : Kernel 2 Bool Unit Unit where
  owner := fun _ => none
  noff := fun _ => 0
  cpu := fun _ => .scan 0
  state := fun _ => .RUNNABLE
  chan := fun _ => none
  pid := fun _ => 0
  killed := fun _ => false
  pc := fun _ => .forkret
  sleeps := fun _ => 0
  wakes := fun _ => 0

/-- Each CPU picks a process, and process 0 takes the lock. -/
def bothRun : List (Event 2 Bool Unit Unit) :=
  [.go false, .go false, .go false, .go true, .go true, .go true, .go true, .go true, .go true,
    .acquire false (.other ())]

/-- Process 0 gives the lock up, and process 1 takes it. -/
def handOver : List (Event 2 Bool Unit Unit) :=
  [.go false, .go false, .acquire true (.other ())]

/-- Process 0 falls asleep, and process 1 goes over both slots. -/
def wakeBoth : List (Event 2 Bool Unit Unit) :=
  [.go false, .go false, .go false, .go true, .go true, .go true, .go true]

theorem sleep_wakeup_handOver : ∃ s s₁ s₂ s₄ s₅ s₆, (machine 2 Bool Unit Unit).exec .two bothRun =
      some s ∧ (machine 2 Bool Unit Unit).next s (.sleep false () ()) = some s₁ ∧
    (machine 2 Bool Unit Unit).exec s₁ handOver = some s₂ ∧
    (machine 2 Bool Unit Unit).next s₂ (.scan true (.wakeup ())) = some s₄ ∧
    (machine 2 Bool Unit Unit).exec s₄ wakeBoth = some s₅ ∧
    (machine 2 Bool Unit Unit).next s₅ (.go true) = some s₆ ∧
    ¬ (s₆.state 0 = .SLEEPING ∧ s₆.chan 0 = some ()) := by
  refine ⟨_, _, _, _, _, _, rfl, rfl, rfl, rfl, rfl, rfl, fun hp => ?_⟩
  have hi : (machine 2 Bool Unit Unit).init .two :=
    ⟨fun _ => rfl, fun _ => rfl, fun _ => rfl, fun _ => .inr ⟨rfl, rfl⟩⟩
  have := (sleep_wakeup ⟨_, bothRun, hi, rfl⟩).1 false true true true 0 1 () () _ _ _ _ _ _ handOver
    [] wakeBoth rfl rfl rfl (by decide) rfl rfl rfl rfl rfl rfl rfl rfl rfl rfl hp.1 hp.2
  exact absurd this (by decide)

end Xv6.Sleep
