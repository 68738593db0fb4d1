/-
Whom kill hits. A slot that is not in use has pid 0, and `kill(0)` finds it.
-/
import Xv6.ProcessIds

namespace Xv6.ExitWait

open Conc

variable {n : Nat} {initproc p q : Fin n} {s s' : Kernel n} {e : Event n}

/-- No slot that is not in use is marked killed. -/
def Harmless (s : Kernel n) : Prop := ∀ p, s.state p = .UNUSED → s.killed p = false

/-- The slot that `kill` finds is in use. -/
def HitsInUse (s : Kernel n) : Event n → Prop
  | .go p _ =>
    match s.pc p with
    | .kill pid i => ∀ h : i < n, s.pid ⟨i, h⟩ = pid → s.state ⟨i, h⟩ ≠ .UNUSED
    | _ => True
  | _ => True

instance (s : Kernel n) : (e : Event n) → Decidable (HitsInUse s e)
  | .go p _ =>
    match hpc : s.pc p with
    | .kill pid i =>
      decidable_of_iff (∀ h : i < n, s.pid ⟨i, h⟩ = pid → s.state ⟨i, h⟩ ≠ .UNUSED)
        (by simp only [HitsInUse, hpc])
    | .user | .dead | .forkParent .. | .forkPublish .. | .reparent .. | .reparentWakeup ..
    | .exitWakeup .. | .wait .. | .waitKilled | .waitSleep | .waitTidy | .waitAcquire | .doze =>
      .isTrue (by simp only [HitsInUse, hpc])
  | .fork .. | .exit .. | .wait .. | .kill .. | .doze .. | .rouse .. | .yield .. | .schedule .. =>
    .isTrue trivial

/-- What `kill` returns, if it returns at the next step of process `p`. -/
def Kernel.killResult (s : Kernel n) (p : Fin n) : Option Int :=
  match s.pc p with
  | .kill pid i =>
    if h : i < n then if s.pid ⟨i, h⟩ = pid then some 0 else none
    else some (-1)
  | _ => none

/-! ## One step -/

theorem killResult_eq {pid : Int} {i : Nat} (hpc : s.pc p = .kill pid i) : s.killResult p =
    if h : i < n then if s.pid ⟨i, h⟩ = pid then some 0 else none else some (-1) := by
  unfold Kernel.killResult
  rw [hpc]

/-- A step of `kill` at slot `i`. -/
theorem kill_step {pid : Int} {i : Nat} {ok : Bool} (hpc : s.pc p = .kill pid i)
    (hs : s.next initproc (.go p ok) = some s') :
    (∃ h : i < n, s.pid ⟨i, h⟩ = pid ∧ s' = (s.kill ⟨i, h⟩).goto p .user) ∨
    (∃ h : i < n, s.pid ⟨i, h⟩ ≠ pid ∧ s' = s.goto p (.kill pid (i + 1))) ∨
    ¬ i < n ∧ s' = s.goto p .user := by
  unfold Kernel.next at hs
  dsimp only at hs
  split at hs
  next =>
    simp only [Kernel.go, hpc] at hs
    split at hs
    next hi =>
      split at hs
      next hpid => exact .inl ⟨hi, hpid, (Option.some.inj hs).symm⟩
      next hpid => exact .inr (.inl ⟨hi, hpid, (Option.some.inj hs).symm⟩)
    next hi => exact .inr (.inr ⟨hi, (Option.some.inj hs).symm⟩)
  next => cases hs

theorem kill_state (i q : Fin n) : (s.kill i).state q = .UNUSED ↔ s.state q = .UNUSED := by
  unfold Kernel.kill
  dsimp only
  split
  next hz => exact state_update_unused .RUNNABLE nofun (by rw [hz]; nofun) q
  next => rfl

theorem kill_killed (i : Fin n) : (s.kill i).killed = Function.update s.killed i true := by
  unfold Kernel.kill
  dsimp only
  split <;> rfl

/-- `kill` changes one slot. -/
theorem kill_other {i q : Fin n} (hq : q ≠ i) : (s.kill i).state q = s.state q ∧
    (s.kill i).killed q = s.killed q := by
  unfold Kernel.kill
  dsimp only
  split
  · exact ⟨Function.update_of_ne hq .., Function.update_of_ne hq ..⟩
  · exact ⟨rfl, Function.update_of_ne hq ..⟩

/-- A step keeps the unused slots harmless if and only if it is no `kill` that
finds one. -/
theorem harmless_next (h : Inv initproc s) (hi : Harmless s) (hs : s.next initproc e = some s') :
    Harmless s' ↔ HitsInUse s e := by
  by_cases hk : ∃ p ok pid i, e = .go p ok ∧ s.pc p = .kill pid i ∧
      ∃ h : i < n, s.pid ⟨i, h⟩ = pid
  · obtain ⟨p, ok, pid, i, rfl, hpc, hin, hpid⟩ := hk
    have hs' : s' = (s.kill ⟨i, hin⟩).goto p .user := by
      rcases kill_step hpc hs with ⟨_, _, hs'⟩ | ⟨_, hne, _⟩ | ⟨hni, _⟩
      · exact hs'
      · exact absurd hpid hne
      · exact absurd hin hni
    have hhits : HitsInUse s (.go p ok) ↔ s.state ⟨i, hin⟩ ≠ .UNUSED := by
      simp only [HitsInUse, hpc]
      exact ⟨fun hh => hh hin hpid, fun hh _ _ => hh⟩
    rw [hhits, hs']
    constructor
    · intro hh hu
      have hf := hh ⟨i, hin⟩ ((kill_state ..).2 hu)
      rw [show ((s.kill ⟨i, hin⟩).goto p .user).killed = _ from kill_killed _,
        Function.update_self] at hf
      cases hf
    · intro hu q hq
      have hq' : s.state q = .UNUSED := (kill_state ..).1 hq
      rw [show ((s.kill ⟨i, hin⟩).goto p .user).killed = _ from kill_killed _,
        Function.update_of_ne (fun hqi : q = ⟨i, hin⟩ => hu (hqi ▸ hq'))]
      exact hi q hq'
  · have hhits : HitsInUse s e := by
      unfold HitsInUse
      split
      next p ok =>
        split
        next pid i hpc => exact fun hin hpid => absurd ⟨p, ok, pid, i, rfl, hpc, hin, hpid⟩ hk
        next => trivial
      next => trivial
    refine iff_of_true (fun q hq => ?_) hhits
    cases next_effect h hs with
    | calm hpid hnext hkilled hstate =>
      rw [hkilled]
      exact hi q ((hstate q).1 hq)
    | fork p np he hnp hpid hnext hkilled hstate =>
      rw [hkilled]
      exact hi q ((hstate q).1 hq).2
    | free r hpid hkilled hstate he =>
      rw [hkilled]
      rcases (hstate q).1 hq with rfl | hq'
      · exact Function.update_self ..
      · by_cases hqr : q = r
        · subst hqr
          exact Function.update_self ..
        · rw [Function.update_of_ne hqr]
          exact hi q hq'
    | kill p i ok pid he hpc hpid hs' => exact absurd ⟨p, ok, pid, i, he, hpc, i.2, hpid⟩ hk

theorem unused_of_fork {np : Fin n} {ok : Bool}
    (hs : s.next initproc (.fork p np ok) = some s') : s.state np = .UNUSED := by
  unfold Kernel.next at hs
  dsimp only at hs
  split at hs
  next =>
    simp only [Kernel.call] at hs
    split at hs
    next hnp => exact hnp
    next => cases hs
  next => cases hs

/-! ## One call -/

theorem goto_kill {k : PC n} {pid : Int} {i : Nat} (h : (s.goto q k).pc p = .kill pid i)
    (hk : ∀ pid i, k ≠ .kill pid i) : s.pc p = .kill pid i := by
  by_cases hp : p = q
  · rw [hp, goto_self] at h
    exact absurd h (hk pid i)
  · rwa [goto_of_ne hp] at h

theorem acquire_pc (hs : s.acquire q = some s') : s'.pc = s.pc := by
  unfold Kernel.acquire at hs
  split at hs
  next =>
    obtain rfl := Option.some.inj hs
    rfl
  next => cases hs

/-- No process comes to be in `kill` by a step of one that is elsewhere. -/
theorem go_pc {ok : Bool} {pid : Int} {i : Nat} (hk : ∀ pid j, s.pc q ≠ .kill pid j)
    (hs : s.go initproc q ok = some s') (hpc : s'.pc p = .kill pid i) : s.pc p = .kill pid i := by
  unfold Kernel.go at hs
  split at hs
  case h_13 pid j hq => exact absurd hq (hk pid j)
  case h_3 | h_12 =>
    obtain ⟨s₁, hs₁, rfl⟩ := Option.map_eq_some_iff.1 hs
    rw [← acquire_pc hs₁]
    exact goto_kill hpc (by simp)
  case h_4 =>
    obtain rfl := Option.some.inj hs
    exact goto_kill (goto_kill hpc (by simp)) nofun
  case h_6 | h_7 =>
    split at hs <;> obtain rfl := Option.some.inj hs
    · rw [← wakeup_pc]
      exact goto_kill hpc (by simp)
    · exact goto_kill hpc (by simp)
  all_goals
    repeat' split at hs
  all_goals first
    | cases hs
      done
    | obtain rfl := Option.some.inj hs
      exact goto_kill hpc (by simp)

theorem call_pc {pid : Int} {i : Nat} (hs : s.call initproc q e = some s')
    (hpc : s'.pc p = .kill pid i) : s.pc p = .kill pid i ∨ i = 0 := by
  cases e with
  | kill q' pid' =>
    obtain rfl := Option.some.inj hs
    by_cases hp : p = q
    · rw [hp, goto_self] at hpc
      cases hpc
      exact .inr rfl
    · rw [goto_of_ne hp] at hpc
      exact .inl hpc
  | fork q' np ok =>
    simp only [Kernel.call] at hs
    repeat' split at hs
    all_goals first
      | cases hs
        done
      | obtain rfl := Option.some.inj hs
        first
        | exact .inl (goto_kill hpc (by simp))
        | exact .inl hpc
  | exit q' st =>
    simp only [Kernel.call] at hs
    split at hs
    next => cases hs
    next =>
      obtain ⟨s₁, hs₁, rfl⟩ := Option.map_eq_some_iff.1 hs
      rw [← acquire_pc hs₁]
      exact .inl (goto_kill hpc (by simp))
  | wait q' =>
    obtain ⟨s₁, hs₁, rfl⟩ := Option.map_eq_some_iff.1 hs
    rw [← acquire_pc hs₁]
    exact .inl (goto_kill hpc (by simp))
  | doze q' =>
    obtain rfl := Option.some.inj hs
    exact .inl (goto_kill hpc (by simp))
  | _ => cases hs

/-- A process in `kill` was there before, or has begun, or has passed a slot
with another pid. -/
theorem next_pc {pid : Int} {i : Nat} (hs : s.next initproc e = some s')
    (hpc : s'.pc p = .kill pid i) : s.pc p = .kill pid i ∨ i = 0 ∨
      ∃ j, i = j + 1 ∧ s.pc p = .kill pid j ∧ ∃ h : j < n, s.pid ⟨j, h⟩ ≠ pid := by
  have hs₀ := hs
  unfold Kernel.next at hs
  split at hs
  next q ok =>
    by_cases hk : ∃ pid j, s.pc q = .kill pid j
    · obtain ⟨pid', j, hq⟩ := hk
      rcases kill_step hq hs₀ with ⟨hj, _, rfl⟩ | ⟨hj, hne, rfl⟩ | ⟨_, rfl⟩
      · have hold := goto_kill hpc (by simp)
        unfold Kernel.kill at hold
        dsimp only at hold
        split at hold <;> exact .inl hold
      · by_cases hp : p = q
        · subst hp
          rw [goto_self] at hpc
          cases hpc
          exact .inr (.inr ⟨j, rfl, hq, hj, hne⟩)
        · rw [goto_of_ne hp] at hpc
          exact .inl hpc
      · exact .inl (goto_kill hpc (by simp))
    · split at hs
      next => exact .inl (go_pc (fun pid j hq => hk ⟨pid, j, hq⟩) hs hpc)
      next => cases hs
  next =>
    split at hs
    next =>
      obtain rfl := Option.some.inj hs
      exact .inl hpc
    next => cases hs
  next =>
    split at hs
    next =>
      obtain rfl := Option.some.inj hs
      exact .inl hpc
    next => cases hs
  next =>
    split at hs
    next =>
      obtain rfl := Option.some.inj hs
      exact .inl hpc
    next => cases hs
  all_goals
    split at hs
    next => exact (call_pc hs hpc).imp_right .inl
    next => cases hs

/-- Each slot that `kill` has passed was free, or had another pid, at some
moment of the call. -/
theorem kill_passed {pid : Int} {i : Nat} {es : List (Event n)} (hpc : s.pc p = .kill pid 0)
    (h : (machine initproc).exec s es = some s') (hpc' : s'.pc p = .kill pid i) {j : Fin n}
    (hj : j < i) : ∃ es₁ es₂ s₁, es = es₁ ++ es₂ ∧ (machine initproc).exec s es₁ = some s₁ ∧
      s₁.pid j ≠ pid := by
  induction es using List.reverseRecOn generalizing s' i with
  | nil =>
    obtain rfl := Option.some.inj h
    rw [hpc] at hpc'
    cases hpc'
    omega
  | append_singleton es e ih =>
    rw [Machine.exec_append, Option.bind_eq_some_iff] at h
    obtain ⟨s₁, h₁, h₂⟩ := h
    obtain ⟨s₂, hs, h₃⟩ := Option.bind_eq_some_iff.1 h₂
    obtain rfl := Option.some.inj h₃
    have hlater : ∀ {k}, s₁.pc p = .kill pid k → j.val < k → ∃ es₁ es₂ s₁,
        es ++ [e] = es₁ ++ es₂ ∧ (machine initproc).exec s es₁ = some s₁ ∧ s₁.pid j ≠ pid :=
      fun hk hjk => by
        obtain ⟨es₁, es₂, s₃, he, hs₃, hne⟩ := ih h₁ hk hjk
        exact ⟨es₁, es₂ ++ [e], s₃, by rw [he, List.append_assoc], hs₃, hne⟩
    rcases next_pc hs hpc' with hk | rfl | ⟨k, rfl, hk, hkn, hne⟩
    · exact hlater hk hj
    · exact absurd hj (Nat.not_lt_zero _)
    · by_cases hjk : j.val = k
      · subst hjk
        exact ⟨es, [e], s₁, rfl, h₁, hne⟩
      · exact hlater hk (by omega)

/-! ## Runs -/

/-- In every run, no slot that is not in use is ever marked killed, if and only
if no `kill` finds such a slot; then a new process is not killed, a `kill` that
returns 0 has changed one slot, which is in use and has the pid, and one that
returns -1 has met each slot with another pid. -/
theorem kill_target {es : List (Event n)}
    (h : (machine initproc).exec (Kernel.initial initproc) es = some s) :
    ((machine initproc).Throughout Harmless (Kernel.initial initproc) es ↔
      (machine initproc).Meets HitsInUse (Kernel.initial initproc) es) ∧
    (Harmless s → ∀ p np s', s.next initproc (.fork p np true) = some s' →
      s'.killed np = false) ∧
    (∀ p ok s', s.next initproc (.go p ok) = some s' → HitsInUse s (.go p ok) →
      s.killResult p = some 0 → ∃ i, s.state i ≠ .UNUSED ∧ (∃ j, s.pc p = .kill (s.pid i) j) ∧
        s' = (s.kill i).goto p .user ∧ s'.killed i = true ∧
          ∀ q, q ≠ i → s'.state q = s.state q ∧ s'.killed q = s.killed q) ∧
    ∀ p pid es' s', s.pc p = .kill pid 0 → (machine initproc).exec s es' = some s' →
      s'.killResult p = some (-1) → (∃ i, s'.pc p = .kill pid i) →
        ∀ j, ∃ es₁ es₂ s₁, es' = es₁ ++ es₂ ∧ (machine initproc).exec s es₁ = some s₁ ∧
          s₁.pid j ≠ pid := by
  have hI : Inv initproc s := Inv.reachable ⟨_, es, rfl, h⟩
  refine ⟨Machine.throughout_iff_meets (K := Inv initproc) (fun _ _ _ hi hs => hi.next hs)
    (fun _ _ _ hi hp hs => harmless_next hi hp hs) (Inv.initial initproc) (fun _ _ => rfl) h,
    fun hi p np s' hs => ?_, fun p ok s' hs hhits hr => ?_, fun p pid es' s' hpc hes hr hi j => ?_⟩
  · cases next_effect hI hs with
    | calm hpid hnext hkilled hstate =>
      rw [hkilled]
      exact hi np (unused_of_fork hs)
    | fork p np' he hnp hpid hnext hkilled hstate =>
      cases he
      rw [hkilled]
      exact hi np hnp
    | free r hpid hkilled hstate he => exact absurd rfl (he p np)
    | kill p i ok pid he => cases he
  · unfold Kernel.killResult at hr
    split at hr
    next pid i hpc =>
      split at hr
      next hin =>
        split at hr
        next hpid =>
          have huse : s.state ⟨i, hin⟩ ≠ .UNUSED := by
            simp only [HitsInUse, hpc] at hhits
            exact hhits hin hpid
          refine ⟨⟨i, hin⟩, huse, ⟨i, by rw [hpc, hpid]⟩, ?_⟩
          rcases kill_step hpc hs with ⟨_, _, rfl⟩ | ⟨_, hne, _⟩ | ⟨hni, _⟩
          · refine ⟨rfl, ?_, fun q hq => kill_other hq⟩
            rw [show ((s.kill ⟨i, hin⟩).goto p .user).killed = _ from kill_killed _]
            exact Function.update_self ..
          · exact absurd hpid hne
          · exact absurd hin hni
        next => cases hr
      next => cases hr
    next => cases hr
  · obtain ⟨i, hi⟩ := hi
    rw [killResult_eq hi] at hr
    split at hr
    next =>
      split at hr
      next => cases hr
      next => cases hr
    next hin => exact kill_passed hpc hes hi (by omega)

/-- The first process calls `kill(0)`. -/
def killZero : List (Event 2) :=
  [.schedule slot0, .kill slot0 0, .go slot0 true, .go slot0 true]

theorem kill_unused : ∃ s s' : Kernel 2,
    (machine (0 : Fin 2)).exec (Kernel.initial 0) killZero = some s ∧
    s.state 1 = .UNUSED ∧ s.killed 1 = true ∧
    (machine (0 : Fin 2)).next s (.fork 0 1 true) = some s' ∧ s'.killed 1 = true := by
  have hrun : ((machine (0 : Fin 2)).exec (Kernel.initial 0) killZero).map
      (fun s => (s.state 1, s.killed 1)) = some (.UNUSED, true) := by decide +kernel
  have hfork : ((machine (0 : Fin 2)).exec (Kernel.initial 0) (killZero ++ [.fork 0 1 true])).map
      (fun s => s.killed 1) = some true := by decide +kernel
  obtain ⟨s, hs, hr⟩ := Option.map_eq_some_iff.1 hrun
  obtain ⟨s', hs', hr'⟩ := Option.map_eq_some_iff.1 hfork
  rw [Machine.exec_append, hs, Option.bind_some, Machine.exec_cons,
    Option.bind_eq_some_iff] at hs'
  obtain ⟨s₁, hs₁, hs₂⟩ := hs'
  obtain rfl := Option.some.inj hs₂
  exact ⟨s, s₁, hs, congrArg Prod.fst hr, congrArg Prod.snd hr, hs₁, hr'⟩

/-- The first process forks, and kills its child. -/
def killChild : List (Event 2) :=
  [.schedule slot0, .fork slot0 slot1 true, .go slot0 true, .go slot0 true, .kill slot0 2,
    .go slot0 true, .go slot0 true]

theorem kill_target_killChild : ∃ s,
    (machine (0 : Fin 2)).exec (Kernel.initial 0) killChild = some s ∧ s.killed 1 = true ∧
    (machine (0 : Fin 2)).Throughout Harmless (Kernel.initial 0) killChild := by
  have hrun : ((machine (0 : Fin 2)).exec (Kernel.initial 0) killChild).map
      (fun s => s.killed 1) = some true := by decide +kernel
  obtain ⟨s, hs, hr⟩ := Option.map_eq_some_iff.1 hrun
  exact ⟨s, hs, hr, (kill_target hs).1.2 (by decide +kernel)⟩

end Xv6.ExitWait
