/-
rr_scheduler: how long a process waits for its turn.

A CPU goes round `proc[]` and runs every process that is `RUNNABLE` when it
comes to it. While a process waits, no CPU runs any other process twice.
-/
import Xv6.LostWakeup

namespace Xv6.Sleep

open Conc

variable {n : Nat} {C L Ch : Type}

/-- What a step makes of a CPU. -/
inductive Turn (s s' : Kernel n C L Ch) : Cpu n → Cpu n → Prop where
  | pick {i : Nat} (h : i < n) : Turn s s' (.scan i) (.picked ⟨i, h⟩)
  | wrap {i : Nat} (h : n ≤ i) : Turn s s' (.scan i) (.scan 0)
  | start {i : Fin n} (h : s.state i = .RUNNABLE) (h' : s'.state i = .RUNNING) :
    Turn s s' (.picked i) (.run i)
  | skip {i : Fin n} (h : s.state i ≠ .RUNNABLE) : Turn s s' (.picked i) (.drop i)
  | drop (i : Fin n) : Turn s s' (.drop i) (.scan (i + 1))
  /-- The process is back from `sched`. -/
  | back (i : Fin n) : Turn s s' (.run i) (.drop i)

variable [DecidableEq C] {s s' : Kernel n C L Ch} {c : C} {p : Fin n} {k : Lock n L}

theorem cpu_sched {pc : PC n L Ch} (h : s.sched c p pc = some s') :
    s'.cpu = Function.update s.cpu c (.drop p) := by
  unfold Kernel.sched at h
  split at h
  · obtain rfl := Option.some.inj h
    rfl
  · cases h

variable [DecidableEq L]

theorem cpu_acquire (h : s.acquire c k = some s') : s'.cpu = s.cpu := by
  obtain ⟨-, rfl⟩ := Kernel.acquire_eq h
  rfl

theorem cpu_release (h : s.release c k = some s') : s'.cpu = s.cpu := by
  obtain ⟨-, rfl⟩ := Kernel.release_eq h
  rfl

variable [DecidableEq Ch]

/-- A process gives its CPU up in `sched` only. -/
theorem cpu_goProc (h : s.goProc c p = some s') :
    s'.cpu = s.cpu ∨ s'.cpu = Function.update s.cpu c (.drop p) := by
  unfold Kernel.goProc at h
  cases hpc : s.pc p <;> rw [hpc] at h <;> dsimp only at h
  case user | dead => cases h
  case forkret | sleepRelease | sleepDrop | scanRelease | yieldRelease | exitRelease =>
    obtain ⟨s₁, hr, rfl⟩ := Option.map_eq_some_iff.1 h
    exact .inl (show s₁.cpu = s.cpu from cpu_release hr)
  case sleepAcquire | sleepLock | yieldAcquire | exitAcquire =>
    obtain ⟨s₁, ha, rfl⟩ := Option.map_eq_some_iff.1 h
    exact .inl (show s₁.cpu = s.cpu from cpu_acquire ha)
  case schedSleep | schedYield | schedExit => exact .inr (cpu_sched h)
  case sleepSet | sleepTidy | yieldSet | exitSet =>
    obtain rfl := Option.some.inj h
    exact .inl rfl
  case scan f i =>
    split at h
    · split at h
      · obtain rfl := Option.some.inj h
        exact .inl rfl
      · obtain ⟨s₁, ha, rfl⟩ := Option.map_eq_some_iff.1 h
        exact .inl (show s₁.cpu = s.cpu from cpu_acquire ha)
    · obtain rfl := Option.some.inj h
      exact .inl rfl
  case scanTest f i =>
    obtain rfl := Option.some.inj h
    exact .inl (Good.visit_frame s i f).1

omit [DecidableEq Ch] in
theorem cpu_call {e : Event n C L Ch} (h : s.call c p e = some s') : s'.cpu = s.cpu := by
  cases e with
  | go | timer => cases h
  | acquire _ k => exact cpu_acquire h
  | release _ k => exact cpu_release h
  | scan _ f =>
    obtain rfl := Option.some.inj h
    rfl
  | _ =>
    simp only [Kernel.call] at h
    split at h
    · obtain rfl := Option.some.inj h
      rfl
    · cases h

/-- A CPU of the scheduler takes a turn. -/
theorem turn_go (hc : ∀ p, s.cpu c ≠ .run p) (h : s.go c = some s') :
    Turn s s' (s.cpu c) (s'.cpu c) ∧ ∀ c', c' ≠ c → s'.cpu c' = s.cpu c' := by
  unfold Kernel.go at h
  cases hr : s.cpu c with
  | run p => exact absurd hr (hc p)
  | scan i =>
    rw [hr] at h
    dsimp only at h
    split at h
    next hi =>
      obtain ⟨s₁, ha, rfl⟩ := Option.map_eq_some_iff.1 h
      refine ⟨?_, fun c' hne => ?_⟩
      · change Turn _ _ _ (Function.update s₁.cpu c (.picked ⟨i, hi⟩) c)
        rw [Function.update_self]
        exact .pick hi
      · change Function.update s₁.cpu c (.picked ⟨i, hi⟩) c' = _
        rw [Function.update_of_ne hne, cpu_acquire ha]
    next hi =>
      obtain rfl := Option.some.inj h
      refine ⟨?_, fun c' hne => Function.update_of_ne hne ..⟩
      change Turn _ _ _ (Function.update s.cpu c (.scan 0) c)
      rw [Function.update_self]
      exact .wrap (Nat.le_of_not_lt hi)
  | picked i =>
    rw [hr] at h
    dsimp only at h
    split at h
    next hs =>
      obtain rfl := Option.some.inj h
      refine ⟨?_, fun c' hne => Function.update_of_ne hne ..⟩
      change Turn _ _ _ (Function.update s.cpu c (.run i) c)
      rw [Function.update_self]
      exact .start hs (Function.update_self ..)
    next hs =>
      obtain rfl := Option.some.inj h
      refine ⟨?_, fun c' hne => Function.update_of_ne hne ..⟩
      change Turn _ _ _ (Function.update s.cpu c (.drop i) c)
      rw [Function.update_self]
      exact .skip hs
  | drop i =>
    rw [hr] at h
    obtain ⟨s₁, ha, rfl⟩ := Option.map_eq_some_iff.1 h
    refine ⟨?_, fun c' hne => ?_⟩
    · change Turn _ _ _ (Function.update s₁.cpu c (.scan (i + 1)) c)
      rw [Function.update_self]
      exact .drop i
    · change Function.update s₁.cpu c (.scan (i + 1)) c' = _
      rw [Function.update_of_ne hne, cpu_release ha]

/-- Any step leaves a CPU where it is, or the CPU takes its turn. -/
theorem turn_next {e : Event n C L Ch} (h : (machine n C L Ch).next s e = some s') (c : C) :
    s'.cpu c = s.cpu c ∨ Turn s s' (s.cpu c) (s'.cpu c) := by
  rcases next_cases h with ⟨hc, hg⟩ | ⟨p, hc, hp⟩
  · obtain ⟨hturn, hother⟩ := turn_go hc hg
    by_cases hne : c = e.cpu
    · rw [hne]
      exact .inr hturn
    · exact .inl (hother c hne)
  · have hcpu : s'.cpu = s.cpu ∨ s'.cpu = Function.update s.cpu e.cpu (.drop p) := by
      rcases hp with hp | hp | ⟨-, hp⟩
      · exact cpu_goProc hp
      · rw [timer_eq hp]
        exact .inl rfl
      · exact .inl (cpu_call hp)
    rcases hcpu with hcpu | hcpu
    · rw [hcpu]
      exact .inl rfl
    · rw [hcpu]
      by_cases hne : c = e.cpu
      · rw [hne, Function.update_self, hc]
        exact .inr (.back p)
      · rw [Function.update_of_ne hne]
        exact .inl rfl

/-! ## The round -/

/-- The slots that the CPU comes to before `p`. -/
def Ahead (p : Fin n) (j : Nat) : Cpu n → Prop
  | .scan i => if i ≤ p.val then i ≤ j ∧ j < p.val else i ≤ j ∨ j < p.val
  | .picked i => if i.val ≤ p.val then i.val ≤ j ∧ j < p.val else i.val ≤ j ∨ j < p.val
  | .drop i | .run i => if i.val < p.val then i.val < j ∧ j < p.val else i.val < j ∨ j < p.val

/-- The steps of the scheduler before it has run `p`. -/
def stepsTo (p : Fin n) : Cpu n → Nat
  | .scan i => if i ≤ p.val then 3 * (p.val - i) + 2 else 3 * (n - i) + 3 * p.val + 3
  | .picked i => if i.val ≤ p.val then 3 * (p.val - i) + 1 else 3 * (n - i) + 3 * p.val + 2
  | .drop i | .run i => if i.val < p.val then 3 * (p.val - i) else 3 * (n - i) + 3 * p.val + 1

def Cpu.isRun : Cpu n → Bool
  | .run _ => true
  | _ => false

omit [DecidableEq C] [DecidableEq L] [DecidableEq Ch] in
/-- While `p` waits, a turn brings the CPU nearer to it, and a process that it
runs is behind it. -/
theorem Turn.nearer {r r' : Cpu n} (h : Turn s s' r r') (hp : s.state p = .RUNNABLE)
    (hp' : s'.state p = .RUNNABLE) :
    (∀ j, Ahead p j r' → Ahead p j r) ∧
      (r.isRun = false → stepsTo p r' + 1 ≤ stepsTo p r) ∧ stepsTo p r' ≤ stepsTo p r ∧
      ∀ i, r = .picked i → r' = .run i → i ≠ p ∧ Ahead p i r ∧ ¬ Ahead p i r' := by
  have hlt := p.isLt
  cases h with
  | @pick i hi =>
    refine ⟨fun j hj => hj, fun _ => ?_, ?_, by simp⟩
    · simp only [stepsTo]
      split <;> omega
    · simp only [stepsTo]
      split <;> omega
  | @wrap i hi =>
    have hn : ¬ i ≤ p.val := by omega
    simp only [Ahead, stepsTo, if_neg hn, Nat.zero_le, if_true]
    refine ⟨fun j hj => .inr hj.2, fun _ => by omega, by omega, by simp⟩
  | @start i hs hs' =>
    have hne : i ≠ p := by
      rintro rfl
      rw [hs'] at hp'
      cases hp'
    have hne' : i.val ≠ p.val := fun he => hne (Fin.ext he)
    simp only [Ahead, stepsTo]
    by_cases hi : i.val ≤ p.val
    · have hi' : i.val < p.val := by omega
      simp only [if_pos hi, if_pos hi']
      refine ⟨fun j hj => ⟨by omega, hj.2⟩, fun _ => by omega, by omega, fun i' he _ => ?_⟩
      obtain rfl : i = i' := by simpa using he
      exact ⟨hne, ⟨Nat.le_refl _, hi'⟩, fun h => Nat.lt_irrefl _ h.1⟩
    · have hi' : ¬ i.val < p.val := by omega
      simp only [if_neg hi, if_neg hi']
      refine ⟨fun j hj => hj.imp_left Nat.le_of_lt, fun _ => by omega, by omega, fun i' he _ => ?_⟩
      obtain rfl : i = i' := by simpa using he
      exact ⟨hne, .inl (Nat.le_refl _), fun h => h.elim (Nat.lt_irrefl _) hi'⟩
  | @skip i hs =>
    have hne' : i.val ≠ p.val := by
      intro he
      rw [Fin.ext he] at hs
      exact hs hp
    simp only [Ahead, stepsTo]
    by_cases hi : i.val ≤ p.val
    · have hi' : i.val < p.val := by omega
      simp only [if_pos hi, if_pos hi']
      exact ⟨fun j hj => ⟨by omega, hj.2⟩, fun _ => by omega, by omega, by simp⟩
    · have hi' : ¬ i.val < p.val := by omega
      simp only [if_neg hi, if_neg hi']
      exact ⟨fun j hj => hj.imp_left Nat.le_of_lt, fun _ => by omega, by omega, by simp⟩
  | drop i =>
    have hii := i.isLt
    simp only [Ahead, stepsTo]
    by_cases hi : i.val < p.val
    · simp only [if_pos hi, if_pos (show i.val + 1 ≤ p.val from hi)]
      exact ⟨fun j hj => hj, fun _ => by omega, by omega, by simp⟩
    · simp only [if_neg hi, if_neg (show ¬ i.val + 1 ≤ p.val from hi)]
      exact ⟨fun j hj => hj, fun _ => by omega, by omega, by simp⟩
  | back i =>
    exact ⟨fun j hj => hj, fun hr => (by cases hr), Nat.le_refl _, by simp⟩

/-! ## Runs -/

/-- The process that CPU `c` starts to run between two states. -/
def started (c : C) (s s' : Kernel n C L Ch) : List (Fin n) :=
  match s.cpu c, s'.cpu c with
  | .picked i, .run _ => [i]
  | _, _ => []

/-- The steps of the scheduler on CPU `c` between two states. -/
def looked (c : C) (s s' : Kernel n C L Ch) : Nat :=
  if s'.cpu c ≠ s.cpu c ∧ (s.cpu c).isRun = false then 1 else 0

/-- The processes that CPU `c` starts in a run. -/
def starts (c : C) (s : Kernel n C L Ch) : List (Event n C L Ch) → List (Fin n)
  | [] => []
  | e :: es =>
    match (machine n C L Ch).next s e with
    | none => []
    | some s' => started c s s' ++ starts c s' es

/-- The steps of the scheduler on CPU `c` in a run. -/
def looks (c : C) (s : Kernel n C L Ch) : List (Event n C L Ch) → Nat
  | [] => 0
  | e :: es =>
    match (machine n C L Ch).next s e with
    | none => 0
    | some s' => looked c s s' + looks c s' es

/-- Process `p` is `RUNNABLE` all along a run. -/
def Waits (p : Fin n) (s : Kernel n C L Ch) (es : List (Event n C L Ch)) : Prop :=
  ∀ es₁ es₂ s₁, es = es₁ ++ es₂ → (machine n C L Ch).exec s es₁ = some s₁ → s₁.state p = .RUNNABLE

theorem Waits.nil (h : s.state p = .RUNNABLE) : Waits p s [] := by
  intro es₁ es₂ s₁ he hs
  obtain ⟨rfl, -⟩ := List.append_eq_nil_iff.1 he.symm
  obtain rfl := Option.some.inj hs
  exact h

theorem Waits.cons {e : Event n C L Ch} {es : List (Event n C L Ch)} (h : s.state p = .RUNNABLE)
    (hw : ∀ s', (machine n C L Ch).next s e = some s' → Waits p s' es) : Waits p s (e :: es) := by
  intro es₁ es₂ s₁ he hs
  cases es₁ with
  | nil =>
    obtain rfl := Option.some.inj hs
    exact h
  | cons e' es₁ =>
    rw [List.cons_append, List.cons.injEq] at he
    obtain ⟨rfl, he⟩ := he
    rw [Machine.exec_cons, Option.bind_eq_some_iff] at hs
    obtain ⟨s', hn, hs⟩ := hs
    exact hw s' hn es₁ es₂ s₁ he hs

/-- A step of a CPU on its round to `p`. -/
theorem step_nearer {e : Event n C L Ch} (h : (machine n C L Ch).next s e = some s')
    (hp : s.state p = .RUNNABLE) (hp' : s'.state p = .RUNNABLE) (c : C) :
    (∀ j, Ahead p j (s'.cpu c) → Ahead p j (s.cpu c)) ∧
      looked c s s' + stepsTo p (s'.cpu c) ≤ stepsTo p (s.cpu c) ∧
      (started c s s').Nodup ∧
      ∀ i ∈ started c s s', i ≠ p ∧ Ahead p i (s.cpu c) ∧ ¬ Ahead p i (s'.cpu c) := by
  have hnodup : (started c s s').Nodup := by
    unfold started
    split
    · exact List.nodup_singleton _
    · exact List.nodup_nil
  rcases turn_next h c with hcpu | hturn
  · have hs : started c s s' = [] := by
      unfold started
      rw [hcpu]
      cases s.cpu c <;> rfl
    rw [hs, hcpu]
    refine ⟨fun j hj => hj, ?_, List.nodup_nil, by simp⟩
    rw [looked, if_neg (fun h => h.1 hcpu), Nat.zero_add]
  · obtain ⟨hahead, hlook, hle, hstart⟩ := hturn.nearer hp hp'
    refine ⟨hahead, ?_, hnodup, fun i hi => ?_⟩
    · rw [looked]
      split
      next hl =>
        rw [Nat.add_comm]
        exact hlook hl.2
      next => rwa [Nat.zero_add]
    · unfold started at hi
      split at hi
      next i' j hr hr' =>
        obtain rfl := List.mem_singleton.1 hi
        refine hstart i hr ?_
        rw [hr, hr'] at hturn
        rw [hr']
        cases hturn
        rfl
      next => cases hi

/-- While a process waits, each CPU starts only processes that it comes to
before it, each of them once. -/
theorem Waits.starts {es : List (Event n C L Ch)} (hw : Waits p s es)
    (hr : (machine n C L Ch).exec s es = some s') (c : C) :
    (starts c s es).Nodup ∧ (∀ i ∈ starts c s es, i ≠ p ∧ Ahead p i (s.cpu c)) ∧
      looks c s es + stepsTo p (s'.cpu c) ≤ stepsTo p (s.cpu c) := by
  induction es generalizing s with
  | nil =>
    obtain rfl := Option.some.inj hr
    exact ⟨List.nodup_nil, by simp [Sleep.starts], by simp [looks]⟩
  | cons e es ih =>
    rw [Machine.exec_cons, Option.bind_eq_some_iff] at hr
    obtain ⟨s₁, he, hr⟩ := hr
    have hw' : Waits p s₁ es := by
      intro es₁ es₂ s₂ hes hs₂
      refine hw (e :: es₁) es₂ s₂ (by rw [hes]; rfl) ?_
      rw [Machine.exec_cons, he]
      exact hs₂
    obtain ⟨hnodup, hmem, hlooks⟩ := ih hw' hr
    obtain ⟨hahead, hlook, hone, hstart⟩ :=
      step_nearer he (hw [] _ s rfl rfl) (hw' [] _ s₁ rfl rfl) c
    simp only [Sleep.starts, looks, he]
    refine ⟨List.nodup_append.2 ⟨hone, hnodup, fun i hi j hj hij => ?_⟩, fun i hi => ?_, by omega⟩
    · rw [hij] at hi
      exact (hstart j hi).2.2 (hmem j hj).2
    · rcases List.mem_append.1 hi with hi | hi
      · exact ⟨(hstart i hi).1, (hstart i hi).2.1⟩
      · exact ⟨(hmem i hi).1, hahead i (hmem i hi).2⟩

/-- Round robin is fair, whatever the processes and the other CPUs do: in a
run in which a process stays `RUNNABLE`, no CPU starts another process twice,
so that it starts less than `n`; and no CPU takes more than `3 * n + 1` steps
of the scheduler, which is one round. -/
theorem rr_scheduler_fair {es : List (Event n C L Ch)} (hw : Waits p s es)
    (hr : (machine n C L Ch).exec s es = some s') (c : C) :
    (starts c s es).Nodup ∧ p ∉ starts c s es ∧ (starts c s es).length < n ∧
      looks c s es ≤ 3 * n + 1 := by
  obtain ⟨hnodup, hmem, hlooks⟩ := hw.starts hr c
  have hp : p ∉ starts c s es := fun hp => (hmem p hp).1 rfl
  refine ⟨hnodup, hp, ?_, ?_⟩
  · have hcons : (p :: starts c s es).Nodup := List.nodup_cons.2 ⟨hp, hnodup⟩
    simpa using hcons.length_le_card
  · have hlt := p.isLt
    have hmax : stepsTo p (s.cpu c) ≤ 3 * n + 1 := by
      cases s.cpu c with
      | scan i =>
        simp only [stepsTo]
        split <;> omega
      | picked i =>
        simp only [stepsTo]
        split <;> omega
      | drop i =>
        have hi := i.isLt
        simp only [stepsTo]
        split <;> omega
      | run i =>
        have hi := i.isLt
        simp only [stepsTo]
        split <;> omega
    omega

/-- Two processes and one CPU. -/
def Kernel.pair : Kernel 2 Unit Unit Unit where
  owner _ := none
  noff _ := 0
  cpu _ := .scan 0
  state _ := .RUNNABLE
  chan _ := none
  pid p := p
  killed _ := false
  pc _ := .forkret
  sleeps _ := 0
  wakes _ := 0

theorem rr_scheduler_fair_pair :
    ∃ p s, (machine 2 Unit Unit Unit).exec .pair [.go (), .go ()] = some s ∧
      starts () .pair [.go (), .go ()] = [⟨0, Nat.two_pos⟩] ∧
      p ∉ starts () .pair [.go (), .go ()] := by
  have hw : Waits ⟨1, Nat.one_lt_two⟩ Kernel.pair [.go (), .go ()] := by
    refine .cons rfl fun s₁ h₁ => ?_
    obtain rfl := Option.some.inj h₁
    refine .cons rfl fun s₂ h₂ => ?_
    obtain rfl := Option.some.inj h₂
    exact .nil rfl
  have hr : ∃ s, (machine 2 Unit Unit Unit).exec .pair [.go (), .go ()] = some s := ⟨_, rfl⟩
  obtain ⟨s, hr⟩ := hr
  exact ⟨_, s, hr, rfl, (rr_scheduler_fair hw hr ()).2.1⟩

end Xv6.Sleep
