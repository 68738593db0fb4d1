/-
Pids and kill: who a pid stands for, in every run of fork, exit, wait and
kill. Nothing compares `nextpid` with the pids in use, and `kill` does not ask
whether the slot that it finds is in use.
-/
import Xv6.Reaping

namespace Xv6.ExitWait

open Conc

variable {n : Nat} {initproc p q : Fin n} {s s' : Kernel n} {e : Event n}

/-- What a step does to the pids, to the slots in use and to who is killed. -/
inductive Effect (s s' : Kernel n) (e : Event n) : Prop where
  | calm (hpid : s'.pid = s.pid) (hnext : s'.nextpid = s.nextpid) (hkilled : s'.killed = s.killed)
      (hstate : ∀ q, s'.state q = .UNUSED ↔ s.state q = .UNUSED)
  | fork (p np : Fin n) (he : e = .fork p np true) (hnp : s.state np = .UNUSED)
      (hpid : s'.pid = Function.update s.pid np s.nextpid)
      (hnext : s'.nextpid = i32 (s.nextpid + 1))
      (hkilled : s'.killed = s.killed)
      (hstate : ∀ q, s'.state q = .UNUSED ↔ q ≠ np ∧ s.state q = .UNUSED)
  | free (q : Fin n) (hpid : s'.pid = Function.update s.pid q 0)
      (hkilled : s'.killed = Function.update s.killed q false)
      (hstate : ∀ r, s'.state r = .UNUSED ↔ r = q ∨ s.state r = .UNUSED)
      (he : ∀ p np, e ≠ .fork p np true)
  | kill (p i : Fin n) (ok : Bool) (pid : Int) (he : e = .go p ok)
      (hpc : s.pc p = .kill pid i) (hi : s.pid i = pid) (hs : s' = (s.kill i).goto p .user)

theorem state_update_unused (st : ProcState) (hst : st ≠ .UNUSED) (hp : s.state p ≠ .UNUSED)
    (q : Fin n) : Function.update s.state p st q = .UNUSED ↔ s.state q = .UNUSED := by
  by_cases hq : q = p
  · subst hq
    rw [Function.update_self]
    exact iff_of_false hst hp
  · rw [Function.update_of_ne hq]

theorem state_update_of_unused (q : Fin n) : Function.update s.state p .UNUSED q = .UNUSED ↔
    q = p ∨ s.state q = .UNUSED := by
  by_cases hq : q = p
  · subst hq
    rw [Function.update_self]
    exact iff_of_true rfl (.inl rfl)
  · rw [Function.update_of_ne hq]
    exact ⟨.inr, fun h => h.resolve_left hq⟩

theorem wakeup_effect {c : Option (Chan n)} {k : PC n} :
    Effect s ((s.wakeup p q c).goto p k) e := by
  unfold Kernel.wakeup
  split
  next hq =>
    refine .calm rfl rfl rfl fun r => state_update_unused .RUNNABLE nofun ?_ r
    rw [hq.2.1]
    exact nofun
  next => exact .calm rfl rfl rfl fun _ => Iff.rfl

theorem go_effect {ok : Bool} (h : Inv initproc s) (hr : s.state p = .RUNNING)
    (hs : s.go initproc p ok = some s') : Effect s s' (.go p ok) := by
  have hp : s.state p ≠ .UNUSED := by
    rw [hr]
    simp
  unfold Kernel.go at hs
  split at hs
  next => cases hs
  next => cases hs
  next np =>
    obtain ⟨s₁, hs₁, rfl⟩ := Option.map_eq_some_iff.1 hs
    unfold Kernel.acquire at hs₁
    split at hs₁
    next =>
      obtain rfl := Option.some.inj hs₁
      exact .calm rfl rfl rfl fun _ => Iff.rfl
    next => cases hs₁
  next np hpc =>
    obtain rfl := Option.some.inj hs
    have hf := h.places.forking p
    rw [hpc] at hf
    refine .calm rfl rfl rfl fun r => state_update_unused .RUNNABLE nofun ?_ r
    rw [hf.1]
    exact nofun
  next st i =>
    split at hs
    · split at hs <;> obtain rfl := Option.some.inj hs <;> exact .calm rfl rfl rfl fun _ => Iff.rfl
    · obtain rfl := Option.some.inj hs
      exact .calm rfl rfl rfl fun _ => Iff.rfl
  next st pp i =>
    split at hs
    · obtain rfl := Option.some.inj hs
      exact wakeup_effect
    · obtain rfl := Option.some.inj hs
      exact .calm rfl rfl rfl fun _ => Iff.rfl
  next st c i =>
    split at hs
    · obtain rfl := Option.some.inj hs
      exact wakeup_effect
    · obtain rfl := Option.some.inj hs
      exact .calm rfl rfl rfl fun r => state_update_unused .ZOMBIE nofun hp r
  next k i hpc =>
    split at hs
    next hi =>
      split at hs
      next =>
        split at hs
        next =>
          split at hs
          · obtain rfl := Option.some.inj hs
            exact .free ⟨i, hi⟩ rfl rfl state_update_of_unused nofun
          · obtain rfl := Option.some.inj hs
            exact .calm rfl rfl rfl fun _ => Iff.rfl
        next =>
          obtain rfl := Option.some.inj hs
          exact .calm rfl rfl rfl fun _ => Iff.rfl
      next =>
        obtain rfl := Option.some.inj hs
        exact .calm rfl rfl rfl fun _ => Iff.rfl
    next =>
      split at hs <;> obtain rfl := Option.some.inj hs <;>
        exact .calm rfl rfl rfl fun _ => Iff.rfl
  next =>
    split at hs <;> obtain rfl := Option.some.inj hs <;> exact .calm rfl rfl rfl fun _ => Iff.rfl
  next =>
    obtain rfl := Option.some.inj hs
    exact .calm rfl rfl rfl fun r => state_update_unused .SLEEPING (by simp) hp r
  next =>
    obtain rfl := Option.some.inj hs
    exact .calm rfl rfl rfl fun _ => Iff.rfl
  next =>
    obtain ⟨s₁, hs₁, rfl⟩ := Option.map_eq_some_iff.1 hs
    unfold Kernel.acquire at hs₁
    split at hs₁
    next =>
      obtain rfl := Option.some.inj hs₁
      exact .calm rfl rfl rfl fun _ => Iff.rfl
    next => cases hs₁
  next pid i hpc =>
    split at hs
    next hi =>
      split at hs
      next hpid => exact .kill p ⟨i, hi⟩ ok pid rfl hpc hpid (Option.some.inj hs).symm
      next =>
        obtain rfl := Option.some.inj hs
        exact .calm rfl rfl rfl fun _ => Iff.rfl
    next =>
      obtain rfl := Option.some.inj hs
      exact .calm rfl rfl rfl fun _ => Iff.rfl
  next =>
    obtain rfl := Option.some.inj hs
    exact .calm rfl rfl rfl fun _ => Iff.rfl

theorem call_effect (hr : s.state p = .RUNNING) (hs : s.call initproc p e = some s') :
    Effect s s' e := by
  have hp : s.state p ≠ .UNUSED := by
    rw [hr]
    simp
  have hacquire : ∀ {k : PC n}, s.acquire p = some s' ∨ (s.acquire p).map (·.goto p k) = some s' →
      Effect s s' e := fun {k} hs => by
    unfold Kernel.acquire at hs
    split at hs
    next =>
      rcases hs with hs | hs <;> obtain rfl := Option.some.inj hs <;>
        exact .calm rfl rfl rfl fun _ => Iff.rfl
    next => rcases hs with hs | hs <;> cases hs
  cases e with
  | fork p' np ok =>
    simp only [Kernel.call] at hs
    split at hs
    next hnp =>
      split at hs
      next hok =>
        obtain rfl := Option.some.inj hs
        refine .fork p' np (by rw [hok]) hnp rfl rfl rfl fun r => ?_
        show Function.update s.state np .USED r = .UNUSED ↔ _
        by_cases hr : r = np
        · subst hr
          rw [Function.update_self]
          exact iff_of_false (by simp) fun hn => hn.1 rfl
        · rw [Function.update_of_ne hr]
          exact ⟨fun hn => ⟨hr, hn⟩, And.right⟩
      next hok =>
        obtain rfl := Option.some.inj hs
        refine .free np rfl rfl state_update_of_unused fun p'' np' he => hok ?_
        cases he
        rfl
    next => cases hs
  | exit p' st =>
    simp only [Kernel.call] at hs
    split at hs
    next => cases hs
    next => exact hacquire (.inr hs)
  | wait p' => exact hacquire (.inr hs)
  | kill p' pid =>
    obtain rfl := Option.some.inj hs
    exact .calm rfl rfl rfl fun _ => Iff.rfl
  | doze p' =>
    obtain rfl := Option.some.inj hs
    exact .calm rfl rfl rfl fun r => state_update_unused .SLEEPING (by simp) hp r
  | _ => cases hs

theorem next_effect (h : Inv initproc s) (hs : s.next initproc e = some s') : Effect s s' e := by
  unfold Kernel.next at hs
  split at hs
  next p ok =>
    split at hs
    next hr => exact go_effect h hr hs
    next => cases hs
  next p =>
    split at hs
    next hp =>
      obtain rfl := Option.some.inj hs
      exact .calm rfl rfl rfl fun r => state_update_unused .RUNNABLE nofun (by rw [hp.1]; nofun) r
    next => cases hs
  next p =>
    split at hs
    next hp =>
      obtain rfl := Option.some.inj hs
      exact .calm rfl rfl rfl fun r => state_update_unused .RUNNABLE nofun (by rw [hp.1]; nofun) r
    next => cases hs
  next p =>
    split at hs
    next hp =>
      obtain rfl := Option.some.inj hs
      exact .calm rfl rfl rfl fun r => state_update_unused .RUNNING nofun (by rw [hp]; nofun) r
    next => cases hs
  all_goals
    split at hs
    next hp => exact call_effect hp.1 hs
    next => cases hs

/-! ## Pids -/

/-- The pids of the slots in use are positive, and no two are the same. -/
def PidsSound (s : Kernel n) : Prop :=
  ∀ p, s.state p ≠ .UNUSED → 0 < s.pid p ∧ ∀ q, s.state q ≠ .UNUSED → s.pid q = s.pid p → q = p

/-- A call of `fork` that succeeds finds `nextpid` positive and not in use. -/
def FreshPid (s : Kernel n) : Event n → Prop
  | .fork _ _ true => 0 < s.nextpid ∧ ∀ q, s.state q ≠ .UNUSED → s.pid q ≠ s.nextpid
  | _ => True

instance (s : Kernel n) (e : Event n) : Decidable (FreshPid s e) := by
  unfold FreshPid
  split <;> infer_instance

theorem freshPid_of_ne (he : ∀ p np, e ≠ .fork p np true) : FreshPid s e := by
  unfold FreshPid
  split
  next p np => exact absurd rfl (he p np)
  next => trivial

/-- A step keeps the pids sound if and only if it allocates no pid in use. -/
theorem pidsSound_next (h : Inv initproc s) (hi : PidsSound s) (hs : s.next initproc e = some s') :
    PidsSound s' ↔ FreshPid s e := by
  have hsome : ∀ (hne : ∀ p np, e ≠ .fork p np true),
      (∀ q, s'.state q ≠ .UNUSED → s.state q ≠ .UNUSED ∧ s'.pid q = s.pid q) →
      (PidsSound s' ↔ FreshPid s e) := fun hne hq => by
    refine iff_of_true (fun p hp => ?_) (freshPid_of_ne hne)
    obtain ⟨hp₁, hp₂⟩ := hq p hp
    obtain ⟨hpos, honce⟩ := hi p hp₁
    refine ⟨hp₂ ▸ hpos, fun q hq' he => ?_⟩
    obtain ⟨hq₁, hq₂⟩ := hq q hq'
    exact honce q hq₁ (by rw [← hq₂, he, hp₂])
  cases next_effect h hs with
  | calm hpid hnext hkilled hstate =>
    by_cases hf : ∃ p np, e = .fork p np true
    · -- a fork takes a pid
      obtain ⟨p, np, rfl⟩ := hf
      exfalso
      unfold Kernel.next at hs
      dsimp only at hs
      split at hs
      next =>
        simp only [Kernel.call] at hs
        split at hs
        next hnp =>
          rw [if_pos trivial] at hs
          obtain rfl := Option.some.inj hs
          have hu := (hstate np).2 hnp
          simp [Kernel.allocproc, Kernel.setState, Kernel.goto] at hu
        next => cases hs
      next => cases hs
    · refine hsome (fun p np he => hf ⟨p, np, he⟩) fun q hq => ?_
      exact ⟨fun hn => hq ((hstate q).2 hn), by rw [hpid]⟩
  | fork p np he hnp hpid hnext hkilled hstate =>
    subst he
    have hother : ∀ q, q ≠ np → s'.pid q = s.pid q := fun q hq => by
      rw [hpid, Function.update_of_ne hq]
    have hnew : s'.pid np = s.nextpid := by rw [hpid, Function.update_self]
    have huse : s'.state np ≠ .UNUSED := fun hn => ((hstate np).1 hn).1 rfl
    have hkept : ∀ q, s.state q ≠ .UNUSED → q ≠ np ∧ s'.state q ≠ .UNUSED := fun q hq =>
      ⟨fun hqn => hq (hqn ▸ hnp), fun hn => hq ((hstate q).1 hn).2⟩
    constructor
    · intro hi'
      obtain ⟨hpos, honce⟩ := hi' np huse
      refine ⟨hnew ▸ hpos, fun q hq he => ?_⟩
      obtain ⟨hqn, hq'⟩ := hkept q hq
      exact hqn (honce q hq' (by rw [hother q hqn, he, hnew]))
    · rintro ⟨hpos, hfresh⟩ r hr
      have hold : ∀ q, q ≠ np → s'.state q ≠ .UNUSED → s.state q ≠ .UNUSED := fun q hq hq' hn =>
        hq' ((hstate q).2 ⟨hq, hn⟩)
      by_cases hrn : r = np
      · subst hrn
        refine ⟨hnew ▸ hpos, fun q hq he => ?_⟩
        by_contra hqr
        rw [hother q hqr, hnew] at he
        exact hfresh q (hold q hqr hq) he
      · obtain ⟨hrpos, honce⟩ := hi r (hold r hrn hr)
        refine ⟨hother r hrn ▸ hrpos, fun q hq he => ?_⟩
        rw [hother r hrn] at he
        by_cases hqn : q = np
        · rw [hqn, hnew] at he
          exact absurd he.symm (hfresh r (hold r hrn hr))
        · rw [hother q hqn] at he
          exact honce q (hold q hqn hq) he
  | free r hpid hkilled hstate he =>
    refine hsome he fun q hq => ?_
    have hqr : q ≠ r := fun hqr => hq ((hstate q).2 (.inl hqr))
    exact ⟨fun hn => hq ((hstate q).2 (.inr hn)), by rw [hpid, Function.update_of_ne hqr]⟩
  | kill p i ok pid he hpc hpid hs' =>
    subst he hs'
    refine hsome (by simp) fun q hq => ?_
    have hst : ((s.kill i).goto p .user).state q = .UNUSED ↔ s.state q = .UNUSED := by
      show (s.kill i).state q = .UNUSED ↔ _
      unfold Kernel.kill
      dsimp only
      split
      next hz => exact state_update_unused .RUNNABLE (by simp) (by rw [hz]; simp) q
      next => rfl
    refine ⟨fun hn => hq (hst.2 hn), ?_⟩
    show (s.kill i).pid q = s.pid q
    unfold Kernel.kill
    dsimp only
    split <;> rfl

/-- In every run, the pids of the slots in use are positive and all different
throughout, if and only if each `fork` finds `nextpid` positive and not in use;
and the process that `fork` makes is in use until it returns its pid. -/
theorem pids_sound {es : List (Event n)}
    (h : (machine initproc).exec (Kernel.initial initproc) es = some s) :
    ((machine initproc).Throughout PidsSound (Kernel.initial initproc) es ↔
      (machine initproc).Meets FreshPid (Kernel.initial initproc) es) ∧
    ∀ p np, s.pc p = .forkParent np ∨ s.pc p = .forkPublish np → s.state np ≠ .UNUSED := by
  have hI : Inv initproc s := Inv.reachable ⟨_, es, rfl, h⟩
  refine ⟨Machine.throughout_iff_meets (K := Inv initproc) (fun _ _ _ hi hs => hi.next hs)
    (fun _ _ _ hi hp hs => pidsSound_next hi hp hs) (Inv.initial initproc) (fun p hp => ?_) h,
    fun p np hp => ?_⟩
  · have hinit : ∀ q, (Kernel.initial initproc).state q ≠ .UNUSED → q = initproc := fun q hq => by
      by_contra hqi
      exact hq (initial_state hqi)
    obtain rfl := hinit p hp
    refine ⟨?_, fun q hq _ => hinit q hq⟩
    simp [Kernel.initial]
  · have hf := hI.places.forking p
    rcases hp with hp | hp <;> rw [hp] at hf <;> rw [hf.1] <;> simp

theorem pids_sound_oneChild : ∃ s,
    (machine (0 : Fin 2)).exec (Kernel.initial 0) oneChild = some s ∧
    (machine (0 : Fin 2)).Throughout PidsSound (Kernel.initial 0) oneChild := by
  have hrun : ((machine (0 : Fin 2)).exec (Kernel.initial 0) oneChild).isSome := by
    decide +kernel
  obtain ⟨s, hs⟩ := Option.isSome_iff_exists.1 hrun
  exact ⟨s, hs, (pids_sound hs).1.2 (by decide +kernel)⟩

/-! ## After the last positive pid -/

/-- The first process runs, there is no other, and `k` is the next pid. -/
def lone (k : Int) (b : Nat) (f : Process 2) (exits : List (Exit 2)) (reaps : List (Reap 2)) :
    Kernel 2 where
  state p := if p = slot0 then .RUNNING else .UNUSED
  parent _ := none
  pid p := if p = slot0 then 1 else 0
  xstate _ := 0
  killed _ := false
  chan _ := none
  pc p := if p = slot0 then .user else .dead
  waitLock := none
  nextpid := k
  born p := if p = slot0 then 0 else b
  forker p := if p = slot0 then (slot0, 0) else f
  exits := exits
  reaps := reaps

/-- It forks a child, which exits, and waits for it. -/
def forkExitWait : List (Event 2) :=
  [.fork slot0 slot1 true, .go slot0 true, .go slot0 true, .schedule slot1, .exit slot1 0] ++
    List.replicate 6 (.go slot1 true) ++ [.wait slot0, .go slot0 true, .go slot0 true]

theorem kernel_ext {s s' : Kernel n} (h₁ : s.state = s'.state) (h₂ : s.parent = s'.parent)
    (h₃ : s.pid = s'.pid) (h₄ : s.xstate = s'.xstate) (h₅ : s.killed = s'.killed)
    (h₆ : s.chan = s'.chan) (h₇ : s.pc = s'.pc) (h₈ : s.waitLock = s'.waitLock)
    (h₉ : s.nextpid = s'.nextpid) (h₁₀ : s.born = s'.born) (h₁₁ : s.forker = s'.forker)
    (h₁₂ : s.exits = s'.exits) (h₁₃ : s.reaps = s'.reaps) : s = s' := by
  cases s
  cases s'
  simp_all only

theorem pair_ext {α : Type} {f g : Fin 2 → α} (h₀ : f 0 = g 0) (h₁ : f 1 = g 1) : f = g := by
  funext p
  rcases Fin.exists_fin_two.1 ⟨p, rfl⟩ with rfl | rfl
  · exact h₀
  · exact h₁

theorem lone_forkExitWait (k : Int) (b : Nat) (f : Process 2) (exits : List (Exit 2))
    (reaps : List (Reap 2)) : (machine (0 : Fin 2)).exec (lone k b f exits reaps) forkExitWait =
      some (lone (i32 (k + 1)) (b + 1) (0, 0) (⟨(1, b + 1), k, 0⟩ :: exits)
        (⟨(0, 0), (1, b + 1), (0, 0), k, 0⟩ :: reaps)) := by
  show some _ = some _
  exact congrArg some (kernel_ext (pair_ext rfl rfl) (pair_ext rfl rfl) (pair_ext rfl rfl)
    (pair_ext rfl rfl) (pair_ext rfl rfl) (pair_ext rfl rfl) (pair_ext rfl rfl) rfl rfl
    (pair_ext rfl rfl) (pair_ext rfl rfl) rfl rfl)

theorem initial_lone : (machine (0 : Fin 2)).exec (Kernel.initial 0) [.schedule 0] =
    some (lone 2 0 (1, 0) [] []) := by
  show some _ = some _
  exact congrArg some (kernel_ext (pair_ext rfl rfl) (pair_ext rfl rfl) (pair_ext rfl rfl)
    (pair_ext rfl rfl) (pair_ext rfl rfl) (pair_ext rfl rfl) (pair_ext rfl rfl) rfl rfl
    (pair_ext rfl rfl) (pair_ext rfl rfl) rfl rfl)

theorem i32_add (x y : Int) : i32 (i32 x + y) = i32 (x + y) := by
  unfold i32
  omega

/-- After any number of children. -/
theorem lone_reachable (k : Nat) : ∃ b f exits reaps,
    (machine (0 : Fin 2)).Reachable (lone (i32 (2 + k)) b f exits reaps) := by
  induction k with
  | zero => exact ⟨0, (1, 0), [], [], Kernel.initial 0, [.schedule 0], rfl, initial_lone⟩
  | succ k ih =>
    obtain ⟨b, f, exits, reaps, s₀, es, hi, hr⟩ := ih
    refine ⟨b + 1, (0, 0), ⟨(1, b + 1), i32 (2 + k), 0⟩ :: exits,
      ⟨(0, 0), (1, b + 1), (0, 0), i32 (2 + k), 0⟩ :: reaps, s₀, es ++ forkExitWait, hi, ?_⟩
    rw [Machine.exec_append, hr, Option.bind_some, lone_forkExitWait, i32_add, Int.add_assoc]
    rfl

/-- After 2147483646 children the next one has a negative pid. -/
theorem pid_negative : ∃ s : Kernel 2, (machine (0 : Fin 2)).Reachable s ∧
    s.state 1 = .USED ∧ s.pid 1 = -2147483648 := by
  obtain ⟨b, f, exits, reaps, h⟩ := lone_reachable 2147483646
  refine ⟨_, h.next (e := .fork 0 1 true) rfl, rfl, ?_⟩
  show i32 (2 + ((2147483646 : Nat) : Int)) = _
  decide

end Xv6.ExitWait
