/-
proc.c: the locks of the processes and the scheduler.

Where a CPU is tells which locks it holds, and where a process is tells its
state. A process that no CPU runs is at one of the points after `sched`, or
new, or has no process.
-/
import Xv6.Sleep

namespace Xv6.Sleep

open Conc

variable {n : Nat} {C L Ch : Type}

namespace PC

/-- The locks that process `p` is known to hold. -/
def locks (p : Fin n) : PC n L Ch → List (Lock n L)
  | .forkret | .sleepSet .. | .schedSleep _ | .sleepTidy _ | .sleepDrop _ | .yieldSet _
  | .schedYield _ | .yieldRelease _ | .schedExit => [.proc p]
  | .sleepAcquire _ lk | .exitAcquire lk => [.other lk]
  | .sleepRelease _ lk | .exitSet lk | .exitRelease lk => [.other lk, .proc p]
  | .scanTest _ i | .scanRelease _ i _ => [.proc i]
  | .user | .dead | .sleepLock _ | .scan .. | .yieldAcquire _ => []

/-- The process holds no other locks. -/
def exact : PC n L Ch → Bool
  | .forkret | .sleepTidy _ | .sleepDrop _ | .sleepLock _ | .yieldRelease _ => true
  | _ => false

/-- The state of a process that a CPU runs. -/
def state : PC n L Ch → ProcState
  | .schedSleep _ => .SLEEPING
  | .schedYield _ => .RUNNABLE
  | .exitRelease _ | .schedExit => .ZOMBIE
  | _ => .RUNNING

/-- A process that is not running may be here, with the state. -/
def Parked : ProcState → PC n L Ch → Prop
  | .RUNNABLE, .forkret | .RUNNABLE, .sleepTidy _ | .RUNNABLE, .yieldRelease _
  | .SLEEPING, .sleepTidy _ => True
  | .ZOMBIE, .dead | .UNUSED, .dead | .USED, .dead => True
  | _, _ => False

/-- Where the process goes on after `yield`. -/
def resumes : PC n L Ch → Option (PC n L Ch)
  | .yieldAcquire k | .yieldSet k | .schedYield k | .yieldRelease k => some k
  | _ => none

/-- A process that is interrupted here holds no locks. -/
def Idle (p : Fin n) (k : PC n L Ch) : Prop := k.locks p = [] ∧ k.resumes = none

/-- After `p->chan = 0` in `sleep`. -/
def tidied : PC n L Ch → Bool
  | .sleepDrop _ | .sleepLock _ => true
  | .yieldAcquire k | .yieldSet k | .schedYield k | .yieldRelease k => k.tidied
  | _ => false

end PC

namespace Kernel

/-- The locks that CPU `c` is known to hold. -/
def need (s : Kernel n C L Ch) (c : C) : List (Lock n L) :=
  match s.cpu c with
  | .scan _ => []
  | .picked i | .drop i => [.proc i]
  | .run p => (s.pc p).locks p

/-- CPU `c` holds no other locks. -/
def exact (s : Kernel n C L Ch) (c : C) : Bool :=
  match s.cpu c with
  | .run p => (s.pc p).exact
  | _ => true

def held (s : Kernel n C L Ch) (c : C) : Set (Lock n L) := {k | s.owner k = some c}

end Kernel

/-- The invariant. -/
structure Good (s : Kernel n C L Ch) : Prop where
  one : ∀ c c' p, s.cpu c = .run p → s.cpu c' = .run p → c = c'
  locks : ∀ c, ∀ k ∈ s.need c, s.owner k = some c
  count : ∀ c, (s.held c).encard = s.noff c
  exact : ∀ c, s.exact c → ∀ k, s.owner k = some c → k ∈ s.need c
  runs : ∀ c p, s.cpu c = .run p → s.state p = (s.pc p).state
  parked : ∀ p, (∀ c, s.cpu c ≠ .run p) → (s.pc p).Parked (s.state p)
  yields : ∀ p k, (s.pc p).resumes = some k → k.Idle p
  tidy : ∀ p, (s.pc p).tidied → s.chan p = none

namespace Good

variable {s s' : Kernel n C L Ch} {c : C} {p q : Fin n} {k : Lock n L} {pc : PC n L Ch}

/-- A step of CPU `c`. -/
theorem step (h : Good s) (hcpu : ∀ c', c' ≠ c → s'.cpu c' = s.cpu c')
    (howner : ∀ k c', c' ≠ c → (s'.owner k = some c' ↔ s.owner k = some c'))
    (hnoff : ∀ c', c' ≠ c → s'.noff c' = s.noff c')
    (hpc : ∀ c' q, c' ≠ c → s.cpu c' = .run q → s'.pc q = s.pc q ∧ s'.state q = s.state q)
    (locks : ∀ k ∈ s'.need c, s'.owner k = some c) (count : (s'.held c).encard = s'.noff c)
    (exact : s'.exact c → ∀ k, s'.owner k = some c → k ∈ s'.need c)
    (runs : ∀ p, s'.cpu c = .run p →
      s'.state p = (s'.pc p).state ∧ ∀ c', c' ≠ c → s.cpu c' ≠ .run p)
    (parked : ∀ p, (∀ c, s'.cpu c ≠ .run p) → (s'.pc p).Parked (s'.state p))
    (yields : ∀ p k, (s'.pc p).resumes = some k → k.Idle p)
    (tidy : ∀ p, (s'.pc p).tidied → s'.chan p = none) : Good s' := by
  have hneed : ∀ c', c' ≠ c → s'.need c' = s.need c' ∧ s'.exact c' = s.exact c' := fun c' hc' => by
    unfold Kernel.need Kernel.exact
    rw [hcpu c' hc']
    cases hq : s.cpu c' with
    | run q =>
      have hpcq := (hpc c' q hc' hq).1
      exact ⟨congrArg (PC.locks q) hpcq, congrArg PC.exact hpcq⟩
    | _ => exact ⟨rfl, rfl⟩
  refine ⟨fun c₁ c₂ p h₁ h₂ => ?_, fun c' => ?_, fun c' => ?_, fun c' => ?_, fun c' q hq => ?_,
    parked, yields, tidy⟩
  · by_cases hc₁ : c₁ = c
    · by_cases hc₂ : c₂ = c
      · rw [hc₁, hc₂]
      · rw [hcpu c₂ hc₂] at h₂
        exact absurd h₂ ((runs p (hc₁ ▸ h₁)).2 c₂ hc₂)
    · rw [hcpu c₁ hc₁] at h₁
      by_cases hc₂ : c₂ = c
      · exact absurd h₁ ((runs p (hc₂ ▸ h₂)).2 c₁ hc₁)
      · rw [hcpu c₂ hc₂] at h₂
        exact h.one c₁ c₂ p h₁ h₂
  · by_cases hc' : c' = c
    · subst hc'
      exact locks
    · rw [(hneed c' hc').1]
      exact fun k hk => (howner k c' hc').2 (h.locks c' k hk)
  · by_cases hc' : c' = c
    · subst hc'
      exact count
    · have hheld : s'.held c' = s.held c' := Set.ext fun k => howner k c' hc'
      rw [hheld, hnoff c' hc']
      exact h.count c'
  · by_cases hc' : c' = c
    · subst hc'
      exact exact
    · rw [(hneed c' hc').1, (hneed c' hc').2]
      exact fun he k hk => h.exact c' he k ((howner k c' hc').1 hk)
  · by_cases hc' : c' = c
    · subst hc'
      exact (runs q hq).1
    · rw [hcpu c' hc'] at hq
      obtain ⟨h₁, h₂⟩ := hpc c' q hc' hq
      rw [h₁, h₂]
      exact h.runs c' q hq

/-- A step of the process that CPU `c` runs: it changes its own place, state
and channel, and takes or gives back locks. -/
theorem process (h : Good s) (hc : s.cpu c = .run p) (hcpu : s'.cpu = s.cpu)
    (howner : ∀ k c', c' ≠ c → (s'.owner k = some c' ↔ s.owner k = some c'))
    (hnoff : ∀ c', c' ≠ c → s'.noff c' = s.noff c') (hpc : ∀ q, q ≠ p → s'.pc q = s.pc q)
    (hstate : ∀ q, q ≠ p → s'.state q = s.state q) (hchan : ∀ q, q ≠ p → s'.chan q = s.chan q)
    (locks : ∀ k ∈ (s'.pc p).locks p, s'.owner k = some c)
    (count : (s'.held c).encard = s'.noff c)
    (exact : (s'.pc p).exact → ∀ k, s'.owner k = some c → k ∈ (s'.pc p).locks p)
    (runs : s'.state p = (s'.pc p).state)
    (yields : ∀ k, (s'.pc p).resumes = some k → k.Idle p)
    (tidy : (s'.pc p).tidied → s'.chan p = none) : Good s' := by
  have hself : s'.need c = (s'.pc p).locks p ∧ s'.exact c = (s'.pc p).exact := by
    unfold Kernel.need Kernel.exact
    rw [hcpu, hc]
    exact ⟨rfl, rfl⟩
  have hne : ∀ c' q, c' ≠ c → s.cpu c' = .run q → q ≠ p := fun c' q hc' hq he =>
    hc' (h.one c' c q hq (by rw [hc, he]))
  refine h.step (fun _ _ => by rw [hcpu]) howner hnoff
    (fun c' q hc' hq => ⟨hpc q (hne c' q hc' hq), hstate q (hne c' q hc' hq)⟩)
    (by rwa [hself.1]) count (by rwa [hself.1, hself.2]) (fun q hq => ?_) (fun q hq => ?_)
    (fun q k => ?_) fun q => ?_
  · rw [hcpu, hc] at hq
    obtain rfl := Cpu.run.inj hq
    exact ⟨runs, fun c' hc' hq' => hne c' p hc' hq' rfl⟩
  · rw [hcpu] at hq
    have hqp : q ≠ p := fun he => hq c (by rw [hc, he])
    rw [hpc q hqp, hstate q hqp]
    exact h.parked q hq
  · by_cases hq : q = p
    · subst hq
      exact yields k
    · rw [hpc q hq]
      exact h.yields q k
  · by_cases hq : q = p
    · subst hq
      exact tidy
    · rw [hpc q hq, hchan q hq]
      exact h.tidy q

theorem locks_of_run (h : Good s) (hc : s.cpu c = .run p) : ∀ k ∈ (s.pc p).locks p,
    s.owner k = some c := fun k hk => h.locks c k (by
  unfold Kernel.need
  rwa [hc])

theorem exact_of_run (h : Good s) (hc : s.cpu c = .run p) (he : (s.pc p).exact) :
    ∀ k, s.owner k = some c → k ∈ (s.pc p).locks p := fun k hk => by
  have := h.exact c (by unfold Kernel.exact; rwa [hc]) k hk
  unfold Kernel.need at this
  rwa [hc] at this

/-- A process goes on with the locks it has. -/
theorem goto (h : Good s) (hc : s.cpu c = .run p) (hst : pc.state = (s.pc p).state)
    (hlocks : ∀ k ∈ pc.locks p, s.owner k = some c)
    (hexact : pc.exact → ∀ k, s.owner k = some c → k ∈ pc.locks p)
    (hyields : ∀ k, pc.resumes = some k → k.Idle p)
    (htidy : pc.tidied → s.chan p = none) : Good (s.goto p pc) := by
  have hpc : (s.goto p pc).pc p = pc := Function.update_self ..
  refine h.process hc rfl (fun _ _ _ => Iff.rfl) (fun _ _ => rfl)
    (fun q hq => Function.update_of_ne hq _ _) (fun _ _ => rfl) (fun _ _ => rfl) ?_ (h.count c) ?_
    ?_ ?_ ?_
  · rwa [hpc]
  · rwa [hpc]
  · rw [hpc, hst]
    exact h.runs c p hc
  · rwa [hpc]
  · rwa [hpc]

end Good

namespace Kernel

variable {s s' : Kernel n C L Ch} {c : C} {k : Lock n L} [DecidableEq C] [DecidableEq L]

theorem acquire_eq (ha : s.acquire c k = some s') : s.owner k = none ∧ s' = { s with
    owner := Function.update s.owner k (some c)
    noff := Function.update s.noff c (s.noff c + 1) } := by
  unfold acquire at ha
  split at ha
  · next hk => exact ⟨hk, (Option.some.inj ha).symm⟩
  · cases ha

theorem release_eq (hr : s.release c k = some s') : s.owner k = some c ∧ s' = { s with
    owner := Function.update s.owner k none
    noff := Function.update s.noff c (s.noff c - 1) } := by
  unfold release at hr
  split at hr
  · next hk => exact ⟨hk, (Option.some.inj hr).symm⟩
  · cases hr

omit [DecidableEq C] in
/-- The locks held after `acquire`. -/
theorem held_acquire (hk : s.owner k = none) (hcount : (s.held c).encard = s.noff c) :
    ({k' | Function.update s.owner k (some c) k' = some c} : Set (Lock n L)) = insert k (s.held c) ∧
    (insert k (s.held c)).encard = ((s.noff c + 1 : Nat) : ENat) := by
  constructor
  · ext k'
    by_cases hkk : k' = k
    · subst hkk
      simp
    · simp [hkk, held]
  · rw [Set.encard_insert_of_notMem, hcount]
    · rfl
    · intro hm
      rw [held, Set.mem_ofPred_eq, hk] at hm
      cases hm

omit [DecidableEq C] in
/-- The locks held after `release`. -/
theorem held_release (hk : s.owner k = some c) (hcount : (s.held c).encard = s.noff c) :
    ({k' | Function.update s.owner k none k' = some c} : Set (Lock n L)) = s.held c \ {k} ∧
    (s.held c \ {k}).encard = ((s.noff c - 1 : Nat) : ENat) := by
  constructor
  · ext k'
    by_cases hkk : k' = k
    · subst hkk
      simp
    · simp [hkk, held]
  · have hm : k ∈ s.held c := hk
    rw [Set.encard_sdiff_singleton_of_mem hm, hcount, ENat.natCast_sub]
    rfl

end Kernel

namespace Good

variable {s s' : Kernel n C L Ch} {c : C} {p q i : Fin n} {k : Lock n L} {pc : PC n L Ch}
variable [DecidableEq C] [DecidableEq L]

/-- A process takes a lock. -/
theorem acquire (h : Good s) (hc : s.cpu c = .run p) (ha : s.acquire c k = some s')
    (hst : pc.state = (s.pc p).state) (hlocks : ∀ k' ∈ pc.locks p, k' = k ∨ s.owner k' = some c)
    (hexact : pc.exact → k ∈ pc.locks p ∧ ∀ k', s.owner k' = some c → k' ∈ pc.locks p)
    (hyields : ∀ k, pc.resumes = some k → k.Idle p)
    (htidy : pc.tidied → s.chan p = none) : Good (s'.goto p pc) := by
  obtain ⟨hk, rfl⟩ := Kernel.acquire_eq ha
  obtain ⟨hheld, hcard⟩ := Kernel.held_acquire hk (h.count c)
  have hpc : Function.update s.pc p pc p = pc := Function.update_self ..
  refine h.process hc rfl (fun k' c' hc' => ?_) (fun c' hc' => Function.update_of_ne hc' _ _)
    (fun q hq => Function.update_of_ne hq _ _) (fun _ _ => rfl) (fun _ _ => rfl) ?_ ?_ ?_ ?_ ?_ ?_
  · show Function.update s.owner k (some c) k' = _ ↔ _
    by_cases hkk : k' = k
    · subst hkk
      rw [Function.update_self, hk]
      exact iff_of_false (fun he => hc' (Option.some.inj he).symm) nofun
    · rw [Function.update_of_ne hkk]
  · simp only [Kernel.goto, hpc]
    intro k' hk'
    by_cases hkk : k' = k
    · subst hkk
      exact Function.update_self ..
    · rw [Function.update_of_ne hkk]
      exact (hlocks k' hk').resolve_left hkk
  · show (({k' | Function.update s.owner k (some c) k' = some c} : Set (Lock n L))).encard = _
    rw [hheld, hcard]
    simp only [Kernel.goto, Function.update_self]
  · simp only [Kernel.goto, hpc]
    intro he k' hk'
    by_cases hkk : k' = k
    · rw [hkk]
      exact (hexact he).1
    · rw [Function.update_of_ne hkk] at hk'
      exact (hexact he).2 k' hk'
  · simp only [Kernel.goto, hpc, hst]
    exact h.runs c p hc
  · simpa only [Kernel.goto, hpc] using hyields
  · simpa only [Kernel.goto, hpc] using htidy

/-- A process gives a lock back. -/
theorem release (h : Good s) (hc : s.cpu c = .run p) (hr : s.release c k = some s')
    (hst : pc.state = (s.pc p).state) (hlocks : ∀ k' ∈ pc.locks p, k' ≠ k ∧ s.owner k' = some c)
    (hexact : pc.exact → ∀ k', s.owner k' = some c → k' ≠ k → k' ∈ pc.locks p)
    (hyields : ∀ k, pc.resumes = some k → k.Idle p)
    (htidy : pc.tidied → s.chan p = none) : Good (s'.goto p pc) := by
  obtain ⟨hk, rfl⟩ := Kernel.release_eq hr
  obtain ⟨hheld, hcard⟩ := Kernel.held_release hk (h.count c)
  have hpc : Function.update s.pc p pc p = pc := Function.update_self ..
  refine h.process hc rfl (fun k' c' hc' => ?_) (fun c' hc' => Function.update_of_ne hc' _ _)
    (fun q hq => Function.update_of_ne hq _ _) (fun _ _ => rfl) (fun _ _ => rfl) ?_ ?_ ?_ ?_ ?_ ?_
  · show Function.update s.owner k none k' = _ ↔ _
    by_cases hkk : k' = k
    · subst hkk
      rw [Function.update_self, hk]
      exact iff_of_false nofun fun he => hc' (Option.some.inj he).symm
    · rw [Function.update_of_ne hkk]
  · simp only [Kernel.goto, hpc]
    intro k' hk'
    rw [Function.update_of_ne (hlocks k' hk').1]
    exact (hlocks k' hk').2
  · show (({k' | Function.update s.owner k none k' = some c} : Set (Lock n L))).encard = _
    rw [hheld, hcard]
    simp only [Kernel.goto, Function.update_self]
  · simp only [Kernel.goto, hpc]
    intro he k' hk'
    by_cases hkk : k' = k
    · subst hkk
      rw [Function.update_self] at hk'
      cases hk'
    · rw [Function.update_of_ne hkk] at hk'
      exact hexact he k' hk' hkk
  · simp only [Kernel.goto, hpc, hst]
    exact h.runs c p hc
  · simpa only [Kernel.goto, hpc] using hyields
  · simpa only [Kernel.goto, hpc] using htidy

omit [DecidableEq C] [DecidableEq L] in
/-- A process that holds its own lock changes its state and channel. -/
theorem change {s₀ : Kernel n C L Ch} (h : Good s) (hc : s.cpu c = .run p)
    (hs : s₀ = { s with state := s₀.state, chan := s₀.chan })
    (hstate : ∀ q, q ≠ p → s₀.state q = s.state q) (hchan : ∀ q, q ≠ p → s₀.chan q = s.chan q)
    (hst : s₀.state p = pc.state) (hlocks : ∀ k ∈ pc.locks p, s.owner k = some c)
    (hexact : pc.exact → ∀ k, s.owner k = some c → k ∈ pc.locks p)
    (hyields : ∀ k, pc.resumes = some k → k.Idle p)
    (htidy : pc.tidied → s₀.chan p = none) : Good (s₀.goto p pc) := by
  have hpc : (s₀.goto p pc).pc p = pc := Function.update_self ..
  have howner : s₀.owner = s.owner := by rw [hs]
  have hnoff : s₀.noff = s.noff := by rw [hs]
  refine h.process hc (by rw [hs]; rfl) (fun k c' _ => ?_) (fun c' _ => ?_) (fun q hq => ?_) hstate
    hchan ?_ ?_ ?_ ?_ ?_ ?_
  · show s₀.owner k = _ ↔ _
    rw [howner]
  · show s₀.noff c' = _
    rw [hnoff]
  · show Function.update s₀.pc p pc q = _
    rw [Function.update_of_ne hq, hs]
  · rw [hpc]
    show ∀ k ∈ _, s₀.owner k = _
    rwa [howner]
  · show ({k | s₀.owner k = some c} : Set (Lock n L)).encard = (s₀.noff c : ENat)
    rw [howner, hnoff]
    exact h.count c
  · rw [hpc]
    show _ → ∀ k, s₀.owner k = _ → _
    rwa [howner]
  · rw [hpc]
    exact hst
  · rwa [hpc]
  · rwa [hpc]

omit [DecidableEq C] [DecidableEq L] in
/-- A process that a CPU runs outside `RUNNING` holds its own lock, so another
CPU that has the lock knows that it does not run. -/
theorem not_running (h : Good s) (ho : s.owner (.proc q) = some c) (hs : s.state q ≠ .RUNNING)
    (hc : s.cpu c ≠ .run q) (c' : C) : s.cpu c' ≠ .run q := fun hc' => by
  have hst := h.runs c' q hc'
  have hmem : Lock.proc q ∈ (s.pc q).locks q := by
    cases hpc : s.pc q <;> rw [hpc] at hst <;> first | exact absurd hst hs | simp [PC.locks]
  have := h.locks_of_run hc' _ hmem
  rw [ho] at this
  exact hc (by rwa [Option.some.inj this])

omit [DecidableEq C] [DecidableEq L] in
/-- A change to a process that does not run. -/
theorem slot (h : Good s) (hq : ∀ c, s.cpu c ≠ .run q) (hcpu : s'.cpu = s.cpu)
    (howner : s'.owner = s.owner) (hnoff : s'.noff = s.noff)
    (hpc : ∀ p, p ≠ q → s'.pc p = s.pc p) (hstate : ∀ p, p ≠ q → s'.state p = s.state p)
    (hchan : ∀ p, p ≠ q → s'.chan p = s.chan p) (hparked : (s'.pc q).Parked (s'.state q))
    (hyields : ∀ k, (s'.pc q).resumes = some k → k.Idle q)
    (htidy : (s'.pc q).tidied → s'.chan q = none) : Good s' := by
  have hne : ∀ c p, s.cpu c = .run p → p ≠ q := fun c p hc he => hq c (by rw [hc, he])
  have hneed : ∀ c, s'.need c = s.need c ∧ s'.exact c = s.exact c := fun c => by
    unfold Kernel.need Kernel.exact
    rw [hcpu]
    cases hc : s.cpu c with
    | run p =>
      have hp := hpc p (hne c p hc)
      exact ⟨congrArg (PC.locks p) hp, congrArg PC.exact hp⟩
    | _ => exact ⟨rfl, rfl⟩
  refine ⟨?_, fun c => ?_, fun c => ?_, fun c => ?_, fun c p hc => ?_, fun p hp => ?_, fun p k => ?_,
    fun p => ?_⟩
  · rw [hcpu]
    exact h.one
  · rw [(hneed c).1, howner]
    exact h.locks c
  · have hheld : s'.held c = s.held c := by unfold Kernel.held; rw [howner]
    rw [hheld, hnoff]
    exact h.count c
  · rw [(hneed c).1, (hneed c).2, howner]
    exact h.exact c
  · rw [hcpu] at hc
    rw [hpc p (hne c p hc), hstate p (hne c p hc)]
    exact h.runs c p hc
  · by_cases hpq : p = q
    · rwa [hpq]
    · rw [hpc p hpq, hstate p hpq]
      rw [hcpu] at hp
      exact h.parked p hp
  · by_cases hpq : p = q
    · subst hpq
      exact hyields k
    · rw [hpc p hpq]
      exact h.yields p k
  · by_cases hpq : p = q
    · subst hpq
      exact htidy
    · rw [hpc p hpq, hchan p hpq]
      exact h.tidy p

omit [DecidableEq L] in
/-- The scheduler goes on with the locks it has. -/
theorem turn (h : Good s) {r : Cpu n} (hc : ∀ p, s.cpu c ≠ .run p) (hr : ∀ p, r ≠ .run p)
    (hneed : (s.turn c r).need c = s.need c) : Good (s.turn c r) := by
  have hself : (s.turn c r).cpu c = r := Function.update_self ..
  have hne : ∀ c', c' ≠ c → (s.turn c r).cpu c' = s.cpu c' := fun c' hc' =>
    Function.update_of_ne hc' _ _
  refine h.step hne (fun _ _ _ => Iff.rfl) (fun _ _ => rfl) (fun _ _ _ _ => ⟨rfl, rfl⟩) ?_ (h.count c)
    (fun _ k hk => ?_) (fun p hp => ?_) (fun p hp => h.parked p fun c' => ?_) h.yields h.tidy
  · rw [hneed]
    exact h.locks c
  · rw [hneed]
    refine h.exact c ?_ k hk
    unfold Kernel.exact
    cases hc' : s.cpu c with
    | run p => exact absurd hc' (hc p)
    | _ => rfl
  · rw [hself] at hp
    exact absurd hp (hr p)
  · by_cases hc' : c' = c
    · rw [hc']
      exact hc p
    · rw [← hne c' hc']
      exact hp c'

/-- The scheduler takes the lock of a process. -/
theorem pick (h : Good s) (hc : ∀ p, s.cpu c ≠ .run p) (hneed : s.need c = [])
    (ha : s.acquire c (.proc i) = some s') : Good (s'.turn c (.picked i)) := by
  obtain ⟨hk, rfl⟩ := Kernel.acquire_eq ha
  obtain ⟨hheld, hcard⟩ := Kernel.held_acquire hk (h.count c)
  have hempty : ∀ k, s.owner k ≠ some c := fun k hko => by
    have := h.exact c (by
      unfold Kernel.exact
      cases hc' : s.cpu c with
      | run p => exact absurd hc' (hc p)
      | _ => rfl) k hko
    rw [hneed] at this
    cases this
  have hself : Function.update s.cpu c (.picked i) c = .picked i := Function.update_self ..
  have hne : ∀ c', c' ≠ c → Function.update s.cpu c (.picked i) c' = s.cpu c' := fun c' hc' =>
    Function.update_of_ne hc' _ _
  refine h.step hne (fun k c' hc' => ?_) (fun c' hc' => Function.update_of_ne hc' _ _)
    (fun _ _ _ _ => ⟨rfl, rfl⟩) ?_ ?_ (fun _ k' hk' => ?_) (fun p hp => ?_)
    (fun p hp => h.parked p fun c' => ?_) h.yields h.tidy
  · show Function.update s.owner (.proc i) (some c) k = _ ↔ _
    by_cases hkk : k = .proc i
    · subst hkk
      rw [Function.update_self, hk]
      exact iff_of_false (fun he => hc' (Option.some.inj he).symm) nofun
    · rw [Function.update_of_ne hkk]
  · simp only [Kernel.need, Kernel.turn, hself, List.mem_singleton]
    rintro k rfl
    exact Function.update_self ..
  · show (({k' | Function.update s.owner (.proc i) (some c) k' = some c} : Set (Lock n L))).encard = _
    rw [hheld, hcard]
    simp only [Kernel.turn, Function.update_self]
  · simp only [Kernel.need, Kernel.turn, hself, List.mem_singleton]
    by_contra hkk
    have hk'' : Function.update s.owner (.proc i) (some c) k' = some c := hk'
    rw [Function.update_of_ne hkk] at hk''
    exact hempty k' hk''
  · have hp' : Function.update s.cpu c (.picked i) c = .run p := hp
    rw [hself] at hp'
    cases hp'
  · by_cases hc' : c' = c
    · rw [hc']
      exact hc p
    · rw [← hne c' hc']
      exact hp c'

/-- The scheduler gives the lock of a process back. -/
theorem drop (h : Good s) (hc : s.cpu c = .drop i) {j : Nat} (hr : s.release c (.proc i) = some s') :
    Good (s'.turn c (.scan j)) := by
  obtain ⟨hk, rfl⟩ := Kernel.release_eq hr
  obtain ⟨hheld, hcard⟩ := Kernel.held_release hk (h.count c)
  have hself : Function.update s.cpu c (.scan j) c = .scan j := Function.update_self ..
  have hne : ∀ c', c' ≠ c → Function.update s.cpu c (.scan j) c' = s.cpu c' := fun c' hc' =>
    Function.update_of_ne hc' _ _
  refine h.step hne (fun k c' hc' => ?_) (fun c' hc' => Function.update_of_ne hc' _ _)
    (fun _ _ _ _ => ⟨rfl, rfl⟩) ?_ ?_ (fun _ k' hk' => ?_) (fun p hp => ?_)
    (fun p hp => h.parked p fun c' => ?_) h.yields h.tidy
  · show Function.update s.owner (.proc i) none k = _ ↔ _
    by_cases hkk : k = .proc i
    · subst hkk
      rw [Function.update_self, hk]
      exact iff_of_false nofun fun he => hc' (Option.some.inj he).symm
    · rw [Function.update_of_ne hkk]
  · simp only [Kernel.need, Kernel.turn, hself]
    exact nofun
  · show (({k' | Function.update s.owner (.proc i) none k' = some c} : Set (Lock n L))).encard = _
    rw [hheld, hcard]
    simp only [Kernel.turn, Function.update_self]
  · have hk'' : Function.update s.owner (.proc i) none k' = some c := hk'
    by_cases hkk : k' = .proc i
    · subst hkk
      rw [Function.update_self] at hk''
      cases hk''
    · rw [Function.update_of_ne hkk] at hk''
      have := h.exact c (by unfold Kernel.exact; rw [hc]) k' hk''
      unfold Kernel.need at this
      rw [hc, List.mem_singleton] at this
      exact absurd this hkk
  · have hp' : Function.update s.cpu c (.scan j) c = .run p := hp
    rw [hself] at hp'
    cases hp'
  · by_cases hc' : c' = c
    · rw [hc', hc]
      nofun
    · rw [← hne c' hc']
      exact hp c'

omit [DecidableEq L] in
/-- `swtch` to a process. -/
theorem swtch (h : Good s) (hc : s.cpu c = .picked i) (hs : s.state i = .RUNNABLE) :
    Good ((s.setState i .RUNNING).turn c (.run i)) := by
  have hown : s.owner (.proc i) = some c := h.locks c _ (by
    unfold Kernel.need
    rw [hc]
    exact List.mem_singleton.2 rfl)
  have hno := h.not_running hown (by rw [hs]; nofun) (by rw [hc]; nofun)
  have hpark := h.parked i hno
  rw [hs] at hpark
  have hpc : (s.pc i).locks i = [.proc i] ∧ (s.pc i).state = .RUNNING := by
    cases hi : s.pc i <;> rw [hi] at hpark <;> first | exact ⟨rfl, rfl⟩ | cases hpark
  have hself : Function.update s.cpu c (.run i) c = .run i := Function.update_self ..
  have hne : ∀ c', c' ≠ c → Function.update s.cpu c (.run i) c' = s.cpu c' := fun c' hc' =>
    Function.update_of_ne hc' _ _
  have hstate : ∀ p, p ≠ i → Function.update s.state i .RUNNING p = s.state p := fun p hp =>
    Function.update_of_ne hp _ _
  have hneed : s.need c = [.proc i] := by
    unfold Kernel.need
    rw [hc]
  refine h.step hne (fun _ _ _ => Iff.rfl) (fun _ _ => rfl) (fun c' q hc' hq => ⟨rfl, ?_⟩) ?_
    (h.count c) (fun _ k hk => ?_) (fun p hp => ?_) (fun p hp => ?_) h.yields h.tidy
  · exact hstate q fun he => hno c' (by rw [hq, he])
  · simp only [Kernel.need, Kernel.turn, hself, Kernel.setState, hpc.1, List.mem_singleton]
    rintro k rfl
    exact hown
  · simp only [Kernel.need, Kernel.turn, hself, Kernel.setState, hpc.1]
    rw [← hneed]
    exact h.exact c (by unfold Kernel.exact; rw [hc]) k hk
  · have hp' : Function.update s.cpu c (.run i) c = .run p := hp
    rw [hself] at hp'
    obtain rfl := Cpu.run.inj hp'
    refine ⟨?_, fun c' _ => hno c'⟩
    show Function.update s.state i .RUNNING i = (s.pc i).state
    rw [Function.update_self, hpc.2]
  · have hpi : p ≠ i := fun he => hp c (by rw [he]; exact hself)
    show (s.pc p).Parked (Function.update s.state i .RUNNING p)
    rw [hstate p hpi]
    refine h.parked p fun c' => ?_
    by_cases hc' : c' = c
    · rw [hc', hc]
      nofun
    · rw [← hne c' hc']
      exact hp c'

omit [DecidableEq L] in
/-- `sched`: `swtch` to the scheduler. -/
theorem sched (h : Good s) (hc : s.cpu c = .run p) (hs : s.sched c p pc = some s')
    (hpark : pc.Parked (s.state p)) (hyields : ∀ k, pc.resumes = some k → k.Idle p)
    (htidy : pc.tidied → s.chan p = none) : Good s' := by
  unfold Kernel.sched at hs
  split at hs
  case isFalse => cases hs
  next hsched =>
  obtain ⟨hown, hnoff, hst⟩ := hsched
  obtain rfl := Option.some.inj hs
  have hheld : s.held c = {.proc p} := by
    have hcard := h.count c
    rw [hnoff] at hcard
    obtain ⟨k, hk⟩ := Set.encard_eq_one.1 hcard
    have hm : Lock.proc p ∈ s.held c := hown
    rw [hk, Set.mem_singleton_iff] at hm
    rw [hk, hm]
  have hself : Function.update s.cpu c (.drop p) c = .drop p := Function.update_self ..
  have hne : ∀ c', c' ≠ c → Function.update s.cpu c (.drop p) c' = s.cpu c' := fun c' hc' =>
    Function.update_of_ne hc' _ _
  have hpc : ∀ q, q ≠ p → Function.update s.pc p pc q = s.pc q := fun q hq =>
    Function.update_of_ne hq _ _
  have hpc' : Function.update s.pc p pc p = pc := Function.update_self ..
  refine h.step hne (fun _ _ _ => Iff.rfl) (fun _ _ => rfl) (fun c' q hc' hq => ⟨?_, rfl⟩) ?_
    (h.count c) (fun _ k hk => ?_) (fun q hq => ?_) (fun q hq => ?_) (fun q k => ?_) fun q => ?_
  · exact hpc q fun he => hc' (h.one c' c q hq (by rw [hc, he]))
  · simp only [Kernel.need, Kernel.turn, Kernel.goto, hself, List.mem_singleton]
    rintro k rfl
    exact hown
  · simp only [Kernel.need, Kernel.turn, Kernel.goto, hself, List.mem_singleton]
    have hm : k ∈ s.held c := hk
    rwa [hheld] at hm
  · have hq' : Function.update s.cpu c (.drop p) c = .run q := hq
    rw [hself] at hq'
    cases hq'
  · show (Function.update s.pc p pc q).Parked (s.state q)
    by_cases hqp : q = p
    · subst hqp
      rwa [hpc']
    · rw [hpc q hqp]
      refine h.parked q fun c' => ?_
      by_cases hc' : c' = c
      · rw [hc', hc]
        exact fun he => hqp (Cpu.run.inj he).symm
      · rw [← hne c' hc']
        exact hq c'
  · show (Function.update s.pc p pc q).resumes = some k → _
    by_cases hqp : q = p
    · subst hqp
      rw [hpc']
      exact hyields k
    · rw [hpc q hqp]
      exact h.yields q k
  · show (Function.update s.pc p pc q).tidied → s.chan q = none
    by_cases hqp : q = p
    · subst hqp
      rwa [hpc']
    · rw [hpc q hqp]
      exact h.tidy q

variable [DecidableEq Ch]

omit [DecidableEq C] [DecidableEq L] in
/-- `wakeup` and `kill` wake only a process that sleeps. -/
theorem visit (h : Good s) {f : Scan Ch} (hc : s.cpu c ≠ .run i ∨ s.state i = .RUNNING)
    (ho : s.owner (.proc i) = some c) : Good (s.visit i f).1 := by
  have hwake : ∀ s' : Kernel n C L Ch, s' = { s with killed := s'.killed } → s.state i = .SLEEPING →
      Good (s'.setState i .RUNNABLE) := fun s' hs hst => by
    have hno := h.not_running ho (by rw [hst]; nofun) (hc.resolve_right (by rw [hst]; nofun))
    have hpark := h.parked i hno
    rw [hst] at hpark
    have hstate : s'.state = s.state := by rw [hs]
    refine h.slot hno (by rw [hs]; rfl) (by rw [hs]; rfl) (by rw [hs]; rfl) (fun p _ => by rw [hs]; rfl)
      (fun p hp => ?_) (fun p _ => by rw [hs]; rfl) ?_ (fun k => ?_) ?_
    · show Function.update s'.state i _ p = _
      rw [Function.update_of_ne hp, hstate]
    · show (s'.pc i).Parked (Function.update s'.state i .RUNNABLE i)
      rw [Function.update_self, hs]
      show (s.pc i).Parked _
      cases hpc : s.pc i <;> rw [hpc] at hpark <;> first | exact trivial | cases hpark
    · show (s'.pc i).resumes = _ → _
      rw [hs]
      exact h.yields i k
    · show (s'.pc i).tidied → s'.chan i = none
      rw [hs]
      exact h.tidy i
  have hkill : Good { s with killed := Function.update s.killed i true } :=
    ⟨h.one, h.locks, h.count, h.exact, h.runs, h.parked, h.yields, h.tidy⟩
  cases f with
  | wakeup chan =>
    simp only [Kernel.visit]
    split
    · next hw => exact hwake s rfl hw.1
    · exact h
  | kill pid =>
    simp only [Kernel.visit]
    split
    · split
      · next hst => exact hwake { s with killed := Function.update s.killed i true } rfl hst
      · exact hkill
    · exact h

omit [DecidableEq C] [DecidableEq L] in
theorem visit_frame (s : Kernel n C L Ch) (i : Fin n) (f : Scan Ch) :
    (s.visit i f).1.cpu = s.cpu ∧ (s.visit i f).1.owner = s.owner ∧ (s.visit i f).1.pc = s.pc ∧
      (s.visit i f).1.chan = s.chan ∧ (s.visit i f).1.sleeps = s.sleeps ∧
      (s.visit i f).1.wakes = s.wakes := by
  cases f with
  | wakeup chan =>
    simp only [Kernel.visit]
    split <;> exact ⟨rfl, rfl, rfl, rfl, rfl, rfl⟩
  | kill pid =>
    simp only [Kernel.visit]
    repeat' split
    all_goals exact ⟨rfl, rfl, rfl, rfl, rfl, rfl⟩

theorem goProc (h : Good s) (hc : s.cpu c = .run p) (hs : s.goProc c p = some s') : Good s' := by
  have hlocks := h.locks_of_run hc
  have hexact := h.exact_of_run hc
  have hy := h.yields p
  have ht := h.tidy p
  unfold Kernel.goProc at hs
  cases hpc : s.pc p <;> rw [hpc] at hs hlocks hexact hy ht <;> dsimp only at hs
  case user | dead => cases hs
  case forkret =>
    obtain ⟨s₁, hr, rfl⟩ := Option.map_eq_some_iff.1 hs
    exact h.release hc hr (by rw [hpc]; rfl) nofun nofun nofun nofun
  case sleepAcquire chan lk =>
    obtain ⟨s₁, ha, rfl⟩ := Option.map_eq_some_iff.1 hs
    refine h.acquire hc ha (by rw [hpc]; rfl) (fun k hk => ?_) nofun nofun nofun
    rcases List.mem_cons.1 hk with rfl | hk
    · exact .inr (hlocks _ (List.mem_singleton.2 rfl))
    · exact .inl (List.mem_singleton.1 hk)
  case sleepRelease chan lk =>
    obtain ⟨s₁, hr, rfl⟩ := Option.map_eq_some_iff.1 hs
    refine h.release hc hr (by rw [hpc]; rfl) (fun k hk => ?_) nofun nofun nofun
    rw [List.mem_singleton.1 hk]
    exact ⟨nofun, hlocks _ (by simp [PC.locks])⟩
  case sleepSet chan lk =>
    obtain rfl := Option.some.inj hs
    exact h.change hc rfl (fun q hq => Function.update_of_ne hq _ _)
      (fun q hq => Function.update_of_ne hq _ _) (Function.update_self ..) hlocks nofun nofun nofun
  case schedSleep lk =>
    refine h.sched hc hs ?_ nofun nofun
    rw [h.runs c p hc, hpc]
    exact trivial
  case sleepTidy lk =>
    obtain rfl := Option.some.inj hs
    refine h.change hc rfl (fun q _ => rfl) (fun q hq => Function.update_of_ne hq _ _) ?_ hlocks
      (fun _ => hexact rfl) nofun fun _ => Function.update_self ..
    exact (h.runs c p hc).trans (by rw [hpc]; rfl)
  case sleepDrop lk =>
    obtain ⟨s₁, hr, rfl⟩ := Option.map_eq_some_iff.1 hs
    refine h.release hc hr (by rw [hpc]; rfl) nofun (fun _ k hk hne => ?_) nofun ht
    exact absurd (List.mem_singleton.1 (hexact rfl k hk)) hne
  case sleepLock lk =>
    obtain ⟨s₁, ha, rfl⟩ := Option.map_eq_some_iff.1 hs
    exact h.acquire hc ha (by rw [hpc]; rfl) nofun nofun nofun nofun
  case scan f i =>
    split at hs
    · split at hs
      · obtain rfl := Option.some.inj hs
        exact h.goto hc (by rw [hpc]; rfl) nofun nofun nofun nofun
      · obtain ⟨s₁, ha, rfl⟩ := Option.map_eq_some_iff.1 hs
        exact h.acquire hc ha (by rw [hpc]; rfl) (fun k hk => .inl (List.mem_singleton.1 hk)) nofun
          nofun nofun
    · obtain rfl := Option.some.inj hs
      exact h.goto hc (by rw [hpc]; rfl) nofun nofun nofun nofun
  case scanTest f i =>
    obtain rfl := Option.some.inj hs
    obtain ⟨hcpu, hown, hpc', -, -, -⟩ := visit_frame s i f
    have hrun : s.cpu c ≠ .run i ∨ s.state i = .RUNNING := by
      by_cases hip : i = p
      · exact .inr (by rw [hip, h.runs c p hc, hpc]; rfl)
      · exact .inl (by rw [hc]; exact fun he => hip (Cpu.run.inj he).symm)
    refine (h.visit hrun (hlocks _ (List.mem_singleton.2 rfl))).goto (by rw [hcpu]; exact hc)
      (by rw [hpc', hpc]; rfl) (fun k hk => ?_) nofun nofun nofun
    rw [hown]
    exact hlocks k hk
  case scanRelease f i found =>
    obtain ⟨s₁, hr, rfl⟩ := Option.map_eq_some_iff.1 hs
    cases found <;> exact h.release hc hr (by rw [hpc]; rfl) nofun nofun nofun nofun
  case yieldAcquire k =>
    obtain ⟨s₁, ha, rfl⟩ := Option.map_eq_some_iff.1 hs
    exact h.acquire hc ha (by rw [hpc]; rfl) (fun k hk => .inl (List.mem_singleton.1 hk)) nofun hy ht
  case yieldSet k =>
    obtain rfl := Option.some.inj hs
    exact h.change hc rfl (fun q hq => Function.update_of_ne hq _ _) (fun q _ => rfl)
      (Function.update_self ..) hlocks nofun hy ht
  case schedYield k =>
    refine h.sched hc hs ?_ hy ht
    rw [h.runs c p hc, hpc]
    exact trivial
  case yieldRelease k =>
    obtain ⟨s₁, hr, rfl⟩ := Option.map_eq_some_iff.1 hs
    obtain ⟨hk, hres⟩ := hy k rfl
    have hst : k.state = .RUNNING := by
      cases k <;> first | rfl | cases hk
    refine h.release hc hr (by rw [hst, hpc]; rfl) (by rw [hk]; nofun) (fun _ k' hk' hne => ?_)
      (by rw [hres]; nofun) ht
    exact absurd (List.mem_singleton.1 (hexact rfl k' hk')) hne
  case exitAcquire lk =>
    obtain ⟨s₁, ha, rfl⟩ := Option.map_eq_some_iff.1 hs
    refine h.acquire hc ha (by rw [hpc]; rfl) (fun k hk => ?_) nofun nofun nofun
    rcases List.mem_cons.1 hk with rfl | hk
    · exact .inr (hlocks _ (List.mem_singleton.2 rfl))
    · exact .inl (List.mem_singleton.1 hk)
  case exitSet lk =>
    obtain rfl := Option.some.inj hs
    exact h.change hc rfl (fun q hq => Function.update_of_ne hq _ _) (fun q _ => rfl)
      (Function.update_self ..) hlocks nofun nofun nofun
  case exitRelease lk =>
    obtain ⟨s₁, hr, rfl⟩ := Option.map_eq_some_iff.1 hs
    refine h.release hc hr (by rw [hpc]; rfl) (fun k hk => ?_) nofun nofun nofun
    rw [List.mem_singleton.1 hk]
    exact ⟨nofun, hlocks _ (by simp [PC.locks])⟩
  case schedExit =>
    refine h.sched hc hs ?_ nofun nofun
    rw [h.runs c p hc, hpc]
    exact trivial

omit [DecidableEq Ch] in
theorem goCpu (h : Good s) (hc : ∀ p, s.cpu c ≠ .run p) [DecidableEq Ch] (hs : s.go c = some s') :
    Good s' := by
  unfold Kernel.go at hs
  cases hr : s.cpu c with
  | run p => exact absurd hr (hc p)
  | scan j =>
    rw [hr] at hs
    dsimp only at hs
    split at hs
    · obtain ⟨s₁, ha, rfl⟩ := Option.map_eq_some_iff.1 hs
      exact h.pick hc (by unfold Kernel.need; rw [hr]) ha
    · obtain rfl := Option.some.inj hs
      refine h.turn hc nofun ?_
      unfold Kernel.need
      rw [hr, show (s.turn c (.scan 0)).cpu c = .scan 0 from Function.update_self ..]
  | picked i =>
    rw [hr] at hs
    dsimp only at hs
    split at hs
    · next hst =>
      obtain rfl := Option.some.inj hs
      exact h.swtch hr hst
    · obtain rfl := Option.some.inj hs
      refine h.turn hc nofun ?_
      unfold Kernel.need
      rw [hr, show (s.turn c (.drop i)).cpu c = .drop i from Function.update_self ..]
  | drop i =>
    rw [hr] at hs
    obtain ⟨s₁, ha, rfl⟩ := Option.map_eq_some_iff.1 hs
    exact h.drop hr ha

omit [DecidableEq C] [DecidableEq L] [DecidableEq Ch] in
theorem timer (h : Good s) (hc : s.cpu c = .run p) (hs : s.timer c p = some s') : Good s' := by
  have hempty : s.noff c = 0 → ∀ k, s.owner k ≠ some c := fun hz k hk => by
    have hcard := h.count c
    rw [hz, Nat.cast_zero, Set.encard_eq_zero] at hcard
    have hm : k ∈ s.held c := hk
    rw [hcard] at hm
    exact hm
  have hlocks : s.noff c = 0 → (s.pc p).locks p = [] := fun hz => by
    rw [List.eq_nil_iff_forall_not_mem]
    exact fun k hk => hempty hz k (h.locks_of_run hc k hk)
  have hstep : (s.pc p).resumes = none → s.noff c = 0 → (s.pc p).state = .RUNNING →
      Good (s.goto p (.yieldAcquire (s.pc p))) := fun hres hz hst =>
    h.goto hc hst.symm nofun nofun (fun k hk => by
      obtain rfl := Option.some.inj hk
      exact ⟨hlocks hz, hres⟩) (h.tidy p)
  unfold Kernel.timer at hs
  cases hpc : s.pc p <;> rw [hpc] at hs hstep hlocks <;> dsimp only at hs
  all_goals first
    | cases hs
    | (split at hs
       · next hz =>
         obtain rfl := Option.some.inj hs
         first | exact hstep rfl hz rfl | cases hlocks hz
       · cases hs)

omit [DecidableEq Ch] in
/-- What a process does outside these functions. -/
theorem call (h : Good s) {e : Event n C L Ch} (hc : s.cpu c = .run p) (hpc : s.pc p = .user)
    (hs : s.call c p e = some s') : Good s' := by
  have hgoto : ∀ (s₀ : Kernel n C L Ch) (pc : PC n L Ch),
      s₀ = { s with sleeps := s₀.sleeps, wakes := s₀.wakes } → pc.state = .RUNNING →
      (∀ k ∈ pc.locks p, s.owner k = some c) → pc.exact = false → pc.resumes = none →
      pc.tidied = false → Good (s₀.goto p pc) := fun s₀ pc hs₀ h₁ h₂ h₃ h₄ h₅ => by
    have h₀ : Good s₀ := by
      rw [hs₀]
      exact ⟨h.one, h.locks, h.count, h.exact, h.runs, h.parked, h.yields, h.tidy⟩
    refine h₀.goto (c := c) (by rw [hs₀]; exact hc) ?_ ?_ (by rw [h₃]; nofun) (by rw [h₄]; nofun)
      (by rw [h₅]; nofun)
    · rw [hs₀]
      show pc.state = (s.pc p).state
      rw [hpc, h₁]
      rfl
    · rw [hs₀]
      exact h₂
  have hself : ∀ s' : Kernel n C L Ch, s'.pc = s.pc → s'.goto p .user = s' := fun s' hs' => by
    unfold Kernel.goto
    rw [← hpc, ← hs', Function.update_eq_self]
  have hq : ∀ q, s.owner (.proc q) = some c → s.state q ≠ .RUNNING → ∀ c', s.cpu c' ≠ .run q :=
    fun q ho hst => h.not_running ho hst fun he => hst (by
      rw [h.runs c q he]
      obtain rfl := Cpu.run.inj (hc.symm.trans he)
      rw [hpc]
      rfl)
  have hdead : ∀ q, s.owner (.proc q) = some c → s.state q = .UNUSED ∨ s.state q = .USED ∨
      s.state q = .ZOMBIE → s.pc q = .dead := fun q ho hst => by
    have hpark := h.parked q (hq q ho (by rcases hst with hst | hst | hst <;> rw [hst] <;> nofun))
    cases hpc : s.pc q <;> rw [hpc] at hpark <;>
      rcases hst with hst | hst | hst <;> rw [hst] at hpark <;> first | rfl | cases hpark
  cases e with
  | go | timer => cases hs
  | acquire _ k =>
    have hs' : s'.pc = s.pc := by rw [(Kernel.acquire_eq hs).2]
    rw [← hself s' hs']
    exact h.acquire hc hs (by rw [hpc]) nofun nofun nofun nofun
  | release _ k =>
    have hs' : s'.pc = s.pc := by rw [(Kernel.release_eq hs).2]
    rw [← hself s' hs']
    exact h.release hc hs (by rw [hpc]) nofun nofun nofun nofun
  | sleep _ chan lk =>
    simp only [Kernel.call] at hs
    split at hs
    · next hlk =>
      obtain rfl := Option.some.inj hs
      refine hgoto _ _ rfl rfl (fun k hk => ?_) rfl rfl rfl
      rwa [List.mem_singleton.1 hk]
    · cases hs
  | scan _ f =>
    obtain rfl := Option.some.inj hs
    exact hgoto _ _ rfl rfl nofun rfl rfl rfl
  | exit _ lk =>
    simp only [Kernel.call] at hs
    split at hs
    · next hlk =>
      obtain rfl := Option.some.inj hs
      refine hgoto s _ rfl rfl (fun k hk => ?_) rfl rfl rfl
      rwa [List.mem_singleton.1 hk]
    · cases hs
  | alloc _ q pid =>
    simp only [Kernel.call] at hs
    split at hs
    · next hst =>
      obtain rfl := Option.some.inj hs
      have hd := hdead q hst.1 (.inl hst.2)
      refine h.slot (hq q hst.1 (by rw [hst.2]; nofun)) rfl rfl rfl (fun _ _ => rfl)
        (fun r hr => Function.update_of_ne hr _ _) (fun _ _ => rfl) ?_ ?_ ?_
      · simp only [Kernel.setState, hd, Function.update_self]
        trivial
      · simp only [Kernel.setState, hd]
        exact nofun
      · simp only [Kernel.setState, hd]
        exact nofun
    · cases hs
  | publish _ q =>
    simp only [Kernel.call] at hs
    split at hs
    · next hst =>
      obtain rfl := Option.some.inj hs
      refine h.slot (hq q hst.1 (by rw [hst.2]; nofun)) rfl rfl rfl
        (fun r hr => Function.update_of_ne hr _ _) (fun r hr => Function.update_of_ne hr _ _)
        (fun _ _ => rfl) ?_ ?_ ?_
      · simp only [Kernel.setState, Kernel.goto, Function.update_self]
        trivial
      · simp only [Kernel.setState, Kernel.goto, Function.update_self]
        exact nofun
      · simp only [Kernel.setState, Kernel.goto, Function.update_self]
        exact nofun
    · cases hs
  | freeproc _ q =>
    simp only [Kernel.call] at hs
    split at hs
    · next hst =>
      obtain rfl := Option.some.inj hs
      have hd := hdead q hst.1 (.inr hst.2)
      refine h.slot (hq q hst.1 (by rcases hst.2 with he | he <;> rw [he] <;> nofun)) rfl rfl rfl
        (fun _ _ => rfl) (fun r hr => Function.update_of_ne hr _ _)
        (fun r hr => Function.update_of_ne hr _ _) ?_ ?_ ?_
      · simp only [Kernel.setState, hd, Function.update_self]
        trivial
      · simp only [Kernel.setState, hd]
        exact nofun
      · simp only [Kernel.setState, hd]
        exact nofun
    · cases hs

theorem next (h : Good s) {e : Event n C L Ch} (hs : (machine n C L Ch).next s e = some s') :
    Good s' := by
  cases e with
  | go c =>
    by_cases hc : ∃ p, s.cpu c = .run p
    · obtain ⟨p, hc⟩ := hc
      have hs' : s.go c = some s' := hs
      unfold Kernel.go at hs'
      rw [hc] at hs'
      exact h.goProc hc hs'
    · exact h.goCpu (fun p hp => hc ⟨p, hp⟩) hs
  | timer c =>
    simp only [machine] at hs
    split at hs
    · next p hc => exact h.timer hc hs
    · cases hs
  | _ =>
    simp only [machine] at hs
    split at hs
    · next p hc =>
      split at hs
      · next hpc => exact h.call hc hpc hs
      · cases hs
    · cases hs

theorem init (hi : (machine n C L Ch).init s) : Good s := by
  obtain ⟨howner, hnoff, hcpu, hproc⟩ := hi
  refine ⟨fun c _ p hc => ?_, fun c => ?_, fun c => ?_, fun c _ k hk => ?_, fun c p hc => ?_,
    fun p _ => ?_, fun p k hk => ?_, fun p ht => ?_⟩
  · rw [hcpu] at hc
    cases hc
  · unfold Kernel.need
    rw [hcpu]
    nofun
  · rw [hnoff, Nat.cast_zero, Set.encard_eq_zero]
    ext k
    simp [Kernel.held, howner]
  · rw [howner] at hk
    cases hk
  · rw [hcpu] at hc
    cases hc
  · rcases hproc p with ⟨hst, hpc⟩ | ⟨hst, hpc⟩ <;> rw [hst, hpc] <;> trivial
  · rcases hproc p with ⟨-, hpc⟩ | ⟨-, hpc⟩ <;> rw [hpc] at hk <;> cases hk
  · rcases hproc p with ⟨-, hpc⟩ | ⟨-, hpc⟩ <;> rw [hpc] at ht <;> cases ht

/-- The invariant holds in every reachable state. -/
theorem ofReachable (h : (machine n C L Ch).Reachable s) : Good s :=
  h.invariant (I := Good) (fun _ hi => init hi) fun _ _ _ h hs => h.next hs

end Good

end Xv6.Sleep
