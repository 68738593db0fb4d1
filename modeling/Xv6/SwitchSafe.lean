/-
proc.c: the discipline that every thread keeps.

`Safe` says, of what a thread has left to do, that every lock is acquired in
order and released by its holder, that a process gives up its lock only as long
as it is RUNNING, and that it calls `sched` with its lock only and after it has
changed its state. A thread on a CPU is safe with the locks the CPU holds; one
that may be loaded is safe with the lock of its process.
-/
import Xv6.Switch
import Mathlib.Data.List.Nodup
import Mathlib.Tactic.Common

namespace Xv6.Switch

open Conc

variable {n : Nat} {C L Ch : Type}

/-! ## Safe threads -/

/-- No lock of a process is held. -/
def NoProc (held : List (Lock n L)) : Prop := ∀ i, .proc i ∉ held

/-- Lock `k` may be acquired by a holder of these locks: `wait_lock` before the
lock of a process, and two of the latter only under `wait_lock`. -/
def Order (held : List (Lock n L)) (k : Lock n L) : Prop :=
  k ∉ held ∧ match k with
    | .wait_lock => NoProc held
    | .proc _ => NoProc held ∨ .wait_lock ∈ held
    | _ => True

/-- The new process that an instruction will make RUNNABLE or free. -/
def Instr.new : Instr n L Ch → Option (Fin n)
  | .copied _ _ np | .publish np => some np
  | _ => none

/-- The new processes of a thread. -/
def news (code : List (Instr n L Ch)) : List (Fin n) := code.filterMap Instr.new

variable [DecidableEq L]

open Instr in
/-- The thread of process `me`, or of a scheduler, may do this with these locks
held and the process in this state. -/
def Safe (initproc : Fin n) (me : Option (Fin n)) :
    List (Instr n L Ch) → List (Lock n L) → ProcState → Prop
  | [], held, st => held = [] ∧ st = .RUNNING ∧ me.isSome
  | acquire k :: rest, held, st | spin k :: rest, held, st =>
    Order held k ∧ Safe initproc me rest (k :: held) st
  | release k :: rest, held, st =>
    k ∈ held ∧ (∀ p, me = some p → k = .proc p → st = .RUNNING) ∧
      Safe initproc me rest (held.erase k) st
  | setState p st' :: rest, held, st =>
    me = some p ∧ .proc p ∈ held ∧ st = .RUNNING ∧
      (st' = .RUNNABLE ∨ st' = .ZOMBIE ∧ p ≠ initproc) ∧ Safe initproc me rest held st'
  | sleepOn p _ :: rest, held, st =>
    me = some p ∧ .proc p ∈ held ∧ st = .RUNNING ∧ Safe initproc me rest held .SLEEPING
  | tidy _ :: rest, held, st | schedset _ :: rest, held, st => Safe initproc me rest held st
  | sched :: rest, held, st => ∃ p, me = some p ∧ held = [.proc p] ∧ st ≠ .RUNNING ∧
      (st ≠ .ZOMBIE → Safe initproc me rest [.proc p] .RUNNING)
  | save p :: rest, held, st => me = some p ∧ held = [.proc p] ∧ st ≠ .RUNNING ∧
      (st ≠ .ZOMBIE → Safe initproc me rest [.proc p] .RUNNING)
  | resume :: rest, held, _ => me = none ∧ ∃ i, held = [.proc i] ∧ rest = [back i]
  | forkret :: rest, held, st => ∃ p, me = some p ∧ held = [.proc p] ∧ st = .RUNNING ∧
      Safe initproc me rest [] st
  | wakeup _ _ :: rest, held, st | wakeParent _ :: rest, held, st =>
    NoProc held ∧ Safe initproc me rest held st
  | wakeTest _ i :: rest, held, st => me ≠ some i ∧ ∃ held', held = .proc i :: held' ∧
      NoProc held' ∧ Safe initproc me rest held' st
  | kill _ _ :: rest, held, st | va2pa _ _ :: rest, held, st =>
    held = [] ∧ st = .RUNNING ∧ Safe initproc me rest [] st
  | killTest _ i :: rest, held, st | va2paTest _ i :: rest, held, st =>
    held = [.proc i] ∧ st = .RUNNING ∧ Safe initproc me rest [] st
  | alloc p _ _ :: rest, held, st =>
    me = some p ∧ held = [] ∧ st = .RUNNING ∧ Safe initproc me rest [] st
  | allocTest p _ i :: rest, held, st =>
    me = some p ∧ held = [.proc i] ∧ st = .RUNNING ∧ Safe initproc me rest [] st
  | found p _ np :: rest, held, st =>
    me = some p ∧ held = [.pid_lock, .proc np] ∧ st = .RUNNING ∧ Safe initproc me rest [] st
  | copied p _ np :: rest, held, st =>
    me = some p ∧ p ≠ np ∧ held = [.proc np] ∧ st = .RUNNING ∧ Safe initproc me rest [] st
  | setParent p np :: rest, held, st =>
    me = some p ∧ p ≠ np ∧ .wait_lock ∈ held ∧ np ∈ news rest ∧ Safe initproc me rest held st
  | publish np :: rest, held, st =>
    (∃ p, me = some p ∧ p ≠ np) ∧ .proc np ∈ held ∧ Safe initproc me rest held st
  | reparent p _ :: rest, held, st =>
    me = some p ∧ held = [.wait_lock] ∧ Safe initproc me rest [.wait_lock] st
  | zombieExit :: _, _, _ => False
  | waitScan p _ _ _ :: rest, held, st =>
    me = some p ∧ held = [.wait_lock] ∧ st = .RUNNING ∧ Safe initproc me rest [] st
  | waitTest p _ i :: rest, held, st =>
    me = some p ∧ held = [.proc i, .wait_lock] ∧ st = .RUNNING ∧ Safe initproc me rest [] st
  | waitKilled p _ :: rest, held, st =>
    me = some p ∧ held = [.proc p, .wait_lock] ∧ st = .RUNNING ∧ Safe initproc me rest [] st
  | ps _ _ :: rest, held, st => held = [.wait_lock] ∧ st = .RUNNING ∧ Safe initproc me rest [] st
  | psTest i _ :: rest, held, st =>
    held = [.proc i, .wait_lock] ∧ st = .RUNNING ∧ Safe initproc me rest [] st
  | psParent i :: rest, held, st =>
    held = [.proc i, .wait_lock] ∧ st = .RUNNING ∧ Safe initproc me rest [.proc i, .wait_lock] st
  | psRelease i q :: rest, held, st => held = [.proc q, .proc i, .wait_lock] ∧ st = .RUNNING ∧
      Safe initproc me rest [.proc i, .wait_lock] st
  | rr_scheduler :: rest, held, _ | schedScan _ :: rest, held, _ =>
    me = none ∧ held = [] ∧ rest = []
  | pick i :: rest, held, _ | back i :: rest, held, _ =>
    me = none ∧ held = [.proc i] ∧ rest = []
  | swtchTo i :: rest, held, _ | load i :: rest, held, _ =>
    me = none ∧ held = [.proc i] ∧ rest = [back i]

/-! ## The invariant -/

/-- How many times more than it holds locks the thread has disabled
interrupts. -/
def spins : List (Instr n L Ch) → Nat
  | .spin _ :: _ => 1
  | _ => 0

/-- The instruction relies on what the thread has just done. -/
def Instr.follows : Instr n L Ch → Bool
  | .psRelease .. | .found .. | .spin _ | .save _ | .swtchTo _ | .load _ | .back _ | .resume => true
  | _ => false

/-- Nothing relies on what the thread has just done. -/
def Quiet (code : List (Instr n L Ch)) : Prop := ∀ ins ∈ code, ins.follows = false

/-- What a thread has found out is still so, and it holds the locks that keep
it so. -/
def Noted (s : Kernel n C L Ch) (held : List (Lock n L)) : List (Instr n L Ch) → Prop
  | .psRelease i q :: rest =>
    (.proc i ∈ held ∧ .wait_lock ∈ held ∧ s.parent i = some q) ∧ Quiet rest
  | .found _ _ np :: rest => (.proc np ∈ held ∧ s.state np = .UNUSED) ∧ Quiet rest
  | code => Quiet code

/-- The same at the start or the end of an `acquire`, or in `swtch`. -/
def HeadOk (s : Kernel n C L Ch) (held : List (Lock n L)) : List (Instr n L Ch) → Prop
  | .acquire _ :: rest | .spin _ :: rest => Noted s held rest
  | .save _ :: rest | .back _ :: rest => Quiet rest
  | .swtchTo _ :: _ | .load _ :: _ | .resume :: _ => True
  | code => Noted s held code

/-- The process that a scheduler is switching to or back from. -/
def phase : List (Instr n L Ch) → Option (Fin n)
  | .swtchTo i :: _ | .load i :: _ | .back i :: _ | .resume :: .back i :: _ => some i
  | _ => none

/-- The process that a scheduler is switching to. -/
def loads : List (Instr n L Ch) → Option (Fin n)
  | .swtchTo i :: _ | .load i :: _ => some i
  | _ => none

/-- The state of the process that a CPU runs. -/
def Kernel.own (s : Kernel n C L Ch) (c : C) : ProcState :=
  match s.run c with
  | none => .RUNNING
  | some p => s.state p

/-- A CPU holds what its thread needs. -/
structure CpuOk (s : Kernel n C L Ch) (c : C) (held : List (Lock n L)) : Prop where
  nodup : held.Nodup
  owner : ∀ k, s.owner k = some c ↔ k ∈ held
  noff : s.noff c = held.length + spins (s.left c)
  safe : Safe s.initproc (s.run c) (s.left c) held (s.own c)
  head : HeadOk s held (s.left c)
  proc : ∀ p, s.run c = some p → s.proc c = some p ∧ s.scode c = [.back p] ∧
    (s.state p ≠ .RUNNING → .proc p ∈ held) ∧ s.state p ≠ .USED
  sched : s.run c = none → s.proc c = phase (s.scode c)
  phase : ∀ i, s.run c = none → phase (s.scode c) = some i →
    (∀ c', s.run c' ≠ some i) ∧ .proc i ∈ held ∧
      (s.state i = .RUNNING ↔ loads (s.scode c) = some i)

/-- The context of a process is complete, and its thread may go on. -/
def Ready (s : Kernel n C L Ch) (p : Fin n) : Prop :=
  s.saved p = true ∧ Quiet (s.code p) ∧ Safe s.initproc (some p) (s.code p) [.proc p] .RUNNING

/-- A process that no CPU runs. -/
structure OffOk (s : Kernel n C L Ch) (p : Fin n) : Prop where
  ready : s.state p = .RUNNABLE ∨ s.state p = .SLEEPING ∨ s.state p = .RUNNING → Ready s p
  loads : s.state p = .RUNNING → ∃ c, s.run c = none ∧ loads (s.scode c) = some p

/-- The invariant. -/
structure Inv (s : Kernel n C L Ch) : Prop where
  one : ∀ c c' p, s.run c = some p → s.run c' = some p → c = c'
  cpu : ∀ c, ∃ held, CpuOk s c held
  off : ∀ p, (∀ c, s.run c ≠ some p) → OffOk s p
  new : ∀ p np, np ∈ news (s.code p) → s.state np = .USED ∧ Ready s np
  newOne : ∀ p q np, np ∈ news (s.code p) → np ∈ news (s.code q) → p = q
  newNodup : ∀ p, (news (s.code p)).Nodup
  parent : ∀ p, s.parent p ≠ some p
  init : s.parent s.initproc = none ∧
    (s.state s.initproc = .RUNNABLE ∨ s.state s.initproc = .SLEEPING ∨
      s.state s.initproc = .RUNNING)
  sched_pointer : s.sched_pointer = .rr_scheduler

variable {s s' : Kernel n C L Ch} {c : C} {p q : Fin n} {held : List (Lock n L)}
  {code rest : List (Instr n L Ch)} {st : ProcState} {i : Fin n}

/-! ## Steps of one CPU -/

omit [DecidableEq L] in
theorem loads_phase (h : loads code = some i) : phase code = some i := by
  unfold loads at h
  split at h <;> first | exact h | cases h

omit [DecidableEq L] in
theorem Quiet.tail {ins : Instr n L Ch} (h : Quiet (ins :: rest)) : Quiet rest :=
  fun i hi => h i (List.mem_cons_of_mem ins hi)

omit [DecidableEq L] in
theorem Quiet.noted (h : Quiet code) : Noted s held code := by
  unfold Noted
  split
  next => exact nomatch h _ List.mem_cons_self
  next => exact nomatch h _ List.mem_cons_self
  next => exact h

omit [DecidableEq L] in
theorem Noted.head (h : Noted s held code) : HeadOk s held code := by
  unfold HeadOk
  split
  next =>
    have h : Quiet _ := h
    exact h.tail.noted
  next =>
    have h : Quiet _ := h
    exact h.tail.noted
  next =>
    have h : Quiet _ := h
    exact h.tail
  next =>
    have h : Quiet _ := h
    exact h.tail
  next => trivial
  next => trivial
  next => trivial
  next => exact h

omit [DecidableEq L] in
theorem Quiet.plain (h : Quiet code) : spins code = 0 ∧ phase code = none := by
  cases code with
  | nil => exact ⟨rfl, rfl⟩
  | cons ins rest =>
    have hins := h ins List.mem_cons_self
    cases ins <;> first | exact ⟨rfl, rfl⟩ | cases hins

omit [DecidableEq L] in
theorem Noted.plain (h : Noted s held code) : spins code = 0 ∧ phase code = none := by
  unfold Noted at h
  split at h
  next => exact ⟨rfl, rfl⟩
  next => exact ⟨rfl, rfl⟩
  next => exact Quiet.plain h

omit [DecidableEq L] in
/-- What a thread has found out stays so under the locks. -/
theorem Noted.congr {held' : List (Lock n L)} (h : Noted s held code) (hh : held ⊆ held')
    (hpar : ∀ i, .proc i ∈ held → .wait_lock ∈ held → s'.parent i = s.parent i)
    (hst : ∀ i, .proc i ∈ held → s.state i = .UNUSED → s'.state i = .UNUSED) :
    Noted s' held' code := by
  unfold Noted at h ⊢
  split
  next i q rest =>
    obtain ⟨⟨h₁, h₂, h₃⟩, h₄⟩ := h
    exact ⟨⟨hh h₁, hh h₂, (hpar i h₁ h₂).trans h₃⟩, h₄⟩
  next p f np rest =>
    obtain ⟨⟨h₁, h₂⟩, h₃⟩ := h
    exact ⟨⟨hh h₁, hst np h₁ h₂⟩, h₃⟩
  next hne₁ hne₂ =>
    split at h
    next => exact absurd rfl (hne₁ _ _ _)
    next => exact absurd rfl (hne₂ _ _ _ _)
    next => exact h

omit [DecidableEq L] in
theorem HeadOk.congr {held' : List (Lock n L)} (h : HeadOk s held code) (hh : held ⊆ held')
    (hpar : ∀ i, .proc i ∈ held → .wait_lock ∈ held → s'.parent i = s.parent i)
    (hst : ∀ i, .proc i ∈ held → s.state i = .UNUSED → s'.state i = .UNUSED) :
    HeadOk s' held' code := by
  cases code with
  | nil =>
    have h : Noted s held [] := h
    exact h.congr hh hpar hst
  | cons ins rest =>
    cases ins with
    | acquire k =>
      have h : Noted s held rest := h
      exact h.congr hh hpar hst
    | spin k =>
      have h : Noted s held rest := h
      exact h.congr hh hpar hst
    | save p => exact h
    | back i => exact h
    | swtchTo i => exact h
    | load i => exact h
    | resume => exact h
    | psRelease i q =>
      have h : Noted s held (.psRelease i q :: rest) := h
      exact h.congr hh hpar hst
    | found p f np =>
      have h : Noted s held (.found p f np :: rest) := h
      exact h.congr hh hpar hst
    | _ => exact h

/-- What a step of CPU `c` leaves alone on the other CPUs. -/
structure Elsewhere (s s' : Kernel n C L Ch) (c : C) : Prop where
  run : ∀ c', c' ≠ c → s'.run c' = s.run c'
  proc : ∀ c', c' ≠ c → s'.proc c' = s.proc c'
  scode : ∀ c', c' ≠ c → s'.scode c' = s.scode c'
  noff : ∀ c', c' ≠ c → s'.noff c' = s.noff c'
  owner : ∀ k c', c' ≠ c → (s'.owner k = some c' ↔ s.owner k = some c')
  /-- The CPU changes its own process, and others whose lock it holds. -/
  slot : ∀ q, s.run c ≠ some q → s'.run c ≠ some q →
    (s'.code q = s.code q ∧ s'.state q = s.state q ∧ s'.saved q = s.saved q) ∨
      s.owner (.proc q) = some c ∧ s.state q ≠ .RUNNING
  parent : ∀ q, s'.parent q = s.parent q ∨ s.owner .wait_lock = some c ∨
    s.owner (.proc q) = some c
  load : ∀ q, s'.run c = some q → s.run c = some q ∨
    s.owner (.proc q) = some c ∧ ∀ c', s.run c' ≠ some q
  initproc : s'.initproc = s.initproc

theorem CpuOk.elsewhere {c' : C} (h : CpuOk s c' held) (he : Elsewhere s s' c) (hc : c' ≠ c)
    (hone : ∀ q, s.run c = some q → s.run c' ≠ some q)
    (hown : ∀ q, s.run c = some q → s.state q ≠ .RUNNING → s.owner (.proc q) = some c) :
    CpuOk s' c' held := by
  have hrun := he.run c' hc
  have hscode := he.scode c' hc
  have hnot : ∀ k, k ∈ held → s.owner k ≠ some c := fun k hk hk' =>
    hc (Option.some.inj (((h.owner k).2 hk).symm.trans hk'))
  -- the process that the CPU runs
  have hmine : ∀ q, s.run c' = some q →
      s'.code q = s.code q ∧ s'.state q = s.state q := fun q hq => by
    have h₁ : s.run c ≠ some q := fun hq' => hone q hq' hq
    have h₂ : s'.run c ≠ some q := fun hq' => by
      rcases he.load q hq' with hl | ⟨-, hno⟩
      · exact h₁ hl
      · exact hno c' hq
    rcases he.slot q h₁ h₂ with ⟨h₃, h₄, -⟩ | ⟨h₃, h₄⟩
    · exact ⟨h₃, h₄⟩
    · exact absurd h₃ (hnot _ ((h.proc q hq).2.2.1 h₄))
  have hleft : s'.left c' = s.left c' := by
    unfold Kernel.left
    rw [hrun]
    cases hq : s.run c' with
    | none => exact hscode
    | some q => exact (hmine q hq).1
  have howns : s'.own c' = s.own c' := by
    unfold Kernel.own
    rw [hrun]
    cases hq : s.run c' with
    | none => rfl
    | some q => exact (hmine q hq).2
  -- a process whose lock the CPU holds
  have hheld : ∀ i, .proc i ∈ held → s.run c ≠ some i → s'.state i = s.state i := fun i hi hne => by
    refine (he.slot i hne fun hr => ?_).elim (fun h => h.2.1) fun h => absurd h.1 (hnot _ hi)
    rcases he.load i hr with hl | ⟨hl, -⟩
    · exact hne hl
    · exact hnot _ hi hl
  refine ⟨h.nodup, fun k => (he.owner k c' hc).trans (h.owner k), ?_, ?_, ?_, fun q hq => ?_,
    fun hn => ?_, fun i hn hi => ?_⟩
  · rw [he.noff c' hc, hleft]
    exact h.noff
  · rw [he.initproc, hrun, hleft, howns]
    exact h.safe
  · rw [hleft]
    refine h.head.congr (List.Subset.refl _) (fun i hi hw => ?_) fun i hi hu => ?_
    · rcases he.parent i with hp | hp | hp
      · exact hp
      · exact absurd hp (hnot _ hw)
      · exact absurd hp (hnot _ hi)
    · by_cases hne : s.run c = some i
      · exact absurd (hown i hne (by rw [hu]; nofun)) (hnot _ hi)
      · exact (hheld i hi hne).trans hu
  · rw [hrun] at hq
    rw [he.proc c' hc, hscode, (hmine q hq).2]
    exact h.proc q hq
  · rw [hrun] at hn
    rw [he.proc c' hc, hscode]
    exact h.sched hn
  · rw [hrun] at hn
    rw [hscode] at hi ⊢
    obtain ⟨hno, hmem, hst⟩ := h.phase i hn hi
    refine ⟨fun c'' hc'' => ?_, hmem, ?_⟩
    · by_cases hcc : c'' = c
      · subst hcc
        rcases he.load i hc'' with hl | ⟨hl, -⟩
        · exact hno c'' hl
        · exact hnot _ hmem hl
      · rw [he.run c'' hcc] at hc''
        exact hno c'' hc''
    · rw [hheld i hmem (hno c)]
      exact hst

theorem CpuOk.own_lock (h : CpuOk s c held) (hr : s.run c = some p) (hs : s.state p ≠ .RUNNING) :
    s.owner (.proc p) = some c :=
  (h.owner _).2 ((h.proc p hr).2.2.1 hs)

/-- What a step of CPU `c` has to establish. -/
theorem Inv.step (h : Inv s) (he : Elsewhere s s' c) (cpu : ∃ held, CpuOk s' c held)
    (off : ∀ q, (∀ c', s'.run c' ≠ some q) → OffOk s' q)
    (new : ∀ p np, np ∈ news (s'.code p) → s'.state np = .USED ∧ Ready s' np)
    (newOne : ∀ p q np, np ∈ news (s'.code p) → np ∈ news (s'.code q) → p = q)
    (newNodup : ∀ p, (news (s'.code p)).Nodup) (parent : ∀ p, s'.parent p ≠ some p)
    (init : s'.parent s'.initproc = none ∧
      (s'.state s'.initproc = .RUNNABLE ∨ s'.state s'.initproc = .SLEEPING ∨
        s'.state s'.initproc = .RUNNING))
    (sched_pointer : s'.sched_pointer = .rr_scheduler) : Inv s' := by
  have hone : ∀ c' p, c' ≠ c → s'.run c = some p → s.run c' ≠ some p := fun c' p hc hp hp' => by
    rcases he.load p hp with hl | ⟨-, hno⟩
    · exact hc (h.one c' c p hp' hl)
    · exact hno c' hp'
  refine ⟨fun c₁ c₂ p h₁ h₂ => ?_, fun c' => ?_, off, new, newOne, newNodup, parent, init,
    sched_pointer⟩
  · by_cases hc₁ : c₁ = c <;> by_cases hc₂ : c₂ = c
    · exact hc₁.trans hc₂.symm
    · rw [he.run c₂ hc₂] at h₂
      exact absurd h₂ (hone c₂ p hc₂ (hc₁ ▸ h₁))
    · rw [he.run c₁ hc₁] at h₁
      exact absurd h₁ (hone c₁ p hc₁ (hc₂ ▸ h₂))
    · rw [he.run c₁ hc₁] at h₁
      rw [he.run c₂ hc₂] at h₂
      exact h.one c₁ c₂ p h₁ h₂
  · by_cases hc : c' = c
    · exact hc ▸ cpu
    · obtain ⟨held, hok⟩ := h.cpu c'
      obtain ⟨held', hok'⟩ := h.cpu c
      exact ⟨held, hok.elsewhere he hc (fun q hq hq' => hc (h.one c' c q hq' hq)) fun q hq hs =>
        hok'.own_lock hq hs⟩

section

variable [DecidableEq C]

omit [DecidableEq L] in
theorem goto_left (s : Kernel n C L Ch) (c : C) (code : List (Instr n L Ch)) :
    (s.goto c code).left c = code := by
  unfold Kernel.goto Kernel.left
  cases h : s.run c <;> simp [h]

omit [DecidableEq L] in
/-- `goto` changes what its thread has left to do, and nothing else. -/
theorem goto_eq (s : Kernel n C L Ch) (c : C) (code : List (Instr n L Ch)) :
    s.goto c code = { s with scode := (s.goto c code).scode, code := (s.goto c code).code } := by
  unfold Kernel.goto
  cases s.run c <;> rfl

omit [DecidableEq L] in
theorem goto_scode (s : Kernel n C L Ch) {c c' : C} (code : List (Instr n L Ch))
    (h : c' ≠ c ∨ ∃ p, s.run c = some p) : (s.goto c code).scode c' = s.scode c' := by
  unfold Kernel.goto
  cases hr : s.run c with
  | none => exact Function.update_of_ne (h.resolve_right (by simp [hr])) _ _
  | some p => rfl

omit [DecidableEq L] in
theorem goto_code (s : Kernel n C L Ch) {c : C} (code : List (Instr n L Ch))
    (h : s.run c ≠ some q) : (s.goto c code).code q = s.code q := by
  unfold Kernel.goto
  cases hr : s.run c with
  | none => rfl
  | some p =>
    refine Function.update_of_ne (fun e => h ?_) _ _
    rw [hr, e]

omit [DecidableEq L] in
theorem goto_own (s : Kernel n C L Ch) (c c' : C) (code : List (Instr n L Ch)) :
    (s.goto c code).own c' = s.own c' := by
  rw [goto_eq]
  rfl

omit [DecidableEq L] [DecidableEq C] in
theorem Elsewhere.refl : Elsewhere s s c :=
  ⟨fun _ _ => rfl, fun _ _ => rfl, fun _ _ => rfl, fun _ _ => rfl, fun _ _ _ => .rfl,
    fun _ _ _ => .inl ⟨rfl, rfl, rfl⟩, fun _ => .inl rfl, fun _ h => .inl h, rfl⟩

omit [DecidableEq L] in
theorem Elsewhere.goto (h : Elsewhere s s' c) (hr : s'.run c = s.run c) :
    Elsewhere s (s'.goto c code) c := by
  have hrun : (s'.goto c code).run = s'.run := by rw [goto_eq]
  refine ⟨fun c' hc => ?_, fun c' hc => ?_, fun c' hc => ?_, fun c' hc => ?_, fun k c' hc => ?_,
    fun q hq hq' => ?_, fun q => ?_, fun q hq => ?_, ?_⟩
  · rw [hrun]
    exact h.run c' hc
  · rw [goto_eq]
    exact h.proc c' hc
  · rw [goto_scode s' code (.inl hc)]
    exact h.scode c' hc
  · rw [goto_eq]
    exact h.noff c' hc
  · rw [goto_eq]
    exact h.owner k c' hc
  · have hq'' : s'.run c ≠ some q := hr ▸ hq
    rw [goto_code s' code hq'']
    rw [goto_eq]
    exact h.slot q hq hq''
  · rw [goto_eq]
    exact h.parent q
  · rw [hrun] at hq
    exact h.load q hq
  · rw [goto_eq]
    exact h.initproc

/-- A thread goes on. The rest of the state is first changed to `s'`. -/
theorem Inv.goto (h : Inv s) (hc : CpuOk s c held) {held' : List (Lock n L)}
    (he : Elsewhere s s' c) (hrun : s'.run = s.run) (hscode : s'.scode = s.scode)
    (hcode : s'.code = s.code) (hsaved : s'.saved = s.saved) (hproc : s'.proc = s.proc)
    (hsp : s'.sched_pointer = .rr_scheduler)
    (nodup : held'.Nodup) (owner : ∀ k, s'.owner k = some c ↔ k ∈ held')
    (noff : s'.noff c = held'.length + spins code)
    (safe : Safe s.initproc (s.run c) code held' (s'.own c)) (head : HeadOk s' held' code)
    (hphase : s.run c = none → phase code = phase (s.scode c) ∧ loads code = loads (s.scode c) ∧
      ∀ i, phase code = some i → .proc i ∈ held' ∧ s'.state i = s.state i)
    (hmine : ∀ p, s.run c = some p → (s'.state p ≠ .RUNNING → .proc p ∈ held') ∧
      s'.state p ≠ .USED)
    (hstate : ∀ q, s.run c ≠ some q → s'.state q = s.state q ∨
      s'.state q = .RUNNABLE ∧ Ready s q ∨ s'.state q = .UNUSED ∨ s'.state q = .USED)
    (hnews : ∀ p, s.run c = some p → (news code).Sublist (news (s.left c)))
    (hused : ∀ np, s.state np = .USED → s'.state np = .USED ∨
      ∃ p, s.run c = some p ∧ np ∈ news (s.left c) ∧ np ∉ news code)
    (hparent : ∀ p, s'.parent p ≠ some p)
    (init : s'.parent s.initproc = none ∧ (s'.state s.initproc = .RUNNABLE ∨
      s'.state s.initproc = .SLEEPING ∨ s'.state s.initproc = .RUNNING)) :
    Inv (s'.goto c code) := by
  have hr : s'.run c = s.run c := congrFun hrun c
  have hown : ∀ c', (s'.goto c code).own c' = s'.own c' := fun c' => goto_own s' c c' code
  have hrun' : (s'.goto c code).run = s.run := by rw [goto_eq]; exact hrun
  have hini : (s'.goto c code).initproc = s.initproc := by rw [goto_eq]; exact he.initproc
  have hstate' : (s'.goto c code).state = s'.state := by rw [goto_eq]
  have hcode' : ∀ q, s.run c ≠ some q → (s'.goto c code).code q = s.code q := fun q hq => by
    rw [goto_code s' code (hr ▸ hq), hcode]
  have hmycode : ∀ p, s.run c = some p → (s'.goto c code).code p = code := fun p hp => by
    have hl := goto_left s' c code
    unfold Kernel.left at hl
    rw [congrFun hrun' c, hp] at hl
    exact hl
  have hready : ∀ q, s.run c ≠ some q → Ready s q → Ready (s'.goto c code) q := fun q hq hrd => by
    refine ⟨?_, ?_⟩
    · rw [goto_eq]
      exact (congrFun hsaved q).trans hrd.1
    · rw [hini, hcode' q hq]
      exact hrd.2
  have hleft : ∀ p, s.run c = some p → s.left c = s.code p := fun p hp => by
    unfold Kernel.left
    rw [hp]
  -- the new processes of a thread were so before
  have hold : ∀ p np, np ∈ news ((s'.goto c code).code p) → np ∈ news (s.code p) ∧
      (s.run c = some p → np ∈ news code) := fun p np hnp => by
    by_cases hp : s.run c = some p
    · rw [hmycode p hp] at hnp
      exact ⟨hleft p hp ▸ (hnews p hp).subset hnp, fun _ => hnp⟩
    · rw [hcode' p hp] at hnp
      exact ⟨hnp, fun hp' => absurd hp' hp⟩
  refine h.step (he.goto hr) ⟨held', nodup, fun k => ?_, ?_, ?_, ?_, fun p hp => ?_, fun hn => ?_,
    fun i hn hi => ?_⟩ (fun q hq => ?_) (fun p np hnp => ?_) (fun p q np hp hq => ?_) (fun p => ?_)
    (fun p => ?_) ?_ ?_
  · rw [goto_eq]
    exact owner k
  · rw [goto_left, goto_eq]
    exact noff
  · rw [hini, congrFun hrun' c, goto_left, hown]
    exact safe
  · rw [goto_left]
    refine HeadOk.congr (s := s') head (List.Subset.refl _) (fun i _ _ => ?_) fun i _ hi => ?_
    · rw [goto_eq]
    · rw [hstate']
      exact hi
  · rw [congrFun hrun' c] at hp
    refine ⟨?_, ?_, ?_⟩
    · rw [goto_eq]
      exact (congrFun hproc c).trans (hc.proc p hp).1
    · rw [goto_scode s' code (.inr ⟨p, hr.trans hp⟩), hscode]
      exact (hc.proc p hp).2.1
    · rw [hstate']
      exact hmine p hp
  · rw [congrFun hrun' c] at hn
    have hl := goto_left s' c code
    unfold Kernel.left at hl
    rw [congrFun hrun' c, hn] at hl
    have hl : (s'.goto c code).scode c = code := hl
    rw [hl, (hphase hn).1, goto_eq]
    exact (congrFun hproc c).trans (hc.sched hn)
  · rw [congrFun hrun' c] at hn
    have hl := goto_left s' c code
    unfold Kernel.left at hl
    rw [congrFun hrun' c, hn] at hl
    have hl : (s'.goto c code).scode c = code := hl
    rw [hl] at hi ⊢
    obtain ⟨h₁, h₂, h₃⟩ := hphase hn
    obtain ⟨h₄, -, h₅⟩ := hc.phase i hn (h₁ ▸ hi)
    rw [hrun', hstate', (h₃ i hi).2, h₂]
    exact ⟨h₄, (h₃ i hi).1, h₅⟩
  · rw [hrun'] at hq
    have hoff := h.off q hq
    refine ⟨fun hst => hready q (hq c) ?_, fun hst => ?_⟩
    · rw [hstate'] at hst
      rcases hstate q (hq c) with heq | ⟨-, hrd⟩ | heq | heq
      · exact hoff.ready (heq ▸ hst)
      · exact hrd
      · rw [heq] at hst
        simp at hst
      · rw [heq] at hst
        simp at hst
    · rw [hstate'] at hst
      have hst : s.state q = .RUNNING := by
        rcases hstate q (hq c) with heq | ⟨heq, -⟩ | heq | heq
        · exact heq.symm.trans hst
        · exact nomatch heq.symm.trans hst
        · exact nomatch heq.symm.trans hst
        · exact nomatch heq.symm.trans hst
      obtain ⟨c', hn, hl⟩ := hoff.loads hst
      refine ⟨c', (congrFun hrun' c').trans hn, ?_⟩
      by_cases hcc : c' = c
      · subst hcc
        have hl' := goto_left s' c' code
        unfold Kernel.left at hl'
        rw [congrFun hrun' c', hn] at hl'
        have hl' : (s'.goto c' code).scode c' = code := hl'
        rw [hl', (hphase hn).2.1]
        exact hl
      · rw [goto_scode s' code (.inl hcc), hscode]
        exact hl
  · obtain ⟨hnp, hnp'⟩ := hold p np hnp
    obtain ⟨hu, hrd⟩ := h.new p np hnp
    have hne : s.run c ≠ some np := fun hr' => (hc.proc np hr').2.2.2 hu
    refine ⟨?_, hready np hne hrd⟩
    rw [hstate']
    rcases hused np hu with hu' | ⟨p', hp', hin, hout⟩
    · exact hu'
    · obtain rfl := h.newOne p p' np hnp (hleft p' hp' ▸ hin)
      exact absurd (hnp' hp') hout
  · exact h.newOne p q np (hold p np hp).1 (hold q np hq).1
  · by_cases hp : s.run c = some p
    · rw [hmycode p hp]
      exact (hnews p hp).nodup (hleft p hp ▸ h.newNodup p)
    · rw [hcode' p hp]
      exact h.newNodup p
  · rw [goto_eq]
    exact hparent p
  · rw [hini, hstate', goto_eq]
    exact init
  · rw [goto_eq]
    exact hsp

/-- Only fields that the discipline does not depend on may differ. -/
def Plain (s s' : Kernel n C L Ch) : Prop :=
  ∃ chan pid killed nextpid, s' = { s with
    chan := chan, pid := pid, killed := killed, nextpid := nextpid }

omit [DecidableEq L] [DecidableEq C] in
theorem Plain.refl : Plain s s := ⟨_, _, _, _, rfl⟩

omit [DecidableEq L] [DecidableEq C] in
theorem left_run (h : s.run c = some p) : s.left c = s.code p := by
  unfold Kernel.left
  rw [h]

omit [DecidableEq L] [DecidableEq C] in
theorem left_sched (h : s.run c = none) : s.left c = s.scode c := by
  unfold Kernel.left
  rw [h]

omit [DecidableEq L] [DecidableEq C] in
theorem loads_none (h : phase code = none) : loads code = none := by
  cases hl : loads code with
  | none => rfl
  | some i => exact nomatch h.symm.trans (loads_phase hl)

omit [DecidableEq C] in
/-- What `Inv.goto` asks of the process that the CPU runs. -/
theorem CpuOk.mine (hc : CpuOk s c held) (hp : s.run c = some p) :
    (s.state p ≠ .RUNNING → .proc p ∈ held) ∧ s.state p ≠ .USED := (hc.proc p hp).2.2

/-- A thread goes on with the same locks. -/
theorem Inv.control (h : Inv s) (hc : CpuOk s c held) (hs : Plain s s')
    (hspins : spins (s.left c) = spins code) (hphase : phase (s.left c) = none)
    (hphase' : phase code = none) (safe : Safe s.initproc (s.run c) code held (s.own c))
    (head : HeadOk s held code) (hnews : (news code).Sublist (news (s.left c))) :
    Inv (s'.goto c code) := by
  obtain ⟨chan, pid, killed, nextpid, rfl⟩ := hs
  refine h.goto hc
    ⟨fun _ _ => rfl, fun _ _ => rfl, fun _ _ => rfl, fun _ _ => rfl, fun _ _ _ => .rfl,
      fun _ _ _ => .inl ⟨rfl, rfl, rfl⟩, fun _ => .inl rfl, fun _ h => .inl h, rfl⟩
    rfl rfl rfl rfl rfl h.sched_pointer hc.nodup hc.owner (hspins ▸ hc.noff) safe
    (head.congr (List.Subset.refl _) (fun _ _ _ => rfl) fun _ _ => id) (fun hn => ?_)
    (fun p hp => hc.mine hp) (fun _ _ => .inl rfl) (fun _ _ => hnews) (fun _ => .inl) h.parent
    h.init
  rw [left_sched hn] at hphase
  rw [hphase', hphase, loads_none hphase, loads_none hphase']
  exact ⟨rfl, rfl, nofun⟩

/-- `acquire`, up to the loop. -/
theorem Inv.acquire {k : Lock n L} (h : Inv s) (hc : CpuOk s c held)
    (hleft : s.left c = .acquire k :: rest) :
    s.owner k ≠ some c ∧
      Inv (({ s with noff := Function.update s.noff c (s.noff c + 1) } : Kernel n C L Ch).goto c
        (.spin k :: rest)) := by
  have hsafe := hc.safe
  rw [hleft] at hsafe
  have hhead := hc.head
  rw [hleft] at hhead
  have hnoff := hc.noff
  rw [hleft] at hnoff
  refine ⟨fun ho => hsafe.1.1 ((hc.owner k).1 ho), ?_⟩
  refine h.goto hc
    ⟨fun _ _ => rfl, fun _ _ => rfl, fun _ _ => rfl, fun c' hc' => Function.update_of_ne hc' _ _,
      fun _ _ _ => .rfl, fun _ _ _ => .inl ⟨rfl, rfl, rfl⟩, fun _ => .inl rfl, fun _ h => .inl h,
      rfl⟩
    rfl rfl rfl rfl rfl h.sched_pointer hc.nodup hc.owner ?_ hsafe ?_ (fun hn => ?_)
    (fun p hp => hc.mine hp) (fun _ _ => .inl rfl) (fun _ _ => ?_) (fun _ => .inl) h.parent h.init
  · show Function.update s.noff c (s.noff c + 1) c = held.length + 1
    rw [Function.update_self, hnoff]
    rfl
  · have hhead : Noted s held rest := hhead
    exact hhead.congr (List.Subset.refl _) (fun _ _ _ => rfl) fun _ _ => id
  · have hph : phase (s.scode c) = none := by
      rw [← left_sched hn, hleft]
      rfl
    rw [hph, loads_none hph]
    exact ⟨rfl, rfl, nofun⟩
  · rw [hleft]
    exact List.Sublist.refl _

/-- The loop of `acquire` ends. -/
theorem Inv.spin {k : Lock n L} (h : Inv s) (hc : CpuOk s c held)
    (hleft : s.left c = .spin k :: rest) (hk : s.owner k = none) :
    Inv (({ s with owner := Function.update s.owner k (some c) } : Kernel n C L Ch).goto c
      rest) := by
  have hsafe := hc.safe
  rw [hleft] at hsafe
  obtain ⟨⟨hnot, -⟩, hsafe⟩ := hsafe
  have hhead : Noted s held rest := by
    have hhead := hc.head
    rw [hleft] at hhead
    exact hhead
  obtain ⟨hspins, hphase⟩ := hhead.plain
  have hnoff := hc.noff
  rw [hleft] at hnoff
  have hown : ∀ k' c', c' ≠ c →
      (Function.update s.owner k (some c) k' = some c' ↔ s.owner k' = some c') := by
    intro k' c' hc'
    by_cases hkk : k' = k
    · subst hkk
      rw [Function.update_self, hk]
      exact iff_of_false (fun e => hc' (Option.some.inj e).symm) nofun
    · rw [Function.update_of_ne hkk]
  refine h.goto hc
    ⟨fun _ _ => rfl, fun _ _ => rfl, fun _ _ => rfl, fun _ _ => rfl, hown,
      fun _ _ _ => .inl ⟨rfl, rfl, rfl⟩, fun _ => .inl rfl, fun _ h => .inl h, rfl⟩
    rfl rfl rfl rfl rfl h.sched_pointer (List.nodup_cons.2 ⟨hnot, hc.nodup⟩) (fun k' => ?_) ?_ hsafe
    (hhead.congr (List.subset_cons_self _ _) (fun _ _ _ => rfl) fun _ _ => id).head (fun hn => ?_)
    (fun p hp => ⟨fun hs => List.mem_cons_of_mem k ((hc.mine hp).1 hs), (hc.mine hp).2⟩)
    (fun _ _ => .inl rfl) (fun _ _ => ?_) (fun _ => .inl) h.parent h.init
  · show Function.update s.owner k (some c) k' = some c ↔ _
    by_cases hkk : k' = k
    · subst hkk
      rw [Function.update_self]
      exact iff_of_true rfl List.mem_cons_self
    · rw [Function.update_of_ne hkk, hc.owner k', List.mem_cons]
      exact ⟨.inr, fun h => h.resolve_left hkk⟩
  · rw [hspins]
    exact hnoff
  · have hph : phase (s.scode c) = none := by
      rw [← left_sched hn, hleft]
      rfl
    rw [hphase, hph, loads_none hph, loads_none hphase]
    exact ⟨rfl, rfl, nofun⟩
  · rw [hleft]
    exact List.Sublist.refl _

/-- `release` -/
theorem Inv.release {k : Lock n L} (h : Inv s) (hc : CpuOk s c held)
    (hleft : s.left c = .release k :: rest) :
    s.owner k = some c ∧ 1 ≤ s.noff c ∧
      Inv (({ s with
        owner := Function.update s.owner k none
        noff := Function.update s.noff c (s.noff c - 1) } : Kernel n C L Ch).goto c rest) := by
  have hsafe := hc.safe
  rw [hleft] at hsafe
  obtain ⟨hmem, hrun, hsafe⟩ := hsafe
  have hhead : Quiet rest := by
    have hhead := hc.head
    rw [hleft] at hhead
    exact Quiet.tail hhead
  obtain ⟨hspins, hphase⟩ := hhead.plain
  have hnoff := hc.noff
  rw [hleft] at hnoff
  have hpos := List.length_pos_of_mem hmem
  refine ⟨(hc.owner k).2 hmem, hnoff ▸ Nat.le_trans hpos (Nat.le_add_right _ _), ?_⟩
  have hown : ∀ k' c', c' ≠ c →
      (Function.update s.owner k none k' = some c' ↔ s.owner k' = some c') := by
    intro k' c' hc'
    by_cases hkk : k' = k
    · subst hkk
      rw [Function.update_self, (hc.owner k').2 hmem]
      exact iff_of_false nofun fun e => hc' (Option.some.inj e).symm
    · rw [Function.update_of_ne hkk]
  refine h.goto hc
    ⟨fun _ _ => rfl, fun _ _ => rfl, fun _ _ => rfl, fun c' hc' => Function.update_of_ne hc' _ _,
      hown, fun _ _ _ => .inl ⟨rfl, rfl, rfl⟩, fun _ => .inl rfl, fun _ h => .inl h, rfl⟩
    rfl rfl rfl rfl rfl h.sched_pointer (hc.nodup.erase k) (fun k' => ?_) ?_ hsafe hhead.noted.head
    (fun hn => ?_) (fun p hp => ⟨fun hs => ?_, (hc.mine hp).2⟩) (fun _ _ => .inl rfl)
    (fun _ _ => ?_)
    (fun _ => .inl) h.parent h.init
  · show Function.update s.owner k none k' = some c ↔ _
    rw [hc.nodup.mem_erase_iff]
    by_cases hkk : k' = k
    · subst hkk
      rw [Function.update_self]
      exact iff_of_false nofun fun e => e.1 rfl
    · rw [Function.update_of_ne hkk, hc.owner k']
      exact ⟨fun h => ⟨hkk, h⟩, fun h => h.2⟩
  · show Function.update s.noff c (s.noff c - 1) c = _
    rw [Function.update_self, hnoff, hspins, List.length_erase_of_mem hmem]
    simp [spins]
  · have hph : phase (s.scode c) = none := by
      rw [← left_sched hn, hleft]
      rfl
    rw [hphase, hph, loads_none hph, loads_none hphase]
    exact ⟨rfl, rfl, nofun⟩
  · refine hc.nodup.mem_erase_iff.2 ⟨fun e => hs ?_, (hc.mine hp).1 hs⟩
    have hst := hrun p hp e.symm
    unfold Kernel.own at hst
    rw [hp] at hst
    exact hst
  · rw [hleft]
    exact List.Sublist.refl _

omit [DecidableEq C] in
/-- A CPU that holds the lock of another process. -/
theorem CpuOk.off (h : Inv s) (hc : CpuOk s c held) (hi : .proc i ∈ held) (hne : s.run c ≠ some i)
    (hs : s.state i ≠ .RUNNING) : ∀ c', s.run c' ≠ some i := fun c' hc' => by
  obtain ⟨held', hok⟩ := h.cpu c'
  have ho := (hok.owner _).2 ((hok.mine hc').1 hs)
  obtain rfl := Option.some.inj (((hc.owner _).2 hi).symm.trans ho)
  exact hne hc'

/-- A process changes its own state, while it holds its lock. -/
theorem Inv.setOwn {x : ProcState} (chan : Fin n → Chan n Ch) (h : Inv s) (hc : CpuOk s c held)
    (hp : s.run c = some p) (hl : .proc p ∈ held) (hr : s.state p = .RUNNING)
    (hx : x = .RUNNABLE ∨ x = .SLEEPING ∨ x = .ZOMBIE ∧ p ≠ s.initproc)
    (hspins : spins (s.left c) = 0) (hq : Quiet code) (safe : Safe s.initproc (some p) code held x)
    (hnews : (news code).Sublist (news (s.left c))) :
    Inv (({ s with state := Function.update s.state p x, chan := chan } : Kernel n C L Ch).goto c
      code) := by
  have hne : ∀ q, s.run c ≠ some q → q ≠ p := fun q hq e => hq (e ▸ hp)
  have hother : ∀ q, q ≠ p → Function.update s.state p x q = s.state q := fun q hq =>
    Function.update_of_ne hq _ _
  obtain ⟨hcode, -⟩ := hq.plain
  refine h.goto hc
    ⟨fun _ _ => rfl, fun _ _ => rfl, fun _ _ => rfl, fun _ _ => rfl, fun _ _ _ => .rfl,
      fun q hq _ => .inl ⟨rfl, hother q (hne q hq), rfl⟩, fun _ => .inl rfl, fun _ h => .inl h, rfl⟩
    rfl rfl rfl rfl rfl h.sched_pointer hc.nodup hc.owner ?_ ?_ hq.noted.head
    (fun hn => nomatch hn.symm.trans hp) (fun q hq => ?_) (fun q hq => .inl (hother q (hne q hq)))
    (fun _ _ => hnews) (fun np hnp => .inl ?_) h.parent ⟨h.init.1, ?_⟩
  · rw [hcode, ← hspins]
    exact hc.noff
  · have hown : ({ s with state := Function.update s.state p x, chan := chan } :
        Kernel n C L Ch).own c = x := by
      unfold Kernel.own
      simp [hp]
    rw [hown, hp]
    exact safe
  · obtain rfl := Option.some.inj (hp.symm.trans hq)
    refine ⟨fun _ => hl, ?_⟩
    show Function.update s.state p x p ≠ _
    rw [Function.update_self]
    rcases hx with rfl | rfl | ⟨rfl, -⟩ <;> nofun
  · refine (hother np ?_).trans hnp
    rintro rfl
    exact nomatch hr.symm.trans hnp
  · by_cases hpi : s.initproc = p
    · rcases hx with rfl | rfl | ⟨rfl, hne⟩
      · exact .inl (hpi ▸ Function.update_self _ _ _)
      · exact .inr (.inl (hpi ▸ Function.update_self _ _ _))
      · exact absurd hpi.symm hne
    · show Function.update s.state p x s.initproc = _ ∨ Function.update s.state p x s.initproc = _ ∨
        Function.update s.state p x s.initproc = _
      rw [hother _ hpi]
      exact h.init.2

/-- A thread changes the state of another process, whose lock it holds. -/
theorem Inv.setOther {x : ProcState} {chan : Fin n → Chan n Ch} {pid : Fin n → Nat} {nextpid : Nat}
    {killed : Fin n → Bool} (parent : Fin n → Option (Fin n)) (h : Inv s) (hc : CpuOk s c held)
    (hl : .proc i ∈ held) (hne : s.run c ≠ some i) (hr : s.state i ≠ .RUNNING)
    (hx : x = .RUNNABLE ∧ Ready s i ∨ x = .UNUSED ∧ i ≠ s.initproc)
    (hpar : parent = s.parent ∨ parent = Function.update s.parent i none)
    (hused : s.state i = .USED → ∃ p, s.run c = some p ∧ i ∈ news (s.left c) ∧ i ∉ news code)
    (hspins : spins (s.left c) = 0) (hphase : phase (s.left c) = none) (hq : Quiet code)
    (safe : Safe s.initproc (s.run c) code held (s.own c))
    (hnews : (news code).Sublist (news (s.left c))) :
    Inv (({ s with
      state := Function.update s.state i x, chan := chan, pid := pid, killed := killed,
      parent := parent, nextpid := nextpid } : Kernel n C L Ch).goto c code) := by
  have hother : ∀ q, q ≠ i → Function.update s.state i x q = s.state q := fun q hq =>
    Function.update_of_ne hq _ _
  have hself : Function.update s.state i x i = x := Function.update_self _ _ _
  have hparent : ∀ q, parent q = s.parent q ∨ q = i ∧ parent q = none := fun q => by
    rcases hpar with rfl | rfl
    · exact .inl rfl
    · by_cases hqi : q = i
      · exact .inr ⟨hqi, hqi ▸ Function.update_self _ _ _⟩
      · exact .inl (Function.update_of_ne hqi _ _)
  have hlock := (hc.owner _).2 hl
  obtain ⟨hcode, hcode'⟩ := hq.plain
  refine h.goto hc
    ⟨fun _ _ => rfl, fun _ _ => rfl, fun _ _ => rfl, fun _ _ => rfl, fun _ _ _ => .rfl,
      fun q _ _ => ?_, fun q => ?_, fun _ h => .inl h, rfl⟩
    rfl rfl rfl rfl rfl h.sched_pointer hc.nodup hc.owner ?_ ?_ hq.noted.head (fun hn => ?_)
    (fun q hq => ?_) (fun q _ => ?_) (fun _ _ => hnews) (fun np hnp => ?_) (fun q => ?_) ⟨?_, ?_⟩
  · by_cases hqi : q = i
    · exact .inr (hqi ▸ ⟨hlock, hr⟩)
    · exact .inl ⟨rfl, hother q hqi, rfl⟩
  · rcases hparent q with hp | ⟨rfl, -⟩
    · exact .inl hp
    · exact .inr (.inr hlock)
  · rw [hcode, ← hspins]
    exact hc.noff
  · have hown : ({ s with
        state := Function.update s.state i x, chan := chan, pid := pid, killed := killed,
        parent := parent, nextpid := nextpid } : Kernel n C L Ch).own c = s.own c := by
      unfold Kernel.own
      cases hrc : s.run c with
      | none => rfl
      | some p => exact hother p fun e => hne (e ▸ hrc)
    rw [hown]
    exact safe
  · rw [left_sched hn] at hphase
    rw [hphase, hcode', loads_none hphase, loads_none hcode']
    exact ⟨rfl, rfl, nofun⟩
  · have hqi : q ≠ i := fun e => hne (e ▸ hq)
    show (Function.update s.state i x q ≠ _ → _) ∧ Function.update s.state i x q ≠ _
    rw [hother q hqi]
    exact hc.mine hq
  · by_cases hqi : q = i
    · subst hqi
      rcases hx with ⟨rfl, hrd⟩ | ⟨rfl, -⟩
      · exact .inr (.inl ⟨hself, hrd⟩)
      · exact .inr (.inr (.inl hself))
    · exact .inl (hother q hqi)
  · by_cases hqi : np = i
    · exact .inr (hqi ▸ hused (hqi ▸ hnp))
    · exact .inl ((hother np hqi).trans hnp)
  · rcases hparent q with hp | ⟨-, hp⟩
    · exact fun e => h.parent q (hp.symm.trans e)
    · exact fun e => nomatch hp.symm.trans e
  · rcases hparent s.initproc with hp | ⟨-, hp⟩
    · exact hp.trans h.init.1
    · exact hp
  · by_cases hpi : s.initproc = i
    · rcases hx with ⟨rfl, -⟩ | ⟨-, hne⟩
      · exact .inl (hpi ▸ hself)
      · exact absurd hpi.symm hne
    · show Function.update s.state i x s.initproc = _ ∨ Function.update s.state i x s.initproc = _ ∨
        Function.update s.state i x s.initproc = _
      rw [hother _ hpi]
      exact h.init.2

/-- A process changes parents, while it holds `wait_lock`. -/
theorem Inv.setParents {parent : Fin n → Option (Fin n)} (h : Inv s) (hc : CpuOk s c held)
    (hl : .wait_lock ∈ held) (hpar : ∀ q, parent q ≠ some q) (hinit : parent s.initproc = none)
    (hspins : spins (s.left c) = 0) (hphase : phase (s.left c) = none) (hq : Quiet code)
    (safe : Safe s.initproc (s.run c) code held (s.own c))
    (hnews : (news code).Sublist (news (s.left c))) :
    Inv (({ s with parent := parent } : Kernel n C L Ch).goto c code) := by
  have hlock := (hc.owner _).2 hl
  obtain ⟨hcode, hcode'⟩ := hq.plain
  refine h.goto hc
    ⟨fun _ _ => rfl, fun _ _ => rfl, fun _ _ => rfl, fun _ _ => rfl, fun _ _ _ => .rfl,
      fun _ _ _ => .inl ⟨rfl, rfl, rfl⟩, fun _ => .inr (.inl hlock), fun _ h => .inl h, rfl⟩
    rfl rfl rfl rfl rfl h.sched_pointer hc.nodup hc.owner ?_ safe hq.noted.head (fun hn => ?_)
    (fun _ hp => hc.mine hp) (fun _ _ => .inl rfl) (fun _ _ => hnews) (fun _ => .inl) hpar
    ⟨hinit, h.init.2⟩
  · rw [hcode, ← hspins]
    exact hc.noff
  · rw [left_sched hn] at hphase
    rw [hphase, hcode', loads_none hphase, loads_none hcode']
    exact ⟨rfl, rfl, nofun⟩

/-! ## Switching -/

omit [DecidableEq L] [DecidableEq C] in
theorem own_of_run (hr : s.run c = some p) : s.own c = s.state p := by
  unfold Kernel.own
  rw [hr]

/-- `swtch` in `sched` saves the context. -/
theorem Inv.save (h : Inv s) (hc : CpuOk s c held) (hr : s.run c = some p)
    (hleft : s.code p = .save q :: rest) :
    Inv { s with
      code := Function.update s.code q rest
      saved := Function.update s.saved q true
      run := Function.update s.run c none
      scode := Function.update s.scode c (.resume :: s.scode c) } := by
  have hsafe := hc.safe
  rw [left_run hr, hleft, own_of_run hr, hr] at hsafe
  obtain ⟨hq, rfl, hst, hsafe⟩ := hsafe
  obtain rfl := Option.some.inj hq
  have hquiet : Quiet rest := by
    have hhead := hc.head
    rw [left_run hr, hleft] at hhead
    exact hhead
  have hnoff := hc.noff
  rw [left_run hr, hleft] at hnoff
  obtain ⟨hproc, hscode, -, hused⟩ := hc.proc p hr
  have hlock := hc.own_lock hr hst
  rw [hscode]
  generalize hs' : ({ s with
    code := Function.update s.code p rest
    saved := Function.update s.saved p true
    run := Function.update s.run c none
    scode := Function.update s.scode c [.resume, .back p] } : Kernel n C L Ch) = s'
  have hrun : s'.run c = none := by
    subst hs'
    exact Function.update_self _ _ _
  have hrun' : ∀ c', c' ≠ c → s'.run c' = s.run c' := fun c' hc' => by
    subst hs'
    exact Function.update_of_ne hc' _ _
  have hsc : s'.scode c = [.resume, .back p] := by
    subst hs'
    exact Function.update_self _ _ _
  have hcode : s'.code p = rest := by
    subst hs'
    exact Function.update_self _ _ _
  have hcode' : ∀ q, q ≠ p → s'.code q = s.code q ∧ s'.saved q = s.saved q := fun q hq => by
    subst hs'
    exact ⟨Function.update_of_ne hq _ _, Function.update_of_ne hq _ _⟩
  have hsaved : s'.saved p = true := by
    subst hs'
    exact Function.update_self _ _ _
  have hstate : s'.state = s.state := hs' ▸ rfl
  have hini : s'.initproc = s.initproc := hs' ▸ rfl
  have hready : ∀ q, q ≠ p → Ready s q → Ready s' q := fun q hq hrd => by
    refine ⟨(hcode' q hq).2.trans hrd.1, ?_⟩
    rw [hini, (hcode' q hq).1]
    exact hrd.2
  have hnews : ∀ q np, np ∈ news (s'.code q) → np ∈ news (s.code q) := fun q np hnp => by
    by_cases hq : q = p
    · rw [hq, hcode] at hnp
      rw [hq, hleft]
      exact hnp
    · rw [(hcode' q hq).1] at hnp
      exact hnp
  refine h.step (c := c)
    ⟨hrun', fun _ _ => hs' ▸ rfl, fun c' hc' => ?_, fun _ _ => hs' ▸ rfl, fun _ _ _ => hs' ▸ .rfl,
      fun q hq _ => ?_, fun _ => .inl (hs' ▸ rfl), fun q hq => ?_, hini⟩
    ⟨[.proc p], hc.nodup, fun k => ?_, ?_, ?_, ?_, fun q hq => ?_, fun _ => ?_, fun i _ hi => ?_⟩
    (fun q hq => ?_) (fun q np hnp => ?_) (fun q q' np hq hq' => ?_) (fun q => ?_) (fun q => ?_)
    ?_ ?_
  · subst hs'
    exact Function.update_of_ne hc' _ _
  · have hqp : q ≠ p := fun e => hq (e ▸ hr)
    exact .inl ⟨(hcode' q hqp).1, congrFun hstate q, (hcode' q hqp).2⟩
  · exact nomatch hrun.symm.trans hq
  · subst hs'
    exact hc.owner k
  · rw [left_sched hrun, hsc]
    subst hs'
    exact hnoff
  · rw [left_sched hrun, hsc, hrun]
    exact ⟨rfl, p, rfl, rfl⟩
  · rw [left_sched hrun, hsc]
    trivial
  · exact nomatch hrun.symm.trans hq
  · rw [hsc]
    subst hs'
    exact hproc
  · rw [hsc] at hi ⊢
    obtain rfl := Option.some.inj hi
    refine ⟨fun c' hc' => ?_, List.mem_singleton.2 rfl, iff_of_false (hstate ▸ hst) nofun⟩
    by_cases hcc : c' = c
    · exact nomatch (hcc ▸ hrun).symm.trans hc'
    · rw [hrun' c' hcc] at hc'
      exact hcc (h.one c' c p hc' hr)
  · by_cases hqp : q = p
    · subst hqp
      refine ⟨fun hst' => ⟨hsaved, hcode ▸ hquiet, ?_⟩, fun hst' => absurd (hstate ▸ hst') hst⟩
      rw [hini, hcode]
      refine hsafe fun hz => ?_
      rw [hstate, hz] at hst'
      simp at hst'
    · have hoff := h.off q fun c' hc' => by
        by_cases hcc : c' = c
        · exact hqp (Option.some.inj ((hcc ▸ hc').symm.trans hr))
        · exact hq c' ((hrun' c' hcc).trans hc')
      refine ⟨fun hst' => hready q hqp (hoff.ready (hstate ▸ hst')), fun hst' => ?_⟩
      obtain ⟨c', hn, hl⟩ := hoff.loads (hstate ▸ hst')
      have hcc : c' ≠ c := by
        rintro rfl
        exact nomatch hn.symm.trans hr
      refine ⟨c', (hrun' c' hcc).trans hn, ?_⟩
      subst hs'
      exact (congrArg loads (Function.update_of_ne hcc _ _)).trans hl
  · obtain ⟨hu, hrd⟩ := h.new q np (hnews q np hnp)
    refine ⟨hstate ▸ hu, hready np ?_ hrd⟩
    rintro rfl
    exact hused hu
  · exact h.newOne q q' np (hnews q np hq) (hnews q' np hq')
  · by_cases hq : q = p
    · have hnd := h.newNodup p
      rw [hleft] at hnd
      rw [hq, hcode]
      exact hnd
    · rw [(hcode' q hq).1]
      exact h.newNodup q
  · subst hs'
    exact h.parent q
  · subst hs'
    exact h.init
  · subst hs'
    exact h.sched_pointer

/-- `swtch` in `rr_scheduler` loads a context, which is complete. -/
theorem Inv.load (h : Inv s) (hc : CpuOk s c held) (hr : s.run c = none)
    (hleft : s.scode c = .load i :: rest) :
    (s.saved i = true ∧ ∀ c', s.run c' ≠ some i) ∧
      Inv { s with
        scode := Function.update s.scode c rest
        run := Function.update s.run c (some i)
        saved := Function.update s.saved i false } := by
  have hsafe := hc.safe
  rw [left_sched hr, hleft, hr] at hsafe
  obtain ⟨-, rfl, rfl⟩ := hsafe
  have hnoff := hc.noff
  rw [left_sched hr, hleft] at hnoff
  have hproc := hc.sched hr
  rw [hleft] at hproc
  obtain ⟨hno, -, hst⟩ := hc.phase i hr (by rw [hleft]; rfl)
  have hst : s.state i = .RUNNING := hst.2 (by rw [hleft]; rfl)
  obtain ⟨hsaved, hquiet, hcode⟩ := (h.off i hno).ready (.inr (.inr hst))
  have hlock := (hc.owner (.proc i)).2 (List.mem_singleton.2 rfl)
  refine ⟨⟨hsaved, hno⟩, ?_⟩
  generalize hs' : ({ s with
    scode := Function.update s.scode c [.back i]
    run := Function.update s.run c (some i)
    saved := Function.update s.saved i false } : Kernel n C L Ch) = s'
  have hrun : s'.run c = some i := by
    subst hs'
    exact Function.update_self _ _ _
  have hrun' : ∀ c', c' ≠ c → s'.run c' = s.run c' := fun c' hc' => by
    subst hs'
    exact Function.update_of_ne hc' _ _
  have hsc : s'.scode c = [.back i] := by
    subst hs'
    exact Function.update_self _ _ _
  have hcode' : s'.code = s.code := hs' ▸ rfl
  have hsaved' : ∀ q, q ≠ i → s'.saved q = s.saved q := fun q hq => by
    subst hs'
    exact Function.update_of_ne hq _ _
  have hstate : s'.state = s.state := hs' ▸ rfl
  have hini : s'.initproc = s.initproc := hs' ▸ rfl
  have hready : ∀ q, q ≠ i → Ready s q → Ready s' q := fun q hq hrd => by
    refine ⟨(hsaved' q hq).trans hrd.1, ?_⟩
    rw [hini, hcode']
    exact hrd.2
  refine h.step (c := c)
    ⟨hrun', fun _ _ => hs' ▸ rfl, fun c' hc' => ?_, fun _ _ => hs' ▸ rfl, fun _ _ _ => hs' ▸ .rfl,
      fun q _ hq => ?_, fun _ => .inl (hs' ▸ rfl), fun q hq => ?_, hini⟩
    ⟨[.proc i], hc.nodup, fun k => ?_, ?_, ?_, ?_, fun q hq => ?_, fun hn => ?_, fun _ hn => ?_⟩
    (fun q hq => ?_) (fun q np hnp => ?_) (fun q q' np hq hq' => ?_) (fun q => ?_) (fun q => ?_)
    ?_ ?_
  · subst hs'
    exact Function.update_of_ne hc' _ _
  · have hqi : q ≠ i := fun e => hq (e ▸ hrun)
    exact .inl ⟨congrFun hcode' q, congrFun hstate q, hsaved' q hqi⟩
  · obtain rfl := Option.some.inj (hrun.symm.trans hq)
    exact .inr ⟨hlock, hno⟩
  · subst hs'
    exact hc.owner k
  · rw [left_run hrun, hcode', hquiet.plain.1]
    subst hs'
    exact hnoff
  · rw [hini, hrun, left_run hrun, own_of_run hrun, hcode', hstate, hst]
    exact hcode
  · rw [left_run hrun, hcode']
    exact hquiet.noted.head
  · obtain rfl := Option.some.inj (hrun.symm.trans hq)
    refine ⟨?_, hsc, ?_⟩
    · subst hs'
      exact hproc
    · rw [hstate, hst]
      exact ⟨fun hne => absurd rfl hne, nofun⟩
  · exact nomatch hn.symm.trans hrun
  · exact nomatch hn.symm.trans hrun
  · have hqi : q ≠ i := fun e => hq c (e ▸ hrun)
    have hoff := h.off q fun c' hc' => by
      by_cases hcc : c' = c
      · exact nomatch (hcc ▸ hc').symm.trans hr
      · exact hq c' ((hrun' c' hcc).trans hc')
    refine ⟨fun hst' => hready q hqi (hoff.ready (hstate ▸ hst')), fun hst' => ?_⟩
    obtain ⟨c', hn, hl⟩ := hoff.loads (hstate ▸ hst')
    have hcc : c' ≠ c := by
      rintro rfl
      rw [hleft] at hl
      exact hqi (Option.some.inj hl).symm
    refine ⟨c', (hrun' c' hcc).trans hn, ?_⟩
    subst hs'
    exact (congrArg loads (Function.update_of_ne hcc _ _)).trans hl
  · rw [hcode'] at hnp
    obtain ⟨hu, hrd⟩ := h.new q np hnp
    refine ⟨hstate ▸ hu, hready np ?_ hrd⟩
    rintro rfl
    exact nomatch hst.symm.trans hu
  · rw [hcode'] at hq hq'
    exact h.newOne q q' np hq hq'
  · rw [hcode']
    exact h.newNodup q
  · subst hs'
    exact h.parent q
  · subst hs'
    exact h.init
  · subst hs'
    exact h.sched_pointer

/-- A scheduler goes on, and `c->proc` is the process that it switches to, if
there is one. -/
theorem Inv.sched (state : Fin n → ProcState) (code : List (Instr n L Ch)) (h : Inv s)
    (hc : CpuOk s c held)
    (hr : s.run c = none)
    (hstate : ∀ q, state q = s.state q ∨ phase code = some q ∧ s.state q = .RUNNABLE ∧
      state q = .RUNNING ∧ .proc q ∈ held)
    (hphase : ∀ i, phase code = some i → (∀ c', s.run c' ≠ some i) ∧ .proc i ∈ held ∧
      (state i = .RUNNING ↔ loads code = some i))
    (hloads : ∀ i, loads (s.scode c) = some i → loads code = some i)
    (hspins : spins (s.scode c) = spins code) (safe : Safe s.initproc none code held .RUNNING)
    (head : HeadOk s held code) :
    Inv { s with
      state := state
      proc := Function.update s.proc c (phase code)
      scode := Function.update s.scode c code } := by
  have hnoff := hc.noff
  rw [left_sched hr, hspins] at hnoff
  generalize hs' : ({ s with
    state := state
    proc := Function.update s.proc c (phase code)
    scode := Function.update s.scode c code } : Kernel n C L Ch) = s'
  have hrun : s'.run = s.run := hs' ▸ rfl
  have hsc : s'.scode c = code := by
    subst hs'
    exact Function.update_self _ _ _
  have hcode : s'.code = s.code := hs' ▸ rfl
  have hsaved : s'.saved = s.saved := hs' ▸ rfl
  have hst : s'.state = state := hs' ▸ rfl
  have hini : s'.initproc = s.initproc := hs' ▸ rfl
  have hready : ∀ q, Ready s q → Ready s' q := fun q hrd => by
    unfold Ready
    rw [hini, hcode, hsaved]
    exact hrd
  have hrc : s'.run c = none := (congrFun hrun c).trans hr
  refine h.step (c := c)
    ⟨fun _ _ => congrFun hrun _, fun c' hc' => ?_, fun c' hc' => ?_, fun _ _ => hs' ▸ rfl,
      fun _ _ _ => hs' ▸ .rfl, fun q _ _ => ?_, fun _ => .inl (hs' ▸ rfl), fun q hq => ?_, hini⟩
    ⟨held, hc.nodup, fun k => ?_, ?_, ?_, ?_, fun q hq => ?_, fun _ => ?_, fun i _ hi => ?_⟩
    (fun q hq => ?_) (fun q np hnp => ?_) (fun q q' np hq hq' => ?_) (fun q => ?_) (fun q => ?_)
    ?_ ?_
  · subst hs'
    exact Function.update_of_ne hc' _ _
  · subst hs'
    exact Function.update_of_ne hc' _ _
  · rcases hstate q with hq | ⟨-, hq, -, hl⟩
    · exact .inl ⟨congrFun hcode q, (congrFun hst q).trans hq, congrFun hsaved q⟩
    · exact .inr ⟨(hc.owner _).2 hl, by rw [hq]; nofun⟩
  · exact nomatch hrc.symm.trans hq
  · subst hs'
    exact hc.owner k
  · rw [left_sched hrc, hsc]
    subst hs'
    exact hnoff
  · have hown : s'.own c = .RUNNING := by
      unfold Kernel.own
      rw [hrc]
    rw [hini, hrc, left_sched hrc, hsc, hown]
    exact safe
  · rw [left_sched hrc, hsc]
    refine head.congr (List.Subset.refl _) (fun _ _ _ => hs' ▸ rfl) fun i _ hi => ?_
    rw [hst]
    rcases hstate i with hq | ⟨-, hq, -, -⟩
    · exact hq.trans hi
    · exact nomatch hq.symm.trans hi
  · exact nomatch hrc.symm.trans hq
  · rw [hsc]
    subst hs'
    exact Function.update_self _ _ _
  · rw [hsc] at hi ⊢
    rw [hrun, hst]
    exact hphase i hi
  · rw [hrun] at hq
    have hoff := h.off q hq
    refine ⟨fun hst' => hready q (hoff.ready ?_), fun hst' => ?_⟩
    · rw [hst] at hst'
      rcases hstate q with he | ⟨-, he, -, -⟩
      · rw [he] at hst'
        exact hst'
      · exact .inl he
    · rw [hst] at hst'
      rcases hstate q with he | ⟨he, -, -, -⟩
      · obtain ⟨c', hn, hl⟩ := hoff.loads (he.symm.trans hst')
        refine ⟨c', (congrFun hrun c').trans hn, ?_⟩
        by_cases hcc : c' = c
        · subst hcc
          rw [hsc]
          exact hloads q hl
        · subst hs'
          exact (congrArg loads (Function.update_of_ne hcc _ _)).trans hl
      · refine ⟨c, hrc, ?_⟩
        rw [hsc]
        exact (hphase q he).2.2.1 hst'
  · rw [hcode] at hnp
    obtain ⟨hu, hrd⟩ := h.new q np hnp
    refine ⟨?_, hready np hrd⟩
    rw [hst]
    rcases hstate np with he | ⟨-, he, -, -⟩
    · exact he.trans hu
    · exact nomatch he.symm.trans hu
  · rw [hcode] at hq hq'
    exact h.newOne q q' np hq hq'
  · rw [hcode]
    exact h.newNodup q
  · subst hs'
    exact h.parent q
  · rw [hini, hst]
    refine ⟨hs' ▸ h.init.1, ?_⟩
    rcases hstate s.initproc with he | ⟨-, -, he, -⟩
    · rw [he]
      exact h.init.2
    · exact .inr (.inr he)
  · subst hs'
    exact h.sched_pointer

end

end Xv6.Switch
