/-
sleeplock.c: a sleep lock, and the processes that use it.

Any number of processes call `acquiresleep` and `holdingsleep`; `releasesleep`
is called by the process that has the lock, whether it has asked
`holdingsleep`, as `brelse` and `iunlock` do, or not, as `iput` does.

`owner` is auxiliary: who has the sleep lock.
-/
import Xv6.Lib.Locks
import Xv6.Lib.Monitor
import Xv6.Lib.Simulation

namespace Xv6.Sleeplock

open Conc

inductive Place where
  /-- `while (lk->locked)` -/
  | test
  /-- `lk->locked = 1; lk->pid = myproc()->pid` -/
  | take
  /-- `r = lk->locked && (lk->pid == myproc()->pid)` -/
  | holding
  /-- `lk->locked = 0; lk->pid = 0` -/
  | clear
  | wakeup
  | release

/-- `struct sleeplock`, and what `holdingsleep` last said to each process. -/
structure Data (P : Type) where
  locked : Bool
  pid : Nat
  owner : Option P
  answer : P → Option Bool

variable {P : Type} [DecidableEq P]

def step (pid : P → Nat) (d : Data P) (p : P) : Place → Data P × Act Place Unit
  | .test => (d, if d.locked then .sleep () .test else .goto .take)
  | .take =>
    (⟨true, pid p, some p, Function.update d.answer p none⟩, .goto .release)
  | .holding =>
    ({ d with answer := Function.update d.answer p (some (d.locked && d.pid == pid p)) },
      .goto .release)
  | .clear => (⟨false, 0, none, Function.update d.answer p none⟩, .goto .wakeup)
  | .wakeup => (d, .wake () .release)
  | .release => (d, .leave)

/-- A sleep lock from `initsleeplock` on. Its spinlock is the lock of the
monitor. -/
def sleeplock (pid : P → Nat) : Monitor (Data P) P Place Unit where
  init d := d.locked = false ∧ d.pid = 0 ∧ d.owner = none ∧ ∀ p, d.answer p = none
  enter d p
    | .test | .holding => true
    | .clear => d.owner = some p
    | _ => false
  step := step pid
  kill d _ := d

/-- The fields of the lock name its owner. -/
structure Inv (pid : P → Nat) (d : Data P) : Prop where
  locked : d.locked = d.owner.isSome
  pid : ∀ p, d.owner = some p → d.pid = pid p

/-- What a process knows of the lock where it is. -/
def Knows (d : Data P) (p : P) : Pos Place Unit → Prop
  | .enter .clear | .inside .clear => d.owner = some p
  | .enter .test | .enter .holding | .asleep _ .test => True
  | .enter _ | .asleep .. => False
  | .inside .take => d.locked = false
  | _ => True

/-- If pids differ, what `holdingsleep` has said stays true. -/
def Answered (pid : P → Nat) (d : Data P) (p : P) : Prop :=
  Function.Injective pid → ∀ r, d.answer p = some r → (r = true ↔ d.owner = some p)

variable {pid : P → Nat} {d d' : Data P} {p q : P} {x : Pos Place Unit}

omit [DecidableEq P] in
theorem Knows.other (h : Knows d q x) (hx : x.isInside = false)
    (ho : d.owner = some q → d'.owner = some q) : Knows d' q x := by
  cases x with
  | inside k => cases hx
  | enter k =>
    cases k with
    | clear => exact ho h
    | _ => exact h
  | asleep ch k =>
    cases k with
    | test => trivial
    | _ => exact h
  | out => trivial

omit [DecidableEq P] in
theorem holding_iff (hpid : Function.Injective pid) (h : Inv pid d) :
    (d.locked && d.pid == pid p) = true ↔ d.owner = some p := by
  rw [Bool.and_eq_true, beq_iff_eq, h.locked]
  constructor
  · intro hl
    obtain ⟨q, hq⟩ := Option.isSome_iff_exists.1 hl.1
    rw [hq, hpid ((h.pid q hq).symm.trans hl.2)]
  · intro ho
    exact ⟨by rw [ho]; rfl, h.pid p ho⟩

theorem keeps : (sleeplock pid).Keeps (Inv pid)
    fun d p x => Answered pid d p ∧ Knows d p x where
  init d hi := by
    obtain ⟨hl, -, ho, ha⟩ := hi
    refine ⟨⟨by rw [hl, ho]; rfl, fun p hp => ?_⟩, fun p => ⟨fun _ r hr => ?_, trivial⟩⟩
    · rw [ho] at hp
      cases hp
    · rw [ha] at hr
      cases hr
  call d p k h he := by
    refine ⟨h.1, ?_⟩
    cases k with
    | test => trivial
    | holding => trivial
    | clear =>
      have ho : d.owner = some p := of_decide_eq_true he
      exact ho
    | _ => cases he
  lock d p k h := by
    refine ⟨h.1, ?_⟩
    cases k with
    | clear => exact h.2
    | take => exact h.2.elim
    | _ => trivial
  wake d p ch k h := by
    refine ⟨h.1, ?_⟩
    cases k with
    | test => trivial
    | _ => exact h.2.elim
  step d p k hI h := by
    obtain ⟨ha, hk⟩ := h
    cases k with
    | test =>
      refine ⟨hI, ha, ?_⟩
      cases hl : d.locked with
      | true => simp [sleeplock, step, hl, Act.pos, Knows]
      | false => simp [sleeplock, step, hl, Act.pos, Knows]
    | take =>
      refine ⟨⟨rfl, fun q hq => ?_⟩, fun _ r hr => ?_, trivial⟩
      · rw [← Option.some.inj hq]
        rfl
      · simp [sleeplock, step] at hr
    | holding =>
      refine ⟨⟨hI.locked, hI.pid⟩, fun hpid r hr => ?_, trivial⟩
      have hr' : (d.locked && d.pid == pid p) = r := by simpa [sleeplock, step] using hr
      rw [← hr']
      exact holding_iff hpid hI
    | clear =>
      refine ⟨⟨rfl, fun q hq => by cases hq⟩, fun _ r hr => ?_, trivial⟩
      simp [sleeplock, step] at hr
    | wakeup => exact ⟨hI, ha, trivial⟩
    | release => exact ⟨hI, ha, trivial⟩
  frame d p k q x hq hx hI h hqx := by
    obtain ⟨ha, hk⟩ := hqx
    cases k with
    | test => exact ⟨ha, hk⟩
    | take =>
      have hn : d.owner = none := by
        have hl : d.locked = false := h.2
        rw [hI.locked] at hl
        simpa using hl
      refine ⟨fun hpid r hr => ?_, hk.other hx fun ho => ?_⟩
      · have hr' : d.answer q = some r := by
          simpa [sleeplock, step, Function.update_of_ne hq] using hr
        rw [ha hpid r hr', hn]
        simp [sleeplock, step, Ne.symm hq]
      · rw [hn] at ho
        cases ho
    | holding =>
      refine ⟨fun hpid r hr => ha hpid r ?_, hk.other hx id⟩
      simpa [sleeplock, step, Function.update_of_ne hq] using hr
    | clear =>
      have hp : d.owner = some p := h.2
      refine ⟨fun hpid r hr => ?_, hk.other hx fun ho => ?_⟩
      · have hr' : d.answer q = some r := by
          simpa [sleeplock, step, Function.update_of_ne hq] using hr
        rw [ha hpid r hr', hp]
        simp [sleeplock, step, Ne.symm hq]
      · rw [hp] at ho
        exact absurd (Option.some.inj ho).symm hq
    | wakeup => exact ⟨ha, hk⟩
    | release => exact ⟨ha, hk⟩
  kill d p hI := ⟨hI, fun _ _ h => h⟩

/-- A process sleeps while the lock is taken; `releasesleep` owes it a wakeup. -/
theorem alert : (sleeplock pid).Alert (fun d p x => Answered pid d p ∧ Knows d p x)
    (fun d _ _ _ => d.locked = true) fun k _ => k = .wakeup where
  sleep d p k ch k' _ hs := by
    cases k with
    | test =>
      cases hl : d.locked with
      | true => exact hl
      | false => simp [sleeplock, step, hl] at hs
    | _ => cases hs
  keep d p k q ch k' _ _ hl := by
    cases k with
    | take => exact .inl rfl
    | clear => exact .inr (.inr ⟨.wakeup, rfl, rfl⟩)
    | _ => exact .inl hl
  pay d p k ch _ ho := by
    obtain rfl : k = .wakeup := ho
    exact .inl ⟨.release, rfl⟩
  kill d p q ch k hl := hl

/-! ## The owner -/

/-- The owner as `locks` has it. -/
def Data.owners (d : Data P) : Unit → Option P := fun _ => d.owner

/-- A step takes the lock, gives it back, or does neither, for the process
that makes it. -/
theorem owners_next {s s' : Monitor.State (Data P) P Place Unit}
    {e : Monitor.Event P Place} (h : (sleeplock pid).machine.Reachable s)
    (hs : (sleeplock pid).machine.next s e = some s') :
    s'.data.owners = s.data.owners ∨
      ∃ f, e = .go f.by ∧ (locks P Unit).next s.data.owners f = some s'.data.owners := by
  obtain ⟨hI, hL⟩ := keeps.reachable h
  cases e with
  | call p k =>
    simp only [Monitor.machine, Monitor.next] at hs
    split at hs
    next =>
      split at hs
      next =>
        obtain rfl := Option.some.inj hs
        exact .inl rfl
      next => cases hs
    next => cases hs
  | go p =>
    simp only [Monitor.machine, Monitor.next, Monitor.go] at hs
    have hk := (hL p).2
    split at hs
    next => cases hs
    next => cases hs
    next =>
      split at hs
      next =>
        obtain rfl := Option.some.inj hs
        exact .inl rfl
      next => cases hs
    next k hp =>
      obtain rfl := Option.some.inj hs
      rw [hp] at hk
      cases k with
      | take =>
        have hn : s.data.owners () = none := by
          have hl : s.data.locked = false := hk
          rw [hI.locked] at hl
          change s.data.owner = none
          simpa using hl
        refine .inr ⟨.take p (), rfl, ?_⟩
        have hset : Function.update s.data.owners () (some p) = fun _ => some p := by
          funext u
          exact Function.update_self ..
        simp only [locks]
        rw [if_pos hn, hset]
        rfl
      | clear =>
        have ho : s.data.owners () = some p := hk
        refine .inr ⟨.give p (), rfl, ?_⟩
        have hset : Function.update s.data.owners () none = fun _ => none := by
          funext u
          exact Function.update_self ..
        simp only [locks]
        rw [if_pos ho, hset]
        rfl
      | _ => exact .inl rfl
  | kill p =>
    obtain rfl := Option.some.inj hs
    exact .inl rfl

theorem simulation :
    Machine.Simulation (sleeplock pid).machine (locks P Unit) fun s o =>
      (sleeplock pid).machine.Reachable s ∧ o = s.data.owners where
  init s hi := ⟨s.data.owners, fun _ => hi.1.2.2.1, .init hi, rfl⟩
  step s e s' o h hs := by
    obtain ⟨hr, rfl⟩ := h
    refine (owners_next hr hs).elim (fun ho => ⟨[], _, rfl, hr.next hs, ho.symm⟩) ?_
    intro hf
    obtain ⟨f, -, hf⟩ := hf
    exact ⟨[f], _, by rw [Machine.exec_cons, hf]; rfl, hr.next hs, rfl⟩

/-- Whoever is killed when, a step takes a free sleep lock for the process that
makes it, gives the lock of that process back, or leaves the owner; the fields
of the lock name the owner, so `holdingsleep` is true for it alone if pids
differ; and no process sleeps in `acquiresleep` while the lock is free, unless
a process that holds its spinlock is about to wake it. -/
theorem sleeplock_refines {s : Monitor.State (Data P) P Place Unit}
    (h : (sleeplock pid).machine.Reachable s) :
    (locks P Unit).Reachable s.data.owners ∧
      (∀ e s', (sleeplock pid).machine.next s e = some s' →
        s'.data.owners = s.data.owners ∨
          ∃ f, e = .go f.by ∧ (locks P Unit).next s.data.owners f = some s'.data.owners) ∧
      s.data.locked = s.data.owner.isSome ∧
      (∀ p, s.data.owner = some p → s.data.pid = pid p) ∧
      (Function.Injective pid → ∀ p r, s.data.answer p = some r →
        (r = true ↔ s.data.owner = some p)) ∧
      (∀ p ch k, s.pos p = .asleep ch k → s.data.owner ≠ none ∨
        ∃ q, s.lock = some q ∧ s.pos q = .inside .wakeup) := by
  obtain ⟨hI, hL⟩ := keeps.reachable h
  refine ⟨?_, fun e s' hs => owners_next h hs, hI.locked, hI.pid,
    fun hpid p r hr => (hL p).1 hpid r hr, fun p ch k hp => ?_⟩
  · obtain ⟨o, ho, -, rfl⟩ := simulation.reachable h
    exact ho
  · rcases alert.reachable keeps h p ch k hp with hl | ⟨q, k', hq, hk, rfl⟩
    · refine .inl fun hn => ?_
      rw [hI.locked, hn] at hl
      cases hl
    · exact .inr ⟨q, hq, hk⟩

/-- One process has the lock, another sleeps until it is given back. -/
def handOver : List (Monitor.Event Bool Place) :=
  [.call true .test, .call false .test, .go true, .go true, .go true, .go true, .go false,
    .go false, .call true .holding, .go true, .go true, .go true, .call true .clear, .go true,
    .go true, .go true, .go true, .go false, .go false, .go false]

def initial : Monitor.State (Data Bool) Bool Place Unit :=
  ⟨⟨false, 0, none, fun _ => none⟩, none, fun _ => .out⟩

theorem sleeplock_refines_handOver :
    ∃ s, (sleeplock fun p : Bool => p.toNat).machine.exec initial handOver = some s ∧
      s.data.owner = some false ∧ (locks Bool Unit).Reachable s.data.owners := by
  have hr : (sleeplock fun p : Bool => p.toNat).machine.Reachable
      (((sleeplock fun p : Bool => p.toNat).machine.exec initial handOver).get rfl) :=
    ⟨initial, handOver, ⟨⟨rfl, rfl, rfl, fun _ => rfl⟩, rfl, fun _ => rfl⟩,
      (Option.some_get _).symm⟩
  exact ⟨_, (Option.some_get rfl).symm, rfl, (sleeplock_refines hr).1⟩

end Xv6.Sleeplock
