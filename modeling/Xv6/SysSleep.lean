/-
sys_sleep and clockintr: sleeping for a number of clock ticks.

Any number of processes call `sys_sleep`, and are killed at any moment; the
clock interrupts CPU 0. `ticks` is a `uint`, so `ticks - ticks0 < n` compares
modulo `2 ^ 32`.

`total`, `began` and `asked` are auxiliary: the number of interrupts so far,
and for each process what it was when its last call read `ticks`, and the
argument of the call.
-/
import Mathlib.Algebra.GroupWithZero.Nat
import Xv6.Lib.Monitor

namespace Xv6.SysSleep

open Conc

inductive Place where
  /-- `ticks0 = ticks` -/
  | start (n : BitVec 32)
  /-- `ticks - ticks0 < n` -/
  | test (n ticks0 : BitVec 32)
  /-- `killed(myproc())` -/
  | killed (n ticks0 : BitVec 32)
  /-- `sleep(&ticks, &tickslock)` -/
  | sleep (n ticks0 : BitVec 32)
  | release (r : Int)
  /-- `ticks++` -/
  | tick
  | wakeup
  /-- `release(&tickslock)` in `clockintr` -/
  | leave

/-- The processes `P`, and with `none` the clock interrupt. -/
structure Data (P : Type) where
  ticks : BitVec 32
  killed : P → Bool
  ret : P → Option Int
  total : Nat
  began : P → Nat
  asked : P → Nat

variable {P : Type} [DecidableEq P]

def step (d : Data P) : Option P → Place → Data P × Act Place Unit
  | some p, .start n =>
    ({ d with
      ret := Function.update d.ret p none
      began := Function.update d.began p d.total
      asked := Function.update d.asked p n.toNat }, .goto (.test n d.ticks))
  | some _, .test n ticks0 =>
    (d, .goto (if d.ticks - ticks0 < n then .killed n ticks0 else .release 0))
  | some p, .killed n ticks0 =>
    (d, .goto (if d.killed p then .release (-1) else .sleep n ticks0))
  | some _, .sleep n ticks0 => (d, .sleep () (.test n ticks0))
  | some p, .release r => ({ d with ret := Function.update d.ret p (some r) }, .leave)
  | none, .tick => ({ d with ticks := d.ticks + 1, total := d.total + 1 }, .goto .wakeup)
  | none, .wakeup => (d, .wake () .leave)
  | none, .leave => (d, .leave)
  | _, _ => (d, .leave)

/-- `tickslock` is the lock of the monitor. -/
def clock (P : Type) [DecidableEq P] : Monitor (Data P) (Option P) Place Unit where
  init d := d.ticks = 0 ∧ d.total = 0 ∧ ∀ p, d.ret p = none
  enter _ p k :=
    match p, k with
    | some _, .start _ => true
    | none, .tick => true
    | _, _ => false
  step := step
  kill d
    | some p => { d with killed := Function.update d.killed p true }
    | none => d

/-- `ticks` counts the interrupts. -/
def Counts (d : Data P) : Prop := d.ticks = BitVec.ofNat 32 d.total

/-- A call for `n` ticks that began at `ticks0`. -/
structure Call (d : Data P) (p : P) (n ticks0 : BitVec 32) : Prop where
  began : ticks0 = BitVec.ofNat 32 (d.began p)
  le : d.began p ≤ d.total
  asked : n.toNat = d.asked p

/-- What a call that returns `r` knows: it slept for its ticks, or the process
was killed. -/
def Returns (d : Data P) (p : P) (r : Int) : Prop :=
  (r = 0 ∧ d.asked p ≤ d.total - d.began p) ∨ (r = -1 ∧ d.killed p)

/-- What a process knows of its call where it is. -/
def Knows (d : Data P) : Option P → Pos Place Unit → Prop
  | _, .out => True
  | some _, .enter (.start _) | some _, .inside (.start _) => True
  | some p, .enter (.test n t) | some p, .asleep _ (.test n t) | some p, .inside (.test n t) =>
    Call d p n t
  | some p, .inside (.killed n t) | some p, .inside (.sleep n t) =>
    Call d p n t ∧ d.ticks - t < n
  | some p, .inside (.release r) => Returns d p r
  | none, .enter .tick | none, .inside .tick | none, .inside .wakeup | none, .inside .leave => True
  | _, _ => False

/-- A call that returned. -/
def Returned (d : Data P) (p : Option P) : Prop :=
  ∀ q, p = some q → ∀ r, d.ret q = some r → Returns d q r

/-- Time goes on, for process `q` in the same call. -/
structure Later (d d' : Data P) (q : P) : Prop where
  total : d.total ≤ d'.total
  began : d'.began q = d.began q
  asked : d'.asked q = d.asked q
  killed : d.killed q → d'.killed q

variable {d d' : Data P} {p : Option P} {q : P} {n t : BitVec 32} {x : Pos Place Unit} {r : Int}

omit [DecidableEq P] in
theorem Call.later (h : Call d q n t) (hl : Later d d' q) : Call d' q n t where
  began := by rw [h.began, hl.began]
  le := by
    rw [hl.began]
    exact Nat.le_trans h.le hl.total
  asked := by rw [h.asked, hl.asked]

omit [DecidableEq P] in
theorem Returns.later (h : Returns d q r) (hl : Later d d' q) : Returns d' q r := by
  rcases h with ⟨hr, hs⟩ | ⟨hr, hk⟩
  · refine .inl ⟨hr, ?_⟩
    rw [hl.began, hl.asked]
    exact Nat.le_trans hs (Nat.sub_le_sub_right hl.total _)
  · exact .inr ⟨hr, hl.killed hk⟩

omit [DecidableEq P] in
/-- A process outside the lock knows only what the others cannot change. -/
theorem Knows.later (h : Knows d p x) (hx : x.isInside = false)
    (hl : ∀ q, p = some q → Later d d' q) : Knows d' p x := by
  cases p with
  | none =>
    cases x with
    | out => trivial
    | inside k => cases hx
    | enter k => cases k <;> exact h
    | asleep ch k => cases k <;> exact h
  | some q =>
    cases x with
    | out => trivial
    | inside k => cases hx
    | enter k =>
      cases k with
      | test n t => exact Call.later h (hl q rfl)
      | _ => exact h
    | asleep ch k =>
      cases k with
      | test n t => exact Call.later h (hl q rfl)
      | _ => exact h

omit [DecidableEq P] in
/-- The difference of the counters is that of the interrupts, modulo `2 ^ 32`. -/
theorem Call.sub_lt_iff (h : Call d q n t) (hc : Counts d) :
    d.ticks - t < n ↔ (d.total - d.began q) % 2 ^ 32 < d.asked q := by
  have hsub : d.ticks - t = BitVec.ofNat 32 (d.total - d.began q) := by
    have hle := h.le
    rw [hc, h.began]
    apply BitVec.eq_of_toNat_eq
    simp only [BitVec.toNat_sub, BitVec.toNat_ofNat]
    omega
  rw [BitVec.lt_def, hsub, BitVec.toNat_ofNat, h.asked]

theorem keeps : (clock P).Keeps Counts fun d p x => Returned d p ∧ Knows d p x where
  init d hi := by
    obtain ⟨ht, hn, hr⟩ := hi
    refine ⟨by rw [Counts, ht, hn]; rfl, fun p => ⟨fun q _ r hq => ?_, by cases p <;> trivial⟩⟩
    rw [hr] at hq
    cases hq
  call d p k h he := by
    refine ⟨h.1, ?_⟩
    cases p with
    | none =>
      cases k with
      | tick => trivial
      | _ => cases he
    | some p =>
      cases k with
      | start n => trivial
      | _ => cases he
  lock d p k h := by
    refine ⟨h.1, ?_⟩
    cases p with
    | none => cases k <;> first | trivial | exact h.2.elim
    | some p => cases k <;> first | exact h.2 | exact h.2.elim
  wake d p ch k h := by
    refine ⟨h.1, ?_⟩
    cases p with
    | none => cases k <;> exact h.2.elim
    | some p => cases k <;> first | exact h.2 | exact h.2.elim
  step d p k hI h := by
    obtain ⟨hr, hk⟩ := h
    cases p with
    | none =>
      cases k with
      | tick =>
        refine ⟨?_, fun q hq => (by cases hq), trivial⟩
        change d.ticks + 1 = BitVec.ofNat 32 (d.total + 1)
        rw [hI, BitVec.ofNat_add]
        rfl
      | wakeup => exact ⟨hI, hr, trivial⟩
      | leave => exact ⟨hI, hr, trivial⟩
      | _ => exact hk.elim
    | some p =>
      cases k with
      | start n =>
        refine ⟨hI, fun q hq r hret => ?_, ?_⟩
        · obtain rfl := Option.some.inj hq
          simp [clock, step] at hret
        · refine ⟨?_, ?_, ?_⟩
          · change d.ticks = BitVec.ofNat 32 (Function.update d.began p d.total p)
            rw [Function.update_self]
            exact hI
          · have hself : Function.update d.began p d.total p = d.total := Function.update_self ..
            exact Nat.le_of_eq hself
          · change n.toNat = Function.update d.asked p n.toNat p
            rw [Function.update_self]
      | test n t =>
        have hcall : Call d p n t := hk
        refine ⟨hI, hr, ?_⟩
        by_cases hlt : d.ticks - t < n
        · simpa [clock, step, hlt, Act.pos, Knows] using hcall
        · have hge : d.asked p ≤ d.total - d.began p := by
            rw [hcall.sub_lt_iff hI] at hlt
            exact Nat.le_trans (Nat.le_of_not_lt hlt) (Nat.mod_le _ _)
          simpa [clock, step, hlt, Act.pos, Knows, Returns] using hge
      | killed n t =>
        refine ⟨hI, hr, ?_⟩
        cases hkill : d.killed p with
        | true => simp [clock, step, hkill, Act.pos, Knows, Returns]
        | false => simpa [clock, step, hkill, Act.pos, Knows] using hk
      | sleep n t => exact ⟨hI, hr, hk.1⟩
      | release r =>
        refine ⟨hI, fun q hq r' hret => ?_, trivial⟩
        obtain rfl := Option.some.inj hq
        have hrr : r = r' := by simpa [clock, step] using hret
        rw [← hrr]
        exact hk
      | _ => exact hk.elim
  frame d p k q x hq hx hI h hqx := by
    obtain ⟨hr, hk⟩ := hqx
    have hlater : ∀ q', q = some q' → Later d ((clock P).step d p k).1 q' ∧
        ((clock P).step d p k).1.ret q' = d.ret q' := by
      intro q' hq'
      cases p with
      | none =>
        cases k with
        | tick => exact ⟨⟨Nat.le_succ _, rfl, rfl, id⟩, rfl⟩
        | _ => exact ⟨⟨Nat.le_refl _, rfl, rfl, id⟩, rfl⟩
      | some p =>
        have hne : q' ≠ p := fun he => hq (by rw [hq', he])
        cases k with
        | start n =>
          exact ⟨⟨Nat.le_refl _, Function.update_of_ne hne .., Function.update_of_ne hne .., id⟩,
            Function.update_of_ne hne ..⟩
        | release r => exact ⟨⟨Nat.le_refl _, rfl, rfl, id⟩, Function.update_of_ne hne ..⟩
        | _ => exact ⟨⟨Nat.le_refl _, rfl, rfl, id⟩, rfl⟩
    refine ⟨fun q' hq' r hret => ?_, hk.later hx fun q' hq' => (hlater q' hq').1⟩
    rw [(hlater q' hq').2] at hret
    exact (hr q' hq' r hret).later (hlater q' hq').1
  kill d p hI := by
    have hlater : ∀ q, Later d ((clock P).kill d p) q := by
      intro q
      cases p with
      | none => exact ⟨Nat.le_refl _, rfl, rfl, id⟩
      | some p =>
        refine ⟨Nat.le_refl _, rfl, rfl, fun hk => ?_⟩
        change Function.update d.killed p true q = true
        by_cases hne : q = p
        · rw [hne, Function.update_self]
        · rw [Function.update_of_ne hne, hk]
    have hdata : Counts ((clock P).kill d p) ∧ ((clock P).kill d p).ret = d.ret ∧
        ((clock P).kill d p).ticks = d.ticks := by
      cases p with
      | none => exact ⟨hI, rfl, rfl⟩
      | some p => exact ⟨hI, rfl, rfl⟩
    refine ⟨hdata.1, fun q x h => ⟨fun q' hq' r hret => ?_, ?_⟩⟩
    · rw [hdata.2.1] at hret
      exact (h.1 q' hq' r hret).later (hlater q')
    · by_cases hx : x.isInside = false
      · exact h.2.later hx fun q' _ => hlater q'
      · cases x with
        | inside k =>
          have hk := h.2
          cases q with
          | none => cases k <;> exact hk
          | some q =>
            cases k with
            | test n t => exact Call.later hk (hlater q)
            | killed n t =>
              refine ⟨Call.later hk.1 (hlater q), ?_⟩
              rw [hdata.2.2]
              exact hk.2
            | sleep n t =>
              refine ⟨Call.later hk.1 (hlater q), ?_⟩
              rw [hdata.2.2]
              exact hk.2
            | release r => exact Returns.later hk (hlater q)
            | _ => exact hk
        | _ => exact absurd rfl hx

/-- Whose ticks are not over sleeps; `clockintr` owes a wakeup after `ticks++`. -/
def Waits (d : Data P) : Option P → Unit → Place → Prop
  | some _, _, .test n t => d.ticks - t < n
  | _, _, _ => False

theorem alert : (clock P).Alert (fun d p x => Returned d p ∧ Knows d p x) Waits
    fun k _ => k = .wakeup where
  sleep d p k ch k' h hs := by
    cases p with
    | none => cases k <;> cases hs
    | some p =>
      cases k with
      | sleep n t =>
        obtain rfl : Place.test n t = k' := by simpa [clock, step] using hs
        exact h.2.2
      | _ => cases hs
  keep d p k q ch k' _ h hw := by
    cases p with
    | none =>
      cases k with
      | tick => exact .inr (.inr ⟨.wakeup, rfl, rfl⟩)
      | _ => exact .inl hw
    | some p => cases k <;> exact .inl hw
  pay d p k ch h ho := by
    obtain rfl : k = .wakeup := ho
    cases p with
    | none => exact .inl ⟨.leave, rfl⟩
    | some p => exact h.2.elim
  kill d p q ch k hw := by
    cases p with
    | none => exact hw
    | some p => exact hw

/-- `sys_sleep` returns 0 only when at least `n` ticks went by since it read
`ticks`, and -1 only to a process that was killed. Who sleeps has fewer than
`n` ticks behind it, modulo `2 ^ 32`, but for the moment in which `clockintr`
is about to wake everybody. -/
theorem sys_sleep_sleeps_exactly {s : Monitor.State (Data P) (Option P) Place Unit}
    (h : (clock P).machine.Reachable s) :
    (∀ p, s.data.ret p = some 0 → s.data.asked p ≤ s.data.total - s.data.began p) ∧
      (∀ p r, s.data.ret p = some r → r = 0 ∨ r = -1 ∧ s.data.killed p) ∧
      ∀ p ch k, s.pos (some p) = .asleep ch k →
        (s.data.total - s.data.began p) % 2 ^ 32 < s.data.asked p ∨
          ∃ q, s.lock = some q ∧ s.pos q = .inside .wakeup := by
  obtain ⟨hI, hL⟩ := keeps.reachable h
  refine ⟨fun p hp => ?_, fun p r hp => ?_, fun p ch k hp => ?_⟩
  · rcases (hL (some p)).1 p rfl 0 hp with ⟨-, hs⟩ | ⟨hr, -⟩
    · exact hs
    · cases hr
  · exact ((hL (some p)).1 p rfl r hp).imp_left fun h => h.1
  · have hk := (hL (some p)).2
    rw [hp] at hk
    rcases alert.reachable keeps h (some p) ch k hp with hw | ⟨q, k', hq, hk', rfl⟩
    · cases k with
      | test n t => exact .inl ((Call.sub_lt_iff hk hI).1 hw)
      | _ => exact hw.elim
    · exact .inr ⟨q, hq, hk'⟩

/-- Process `true` sleeps for one tick; `false` is killed before it sleeps. -/
def oneTick : List (Monitor.Event (Option Bool) Place) :=
  [.call (some true) (.start 1), .go (some true), .go (some true), .go (some true),
    .go (some true), .go (some true), .call none .tick, .go none, .go none, .go none, .go none,
    .go (some true), .go (some true), .go (some true), .call (some false) (.start 5),
    .kill (some false), .go (some false), .go (some false), .go (some false), .go (some false),
    .go (some false)]

def initial : Monitor.State (Data Bool) (Option Bool) Place Unit :=
  ⟨⟨0, fun _ => false, fun _ => none, 0, fun _ => 0, fun _ => 0⟩, none, fun _ => .out⟩

theorem sys_sleep_sleeps_exactly_oneTick :
    ∃ s, (clock Bool).machine.exec initial oneTick = some s ∧ s.data.ret true = some 0 ∧
      s.data.ret false = some (-1) ∧
      ∀ p, s.data.ret p = some 0 → s.data.asked p ≤ s.data.total - s.data.began p := by
  have hr : (clock Bool).machine.Reachable
      (((clock Bool).machine.exec initial oneTick).get rfl) :=
    ⟨initial, oneTick, ⟨⟨rfl, rfl, fun _ => rfl⟩, rfl, fun _ => rfl⟩, (Option.some_get _).symm⟩
  exact ⟨_, (Option.some_get rfl).symm, rfl, rfl, (sys_sleep_sleeps_exactly hr).1⟩

end Xv6.SysSleep
