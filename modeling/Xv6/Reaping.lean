/-
No exit is lost: every process that has exited is a zombie in its slot until
one call of `wait`, by its parent, has returned its pid and status.
-/
import Xv6.ExitWait

namespace Xv6.ExitWait

open Conc

variable {n : Nat} {initproc p q r r' : Fin n} {s s' : Kernel n}

/-- After `acquire(&wait_lock)` in `exit`. -/
def PC.exiting : PC n → Bool
  | .reparent .. | .reparentWakeup .. | .exitWakeup .. => true
  | _ => false

namespace Kernel

/-- Asleep in `wait`. -/
def Waiting (s : Kernel n) (p : Fin n) : Prop := s.state p = .SLEEPING ∧ s.pc p = .waitTidy

/-- The processes that have exited. -/
def Exited (s : Kernel n) (x : Process n) : Prop := ∃ e ∈ s.exits, e.process = x

/-- The children that calls of `wait` have returned. -/
def Reaped (s : Kernel n) (x : Process n) : Prop := ∃ r ∈ s.reaps, r.child = x

/-- A process that has exited is a zombie still. -/
def Unreaped (s : Kernel n) (e : Exit n) : Prop :=
  e.process.2 = s.born e.process.1 ∧ s.state e.process.1 = .ZOMBIE ∧ s.pid e.process.1 = e.pid ∧
    s.xstate e.process.1 = e.status

/-- Whose children a process that exits may still have. -/
def Handed (s : Kernel n) (p : Fin n) : PC n → Prop
  | .reparent _ i => ∀ q, s.parent q = some p → i ≤ q
  | .reparentWakeup _ pp _ => ∀ q, s.parent q = some p → pp < q
  | .exitWakeup .. => ∀ q, s.parent q ≠ some p
  | _ => True

/-- What a process that holds `wait_lock` has found out. -/
def Checked (s : Kernel n) (p : Fin n) : PC n → Prop
  | .exitWakeup _ chan i =>
    chan = (s.parent p).map .proc ∧ ∀ r, s.parent p = some r → r.val < i → ¬ s.Waiting r
  | .wait _ i => ∀ q, s.parent q = some p → q.val < i → s.state q ≠ .ZOMBIE
  | .waitKilled | .waitSleep => ∀ q, s.parent q = some p → s.state q ≠ .ZOMBIE
  | _ => True

/-- The child that a call of `fork` is making. -/
def Forking (s : Kernel n) (p : Fin n) : PC n → Prop
  | .forkParent q => s.state q = .USED ∧ s.parent q = none ∧ s.forker q = s.process p
  | .forkPublish q => s.state q = .USED ∧ s.parent q = some p ∧ s.forker q = s.process p
  | _ => True

end Kernel

/-- Where the processes are. -/
structure Places (initproc : Fin n) (s : Kernel n) : Prop where
  holds : ∀ p, s.waitLock = some p ↔ (s.pc p).holds
  live : ∀ p, (s.state p).live ↔ s.pc p ≠ .dead
  asleep : ∀ p, s.state p = .SLEEPING →
    s.pc p = .waitTidy ∧ s.chan p = some (.proc p) ∨ s.pc p = .doze ∧ s.chan p = some .other
  init : s.pc initproc ≠ .dead ∧ ¬ (s.pc initproc).exiting
  forking : ∀ p, s.Forking p (s.pc p)

/-- Whose child each process is. -/
structure Family (initproc : Fin n) (s : Kernel n) : Prop where
  init : s.parent initproc = none
  unused : ∀ q, s.state q = .UNUSED → s.parent q = none
  parent : ∀ q r, s.parent q = some r → s.pc r ≠ .dead
  orphan : ∀ q, s.parent q = none → s.state q = .UNUSED ∨ s.state q = .USED ∨ q = initproc
  handed : ∀ p, s.Handed p (s.pc p)
  lineage : ∀ q r, s.parent q = some r → s.forker q = s.process r ∨
    r = initproc ∧ (s.Exited (s.forker q) ∨ ∃ e, s.forker q = s.process e ∧ (s.pc e).exiting)

/-- No exit notification is lost. -/
structure Notified (initproc : Fin n) (s : Kernel n) : Prop where
  checked : ∀ p, s.Checked p (s.pc p)
  /-- The zombie whose new parent `reparent` has not woken yet is the only one
  that may have a parent asleep. -/
  zombie : ∀ q r, s.state q = .ZOMBIE → s.parent q = some r → s.Waiting r →
    r = initproc ∧ ∃ p st i, s.pc p = .reparentWakeup st q i ∧ i ≤ r

/-- What has become of the processes that exited. -/
structure History (initproc : Fin n) (s : Kernel n) : Prop where
  exits : ∀ e ∈ s.exits, s.Unreaped e ∨ s.Reaped e.process
  zombie : ∀ q, s.state q = .ZOMBIE → ⟨s.process q, s.pid q, s.xstate q⟩ ∈ s.exits
  past : ∀ r ∈ s.reaps, r.child.2 < s.born r.child.1 ∨
    r.child.2 = s.born r.child.1 ∧ s.state r.child.1 = .UNUSED
  once : (s.reaps.map (·.child)).Nodup
  reaps : ∀ r ∈ s.reaps, ⟨r.child, r.pid, r.status⟩ ∈ s.exits ∧
    (r.waiter = r.forker ∨ r.waiter.1 = initproc ∧ s.Exited r.forker)

structure Inv (initproc : Fin n) (s : Kernel n) : Prop where
  places : Places initproc s
  family : Family initproc s
  notified : Notified initproc s
  history : History initproc s

/-! ## Steps that leave the families alone -/

/-- What is found out stays true while no process becomes a zombie or falls
asleep in `wait`. -/
theorem Kernel.Checked.mono {k : PC n} (h : s.Checked p k) (hp : s'.parent = s.parent)
    (hz : ∀ q, s'.state q = .ZOMBIE → s.state q = .ZOMBIE) (hw : ∀ q, s'.Waiting q → s.Waiting q) :
    s'.Checked p k := by
  cases k with
  | exitWakeup st c i =>
    rw [Kernel.Checked, hp]
    exact ⟨h.1, fun r hr hi hw' => h.2 r hr hi (hw r hw')⟩
  | wait st i =>
    rw [Kernel.Checked, hp]
    exact fun q hq hi hs => h q hq hi (hz q hs)
  | waitKilled | waitSleep =>
    rw [Kernel.Checked, hp]
    exact fun q hq hs => h q hq (hz q hs)
  | _ => trivial

/-- What most steps leave alone: processes go on running, or stop, somewhere
else in the code. -/
structure Calm (s s' : Kernel n) : Prop where
  parent : s'.parent = s.parent
  forker : s'.forker = s.forker
  born : s'.born = s.born
  exits : s'.exits = s.exits
  reaps : s'.reaps = s.reaps
  status : ∀ q, s.state q = .ZOMBIE → s'.pid q = s.pid q ∧ s'.xstate q = s.xstate q
  state : ∀ q, s'.state q = s.state q ∨ (s.state q).live ∧ (s'.state q).live

namespace Calm

/-- No process leaves or takes a state in which it cannot run. -/
theorem state_iff (hc : Calm s s') {st : ProcState} (h : st.live = false) :
    s'.state q = st ↔ s.state q = st := by
  rcases hc.state q with he | ⟨h₁, h₂⟩
  · rw [he]
  · constructor <;> rintro rfl <;> simp_all

theorem unused (hc : Calm s s') : s'.state q = .UNUSED ↔ s.state q = .UNUSED := hc.state_iff rfl

theorem used (hc : Calm s s') : s'.state q = .USED ↔ s.state q = .USED := hc.state_iff rfl

theorem zombie (hc : Calm s s') : s'.state q = .ZOMBIE ↔ s.state q = .ZOMBIE := hc.state_iff rfl

theorem process (hc : Calm s s') (q : Fin n) : s'.process q = s.process q := by
  rw [Kernel.process, hc.born]
  rfl

theorem exited (hc : Calm s s') (x : Process n) : s'.Exited x ↔ s.Exited x := by
  rw [Kernel.Exited, hc.exits]
  rfl

theorem forking (hc : Calm s s') {k : PC n} : s'.Forking p k ↔ s.Forking p k := by
  cases k <;> simp only [Kernel.Forking, hc.used, hc.parent, hc.forker, hc.process]

theorem handed (hc : Calm s s') {k : PC n} : s'.Handed p k ↔ s.Handed p k := by
  cases k <;> simp only [Kernel.Handed, hc.parent]

end Calm


/-- Process `p` goes on to another place. -/
theorem Family.calm (h : Family initproc s) (hc : Calm s s') (hpc : ∀ q, q ≠ p → s'.pc q = s.pc q)
    (hd : s'.pc p ≠ .dead) (hx : (s.pc p).exiting → (s'.pc p).exiting)
    (hh : s.Handed p (s'.pc p)) : Family initproc s' where
  init := by rw [hc.parent, h.init]
  unused q hq := by
    rw [hc.parent]
    exact h.unused q (hc.unused.1 hq)
  parent q r hr := by
    by_cases hp : r = p
    · rw [hp]
      exact hd
    · rw [hpc r hp]
      exact h.parent q r (hc.parent ▸ hr)
  orphan q hq := by
    rw [hc.unused, hc.used]
    exact h.orphan q (hc.parent ▸ hq)
  handed q := by
    rw [hc.handed]
    by_cases hq : q = p
    · rw [hq]
      exact hh
    · rw [hpc q hq]
      exact h.handed q
  lineage q r hr := by
    rw [hc.forker, hc.process, hc.exited]
    refine (h.lineage q r (hc.parent ▸ hr)).imp_right fun ⟨hi, he⟩ => ⟨hi, he.imp_right ?_⟩
    rintro ⟨e, he, hpe⟩
    refine ⟨e, by rw [hc.process, he], ?_⟩
    by_cases hep : e = p
    · rw [hep] at hpe ⊢
      exact hx hpe
    · rw [hpc e hep]
      exact hpe

theorem History.calm (h : History initproc s) (hc : Calm s s') : History initproc s' where
  exits e he := by
    rcases h.exits e (hc.exits ▸ he) with ⟨hb, hz, hp, hx⟩ | hr
    · obtain ⟨hp', hx'⟩ := hc.status _ hz
      exact .inl ⟨hc.born ▸ hb, hc.zombie.2 hz, hp'.trans hp, hx'.trans hx⟩
    · exact .inr (by rw [Kernel.Reaped, hc.reaps]; exact hr)
  zombie q hq := by
    have hz := hc.zombie.1 hq
    rw [hc.process, (hc.status q hz).1, (hc.status q hz).2, hc.exits]
    exact h.zombie q hz
  past r hr := by
    rw [hc.born, hc.unused]
    exact h.past r (hc.reaps ▸ hr)
  once := hc.reaps ▸ h.once
  reaps r hr := by
    rw [hc.exits, hc.exited]
    exact h.reaps r (hc.reaps ▸ hr)

/-- Process `p` goes on to another place, and none falls asleep in `wait`. -/
theorem Notified.calm (h : Notified initproc s) (hc : Calm s s')
    (hpc : ∀ q, q ≠ p → s'.pc q = s.pc q) (hw : ∀ q, s'.Waiting q → s.Waiting q)
    (hp : ∀ st pp i, s.pc p = .reparentWakeup st pp i → n ≤ i) (hk : s'.Checked p (s'.pc p)) :
    Notified initproc s' := by
  refine ⟨fun q => ?_, fun q r hs hr hw' => ?_⟩
  · by_cases hq : q = p
    · rw [hq]
      exact hk
    · rw [hpc q hq]
      exact (h.checked q).mono hc.parent (fun _ => hc.zombie.1) hw
  · obtain ⟨hr', e, st, i, he, hi⟩ :=
      h.zombie q r (hc.zombie.1 hs) (hc.parent ▸ hr) (hw r hw')
    have hep : e ≠ p := by
      rintro rfl
      exact absurd (hp _ _ _ he) (by omega)
    exact ⟨hr', e, st, i, (hpc e hep).trans he, hi⟩

theorem checked_of_free {k : PC n} (h : k.holds = false) : s.Checked p k := by
  cases k <;> trivial

theorem goto_of_ne {k : PC n} (h : q ≠ p) : (s.goto p k).pc q = s.pc q := by simp [Kernel.goto, h]

@[simp] theorem goto_self {k : PC n} : (s.goto p k).pc p = k := by simp [Kernel.goto]

theorem handed_of_free {k : PC n} (h : k.holds = false) : s.Handed p k := by
  cases k <;> trivial

/-- Process `p` goes to `k`, and `lock` says who holds `wait_lock` then. -/
theorem Places.move {lock : Option (Fin n)} {k : PC n} (h : Places initproc s)
    (hr : s.state p = .RUNNING) (hp : lock = some p ↔ k.holds)
    (ho : ∀ q, q ≠ p → (lock = some q ↔ s.waitLock = some q)) (hk : k ≠ .dead)
    (hx : k.exiting → p ≠ initproc) (hf : s.Forking p k) :
    Places initproc ({ s with waitLock := lock }.goto p k) := by
  refine ⟨fun q => ?_, fun q => ?_, fun q hq => ?_, ?_, fun q => ?_⟩
  · by_cases hq : q = p
    · subst hq
      simpa [Kernel.goto] using hp
    · simpa [Kernel.goto, hq] using (ho q hq).trans (h.holds q)
  · by_cases hq : q = p
    · subst hq
      simp [Kernel.goto, hr, hk, ProcState.live]
    · simpa [Kernel.goto, hq] using h.live q
  · have hqp : q ≠ p := by
      rintro rfl
      rw [show s.state q = .SLEEPING from hq] at hr
      cases hr
    simpa [Kernel.goto, hqp] using h.asleep q hq
  · by_cases hq : initproc = p
    · subst hq
      simpa [Kernel.goto, hk] using hx
    · simpa [Kernel.goto, hq] using h.init
  · by_cases hq : q = p
    · subst hq
      rw [goto_self]
      exact hf
    · rw [goto_of_ne hq]
      exact h.forking q

theorem Calm.goto {lock : Option (Fin n)} {k : PC n} :
    Calm s ({ s with waitLock := lock }.goto p k) where
  parent := rfl
  forker := rfl
  born := rfl
  exits := rfl
  reaps := rfl
  status _ _ := ⟨rfl, rfl⟩
  state _ := .inl rfl

/-- A process that runs does not become a waiting one by going on. -/
theorem waiting_goto {lock : Option (Fin n)} {k : PC n} (hr : s.state p = .RUNNING)
    (h : Kernel.Waiting ({ s with waitLock := lock }.goto p k) q) : s.Waiting q := by
  have hq : q ≠ p := by
    rintro rfl
    exact nomatch hr.symm.trans h.1
  exact ⟨h.1, (goto_of_ne hq).symm.trans h.2⟩

theorem Inv.move {lock : Option (Fin n)} {k : PC n} (h : Inv initproc s)
    (hr : s.state p = .RUNNING) (hp : lock = some p ↔ k.holds)
    (ho : ∀ q, q ≠ p → (lock = some q ↔ s.waitLock = some q)) (hk : k ≠ .dead)
    (hi : k.exiting → p ≠ initproc) (hf : s.Forking p k) (hx : (s.pc p).exiting → k.exiting)
    (hh : s.Handed p k) (hw : ∀ st pp i, s.pc p = .reparentWakeup st pp i → n ≤ i)
    (hc : s.Checked p k) : Inv initproc ({ s with waitLock := lock }.goto p k) where
  places := h.places.move hr hp ho hk hi hf
  family := h.family.calm .goto (fun q hq => goto_of_ne hq) (by simpa using hk) (by simpa using hx)
    (by simpa using hh)
  notified := h.notified.calm .goto (fun q hq => goto_of_ne hq) (fun q => waiting_goto hr) hw
    (by
      rw [goto_self]
      exact hc.mono rfl (fun _ hz => hz) fun q => waiting_goto hr)
  history := h.history.calm .goto

/-- `Inv.move` for a process that is not in `exit`. -/
theorem Inv.goto {k : PC n} (h : Inv initproc s) (hr : s.state p = .RUNNING)
    (hx : (s.pc p).exiting = false) (hx' : k.exiting = false) (hp : (s.pc p).holds = k.holds)
    (hk : k ≠ .dead) (hf : s.Forking p k) (hc : s.Checked p k) : Inv initproc (s.goto p k) := by
  show Inv initproc ({ s with waitLock := s.waitLock }.goto p k)
  refine h.move hr ((h.places.holds p).trans (by rw [hp])) (fun _ _ => .rfl) hk
    (by simp [hx']) hf (by simp [hx]) ?_ (fun st pp i he => by simp [he, PC.exiting] at hx) hc
  cases k <;> trivial

/-- What the invariant does not look at. -/
theorem Inv.tidy {chan : Fin n → Option (Chan n)} {killed : Fin n → Bool} {nextpid : Int}
    (h : Inv initproc s) (hc : ∀ q, s.state q = .SLEEPING → chan q = s.chan q) :
    Inv initproc { s with chan := chan, killed := killed, nextpid := nextpid } where
  places := ⟨h.places.holds, h.places.live, fun q hq => by
      simpa only [hc q hq] using h.places.asleep q hq, h.places.init, h.places.forking⟩
  family := ⟨h.family.init, h.family.unused, h.family.parent, h.family.orphan, h.family.handed,
    h.family.lineage⟩
  notified := ⟨h.notified.checked, h.notified.zombie⟩
  history := ⟨h.history.exits, h.history.zombie, h.history.past, h.history.once, h.history.reaps⟩

/-- The channel of a process that runs. -/
theorem Inv.chan {c : Option (Chan n)} (h : Inv initproc s) (hr : s.state p = .RUNNING) :
    Inv initproc { s with chan := Function.update s.chan p c } := by
  refine h.tidy fun q hq => ?_
  have hqp : q ≠ p := by
    rintro rfl
    exact nomatch hr.symm.trans hq
  simp [hqp]

theorem setState_of_ne {st : ProcState} (h : q ≠ p) : (s.setState p st).state q = s.state q := by
  simp [Kernel.setState, h]

@[simp] theorem setState_self {st : ProcState} : (s.setState p st).state p = st := by
  simp [Kernel.setState]

/-- A process is picked or put back, wakes, or falls asleep elsewhere. -/
theorem Inv.setState {st : ProcState} (h : Inv initproc s) (hl : (s.state p).live)
    (hst : st.live) (ha : st = .SLEEPING → s.pc p = .doze ∧ s.chan p = some .other) :
    Inv initproc (s.setState p st) := by
  have hc : Calm s (s.setState p st) := by
    refine ⟨rfl, rfl, rfl, rfl, rfl, fun _ _ => ⟨rfl, rfl⟩, fun q => ?_⟩
    by_cases hq : q = p
    · subst hq
      exact .inr ⟨hl, by simpa using hst⟩
    · exact .inl (setState_of_ne hq)
  have hw : ∀ q, (s.setState p st).Waiting q → s.Waiting q := fun q hq => by
    by_cases hqp : q = p
    · subst hqp
      have hd := (ha (setState_self.symm.trans hq.1)).1
      exact nomatch hd.symm.trans hq.2
    · exact ⟨(setState_of_ne hqp).symm.trans hq.1, hq.2⟩
  refine ⟨⟨h.places.holds, fun q => ?_, fun q hq => ?_, h.places.init, fun q => ?_⟩,
    ⟨h.family.init, fun q hq => ?_, h.family.parent, fun q hq => ?_, h.family.handed,
      h.family.lineage⟩,
    ⟨fun q => ?_, fun q r hs hr hwait => ?_⟩, h.history.calm hc⟩
  · refine Iff.trans ?_ (h.places.live q)
    by_cases hq : q = p
    · subst hq
      simp [hst, hl]
    · rw [setState_of_ne hq]
  · by_cases hqp : q = p
    · subst hqp
      exact .inr (ha (setState_self.symm.trans hq))
    · exact h.places.asleep q ((setState_of_ne hqp).symm.trans hq)
  · exact hc.forking.2 (h.places.forking q)
  · exact h.family.unused q (hc.unused.1 hq)
  · rw [hc.unused, hc.used]
    exact h.family.orphan q hq
  · exact (h.notified.checked q).mono rfl (fun _ => hc.zombie.1) hw
  · exact h.notified.zombie q r (hc.zombie.1 hs) hr (hw r hwait)

theorem Inv.wakeup {chan : Option (Chan n)} {i : Fin n} (h : Inv initproc s) :
    Inv initproc (s.wakeup p i chan) := by
  unfold Kernel.wakeup
  split
  next hi => exact h.setState (by rw [hi.2.1]; rfl) rfl nofun
  next => exact h

/-- After `wakeup` has passed a process, that process is not asleep in
`wait`. -/
theorem wakeup_not_waiting (h : Places initproc s) (hr : s.state p = .RUNNING) :
    ¬ (s.wakeup p q (some (.proc q))).Waiting q := by
  unfold Kernel.wakeup
  split
  next => exact fun hw => nomatch setState_self.symm.trans hw.1
  next hn =>
    rintro ⟨hs, hpc⟩
    rcases h.asleep q hs with ⟨-, hc⟩ | ⟨hd, -⟩
    · refine hn ⟨?_, hs, hc⟩
      rintro rfl
      exact nomatch hr.symm.trans hs
    · exact nomatch hpc.symm.trans hd

/-! ## wait -/

theorem Inv.acquireWait (h : Inv initproc s) (hr : s.state p = .RUNNING)
    (hx : (s.pc p).exiting = false) (hs : s.acquire p = some s') :
    Inv initproc (s'.goto p (.wait false 0)) := by
  unfold Kernel.acquire at hs
  split at hs
  next hl =>
    obtain rfl := Option.some.inj hs
    refine h.move hr (by simp [PC.holds]) (fun q hq => ?_) nofun nofun trivial (by simp [hx])
      trivial (fun st pp i he => by simp [he, PC.exiting] at hx)
      (fun q _ hi => absurd hi (by omega))
    simp [hl, Ne.symm hq]
  next => cases hs

/-- `wait` returns without a child. -/
theorem Inv.release (h : Inv initproc s) (hr : s.state p = .RUNNING)
    (hx : (s.pc p).exiting = false) (hp : (s.pc p).holds) :
    Inv initproc (s.release.goto p .user) := by
  have hl := (h.places.holds p).2 hp
  refine h.move hr (by simp [PC.holds]) (fun q hq => ?_) nofun nofun trivial (by simp [hx]) trivial
    (fun st pp i he => by simp [he, PC.exiting] at hx) trivial
  simp [hl, Ne.symm hq]

/-- The loop in `wait` goes on, past a process that is no exited child. -/
theorem wait_next {k k' : Bool} {i : Nat} (h : Inv initproc s) (hr : s.state p = .RUNNING)
    (hp : s.pc p = .wait k i) (hi : ∀ q, s.parent q = some p → q.val = i → s.state q ≠ .ZOMBIE) :
    Inv initproc (s.goto p (.wait k' (i + 1))) := by
  refine h.goto hr (by rw [hp]; rfl) rfl (by rw [hp]; rfl) nofun trivial fun q hq hlt => ?_
  have hc := h.notified.checked p
  rw [hp] at hc
  rcases Nat.lt_succ_iff_lt_or_eq.1 hlt with hlt | heq
  · exact hc q hq hlt
  · exact hi q hq heq

theorem wait_done {k : Bool} {i : Nat} (h : Inv initproc s) (hr : s.state p = .RUNNING)
    (hp : s.pc p = .wait k i) (hi : ¬ i < n) : Inv initproc (s.goto p .waitKilled) := by
  refine h.goto hr (by rw [hp]; rfl) rfl (by rw [hp]; rfl) nofun trivial fun q hq => ?_
  have hc := h.notified.checked p
  rw [hp] at hc
  exact hc q hq (by omega)

/-- While a process holds `wait_lock`, no other does. -/
theorem Places.alone (h : Places initproc s) (hp : (s.pc p).holds) (hq : q ≠ p) :
    (s.pc q).holds = false := by
  by_contra hn
  have hl := ((h.holds p).2 hp).symm.trans ((h.holds q).2 (by simpa using hn))
  exact hq (Option.some.inj hl).symm

theorem holds_of_exiting {k : PC n} (h : k.exiting) : k.holds := by
  cases k <;> first | rfl | exact nomatch h

/-- `sleep` in `wait`: there is no child that is a zombie. -/
theorem Inv.sleep (h : Inv initproc s) (hr : s.state p = .RUNNING) (hp : s.pc p = .waitSleep) :
    Inv initproc (s.sleep p) := by
  have hh : (s.pc p).holds := by rw [hp]; rfl
  have hpc : ∀ q, q ≠ p → (s.sleep p).pc q = s.pc q := fun q hq => goto_of_ne hq
  have hpp : (s.sleep p).pc p = .waitTidy := goto_self
  have hst : ∀ q, q ≠ p → (s.sleep p).state q = s.state q := fun q hq => setState_of_ne hq
  have hsp : (s.sleep p).state p = .SLEEPING := setState_self
  have hc : Calm s (s.sleep p) := by
    refine ⟨rfl, rfl, rfl, rfl, rfl, fun _ _ => ⟨rfl, rfl⟩, fun q => ?_⟩
    by_cases hq : q = p
    · rw [hq, hsp, hr]
      exact .inr ⟨rfl, rfl⟩
    · exact .inl (hst q hq)
  refine ⟨⟨fun q => ?_, fun q => ?_, fun q hq => ?_, ?_, fun q => ?_⟩,
    h.family.calm hc hpc (by rw [hpp]; nofun) (by rw [hp]; nofun) (by rw [hpp]; trivial),
    ⟨fun q => ?_, fun q r hs hpr hw => ?_⟩, h.history.calm hc⟩
  · by_cases hq : q = p
    · rw [hq, hpp]
      exact ⟨nofun, nofun⟩
    · rw [hpc q hq, h.places.alone hh hq]
      exact ⟨nofun, nofun⟩
  · by_cases hq : q = p
    · rw [hq, hpp, hsp]
      exact ⟨nofun, fun _ => rfl⟩
    · rw [hpc q hq, hst q hq]
      exact h.places.live q
  · by_cases hqp : q = p
    · rw [hqp]
      exact .inl ⟨hpp, by simp [Kernel.sleep, Kernel.goto, Kernel.release, Kernel.setState]⟩
    · have hch : (s.sleep p).chan q = s.chan q := by
        simp [Kernel.sleep, Kernel.goto, Kernel.release, Kernel.setState, hqp]
      rw [hpc q hqp, hch]
      exact h.places.asleep q ((hst q hqp).symm.trans hq)
  · by_cases hq : initproc = p
    · rw [hq, hpp]
      exact ⟨nofun, nofun⟩
    · rw [hpc _ hq]
      exact h.places.init
  · by_cases hq : q = p
    · rw [hq, hpp]
      trivial
    · rw [hpc q hq, hc.forking]
      exact h.places.forking q
  · by_cases hq : q = p
    · rw [hq, hpp]
      trivial
    · rw [hpc q hq]
      exact checked_of_free (h.places.alone hh hq)
  · have hz := hc.zombie.1 hs
    by_cases hrp : r = p
    · have hk := h.notified.checked p
      rw [hp] at hk
      exact absurd hz (hk q (hrp ▸ hpr))
    · obtain ⟨-, e, st, i, he, -⟩ := h.notified.zombie q r hz hpr
        ⟨(hst r hrp).symm.trans hw.1, (hpc r hrp).symm.trans hw.2⟩
      have hep : e ≠ p := by
        rintro rfl
        exact nomatch hp.symm.trans he
      exact nomatch (h.places.alone hh hep).symm.trans (by rw [he]; rfl : (s.pc e).holds = true)

/-- When no process holds `wait_lock`, there is nothing found out. -/
theorem Notified.unlocked (h : ∀ q, (s.pc q).holds = false)
    (hz : ∀ q r, s.state q = .ZOMBIE → s.parent q = some r → ¬ s.Waiting r) :
    Notified initproc s :=
  ⟨fun q => checked_of_free (h q), fun q r hs hr hw => absurd hw (hz q r hs hr)⟩

/-- While the process that holds `wait_lock` is not in `wakeup(initproc)`, no
zombie's parent is asleep in `wait`. -/
theorem Inv.told (h : Inv initproc s) (hh : (s.pc p).holds)
    (hp : ∀ st pp i, s.pc p ≠ .reparentWakeup st pp i) (hz : s.state q = .ZOMBIE)
    (hr : s.parent q = some r) : ¬ s.Waiting r := by
  intro hw
  obtain ⟨-, e, st, i, he, -⟩ := h.notified.zombie q r hz hr hw
  have hep : e ≠ p := by
    rintro rfl
    exact hp _ _ _ he
  have hf := h.places.alone hh hep
  rw [he] at hf
  exact nomatch hf

theorem Inv.kill {i : Fin n} (h : Inv initproc s) : Inv initproc (s.kill i) := by
  have h₁ : Inv initproc { s with killed := Function.update s.killed i true } :=
    h.tidy fun _ _ => rfl
  unfold Kernel.kill
  dsimp only
  split
  next hi => exact h₁.setState (by rw [show s.state i = .SLEEPING from hi]; rfl) rfl nofun
  next => exact h₁

theorem kill_goto {i : Fin n} {k : PC n} : (s.kill i).goto p k = (s.goto p k).kill i := by
  unfold Kernel.kill
  dsimp only
  split
  next hi => rw [if_pos (show (s.goto p k).state i = .SLEEPING from hi)]; rfl
  next hi => rw [if_neg (show ¬ (s.goto p k).state i = .SLEEPING from hi)]; rfl

/-! ### A child that has exited -/

section

variable {k : Bool} {i : Nat}

theorem reap_pc_of_ne (h : r ≠ p) : (s.reap p q).pc r = s.pc r := goto_of_ne h

theorem reap_pc : (s.reap p q).pc p = .user := goto_self

theorem reap_state_of_ne (h : r ≠ q) : (s.reap p q).state r = s.state r := setState_of_ne h

theorem reap_state : (s.reap p q).state q = .UNUSED := setState_self

theorem reap_parent (h : (s.reap p q).parent r = some r') : r ≠ q ∧ s.parent r = some r' := by
  have hr : (s.reap p q).parent r = Function.update s.parent q none r := rfl
  by_cases hq : r = q <;> simp_all

theorem Places.reap (h : Places initproc s) (hr : s.state p = .RUNNING) (hp : s.pc p = .wait k i)
    (hz : s.state q = .ZOMBIE) : Places initproc (s.reap p q) := by
  have hh : (s.pc p).holds := by rw [hp]; rfl
  have hpq : p ≠ q := by
    rintro rfl
    exact nomatch hr.symm.trans hz
  refine ⟨fun u => ?_, fun u => ?_, fun u hu => ?_, ?_, fun u => ?_⟩
  · by_cases hu : u = p
    · rw [hu, reap_pc]
      exact ⟨nofun, nofun⟩
    · rw [reap_pc_of_ne hu, h.alone hh hu]
      exact ⟨nofun, nofun⟩
  · by_cases hu : u = p
    · rw [hu, reap_pc, reap_state_of_ne hpq, hr]
      exact ⟨nofun, fun _ => rfl⟩
    · rw [reap_pc_of_ne hu, ← h.live u]
      by_cases huq : u = q
      · rw [huq, reap_state, hz]
        exact .rfl
      · rw [reap_state_of_ne huq]
  · have huq : u ≠ q := by
      rintro rfl
      exact nomatch reap_state.symm.trans hu
    have hup : u ≠ p := by
      rintro rfl
      exact nomatch (hr.symm.trans (reap_state_of_ne huq).symm).trans hu
    have hch : (s.reap p q).chan u = s.chan u := Function.update_of_ne huq ..
    rw [reap_pc_of_ne hup, hch]
    exact h.asleep u ((reap_state_of_ne huq).symm.trans hu)
  · by_cases hu : initproc = p
    · rw [hu, reap_pc]
      exact ⟨nofun, nofun⟩
    · rw [reap_pc_of_ne hu]
      exact h.init
  · by_cases hu : u = p
    · rw [hu, reap_pc]
      trivial
    · rw [reap_pc_of_ne hu]
      have hf := h.forking u
      have hne : ∀ {np}, s.state np = .USED → np ≠ q := fun hs he => nomatch (he ▸ hs).symm.trans hz
      cases hk : s.pc u with
      | forkParent np | forkPublish np =>
        rw [hk] at hf
        have hnp := hne hf.1
        exact ⟨(reap_state_of_ne hnp).trans hf.1, (Function.update_of_ne hnp ..).trans hf.2.1,
          hf.2.2⟩
      | _ => trivial

theorem Family.reap (h : Family initproc s) (hp : s.pc p = .wait k i)
    (hq : s.parent q = some p) : Family initproc (s.reap p q) := by
  refine ⟨?_, fun u hu => ?_, fun u r hr => ?_, fun u hu => ?_, fun u => ?_, fun u r hr => ?_⟩
  · have hne : initproc ≠ q := by
      rintro rfl
      exact nomatch h.init.symm.trans hq
    exact (Function.update_of_ne hne ..).trans h.init
  · by_cases huq : u = q
    · rw [huq]
      exact Function.update_self ..
    · exact (Function.update_of_ne huq ..).trans
        (h.unused u ((reap_state_of_ne huq).symm.trans hu))
  · by_cases hrp : r = p
    · rw [hrp, reap_pc]
      nofun
    · rw [reap_pc_of_ne hrp]
      exact h.parent u r (reap_parent hr).2
  · by_cases huq : u = q
    · exact .inl (by rw [huq, reap_state])
    · rw [reap_state_of_ne huq]
      exact h.orphan u ((Function.update_of_ne huq ..).symm.trans hu)
  · by_cases hu : u = p
    · rw [hu, reap_pc]
      trivial
    · rw [reap_pc_of_ne hu]
      have hf := h.handed u
      cases hk : s.pc u with
      | reparent | reparentWakeup =>
        rw [hk] at hf
        exact fun w hw => hf w (reap_parent hw).2
      | exitWakeup =>
        rw [hk] at hf
        exact fun w hw => hf w (reap_parent hw).2
      | _ => trivial
  · refine (h.lineage u r (reap_parent hr).2).imp_right fun ⟨hi, he⟩ => ⟨hi, he.imp_right ?_⟩
    rintro ⟨e, he, hpe⟩
    refine ⟨e, he, ?_⟩
    have hep : e ≠ p := by
      rintro rfl
      rw [hp] at hpe
      exact nomatch hpe
    rw [reap_pc_of_ne hep]
    exact hpe

theorem History.reap (h : Inv initproc s) (hp : s.pc p = .wait k i) (hq : s.parent q = some p)
    (hz : s.state q = .ZOMBIE) : History initproc (s.reap p q) := by
  have hh : (s.pc p).holds := by rw [hp]; rfl
  have hnew : s.process q ∉ s.reaps.map (·.child) := fun hm => by
    obtain ⟨r, hr, hc⟩ := List.mem_map.1 hm
    rcases h.history.past r hr with hlt | ⟨-, hu⟩
    · rw [hc] at hlt
      exact absurd hlt (Nat.lt_irrefl _)
    · rw [hc] at hu
      exact nomatch hz.symm.trans hu
  refine ⟨fun e he => ?_, fun u hu => ?_, fun r hr => ?_, ?_, fun r hr => ?_⟩
  · rcases h.history.exits e he with ⟨hb, hs, hpid, hx⟩ | ⟨r, hr, hc⟩
    · by_cases heq : e.process.1 = q
      · refine .inr ⟨_, List.mem_cons_self .., ?_⟩
        exact Prod.ext heq.symm (by rw [hb, heq]; rfl)
      · exact .inl ⟨hb, (reap_state_of_ne heq).trans hs, (Function.update_of_ne heq ..).trans hpid,
          (Function.update_of_ne heq ..).trans hx⟩
    · exact .inr ⟨r, List.mem_cons_of_mem _ hr, hc⟩
  · have huq : u ≠ q := by
      rintro rfl
      exact nomatch reap_state.symm.trans hu
    have hpid : (s.reap p q).pid u = s.pid u := Function.update_of_ne huq ..
    have hx : (s.reap p q).xstate u = s.xstate u := Function.update_of_ne huq ..
    rw [hpid, hx]
    exact h.history.zombie u ((reap_state_of_ne huq).symm.trans hu)
  · rcases List.mem_cons.1 hr with rfl | hr
    · exact .inr ⟨rfl, reap_state⟩
    · refine (h.history.past r hr).imp_right fun ⟨hb, hu⟩ => ⟨hb, ?_⟩
      by_cases hrq : r.child.1 = q
      · rw [hrq, reap_state]
      · rw [reap_state_of_ne hrq, hu]
  · exact List.nodup_cons.2 ⟨hnew, h.history.once⟩
  · rcases List.mem_cons.1 hr with rfl | hr
    · refine ⟨h.history.zombie q hz, ?_⟩
      rcases h.family.lineage q p hq with he | ⟨hi, he | ⟨e, -, hpe⟩⟩
      · exact .inl he.symm
      · exact .inr ⟨hi, he⟩
      · have hep : e ≠ p := by
          rintro rfl
          rw [hp] at hpe
          exact nomatch hpe
        exact nomatch (h.places.alone hh hep).symm.trans (holds_of_exiting hpe)
    · exact h.history.reaps r hr

theorem Inv.reap (h : Inv initproc s) (hr : s.state p = .RUNNING) (hp : s.pc p = .wait k i)
    (hq : s.parent q = some p) (hz : s.state q = .ZOMBIE) : Inv initproc (s.reap p q) where
  places := h.places.reap hr hp hz
  family := h.family.reap hp hq
  notified := by
    have hh : (s.pc p).holds := by rw [hp]; rfl
    refine .unlocked (fun u => ?_) fun u r hu hpr hw => ?_
    · by_cases hup : u = p
      · rw [hup, reap_pc]
        rfl
      · rw [reap_pc_of_ne hup]
        exact h.places.alone hh hup
    · obtain ⟨huq, hpar⟩ := reap_parent hpr
      have hrp : r ≠ p := by
        rintro rfl
        exact nomatch reap_pc.symm.trans hw.2
      have hrq : r ≠ q := by
        rintro rfl
        exact nomatch reap_state.symm.trans hw.1
      exact h.told hh (by simp [hp]) ((reap_state_of_ne huq).symm.trans hu) hpar
        ⟨(reap_state_of_ne hrq).symm.trans hw.1, (reap_pc_of_ne hrp).symm.trans hw.2⟩
  history := .reap h hp hq hz

end

/-! ## exit -/

section

variable {st : Int} {i : Nat}

theorem Inv.exit (h : Inv initproc s) (hr : s.state p = .RUNNING) (hp : s.pc p = .user)
    (hi : p ≠ initproc) (hs : s.acquire p = some s') :
    Inv initproc (s'.goto p (.reparent st 0)) := by
  unfold Kernel.acquire at hs
  split at hs
  next hl =>
    obtain rfl := Option.some.inj hs
    refine h.move hr (by simp [PC.holds]) (fun q hq => ?_) nofun (fun _ => hi) trivial
      (by simp [hp, PC.exiting]) (fun q _ => Nat.zero_le _) (fun st pp i he => ?_) trivial
    · simp [hl, Ne.symm hq]
    · exact nomatch hp.symm.trans he
  next => cases hs

/-- The exiting process goes on with `k`. -/
theorem Inv.exiting {k : PC n} (h : Inv initproc s) (hr : s.state p = .RUNNING)
    (hp : (s.pc p).exiting) (hk : k.exiting) (hh : s.Handed p k) (hc : s.Checked p k)
    (hw : ∀ st pp i, s.pc p = .reparentWakeup st pp i → n ≤ i) : Inv initproc (s.goto p k) := by
  have hlock := (h.places.holds p).trans
    (iff_of_true (holds_of_exiting hp) (holds_of_exiting hk))
  have hne : p ≠ initproc := by
    rintro rfl
    exact h.places.init.2 hp
  show Inv initproc ({ s with waitLock := s.waitLock }.goto p k)
  refine h.move hr hlock (fun _ _ => .rfl) ?_ (fun _ => hne) ?_ (fun _ => hk) hh hw hc
  · rintro rfl
    exact nomatch hk
  · cases k <;> trivial

theorem reparent_next (h : Inv initproc s) (hr : s.state p = .RUNNING)
    (hp : s.pc p = .reparent st i) (hi : ∀ q, s.parent q = some p → q.val ≠ i) :
    Inv initproc (s.goto p (.reparent st (i + 1))) := by
  refine h.exiting hr (by rw [hp]; rfl) rfl (fun q hq => ?_) trivial (by simp [hp])
  have hh := h.family.handed p
  rw [hp] at hh
  have hle : i ≤ q := hh q hq
  have hne := hi q hq
  omega

theorem reparent_done (h : Inv initproc s) (hr : s.state p = .RUNNING)
    (hp : s.pc p = .reparent st i) (hi : ¬ i < n) :
    Inv initproc (s.goto p (.exitWakeup st ((s.parent p).map .proc) 0)) := by
  refine h.exiting hr (by rw [hp]; rfl) rfl (fun q hq => ?_) ⟨rfl, fun r _ hr => ?_⟩ (by simp [hp])
  · have hh := h.family.handed p
    rw [hp] at hh
    have hle : i ≤ q := hh q hq
    omega
  · exact absurd hr (Nat.not_lt_zero _)

/-- `pp->parent = initproc` -/
theorem Inv.adopt {pp : Fin n} (h : Inv initproc s) (hr : s.state p = .RUNNING)
    (hp : s.pc p = .reparent st pp) (hpp : s.parent pp = some p) :
    Inv initproc ({ s with parent := Function.update s.parent pp (some initproc) }.goto p
      (.reparentWakeup st pp 0)) := by
  have hh : (s.pc p).holds := by rw [hp]; rfl
  have hne : p ≠ initproc := by
    rintro rfl
    exact h.places.init.2 (by rw [hp]; rfl)
  have hppi : initproc ≠ pp := by
    rintro rfl
    exact nomatch h.family.init.symm.trans hpp
  have hpar : ∀ q r, Function.update s.parent pp (some initproc) q = some r →
      q = pp ∧ r = initproc ∨ q ≠ pp ∧ s.parent q = some r := fun q r hq => by
    by_cases hqp : q = pp
    · rw [hqp, Function.update_self] at hq
      exact .inl ⟨hqp, (Option.some.inj hq).symm⟩
    · rw [Function.update_of_ne hqp] at hq
      exact .inr ⟨hqp, hq⟩
  have hpl : Places initproc ({ s with waitLock := s.waitLock }.goto p (.reparentWakeup st pp 0)) :=
    h.places.move hr ((h.places.holds p).trans (iff_of_true hh rfl)) (fun _ _ => .rfl) nofun
      (fun _ => hne) trivial
  refine ⟨⟨hpl.holds, hpl.live, hpl.asleep, hpl.init, fun q => ?_⟩,
    ⟨?_, fun q hq => ?_, fun q r hq => ?_, fun q hq => ?_, fun q => ?_, fun q r hq => ?_⟩,
    ⟨fun q => ?_, fun q r hs hq hw => ?_⟩,
    ⟨h.history.exits, h.history.zombie, h.history.past, h.history.once, h.history.reaps⟩⟩
  · by_cases hqp : q = p
    · rw [hqp, goto_self]
      trivial
    · rw [goto_of_ne hqp]
      have hf := h.places.forking q
      cases hk : s.pc q with
      | forkParent np =>
        rw [hk] at hf
        have hnp : np ≠ pp := by
          rintro rfl
          exact nomatch hf.2.1.symm.trans hpp
        exact ⟨hf.1, (Function.update_of_ne hnp ..).trans hf.2.1, hf.2.2⟩
      | forkPublish np =>
        rw [hk] at hf
        have hnp : np ≠ pp := by
          rintro rfl
          exact hqp (Option.some.inj (hf.2.1.symm.trans hpp))
        exact ⟨hf.1, (Function.update_of_ne hnp ..).trans hf.2.1, hf.2.2⟩
      | _ => trivial
  · exact (Function.update_of_ne hppi ..).trans h.family.init
  · have hqp : q ≠ pp := by
      rintro rfl
      exact nomatch (h.family.unused q hq).symm.trans hpp
    exact (Function.update_of_ne hqp ..).trans (h.family.unused q hq)
  · have hd : r = p ∨ s.pc r ≠ .dead := by
      rcases hpar q r hq with ⟨-, rfl⟩ | ⟨-, hq⟩
      · exact .inr h.places.init.1
      · exact .inr (h.family.parent q r hq)
    by_cases hrp : r = p
    · rw [hrp, goto_self]
      nofun
    · rw [goto_of_ne hrp]
      exact hd.resolve_left hrp
  · by_cases hqp : q = pp
    · rw [hqp] at hq
      exact nomatch (Function.update_self ..).symm.trans hq
    · exact h.family.orphan q ((Function.update_of_ne hqp ..).symm.trans hq)
  · by_cases hqp : q = p
    · rw [hqp, goto_self]
      intro c hc
      have hh := h.family.handed p
      rw [hp] at hh
      rcases hpar c p hc with ⟨-, hpi⟩ | ⟨hcp, hc⟩
      · exact absurd hpi hne
      · exact lt_of_le_of_ne (hh c hc) (Ne.symm hcp)
    · rw [goto_of_ne hqp]
      exact handed_of_free (h.places.alone hh hqp)
  · rcases hpar q r hq with ⟨rfl, rfl⟩ | ⟨-, hq⟩
    · rcases h.family.lineage q p hpp with he | ⟨hi, -⟩
      · exact .inr ⟨rfl, .inr ⟨p, he, by rw [goto_self]; rfl⟩⟩
      · exact absurd hi hne
    · refine (h.family.lineage q r hq).imp_right fun ⟨hi, he⟩ => ⟨hi, he.imp_right ?_⟩
      rintro ⟨e, he, hpe⟩
      refine ⟨e, he, ?_⟩
      by_cases hep : e = p
      · rw [hep, goto_self]
        rfl
      · rw [goto_of_ne hep]
        exact hpe
  · by_cases hqp : q = p
    · rw [hqp, goto_self]
      trivial
    · rw [goto_of_ne hqp]
      exact checked_of_free (h.places.alone hh hqp)
  · have hrp : r ≠ p := by
      rintro rfl
      exact nomatch goto_self.symm.trans hw.2
    rcases hpar q r hq with ⟨rfl, rfl⟩ | ⟨-, hq⟩
    · exact ⟨rfl, p, st, 0, goto_self, Nat.zero_le _⟩
    · exact absurd ⟨hw.1, (goto_of_ne hrp).symm.trans hw.2⟩ (h.told hh (by simp [hp]) hs hq)

theorem wakeup_pc {c : Option (Chan n)} : (s.wakeup p q c).pc = s.pc := by
  unfold Kernel.wakeup
  split <;> rfl

theorem wakeup_parent {c : Option (Chan n)} : (s.wakeup p q c).parent = s.parent := by
  unfold Kernel.wakeup
  split <;> rfl

theorem wakeup_self {c : Option (Chan n)} : (s.wakeup p q c).state p = s.state p := by
  unfold Kernel.wakeup
  split
  next h => exact setState_of_ne (Ne.symm h.1)
  next => rfl

theorem wakeup_waiting {c : Option (Chan n)} (h : (s.wakeup p q c).Waiting r) : s.Waiting r := by
  unfold Kernel.wakeup at h
  split at h
  next hq =>
    have hrq : r ≠ q := by
      rintro rfl
      exact nomatch setState_self.symm.trans h.1
    exact ⟨(setState_of_ne hrq).symm.trans h.1, h.2⟩
  next => exact h

/-- A turn of the loop in `wakeup(initproc)` -/
theorem Inv.reparentWakeup {pp : Fin n} {i : Fin n} (h : Inv initproc s)
    (hr : s.state p = .RUNNING) (hp : s.pc p = .reparentWakeup st pp i) :
    Inv initproc
      ((s.wakeup p i (some (.proc initproc))).goto p (.reparentWakeup st pp (i + 1))) := by
  have hw : Inv initproc (s.wakeup p i (some (.proc initproc))) := h.wakeup
  have hnot : i = initproc → ¬ (s.wakeup p i (some (.proc initproc))).Waiting initproc := by
    rintro rfl
    exact wakeup_not_waiting h.places hr
  have hp' : (s.wakeup p i (some (.proc initproc))).pc p = .reparentWakeup st pp i := by
    rw [wakeup_pc, hp]
  have hr' : (s.wakeup p i (some (.proc initproc))).state p = .RUNNING := wakeup_self.trans hr
  generalize s.wakeup p i (some (.proc initproc)) = s₁ at hw hnot hp' hr'
  have hx : (s₁.pc p).exiting := by rw [hp']; rfl
  have hne : p ≠ initproc := by
    rintro rfl
    exact hw.places.init.2 hx
  have hc : Calm s₁ (s₁.goto p (.reparentWakeup st pp (i + 1))) :=
    .goto
  have hh := hw.family.handed p
  rw [hp'] at hh
  refine ⟨hw.places.move hr' ((hw.places.holds p).trans (iff_of_true (holds_of_exiting hx) rfl))
    (fun _ _ => .rfl) nofun (fun _ => hne) trivial,
    hw.family.calm hc (fun q hq => goto_of_ne hq) (by rw [goto_self]; nofun)
      (fun _ => by rw [goto_self]; rfl) (by rw [goto_self]; exact hh),
    ⟨fun q => ?_, fun q r hs hq hwait => ?_⟩, hw.history.calm hc⟩
  · by_cases hqp : q = p
    · rw [hqp, goto_self]
      trivial
    · rw [goto_of_ne hqp]
      exact checked_of_free (hw.places.alone (holds_of_exiting hx) hqp)
  · have hwr : s₁.Waiting r := waiting_goto hr' hwait
    obtain ⟨rfl, e, st', j, he, hj⟩ := hw.notified.zombie q r hs hq hwr
    by_cases hep : e = p
    · rw [hep, hp'] at he
      injection he with h1 h2 h3
      subst h1 h2 h3
      have hir : i ≠ r := fun hi => hnot hi hwr
      exact ⟨rfl, p, st, i + 1, goto_self, by omega⟩
    · exact ⟨rfl, e, st', j, (goto_of_ne hep).trans he, hj⟩

theorem reparentWakeup_done {pp : Fin n} (h : Inv initproc s) (hr : s.state p = .RUNNING)
    (hp : s.pc p = .reparentWakeup st pp i) (hi : ¬ i < n) :
    Inv initproc (s.goto p (.reparent st (pp + 1))) := by
  refine h.exiting hr (by rw [hp]; rfl) rfl (fun q hq => ?_) trivial fun st' pp' i' he => ?_
  · have hh := h.family.handed p
    rw [hp] at hh
    exact hh q hq
  · rw [hp] at he
    injection he with h1 h2 h3
    omega

/-- A turn of the loop in `wakeup(p->parent)` -/
theorem Inv.exitWakeup {i : Fin n} {c : Option (Chan n)} (h : Inv initproc s)
    (hr : s.state p = .RUNNING) (hp : s.pc p = .exitWakeup st c i) :
    Inv initproc ((s.wakeup p i c).goto p (.exitWakeup st c (i + 1))) := by
  have hh := h.family.handed p
  have hc := h.notified.checked p
  rw [hp] at hh hc
  have hp' : (s.wakeup p i c).pc p = .exitWakeup st c i := by rw [wakeup_pc, hp]
  refine h.wakeup.exiting (wakeup_self.trans hr) (by rw [hp']; rfl) rfl ?_ ⟨?_, fun r hpr hri => ?_⟩
    (by simp [hp'])
  · rw [Kernel.Handed, wakeup_parent]
    exact hh
  · rw [wakeup_parent]
    exact hc.1
  · rw [wakeup_parent] at hpr
    by_cases hir : r = i
    · rw [hc.1, hpr, hir]
      exact wakeup_not_waiting h.places hr
    · have hlt : r.val < i := by omega
      exact fun hw => hc.2 r hpr hlt (wakeup_waiting hw)

theorem zombie_pc_of_ne (h : q ≠ p) : (s.zombie p st).pc q = s.pc q := goto_of_ne h

theorem zombie_pc : (s.zombie p st).pc p = .dead := goto_self

theorem zombie_state_of_ne (h : q ≠ p) : (s.zombie p st).state q = s.state q := setState_of_ne h

theorem zombie_state : (s.zombie p st).state p = .ZOMBIE := setState_self

theorem zombie_exited {x : Process n} (h : s.Exited x) : (s.zombie p st).Exited x := by
  obtain ⟨e, he, hx⟩ := h
  exact ⟨e, List.mem_cons_of_mem _ he, hx⟩

theorem zombie_exited_self : (s.zombie p st).Exited (s.process p) :=
  ⟨_, List.mem_cons_self .., rfl⟩

section

variable {c : Option (Chan n)}

theorem Places.ended (h : Places initproc s) (hr : s.state p = .RUNNING)
    (hp : s.pc p = .exitWakeup st c i) : Places initproc (s.zombie p st) := by
  have hh : (s.pc p).holds := by rw [hp]; rfl
  refine ⟨fun q => ?_, fun q => ?_, fun q hq => ?_, ?_, fun q => ?_⟩
  · by_cases hq : q = p
    · rw [hq, zombie_pc]
      exact ⟨nofun, nofun⟩
    · rw [zombie_pc_of_ne hq, h.alone hh hq]
      exact ⟨nofun, nofun⟩
  · by_cases hq : q = p
    · rw [hq, zombie_pc, zombie_state]
      exact ⟨nofun, fun hn => absurd rfl hn⟩
    · rw [zombie_pc_of_ne hq, zombie_state_of_ne hq]
      exact h.live q
  · have hqp : q ≠ p := by
      rintro rfl
      exact nomatch zombie_state.symm.trans hq
    rw [zombie_pc_of_ne hqp]
    exact h.asleep q ((zombie_state_of_ne hqp).symm.trans hq)
  · have hne : initproc ≠ p := by
      rintro rfl
      exact h.init.2 (by rw [hp]; rfl)
    rw [zombie_pc_of_ne hne]
    exact h.init
  · by_cases hq : q = p
    · rw [hq, zombie_pc]
      trivial
    · rw [zombie_pc_of_ne hq]
      have hf := h.forking q
      have hne : ∀ {np}, s.state np = .USED → np ≠ p := fun hs he =>
        nomatch (he ▸ hs).symm.trans hr
      cases hk : s.pc q with
      | forkParent np | forkPublish np =>
        rw [hk] at hf
        exact ⟨(zombie_state_of_ne (hne hf.1)).trans hf.1, hf.2⟩
      | _ => trivial

theorem Family.ended (h : Family initproc s) (hr : s.state p = .RUNNING) (hne : p ≠ initproc)
    (hp : s.pc p = .exitWakeup st c i) (halone : ∀ q, q ≠ p → (s.pc q).holds = false) :
    Family initproc (s.zombie p st) := by
  have hh := h.handed p
  rw [hp] at hh
  refine ⟨h.init, fun q hq => ?_, fun q r hr => ?_, fun q hq => ?_, fun q => ?_, fun q r hr => ?_⟩
  · have hqp : q ≠ p := by
      rintro rfl
      exact nomatch zombie_state.symm.trans hq
    exact h.unused q ((zombie_state_of_ne hqp).symm.trans hq)
  · have hrp : r ≠ p := by
      rintro rfl
      exact hh q hr
    rw [zombie_pc_of_ne hrp]
    exact h.parent q r hr
  · have ho := h.orphan q hq
    have hqp : q ≠ p := by
      rintro rfl
      simp [hr, hne] at ho
    rw [zombie_state_of_ne hqp]
    exact ho
  · by_cases hq : q = p
    · rw [hq, zombie_pc]
      trivial
    · rw [zombie_pc_of_ne hq]
      exact handed_of_free (halone q hq)
  · refine (h.lineage q r hr).imp_right fun ⟨hi, he⟩ => ⟨hi, .inl ?_⟩
    rcases he with he | ⟨e, he, hpe⟩
    · exact zombie_exited he
    · have hep : e = p := by
        by_contra hep
        exact nomatch (halone e hep).symm.trans (holds_of_exiting hpe)
      rw [show (s.zombie p st).forker q = s.process p by rw [← hep]; exact he]
      exact zombie_exited_self

theorem History.ended (h : History initproc s) (hr : s.state p = .RUNNING) :
    History initproc (s.zombie p st) := by
  refine ⟨fun e he => ?_, fun q hq => ?_, fun r hr' => ?_, h.once, fun r hr' => ?_⟩
  · rcases List.mem_cons.1 he with rfl | he
    · exact .inl ⟨rfl, zombie_state, rfl, Function.update_self ..⟩
    · refine (h.exits e he).imp_left fun ⟨hb, hz, hpid, hx⟩ => ?_
      have hep : e.process.1 ≠ p := fun hep => nomatch (hep ▸ hz).symm.trans hr
      exact ⟨hb, (zombie_state_of_ne hep).trans hz, hpid, (Function.update_of_ne hep ..).trans hx⟩
  · by_cases hqp : q = p
    · rw [hqp]
      have hx : (s.zombie p st).xstate p = st := Function.update_self ..
      rw [hx]
      exact List.mem_cons_self ..
    · have hx : (s.zombie p st).xstate q = s.xstate q := Function.update_of_ne hqp ..
      rw [hx]
      exact List.mem_cons_of_mem _ (h.zombie q ((zombie_state_of_ne hqp).symm.trans hq))
  · refine (h.past r hr').imp_right fun ⟨hb, hu⟩ => ⟨hb, ?_⟩
    have hrp : r.child.1 ≠ p := fun he => nomatch (he ▸ hu).symm.trans hr
    exact (zombie_state_of_ne hrp).trans hu
  · obtain ⟨he, hw⟩ := h.reaps r hr'
    exact ⟨List.mem_cons_of_mem _ he, hw.imp_right fun ⟨hi, hx⟩ => ⟨hi, zombie_exited hx⟩⟩

/-- The process becomes a zombie, and nothing is left to be told to its
parent. -/
theorem Inv.zombie (h : Inv initproc s) (hr : s.state p = .RUNNING)
    (hp : s.pc p = .exitWakeup st c i) (hi : ¬ i < n) : Inv initproc (s.zombie p st) where
  places := h.places.ended hr hp
  family := by
    have hne : p ≠ initproc := by
      rintro rfl
      exact h.places.init.2 (by rw [hp]; rfl)
    exact h.family.ended hr hne hp fun q => h.places.alone (by rw [hp]; rfl)
  notified := by
    have hh : (s.pc p).holds := by rw [hp]; rfl
    refine .unlocked (fun q => ?_) fun q r hz hpar hw => ?_
    · by_cases hqp : q = p
      · rw [hqp, zombie_pc]
        rfl
      · rw [zombie_pc_of_ne hqp]
        exact h.places.alone hh hqp
    · have hrp : r ≠ p := by
        rintro rfl
        exact nomatch zombie_state.symm.trans hw.1
      have hw' : s.Waiting r :=
        ⟨(zombie_state_of_ne hrp).symm.trans hw.1, (zombie_pc_of_ne hrp).symm.trans hw.2⟩
      by_cases hqp : q = p
      · have hc := h.notified.checked p
        rw [hp] at hc
        have hlt : r.val < i := by omega
        exact hc.2 r (hqp ▸ hpar) hlt hw'
      · exact h.told hh (by simp [hp]) ((zombie_state_of_ne hqp).symm.trans hz) hpar hw'
  history := h.history.ended hr

end

end

/-! ## fork -/

theorem Places.free (h : Places initproc s) (hl : s.waitLock = none) (q : Fin n) :
    (s.pc q).holds = false := by
  by_contra hn
  exact nomatch hl.symm.trans ((h.holds q).2 (by simpa using hn))

/-- With `wait_lock` free, no zombie's parent is asleep in `wait`. -/
theorem Inv.told_free (h : Inv initproc s) (hl : s.waitLock = none) (hz : s.state q = .ZOMBIE)
    (hr : s.parent q = some r) : ¬ s.Waiting r := by
  intro hw
  obtain ⟨-, e, st, i, he, -⟩ := h.notified.zombie q r hz hr hw
  have hf := h.places.free hl e
  rw [he] at hf
  exact nomatch hf

section

variable {np : Fin n}

/-- Only the process that called `fork` for a child is making it. -/
theorem Kernel.Forking.caller {k : PC n} (h : s.Forking q k) (hf : s.forker np = s.process p)
    (hk : k = .forkParent np ∨ k = .forkPublish np) : q = p := by
  have hq : s.forker np = s.process q := by
    rcases hk with rfl | rfl
    · exact h.2.2
    · exact h.2.2
  exact (Prod.mk.inj (hq.symm.trans hf)).1

/-- The parent of a child that no call of `fork` looks at. -/
theorem Inv.setParent (h : Inv initproc s) (hl : s.waitLock = none) (hnp : s.state np = .USED)
    (hfk : s.forker np = s.process p) (hp : s.pc p = .user) :
    Inv initproc { s with parent := Function.update s.parent np (some p) } := by
  have hne : initproc ≠ np := by
    rintro rfl
    have hlive := (h.places.live initproc).2 h.places.init.1
    rw [hnp] at hlive
    exact nomatch hlive
  have hnew : ∀ q r, Function.update s.parent np (some p) q = some r →
      q = np ∧ r = p ∨ q ≠ np ∧ s.parent q = some r := fun q r hq => by
    by_cases hqp : q = np
    · rw [hqp, Function.update_self] at hq
      exact .inl ⟨hqp, (Option.some.inj hq).symm⟩
    · rw [Function.update_of_ne hqp] at hq
      exact .inr ⟨hqp, hq⟩
  refine ⟨⟨h.places.holds, h.places.live, h.places.asleep, h.places.init, fun q => ?_⟩,
    ⟨?_, fun q hq => ?_, fun q r hq => ?_, fun q hq => ?_, fun q => ?_, fun q r hq => ?_⟩,
    .unlocked (h.places.free hl) fun q r hs hq => ?_,
    ⟨h.history.exits, h.history.zombie, h.history.past, h.history.once, h.history.reaps⟩⟩
  · have hf := h.places.forking q
    have hcaller : ∀ {c}, s.pc q = .forkParent c ∨ s.pc q = .forkPublish c → c ≠ np := by
      rintro c hc rfl
      obtain rfl := hf.caller hfk hc
      rw [hp] at hc
      simp at hc
    cases hk : s.pc q with
    | forkParent c =>
      rw [hk] at hf
      exact ⟨hf.1, (Function.update_of_ne (hcaller (.inl hk)) ..).trans hf.2.1, hf.2.2⟩
    | forkPublish c =>
      rw [hk] at hf
      exact ⟨hf.1, (Function.update_of_ne (hcaller (.inr hk)) ..).trans hf.2.1, hf.2.2⟩
    | _ => trivial
  · exact (Function.update_of_ne hne ..).trans h.family.init
  · have hqp : q ≠ np := by
      rintro rfl
      exact nomatch hnp.symm.trans hq
    exact (Function.update_of_ne hqp ..).trans (h.family.unused q hq)
  · rcases hnew q r hq with ⟨-, rfl⟩ | ⟨-, hq⟩
    · exact fun hd => nomatch hp.symm.trans hd
    · exact h.family.parent q r hq
  · by_cases hqp : q = np
    · exact .inr (.inl (hqp ▸ hnp))
    · exact h.family.orphan q ((Function.update_of_ne hqp ..).symm.trans hq)
  · exact handed_of_free (h.places.free hl q)
  · rcases hnew q r hq with ⟨rfl, rfl⟩ | ⟨-, hq⟩
    · exact .inl hfk
    · exact h.family.lineage q r hq
  · rcases hnew q r hq with ⟨rfl, -⟩ | ⟨-, hq⟩
    · exact nomatch hnp.symm.trans hs
    · exact h.told_free hl hs hq

theorem Inv.forkParent (h : Inv initproc s) (hr : s.state p = .RUNNING)
    (hp : s.pc p = .forkParent np) (hs : s.acquire p = some s') :
    Inv initproc (({ s' with parent := Function.update s'.parent np (some p) }.release).goto p
      (.forkPublish np)) := by
  unfold Kernel.acquire at hs
  split at hs
  next hl =>
    obtain rfl := Option.some.inj hs
    obtain ⟨hnp, -, hfk⟩ : s.Forking p (.forkParent np) := hp ▸ h.places.forking p
    have h₁ : Inv initproc (s.goto p .user) :=
      h.goto hr (by rw [hp]; rfl) rfl (by rw [hp]; rfl) nofun trivial trivial
    have h₂ := h₁.setParent hl hnp hfk goto_self
    have h₃ := h₂.goto (k := .forkPublish np) hr (by rw [goto_self]; rfl) rfl
      (by rw [goto_self]; rfl) nofun ⟨hnp, Function.update_self .., hfk⟩ trivial
    simpa [Kernel.goto, Kernel.release, hl] using h₃
  next => cases hs

/-- A process that is not there is asleep nowhere and in no code. -/
theorem Places.dead (h : Places initproc s) (hnp : (s.state np).live = false) :
    s.pc np = .dead := by
  by_contra hn
  exact nomatch hnp.symm.trans ((h.live np).2 hn)

theorem Places.ne_of_dead (h : Places initproc s) (hnp : (s.state np).live = false) {k : PC n}
    (hq : s.pc q = k) (hk : k ≠ .dead) : q ≠ np := by
  rintro rfl
  exact hk (hq.symm.trans (h.dead hnp))

/-- The child can run. -/
theorem Inv.publish (h : Inv initproc s) (hnp : s.state np = .USED)
    (hpar : s.parent np = some r) (hfk : s.forker np = s.process p) (hp : s.pc p = .user) :
    Inv initproc ((s.setState np .RUNNABLE).goto np .user) := by
  have hpc : ∀ q, q ≠ np → ((s.setState np .RUNNABLE).goto np .user).pc q = s.pc q :=
    fun q hq => goto_of_ne hq
  have hdead : s.pc np = .dead := h.places.dead (by rw [hnp]; rfl)
  have hst : ∀ q, ((s.setState np .RUNNABLE).goto np .user).state q = s.state q ∨ q = np := by
    intro q
    by_cases hq : q = np
    · exact .inr hq
    · exact .inl (setState_of_ne hq)
  have hsn : ((s.setState np .RUNNABLE).goto np .user).state np = .RUNNABLE := setState_self
  have hlost : ∀ {q st}, ((s.setState np .RUNNABLE).goto np .user).state q = st →
      st ≠ .RUNNABLE → s.state q = st := fun {q st} hq hne => by
    rcases hst q with he | rfl
    · exact he.symm.trans hq
    · exact absurd (hsn.symm.trans hq).symm hne
  have hkept : ∀ {q st}, s.state q = st → st ≠ .USED →
      ((s.setState np .RUNNABLE).goto np .user).state q = st := fun {q st} hq hne => by
    rcases hst q with he | rfl
    · exact he.trans hq
    · exact absurd (hnp.symm.trans hq).symm hne
  have hw : ∀ q, ((s.setState np .RUNNABLE).goto np .user).Waiting q → s.Waiting q := fun q hq => by
    have hqn : q ≠ np := by
      rintro rfl
      exact nomatch hsn.symm.trans hq.1
    exact ⟨hlost hq.1 nofun, (goto_of_ne hqn).symm.trans hq.2⟩
  refine ⟨⟨fun q => ?_, fun q => ?_, fun q hq => ?_, ?_, fun q => ?_⟩,
    ⟨h.family.init, fun q hq => h.family.unused q (hlost hq nofun), fun q r hq => ?_,
      fun q hq => ?_, fun q => ?_, fun q r hq => ?_⟩,
    ⟨fun q => ?_, fun q r hs hq hwait => ?_⟩,
    ⟨fun e he => ?_, fun q hq => h.history.zombie q (hlost hq nofun), fun r hr => ?_,
      h.history.once, h.history.reaps⟩⟩
  · rw [show ((s.setState np .RUNNABLE).goto np .user).waitLock = s.waitLock from rfl,
      h.places.holds q]
    by_cases hq : q = np
    · rw [hq, goto_self, hdead]
      exact ⟨nofun, nofun⟩
    · rw [hpc _ hq]
  · by_cases hq : q = np
    · rw [hq, goto_self, hsn]
      exact ⟨nofun, fun _ => rfl⟩
    · rw [hpc q hq, (hst q).resolve_right hq]
      exact h.places.live q
  · have hqn : q ≠ np := by
      rintro rfl
      exact nomatch hsn.symm.trans hq
    rw [hpc _ hqn]
    exact h.places.asleep q (hlost hq nofun)
  · rw [hpc _ (h.places.ne_of_dead (by rw [hnp]; rfl) rfl h.places.init.1)]
    exact h.places.init
  · by_cases hq : q = np
    · rw [hq, goto_self]
      trivial
    · rw [hpc _ hq]
      have hf := h.places.forking q
      have hcaller : ∀ {c}, s.pc q = .forkParent c ∨ s.pc q = .forkPublish c → c ≠ np := by
        rintro c hc rfl
        obtain rfl := hf.caller hfk hc
        rw [hp] at hc
        simp at hc
      cases hk : s.pc q with
      | forkParent c =>
        rw [hk] at hf
        exact ⟨((hst c).resolve_right (hcaller (.inl hk))).trans hf.1, hf.2⟩
      | forkPublish c =>
        rw [hk] at hf
        exact ⟨((hst c).resolve_right (hcaller (.inr hk))).trans hf.1, hf.2⟩
      | _ => trivial
  · by_cases hrn : r = np
    · rw [hrn, goto_self]
      nofun
    · rw [hpc _ hrn]
      exact h.family.parent q r hq
  · have hqn : q ≠ np := by
      rintro rfl
      exact nomatch hpar.symm.trans hq
    rw [(hst q).resolve_right hqn]
    exact h.family.orphan q hq
  · by_cases hqn : q = np
    · rw [hqn, goto_self]
      trivial
    · rw [hpc _ hqn]
      exact h.family.handed q
  · refine (h.family.lineage q r hq).imp_right fun ⟨hi, he⟩ => ⟨hi, he.imp_right ?_⟩
    rintro ⟨e, he, hpe⟩
    have hen : e ≠ np := by
      rintro rfl
      rw [hdead] at hpe
      exact nomatch hpe
    exact ⟨e, he, by rw [hpc _ hen]; exact hpe⟩
  · by_cases hqn : q = np
    · rw [hqn, goto_self]
      trivial
    · rw [hpc q hqn]
      exact (h.notified.checked q).mono rfl (fun u hz => hlost hz nofun) hw
  · obtain ⟨hr, e, st, i, he, hi⟩ := h.notified.zombie q r (hlost hs nofun) hq (hw r hwait)
    have hen : e ≠ np := h.places.ne_of_dead (by rw [hnp]; rfl) he nofun
    exact ⟨hr, e, st, i, (goto_of_ne hen).trans he, hi⟩
  · refine (h.history.exits e he).imp_left fun ⟨hb, hz, hx⟩ => ⟨hb, hkept hz nofun, hx⟩
  · exact (h.history.past r hr).imp_right fun ⟨hb, hu⟩ => ⟨hb, hkept hu nofun⟩

theorem Inv.forkPublish (h : Inv initproc s) (hr : s.state p = .RUNNING)
    (hp : s.pc p = .forkPublish np) :
    Inv initproc (((s.setState np .RUNNABLE).goto np .user).goto p .user) := by
  obtain ⟨hnp, hpar, hfk⟩ : s.Forking p (.forkPublish np) := hp ▸ h.places.forking p
  have hne : p ≠ np := by
    rintro rfl
    exact nomatch hr.symm.trans hnp
  have h₁ : Inv initproc (s.goto p .user) :=
    h.goto hr (by rw [hp]; rfl) rfl (by rw [hp]; rfl) nofun trivial trivial
  have h₂ := h₁.publish hnp hpar hfk goto_self
  simpa [Kernel.goto, Kernel.setState, Function.update_comm hne] using h₂

/-- `allocproc` takes a slot. -/
theorem Inv.allocproc (h : Inv initproc s) (hnp : s.state np = .UNUSED) :
    Inv initproc (s.allocproc p np) := by
  have hdead : s.pc np = .dead := h.places.dead (by rw [hnp]; rfl)
  have hst : ∀ q, q ≠ np → (s.allocproc p np).state q = s.state q := fun q hq => setState_of_ne hq
  have hsn : (s.allocproc p np).state np = .USED := setState_self
  have hborn : ∀ q, q ≠ np → (s.allocproc p np).process q = s.process q := fun q hq =>
    Prod.ext rfl (Function.update_of_ne hq ..)
  have hfk : ∀ q, q ≠ np → (s.allocproc p np).forker q = s.forker q := fun q hq =>
    Function.update_of_ne hq ..
  have hlost : ∀ {q st}, (s.allocproc p np).state q = st → st ≠ .USED → s.state q = st ∧ q ≠ np :=
    fun {q st} hq hne => by
      have hqn : q ≠ np := by
        rintro rfl
        exact hne (hsn.symm.trans hq).symm
      exact ⟨(hst q hqn).symm.trans hq, hqn⟩
  have hin : ∀ {q k}, s.pc q = k → k ≠ .dead → q ≠ np := fun hq hk =>
    h.places.ne_of_dead (by rw [hnp]; rfl) hq hk
  have hw : ∀ q, (s.allocproc p np).Waiting q → s.Waiting q := fun q hq =>
    ⟨(hlost hq.1 nofun).1, hq.2⟩
  refine ⟨⟨h.places.holds, fun q => ?_, fun q hq => h.places.asleep q (hlost hq nofun).1,
      h.places.init, fun q => ?_⟩,
    ⟨h.family.init, fun q hq => h.family.unused q (hlost hq nofun).1, h.family.parent,
      fun q hq => ?_, h.family.handed, fun q r hq => ?_⟩,
    ⟨fun q => (h.notified.checked q).mono rfl (fun u hz => (hlost hz nofun).1) hw,
      fun q r hs hq hwait => h.notified.zombie q r (hlost hs nofun).1 hq (hw r hwait)⟩,
    ⟨fun e he => ?_, fun q hq => ?_, fun r hr => ?_, h.history.once, h.history.reaps⟩⟩
  · refine Iff.trans ?_ (h.places.live q)
    by_cases hq : q = np
    · rw [hq, hsn, hnp]
      exact .rfl
    · rw [hst q hq]
  · have hf := h.places.forking q
    have hne : ∀ {c}, s.state c = .USED → c ≠ np := fun hs he => nomatch (he ▸ hs).symm.trans hnp
    show (s.allocproc p np).Forking q (s.pc q)
    cases hk : s.pc q with
    | forkParent c | forkPublish c =>
      rw [hk] at hf
      have hc := hne hf.1
      exact ⟨(hst c hc).trans hf.1, hf.2.1,
        (hfk c hc).trans (hf.2.2.trans (hborn q (hin hk nofun)).symm)⟩
    | _ => trivial
  · by_cases hqn : q = np
    · exact .inr (.inl (by rw [hqn, hsn]))
    · rw [hst q hqn]
      exact h.family.orphan q hq
  · have hqn : q ≠ np := by
      rintro rfl
      exact nomatch (h.family.unused q hnp).symm.trans hq
    have hrn : r ≠ np := hin rfl (h.family.parent q r hq)
    rw [hfk q hqn, hborn r hrn]
    refine (h.family.lineage q r hq).imp_right fun ⟨hi, he⟩ => ⟨hi, he.imp_right ?_⟩
    rintro ⟨e, he, hpe⟩
    have hen : e ≠ np := by
      rintro rfl
      rw [hdead] at hpe
      exact nomatch hpe
    exact ⟨e, by rw [hborn e hen, he], hpe⟩
  · refine (h.history.exits e he).imp_left fun ⟨hb, hz, hpid, hx⟩ => ?_
    have hen : e.process.1 ≠ np := fun hen => nomatch (hen ▸ hz).symm.trans hnp
    exact ⟨hb.trans (Function.update_of_ne hen ..).symm, (hst _ hen).trans hz,
      (Function.update_of_ne hen ..).trans hpid, hx⟩
  · obtain ⟨hz, hqn⟩ := hlost hq nofun
    rw [hborn q hqn, show (s.allocproc p np).pid q = s.pid q from Function.update_of_ne hqn ..]
    exact h.history.zombie q hz
  · by_cases hrn : r.child.1 = np
    · have hb : (s.allocproc p np).born r.child.1 = s.born r.child.1 + 1 := by
        rw [hrn]
        exact Function.update_self ..
      rw [hb]
      have hpast := h.history.past r hr
      omega
    · rw [show (s.allocproc p np).born r.child.1 = s.born r.child.1 from
        Function.update_of_ne hrn .., hst _ hrn]
      exact h.history.past r hr

theorem Inv.fork (h : Inv initproc s) (hr : s.state p = .RUNNING) (hp : s.pc p = .user)
    (hnp : s.state np = .UNUSED) : Inv initproc ((s.allocproc p np).goto p (.forkParent np)) := by
  have hne : p ≠ np := by
    rintro rfl
    exact nomatch hr.symm.trans hnp
  have hborn : (s.allocproc p np).process p = s.process p :=
    Prod.ext rfl (Function.update_of_ne hne ..)
  refine (h.allocproc hnp).goto ((setState_of_ne hne).trans hr) ?_ rfl ?_ nofun
    ⟨setState_self, h.family.unused np hnp, (Function.update_self ..).trans hborn.symm⟩ trivial
  · rw [show (s.allocproc p np).pc p = .user from hp]
    rfl
  · rw [show (s.allocproc p np).pc p = .user from hp]
    rfl

/-- `fork` fails. -/
theorem Inv.forkFails (h : Inv initproc s) (hnp : s.state np = .UNUSED) :
    Inv initproc ({ s with nextpid := i32 (s.nextpid + 1) }.freeproc np) := by
  have hz : ∀ q, s.state q = .ZOMBIE → q ≠ np := by
    rintro q hq rfl
    exact nomatch hnp.symm.trans hq
  have hc : Calm s { s with
      pid := Function.update s.pid np 0, xstate := Function.update s.xstate np 0 } :=
    ⟨rfl, rfl, rfl, rfl, rfl, fun q hq =>
      ⟨Function.update_of_ne (hz q hq) .., Function.update_of_ne (hz q hq) ..⟩, fun q => .inl rfl⟩
  have h₁ : Inv initproc { s with
      pid := Function.update s.pid np 0, xstate := Function.update s.xstate np 0 } :=
    ⟨⟨h.places.holds, h.places.live, h.places.asleep, h.places.init, h.places.forking⟩,
      ⟨h.family.init, h.family.unused, h.family.parent, h.family.orphan, h.family.handed,
        h.family.lineage⟩, ⟨h.notified.checked, h.notified.zombie⟩, h.history.calm hc⟩
  have h₂ : Inv initproc { s with
      pid := Function.update s.pid np 0
      xstate := Function.update s.xstate np 0
      chan := Function.update s.chan np none
      killed := Function.update s.killed np false
      nextpid := i32 (s.nextpid + 1) } := by
    refine h₁.tidy fun q hq => Function.update_of_ne ?_ ..
    rintro rfl
    exact nomatch hnp.symm.trans hq
  have hpar : Function.update s.parent np none = s.parent := by
    rw [← h.family.unused np hnp, Function.update_eq_self]
  have hst : Function.update s.state np .UNUSED = s.state := by
    rw [← hnp, Function.update_eq_self]
  simpa only [Kernel.freeproc, Kernel.setState, hpar, hst] using h₂

end

/-! ## Every step -/

theorem initial_state (h : q ≠ initproc) : (Kernel.initial initproc).state q = .UNUSED := by
  simp [Kernel.initial, h]

theorem initial_state_init : (Kernel.initial initproc).state initproc = .RUNNABLE := by
  simp [Kernel.initial]

theorem initial_pc (initproc q : Fin n) : (Kernel.initial initproc).pc q = .dead ∧ q ≠ initproc ∨
    (Kernel.initial initproc).pc q = .user ∧ q = initproc := by
  by_cases hq : q = initproc
  · subst hq
    exact .inr ⟨by simp [Kernel.initial], rfl⟩
  · exact .inl ⟨by simp [Kernel.initial, hq], hq⟩

theorem Inv.initial (initproc : Fin n) : Inv initproc (Kernel.initial initproc) := by
  have hfree : ∀ q, ((Kernel.initial initproc).pc q).holds = false := fun q => by
    rcases initial_pc initproc q with ⟨hq, -⟩ | ⟨hq, -⟩ <;> rw [hq] <;> rfl
  have hinit : (Kernel.initial initproc).pc initproc = .user := by
    simp [Kernel.initial]
  have hz : ∀ q, (Kernel.initial initproc).state q ≠ .ZOMBIE := fun q => by
    by_cases hq : q = initproc
    · rw [hq, initial_state_init]
      nofun
    · rw [initial_state hq]
      nofun
  refine ⟨⟨fun q => ?_, fun q => ?_, fun q hq => ?_, by rw [hinit]; exact ⟨nofun, nofun⟩,
      fun q => ?_⟩,
    ⟨rfl, fun _ _ => rfl, nofun, fun q _ => ?_, fun q => handed_of_free (hfree q), nofun⟩,
    .unlocked hfree fun q _ hq => absurd hq (hz q),
    ⟨nofun, fun q hq => absurd hq (hz q), nofun, .nil, nofun⟩⟩
  · rw [hfree q]
    exact ⟨nofun, nofun⟩
  · rcases initial_pc initproc q with ⟨hq, hne⟩ | ⟨hq, hqi⟩
    · rw [hq, initial_state hne]
      exact ⟨nofun, fun hn => absurd rfl hn⟩
    · rw [hq, hqi, initial_state_init]
      exact ⟨nofun, fun _ => rfl⟩
  · by_cases hqi : q = initproc
    · rw [hqi, initial_state_init] at hq
      cases hq
    · rw [initial_state hqi] at hq
      cases hq
  · rcases initial_pc initproc q with ⟨hq, -⟩ | ⟨hq, -⟩ <;> rw [hq] <;> trivial
  · by_cases hqi : q = initproc
    · exact .inr (.inr hqi)
    · exact .inl (initial_state hqi)

theorem Inv.go {ok : Bool} (h : Inv initproc s) (hr : s.state p = .RUNNING)
    (hs : s.go initproc p ok = some s') : Inv initproc s' := by
  unfold Kernel.go at hs
  split at hs
  case h_1 | h_2 => cases hs
  next np hp =>
    obtain ⟨s₁, h₁, rfl⟩ := Option.map_eq_some_iff.1 hs
    exact h.forkParent hr hp h₁
  next np hp =>
    obtain rfl := Option.some.inj hs
    exact h.forkPublish hr hp
  next st i hp =>
    split at hs
    next hi =>
      split at hs
      next hpar =>
        obtain rfl := Option.some.inj hs
        have hp' : s.pc p = .reparent st (⟨i, hi⟩ : Fin n) := hp
        exact h.adopt hr hp' hpar
      next hpar =>
        obtain rfl := Option.some.inj hs
        refine reparent_next h hr hp ?_
        rintro q hq rfl
        exact hpar hq
    next hi =>
      obtain rfl := Option.some.inj hs
      exact reparent_done h hr hp hi
  next st pp i hp =>
    split at hs
    next hi =>
      obtain rfl := Option.some.inj hs
      exact h.reparentWakeup (i := ⟨i, hi⟩) hr hp
    next hi =>
      obtain rfl := Option.some.inj hs
      exact reparentWakeup_done h hr hp hi
  next st c i hp =>
    split at hs
    next hi =>
      obtain rfl := Option.some.inj hs
      exact h.exitWakeup (i := ⟨i, hi⟩) hr hp
    next hi =>
      obtain rfl := Option.some.inj hs
      exact h.zombie hr hp hi
  next k i hp =>
    have hx : (s.pc p).exiting = false := by rw [hp]; rfl
    have hh : (s.pc p).holds := by rw [hp]; rfl
    split at hs
    next hi =>
      split at hs
      next hpar =>
        split at hs
        next hz =>
          split at hs
          next =>
            obtain rfl := Option.some.inj hs
            exact h.reap hr hp hpar hz
          next =>
            obtain rfl := Option.some.inj hs
            exact h.release hr hx hh
        next hz =>
          obtain rfl := Option.some.inj hs
          refine wait_next h hr hp ?_
          rintro q - rfl
          exact hz
      next hpar =>
        obtain rfl := Option.some.inj hs
        refine wait_next h hr hp ?_
        rintro q hq rfl
        exact absurd hq hpar
    next hi =>
      split at hs
      next =>
        obtain rfl := Option.some.inj hs
        exact wait_done h hr hp hi
      next =>
        obtain rfl := Option.some.inj hs
        exact h.release hr hx hh
  next hp =>
    split at hs
    next =>
      obtain rfl := Option.some.inj hs
      exact h.release hr (by rw [hp]; rfl) (by rw [hp]; rfl)
    next =>
      obtain rfl := Option.some.inj hs
      have hc := h.notified.checked p
      rw [hp] at hc
      exact h.goto hr (by rw [hp]; rfl) rfl (by rw [hp]; rfl) nofun trivial hc
  next hp =>
    obtain rfl := Option.some.inj hs
    exact h.sleep hr hp
  next hp =>
    obtain rfl := Option.some.inj hs
    exact (h.chan hr).goto hr (by rw [hp]; rfl) rfl (by rw [hp]; rfl) nofun trivial trivial
  next hp =>
    obtain ⟨s₁, h₁, rfl⟩ := Option.map_eq_some_iff.1 hs
    exact h.acquireWait hr (by rw [hp]; rfl) h₁
  next pid i hp =>
    have hgo : ∀ {k : PC n}, k.exiting = false → k.holds = false → k ≠ .dead →
        s.Forking p k → Inv initproc (s.goto p k) := fun hx hh hd hf =>
      h.goto hr (by rw [hp]; rfl) hx (by rw [hp, hh]; rfl) hd hf (checked_of_free hh)
    split at hs
    next hi =>
      split at hs
      next =>
        obtain rfl := Option.some.inj hs
        rw [kill_goto]
        have hu : Inv initproc (s.goto p .user) := hgo rfl rfl nofun trivial
        exact hu.kill
      next =>
        obtain rfl := Option.some.inj hs
        exact hgo rfl rfl nofun trivial
    next =>
      obtain rfl := Option.some.inj hs
      exact hgo rfl rfl nofun trivial
  next hp =>
    obtain rfl := Option.some.inj hs
    exact (h.chan hr).goto hr (by rw [hp]; rfl) rfl (by rw [hp]; rfl) nofun trivial trivial

theorem Inv.call {e : Event n} (h : Inv initproc s) (hr : s.state p = .RUNNING)
    (hp : s.pc p = .user) (hs : s.call initproc p e = some s') : Inv initproc s' := by
  cases e with
  | fork _ np ok =>
    simp only [Kernel.call] at hs
    split at hs
    next hnp =>
      split at hs
      next =>
        obtain rfl := Option.some.inj hs
        exact h.fork hr hp hnp
      next =>
        obtain rfl := Option.some.inj hs
        exact h.forkFails hnp
    next => cases hs
  | exit _ st =>
    simp only [Kernel.call] at hs
    split at hs
    next => cases hs
    next hi =>
      obtain ⟨s₁, h₁, rfl⟩ := Option.map_eq_some_iff.1 hs
      exact h.exit hr hp hi h₁
  | wait =>
    obtain ⟨s₁, h₁, rfl⟩ := Option.map_eq_some_iff.1 hs
    exact h.acquireWait hr (by rw [hp]; rfl) h₁
  | kill _ pid =>
    obtain rfl := Option.some.inj hs
    exact h.goto hr (by rw [hp]; rfl) rfl (by rw [hp]; rfl) nofun trivial trivial
  | doze =>
    obtain rfl := Option.some.inj hs
    have h₁ := (h.chan (c := some .other) hr).goto (k := .doze) hr (by rw [hp]; rfl) rfl
      (by rw [hp]; rfl) nofun trivial trivial
    refine h₁.setState ?_ rfl fun _ => ⟨goto_self, Function.update_self ..⟩
    show (s.state p).live
    rw [hr]
    rfl
  | _ => cases hs

theorem Inv.next {e : Event n} (h : Inv initproc s) (hs : s.next initproc e = some s') :
    Inv initproc s' := by
  unfold Kernel.next at hs
  split at hs
  next p ok =>
    split at hs
    next hr => exact h.go hr hs
    next => cases hs
  next p =>
    split at hs
    next hp =>
      obtain rfl := Option.some.inj hs
      exact h.setState (by rw [hp.1]; rfl) rfl nofun
    next => cases hs
  next p =>
    split at hs
    next hp =>
      obtain rfl := Option.some.inj hs
      exact h.setState (by rw [hp.1]; rfl) rfl nofun
    next => cases hs
  next p =>
    split at hs
    next hp =>
      obtain rfl := Option.some.inj hs
      exact h.setState (by rw [hp]; rfl) rfl nofun
    next => cases hs
  all_goals
    split at hs
    next hp => exact h.call hp.1 hp.2 hs
    next => cases hs

theorem Inv.reachable (h : (machine initproc).Reachable s) : Inv initproc s :=
  h.invariant (I := Inv initproc)
    (fun s (hs : s = Kernel.initial initproc) => hs ▸ .initial initproc)
    fun _ _ _ hi hn => hi.next hn

/-! ## exit and wait -/

/-- In every interleaving, no process is reaped twice; the `wait` that reaps
it returns the pid and the status it exited with, and is made by the process
that forked it or, once that one has exited, by init; until then it is a
zombie in its slot. While `wait_lock` is free, the parent of every zombie is a
process that has not exited, and no process with a zombie child is asleep in
`wait`. -/
theorem exit_wait (h : (machine initproc).Reachable s) :
    (s.reaps.map (·.child)).Nodup ∧
    (∀ r ∈ s.reaps, ⟨r.child, r.pid, r.status⟩ ∈ s.exits ∧
      (r.waiter = r.forker ∨ r.waiter.1 = initproc ∧ s.Exited r.forker)) ∧
    (∀ e ∈ s.exits, s.Unreaped e ∨ s.Reaped e.process) ∧
    (s.waitLock = none →
      (∀ q, s.state q = .ZOMBIE → ∃ r, s.parent q = some r ∧ (s.state r).live ∧
        ¬ s.Exited (s.process r) ∧
        (s.forker q = s.process r ∨ r = initproc ∧ s.Exited (s.forker q))) ∧
      ∀ p q, s.Waiting p → s.parent q = some p → s.state q ≠ .ZOMBIE) := by
  have hI := Inv.reachable h
  refine ⟨hI.history.once, hI.history.reaps, hI.history.exits, fun hl => ⟨fun q hq => ?_,
    fun p q hw hp hz => hI.told_free hl hz hp hw⟩⟩
  obtain ⟨r, hr⟩ : ∃ r, s.parent q = some r := by
    cases hp : s.parent q with
    | some r => exact ⟨r, rfl⟩
    | none =>
      have hqi : q = initproc := by simpa [hq] using hI.family.orphan q hp
      have hlive := (hI.places.live initproc).2 hI.places.init.1
      rw [← hqi, hq] at hlive
      exact nomatch hlive
  have hlive := (hI.places.live r).2 (hI.family.parent q r hr)
  refine ⟨r, hr, hlive, ?_, (hI.family.lineage q r hr).imp_right fun ⟨hi, he⟩ => ⟨hi, ?_⟩⟩
  · rintro ⟨e, he, heq⟩
    have hslot : e.process.1 = r := by rw [heq]; rfl
    rcases hI.history.exits e he with ⟨-, hz, -⟩ | ⟨x, hx, hc⟩
    · rw [hslot] at hz
      rw [hz] at hlive
      exact nomatch hlive
    · rw [heq] at hc
      rcases hI.history.past x hx with hlt | ⟨-, hu⟩
      · rw [hc] at hlt
        exact absurd hlt (Nat.lt_irrefl _)
      · rw [hc] at hu
        rw [show s.state r = .UNUSED from hu] at hlive
        exact nomatch hlive
  · rcases he with he | ⟨e, -, hpe⟩
    · exact he
    · exact nomatch (hI.places.free hl e).symm.trans (holds_of_exiting hpe)

/-- The two slots of the runs below. -/
def slot0 : Fin 2 := ⟨0, Nat.two_pos⟩

def slot1 : Fin 2 := ⟨1, Nat.one_lt_two⟩

/-- Init forks and sleeps in `wait`; the child exits with status 7. -/
def oneChild : List (Event 2) :=
  [.schedule slot0, .fork slot0 slot1 true, .go slot0 true, .go slot0 true, .schedule slot1,
    .wait slot0] ++ List.replicate 5 (.go slot0 true) ++ [.exit slot1 7] ++
    List.replicate 6 (.go slot1 true) ++ [.schedule slot0] ++ List.replicate 4 (.go slot0 true)

theorem exit_wait_oneChild : ∃ s, (machine (0 : Fin 2)).exec (Kernel.initial 0) oneChild = some s ∧
    s.reaps.map (fun r => (r.pid, r.status)) = [(2, 7)] ∧ (s.reaps.map (·.child)).Nodup ∧
    (∀ r ∈ s.reaps, ⟨r.child, r.pid, r.status⟩ ∈ s.exits ∧
      (r.waiter = r.forker ∨ r.waiter.1 = 0 ∧ s.Exited r.forker)) ∧
    (∀ e ∈ s.exits, s.Unreaped e ∨ s.Reaped e.process) ∧
    (s.waitLock = none →
      (∀ q, s.state q = .ZOMBIE → ∃ r, s.parent q = some r ∧ (s.state r).live ∧
        ¬ s.Exited (s.process r) ∧
        (s.forker q = s.process r ∨ r = 0 ∧ s.Exited (s.forker q))) ∧
      ∀ p q, s.Waiting p → s.parent q = some p → s.state q ≠ .ZOMBIE) := by
  have hrun : ((machine (0 : Fin 2)).exec (Kernel.initial 0) oneChild).map
      (fun s => s.reaps.map fun r => (r.pid, r.status)) = some [(2, 7)] := by decide +kernel
  obtain ⟨s, hs, hr⟩ := Option.map_eq_some_iff.1 hrun
  exact ⟨s, hs, hr, exit_wait ⟨_, oneChild, rfl, hs⟩⟩

end Xv6.ExitWait
