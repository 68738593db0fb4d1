/-
proc.c: a process runs on one CPU at most.

`sched` is entered with the lock of the process held, and the scheduler
releases it. So nobody sees a process between two states, and a context is
complete before it is loaded.
-/
import Xv6.SwitchSteps

namespace Xv6.Switch

open Conc

variable {n : Nat} {C L Ch : Type} [DecidableEq C] [DecidableEq L] [DecidableEq Ch]
  {s s' : Kernel n C L Ch} {c : C} {p : Fin n} {held : List (Lock n L)}
  {code rest : List (Instr n L Ch)} {me : Option (Fin n)} {ini : Fin n} {st : ProcState}

/-! ## Calls and interrupts -/

omit [DecidableEq C] [DecidableEq Ch] in
/-- The end of a section under a lock alone. -/
theorem Safe.release_only {k : Lock n L} (hk : ∀ p, me = some p → k = .proc p → st = .RUNNING)
    (h : Safe ini me rest [] st) : Safe ini me (.release k :: rest) [k] st := by
  refine ⟨List.mem_singleton.2 rfl, hk, ?_⟩
  rw [List.erase_cons_head]
  exact h

omit [DecidableEq C] [DecidableEq L] [DecidableEq Ch] in
theorem noProc_other (l : L) : NoProc ([.other l] : List (Lock n L)) := by
  intro i
  simp

omit [DecidableEq C] [DecidableEq Ch] in
theorem Safe.acts (l : L) (as : List (Act Ch)) :
    Safe ini (some p) (acts p l as) [.other l] .RUNNING := by
  induction as with
  | nil => exact .release_only nofun ⟨rfl, rfl, rfl⟩
  | cons a as ih =>
    cases a with
    | sleep ch => exact Safe.sleep nofun ih
    | wakeup ch => exact ⟨noProc_other l, ih⟩
    | killed => exact ⟨.proc (noProc_other l) p, .release_proc rfl ih⟩

omit [DecidableEq C] [DecidableEq L] [DecidableEq Ch] in
theorem Quiet.acts (p : Fin n) (l : L) (as : List (Act Ch)) : Quiet (acts p l as) := by
  induction as with
  | nil => exact Quiet.cons rfl nofun
  | cons a as ih =>
    cases a with
    | sleep ch => exact ih.sleep
    | wakeup ch => exact ih.cons rfl
    | killed => exact (ih.cons rfl).cons rfl

omit [DecidableEq C] [DecidableEq L] [DecidableEq Ch] in
theorem news_acts (p : Fin n) (l : L) (as : List (Act Ch)) : news (acts p l as) = [] := by
  induction as with
  | nil => rfl
  | cons a as ih => cases a <;> simp [Switch.acts, Switch.sleep, Instr.new, ih]

omit [DecidableEq C] [DecidableEq Ch] in
/-- The process `p` that is RUNNING may do what a call does. -/
theorem Call.safe (a : Call L Ch) (h : a = .exit → p ≠ ini) :
    Safe ini (some p) (a.code p) [] .RUNNING := by
  have hnil : Safe ini (some p) ([] : List (Instr n L Ch)) ([] : List (Lock n L)) .RUNNING :=
    ⟨rfl, rfl, rfl⟩
  have hwait : Order ([] : List (Lock n L)) .wait_lock := ⟨nofun, noProc_nil⟩
  have herase : ([.proc p, .wait_lock] : List (Lock n L)).erase .wait_lock = [.proc p] := by
    rw [List.erase_cons_tail (by simp), List.erase_cons_head]
  cases a with
  | fork f => exact ⟨rfl, rfl, rfl, hnil⟩
  | exit =>
    refine ⟨hwait, rfl, rfl, noProc_wait, .proc noProc_wait p, rfl, by simp, rfl,
      .inr ⟨rfl, h rfl⟩, by simp, nofun, ?_⟩
    rw [herase]
    exact ⟨p, rfl, rfl, nofun, fun hz => absurd rfl hz⟩
  | wait copyout => exact ⟨hwait, rfl, rfl, rfl, hnil⟩
  | kill pid => exact ⟨rfl, rfl, hnil⟩
  | ps start count =>
    simp only [Call.code]
    split
    next => exact hnil
    next => exact ⟨hwait, rfl, rfl, hnil⟩
  | va2pa pid =>
    cases pid with
    | zero => exact hnil
    | succ pid => exact ⟨rfl, rfl, hnil⟩
  | schedset id => exact hnil
  | other l as => exact ⟨⟨nofun, trivial⟩, .acts l as⟩

omit [DecidableEq C] [DecidableEq L] [DecidableEq Ch] in
theorem Call.quiet (a : Call L Ch) (p : Fin n) : Quiet (a.code p) ∧ news (a.code p) = [] := by
  cases a with
  | fork f => exact ⟨Quiet.cons rfl nofun, rfl⟩
  | exit =>
    refine ⟨fun ins hins => ?_, rfl⟩
    simp only [Call.code, List.mem_cons, List.not_mem_nil, or_false] at hins
    rcases hins with rfl | rfl | rfl | rfl | rfl | rfl | rfl | rfl <;> rfl
  | wait copyout => exact ⟨.cons rfl (.cons rfl nofun), rfl⟩
  | kill pid => exact ⟨Quiet.cons rfl nofun, rfl⟩
  | ps start count =>
    simp only [Call.code]
    split
    next => exact ⟨nofun, rfl⟩
    next => exact ⟨.cons rfl (.cons rfl nofun), rfl⟩
  | va2pa pid =>
    cases pid with
    | zero => exact ⟨nofun, rfl⟩
    | succ pid => exact ⟨Quiet.cons rfl nofun, rfl⟩
  | schedset id => exact ⟨Quiet.cons rfl nofun, rfl⟩
  | other l as => exact ⟨(Quiet.acts p l as).cons rfl, by simp [Call.code, Instr.new, news_acts]⟩

omit [DecidableEq C] [DecidableEq Ch] in
theorem Safe.handler {l : L} (h : Safe ini me rest [] st) (chans : List Ch) :
    Safe ini me (handler l rest chans) [.other l] st := by
  induction chans with
  | nil => exact .release_only nofun h
  | cons ch chans ih => exact ⟨noProc_other l, ih⟩

omit [DecidableEq C] [DecidableEq L] [DecidableEq Ch] in
theorem Quiet.handler {l : L} (h : Quiet rest) (chans : List Ch) :
    Quiet (handler l rest chans) := by
  induction chans with
  | nil => exact h.cons rfl
  | cons ch chans ih => exact ih.cons rfl

omit [DecidableEq C] [DecidableEq L] [DecidableEq Ch] in
theorem news_handler (l : L) (rest : List (Instr n L Ch)) (chans : List Ch) :
    news (handler l rest chans) = news rest := by
  induction chans with
  | nil => rfl
  | cons ch chans ih => simp [Switch.handler, Instr.new, ih]

omit [DecidableEq C] [DecidableEq Ch] in
theorem Safe.yield (h : Safe ini (some p) rest [] .RUNNING) :
    Safe ini (some p) (yield p ++ rest) [] .RUNNING :=
  ⟨.proc noProc_nil p, rfl, by simp, rfl, .inl rfl, p, rfl, rfl, nofun,
    fun _ => .release_proc rfl h⟩

omit [DecidableEq C] [DecidableEq L] [DecidableEq Ch] in
theorem Quiet.yield (h : Quiet rest) (p : Fin n) : Quiet (yield p ++ rest) :=
  (((h.cons rfl).cons rfl).cons rfl).cons rfl

omit [DecidableEq C] [DecidableEq L] [DecidableEq Ch] in
theorem Noted.quiet (h : Noted s [] code) : Quiet code := by
  unfold Noted at h
  split at h
  next => exact nomatch h.1.1
  next => exact nomatch h.1.1
  next => exact h

omit [DecidableEq C] [DecidableEq Ch] in
/-- A thread without locks does not rely on what it has just done. -/
theorem HeadOk.quiet (h : HeadOk s [] code) (hs : Safe ini me code [] st) (h₀ : spins code = 0) :
    Quiet code ∧ phase code = none := by
  cases code with
  | nil => exact ⟨nofun, rfl⟩
  | cons ins rest =>
    cases ins with
    | acquire k =>
      have hq : Quiet rest := Noted.quiet h
      exact ⟨hq.cons rfl, rfl⟩
    | spin k => exact nomatch h₀
    | save p => exact nomatch hs.2.1
    | resume =>
      obtain ⟨-, i, hi, -⟩ := hs
      exact nomatch hi
    | swtchTo i => exact nomatch hs.2.1
    | load i => exact nomatch hs.2.1
    | back i => exact nomatch hs.2.1
    | psRelease i q => exact ⟨Noted.quiet h, rfl⟩
    | found p f np => exact ⟨Noted.quiet h, rfl⟩
    | _ => exact ⟨h, rfl⟩

omit [DecidableEq Ch] in
/-- An interrupt comes when no lock is held. -/
theorem Inv.interrupt (h : Inv s) (hnoff : s.noff c = 0)
    (hcode : s.own c = .RUNNING → Safe s.initproc (s.run c) (s.left c) [] .RUNNING →
      Quiet (s.left c) →
      Safe s.initproc (s.run c) code [] .RUNNING ∧ Quiet code ∧ news code = news (s.left c)) :
    Inv (s.goto c code) := by
  obtain ⟨held, hc⟩ := h.cpu c
  have hno := hc.noff
  rw [hnoff] at hno
  obtain rfl : held = [] := List.length_eq_zero_iff.1 (by omega)
  have hspins : spins (s.left c) = 0 := by omega
  obtain ⟨hquiet, hphase⟩ := hc.head.quiet hc.safe hspins
  have hown : s.own c = .RUNNING := by
    cases hr : s.run c with
    | none =>
      unfold Kernel.own
      rw [hr]
    | some p =>
      rw [own_of_run hr]
      by_contra hne
      exact nomatch (hc.mine hr).1 hne
  obtain ⟨hsafe, hq, hnews⟩ := hcode hown (hown ▸ hc.safe) hquiet
  obtain ⟨hspins', hphase'⟩ := hq.plain
  exact h.control hc .refl (hspins.trans hspins'.symm) hphase hphase' (hown ▸ hsafe) hq.noted.head
    (hnews ▸ List.Sublist.refl _)

omit [DecidableEq C] [DecidableEq Ch] in
/-- A panic changes nothing else. -/
theorem Inv.panics (h : Inv s) (msg : String) : Inv (s.panics msg) := by
  refine ⟨h.one, fun c => ?_, fun p hp => ?_, h.new, h.newOne, h.newNodup, h.parent, h.init,
    h.sched_pointer⟩
  · obtain ⟨held, hc⟩ := h.cpu c
    exact ⟨held, hc.nodup, hc.owner, hc.noff, hc.safe,
      hc.head.congr (List.Subset.refl _) (fun _ _ _ => rfl) fun _ _ hu => hu, hc.proc, hc.sched,
      hc.phase⟩
  · exact ⟨(h.off p hp).ready, (h.off p hp).loads⟩

/-! ## Runs -/

/-- The first process may not exit; no other panic happens. -/
def Sound (s : Kernel n C L Ch) : Prop :=
  Inv s ∧ (s.panic = none ∨ s.panic = some "init exiting")

theorem Inv.next {e : Event C L Ch} (h : Inv s) (hpan : s.panic = none)
    (hs : s.next e = some s') : Sound s' := by
  cases e with
  | go c =>
    obtain ⟨hinv, hnone⟩ := h.exec hpan hs
    exact ⟨hinv, .inl hnone⟩
  | call c a =>
    simp only [Kernel.next] at hs
    split at hs
    next q p hr hp hleft =>
      obtain ⟨held, hc⟩ := h.cpu c
      obtain rfl := Option.some.inj ((hc.proc q hr).1.symm.trans hp)
      have hnoff := hc.noff
      have hsafe := hc.safe
      rw [hleft] at hnoff hsafe
      obtain ⟨rfl, -, -⟩ := hsafe
      -- what the call does, unless it is the exit of the first process
      have hgo : (a = .exit → q ≠ s.initproc) → Sound (s.goto c (a.code q)) := fun hne => by
        refine ⟨h.interrupt hnoff fun hown _ _ => ?_, .inl ((goto_panic _ _ _).trans hpan)⟩
        obtain ⟨hq, hnews⟩ := a.quiet q
        rw [hr, hleft, hnews]
        exact ⟨a.safe hne, hq, rfl⟩
      cases a with
      | exit =>
        dsimp only at hs
        split at hs <;> obtain rfl := Option.some.inj hs
        next => exact ⟨h.panics _, .inr rfl⟩
        next hne => exact hgo fun _ => hne
      | _ =>
        obtain rfl := Option.some.inj hs
        exact hgo nofun
    next => exact nomatch hs
  | intr c l chans =>
    simp only [Kernel.next] at hs
    split at hs
    next hnoff =>
      obtain rfl := Option.some.inj hs
      refine ⟨h.interrupt hnoff fun _ hsafe hq => ?_, .inl ((goto_panic _ _ _).trans hpan)⟩
      exact ⟨⟨⟨nofun, trivial⟩, hsafe.handler chans⟩, (hq.handler chans).cons rfl,
        by simp [Instr.new, news_handler]⟩
    next => exact nomatch hs
  | timer c =>
    simp only [Kernel.next] at hs
    split at hs
    next p hp =>
      split at hs
      next hno =>
        obtain rfl := Option.some.inj hs
        refine ⟨h.interrupt hno.1 fun _ hsafe hq => ?_, .inl ((goto_panic _ _ _).trans hpan)⟩
        have hr : s.run c = some p := by
          obtain ⟨held, hc⟩ := h.cpu c
          cases hr : s.run c with
          | none =>
            have hph := (hc.sched hr).symm.trans hp
            have hl := (hc.phase p hr hph).2.1
            have hlen := List.length_pos_of_mem hl
            have hn := hc.noff
            omega
          | some q => rw [← (hc.proc q hr).1, hp]
        rw [hr] at hsafe ⊢
        exact ⟨hsafe.yield, hq.yield p, by simp [Switch.yield, Instr.new]⟩
      next => exact nomatch hs
    next => exact nomatch hs

theorem Inv.booted (h : (machine n C L Ch).init s) : Inv s := by
  obtain ⟨howner, hcpu, hproc, hsp, -⟩ := h
  have hleft : ∀ c, s.left c = [.rr_scheduler] := fun c =>
    (left_sched (hcpu c).2.2.1).trans (hcpu c).2.2.2
  have hcode : ∀ p, news (s.code p) = [] := fun p => by
    have hp := (hproc p).2
    split at hp
    next => rw [hp.2.1]; rfl
    next => rw [hp.2]; rfl
  have hini : s.state s.initproc = .RUNNABLE ∧ s.code s.initproc = [.forkret] ∧
      s.saved s.initproc = true := by
    have hp := (hproc s.initproc).2
    rwa [if_pos rfl] at hp
  refine ⟨fun c c' p hr => ?_, fun c => ⟨[], .nil, fun k => ?_, ?_, ?_, ?_, fun p hr => ?_,
    fun _ => ?_, fun i _ hi => ?_⟩, fun p _ => ?_, fun p np hnp => ?_, fun p q np hnp => ?_,
    fun p => ?_, fun p => ?_, ⟨(hproc _).1, .inl hini.1⟩, hsp⟩
  · exact nomatch (hcpu c).2.2.1.symm.trans hr
  · rw [howner k]
    exact iff_of_false nofun nofun
  · rw [(hcpu c).1, hleft]
    rfl
  · rw [(hcpu c).2.2.1, hleft]
    exact ⟨rfl, rfl, rfl⟩
  · rw [hleft]
    exact Quiet.cons rfl nofun
  · exact nomatch (hcpu c).2.2.1.symm.trans hr
  · rw [(hcpu c).2.1, (hcpu c).2.2.2]
    rfl
  · rw [(hcpu c).2.2.2] at hi
    exact nomatch hi
  · by_cases hp : p = s.initproc
    · rw [hp]
      refine ⟨fun _ => ⟨hini.2.2, ?_, ?_⟩, fun hr => nomatch hini.1.symm.trans hr⟩
      · rw [hini.2.1]
        exact Quiet.cons rfl nofun
      · rw [hini.2.1]
        exact ⟨s.initproc, rfl, rfl, rfl, rfl, rfl, rfl⟩
    · have hu := (hproc p).2
      rw [if_neg hp] at hu
      refine ⟨fun hst => ?_, fun hst => nomatch hu.1.symm.trans hst⟩
      rw [hu.1] at hst
      simp at hst
  · rw [hcode p] at hnp
    exact nomatch hnp
  · rw [hcode p] at hnp
    exact nomatch hnp
  · rw [hcode p]
    exact .nil
  · rw [(hproc p).1]
    nofun

theorem sound_reachable (h : (machine n C L Ch).Reachable s) : Sound s := by
  refine h.invariant (fun s hi => ⟨.booted hi, .inl hi.2.2.2.2⟩) fun s e s' ⟨hinv, _⟩ hs => ?_
  have hs : (if s.panic ≠ none then none else s.next e) = some s' := hs
  split at hs
  next => exact nomatch hs
  next hpan => exact hinv.next (not_ne_iff.1 hpan) hs

/-! ## One CPU -/

omit [DecidableEq C] [DecidableEq Ch] in
/-- While the lock of a process is free, `c->proc` is the process that the CPU
runs. -/
theorem Inv.proc_iff (h : Inv s) (hfree : s.owner (.proc p) = none) (c : C) :
    s.proc c = some p ↔ s.run c = some p := by
  obtain ⟨held, hc⟩ := h.cpu c
  refine ⟨fun hp => ?_, fun hr => (hc.proc p hr).1⟩
  cases hr : s.run c with
  | none =>
    have hl := (hc.owner _).2 (hc.phase p hr ((hc.sched hr).symm.trans hp)).2.1
    exact nomatch hfree.symm.trans hl
  | some q => rw [← (hc.proc q hr).1, hp]

omit [DecidableEq C] [DecidableEq Ch] in
theorem Inv.running_iff (h : Inv s) (hfree : s.owner (.proc p) = none) :
    s.state p = .RUNNING ↔ ∃ c, s.run c = some p := by
  constructor
  · intro hst
    by_contra hno
    rw [not_exists] at hno
    obtain ⟨c, hr, hl⟩ := (h.off p hno).loads hst
    obtain ⟨held, hc⟩ := h.cpu c
    exact nomatch hfree.symm.trans ((hc.owner _).2 (hc.phase p hr (loads_phase hl)).2.1)
  · rintro ⟨c, hr⟩
    obtain ⟨held, hc⟩ := h.cpu c
    by_contra hne
    exact nomatch hfree.symm.trans ((hc.owner _).2 ((hc.mine hr).1 hne))

/-- A process whose lock is free is RUNNING if and only if exactly one CPU has
it as its `c->proc`; a context that is loaded is complete, and no CPU runs its
process; and nothing but the exit of the first process is a panic. -/
theorem one_cpu (h : (machine n C L Ch).Reachable s) :
    (∀ p, s.owner (.proc p) = none → (s.state p = .RUNNING ↔ ∃! c, s.proc c = some p) ∧
      (s.state p ≠ .RUNNING → ∀ c, s.proc c ≠ some p)) ∧
    (∀ c p rest, s.left c = .load p :: rest → s.saved p = true ∧ ∀ c', s.run c' ≠ some p) ∧
    (s.panic = none ∨ s.panic = some "init exiting") := by
  obtain ⟨hinv, hpanic⟩ := sound_reachable h
  refine ⟨fun p hfree => ⟨⟨fun hst => ?_, fun ⟨c, hp, _⟩ => ?_⟩, fun hst c hp => ?_⟩,
    fun c p rest hleft => ?_, hpanic⟩
  · obtain ⟨c, hr⟩ := (hinv.running_iff hfree).1 hst
    exact ⟨c, (hinv.proc_iff hfree c).2 hr,
      fun c' hp => hinv.one c' c p ((hinv.proc_iff hfree c').1 hp) hr⟩
  · exact (hinv.running_iff hfree).2 ⟨c, (hinv.proc_iff hfree c).1 hp⟩
  · exact hst ((hinv.running_iff hfree).2 ⟨c, (hinv.proc_iff hfree c).1 hp⟩)
  · obtain ⟨held, hc⟩ := hinv.cpu c
    have hsafe := hc.safe
    rw [hleft] at hsafe
    obtain ⟨hr, -⟩ := hsafe
    exact (hinv.load hc hr ((left_sched hr).symm.trans hleft)).1

def slot0 : Fin 2 := ⟨0, Nat.two_pos⟩

/-- Two CPUs, and two slots, of which `init` has the first. -/
def booted : Kernel 2 Bool Unit Unit where
  owner _ := none
  noff _ := 0
  proc _ := none
  run _ := none
  scode _ := [.rr_scheduler]
  code p := if p = slot0 then [.forkret] else []
  saved p := p = slot0
  state p := if p = slot0 then .RUNNABLE else .UNUSED
  chan _ := .null
  pid p := if p = slot0 then 1 else 0
  killed _ := false
  parent _ := none
  nextpid := 2
  initproc := slot0
  sched_pointer := .rr_scheduler
  panic := none

theorem booted_init : (machine 2 Bool Unit Unit).init booted := by
  refine ⟨fun _ => rfl, fun _ => ⟨rfl, rfl, rfl, rfl⟩, fun p => ⟨rfl, ?_⟩, rfl, rfl⟩
  split
  next hp => exact hp ▸ ⟨rfl, rfl, rfl⟩
  next hp => exact ⟨if_neg hp, if_neg hp⟩

/-- The first CPU runs `init`, and switches back when the timer interrupts.
Then the second loads the context. -/
def handOver : List (Event Bool Unit Unit) :=
  List.flatten [List.replicate 9 (.go false), [.timer false], List.replicate 9 (.go false),
    List.replicate 6 (.go true)]

theorem one_cpu_handOver : ∃ s, (machine 2 Bool Unit Unit).exec booted handOver = some s ∧
    (s.proc true, s.left true matches .load 0 :: _, s.saved 0) = (some 0, true, true) ∧
    s.panic = none ∧
    ∀ p, s.owner (.proc p) = none → (s.state p = .RUNNING ↔ ∃! c, s.proc c = some p) := by
  have hrun : ((machine 2 Bool Unit Unit).exec booted handOver).map (fun s =>
      ((s.proc true, s.left true matches .load 0 :: _, s.saved 0), s.panic)) =
        some ((some 0, true, true), none) := by
    decide +kernel
  obtain ⟨s, hs, hr⟩ := Option.map_eq_some_iff.1 hrun
  obtain ⟨hr, hpanic⟩ := Prod.mk.inj hr
  obtain ⟨hone, -, -⟩ := one_cpu (s := s) ⟨booted, handOver, booted_init, hs⟩
  exact ⟨s, hs, hr, hpanic, fun p hp => (hone p hp).1⟩

end Xv6.Switch
