/-
proc.c: every step keeps the discipline.

There is one lemma for the instruction that makes a new process, and one case
for each of the others, by what it does to the state of a process, to the
parents, or to the thread alone.
-/
import Xv6.SwitchSafe

namespace Xv6.Switch

open Conc

variable {n : Nat} {C L Ch : Type} [DecidableEq C] [DecidableEq L] {s s' : Kernel n C L Ch} {c : C}
  {p q : Fin n} {held : List (Lock n L)} {code rest : List (Instr n L Ch)} {i : Fin n}

/-! ## A new process -/

/-- `allocproc` has found an unused slot. -/
theorem Inv.found {pid : Fin n → Nat} {nextpid : Nat} (h : Inv s) (hc : CpuOk s c held)
    (hr : s.run c = some p) (hl : .proc i ∈ held) (hu : s.state i = .UNUSED)
    (hst : s.state p = .RUNNING) (hspins : spins (s.code p) = 0) (hq : Quiet code)
    (safe : Safe s.initproc (some p) code held .RUNNING)
    (hnews : news code = i :: news (s.code p)) :
    Inv (({ s with
      pid := pid, nextpid := nextpid
      state := Function.update s.state i .USED
      code := Function.update s.code i [.forkret]
      saved := Function.update s.saved i true } : Kernel n C L Ch).goto c code) := by
  have hnoff := hc.noff
  rw [left_run hr, hspins] at hnoff
  obtain ⟨hproc, hscode, -, -⟩ := hc.proc p hr
  have hlock := (hc.owner _).2 hl
  have hip : i ≠ p := by
    rintro rfl
    exact nomatch hu.symm.trans hst
  -- the slot is not that of a running process
  have hno : ∀ c', s.run c' ≠ some i :=
    hc.off h hl (fun hi => hip (Option.some.inj (hi.symm.trans hr))) (by rw [hu]; nofun)
  have hnew : ∀ q, i ∉ news (s.code q) := fun q hi => nomatch hu.symm.trans (h.new q i hi).1
  generalize hs' : ({ s with
    pid := pid, nextpid := nextpid
    state := Function.update s.state i .USED
    code := Function.update s.code i [.forkret]
    saved := Function.update s.saved i true } : Kernel n C L Ch).goto c code = s'
  have hs' : ({ s with
      pid := pid, nextpid := nextpid
      state := Function.update s.state i .USED
      code := Function.update (Function.update s.code i [.forkret]) p code
      saved := Function.update s.saved i true } : Kernel n C L Ch) = s' := by
    rw [← hs']
    simp only [Kernel.goto, hr]
  have hrun : s'.run = s.run := hs' ▸ rfl
  have hini : s'.initproc = s.initproc := hs' ▸ rfl
  have hcodep : s'.code p = code := by
    subst hs'
    exact Function.update_self _ _ _
  have hcodei : s'.code i = [.forkret] := by
    subst hs'
    exact (Function.update_of_ne hip _ _).trans (Function.update_self _ _ _)
  have hcode : ∀ q, q ≠ p → q ≠ i → s'.code q = s.code q := fun q hp hi => by
    subst hs'
    exact (Function.update_of_ne hp _ _).trans (Function.update_of_ne hi _ _)
  have hstatei : s'.state i = .USED := by
    subst hs'
    exact Function.update_self _ _ _
  have hstate : ∀ q, q ≠ i → s'.state q = s.state q ∧ s'.saved q = s.saved q := fun q hi => by
    subst hs'
    exact ⟨Function.update_of_ne hi _ _, Function.update_of_ne hi _ _⟩
  have hreadyi : Ready s' i := by
    refine ⟨?_, ?_, ?_⟩
    · subst hs'
      exact Function.update_self _ _ _
    · rw [hcodei]
      intro ins hins
      rw [List.mem_singleton.1 hins]
      rfl
    · rw [hcodei]
      exact ⟨i, rfl, rfl, rfl, rfl, rfl, rfl⟩
  have hready : ∀ q, q ≠ p → q ≠ i → Ready s q → Ready s' q := fun q hp hi hrd => by
    refine ⟨(hstate q hi).2.trans hrd.1, ?_⟩
    rw [hini, hcode q hp hi]
    exact hrd.2
  -- whose new process is which
  have hold : ∀ q np, np ∈ news (s'.code q) → q = p ∧ np = i ∨ np ∈ news (s.code q) :=
    fun q np hnp => by
      by_cases hqp : q = p
      · rw [hqp, hcodep, hnews] at hnp
        exact (List.mem_cons.1 hnp).imp (fun e => ⟨hqp, e⟩) fun hm => hqp ▸ hm
      · by_cases hqi : q = i
        · rw [hqi, hcodei] at hnp
          simp [news, Instr.new] at hnp
        · rw [hcode q hqp hqi] at hnp
          exact .inr hnp
  refine h.step (c := c)
    ⟨fun _ _ => congrFun hrun _, fun _ _ => hs' ▸ rfl, fun _ _ => hs' ▸ rfl, fun _ _ => hs' ▸ rfl,
      fun _ _ _ => hs' ▸ .rfl, fun q hq _ => ?_, fun _ => .inl (hs' ▸ rfl),
      fun q hq => .inl ((congrFun hrun c).symm.trans hq), hini⟩
    ⟨held, hc.nodup, fun k => ?_, ?_, ?_, ?_, fun q hq => ?_, fun hn => ?_, fun _ hn => ?_⟩
    (fun q hq => ?_) (fun q np hnp => ?_) (fun q q' np hq hq' => ?_) (fun q => ?_) (fun q => ?_)
    ?_ ?_
  · have hqp : q ≠ p := fun e => hq (e ▸ hr)
    by_cases hqi : q = i
    · exact .inr (hqi ▸ ⟨hlock, by rw [hu]; nofun⟩)
    · exact .inl ⟨hcode q hqp hqi, hstate q hqi⟩
  · subst hs'
    exact hc.owner k
  · rw [left_run ((congrFun hrun c).trans hr), hcodep,
      hq.plain.1]
    subst hs'
    exact hnoff
  · have hrc := (congrFun hrun c).trans hr
    rw [hini, hrc, left_run hrc, own_of_run hrc, hcodep, (hstate p hip.symm).1, hst]
    exact safe
  · rw [left_run ((congrFun hrun c).trans hr), hcodep]
    exact hq.noted.head
  · rw [hrun] at hq
    obtain rfl := Option.some.inj (hr.symm.trans hq)
    rw [(hstate p hip.symm).1, hst]
    subst hs'
    exact ⟨hproc, hscode, fun hne => absurd rfl hne, nofun⟩
  · exact nomatch hn.symm.trans ((congrFun hrun c).trans hr)
  · exact nomatch hn.symm.trans ((congrFun hrun c).trans hr)
  · rw [hrun] at hq
    have hqp : q ≠ p := fun e => hq c (e ▸ hr)
    by_cases hqi : q = i
    · rw [hqi]
      refine ⟨fun _ => hreadyi, fun hst' => nomatch hstatei.symm.trans hst'⟩
    · have hoff := h.off q hq
      refine ⟨fun hst' => hready q hqp hqi (hoff.ready ((hstate q hqi).1 ▸ hst')), fun hst' => ?_⟩
      obtain ⟨c', hn, hlo⟩ := hoff.loads ((hstate q hqi).1.symm.trans hst')
      subst hs'
      exact ⟨c', hn, hlo⟩
  · rcases hold q np hnp with ⟨-, rfl⟩ | hmem
    · exact ⟨hstatei, hreadyi⟩
    · obtain ⟨hused, hrd⟩ := h.new q np hmem
      have hni : np ≠ i := fun e => hnew q (e ▸ hmem)
      have hnp' : np ≠ p := by
        rintro rfl
        exact nomatch hst.symm.trans hused
      exact ⟨(hstate np hni).1.trans hused, hready np hnp' hni hrd⟩
  · rcases hold q np hq with ⟨rfl, rfl⟩ | hq <;> rcases hold q' np hq' with ⟨rfl, he⟩ | hq'
    · rfl
    · exact absurd hq' (hnew q')
    · exact absurd (he ▸ hq) (hnew q)
    · exact h.newOne q q' np hq hq'
  · by_cases hqp : q = p
    · rw [hqp, hcodep, hnews]
      exact List.nodup_cons.2 ⟨hnew p, h.newNodup p⟩
    · by_cases hqi : q = i
      · rw [hqi, hcodei]
        exact .nil
      · rw [hcode q hqp hqi]
        exact h.newNodup q
  · subst hs'
    exact h.parent q
  · have hne : s.initproc ≠ i := by
      intro e
      have hin := h.init.2
      rw [e, hu] at hin
      simp at hin
    rw [hini, (hstate _ hne).1]
    subst hs'
    exact h.init
  · subst hs'
    exact h.sched_pointer

/-! ## Instructions -/

omit [DecidableEq C] [DecidableEq L] in
theorem Quiet.cons {ins : Instr n L Ch} (h : ins.follows = false) (hr : Quiet rest) :
    Quiet (ins :: rest) := fun i hi => (List.mem_cons.1 hi).elim (fun e => e ▸ h) (hr i)

omit [DecidableEq L] in
theorem goto_panic (s : Kernel n C L Ch) (c : C) (code : List (Instr n L Ch)) :
    (s.goto c code).panic = s.panic := by
  rw [goto_eq]

omit [DecidableEq C] [DecidableEq L] in
@[simp] theorem news_cons (ins : Instr n L Ch) (rest : List (Instr n L Ch)) :
    news (ins :: rest) = ins.new.toList ++ news rest := by
  unfold news
  rw [List.filterMap_cons]
  cases ins.new <;> rfl

omit [DecidableEq C] [DecidableEq L] in
@[simp] theorem news_append (l l' : List (Instr n L Ch)) : news (l ++ l') = news l ++ news l' :=
  List.filterMap_append

/-- A thread goes on with quiet code. -/
theorem Inv.quiet {ins : Instr n L Ch} (h : Inv s) (hc : CpuOk s c held) (hs : Plain s s')
    (hleft : s.left c = ins :: rest) (h₀ : spins (ins :: rest) = 0)
    (h₁ : phase (ins :: rest) = none) (hq : Quiet code)
    (safe : Safe s.initproc (s.run c) code held (s.own c))
    (hnews : (news code).Sublist (news (ins :: rest))) : Inv (s'.goto c code) := by
  obtain ⟨hspins, hphase⟩ := hq.plain
  refine h.control hc hs ?_ ?_ hphase safe hq.noted.head ?_
  · rw [hleft, h₀, hspins]
  · rw [hleft]
    exact h₁
  · rw [hleft]
    exact hnews

omit [DecidableEq C] in
/-- Who runs on the CPU is its `c->proc`. -/
theorem CpuOk.run_ne (hc : CpuOk s c held) (h : s.proc c ≠ some i) : s.run c ≠ some i :=
  fun hr => h (hc.proc i hr).1

omit [DecidableEq C] in
/-- A process that another, whose lock it holds, finds SLEEPING. -/
theorem CpuOk.ready (h : Inv s) (hc : CpuOk s c held) (hi : .proc i ∈ held)
    (hne : s.run c ≠ some i) (hs : s.state i = .SLEEPING) : Ready s i :=
  (h.off i (hc.off h hi hne (by rw [hs]; nofun))).ready (.inr (.inl hs))

omit [DecidableEq C] [DecidableEq L] in
theorem Order.proc (h : NoProc held) (i : Fin n) : Order held (.proc i) := ⟨h i, .inl h⟩

omit [DecidableEq C] [DecidableEq L] in
theorem noProc_nil : NoProc ([] : List (Lock n L)) := nofun

omit [DecidableEq C] [DecidableEq L] in
theorem noProc_wait : NoProc ([.wait_lock] : List (Lock n L)) := by
  intro i
  simp

variable [DecidableEq Ch]

/-- The invariant, without a panic. -/
def Fine (s : Kernel n C L Ch) : Prop := Inv s ∧ s.panic = none

/-- `wakeup` -/
theorem Inv.wakeup {chan : Chan n Ch} {j : Nat} (h : Inv s) (hpan : s.panic = none)
    (hleft : s.left c = .wakeup chan j :: rest) (hs : s.exec c (.wakeup chan j :: rest) = some s') :
    Fine s' := by
  obtain ⟨held, hc⟩ := h.cpu c
  have hsafe := hc.safe
  have hhead := hc.head
  rw [hleft] at hsafe hhead
  obtain ⟨hno, hsafe⟩ := hsafe
  have hq : Quiet rest := Quiet.tail hhead
  simp only [Kernel.exec] at hs
  split at hs
  next hj =>
    split at hs
    next =>
      obtain rfl := Option.some.inj hs
      exact ⟨h.quiet hc .refl hleft rfl rfl (hq.cons rfl) ⟨hno, hsafe⟩ (by simp [Instr.new]),
        (goto_panic _ _ _).trans hpan⟩
    next hne =>
      obtain rfl := Option.some.inj hs
      refine ⟨h.quiet hc .refl hleft rfl rfl ((hq.cons rfl).cons rfl)
        ⟨.proc hno _, hc.run_ne hne, _,
        rfl, hno, hsafe⟩ (by simp [Instr.new]), (goto_panic _ _ _).trans hpan⟩
  next =>
    obtain rfl := Option.some.inj hs
    exact ⟨h.quiet hc .refl hleft rfl rfl hq hsafe (by simp [Instr.new]),
      (goto_panic _ _ _).trans hpan⟩

theorem Inv.wakeTest {chan : Chan n Ch} (h : Inv s) (hpan : s.panic = none)
    (hleft : s.left c = .wakeTest chan i :: rest)
    (hs : s.exec c (.wakeTest chan i :: rest) = some s') : Fine s' := by
  obtain ⟨held, hc⟩ := h.cpu c
  have hsafe := hc.safe
  have hhead := hc.head
  rw [hleft] at hsafe hhead
  obtain ⟨hne, held, rfl, hno, hsafe⟩ := hsafe
  have hq : Quiet rest := Quiet.tail hhead
  have hcode : Quiet (.release (.proc i) :: .wakeup chan (i + 1) :: rest) := (hq.cons rfl).cons rfl
  have hsafe' : Safe s.initproc (s.run c) (.release (.proc i) :: .wakeup chan (i + 1) :: rest)
      (.proc i :: held) (s.own c) := by
    refine ⟨List.mem_cons_self, fun p hp hpi => absurd hp ?_, ?_⟩
    · obtain rfl := Lock.proc.inj hpi
      exact hne
    · rw [List.erase_cons_head]
      exact ⟨hno, hsafe⟩
  simp only [Kernel.exec] at hs
  obtain rfl := Option.some.inj hs
  split
  next hsl =>
    have hrd := hc.ready h List.mem_cons_self hne hsl.1
    exact ⟨h.setOther s.parent hc List.mem_cons_self hne (by rw [hsl.1]; nofun)
      (.inl ⟨rfl, hrd⟩) (.inl rfl) (fun hu => nomatch hsl.1.symm.trans hu) (by rw [hleft]; rfl)
      (by rw [hleft]; rfl) hcode hsafe' (by rw [hleft]; simp [Instr.new]),
      (goto_panic _ _ _).trans hpan⟩
  next =>
    exact ⟨h.quiet hc .refl hleft rfl rfl hcode hsafe' (by simp [Instr.new]),
      (goto_panic _ _ _).trans hpan⟩

/-- The loops of `kill` and `sys_va2pa`. -/
theorem Inv.kill {pid j : Nat} (h : Inv s) (hpan : s.panic = none)
    (hleft : s.left c = .kill pid j :: rest) (hs : s.exec c (.kill pid j :: rest) = some s') :
    Fine s' := by
  obtain ⟨held, hc⟩ := h.cpu c
  have hsafe := hc.safe
  have hhead := hc.head
  rw [hleft] at hsafe hhead
  obtain ⟨rfl, hst, hsafe⟩ := hsafe
  have hq : Quiet rest := Quiet.tail hhead
  simp only [Kernel.exec] at hs
  split at hs <;> obtain rfl := Option.some.inj hs
  next =>
    exact ⟨h.quiet hc .refl hleft rfl rfl ((hq.cons rfl).cons rfl)
      ⟨.proc noProc_nil _, rfl, hst, hsafe⟩ (by simp [Instr.new]), (goto_panic _ _ _).trans hpan⟩
  next =>
    exact ⟨h.quiet hc .refl hleft rfl rfl hq hsafe (by simp [Instr.new]),
      (goto_panic _ _ _).trans hpan⟩

theorem Inv.va2pa {pid j : Nat} (h : Inv s) (hpan : s.panic = none)
    (hleft : s.left c = .va2pa pid j :: rest) (hs : s.exec c (.va2pa pid j :: rest) = some s') :
    Fine s' := by
  obtain ⟨held, hc⟩ := h.cpu c
  have hsafe := hc.safe
  have hhead := hc.head
  rw [hleft] at hsafe hhead
  obtain ⟨rfl, hst, hsafe⟩ := hsafe
  have hq : Quiet rest := Quiet.tail hhead
  simp only [Kernel.exec] at hs
  split at hs <;> obtain rfl := Option.some.inj hs
  next =>
    exact ⟨h.quiet hc .refl hleft rfl rfl ((hq.cons rfl).cons rfl)
      ⟨.proc noProc_nil _, rfl, hst, hsafe⟩ (by simp [Instr.new]), (goto_panic _ _ _).trans hpan⟩
  next =>
    exact ⟨h.quiet hc .refl hleft rfl rfl hq hsafe (by simp [Instr.new]),
      (goto_panic _ _ _).trans hpan⟩

omit [DecidableEq C] [DecidableEq Ch] in
/-- The end of a section under the lock of a process alone. -/
theorem Safe.release_proc {me : Option (Fin n)} {ini : Fin n} {st : ProcState} (hst : st = .RUNNING)
    (h : Safe ini me rest held st) :
    Safe ini me (.release (.proc i) :: rest) (.proc i :: held) st := by
  refine ⟨List.mem_cons_self, fun _ _ _ => hst, ?_⟩
  rw [List.erase_cons_head]
  exact h

theorem Inv.killTest {pid : Nat} (h : Inv s) (hpan : s.panic = none)
    (hleft : s.left c = .killTest pid i :: rest)
    (hs : s.exec c (.killTest pid i :: rest) = some s') : Fine s' := by
  obtain ⟨held, hc⟩ := h.cpu c
  have hsafe := hc.safe
  have hhead := hc.head
  rw [hleft] at hsafe hhead
  obtain ⟨rfl, hst, hsafe⟩ := hsafe
  have hq : Quiet rest := Quiet.tail hhead
  simp only [Kernel.exec] at hs
  split at hs <;> obtain rfl := Option.some.inj hs
  next =>
    unfold Kernel.killProc
    dsimp only
    split
    next hsl =>
      have hne : s.run c ≠ some i := fun hr => by
        rw [own_of_run hr] at hst
        exact nomatch hst.symm.trans hsl
      have hrd := hc.ready h (List.mem_singleton.2 rfl) hne hsl
      exact ⟨h.setOther s.parent hc (List.mem_singleton.2 rfl) hne
        (fun hr => nomatch hr.symm.trans hsl) (.inl ⟨rfl, hrd⟩) (.inl rfl)
        (fun hu => nomatch hu.symm.trans hsl) (by rw [hleft]; rfl) (by rw [hleft]; rfl)
        (hq.cons rfl)
        (hsafe.release_proc hst) (by rw [hleft]; simp [Instr.new]), (goto_panic _ _ _).trans hpan⟩
    next =>
      exact ⟨h.quiet hc ⟨_, _, _, _, rfl⟩ hleft rfl rfl (hq.cons rfl) (hsafe.release_proc hst)
        (by simp [Instr.new]), (goto_panic _ _ _).trans hpan⟩
  next =>
    exact ⟨h.quiet hc .refl hleft rfl rfl ((hq.cons rfl).cons rfl)
      (Safe.release_proc hst ⟨rfl, hst, hsafe⟩) (by simp [Instr.new]),
      (goto_panic _ _ _).trans hpan⟩

theorem Inv.va2paTest {pid : Nat} (h : Inv s) (hpan : s.panic = none)
    (hleft : s.left c = .va2paTest pid i :: rest)
    (hs : s.exec c (.va2paTest pid i :: rest) = some s') : Fine s' := by
  obtain ⟨held, hc⟩ := h.cpu c
  have hsafe := hc.safe
  have hhead := hc.head
  rw [hleft] at hsafe hhead
  obtain ⟨rfl, hst, hsafe⟩ := hsafe
  have hq : Quiet rest := Quiet.tail hhead
  simp only [Kernel.exec] at hs
  split at hs <;> obtain rfl := Option.some.inj hs
  next =>
    exact ⟨h.quiet hc .refl hleft rfl rfl (hq.cons rfl) (hsafe.release_proc hst)
      (by simp [Instr.new]), (goto_panic _ _ _).trans hpan⟩
  next =>
    exact ⟨h.quiet hc .refl hleft rfl rfl ((hq.cons rfl).cons rfl)
      (Safe.release_proc hst ⟨rfl, hst, hsafe⟩) (by simp [Instr.new]),
      (goto_panic _ _ _).trans hpan⟩

/-! ## `fork` -/

omit [DecidableEq C] [DecidableEq L] [DecidableEq Ch] in
@[simp] theorem news_uses (ls : List L) : news (uses ls : List (Instr n L Ch)) = [] := by
  induction ls with
  | nil => rfl
  | cons l ls ih => simpa [uses, Instr.new] using ih

omit [DecidableEq C] [DecidableEq L] [DecidableEq Ch] in
theorem Quiet.uses (h : Quiet rest) (ls : List L) : Quiet (uses ls ++ rest) := by
  induction ls with
  | nil => exact h
  | cons l ls ih => exact (ih.cons rfl).cons rfl

omit [DecidableEq C] [DecidableEq Ch] in
theorem Safe.uses {me : Option (Fin n)} {ini : Fin n} {st : ProcState} (ls : List L)
    (hno : ∀ l, .other l ∉ held) (h : Safe ini me rest held st) :
    Safe ini me (uses ls ++ rest) held st := by
  induction ls with
  | nil => exact h
  | cons l ls ih =>
    refine ⟨⟨hno l, trivial⟩, List.mem_cons_self, nofun, ?_⟩
    rw [List.erase_cons_head]
    exact ih

theorem Inv.alloc {f : Fork L} {j : Nat} (h : Inv s) (hpan : s.panic = none)
    (hleft : s.left c = .alloc p f j :: rest) (hs : s.exec c (.alloc p f j :: rest) = some s') :
    Fine s' := by
  obtain ⟨held, hc⟩ := h.cpu c
  have hsafe := hc.safe
  have hhead := hc.head
  rw [hleft] at hsafe hhead
  obtain ⟨hme, rfl, hst, hsafe⟩ := hsafe
  have hq : Quiet rest := Quiet.tail hhead
  simp only [Kernel.exec] at hs
  split at hs <;> obtain rfl := Option.some.inj hs
  next =>
    exact ⟨h.quiet hc .refl hleft rfl rfl ((hq.cons rfl).cons rfl)
      ⟨.proc noProc_nil _, hme, rfl, hst, hsafe⟩ (by simp [Instr.new]),
      (goto_panic _ _ _).trans hpan⟩
  next =>
    exact ⟨h.quiet hc .refl hleft rfl rfl hq hsafe (by simp [Instr.new]),
      (goto_panic _ _ _).trans hpan⟩

theorem Inv.allocTest {f : Fork L} (h : Inv s) (hpan : s.panic = none)
    (hleft : s.left c = .allocTest p f i :: rest)
    (hs : s.exec c (.allocTest p f i :: rest) = some s') : Fine s' := by
  obtain ⟨held, hc⟩ := h.cpu c
  have hsafe := hc.safe
  have hhead := hc.head
  rw [hleft] at hsafe hhead
  obtain ⟨hme, rfl, hst, hsafe⟩ := hsafe
  have hq : Quiet rest := Quiet.tail hhead
  simp only [Kernel.exec] at hs
  split at hs <;> obtain rfl := Option.some.inj hs
  next hu =>
    refine ⟨h.control hc .refl (by rw [hleft]; rfl) (by rw [hleft]; rfl) rfl
      ⟨⟨by simp, trivial⟩, hme, rfl, hst, hsafe⟩ ⟨⟨List.mem_singleton.2 rfl, hu⟩, hq⟩ ?_,
      (goto_panic _ _ _).trans hpan⟩
    rw [hleft]
    simp [Instr.new]
  next =>
    exact ⟨h.quiet hc .refl hleft rfl rfl ((hq.cons rfl).cons rfl)
      (Safe.release_proc hst ⟨hme, rfl, hst, hsafe⟩) (by simp [Instr.new]),
      (goto_panic _ _ _).trans hpan⟩

theorem Inv.foundNew {f : Fork L} (h : Inv s) (hpan : s.panic = none)
    (hleft : s.left c = .found p f i :: rest)
    (hs : s.exec c (.found p f i :: rest) = some s') : Fine s' := by
  obtain ⟨held, hc⟩ := h.cpu c
  have hsafe := hc.safe
  have hhead := hc.head
  rw [hleft] at hsafe hhead
  obtain ⟨hme, rfl, hst, hsafe⟩ := hsafe
  obtain ⟨⟨-, hu⟩, hq⟩ := hhead
  have hleft' := (left_run hme).symm.trans hleft
  rw [own_of_run hme] at hst hsafe
  have hip : i ≠ p := by
    rintro rfl
    exact nomatch hu.symm.trans hst
  have hini : i ≠ s.initproc := by
    rintro rfl
    have hin := h.init.2
    rw [hu] at hin
    simp at hin
  simp only [Kernel.exec] at hs
  split at hs <;> obtain rfl := Option.some.inj hs
  next =>
    refine ⟨h.found hc hme (by simp) hu hst (by rw [hleft']; rfl)
      (Quiet.cons rfl ((hq.cons rfl).uses f.locks)) ⟨by simp, nofun, ?_⟩ ?_,
      (goto_panic _ _ _).trans hpan⟩
    · rw [List.erase_cons_head]
      refine Safe.uses f.locks (by simp) ⟨hme ▸ rfl, hip.symm, rfl, rfl, ?_⟩
      rw [← hme, ← hst]
      exact hsafe
    · rw [hleft']
      simp [Instr.new]
  next =>
    have hidem : Function.update (Function.update s.state i .USED) i .UNUSED =
        Function.update s.state i .UNUSED := Function.update_idem ..
    have hsafe' : Safe s.initproc (s.run c) (.release .pid_lock :: .release (.proc i) :: rest)
        [.pid_lock, .proc i] (s.own c) := by
      refine ⟨by simp, nofun, ?_⟩
      rw [List.erase_cons_head, own_of_run hme]
      exact hsafe.release_proc hst
    simp only [Kernel.freeproc, hidem]
    exact ⟨h.setOther _ hc (i := i) (by simp) (fun hr => hip (Option.some.inj (hr.symm.trans hme)))
      (by rw [hu]; nofun) (.inr ⟨rfl, hini⟩) (.inr rfl) (fun hu' => nomatch hu.symm.trans hu')
      (by rw [hleft]; rfl) (by rw [hleft]; rfl) ((hq.cons rfl).cons rfl) hsafe'
      (by rw [hleft]; simp [Instr.new]), (goto_panic _ _ _).trans hpan⟩

/-- `freeproc` of a new process, or the rest of `fork`. -/
theorem Inv.copied {f : Fork L} (h : Inv s) (hpan : s.panic = none)
    (hleft : s.left c = .copied p f i :: rest)
    (hs : s.exec c (.copied p f i :: rest) = some s') : Fine s' := by
  obtain ⟨held, hc⟩ := h.cpu c
  have hsafe := hc.safe
  have hhead := hc.head
  rw [hleft] at hsafe hhead
  obtain ⟨hme, hpi, rfl, hst, hsafe⟩ := hsafe
  have hq : Quiet rest := Quiet.tail hhead
  have hnd := h.newNodup p
  have hin : i ∈ news (s.code p) := by
    rw [← left_run hme, hleft]
    simp [Instr.new]
  rw [← left_run hme, hleft] at hnd
  have hout : i ∉ news rest := (List.nodup_cons.1 hnd).1
  obtain ⟨hu, -⟩ := h.new p i hin
  have hini : i ≠ s.initproc := by
    rintro rfl
    have hin := h.init.2
    rw [hu] at hin
    simp at hin
  simp only [Kernel.exec] at hs
  split at hs <;> obtain rfl := Option.some.inj hs
  next =>
    have hcode : Quiet (.release (.proc i) :: .acquire .wait_lock :: .setParent p i ::
        .release .wait_lock :: .acquire (.proc i) :: .publish i :: .release (.proc i) :: rest) :=
      ((((((hq.cons rfl).cons rfl).cons rfl).cons rfl).cons rfl).cons rfl).cons rfl
    refine ⟨h.quiet hc .refl hleft rfl rfl hcode ⟨by simp, fun _ _ _ => hst, ?_⟩ ?_,
      (goto_panic _ _ _).trans hpan⟩
    · rw [List.erase_cons_head]
      refine ⟨⟨by simp, noProc_nil⟩, hme, hpi, by simp, by simp [Instr.new], by simp, nofun, ?_⟩
      rw [List.erase_cons_head]
      exact ⟨.proc noProc_nil i, ⟨p, hme, hpi⟩, by simp, hsafe.release_proc hst⟩
    · simp [Instr.new]
  next =>
    exact ⟨h.setOther _ hc (List.mem_singleton.2 rfl)
      (fun hr => hpi (Option.some.inj (hme.symm.trans hr))) (by rw [hu]; nofun) (.inr ⟨rfl, hini⟩)
      (.inr rfl) (fun _ => ⟨p, hme, left_run hme ▸ hin, by simpa [Instr.new] using hout⟩)
      (by rw [hleft]; rfl) (by rw [hleft]; rfl) (hq.cons rfl) (hsafe.release_proc hst)
      (by rw [hleft]; simp [Instr.new]), (goto_panic _ _ _).trans hpan⟩

theorem Inv.setParent (h : Inv s) (hpan : s.panic = none)
    (hleft : s.left c = .setParent p i :: rest)
    (hs : s.exec c (.setParent p i :: rest) = some s') : Fine s' := by
  obtain ⟨held, hc⟩ := h.cpu c
  have hsafe := hc.safe
  have hhead := hc.head
  rw [hleft] at hsafe hhead
  obtain ⟨hme, hpi, hl, hnew, hsafe⟩ := hsafe
  obtain rfl := Option.some.inj hs
  have hin : i ∈ news (s.code p) := by
    rw [← left_run hme, hleft]
    simpa [Instr.new] using hnew
  obtain ⟨hu, -⟩ := h.new p i hin
  have hini : s.initproc ≠ i := by
    rintro rfl
    have hin := h.init.2
    rw [hu] at hin
    simp at hin
  refine ⟨h.setParents hc hl (fun q => ?_) ((Function.update_of_ne hini _ _).trans h.init.1)
    (by rw [hleft]; rfl) (by rw [hleft]; rfl) (Quiet.tail hhead) hsafe
    (by rw [hleft]; simp [Instr.new]), (goto_panic _ _ _).trans hpan⟩
  by_cases hqi : q = i
  · rw [hqi, Function.update_self]
    exact fun e => hpi (Option.some.inj e)
  · rw [Function.update_of_ne hqi]
    exact h.parent q

theorem Inv.publish (h : Inv s) (hpan : s.panic = none) (hleft : s.left c = .publish i :: rest)
    (hs : s.exec c (.publish i :: rest) = some s') : Fine s' := by
  obtain ⟨held, hc⟩ := h.cpu c
  have hsafe := hc.safe
  have hhead := hc.head
  rw [hleft] at hsafe hhead
  obtain ⟨⟨p, hme, hpi⟩, hl, hsafe⟩ := hsafe
  obtain rfl := Option.some.inj hs
  have hnd := h.newNodup p
  have hin : i ∈ news (s.code p) := by
    rw [← left_run hme, hleft]
    simp [Instr.new]
  rw [← left_run hme, hleft] at hnd
  have hout : i ∉ news rest := (List.nodup_cons.1 hnd).1
  obtain ⟨hu, hrd⟩ := h.new p i hin
  exact ⟨h.setOther s.parent hc hl (fun hr => hpi (Option.some.inj (hme.symm.trans hr)))
    (by rw [hu]; nofun) (.inl ⟨rfl, hrd⟩) (.inl rfl)
    (fun _ => ⟨p, hme, left_run hme ▸ hin, by simpa [Instr.new] using hout⟩) (by rw [hleft]; rfl)
    (by rw [hleft]; rfl) (Quiet.tail hhead) hsafe (by rw [hleft]; simp [Instr.new]),
    (goto_panic _ _ _).trans hpan⟩

/-! ## `exit` and `wait` -/

theorem Inv.reparent {j : Nat} (h : Inv s) (hpan : s.panic = none)
    (hleft : s.left c = .reparent p j :: rest) (hs : s.exec c (.reparent p j :: rest) = some s') :
    Fine s' := by
  obtain ⟨held, hc⟩ := h.cpu c
  have hsafe := hc.safe
  have hhead := hc.head
  rw [hleft] at hsafe hhead
  obtain ⟨hme, rfl, hsafe⟩ := hsafe
  have hq : Quiet rest := Quiet.tail hhead
  simp only [Kernel.exec] at hs
  split at hs
  next hj =>
    split at hs <;> obtain rfl := Option.some.inj hs
    next hp =>
      have hini : s.initproc ≠ ⟨j, hj⟩ := by
        intro e
        have hn := h.init.1
        rw [e] at hn
        exact nomatch hn.symm.trans hp
      refine ⟨h.setParents hc (List.mem_singleton.2 rfl) (fun q => ?_)
        ((Function.update_of_ne hini _ _).trans h.init.1) (by rw [hleft]; rfl) (by rw [hleft]; rfl)
        ((hq.cons rfl).cons rfl) ⟨noProc_wait, hme, rfl, hsafe⟩ (by rw [hleft]; simp [Instr.new]),
        (goto_panic _ _ _).trans hpan⟩
      by_cases hqj : q = ⟨j, hj⟩
      · rw [hqj, Function.update_self]
        exact fun e => hini (Option.some.inj e)
      · rw [Function.update_of_ne hqj]
        exact h.parent q
    next =>
      exact ⟨h.quiet hc .refl hleft rfl rfl (hq.cons rfl) ⟨hme, rfl, hsafe⟩ (by simp [Instr.new]),
        (goto_panic _ _ _).trans hpan⟩
  next =>
    obtain rfl := Option.some.inj hs
    exact ⟨h.quiet hc .refl hleft rfl rfl hq hsafe (by simp [Instr.new]),
      (goto_panic _ _ _).trans hpan⟩

theorem Inv.waitScan {copyout : Bool} {j : Nat} {havekids : Bool} (h : Inv s)
    (hpan : s.panic = none)
    (hleft : s.left c = .waitScan p copyout j havekids :: rest)
    (hs : s.exec c (.waitScan p copyout j havekids :: rest) = some s') : Fine s' := by
  obtain ⟨held, hc⟩ := h.cpu c
  have hsafe := hc.safe
  have hhead := hc.head
  rw [hleft] at hsafe hhead
  obtain ⟨hme, rfl, hst, hsafe⟩ := hsafe
  have hq : Quiet rest := Quiet.tail hhead
  simp only [Kernel.exec] at hs
  split at hs
  next hj =>
    split at hs <;> obtain rfl := Option.some.inj hs
    next =>
      exact ⟨h.quiet hc .refl hleft rfl rfl ((hq.cons rfl).cons rfl)
        ⟨.proc noProc_wait _, hme, rfl, hst, hsafe⟩ (by simp [Instr.new]),
        (goto_panic _ _ _).trans hpan⟩
    next =>
      exact ⟨h.quiet hc .refl hleft rfl rfl (hq.cons rfl) ⟨hme, rfl, hst, hsafe⟩
        (by simp [Instr.new]), (goto_panic _ _ _).trans hpan⟩
  next =>
    split at hs <;> obtain rfl := Option.some.inj hs
    next =>
      exact ⟨h.quiet hc .refl hleft rfl rfl ((hq.cons rfl).cons rfl)
        ⟨.proc noProc_wait _, hme, rfl, hst, hsafe⟩ (by simp [Instr.new]),
        (goto_panic _ _ _).trans hpan⟩
    next =>
      exact ⟨h.quiet hc .refl hleft rfl rfl (hq.cons rfl)
        ⟨by simp, nofun, by rw [List.erase_cons_head]; exact hsafe⟩ (by simp [Instr.new]),
        (goto_panic _ _ _).trans hpan⟩

omit [DecidableEq C] [DecidableEq Ch] in
/-- The end of a section under `wait_lock` and the lock of a process. -/
theorem Safe.release_both {me : Option (Fin n)} {ini : Fin n} {st : ProcState} (hst : st = .RUNNING)
    (h : Safe ini me rest [] st) :
    Safe ini me (.release (.proc i) :: .release .wait_lock :: rest) [.proc i, .wait_lock] st := by
  refine Safe.release_proc hst ⟨by simp, nofun, ?_⟩
  rw [List.erase_cons_head]
  exact h

theorem Inv.waitTest {copyout : Bool} (h : Inv s) (hpan : s.panic = none)
    (hleft : s.left c = .waitTest p copyout i :: rest)
    (hs : s.exec c (.waitTest p copyout i :: rest) = some s') : Fine s' := by
  obtain ⟨held, hc⟩ := h.cpu c
  have hsafe := hc.safe
  have hhead := hc.head
  rw [hleft] at hsafe hhead
  obtain ⟨hme, rfl, hst, hsafe⟩ := hsafe
  have hq : Quiet rest := Quiet.tail hhead
  simp only [Kernel.exec] at hs
  split at hs <;> obtain rfl := Option.some.inj hs
  next hz =>
    have hini : i ≠ s.initproc := by
      rintro rfl
      have hin := h.init.2
      rw [hz] at hin
      simp at hin
    have hne : s.run c ≠ some i := fun hr => by
      rw [own_of_run hr] at hst
      exact nomatch hst.symm.trans hz
    split
    next =>
      exact ⟨h.setOther _ hc (by simp) hne (by rw [hz]; nofun) (.inr ⟨rfl, hini⟩) (.inr rfl)
        (fun hu => nomatch hz.symm.trans hu) (by rw [hleft]; rfl) (by rw [hleft]; rfl)
        ((hq.cons rfl).cons rfl) (hsafe.release_both hst) (by rw [hleft]; simp [Instr.new]),
        (goto_panic _ _ _).trans hpan⟩
    next =>
      exact ⟨h.quiet hc .refl hleft rfl rfl ((hq.cons rfl).cons rfl) (hsafe.release_both hst)
        (by simp [Instr.new]), (goto_panic _ _ _).trans hpan⟩
  next =>
    exact ⟨h.quiet hc .refl hleft rfl rfl ((hq.cons rfl).cons rfl)
      (Safe.release_proc hst ⟨hme, rfl, hst, hsafe⟩) (by simp [Instr.new]),
      (goto_panic _ _ _).trans hpan⟩

omit [DecidableEq C] [DecidableEq Ch] in
/-- `sleep` with this lock only. -/
theorem Safe.sleep {ini : Fin n} {chan : Chan n Ch} {k : Lock n L} (hk : ∀ i, k ≠ .proc i)
    (h : Safe ini (some p) rest [k] .RUNNING) :
    Safe ini (some p) (sleep p chan k ++ rest) [k] .RUNNING := by
  have hno : NoProc [k] := fun i hi => hk i (List.mem_singleton.1 hi).symm
  have herase : ([.proc p, k] : List (Lock n L)).erase k = [.proc p] := by
    rw [List.erase_cons_tail (by simpa using (hk p).symm), List.erase_cons_head]
  refine ⟨.proc hno p, by simp, fun _ _ _ => rfl, ?_⟩
  rw [herase]
  refine ⟨rfl, by simp, rfl, p, rfl, rfl, nofun, fun _ => ⟨by simp, fun _ _ _ => rfl, ?_⟩⟩
  rw [List.erase_cons_head]
  refine ⟨⟨by simp, ?_⟩, h⟩
  cases k with
  | proc i => exact absurd rfl (hk i)
  | wait_lock => exact noProc_nil
  | _ => trivial

omit [DecidableEq C] [DecidableEq L] [DecidableEq Ch] in
theorem Quiet.sleep {chan : Chan n Ch} {k : Lock n L} (h : Quiet rest) :
    Quiet (sleep p chan k ++ rest) :=
  ((((((h.cons rfl).cons rfl).cons rfl).cons rfl).cons rfl).cons rfl).cons rfl

theorem Inv.waitKilled {copyout : Bool} (h : Inv s) (hpan : s.panic = none)
    (hleft : s.left c = .waitKilled p copyout :: rest)
    (hs : s.exec c (.waitKilled p copyout :: rest) = some s') : Fine s' := by
  obtain ⟨held, hc⟩ := h.cpu c
  have hsafe := hc.safe
  have hhead := hc.head
  rw [hleft] at hsafe hhead
  obtain ⟨hme, rfl, hst, hsafe⟩ := hsafe
  have hq : Quiet rest := Quiet.tail hhead
  simp only [Kernel.exec] at hs
  split at hs <;> obtain rfl := Option.some.inj hs
  next =>
    exact ⟨h.quiet hc .refl hleft rfl rfl ((hq.cons rfl).cons rfl) (hsafe.release_both hst)
      (by simp [Instr.new]), (goto_panic _ _ _).trans hpan⟩
  next =>
    refine ⟨h.quiet hc .refl hleft rfl rfl ((hq.cons rfl).sleep.cons rfl)
      (Safe.release_proc hst ?_) (by simp [Instr.new, sleep]), (goto_panic _ _ _).trans hpan⟩
    rw [hme, hst] at hsafe ⊢
    exact Safe.sleep nofun ⟨rfl, rfl, rfl, hsafe⟩

/-! ## `ps` -/

theorem Inv.ps {j count : Nat} (h : Inv s) (hpan : s.panic = none)
    (hleft : s.left c = .ps j count :: rest) (hs : s.exec c (.ps j count :: rest) = some s') :
    Fine s' := by
  obtain ⟨held, hc⟩ := h.cpu c
  have hsafe := hc.safe
  have hhead := hc.head
  rw [hleft] at hsafe hhead
  obtain ⟨rfl, hst, hsafe⟩ := hsafe
  have hq : Quiet rest := Quiet.tail hhead
  have hdone : Safe s.initproc (s.run c) (.release .wait_lock :: rest) [.wait_lock] (s.own c) :=
    ⟨by simp, nofun, by rw [List.erase_cons_head]; exact hsafe⟩
  simp only [Kernel.exec] at hs
  split at hs
  next =>
    split at hs <;> obtain rfl := Option.some.inj hs
    next =>
      exact ⟨h.quiet hc .refl hleft rfl rfl (hq.cons rfl) hdone (by simp [Instr.new]),
        (goto_panic _ _ _).trans hpan⟩
    next =>
      exact ⟨h.quiet hc .refl hleft rfl rfl ((hq.cons rfl).cons rfl)
        ⟨.proc noProc_wait _, rfl, hst, hsafe⟩ (by simp [Instr.new]), (goto_panic _ _ _).trans hpan⟩
  next =>
    obtain rfl := Option.some.inj hs
    exact ⟨h.quiet hc .refl hleft rfl rfl (hq.cons rfl) hdone (by simp [Instr.new]),
      (goto_panic _ _ _).trans hpan⟩

theorem Inv.psTest {count : Nat} (h : Inv s) (hpan : s.panic = none)
    (hleft : s.left c = .psTest i count :: rest)
    (hs : s.exec c (.psTest i count :: rest) = some s') : Fine s' := by
  obtain ⟨held, hc⟩ := h.cpu c
  have hsafe := hc.safe
  have hhead := hc.head
  rw [hleft] at hsafe hhead
  obtain ⟨rfl, hst, hsafe⟩ := hsafe
  have hq : Quiet rest := Quiet.tail hhead
  simp only [Kernel.exec] at hs
  split at hs <;> obtain rfl := Option.some.inj hs
  next =>
    exact ⟨h.quiet hc .refl hleft rfl rfl ((hq.cons rfl).cons rfl) (hsafe.release_both hst)
      (by simp [Instr.new]), (goto_panic _ _ _).trans hpan⟩
  next =>
    exact ⟨h.quiet hc .refl hleft rfl rfl (((hq.cons rfl).cons rfl).cons rfl)
      ⟨rfl, hst, Safe.release_proc hst ⟨rfl, hst, hsafe⟩⟩ (by simp [Instr.new]),
      (goto_panic _ _ _).trans hpan⟩

/-- The parent of a process is another, so that its lock is not held yet. -/
theorem Inv.psParent (h : Inv s) (hpan : s.panic = none) (hleft : s.left c = .psParent i :: rest)
    (hs : s.exec c (.psParent i :: rest) = some s') : Fine s' := by
  obtain ⟨held, hc⟩ := h.cpu c
  have hsafe := hc.safe
  have hhead := hc.head
  rw [hleft] at hsafe hhead
  obtain ⟨rfl, hst, hsafe⟩ := hsafe
  have hq : Quiet rest := Quiet.tail hhead
  simp only [Kernel.exec] at hs
  split at hs
  next q hp =>
    obtain rfl := Option.some.inj hs
    have hqi : q ≠ i := by
      rintro rfl
      exact h.parent q hp
    refine ⟨h.control hc .refl (by rw [hleft]; rfl) (by rw [hleft]; rfl) rfl
      ⟨⟨by simp [hqi], .inr (by simp)⟩, rfl, hst, hsafe⟩ ⟨⟨by simp, by simp, hp⟩, hq⟩ ?_,
      (goto_panic _ _ _).trans hpan⟩
    rw [hleft]
    simp [Instr.new]
  next =>
    obtain rfl := Option.some.inj hs
    exact ⟨h.quiet hc .refl hleft rfl rfl hq hsafe (by simp [Instr.new]),
      (goto_panic _ _ _).trans hpan⟩

theorem Inv.psRelease (h : Inv s) (hpan : s.panic = none)
    (hleft : s.left c = .psRelease i q :: rest)
    (hs : s.exec c (.psRelease i q :: rest) = some s') : Fine s' := by
  obtain ⟨held, hc⟩ := h.cpu c
  have hsafe := hc.safe
  have hhead := hc.head
  rw [hleft] at hsafe hhead
  obtain ⟨rfl, hst, hsafe⟩ := hsafe
  obtain ⟨⟨-, -, hp⟩, hq⟩ := hhead
  simp only [Kernel.exec, hp] at hs
  obtain rfl := Option.some.inj hs
  exact ⟨h.quiet hc .refl hleft rfl rfl (hq.cons rfl) (hsafe.release_proc hst)
    (by simp [Instr.new]),
    (goto_panic _ _ _).trans hpan⟩

/-! ## `sched`, and the scheduler -/

theorem Inv.callSched (h : Inv s) (hpan : s.panic = none) (hleft : s.left c = .sched :: rest)
    (hs : s.exec c (.sched :: rest) = some s') : Fine s' := by
  obtain ⟨held, hc⟩ := h.cpu c
  have hsafe := hc.safe
  have hhead := hc.head
  have hnoff := hc.noff
  rw [hleft] at hsafe hhead hnoff
  obtain ⟨p, hme, rfl, hst, hsafe⟩ := hsafe
  have hlock := (hc.owner (.proc p)).2 (List.mem_singleton.2 rfl)
  have hone : s.noff c = 1 := hnoff
  rw [own_of_run hme] at hst
  simp only [Kernel.exec, (hc.proc p hme).1] at hs
  rw [if_neg (not_not_intro hlock), if_neg (not_not_intro hone), if_neg hst] at hs
  obtain rfl := Option.some.inj hs
  refine ⟨h.goto hc .refl rfl rfl rfl rfl rfl h.sched_pointer hc.nodup hc.owner hnoff
    ⟨hme, rfl, by rw [own_of_run hme]; exact hst, hsafe⟩ (Quiet.tail hhead)
    (fun hn => nomatch hn.symm.trans hme) (fun _ hp => hc.mine hp) (fun _ _ => .inl rfl)
    (fun _ _ => ?_) (fun _ => .inl) h.parent h.init, (goto_panic _ _ _).trans hpan⟩
  rw [hleft]
  simp [Instr.new]

theorem Inv.forkret (h : Inv s) (hpan : s.panic = none) (hleft : s.left c = .forkret :: rest)
    (hs : s.exec c (.forkret :: rest) = some s') : Fine s' := by
  obtain ⟨held, hc⟩ := h.cpu c
  have hsafe := hc.safe
  have hhead := hc.head
  rw [hleft] at hsafe hhead
  obtain ⟨p, hme, rfl, hst, hsafe⟩ := hsafe
  simp only [Kernel.exec, (hc.proc p hme).1] at hs
  obtain rfl := Option.some.inj hs
  exact ⟨h.quiet hc .refl hleft rfl rfl ((Quiet.tail hhead).cons rfl) (hsafe.release_proc hst)
    (by simp [Instr.new]), (goto_panic _ _ _).trans hpan⟩

omit [DecidableEq L] [DecidableEq Ch] in
theorem goto_sched (h : s.run c = none) (code : List (Instr n L Ch)) :
    s.goto c code = { s with scode := Function.update s.scode c code } := by
  simp only [Kernel.goto, h]

omit [DecidableEq Ch] in
/-- `resume`, and the end of the first half of `swtch` in the scheduler. -/
theorem Inv.swtch {ins : Instr n L Ch} (h : Inv s) (hc : CpuOk s c held)
    (hleft : s.left c = ins :: rest) (hr : s.run c = none) (hl : held = [.proc i])
    (hph : phase (ins :: rest) = some i) (hph' : phase code = some i)
    (hlo : loads code = loads (ins :: rest)) (hspins : spins (ins :: rest) = spins code)
    (safe : Safe s.initproc none code held .RUNNING) (head : HeadOk s held code) :
    Inv (s.goto c code) := by
  have hscode := (left_sched hr).symm.trans hleft
  have hnoff := hc.noff
  rw [hleft, hspins] at hnoff
  refine h.goto hc .refl rfl rfl rfl rfl rfl h.sched_pointer hc.nodup hc.owner hnoff ?_ head
    (fun _ => ⟨?_, ?_, fun j hj => ⟨?_, rfl⟩⟩) (fun _ hp => hc.mine hp) (fun _ _ => .inl rfl)
    (fun _ hp => nomatch hr.symm.trans hp) (fun _ => .inl) h.parent h.init
  · have hown : s.own c = .RUNNING := by
      unfold Kernel.own
      rw [hr]
    rw [hr, hown]
    exact safe
  · rw [hscode, hph, hph']
  · rw [hscode, hlo]
  · obtain rfl := Option.some.inj (hph'.symm.trans hj)
    rw [hl]
    exact List.mem_singleton.2 rfl

theorem Inv.resume (h : Inv s) (hpan : s.panic = none) (hleft : s.left c = .resume :: rest)
    (hs : s.exec c (.resume :: rest) = some s') : Fine s' := by
  obtain ⟨held, hc⟩ := h.cpu c
  have hsafe := hc.safe
  rw [hleft] at hsafe
  obtain ⟨hr, i, rfl, rfl⟩ := hsafe
  obtain rfl := Option.some.inj hs
  exact ⟨h.swtch hc hleft hr rfl rfl rfl rfl rfl ⟨rfl, rfl, rfl⟩ (nofun : Quiet []),
    (goto_panic _ _ _).trans hpan⟩

theorem Inv.swtchTo (h : Inv s) (hpan : s.panic = none) (hleft : s.left c = .swtchTo i :: rest)
    (hs : s.exec c (.swtchTo i :: rest) = some s') : Fine s' := by
  obtain ⟨held, hc⟩ := h.cpu c
  have hsafe := hc.safe
  rw [hleft] at hsafe
  obtain ⟨hr, rfl, rfl⟩ := hsafe
  obtain rfl := Option.some.inj hs
  exact ⟨h.swtch hc hleft hr rfl rfl rfl rfl rfl ⟨rfl, rfl, rfl⟩ trivial,
    (goto_panic _ _ _).trans hpan⟩

theorem Inv.rrScheduler (h : Inv s) (hpan : s.panic = none)
    (hleft : s.left c = .rr_scheduler :: rest)
    (hs : s.exec c (.rr_scheduler :: rest) = some s') : Fine s' := by
  obtain ⟨held, hc⟩ := h.cpu c
  have hsafe := hc.safe
  rw [hleft] at hsafe
  obtain ⟨hr, rfl, rfl⟩ := hsafe
  have hscode := (left_sched hr).symm.trans hleft
  simp only [Kernel.exec] at hs
  rw [goto_sched (by exact hr)] at hs
  obtain rfl := Option.some.inj hs
  refine ⟨h.sched s.state [.schedScan 0] hc hr (fun _ => .inl rfl) nofun
    (fun i hi => ?_) (by rw [hscode]; rfl) ⟨rfl, rfl, rfl⟩ ?_, hpan⟩
  · rw [hscode] at hi
    exact nomatch hi
  · exact Quiet.cons rfl nofun

theorem Inv.schedScan {j : Nat} (h : Inv s) (hpan : s.panic = none)
    (hleft : s.left c = .schedScan j :: rest) (hs : s.exec c (.schedScan j :: rest) = some s') :
    Fine s' := by
  obtain ⟨held, hc⟩ := h.cpu c
  have hsafe := hc.safe
  rw [hleft] at hsafe
  obtain ⟨hr, rfl, rfl⟩ := hsafe
  simp only [Kernel.exec] at hs
  split at hs <;> obtain rfl := Option.some.inj hs
  next =>
    exact ⟨h.quiet hc .refl hleft rfl rfl (Quiet.cons rfl (Quiet.cons rfl nofun))
      ⟨.proc noProc_nil _, hr, rfl, rfl⟩ (by simp [Instr.new]), (goto_panic _ _ _).trans hpan⟩
  next =>
    exact ⟨h.quiet hc .refl hleft rfl rfl (Quiet.cons rfl nofun) ⟨hr, rfl, rfl⟩
      (by simp [Instr.new]), (goto_panic _ _ _).trans hpan⟩

omit [DecidableEq C] [DecidableEq Ch] in
/-- The end of a turn of `rr_scheduler`. -/
theorem Safe.next_turn {ini : Fin n} {st : ProcState} (i : Fin n) (j : Nat) :
    Safe ini none ([.release (.proc i), .schedScan j] : List (Instr n L Ch)) [.proc i] st := by
  refine ⟨List.mem_cons_self, nofun, rfl, ?_, rfl⟩
  rw [List.erase_cons_head]

/-- A process that is RUNNABLE is chosen. -/
theorem Inv.pick (h : Inv s) (hpan : s.panic = none) (hleft : s.left c = .pick i :: rest)
    (hs : s.exec c (.pick i :: rest) = some s') : Fine s' := by
  obtain ⟨held, hc⟩ := h.cpu c
  have hsafe := hc.safe
  rw [hleft] at hsafe
  obtain ⟨hr, rfl, rfl⟩ := hsafe
  have hscode := (left_sched hr).symm.trans hleft
  have hl : (.proc i : Lock n L) ∈ [.proc i] := List.mem_singleton.2 rfl
  simp only [Kernel.exec] at hs
  split at hs
  next hst =>
    rw [goto_sched (by exact hr)] at hs
    obtain rfl := Option.some.inj hs
    have hno := hc.off h hl (by rw [hr]; nofun) (by rw [hst]; nofun)
    refine ⟨h.sched (Function.update s.state i .RUNNING) [.swtchTo i, .back i] hc
      hr (fun q => ?_) (fun j hj => ?_) (fun j hj => ?_) (by rw [hscode]; rfl) ⟨rfl, rfl, rfl⟩
      trivial, hpan⟩
    · by_cases hq : q = i
      · rw [hq]
        exact .inr ⟨rfl, hst, Function.update_self _ _ _, hl⟩
      · exact .inl (Function.update_of_ne hq _ _)
    · obtain rfl := Option.some.inj hj
      exact ⟨hno, hl, iff_of_true (Function.update_self _ _ _) rfl⟩
    · rw [hscode] at hj
      exact nomatch hj
  next =>
    obtain rfl := Option.some.inj hs
    exact ⟨h.quiet hc .refl hleft rfl rfl (Quiet.cons rfl (Quiet.cons rfl nofun))
      (hr ▸ .next_turn i _) (by simp [Instr.new]), (goto_panic _ _ _).trans hpan⟩

theorem Inv.back (h : Inv s) (hpan : s.panic = none) (hleft : s.left c = .back i :: rest)
    (hs : s.exec c (.back i :: rest) = some s') : Fine s' := by
  obtain ⟨held, hc⟩ := h.cpu c
  have hsafe := hc.safe
  rw [hleft] at hsafe
  obtain ⟨hr, rfl, rfl⟩ := hsafe
  have hscode := (left_sched hr).symm.trans hleft
  simp only [Kernel.exec] at hs
  rw [if_neg (not_not_intro h.sched_pointer), goto_sched (by exact hr)] at hs
  obtain rfl := Option.some.inj hs
  refine ⟨h.sched s.state [.release (.proc i), .schedScan (i + 1)] hc hr
    (fun _ => .inl rfl) nofun (fun j hj => ?_) (by rw [hscode]; rfl) (.next_turn i _) ?_, hpan⟩
  · rw [hscode] at hj
    exact nomatch hj
  · exact Quiet.cons rfl (Quiet.cons rfl nofun)

/-! ## The other instructions -/

/-- A step of the thread that a CPU runs. -/
theorem Inv.exec (h : Inv s) (hpan : s.panic = none) (hs : s.exec c (s.left c) = some s') :
    Fine s' := by
  obtain ⟨held, hc⟩ := h.cpu c
  have hsafe := hc.safe
  have hhead := hc.head
  generalize hleft : s.left c = code at hs hsafe hhead
  cases code with
  | nil => exact nomatch hs
  | cons ins rest =>
    cases ins with
    | acquire k =>
      obtain ⟨hne, hinv⟩ := h.acquire hc hleft
      simp only [Kernel.exec] at hs
      rw [if_neg hne] at hs
      obtain rfl := Option.some.inj hs
      exact ⟨hinv, (goto_panic _ _ _).trans hpan⟩
    | spin k =>
      simp only [Kernel.exec] at hs
      split at hs
      next hk =>
        obtain rfl := Option.some.inj hs
        exact ⟨h.spin hc hleft hk, (goto_panic _ _ _).trans hpan⟩
      next => exact nomatch hs
    | release k =>
      obtain ⟨hk, hnoff, hinv⟩ := h.release hc hleft
      simp only [Kernel.exec] at hs
      rw [if_neg (not_not_intro hk), if_neg (by omega)] at hs
      obtain rfl := Option.some.inj hs
      exact ⟨hinv, (goto_panic _ _ _).trans hpan⟩
    | setState p st =>
      obtain ⟨hme, hl, hst, hx, hsafe⟩ := hsafe
      obtain rfl := Option.some.inj hs
      rw [hme] at hsafe
      exact ⟨h.setOwn s.chan hc hme hl (own_of_run hme ▸ hst) (hx.imp_right .inr)
        (by rw [hleft]; rfl) (Quiet.tail hhead) hsafe (by rw [hleft]; simp [Instr.new]),
        (goto_panic _ _ _).trans hpan⟩
    | sleepOn p chan =>
      obtain ⟨hme, hl, hst, hsafe⟩ := hsafe
      obtain rfl := Option.some.inj hs
      rw [hme] at hsafe
      exact ⟨h.setOwn _ hc hme hl (own_of_run hme ▸ hst) (.inr (.inl rfl)) (by rw [hleft]; rfl)
        (Quiet.tail hhead) hsafe (by rw [hleft]; simp [Instr.new]), (goto_panic _ _ _).trans hpan⟩
    | tidy p =>
      obtain rfl := Option.some.inj hs
      exact ⟨h.quiet hc ⟨_, _, _, _, rfl⟩ hleft rfl rfl (Quiet.tail hhead) hsafe
        (by simp [Instr.new]), (goto_panic _ _ _).trans hpan⟩
    | sched => exact h.callSched hpan hleft hs
    | save p =>
      obtain ⟨hme, -⟩ := hsafe
      obtain rfl := Option.some.inj hs
      exact ⟨h.save hc hme ((left_run hme).symm.trans hleft), hpan⟩
    | resume => exact h.resume hpan hleft hs
    | forkret => exact h.forkret hpan hleft hs
    | wakeup chan j => exact h.wakeup hpan hleft hs
    | wakeTest chan i => exact h.wakeTest hpan hleft hs
    | wakeParent p =>
      obtain ⟨hno, hsafe⟩ := hsafe
      obtain rfl := Option.some.inj hs
      exact ⟨h.quiet hc .refl hleft rfl rfl ((Quiet.tail hhead).cons rfl) ⟨hno, hsafe⟩
        (by simp [Instr.new]), (goto_panic _ _ _).trans hpan⟩
    | kill pid j => exact h.kill hpan hleft hs
    | killTest pid i => exact h.killTest hpan hleft hs
    | alloc p f j => exact h.alloc hpan hleft hs
    | allocTest p f i => exact h.allocTest hpan hleft hs
    | found p f np => exact h.foundNew hpan hleft hs
    | copied p f np => exact h.copied hpan hleft hs
    | setParent p np => exact h.setParent hpan hleft hs
    | publish np => exact h.publish hpan hleft hs
    | reparent p j => exact h.reparent hpan hleft hs
    | zombieExit => exact hsafe.elim
    | waitScan p copyout j havekids => exact h.waitScan hpan hleft hs
    | waitTest p copyout i => exact h.waitTest hpan hleft hs
    | waitKilled p copyout => exact h.waitKilled hpan hleft hs
    | ps j count => exact h.ps hpan hleft hs
    | psTest i count => exact h.psTest hpan hleft hs
    | psParent i => exact h.psParent hpan hleft hs
    | psRelease i q => exact h.psRelease hpan hleft hs
    | va2pa pid j => exact h.va2pa hpan hleft hs
    | va2paTest pid i => exact h.va2paTest hpan hleft hs
    | schedset id =>
      have hq : Quiet rest := Quiet.tail hhead
      simp only [Kernel.exec] at hs
      split at hs
      next =>
        obtain rfl := Option.some.inj hs
        exact ⟨h.quiet hc .refl hleft rfl rfl hq hsafe (by simp [Instr.new]),
          (goto_panic _ _ _).trans hpan⟩
      next hid =>
        -- there is one scheduler
        have hid : id = 0 := by
          simp only [SCHEDC] at hid
          omega
        subst hid
        obtain rfl := Option.some.inj hs
        have hsp : ({ s with sched_pointer := .rr_scheduler } : Kernel n C L Ch) = s := by
          rw [← h.sched_pointer]
        refine ⟨?_, (goto_panic _ _ _).trans hpan⟩
        show Inv (({ s with sched_pointer := .rr_scheduler } : Kernel n C L Ch).goto c rest)
        rw [hsp]
        exact h.quiet hc .refl hleft rfl rfl hq hsafe (by simp [Instr.new])
    | rr_scheduler => exact h.rrScheduler hpan hleft hs
    | schedScan j => exact h.schedScan hpan hleft hs
    | pick i => exact h.pick hpan hleft hs
    | swtchTo i => exact h.swtchTo hpan hleft hs
    | load i =>
      obtain ⟨hr, -⟩ := hsafe
      obtain ⟨⟨hsaved, -⟩, hinv⟩ := h.load hc hr ((left_sched hr).symm.trans hleft)
      simp only [Kernel.exec] at hs
      rw [if_pos hsaved] at hs
      obtain rfl := Option.some.inj hs
      exact ⟨hinv, hpan⟩
    | back i => exact h.back hpan hleft hs

end Xv6.Switch
