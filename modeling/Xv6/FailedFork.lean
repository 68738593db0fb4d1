/-
proc.c: a fork that runs out of memory.

`Restored` is what it leaves: no process, no page and no count of a page in
use has changed, and the parent can read and write what it could before, some
of it by way of a copy-on-write fault.
-/
import Xv6.ForkCopy

namespace Xv6

open Conc Prog

section

variable [KernelImage]

variable {s b k k' : Kernel} {ka : Kalloc} {t np q : Slot} {old r f tf : Frame} {X : Set Frame}
  {lbl lbl' : Frame → Option (Frame × Node)} {v j m n va : Nat} {p : Pte}

/-! ## What the parent can do -/

/-- A store to `va` is done, if only after the fault that it takes. -/
def Kernel.CanStore (s : Kernel) (t : Slot) (va : Nat) : Prop :=
  (∀ x, (s.hwStore t va x).1 = true) ∨
    ∃ s', (storeFault kalloc t va).run s = .ok () s' ∧ ∀ x, (s'.hwStore t va x).1 = true

omit [KernelImage] in
theorem hwStore_iff (hva : va < MAXVA) (x : UInt8) : (s.hwStore t va x).1 = true ↔
    ∃ p, s.entry t (va / PGSIZE) = some p ∧ p.U ∧ p.W := by
  rw [Kernel.hwStore, s.userPte_eq t hva]
  cases s.entry t (va / PGSIZE) with
  | none => simp
  | some p =>
    cases hU : p.U <;> cases hW : p.W <;> simp [hU, hW]

/-- What it takes. -/
theorem Kernel.Memory.canStore_iff (h : s.Memory lbl) (hr : (s.proc t).pagetable = some r)
    (hfree : s.freelist ≠ []) : s.CanStore t va ↔ va < MAXVA ∧
      ∃ p, s.entry t (va / PGSIZE) = some p ∧ p.U ∧ (p.W ∨ p.COW) := by
  by_cases hva : va < MAXVA
  · have hvpn : va / PGSIZE < 2 ^ 27 := by
      unfold MAXVA at hva
      unfold PGSIZE
      omega
    constructor
    · rintro (hdone | ⟨s', hrun, hdone⟩)
      · obtain ⟨p, he, hU, hW⟩ := (hwStore_iff hva 0).1 (hdone 0)
        exact ⟨hva, p, he, hU, .inl hW⟩
      · by_contra hno
        have hkills : ∀ p, s.userPte t va = some p → ¬ (p.U ∧ p.COW) := by
          intro p he hUC
          rw [s.userPte_eq t hva] at he
          exact hno ⟨hva, p, he, hUC.1, .inr hUC.2⟩
        rw [storeFault_kills hr hkills] at hrun
        obtain ⟨-, rfl⟩ := Outcome.ok.inj hrun
        obtain ⟨p, he, hU, hW⟩ := (hwStore_iff hva 0).1 (hdone 0)
        refine hno ⟨hva, p, ?_, hU, .inl hW⟩
        rw [← he]
        unfold Kernel.entry Kernel.updProc
        simp
    · rintro ⟨-, p, he, hU, hW | hC⟩
      · exact .inl fun x => (hwStore_iff hva x).2 ⟨p, he, hU, hW⟩
      · obtain ⟨f, rest, hf⟩ := List.exists_cons_of_ne_nil hfree
        obtain ⟨s', hrun, hR⟩ := h.storeFault_cow hva he hU hC hf
        have hv := h.user_lt hvpn he hU
        refine .inr ⟨s', hrun, fun x => (hwStore_iff hva x).2 ⟨p.resolved f, ?_, hU, rfl⟩⟩
        rw [hR.entry h hv he hv, if_pos ⟨rfl, rfl⟩]
  · constructor
    · rintro (hdone | ⟨s', -, hdone⟩)
      · have hno := hdone 0
        rw [Kernel.hwStore, Kernel.userPte, if_neg hva] at hno
        cases hno
      · have hno := hdone 0
        rw [Kernel.hwStore, Kernel.userPte, if_neg hva] at hno
        cases hno
    · intro hc
      exact absurd hc.1 hva

/-! ## No trace -/

/-- Nothing has come of it, as far as pages, processes and memory go. -/
structure Kernel.Restored (s s' : Kernel) (t : Slot) : Prop where
  proc : s'.proc = s.proc
  free : ∀ f, f ∈ s'.freelist ↔ f ∈ s.freelist
  freePages : s'.FREE_PAGES = s.FREE_PAGES
  refcounts : ∀ f, f ∉ s.freelist → s'.refcounts f = s.refcounts f
  load : ∀ va, s'.load t va = s.load t va
  store : ∀ va, s.CanStore t va → s.freelist ≠ [] → s'.CanStore t va

section

variable (h : s.Memory lbl) (hS : s.Shares b lbl t n m m) (hL : b.Lends k np ∅)
  (hproc : k.proc = s.proc)
include h hS hL hproc

omit hproc in
theorem Kernel.Shares.table_same {g : Frame} {x : Frame × Node} (hg : lbl g = some x) :
    k.pte g = b.pte g := by
  refine hL.pte g fun hf => ?_
  rw [hS.freelist] at hf
  exact h.node hg hf

theorem Kernel.Shares.entry_cases (hv : v < 2 ^ 27) : k.entry q v = s.entry q v ∨
    q = t ∧ k.entry q v = (s.entry q v).map Pte.shared := by
  have hsame : k.entry q v = b.entry q v := by
    unfold Kernel.entry
    rw [hproc, hS.proc]
    cases hq : (s.proc q).pagetable with
    | none => rfl
    | some r =>
      exact hS.tree.mapping_congr (h.root hq) (fun g x hg => hS.table_same h hL hg) v
  rw [hsame, hS.entry q v hv]
  split
  · next hc => exact .inr ⟨hc.1, rfl⟩
  · exact .inl rfl

theorem Kernel.Shares.entry_back (hv : v < 2 ^ 27) (he : k.entry q v = some p) :
    ∃ p', s.entry q v = some p' ∧ (p = p' ∨ p = p'.shared) := by
  rcases hS.entry_cases h hL hproc (q := q) hv with hk | ⟨-, hk⟩
  · exact ⟨p, hk.symm.trans he, .inl rfl⟩
  · rw [he] at hk
    obtain ⟨p', hp', hpp⟩ := Option.map_eq_some_iff.1 hk.symm
    exact ⟨p', hp', .inr hpp.symm⟩

theorem Kernel.Shares.entry_on (hv : v < 2 ^ 27) (he : s.entry q v = some p) :
    k.entry q v = some p ∨ k.entry q v = some p.shared := by
  rcases hS.entry_cases h hL hproc (q := q) hv with hk | ⟨-, hk⟩
  · exact .inl (hk.trans he)
  · rw [he] at hk
    exact .inr hk

theorem Kernel.Shares.sharers_same (f : Frame) : k.sharers f = s.sharers f := by
  have hlt : ∀ {v}, v < userPages → v < 2 ^ 27 := fun hv => Nat.lt_trans hv (by decide)
  ext q
  rw [Kernel.mem_sharers, Kernel.mem_sharers]
  constructor
  · intro hq
    obtain ⟨v, hv, p, he, hpa⟩ := hq
    obtain ⟨p', he', rfl | rfl⟩ := hS.entry_back h hL hproc (hlt hv) he
    · exact ⟨v, hv, p, he', hpa⟩
    · exact ⟨v, hv, p', he', hpa⟩
  · intro hq
    obtain ⟨v, hv, p, he, hpa⟩ := hq
    rcases hS.entry_on h hL hproc (hlt hv) he with he' | he'
    · exact ⟨v, hv, p, he', hpa⟩
    · exact ⟨v, hv, p.shared, he', hpa⟩

omit h hproc in
theorem Kernel.Shares.counts_same (hf : f ∉ s.freelist) : k.refcounts f = s.refcounts f := by
  rw [hL.refcounts f (by rwa [hS.freelist])]
  exact hS.refcounts fun v p hmv hvm => by omega

/-- User memory is in order again. -/
theorem Kernel.Shares.memory : k.Memory lbl := by
  have hlt : ∀ {v}, v < userPages → v < 2 ^ 27 := fun hv => Nat.lt_trans hv (by decide)
  have hfree : ∀ f, f ∈ k.freelist ↔ f ∈ s.freelist := fun f => by
    rw [(hL.freePages hS.alloc).1, hS.freelist]
  have hback : ∀ {q v p}, v < userPages → k.entry q v = some p →
      ∃ p', s.entry q v = some p' ∧ p'.pa = p.pa := by
    intro q v p hv he
    obtain ⟨p', he', rfl | rfl⟩ := hS.entry_back h hL hproc (hlt hv) he
    · exact ⟨p, he', rfl⟩
    · exact ⟨p', he', rfl⟩
  refine ⟨hL.alloc, ?_, fun {q r} hr => ?_, fun {q q' r} hr hr' => ?_, fun {f x} hf hmem => ?_,
    fun {q v p} hv he => ?_, fun {q v w p p'} hv hw he he' hpa => ?_, fun {q v p} hv he => ?_,
    fun {q v p} hv he hW => ?_⟩
  · exact hS.tree.congr fun g r x hg => hS.table_same h hL hg
  · rw [hproc] at hr
    exact h.root hr
  · rw [hproc] at hr hr'
    exact h.own hr hr'
  · exact h.node hf ((hfree f).1 hmem)
  · obtain ⟨p', he', hpa⟩ := hback hv he
    rw [← hpa, hfree]
    exact h.page hv he'
  · obtain ⟨p₁, he₁, hpa₁⟩ := hback hv he
    obtain ⟨p₂, he₂, hpa₂⟩ := hback hw he'
    exact h.once hv hw he₁ he₂ (hpa₁.trans (hpa.trans hpa₂.symm))
  · obtain ⟨p', he', hpa⟩ := hback hv he
    rw [← hpa, hS.counts_same hL (h.page hv he').2.1, hS.sharers_same h hL hproc]
    exact h.count hv he'
  · obtain ⟨p', he', rfl | rfl⟩ := hS.entry_back h hL hproc (hlt hv) he
    · rw [hS.sharers_same h hL hproc]
      exact h.writable hv he' hW
    · cases hW

theorem Kernel.Shares.restored (hold : (s.proc t).pagetable = some old) : s.Restored k t := by
  obtain ⟨hfree, hcount⟩ := hL.freePages hS.alloc
  have hfree' : ∀ f, f ∈ k.freelist ↔ f ∈ s.freelist := fun f => by rw [hfree, hS.freelist]
  refine ⟨hproc, hfree', ?_, fun f hf => hS.counts_same hL hf, fun va => ?_,
    fun va hs hne => ?_⟩
  · rw [hcount, hS.alloc.count, hS.freelist, h.alloc.count]
  · unfold Kernel.load
    by_cases hva : va < MAXVA
    · have hvpn : va / PGSIZE < 2 ^ 27 := by
        unfold MAXVA at hva
        unfold PGSIZE
        omega
      have hentry : ∀ x : Kernel, x.userPte t va = x.entry t (va / PGSIZE) := fun x => if_pos hva
      rw [hentry k, hentry s]
      cases he : s.entry t (va / PGSIZE) with
      | none =>
        rcases hS.entry_cases h hL hproc (q := t) hvpn with hk | ⟨-, hk⟩
        · rw [hk, he]
        · rw [hk, he]
          rfl
      | some p =>
        have hmem : p.U → k.mem p.pa = s.mem p.pa := fun hU => by
          have hv := h.user_lt hvpn he hU
          rw [hL.mem p.pa (by rw [hS.freelist]; exact (h.page hv he).2.1), hS.mem]
        rcases hS.entry_on h hL hproc hvpn he with hk | hk
        · rw [hk]
          by_cases hU : p.U
          · simp [hmem hU]
          · simp [hU]
        · rw [hk]
          by_cases hU : p.U
          · simp [Pte.shared, hmem hU]
          · simp [Pte.shared, hU]
    · rw [Kernel.userPte, Kernel.userPte, if_neg hva, if_neg hva]
  · have hmem := hS.memory h hL hproc
    obtain ⟨hva, p, he, hU, hWC⟩ := (h.canStore_iff hold hne).1 hs
    have hvpn : va / PGSIZE < 2 ^ 27 := by
      unfold MAXVA at hva
      unfold PGSIZE
      omega
    have hold' : (k.proc t).pagetable = some old := by rw [hproc, hold]
    have hne' : k.freelist ≠ [] := by
      obtain ⟨f, rest, hf⟩ := List.exists_cons_of_ne_nil hne
      exact List.ne_nil_of_mem ((hfree' f).2 (by rw [hf]; exact List.mem_cons_self))
    refine (hmem.canStore_iff hold' hne').2 ⟨hva, ?_⟩
    rcases hS.entry_on h hL hproc hvpn he with hk | hk
    · exact ⟨p, hk, hU, hWC⟩
    · exact ⟨p.shared, hk, hU, .inr rfl⟩

end

/-! ## Slots -/

omit [KernelImage] in
theorem findUnused_run (ps : List Slot) : (findUnused ps).run s = .ok none s ∨
    ∃ p, (s.proc p).state = .UNUSED ∧ (findUnused ps).run s = .ok (some p) (s.claim p).2 := by
  induction ps with
  | nil => exact .inl rfl
  | cons p ps ih =>
    unfold findUnused
    rw [run_bind, run_atom]
    by_cases hp : (s.proc p).state = .UNUSED
    · refine .inr ⟨p, hp, ?_⟩
      have hfound : (s.claim p).1 = true := by
        rw [Kernel.claim, if_pos hp]
      simp only [hfound, if_true]
      rfl
    · have hfound : s.claim p = (false, s) := by
        rw [Kernel.claim, if_neg hp]
      simp only [hfound, Bool.false_eq_true, if_false]
      exact ih

omit [KernelImage] in
theorem updProc_cleared (k : Kernel) (np : Slot) :
    ((k.updProc np fun p => { p with trapframe := none }).updProc np Proc.cleared).proc =
      Function.update k.proc np ({ k.proc np with trapframe := none } : Proc).cleared := by
  simp [Kernel.updProc]

/-- A slot that `freeproc` has cleared. -/
def Proc.Idle (p : Proc) : Prop := p.trapframe = none ∧ p.cleared = p

/-- `freeproc` of a process without a page table. -/
theorem freeproc_empty (ka : Kalloc) (t : Slot) (hL : b.Lends k np ∅)
    (hpt : (k.proc np).pagetable = none)
    (htf : (k.proc np).trapframe = none) :
    ∃ k', (freeproc ka t np).run k = .ok () k' ∧ b.Lends k' np ∅ ∧
      k'.proc = Function.update k.proc np ({ k.proc np with trapframe := none } : Proc).cleared := by
  refine ⟨_, ?_, (hL.updProc fun p => { p with trapframe := none }).updProc Proc.cleared, ?_⟩
  · simp only [freeproc, run_bind, run_read, htf, pure_eq, run_ret, run_modify, Kernel.updProc,
      Function.update_self, hpt]
  · exact updProc_cleared k np

theorem freeproc_trapframe (ka : Kalloc) (t : Slot) (hb : b.Allocator) (hL : b.Lends k np {tf})
    (hpt : (k.proc np).pagetable = none) (htf : (k.proc np).trapframe = some tf) :
    ∃ k', (freeproc ka t np).run k = .ok () k' ∧ b.Lends k' np ∅ ∧
      k'.proc = Function.update k.proc np ({ k.proc np with trapframe := none } : Proc).cleared := by
  have hm : managed tf := hb.managed tf ((hL.free tf).2 (.inr rfl))
  obtain ⟨hrun, hL'⟩ := hL.give rfl hm
  rw [Set.sdiff_self] at hL'
  refine ⟨_, ?_, (hL'.updProc fun p => { p with trapframe := none }).updProc Proc.cleared, ?_⟩
  · have hproc : ((k.fill tf 1).push tf).proc = k.proc := rfl
    simp only [freeproc, run_bind, run_read, htf, hrun, pure_eq, run_ret, run_modify, Kernel.updProc,
      Function.update_self, hproc, hpt]
  · exact updProc_cleared ((k.fill tf 1).push tf) np

theorem freeproc_table (ka : Kalloc) (t : Slot) (hb : b.Allocator)
    (hB : b.Builds k np r lbl' {tf}) (hfix : k.Fixed r)
    (hno : ∀ u, u < userPages → mapping k.pte r u = none)
    (hpt : (k.proc np).pagetable = some r) (htf : (k.proc np).trapframe = some tf)
    (hsz : (k.proc np).sz = 0) :
    ∃ k', (freeproc ka t np).run k = .ok () k' ∧ b.Lends k' np ∅ ∧
      k'.proc = Function.update k.proc np ({ k.proc np with trapframe := none } : Proc).cleared := by
  have hm : managed tf := hb.managed tf ((hB.lends.free tf).2 (.inr (.inr rfl)))
  obtain ⟨hrun, hB', hmap⟩ := hB.give rfl hm
  rw [Set.sdiff_self] at hB'
  obtain ⟨k₁, hk₁⟩ : ∃ k₁, k₁ = ((k.fill tf 1).push tf).updProc np fun p =>
      { p with trapframe := none } := ⟨_, rfl⟩
  have hB₁ : b.Builds k₁ np r lbl' ∅ := by
    rw [hk₁]
    exact hB'.updProc _
  have hmap₁ : ∀ u, mapping k₁.pte r u = mapping k.pte r u := fun u => by
    rw [hk₁]
    exact hmap u
  have hproc₁ : k₁.proc = Function.update k.proc np { k.proc np with trapframe := none } := by
    rw [hk₁]
    rfl
  obtain ⟨k₂, hrun₂, hL₂, hproc₂⟩ := hB₁.proc_freepagetable (fun u hu hlow => by
    rw [hmap₁]
    exact hfix u hu hlow) (fun u hu => (hmap₁ u).trans (hno u hu)) ka t
  refine ⟨_, ?_, hL₂.updProc Proc.cleared, ?_⟩
  · simp only [freeproc, run_bind, run_read, htf, hrun, run_modify, ← hk₁, hproc₁,
      Function.update_self, hpt, hsz, hrun₂]
  · show Function.update k₂.proc np _ = _
    rw [hproc₂, hproc₁, Function.update_self, Function.update_idem]

omit [KernelImage] in
/-- What a process was before it was made. -/
theorem Proc.Idle.back {p : Proc} (h : p.Idle) (pid : Int) (pagetable : Option Frame) :
    ({ p with pid := pid, state := .USED, trapframe := none, pagetable := pagetable } :
      Proc).cleared = p := by
  obtain ⟨htf, hc⟩ := h
  rw [Proc.cleared] at hc ⊢
  refine Eq.trans ?_ hc
  rw [← htf]

omit [KernelImage] in
/-- `freeproc` leaves the slot as `allocproc` found it. -/
theorem Proc.Idle.undone {pid : Int} {trapframe pagetable : Option Frame}
    (hid : (s.proc np).Idle)
    (hk : k.proc = Function.update s.proc np { s.proc np with
      pid := pid, state := .USED, trapframe := trapframe, pagetable := pagetable })
    (hk' : k'.proc =
      Function.update k.proc np ({ k.proc np with trapframe := none } : Proc).cleared) :
    k'.proc = s.proc := by
  rw [hk', hk, Function.update_self, Function.update_idem]
  exact (congrArg _ (hid.back pid pagetable)).trans (Function.update_eq_self ..)

/-! ## allocproc -/

/-- `allocproc` has slot `np`, with a trapframe page and a page table, or
nothing. -/
theorem allocproc_run (ha : s.Allocator) (hidle : ∀ q, (s.proc q).state = .UNUSED → (s.proc q).Idle)
    (hka : Promised ka) (t : Slot) :
    ∃ res k, (allocproc ka t).run s = .ok res k ∧
      ((res = none ∧ k.proc = s.proc ∧ ∃ np, s.Lends k np ∅) ∨
        ∃ np r lbl' tf pid, res = some np ∧ (s.proc np).state = .UNUSED ∧ k.nulls = s.nulls ∧
          s.Builds k np r lbl' {tf} ∧ k.Fixed r ∧
          (∀ u, u < userPages → mapping k.pte r u = none) ∧
          k.proc = Function.update s.proc np { s.proc np with
            pid := pid, state := .USED, trapframe := some tf, pagetable := some r }) := by
  unfold allocproc
  rw [run_bind]
  rcases findUnused_run (s := s) (List.finRange NPROC) with hrun | ⟨np, hstate, hrun⟩
  · rw [hrun]
    exact ⟨none, s, rfl, .inl ⟨rfl, rfl, t, .refl ha t⟩⟩
  rw [hrun]
  have hid := hidle np hstate
  obtain ⟨pid, hpid⟩ : ∃ pid, pid = s.nextpid := ⟨_, rfl⟩
  obtain ⟨k₁, hk₁⟩ : ∃ k₁, k₁ = (s.claim np).2 := ⟨_, rfl⟩
  have hclaim : k₁ = { s.updProc np fun q => { q with pid := s.nextpid, state := .USED } with
      nextpid := i32 (s.nextpid + 1) } := by
    rw [hk₁, Kernel.claim, if_pos hstate]
  have hproc₁ : k₁.proc =
      Function.update s.proc np { s.proc np with pid := pid, state := .USED } := by
    rw [hclaim, hpid]
    rfl
  have hL₁ : s.Lends k₁ np ∅ := by
    have hL := ((Kernel.Lends.refl ha np).updProc fun q =>
      { q with pid := s.nextpid, state := .USED })
    rw [hclaim]
    exact hL.update (hL.alloc.congr rfl rfl rfl) rfl (fun _ _ => rfl) (fun _ _ => rfl) rfl
      (fun _ _ => rfl) rfl
  have hnulls₁ : k₁.nulls = s.nulls := by
    rw [hclaim]
    rfl
  have hpt : (s.proc np).pagetable = none := by
    rw [← hid.2]
    rfl
  rw [← hk₁]
  simp only [run_bind]
  -- the trapframe page
  rcases hka k₁ hL₁.alloc with hrun₂ | ⟨tf, rest, hf, hrun₂⟩
  · rw [hrun₂]
    have hL₂ : s.Lends { k₁ with nulls := k₁.nulls + 1 } np ∅ :=
      hL₁.update (hL₁.alloc.congr rfl rfl rfl) rfl (fun _ _ => rfl) (fun _ _ => rfl) rfl
        (fun _ _ => rfl) rfl
    have hself : k₁.proc np = { s.proc np with pid := pid, state := .USED } := by
      rw [hproc₁, Function.update_self]
    obtain ⟨k', hrun', hL', hproc'⟩ := freeproc_empty ka t hL₂
      (by rw [show _ = k₁.proc from rfl, hself]; exact hpt) (by
        rw [show _ = k₁.proc from rfl, hself]
        exact hid.1)
    refine ⟨none, k', ?_, .inl ⟨rfl, hid.undone hproc₁ hproc', np, hL'⟩⟩
    simp only [run_bind, hrun']
    rfl
  · rw [hrun₂]
    obtain ⟨-, hL₂⟩ := hL₁.take hf
    rw [insert_empty_eq] at hL₂
    obtain ⟨k₃, hk₃⟩ : ∃ k₃, k₃ = (k₁.alloc tf rest).updProc np fun q =>
        { q with trapframe := some tf } := ⟨_, rfl⟩
    have hL₃ : s.Lends k₃ np {tf} := by
      rw [hk₃]
      exact hL₂.updProc _
    have hproc₃ : k₃.proc = Function.update s.proc np { s.proc np with
        pid := pid, state := .USED, trapframe := some tf } := by
      rw [hk₃]
      show Function.update k₁.proc np _ = _
      rw [show (k₁.alloc tf rest).proc = k₁.proc from rfl, hproc₁, Function.update_self,
        Function.update_idem]
    have hself₃ : k₃.proc np = { s.proc np with
        pid := pid, state := .USED, trapframe := some tf } := by
      rw [hproc₃, Function.update_self]
    -- the page table
    obtain ⟨res, k₄, hrun₄, hproc₄, hres⟩ := hL₃.proc_pagetable hka t tf
    have hself₄ : k₄.proc np = { s.proc np with
        pid := pid, state := .USED, trapframe := some tf } := by
      rw [hproc₄, hself₃]
    simp only [run_bind, run_modify, ← hk₃, hrun₄]
    rcases hres with ⟨rfl, hL₄⟩ | ⟨r, lbl', rfl, hnulls₄, hB₄, hfix, hno⟩
    · obtain ⟨k', hrun', hL', hproc'⟩ := freeproc_trapframe ka t ha hL₄
        (by rw [hself₄]; exact hpt) (by rw [hself₄])
      refine ⟨none, k', ?_, .inl ⟨rfl, hid.undone (hproc₄.trans hproc₃) hproc', np, hL'⟩⟩
      simp only [run_bind, hrun']
      rfl
    · refine ⟨some np, k₄.updProc np fun q => { q with pagetable := some r }, rfl,
        .inr ⟨np, r, lbl', tf, pid, rfl, hstate, ?_, hB₄.updProc _, hfix, hno, ?_⟩⟩
      · refine hnulls₄.trans (Eq.trans ?_ hnulls₁)
        rw [hk₃]
        rfl
      · show Function.update k₄.proc np { k₄.proc np with pagetable := some r } = _
        rw [hself₄, hproc₄, hproc₃, Function.update_idem]

/-! ## fork -/

omit [KernelImage] in
theorem dupFiles_run (hne : t ≠ np) (fds : List (Fin NOFILE))
    (hfiles : ∀ fd f, (k.proc t).ofile fd = some f → 0 < (k.file f).ref) :
    ∃ k', (dupFiles t np fds).run k = .ok () k' ∧ k'.nulls = k.nulls := by
  induction fds generalizing k with
  | nil => exact ⟨k, rfl, rfl⟩
  | cons fd fds ih =>
    unfold dupFiles
    rw [run_bind, run_read]
    cases hfd : (k.proc t).ofile fd with
    | none =>
      dsimp only
      exact ih hfiles
    | some f =>
      have href := hfiles fd f hfd
      obtain ⟨k₁, hk₁⟩ : ∃ k₁, k₁ = ((k.updFile f fun f => { f with ref := f.ref + 1 }).updProc np
          fun p => { p with ofile := Function.update p.ofile fd (some f) }) := ⟨_, rfl⟩
      have hproc : k₁.proc t = k.proc t := by
        rw [hk₁]
        exact Function.update_of_ne hne ..
      obtain ⟨k', hrun, hnulls⟩ := ih (k := k₁) fun fd' f' hf' => by
        rw [hproc] at hf'
        have href' := hfiles fd' f' hf'
        rw [hk₁]
        show 0 < (Function.update k.file f _ f').ref
        by_cases he : f' = f
        · rw [he, Function.update_self]
          exact Nat.succ_pos _
        · rwa [Function.update_of_ne he]
      refine ⟨k', ?_, hnulls.trans (by rw [hk₁]; rfl)⟩
      simp only [run_bind, filedup, run_atom, if_neg (by omega : ¬ (k.file f).ref < 1),
        run_modify, ← hk₁]
      exact hrun

/-- A process that can call `fork`, among slots that are in order. -/
structure Kernel.Forkable (s : Kernel) (t : Slot) : Prop where
  pagetable : (s.proc t).pagetable ≠ none
  used : (s.proc t).state ≠ .UNUSED
  size : (s.proc t).sz ≤ TRAPFRAME
  mapped : ∀ v, v * PGSIZE < (s.proc t).sz → s.entry t v ≠ none
  idle : ∀ q, (s.proc q).state = .UNUSED → (s.proc q).Idle
  files : ∀ fd f, (s.proc t).ofile fd = some f → 0 < (s.file f).ref

/-- Where an allocation fails, `fork` returns -1 and has left no trace but for
the counts of free pages. -/
theorem fork_restores (h : s.Memory lbl) (hf : s.Forkable t) (hka : Promised ka) :
    ∃ r k, (fork ka t).run s = .ok r k ∧
      (k.nulls = s.nulls ∨ r = -1 ∧ s.Restored k t) := by
  obtain ⟨old, hold⟩ := Option.ne_none_iff_exists'.1 hf.pagetable
  obtain ⟨res, k₁, hrun₁, hres⟩ := allocproc_run h.alloc hf.idle hka t
  unfold fork
  rw [run_bind, hrun₁]
  rcases hres with ⟨rfl, hproc₁, np, hL₁⟩ |
    ⟨np, r, lbl', tf, pid, rfl, hstate, hnulls₁, hB₁, hfix, hno, hproc₁⟩
  · exact ⟨-1, k₁, rfl, .inr ⟨rfl, (Kernel.Shares.refl h t 0).restored h hL₁ hproc₁ hold⟩⟩
  have hne : t ≠ np := fun he => hf.used (he ▸ hstate)
  have ht₁ : k₁.proc t = s.proc t := by rw [hproc₁, Function.update_of_ne hne]
  have hnp₁ : k₁.proc np = { s.proc np with
      pid := pid, state := .USED, trapframe := some tf, pagetable := some r } := by
    rw [hproc₁, Function.update_self]
  have hF₁ : Forking s s k₁ lbl lbl' t np r tf 0 0 0 :=
    ⟨hB₁, .refl h t 0, hfix, fun u hu _ => hno u hu, fun u _ hu => absurd hu (Nat.not_lt_zero u)⟩
  obtain ⟨c, hc⟩ : ∃ c, c = ((s.proc t).sz + PGSIZE - 1) / PGSIZE := ⟨_, rfl⟩
  have hsize := hf.size
  have hcmax : c ≤ userPages := by
    rw [hc]
    rw [TRAPFRAME_eq] at hsize
    unfold PGSIZE at *
    omega
  obtain ⟨res, b, k₂, lbl₂, hrun₂, hproc₂, hres⟩ := hF₁.uvmcopyLoop h hka hold
    (by omega : 0 + c ≤ userPages) fun u hu => hf.mapped u (by unfold PGSIZE at *; omega)
  rw [Nat.zero_mul] at hrun₂
  simp only [run_bind, run_read, ht₁, hold, hnp₁, uvmcopy, ← hc, hrun₂]
  rcases hres with ⟨rfl, hnulls₂, hF₂⟩ | ⟨i, n, rfl, hi, hn, hF₂⟩
  · -- the copy is complete
    obtain ⟨k₃, hk₃⟩ : ∃ k₃, k₃ = k₂.updProc np fun p => { p with sz := (s.proc t).sz } := ⟨_, rfl⟩
    obtain ⟨k₄, hrun₄, hnulls₄⟩ := dupFiles_run (k := k₃) hne (List.finRange NOFILE)
      fun fd f hfd => by
        have ht₃ : k₃.proc t = s.proc t := by
          rw [hk₃]
          show Function.update k₂.proc np _ t = _
          rw [Function.update_of_ne hne, hproc₂, ht₁]
        have hfile : k₃.file = s.file := by
          rw [hk₃]
          exact hF₂.builds.lends.file.trans hF₂.shares.file
        rw [ht₃] at hfd
        rw [hfile]
        exact hf.files fd f hfd
    have hnulls : k₄.nulls = s.nulls := by
      rw [hnulls₄, hk₃]
      exact hnulls₂.trans hnulls₁
    simp only [pure_eq, run_ret]
    rw [if_neg (by decide)]
    simp only [run_bind, run_modify, ← hk₃, hrun₄, run_read]
    exact ⟨_, _, rfl, .inl hnulls⟩
  · -- the copy has failed at page `i`
    obtain ⟨b₃, k₃, hrun₃, hproc₃, hF₃⟩ := hF₂.uvmunmapLoop h (Nat.zero_add i) (by omega) ka t
    have hnp₃ : k₃.proc np = k₁.proc np := by rw [hproc₃, hproc₂]
    have hproc₃' : k₃.proc = k₁.proc := by rw [hproc₃, hproc₂]
    obtain ⟨k₄, hrun₄, hL₄, hproc₄⟩ := freeproc_table ka t hF₃.shares.alloc
      hF₃.builds hF₃.fixed (fun u hu => hF₃.empty u hu (by omega)) (by rw [hnp₃, hnp₁])
      (by rw [hnp₃, hnp₁]) (by
        rw [hnp₃, hnp₁]
        show (s.proc np).sz = 0
        rw [← (hf.idle np hstate).2]
        rfl)
    rw [Nat.zero_mul] at hrun₃
    have hdone : k₄.proc = s.proc :=
      (hf.idle np hstate).undone (hproc₃'.trans hproc₁) hproc₄
    have halign : ¬ 0 % PGSIZE ≠ 0 := by decide
    simp only [run_bind, uvmunmap, if_neg halign, page_div, hrun₃, pure_eq, run_ret]
    rw [if_pos (by decide)]
    simp only [run_bind, hrun₄]
    exact ⟨-1, k₄, rfl, .inr ⟨rfl, hF₃.shares.restored h hL₄ hdone hold⟩⟩

end

/-! ## Five pages are not enough -/

attribute [local instance] image

/-- Two processes that share their only page, and five free pages: one for the
trapframe and three for the page table of a child, and two are missing to map a
page in it. -/
def fewPages : Kernel :=
  { forked with
    freelist := [0x80050, 0x80051, 0x80052, 0x80053, 0x80054]
    FREE_PAGES := 5
    proc := fun q => { forked.proc q with sz := if q.val < 2 then PGSIZE else 0 } }

theorem fewPages_memory : fewPages.Memory forkedNodes := by
  have h := forked_memory
  have hfree : ∀ f, (forkedNodes f).isSome ∨ f = 0x80040 → f ∉ fewPages.freelist := by
    intro f hf hmem
    simp only [fewPages, List.mem_cons, List.not_mem_nil, or_false] at hmem
    rcases hmem with rfl | rfl | rfl | rfl | rfl
    all_goals
      rcases hf with hf | hf
      · cases hf
      · cases hf
  have halloc : fewPages.Allocator := ⟨by decide, by decide, rfl, rfl⟩
  refine ⟨halloc, h.tree, h.root, h.own, fun {f x} hx => ?_, fun {q v p} hv he => ?_, h.once,
    h.count, h.writable⟩
  · exact hfree f (.inl (by rw [hx]; rfl))
  · obtain ⟨-, -, rfl⟩ := forked_user hv he
    exact ⟨by decide, hfree _ (.inr rfl), rfl⟩

theorem fewPages_forkable : fewPages.Forkable parentSlot := by
  refine ⟨nofun, nofun, by decide, fun v hv => ?_, fun q hq => ?_, nofun⟩
  · obtain rfl : v = 0 := by
      change v * PGSIZE < PGSIZE at hv
      unfold PGSIZE at hv
      omega
    show forked.entry parentSlot 0 ≠ none
    rw [forked_entry (by decide), if_pos ⟨by decide, rfl⟩]
    nofun
  · have hlt : ¬ q.val < 2 := by
      intro hlt
      rcases (by omega : q.val = 0 ∨ q.val = 1) with h0 | h1
      · simp [fewPages, forked, h0] at hq
      · simp [fewPages, forked, h1] at hq
    have h0 : q.val ≠ 0 := by omega
    have h1 : q.val ≠ 1 := by omega
    have hproc : fewPages.proc q = {} := by
      show ({ forked.proc q with sz := if q.val < 2 then PGSIZE else 0 } : Proc) = {}
      rw [if_neg hlt, show forked.proc q = {} from (if_neg h0).trans (if_neg h1)]
    rw [hproc]
    exact ⟨rfl, rfl⟩

/-- What is left when `fork` has failed there. -/
def afterFork : Kernel := ((fork kallocDoc parentSlot).run fewPages).state fewPages

set_option maxRecDepth 100000 in
theorem afterFork_eval : afterFork.nulls = 1 ∧ afterFork.refcounts 0x80050 = 1 := by
  decide +kernel

theorem afterFork_eq {r : Int} {k : Kernel}
    (h : (fork kallocDoc parentSlot).run fewPages = .ok r k) : afterFork = k := by
  unfold afterFork
  rw [h]
  rfl

theorem fork_restores_fewPages :
    (fork kallocDoc parentSlot).run fewPages = .ok (-1) afterFork ∧
      fewPages.Restored afterFork parentSlot := by
  obtain ⟨r, k, hrun, hres⟩ := fork_restores fewPages_memory fewPages_forkable kallocDoc_promised
  obtain rfl := afterFork_eq hrun
  rcases hres with hnulls | ⟨rfl, hres⟩
  · rw [afterFork_eval.1] at hnulls
    cases hnulls
  · exact ⟨hrun, hres⟩

/-- The count of a free page is not what it was once the page has been taken
and given back. -/
theorem fork_counts_free_pages : ¬ ∀ (s : Kernel) (lbl : Frame → Option (Frame × Node)) (t : Slot)
    (ka : Kalloc), s.Memory lbl → s.Forkable t → Promised ka →
    ∃ r k, (fork ka t).run s = .ok r k ∧
      (k.nulls = s.nulls ∨ r = -1 ∧ s.Restored k t ∧ ∀ f, k.refcounts f = s.refcounts f) := by
  intro hall
  obtain ⟨r, k, hrun, hres⟩ := hall fewPages forkedNodes parentSlot kallocDoc fewPages_memory
    fewPages_forkable kallocDoc_promised
  obtain rfl := afterFork_eq hrun
  rcases hres with hnulls | ⟨-, -, hcount⟩
  · rw [afterFork_eval.1] at hnulls
    cases hnulls
  · have hone := hcount 0x80050
    rw [afterFork_eval.2] at hone
    cases hone

end Xv6
