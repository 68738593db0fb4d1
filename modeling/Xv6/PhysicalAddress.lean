/-
sysproc.c: sys_va2pa, called while no other process runs, against the
physical address of the byte at a user address. The sections under `p->lock`
hold nobody up then.
-/
import Xv6.Kernel.Proc
import Xv6.UserCopy

namespace Xv6

open Conc Prog

/-- What C's `walkaddr` returns: a page's address, or 0. -/
def Frame.address : Option Frame → Nat
  | none => 0
  | some f => f * PGSIZE

/-- The loop of `sys_va2pa`, over the slots that are left. -/
def va2paLoop (ka : Kalloc) (pid : Int) (va : Nat) : List Slot → Prog Kernel Nat
  | [] => return 0
  | p :: ps => do
    if (← read fun s => (s.proc p).pid) = pid then
      match ← read fun s => (s.proc p).pagetable with
      | none => fail "kerneltrap"
      | some pagetable =>
        let pa ← walkaddr ka pagetable va
        return Frame.address pa
    else va2paLoop ka pid va ps

/-- Called by process `t`. -/
def sys_va2pa (ka : Kalloc) (t : Slot) (va : Nat) (pid : Int) : Prog Kernel Nat := do
  if pid = 0 then
    match ← read fun s => (s.proc t).pagetable with
    | none => fail "kerneltrap"
    | some pagetable =>
      let pa ← walkaddr ka pagetable va
      return Frame.address pa
  else va2paLoop ka pid va (List.finRange NPROC)

namespace Kernel

/-- The process that process `t` names by `pid`. -/
def named (s : Kernel) (t : Slot) (pid : Int) : Option Slot :=
  if pid = 0 then some t else (List.finRange NPROC).find? fun p => (s.proc p).pid = pid

/-- The physical address of the byte at a user address. -/
def physical (s : Kernel) (r : Frame) (va : Nat) : Option Nat :=
  (s.pageOf r va).map fun f => f * PGSIZE + va % PGSIZE

/-- `pa` is the translation of `va`: 0 for no user page, and else the address
of the byte. -/
def Translates (s : Kernel) (r : Frame) (va pa : Nat) : Prop :=
  (pa = 0 ↔ s.physical r va = none) ∧ ∀ a, s.physical r va = some a → pa = a

/-- User pages are pages of memory, which is from KERNBASE on. -/
def InMemory (s : Kernel) (r : Frame) : Prop :=
  ∀ va f, s.pageOf r va = some f → KERNBASE / PGSIZE ≤ f

end Kernel

variable {s : Kernel} {ka : Kalloc} {r : Frame} {t p : Slot} {pid : Int}

theorem va2paLoop_run {ps : List Slot} (va : Nat)
    (hp : (ps.find? fun p => (s.proc p).pid = pid) = some p)
    (hr : (s.proc p).pagetable = some r) :
    (va2paLoop ka pid va ps).run s = .ok (Frame.address (s.pageOf r va)) s := by
  induction ps with
  | nil => cases hp
  | cons q ps ih =>
    rw [List.find?_cons] at hp
    simp only [va2paLoop, run_bind, run_read]
    by_cases hq : (s.proc q).pid = pid
    · rw [if_pos hq]
      simp only [hq, decide_true] at hp
      obtain rfl := Option.some.inj hp
      simp only [run_bind, run_read, hr, walkaddr_run]
      rfl
    · rw [if_neg hq]
      simp only [hq, decide_false] at hp
      exact ih hp

/-- The answer is the address of the page. -/
theorem sys_va2pa_run (va : Nat) (hp : s.named t pid = some p)
    (hr : (s.proc p).pagetable = some r) :
    (sys_va2pa ka t va pid).run s = .ok (Frame.address (s.pageOf r va)) s := by
  unfold sys_va2pa
  unfold Kernel.named at hp
  split at hp
  next h0 =>
    obtain rfl := Option.some.inj hp
    rw [if_pos h0]
    simp only [run_bind, run_read, hr, walkaddr_run]
    rfl
  next h0 =>
    rw [if_neg h0]
    exact va2paLoop_run va hp hr

/-- The page's address is the byte's if and only if the byte is its first. -/
theorem Kernel.translates_page (hm : s.InMemory r) (va : Nat) :
    s.Translates r va (Frame.address (s.pageOf r va)) ↔
      s.physical r va = none ∨ va % PGSIZE = 0 := by
  unfold Kernel.Translates Kernel.physical
  cases hpage : s.pageOf r va with
  | none => simp [Frame.address]
  | some f =>
    have hle : 0x80000 ≤ f := hm va f hpage
    have hpos : f * PGSIZE ≠ 0 :=
      Nat.ne_of_gt (Nat.mul_pos (Nat.lt_of_lt_of_le (by decide) hle) (by decide))
    simp [Frame.address, hpos]

theorem Frame.address_inj {va va' : Nat} (hva : s.physical r va ≠ none)
    (hva' : s.physical r va' ≠ none) :
    Frame.address (s.pageOf r va) = Frame.address (s.pageOf r va') ↔
      s.pageOf r va = s.pageOf r va' := by
  unfold Kernel.physical at hva hva'
  cases hf : s.pageOf r va with
  | none => simp [hf] at hva
  | some f =>
    cases hg : s.pageOf r va' with
    | none => simp [hg] at hva'
    | some g =>
      show f * PGSIZE = g * PGSIZE ↔ _
      rw [Option.some.injEq]
      exact Nat.mul_left_inj (by decide)

/-- va2pa drops the offset in the page: what it returns is the translation of
an address that is not mapped or is the first of its page, and of no other,
and it tells two mapped addresses apart if and only if they are in different
frames. -/
theorem va2pa_page_only (hp : s.named t pid = some p) (hr : (s.proc p).pagetable = some r)
    (hm : s.InMemory r) :
    ∃ va2pa : Nat → Nat, (∀ va, (sys_va2pa ka t va pid).run s = .ok (va2pa va) s) ∧
      (∀ va, s.Translates r va (va2pa va) ↔ s.physical r va = none ∨ va % PGSIZE = 0) ∧
      ∀ va va', s.physical r va ≠ none → s.physical r va' ≠ none →
        (va2pa va ≠ va2pa va' ↔ s.pageOf r va ≠ s.pageOf r va') := by
  refine ⟨fun va => Frame.address (s.pageOf r va), fun va => sys_va2pa_run va hp hr,
    Kernel.translates_page hm, fun va va' hva hva' => ?_⟩
  exact not_congr (Frame.address_inj hva hva')

/-- A process whose table at frame 0x80002 has one user page, the fifth, in
frame 0x80007. -/
def oneUserPage : Kernel where
  freelist := []
  FREE_PAGES := 0
  MAX_PAGES := 0
  refcounts _ := 0
  mem _ _ := 0
  pte f i :=
    if f = 0x80002 ∧ i = 0 then link 0x80003
    else if f = 0x80003 ∧ i = 0 then link 0x80004
    else if f = 0x80004 ∧ i = 5 then { V := true, R := true, W := true, U := true, pa := 0x80007 }
    else { pa := 0x80000 }
  pipe _ := {}
  proc _ := { state := .RUNNING, pid := 1, pagetable := some 0x80002 }
  nextpid := 2
  file _ := {}
  busy _ := none
  upts := {0x80002}
  nulls := 0

theorem oneUserPage_inMemory : oneUserPage.InMemory 0x80002 := by
  intro va f hf
  have hpa : ∀ g i, KERNBASE / PGSIZE ≤ (oneUserPage.pte g i).pa := by
    intro g i
    simp only [oneUserPage]
    split
    · decide
    · split
      · decide
      · split <;> decide
  unfold Kernel.pageOf at hf
  split at hf
  next =>
    obtain ⟨p, hp, hU⟩ := Option.bind_eq_some_iff.1 hf
    obtain ⟨n, -, hn⟩ := Option.bind_eq_some_iff.1 hp
    split at hU
    next =>
      obtain rfl := Option.some.inj hU
      split at hn
      next =>
        obtain rfl := Option.some.inj hn
        exact hpa _ _
      next => cases hn
    next => cases hU
  next => cases hf

theorem va2pa_page_only_oneUserPage :
    oneUserPage.physical 0x80002 (5 * PGSIZE + 1) = some (0x80007 * PGSIZE + 1) ∧
      ∃ va2pa : Nat → Nat,
        (∀ va, (sys_va2pa kalloc initproc va 1).run oneUserPage = .ok (va2pa va) oneUserPage) ∧
        ¬ oneUserPage.Translates 0x80002 (5 * PGSIZE + 1) (va2pa (5 * PGSIZE + 1)) := by
  have hp : oneUserPage.named initproc 1 = some initproc := rfl
  obtain ⟨va2pa, hrun, hiff, -⟩ :=
    @va2pa_page_only oneUserPage kalloc 0x80002 initproc initproc 1 hp rfl oneUserPage_inMemory
  refine ⟨by decide +kernel, va2pa, hrun, fun htrans => ?_⟩
  exact absurd ((hiff _).1 htrans) (by decide +kernel)

/-- The second byte of the page gets the address of the first. -/
theorem va2pa_drops_offset :
    ∃ pa, (sys_va2pa kalloc initproc (5 * PGSIZE) 0).run oneUserPage = .ok pa oneUserPage ∧
      (sys_va2pa kalloc initproc (5 * PGSIZE + 1) 0).run oneUserPage = .ok pa oneUserPage ∧
      oneUserPage.physical 0x80002 (5 * PGSIZE + 1) ≠ some pa := by
  have hp : oneUserPage.named initproc 0 = some initproc := rfl
  refine ⟨0x80007 * PGSIZE, ?_, ?_, by decide +kernel⟩
  · have hrun := @sys_va2pa_run oneUserPage kalloc 0x80002 initproc initproc 0 (5 * PGSIZE) hp rfl
    have hpage : oneUserPage.pageOf 0x80002 (5 * PGSIZE) = some 0x80007 := by decide +kernel
    rwa [hpage] at hrun
  · have hrun := @sys_va2pa_run oneUserPage kalloc 0x80002 initproc initproc 0 (5 * PGSIZE + 1) hp rfl
    have hpage : oneUserPage.pageOf 0x80002 (5 * PGSIZE + 1) = some 0x80007 := by decide +kernel
    rwa [hpage] at hrun

end Xv6
