/-
proc.c: the order of `wait_lock` and the locks of the processes.

`wait_lock` comes before the lock of a process. Who holds the lock of a process
takes another one only under `wait_lock`, as `ps` does for the parent, so of
the CPUs that wait for each other there would be two that hold `wait_lock`.
-/
import Xv6.OneCpu

namespace Xv6.Switch

open Conc

variable {n : Nat} {C L Ch : Type} {s : Kernel n C L Ch} {c c' : C} {k k' : Lock n L}
  {held : List (Lock n L)}

/-- `wait_lock` and the locks of the processes. -/
def Lock.IsProc : Lock n L → Prop
  | .wait_lock | .proc _ => True
  | _ => False

/-- CPU `c` spins for lock `k`. -/
def Kernel.Spins (s : Kernel n C L Ch) (c : C) (k : Lock n L) : Prop :=
  ∃ rest, s.left c = .spin k :: rest

/-- CPU `c` tries to acquire lock `k`. -/
def Kernel.Tries (s : Kernel n C L Ch) (c : C) (k : Lock n L) : Prop :=
  (∃ rest, s.left c = .acquire k :: rest) ∨ s.Spins c k

/-- Each of these CPUs spins for a lock that another of them holds. -/
def Deadlock (s : Kernel n C L Ch) (S : Set C) : Prop :=
  ∀ c ∈ S, ∃ k c', k.IsProc ∧ s.Spins c k ∧ s.owner k = some c' ∧ c' ∈ S ∧ c' ≠ c

/-- A CPU that holds one of these locks, and tries to acquire another, holds
`wait_lock`. -/
theorem Order.wait_lock (h : Order held k) (hk : k.IsProc) (hk' : k'.IsProc) (hm : k' ∈ held) :
    .wait_lock ∈ held := by
  cases k with
  | wait_lock =>
    cases k' with
    | wait_lock => exact hm
    | proc p => exact absurd hm (h.2 p)
    | _ => exact hk'.elim
  | proc p =>
    rcases h.2 with hno | hw
    · cases k' with
      | wait_lock => exact hm
      | proc q => exact absurd hm (hno q)
      | _ => exact hk'.elim
    · exact hw
  | _ => exact hk.elim

variable [DecidableEq L]

theorem CpuOk.order (hc : CpuOk s c held) (h : s.Tries c k) : Order held k := by
  have hsafe := hc.safe
  rcases h with ⟨rest, hleft⟩ | ⟨rest, hleft⟩
  · rw [hleft] at hsafe
    exact hsafe.1
  · rw [hleft] at hsafe
    exact hsafe.1

theorem Inv.tries (h : Inv s) (ht : s.Tries c k) : s.owner k ≠ some c := by
  obtain ⟨held, hc⟩ := h.cpu c
  exact fun ho => (hc.order ht).1 ((hc.owner k).1 ho)

/-- A CPU that another waits for, and that waits itself, holds `wait_lock`. -/
theorem Inv.holds_wait (h : Inv s) (hk : k.IsProc) (ho : s.owner k = some c) (hk' : k'.IsProc)
    (ht : s.Spins c k') : s.owner .wait_lock = some c := by
  obtain ⟨held, hc⟩ := h.cpu c
  exact (hc.owner _).2 ((hc.order (.inr ht)).wait_lock hk' hk ((hc.owner k).1 ho))

theorem Inv.no_deadlock (h : Inv s) {S : Set C} (hS : Deadlock s S) : S = ∅ := by
  refine Set.eq_empty_iff_forall_notMem.2 fun c hc => ?_
  obtain ⟨k₁, c₁, hk₁, -, ho₁, hc₁, -⟩ := hS c hc
  obtain ⟨k₂, c₂, hk₂, ht₂, ho₂, hc₂, hne⟩ := hS c₁ hc₁
  obtain ⟨k₃, -, hk₃, ht₃, -⟩ := hS c₂ hc₂
  have hw₁ := h.holds_wait hk₁ ho₁ hk₂ ht₂
  have hw₂ := h.holds_wait hk₂ ho₂ hk₃ ht₃
  exact hne (Option.some.inj (hw₂.symm.trans hw₁))

variable [DecidableEq C] [DecidableEq Ch]

/-- No set of CPUs waits for itself, and no CPU tries to acquire a lock that it
holds. -/
theorem lock_order (h : (machine n C L Ch).Reachable s) :
    (∀ S, Deadlock s S → S = ∅) ∧ ∀ c k, s.Tries c k → s.owner k ≠ some c := by
  obtain ⟨hinv, -⟩ := sound_reachable h
  exact ⟨fun S hS => hinv.no_deadlock hS, fun c k ht => hinv.tries ht⟩

/-- `init` has a child, and calls `ps`, which gets to the parent of the child.
The scheduler of the second CPU holds the lock of `init`. -/
def psParent : List (Event Bool Unit Unit) :=
  List.flatten [List.replicate 9 (.go false), [.call false (.fork ⟨true, true, []⟩)],
    List.replicate 23 (.go false), [.call false (.ps 0 2)], List.replicate 13 (.go false),
    List.replicate 4 (.go true), [.go false]]

theorem lock_order_psParent : ∃ s, (machine 2 Bool Unit Unit).exec booted psParent = some s ∧
    (s.left false matches .spin (.proc 0) :: _, s.owner .wait_lock, s.owner (.proc 1),
      s.owner (.proc 0)) = (true, some false, some false, some true) ∧
    ∀ S, Deadlock s S → S = ∅ := by
  have hrun : ((machine 2 Bool Unit Unit).exec booted psParent).map (fun s =>
      (s.left false matches .spin (.proc 0) :: _, s.owner .wait_lock, s.owner (.proc 1),
        s.owner (.proc 0))) = some (true, some false, some false, some true) := by
    decide +kernel
  obtain ⟨s, hs, hr⟩ := Option.map_eq_some_iff.1 hrun
  exact ⟨s, hs, hr, (lock_order (s := s) ⟨booted, psParent, booted_init, hs⟩).1⟩

end Xv6.Switch
