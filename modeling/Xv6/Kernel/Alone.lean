/-
The allocator and `walk` run alone: what each call does to a state.
-/
import Mathlib.Data.List.NodupEquivFin
import Mathlib.Data.Finset.Card
import Mathlib.Order.Interval.Finset.Nat
import Xv6.Kernel.Vm
import Xv6.Kernel.PageTable

namespace Xv6

open Conc Prog

variable {s s' : Kernel} {r f : Frame}

/-! ## kalloc.c -/

/-- `kalloc` has taken page `f`, and `rest` are left. -/
def Kernel.alloc (s : Kernel) (f : Frame) (rest : List Frame) : Kernel :=
  (({ s with freelist := rest }.fill f 5).setRef f 1).decFree

theorem kalloc_run {rest : List Frame} (hf : s.freelist = f :: rest) (hpos : 0 < s.FREE_PAGES) :
    kalloc.run s = .ok (some f) (s.alloc f rest) := by
  simp only [kalloc, kassert, run_bind, run_atom, decide_eq_true_eq, hpos, if_true, Kernel.pop, hf,
    initPage, memset, run_modify, Kernel.alloc]
  rfl

theorem kalloc_fails (hpos : s.FREE_PAGES = 0) : kalloc.run s = .panic "assert failed" := by
  simp [kalloc, kassert, run_bind, hpos]

section

variable [KernelImage]

theorem kfree_run (hmax : s.MAX_PAGES = 0 ∨ s.FREE_PAGES < s.MAX_PAGES) (hf : managed f) :
    (kfree f).run s = .ok () ((s.fill f 1).push f) := by
  have hassert : (decide (s.MAX_PAGES = 0) || decide (s.FREE_PAGES < s.MAX_PAGES)) = true := by
    simpa using hmax
  simp only [kfree, kassert, run_bind, run_atom, hassert, if_true, hf, not_true_eq_false, if_false,
    memset, run_modify]

theorem kref_dec_run : (kref_dec f).run s =
    if decr UINT8_MAX (s.refcounts f) = 0 then (kfree f).run (s.setRef f 0)
    else .ok () (s.setRef f (decr UINT8_MAX (s.refcounts f))) := by
  simp only [kref_dec, run_bind, run_atom, Kernel.dec]
  split
  next h0 => rw [h0]
  next => rfl

/-- How many pages the allocator manages. -/
def totalPages : Nat := PHYSTOP / PGSIZE - KernelImage.endPage

/-- The allocator's variables, as they are between its calls. -/
structure Kernel.Allocator (s : Kernel) : Prop where
  nodup : s.freelist.Nodup
  managed : ∀ f ∈ s.freelist, managed f
  count : s.FREE_PAGES = s.freelist.length
  max : s.MAX_PAGES = totalPages

namespace Kernel.Allocator

theorem congr (h : s.Allocator) (hl : s'.freelist = s.freelist)
    (hc : s'.FREE_PAGES = s.FREE_PAGES) (hm : s'.MAX_PAGES = s.MAX_PAGES) : s'.Allocator :=
  ⟨hl ▸ h.nodup, hl ▸ h.managed, by rw [hc, hl, h.count], hm.trans h.max⟩

theorem length_lt (h : s.Allocator) {l : List Frame} (hl : l.Nodup) (hm : ∀ f ∈ l, Xv6.managed f)
    (hd : ∀ f ∈ l, f ∉ s.freelist) : s.FREE_PAGES + l.length ≤ s.MAX_PAGES := by
  have hnodup : (l ++ s.freelist).Nodup :=
    List.nodup_append.2 ⟨hl, h.nodup, fun f hf g hg he => hd f hf (he ▸ hg)⟩
  have hsub : (l ++ s.freelist).toFinset ⊆ Finset.Ico KernelImage.endPage (PHYSTOP / PGSIZE) := by
    intro f hf
    rw [List.mem_toFinset, List.mem_append] at hf
    rw [Finset.mem_Ico]
    exact hf.elim (hm f) (h.managed f)
  have hcard := Finset.card_le_card hsub
  rw [List.toFinset_card_of_nodup hnodup, Nat.card_Ico, List.length_append] at hcard
  rw [h.count, h.max, totalPages]
  omega

theorem max_lt (h : s.Allocator) : s.MAX_PAGES < UINT64_MAX := by
  rw [h.max]
  refine Nat.lt_of_le_of_lt (Nat.sub_le ..) ?_
  decide

/-- `kalloc` takes the first free page, if there is one. -/
theorem kalloc (h : s.Allocator) {rest : List Frame} (hf : s.freelist = f :: rest) :
    Xv6.kalloc.run s = .ok (some f) (s.alloc f rest) ∧ (s.alloc f rest).Allocator := by
  have hlen : s.FREE_PAGES = rest.length + 1 := by rw [h.count, hf, List.length_cons]
  refine ⟨kalloc_run hf (by omega), ⟨?_, fun g hg => h.managed g ?_, ?_, h.max⟩⟩
  · exact (List.nodup_cons.1 (hf ▸ h.nodup)).2
  · rw [hf]
    exact List.mem_cons_of_mem _ hg
  · show decr UINT64_MAX s.FREE_PAGES = rest.length
    rcases decr_cases UINT64_MAX s.FREE_PAGES with ⟨h0, -⟩ | ⟨-, hd⟩ <;> omega

/-- What `kalloc` returns, if it does. -/
theorem kalloc_ok (h : s.Allocator) {p : Option Frame} (hr : Xv6.kalloc.run s = .ok p s') :
    ∃ f rest, s.freelist = f :: rest ∧ p = some f ∧ s' = s.alloc f rest := by
  cases hf : s.freelist with
  | nil =>
    rw [kalloc_fails (by rw [h.count, hf]; rfl)] at hr
    cases hr
  | cons f rest =>
    rw [(h.kalloc hf).1] at hr
    obtain ⟨rfl, rfl⟩ := Outcome.ok.inj hr
    exact ⟨f, rest, rfl, rfl, rfl⟩

/-- `kfree` puts the page on the free list. -/
theorem kfree (h : s.Allocator) (hm : Xv6.managed f) (hf : f ∉ s.freelist) :
    (Xv6.kfree f).run s = .ok () ((s.fill f 1).push f) ∧ ((s.fill f 1).push f).Allocator := by
  have hlt := h.length_lt (l := [f]) (List.nodup_singleton f) (by simpa using hm) (by simpa using hf)
  have hmax := h.max_lt
  rw [List.length_singleton] at hlt
  refine ⟨kfree_run (.inr (by omega)) hm, ⟨List.nodup_cons.2 ⟨hf, h.nodup⟩, fun g hg => ?_, ?_,
    h.max⟩⟩
  · rcases List.mem_cons.1 hg with rfl | hg
    · exact hm
    · exact h.managed g hg
  · show incr UINT64_MAX s.FREE_PAGES = s.freelist.length + 1
    have hcount := h.count
    rcases incr_cases UINT64_MAX s.FREE_PAGES with ⟨h0, -⟩ | ⟨-, hi⟩ <;> omega

end Kernel.Allocator

end

/-! ## walk -/

variable {ka : Kalloc}

theorem walkLevel_run (va : Nat) :
    (walkLevel ka va false 2 r).run s =
      .ok ((leafTable s.pte r (va / PGSIZE)).map fun f => (f, PX 0 va)) s := by
  simp only [walkLevel, readPte, leafTable, PX_eq, run_bind, run_read]
  split
  · simp only [run_bind, run_read]
    split <;> simp
  · simp

theorem walk_run {va : Nat} (hva : va < MAXVA) :
    (walk ka r va false).run s =
      .ok ((leafTable s.pte r (va / PGSIZE)).map fun f => (f, PX 0 va)) s := by
  rw [walk, if_neg (by omega), walkLevel_run]

end Xv6
