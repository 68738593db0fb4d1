/-
`kalloc` and `kfree` called by any number of CPUs at once.

`FREE_PAGES` is tested before, and decremented after, the section of
`kalloc` that takes a page, both outside `kmem.lock`. As long as no call has
found the list empty inside that section (`nulls = 0`), the counter is the
length of the list plus the decrements still owed (`CountInv`). A call that
did find it empty returns 0 and decrements all the same, and from then on
the counter is behind for good.
-/
import Xv6.Lib.Count
import Xv6.Kernel.System
import Mathlib.Tactic.FinCases

namespace Xv6

open Conc

/-- A call into the allocator. -/
inductive AllocOp where
  | kalloc
  | kfree (pa : Frame)

section

variable [KernelImage] {T : Type} [DecidableEq T]

/-- CPUs `T` calling `kalloc`, and `kfree` on pages that `kalloc` handed out
and nobody has freed since; the client state lists those pages. -/
def allocator (T : Type) : System Kernel (List Frame) T where
  Op := AllocOp
  Ret := Option Frame
  prog _
    | .kalloc => kalloc
    | .kfree pa => do kfree pa; return none
  start _ out _
    | .kalloc => some out
    | .kfree pa => if pa ∈ out then some (out.erase pa) else none
  finish out _
    | .kalloc, some r => r :: out
    | _, _ => out

/-- The allocator after `kinit`. -/
structure AfterKinit (s : Kernel) : Prop where
  managed : ∀ f ∈ s.freelist, Xv6.managed f
  free : s.FREE_PAGES = s.freelist.length
  max : s.MAX_PAGES = s.FREE_PAGES
  lt : s.FREE_PAGES < 2 ^ 64
  nulls : s.nulls = 0

namespace AllocRace

/-- A configuration that calls of `T` reach. -/
def Reachable (c : Config (allocator T)) : Prop :=
  ∃ s, AfterKinit s ∧ (allocator T).Steps ((allocator T).initial s []) c

/-- Where a CPU is in a call: how many pages it has in hand, and how many
decrements of `FREE_PAGES` it owes. -/
structure Call where
  pages : Nat := 0
  owed : Nat := 0

variable [Fintype T]

structure CountInv (s : Kernel) (out : List Frame) (γ : T → Call) : Prop where
  free_managed : ∀ f ∈ s.freelist, managed f
  out_managed : ∀ f ∈ out, managed f
  total : s.freelist.length + out.length + ∑ t, (γ t).pages = s.MAX_PAGES
  free_lt : s.FREE_PAGES < 2 ^ 64
  max_lt : s.MAX_PAGES < 2 ^ 64
  behind : (s.FREE_PAGES + s.nulls) % 2 ^ 64 = (s.freelist.length + ∑ t, (γ t).owed) % 2 ^ 64
  exact : s.nulls = 0 →
    s.FREE_PAGES = s.freelist.length + ∑ t, (γ t).owed ∧ ∀ t, (γ t).owed ≤ (γ t).pages

/-- What is kept: the counts, and while no call has found the list empty,
`FREE_PAGES` moves by one without wrapping and an `assert` fails only in
`kalloc` with no page left. -/
def spec (T : Type) [DecidableEq T] [Fintype T] : OpSpec (allocator T) Call where
  inv := CountInv
  guar _ _ s _ s' _ := s'.nulls = 0 →
    s'.FREE_PAGES = s.FREE_PAGES ∨ s'.FREE_PAGES = s.FREE_PAGES + 1 ∨
      s.FREE_PAGES = s'.FREE_PAGES + 1
  panicOk op _ s _ := s.nulls = 0 → op = AllocOp.kalloc ∧ s.freelist = []
  idle := {}
  post _ op a g := match op, a with
    | AllocOp.kalloc, some r => g = { pages := 1 } ∧ managed r
    | _, _ => g = {}

section Counts

variable {s : Kernel} {out : List Frame} {γ : T → Call} {t : T}

omit [KernelImage] in
theorem pages_update (γ : T → Call) (t : T) (g : Call) :
    (∑ u, (Function.update γ t g u).pages) + (γ t).pages = (∑ u, (γ u).pages) + g.pages :=
  sum_update Call.pages γ t g

omit [KernelImage] in
theorem owed_update (γ : T → Call) (t : T) (g : Call) :
    (∑ u, (Function.update γ t g u).owed) + (γ t).owed = (∑ u, (γ u).owed) + g.owed :=
  sum_update Call.owed γ t g

omit [KernelImage] [Fintype T] in
theorem owed_le_update {g : Call} (h : ∀ u, (γ u).owed ≤ (γ u).pages) (hg : g.owed ≤ g.pages) (u : T) :
    (Function.update γ t g u).owed ≤ (Function.update γ t g u).pages := by
  by_cases hu : u = t
  · subst hu; simpa using hg
  · simpa [Function.update_of_ne hu] using h u

omit [DecidableEq T] in
/-- What the counts say depends on nothing but the allocator's variables. -/
theorem CountInv.congr {s' : Kernel} (h : CountInv s out γ) (hl : s'.freelist = s.freelist)
    (hf : s'.FREE_PAGES = s.FREE_PAGES) (hm : s'.MAX_PAGES = s.MAX_PAGES)
    (hn : s'.nulls = s.nulls) : CountInv s' out γ := by
  obtain ⟨h₁, h₂, h₃, h₄, h₅, h₆, h₇⟩ := h
  rw [← hl, ← hf, ← hm, ← hn] at *
  exact ⟨h₁, h₂, h₃, h₄, h₅, h₆, h₇⟩

/-- The section of `kalloc` under `kmem.lock` that finds a page. -/
theorem CountInv.pop {r : Frame} {rest : List Frame} (h : CountInv s out γ) (hγ : γ t = {})
    (hl : s.freelist = r :: rest) :
    CountInv { s with freelist := rest } out (Function.update γ t { pages := 1, owed := 1 }) := by
  have hp := pages_update γ t { pages := 1, owed := 1 }
  have ho := owed_update γ t { pages := 1, owed := 1 }
  simp only [hγ, add_zero] at hp ho
  obtain ⟨h₁, h₂, h₃, h₄, h₅, h₆, h₇⟩ := h
  simp only [hl, List.length_cons] at h₃ h₆ h₇
  refine ⟨fun f hf => h₁ f (by simp [hl, hf]), h₂, ?_, h₄, h₅, ?_, fun hn => ?_⟩
  · simp only [hp]; omega
  · simp only [ho, h₆]; congr 1; omega
  · obtain ⟨he, hle⟩ := h₇ hn
    exact ⟨by simp only [ho]; omega, owed_le_update hle (Nat.le_refl 1)⟩

/-- The same section when it finds none. -/
theorem CountInv.popNull (h : CountInv s out γ) (hγ : γ t = {}) :
    CountInv { s with nulls := s.nulls + 1 } out (Function.update γ t { owed := 1 }) := by
  have hp := pages_update γ t { owed := 1 }
  have ho := owed_update γ t { owed := 1 }
  simp only [hγ, add_zero] at hp ho
  obtain ⟨h₁, h₂, h₃, h₄, h₅, h₆, h₇⟩ := h
  refine ⟨h₁, h₂, ?_, h₄, h₅, ?_, fun hn => by simp at hn⟩
  · simp only [hp]; omega
  · simp only [ho]; omega

/-- `FREE_PAGES--` by a call that owes it. -/
theorem CountInv.decFree {g : Call} (h : CountInv s out γ) (ho : (γ t).owed = 1)
    (hg : g.pages = (γ t).pages) (hg' : g.owed = 0) :
    CountInv s.decFree out (Function.update γ t g) := by
  have hp := pages_update γ t g
  have hs := owed_update γ t g
  obtain ⟨h₁, h₂, h₃, h₄, h₅, h₆, h₇⟩ := h
  have hd := decr_cases UINT64_MAX s.FREE_PAGES
  simp only [UINT64_MAX] at hd
  refine ⟨h₁, h₂, ?_, ?_, h₅, ?_, fun hn => ?_⟩ <;> simp only [Kernel.decFree, UINT64_MAX]
  · omega
  · omega
  · omega
  · obtain ⟨he, hle⟩ := h₇ hn
    exact ⟨by omega, owed_le_update hle (by omega)⟩

/-- The section of `kfree` under `kmem.lock`. -/
theorem CountInv.push {r : Frame} (h : CountInv s out γ) (hγ : γ t = { pages := 1 })
    (hr : managed r) : CountInv (s.push r) out (Function.update γ t {}) := by
  have hp := pages_update γ t {}
  have ho := owed_update γ t {}
  simp only [hγ, add_zero] at hp ho
  obtain ⟨h₁, h₂, h₃, h₄, h₅, h₆, h₇⟩ := h
  have hc := incr_cases UINT64_MAX s.FREE_PAGES
  simp only [UINT64_MAX] at hc
  refine ⟨?_, h₂, ?_, ?_, h₅, ?_, fun hn => ?_⟩ <;>
    simp only [Kernel.push, UINT64_MAX, List.length_cons]
  · intro f hf
    rcases List.mem_cons.1 hf with rfl | hf
    · exact hr
    · exact h₁ f hf
  · omega
  · omega
  · omega
  · obtain ⟨he, hle⟩ := h₇ hn
    refine ⟨?_, owed_le_update hle (Nat.le_refl 0)⟩
    have hsum : ∑ u, (Function.update γ t {} u).owed ≤ ∑ u, (Function.update γ t {} u).pages :=
      Finset.sum_le_sum fun u _ => owed_le_update hle (Nat.le_refl 0) u
    omega

/-- A page being freed is not counted as free. -/
theorem CountInv.free_lt_max (h : CountInv s out γ) (hγ : γ t = { pages := 1 })
    (hn : s.nulls = 0) : s.FREE_PAGES < s.MAX_PAGES := by
  obtain ⟨he, hle⟩ := h.exact hn
  have hsum : ∑ u, (Function.update γ t {} u).owed ≤ ∑ u, (Function.update γ t {} u).pages :=
    Finset.sum_le_sum fun u _ => owed_le_update hle (Nat.le_refl 0) u
  have hp := pages_update γ t {}
  have ho := owed_update γ t {}
  simp only [hγ, add_zero] at hp ho
  have := h.total
  omega

end Counts

/-! ## The calls -/

section Calls

variable {t : T} {op : (allocator T).Op}

@[simp] theorem spec_inv : ((spec T).spec op).inv = CountInv := rfl

@[simp] theorem spec_guar {s s' : Kernel} {γ γ' : T → Call} : ((spec T).spec op).guar t s γ s' γ' ↔ (s'.nulls = 0 →
    s'.FREE_PAGES = s.FREE_PAGES ∨ s'.FREE_PAGES = s.FREE_PAGES + 1 ∨
      s.FREE_PAGES = s'.FREE_PAGES + 1) := .rfl

/-- An action that leaves the allocator's variables alone. -/
theorem safe_other {f : Kernel → Kernel} {g : Call} (hl : ∀ s, (f s).freelist = s.freelist)
    (hf : ∀ s, (f s).FREE_PAGES = s.FREE_PAGES) (hm : ∀ s, (f s).MAX_PAGES = s.MAX_PAGES)
    (hn : ∀ s, (f s).nulls = s.nulls) :
    Safe ((spec T).spec op) t (Prog.modify f) g fun _ g' => g' = g := by
  refine Safe.modify fun s out γ hi hg => ⟨g, ?_, fun _ => .inl (hf s), rfl⟩
  rw [← hg, Function.update_eq_self]
  exact CountInv.congr hi (hl s) (hf s) (hm s) (hn s)

theorem kassert_safe {cond : Kernel → Bool} {g : Call}
    (h : ∀ s out γ, CountInv s out γ → γ t = g → cond s = false → s.nulls = 0 →
      op = AllocOp.kalloc ∧ s.freelist = []) :
    Safe ((spec T).spec op) t (kassert cond) g fun _ g' => g' = g := by
  refine Safe.atom (fun s out γ hi hg a s' hf => ?_) fun s out γ hi hg m hm => ?_
  · split at hf
    · obtain ⟨-, rfl⟩ := Outcome.ok.inj hf
      refine ⟨g, ?_, fun _ => .inl rfl, rfl⟩
      rw [← hg, Function.update_eq_self]
      exact hi
    · cases hf
  · split at hm
    · cases hm
    · next hc => exact fun hn => h s out γ hi hg (by simpa using hc) hn

theorem pop_safe :
    Safe ((spec T).spec op) t (Prog.atom fun s => .ok s.pop.1 s.pop.2) {} fun r g' =>
      match r with
      | some r => g' = { pages := 1, owed := 1 } ∧ managed r
      | none => g' = { owed := 1 } := by
  refine Safe.atom (fun s out γ hi hg r s' hf => ?_) fun s out γ hi hg m hm => by cases hm
  obtain ⟨rfl, rfl⟩ := Outcome.ok.inj hf
  rw [spec_inv] at hi
  cases hl : s.freelist with
  | nil =>
    refine ⟨{ owed := 1 }, ?_, ?_, ?_⟩
    · simpa [Kernel.pop, hl] using hi.popNull hg
    · simp [Kernel.pop, hl]
    · simp [Kernel.pop, hl]
  | cons r rest =>
    refine ⟨{ pages := 1, owed := 1 }, ?_, ?_, ?_⟩
    · simpa [Kernel.pop, hl] using hi.pop hg hl
    · simp [Kernel.pop, hl]
    · simpa [Kernel.pop, hl] using hi.free_managed r (by simp [hl])

theorem decFree_safe {g : Call} (g' : Call) (ho : g.owed = 1) (hp : g'.pages = g.pages) (h0 : g'.owed = 0) :
    Safe ((spec T).spec op) t (Prog.modify fun s => s.decFree) g fun _ g₁ => g₁ = g' := by
  refine Safe.modify fun s out γ hi hg => ⟨g', ?_, fun hn => ?_, rfl⟩
  · exact CountInv.decFree hi (hg ▸ ho) (hg ▸ hp) h0
  · rw [spec_inv] at hi
    have hpos : 0 < s.FREE_PAGES := by
      have := (hi.exact hn).1
      have := Finset.single_le_sum (f := fun u => (γ u).owed) (fun u _ => Nat.zero_le _)
        (Finset.mem_univ t)
      simp only [hg, ho] at this
      omega
    have := hi.free_lt
    have hd := decr_cases UINT64_MAX s.FREE_PAGES
    right; right
    simp only [Kernel.decFree]
    omega

theorem kalloc_safe :
    Safe ((spec T).spec .kalloc) t kalloc {} fun r g' =>
      match r with
      | some r => g' = { pages := 1 } ∧ managed r
      | none => g' = {} := by
  refine Safe.bind (kassert_safe fun s out γ hi hg hc hn => ⟨rfl, ?_⟩) ?_
  · have := (hi.exact hn).1
    simp only [decide_eq_false_iff_not, Nat.not_lt, Nat.le_zero] at hc
    exact List.eq_nil_of_length_eq_zero (by omega)
  rintro - g rfl
  refine Safe.bind pop_safe fun r g hg => ?_
  cases r with
  | none =>
    subst hg
    refine Safe.bind (Q := fun _ g' => g' = { owed := 1 }) (Safe.ret rfl) ?_
    rintro - g rfl
    exact Safe.bind (decFree_safe {} rfl rfl rfl) fun _ g hg => hg
  | some r =>
    obtain ⟨rfl, hr⟩ := hg
    refine Safe.bind (Q := fun _ g' => g' = { pages := 1, owed := 1 }) ?_ ?_
    · refine Safe.bind (safe_other (fun _ => rfl) (fun _ => rfl) (fun _ => rfl) fun _ => rfl) ?_
      rintro - g rfl
      exact safe_other (fun _ => rfl) (fun _ => rfl) (fun _ => rfl) fun _ => rfl
    rintro - g rfl
    exact Safe.bind (decFree_safe { pages := 1 } rfl rfl rfl) fun _ g hg => ⟨hg, hr⟩

theorem kfree_safe {pa : Frame} (hpa : managed pa) :
    Safe ((spec T).spec (.kfree pa)) t (kfree pa) { pages := 1 } fun _ g' => g' = {} := by
  refine Safe.bind (kassert_safe fun s out γ hi hg hc hn => ?_) ?_
  · have := hi.free_lt_max hg hn
    simp only [Bool.or_eq_false_iff, decide_eq_false_iff_not] at hc
    exact absurd this hc.2
  rintro - g rfl
  rw [if_neg (not_not_intro hpa)]
  refine Safe.bind (safe_other (fun _ => rfl) (fun _ => rfl) (fun _ => rfl) fun _ => rfl) ?_
  rintro - g rfl
  refine Safe.modify fun s out γ hi hg => ⟨{}, hi.push hg hpa, fun hn => ?_, rfl⟩
  have hlt := hi.free_lt_max hg hn
  have := hi.max_lt
  have hc := incr_cases UINT64_MAX s.FREE_PAGES
  simp only [Kernel.push, UINT64_MAX] at hc ⊢
  omega

end Calls

theorem CountInv.take {s : Kernel} {out : List Frame} {γ : T → Call} {t : T} {pa : Frame}
    (h : CountInv s out γ) (hγ : γ t = {}) (hpa : pa ∈ out) :
    CountInv s (out.erase pa) (Function.update γ t { pages := 1 }) := by
  have hp := pages_update γ t { pages := 1 }
  have ho := owed_update γ t { pages := 1 }
  simp only [hγ, add_zero] at hp ho
  have hlen := List.length_erase_of_mem hpa
  have hpos := List.length_pos_of_mem hpa
  obtain ⟨h₁, h₂, h₃, h₄, h₅, h₆, h₇⟩ := h
  refine ⟨h₁, fun f hf => h₂ f (List.mem_of_mem_erase hf), by omega, h₄, h₅, by omega,
    fun hn => ?_⟩
  obtain ⟨he, hle⟩ := h₇ hn
  exact ⟨by omega, owed_le_update hle (Nat.zero_le 1)⟩

theorem CountInv.hand {s : Kernel} {out : List Frame} {γ : T → Call} {t : T} {r : Frame}
    (h : CountInv s out γ) (hγ : γ t = { pages := 1 }) (hr : managed r) :
    CountInv s (r :: out) (Function.update γ t {}) := by
  have hp := pages_update γ t {}
  have ho := owed_update γ t {}
  simp only [hγ, add_zero] at hp ho
  obtain ⟨h₁, h₂, h₃, h₄, h₅, h₆, h₇⟩ := h
  refine ⟨h₁, ?_, by simp only [List.length_cons]; omega, h₄, h₅, by omega, fun hn => ?_⟩
  · intro f hf
    rcases List.mem_cons.1 hf with rfl | hf
    · exact hr
    · exact h₂ f hf
  · obtain ⟨he, hle⟩ := h₇ hn
    exact ⟨by omega, owed_le_update hle (Nat.le_refl 0)⟩

theorem kept : (spec T).Kept where
  start := by
    rintro s out γ t (_ | pa) out' hi hγ hs
    · obtain rfl := Option.some.inj hs
      refine ⟨{}, ?_, fun _ => .inl rfl, Safe.mono kalloc_safe fun r g hg => ?_⟩
      · have hγ' : γ t = {} := hγ
        rw [← hγ', Function.update_eq_self]
        exact hi
      · cases r <;> exact hg
    · simp only [allocator] at hs
      split at hs
      · next hpa =>
        obtain rfl := Option.some.inj hs
        refine ⟨{ pages := 1 }, hi.take hγ hpa, fun _ => .inl rfl, ?_⟩
        exact Safe.bind (kfree_safe (hi.out_managed pa hpa)) fun _ g hg => hg
      · cases hs
  finish := by
    rintro s out γ t (_ | pa) (_ | r) hi hpost
    all_goals simp only [spec] at hi hpost
    all_goals refine ⟨?_, fun _ => .inl rfl⟩
    case kalloc.some => exact hi.hand hpost.1 hpost.2
    all_goals
      simp only [spec]
      rw [← hpost, Function.update_eq_self]
      exact hi

theorem reachable_holds {c : Config (allocator T)} (h : Reachable c) : (spec T).Holds c := by
  obtain ⟨s, hk, hs⟩ := h
  refine kept.holds ?_ hs
  exact
    { free_managed := hk.managed
      out_managed := by simp
      total := by simp [spec, hk.max, hk.free]
      free_lt := hk.lt
      max_lt := hk.max ▸ hk.lt
      behind := by simp [spec, hk.nulls, hk.free]
      exact := fun _ => ⟨by simp [spec, hk.free], fun _ => Nat.le_refl 0⟩ }

/-- **The free-page counter.** However the calls interleave, the counter of
an allocator at rest is the length of the free list exactly if the number of
calls that found the list empty under `kmem.lock` is 0 modulo 2^64. And as
long as there was none, no step wraps the counter, no `assert` fails in
`kfree`, and one fails in `kalloc` only with the list empty. -/
theorem freePages_exact {c : Config (allocator T)} (h : Reachable c) :
    ((allocator T).Quiet c →
      (c.shared.FREE_PAGES = c.shared.freelist.length ↔ c.shared.nulls % 2 ^ 64 = 0)) ∧
    (c.shared.nulls = 0 →
      ((allocator T).Quiet c → c.shared.FREE_PAGES = c.shared.freelist.length) ∧
      (∀ t c', (allocator T).Step c t c' → c'.shared.nulls = 0 →
        c'.shared.FREE_PAGES = c.shared.FREE_PAGES ∨
        c'.shared.FREE_PAGES = c.shared.FREE_PAGES + 1 ∨
        c.shared.FREE_PAGES = c'.shared.FREE_PAGES + 1) ∧
      ∀ t op msg, (allocator T).Panics c t op msg →
        op = AllocOp.kalloc ∧ c.shared.freelist = []) := by
  have hh := reachable_holds h
  refine ⟨fun hq => ?_, fun hn => ⟨fun hq => ?_, fun t c' hs hn' => ?_, fun t op msg hp => ?_⟩⟩
  · have hi : CountInv c.shared c.client fun _ => {} := hh.quiet hq
    have := hi.behind
    have := hi.free_lt
    have hlen := hi.total
    have := hi.max_lt
    simp only [Finset.sum_const_zero] at *
    omega
  · have hi : CountInv c.shared c.client fun _ => {} := hh.quiet hq
    simpa using (hi.exact hn).1
  · obtain ⟨γ, hγ⟩ := hh
    obtain ⟨γ', op, -, -, hg⟩ := hγ.step kept hs
    exact hg hn'
  · exact hh.panicOk hp hn

end AllocRace

end

/-! ## Two CPUs and one page -/

namespace AllocRace

attribute [local instance] image

/-- The two CPUs. -/
def cpu0 : Fin 2 := ⟨0, Nat.two_pos⟩

def cpu1 : Fin 2 := ⟨1, Nat.one_lt_two⟩

theorem quiet_of_idle {c : Config (allocator (Fin 2))} (h0 : c.thread 0 matches .idle)
    (h1 : c.thread 1 matches .idle) : (allocator (Fin 2)).Quiet c := by
  intro t
  fin_cases t
  · revert h0
    simp only [Fin.zero_eta]
    cases c.thread 0 <;> simp
  · revert h1
    simp only [Fin.mk_one]
    cases c.thread 1 <;> simp

/-- An allocator with two pages to give. -/
def twoPages : Kernel := Kernel.fresh [image.endPage, image.endPage + 1]

theorem twoPages_afterKinit : AfterKinit twoPages := ⟨by decide, rfl, rfl, by decide, rfl⟩

/-- Both CPUs take a page, one in the middle of the other's call, and one gives
its page back. -/
def bothTake : List (Fin 2 × Option AllocOp) :=
  [(cpu0, some .kalloc), (cpu1, some .kalloc), (cpu0, none), (cpu1, none), (cpu0, none),
    (cpu1, none), (cpu0, none), (cpu0, none), (cpu0, none), (cpu0, none), (cpu1, none),
    (cpu1, none), (cpu1, none), (cpu1, none), (cpu1, some (.kfree image.endPage)), (cpu1, none),
    (cpu1, none), (cpu1, none), (cpu1, none)]

theorem freePages_exact_twoPages : ∃ c : Config (allocator (Fin 2)),
    (allocator (Fin 2)).schedule ((allocator (Fin 2)).initial twoPages []) bothTake = some c ∧
    c.shared.freelist = [image.endPage] ∧ c.shared.FREE_PAGES = c.shared.freelist.length := by
  obtain ⟨c, hc, h0, h1, hl, hn⟩ : ∃ c, (allocator (Fin 2)).schedule
      ((allocator (Fin 2)).initial twoPages []) bothTake = some c ∧
      (c.thread 0 matches .idle) ∧ (c.thread 1 matches .idle) ∧
      c.shared.freelist = [image.endPage] ∧ c.shared.nulls = 0 := ⟨_, rfl, rfl, rfl, rfl, rfl⟩
  have hreach : Reachable c := ⟨twoPages, twoPages_afterKinit, System.schedule_steps hc⟩
  exact ⟨c, hc, hl, ((freePages_exact hreach).2 hn).1 (quiet_of_idle h0 h1)⟩

/-- An allocator with one page to give. -/
def onePage : Kernel := Kernel.fresh [image.endPage]

theorem onePage_afterKinit : AfterKinit onePage := ⟨by decide, rfl, rfl, by decide, rfl⟩

/-- Both CPUs pass the `assert`, and then both enter the section under
`kmem.lock`. -/
def bothAsk : List (Fin 2 × Option AllocOp) :=
  [(cpu0, some .kalloc), (cpu1, some .kalloc), (cpu0, none), (cpu1, none), (cpu0, none),
    (cpu1, none), (cpu0, none), (cpu0, none), (cpu0, none), (cpu0, none), (cpu1, none),
    (cpu1, none)]

/-- One page, two CPUs: both calls return, one of them with the page, and the
counter of the empty list is 2^64 - 1. -/
theorem freePages_wraps : ∃ c : Config (allocator (Fin 2)), Reachable c ∧
    (allocator (Fin 2)).Quiet c ∧ c.shared.freelist = [] ∧ c.shared.FREE_PAGES = 2 ^ 64 - 1 := by
  have hrun : ∃ c, (allocator (Fin 2)).schedule ((allocator (Fin 2)).initial onePage []) bothAsk =
      some c ∧ (c.thread 0 matches .idle) ∧ (c.thread 1 matches .idle) ∧
      c.shared.freelist = [] ∧ c.shared.FREE_PAGES = 2 ^ 64 - 1 :=
    ⟨_, rfl, rfl, rfl, rfl, rfl⟩
  obtain ⟨c, hc, h0, h1, hl, hf⟩ := hrun
  exact ⟨c, ⟨onePage, onePage_afterKinit, System.schedule_steps hc⟩, quiet_of_idle h0 h1, hl, hf⟩

end AllocRace

end Xv6
