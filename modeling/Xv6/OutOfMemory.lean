/-
Running out of memory.

`kalloc` asserts that `FREE_PAGES` is not 0 before it looks at the free
list. As long as system calls and faults run one at a time the counter is
the length of the list (`Exact`), so a call on an empty list panics and no
caller sees the 0 that the comment promises. `Agree p q` compares a program
that calls `kalloc` with the same program calling `kallocDoc`: they do the
same as long as `kallocDoc` finds a page, and where it first does not, the
one with `kalloc` panics.
-/
import Xv6.Kernel.System
import Mathlib.Order.Interval.Finset.Nat

namespace Xv6

open Conc Prog

/-- `FREE_PAGES` is the length of the free list. -/
structure Exact (s : Kernel) : Prop where
  free : s.FREE_PAGES = s.freelist.length
  le : s.FREE_PAGES ≤ s.MAX_PAGES
  pos : s.MAX_PAGES ≠ 0
  lt : s.MAX_PAGES < 2 ^ 64

/-- From an exact state, `p` fails the `assert` of `kalloc`, or does what `q`
does, with no `kalloc` on an empty list, and ends in an exact state. -/
def Agree {α : Type} (p q : Prog Kernel α) : Prop :=
  ∀ s, Exact s → p.run s = .panic "assert failed" ∨
    q.run s = p.run s ∧ ∀ a s', p.run s = .ok a s' → Exact s' ∧ s'.nulls = s.nulls

namespace Agree

variable {α β : Type}

theorem ret (a : α) : Agree (.ret a) (.ret a) := fun s hs => .inr ⟨rfl, fun b s' h => by
  obtain ⟨-, rfl⟩ := Outcome.ok.inj h
  exact ⟨hs, rfl⟩⟩

theorem bind {p q : Prog Kernel α} {k j : α → Prog Kernel β} (h : Agree p q)
    (hk : ∀ a, Agree (k a) (j a)) : Agree (p >>= k) (q >>= j) := by
  intro s hs
  rw [run_bind, run_bind]
  rcases h s hs with he | ⟨he, hpost⟩
  · exact .inl (by rw [he])
  rw [he]
  cases hp : p.run s with
  | wait => exact .inr ⟨rfl, fun _ _ h => by cases h⟩
  | panic m => exact .inr ⟨rfl, fun _ _ h => by cases h⟩
  | ok a s₁ =>
    obtain ⟨hs₁, hn⟩ := hpost a s₁ hp
    rcases hk a s₁ hs₁ with he₁ | ⟨he₁, hpost₁⟩
    · exact .inl he₁
    · exact .inr ⟨he₁, fun b s' h => ⟨(hpost₁ b s' h).1, (hpost₁ b s' h).2.trans hn⟩⟩

/-- An action that keeps states exact. -/
theorem atom {f : Kernel → Outcome Kernel α} (h : ∀ s, Exact s → ∀ a s', f s = .ok a s' →
    Exact s' ∧ s'.nulls = s.nulls) : Agree (Prog.atom f) (Prog.atom f) :=
  fun s hs => .inr ⟨rfl, fun a s' hf => h s hs a s' (by simpa using hf)⟩

theorem read (f : Kernel → α) : Agree (Prog.read f) (Prog.read f) :=
  atom fun s hs a s' h => by
    obtain ⟨-, rfl⟩ := Outcome.ok.inj h
    exact ⟨hs, rfl⟩

/-- A change that leaves the allocator's variables alone. -/
theorem modify {f : Kernel → Kernel} (h : ∀ s, (f s).freelist = s.freelist ∧
    (f s).FREE_PAGES = s.FREE_PAGES ∧ (f s).MAX_PAGES = s.MAX_PAGES ∧ (f s).nulls = s.nulls) :
    Agree (Prog.modify f) (Prog.modify f) :=
  atom fun s hs a s' hf => by
    obtain ⟨-, rfl⟩ := Outcome.ok.inj hf
    obtain ⟨h₁, h₂, h₃, h₄⟩ := h s
    exact ⟨⟨by rw [h₁, h₂, hs.free], by rw [h₂, h₃]; exact hs.le, by rw [h₃]; exact hs.pos,
      by rw [h₃]; exact hs.lt⟩, h₄⟩

theorem fail (msg : String) : Agree (Prog.fail msg : Prog Kernel α) (Prog.fail msg) :=
  atom fun _ _ _ _ h => by cases h

theorem setProc (q : Slot) (f : Proc → Proc) :
    Agree (Prog.modify fun s => s.updProc q f) (Prog.modify fun s => s.updProc q f) :=
  modify fun _ => ⟨rfl, rfl, rfl, rfl⟩

theorem ite {c : Prop} [Decidable c] {p q p' q' : Prog Kernel α} (h : Agree p q)
    (h' : Agree p' q') : Agree (if c then p else p') (if c then q else q') := by
  split <;> assumption

end Agree

/-! ## The allocator -/

theorem Exact.pop {s : Kernel} {r : Frame} {rest : List Frame} (h : Exact s)
    (hl : s.freelist = r :: rest) : Exact { s with freelist := rest }.decFree := by
  have hd := decr_cases UINT64_MAX s.FREE_PAGES
  obtain ⟨hfree, hle, hpos, hlt⟩ := h
  simp only [hl, List.length_cons] at hfree
  refine ⟨?_, ?_, hpos, hlt⟩
  · simp only [Kernel.decFree]
    omega
  · simp only [Kernel.decFree]
    omega

theorem Exact.push {s : Kernel} (h : Exact s) (hlt : s.FREE_PAGES < s.MAX_PAGES) (r : Frame) :
    Exact (s.push r) := by
  have hc := incr_cases UINT64_MAX s.FREE_PAGES
  obtain ⟨hfree, hle, hpos, hmax⟩ := h
  simp only [UINT64_MAX] at hc
  refine ⟨?_, ?_, hpos, hmax⟩
  · simp only [Kernel.push, List.length_cons, UINT64_MAX]
    omega
  · simp only [Kernel.push, UINT64_MAX]
    omega

theorem Exact.congr {s s' : Kernel} (h : Exact s) (hl : s'.freelist = s.freelist)
    (hf : s'.FREE_PAGES = s.FREE_PAGES) (hm : s'.MAX_PAGES = s.MAX_PAGES) : Exact s' :=
  ⟨by rw [hl, hf, h.free], by rw [hf, hm]; exact h.le, by rw [hm]; exact h.pos,
    by rw [hm]; exact h.lt⟩

theorem kalloc_agree : Agree kalloc kallocDoc := by
  intro s hs
  cases hl : s.freelist with
  | nil =>
    left
    have h0 : s.FREE_PAGES = 0 := by rw [hs.free, hl]; rfl
    simp [kalloc, kassert, run_bind, h0]
  | cons r rest =>
    right
    have hpos : 0 < s.FREE_PAGES := by rw [hs.free, hl]; simp
    have hp : s.pop = (some r, { s with freelist := rest }) := by simp [Kernel.pop, hl]
    simp only [kalloc, kallocDoc, kassert, run_bind, run_atom, hpos, decide_true, if_true, hp,
      initPage, memset, run_modify, pure_eq, run_ret, true_and]
    intro a s' he
    obtain ⟨-, rfl⟩ := Outcome.ok.inj he
    exact ⟨(hs.pop hl).congr rfl rfl rfl, rfl⟩

theorem memset_agree (f : Frame) (c : UInt8) : Agree (memset f c) (memset f c) :=
  Agree.modify fun _ => ⟨rfl, rfl, rfl, rfl⟩

theorem kref_inc_agree (pa : Frame) : Agree (kref_inc pa) (kref_inc pa) :=
  Agree.modify fun _ => ⟨rfl, rfl, rfl, rfl⟩

section

variable [KernelImage]

theorem kfree_agree (pa : Frame) : Agree (kfree pa) (kfree pa) := by
  intro s hs
  by_cases hlt : s.FREE_PAGES < s.MAX_PAGES
  · right
    refine ⟨rfl, fun a s' he => ?_⟩
    by_cases hm : managed pa
    · simp only [kfree, kassert, run_bind, run_atom, hlt, decide_true, Bool.or_true, if_true, hm,
        not_true_eq_false, if_false, memset, run_modify] at he
      obtain ⟨-, rfl⟩ := Outcome.ok.inj he
      have hfill : Exact (s.fill pa 1) := hs.congr rfl rfl rfl
      exact ⟨hfill.push hlt pa, rfl⟩
    · simp [kfree, kassert, run_bind, hlt, hm] at he
  · left
    simp [kfree, kassert, run_bind, hlt, hs.pos]

theorem kref_dec_agree (pa : Frame) : Agree (kref_dec pa) (kref_dec pa) := by
  refine Agree.bind (Agree.atom fun s hs a s' he => ?_) fun ref => ?_
  · obtain ⟨-, rfl⟩ := Outcome.ok.inj he
    exact ⟨hs.congr rfl rfl rfl, rfl⟩
  · exact Agree.ite (kfree_agree pa) (Agree.ret ())

/-! ## Page tables -/

section Vm

omit [KernelImage]

theorem readPte_agree (ptr : PtePtr) : Agree (readPte ptr) (readPte ptr) := Agree.read _

theorem writePte_agree (ptr : PtePtr) (pte : Pte) : Agree (writePte ptr pte) (writePte ptr pte) :=
  Agree.modify fun _ => ⟨rfl, rfl, rfl, rfl⟩

theorem mark_agree (t : Slot) (e : Option (Frame × Nat)) : Agree (mark t e) (mark t e) :=
  Agree.modify fun _ => ⟨rfl, rfl, rfl, rfl⟩

theorem writeBytes_agree (f : Frame) (off : Nat) (bytes : List UInt8) :
    Agree (Prog.modify fun s => s.writeBytes f off bytes)
      (Prog.modify fun s => s.writeBytes f off bytes) :=
  Agree.modify fun _ => ⟨rfl, rfl, rfl, rfl⟩

theorem walkLevel_agree (va : Nat) (alloc : Bool) (level : Nat) (pagetable : Frame) :
    Agree (walkLevel kalloc va alloc level pagetable)
      (walkLevel kallocDoc va alloc level pagetable) := by
  induction level generalizing pagetable with
  | zero => exact Agree.ret _
  | succ level ih =>
    refine Agree.bind (readPte_agree _) fun pte => Agree.ite (ih _) (Agree.ite (Agree.ret _) ?_)
    refine Agree.bind kalloc_agree fun page => ?_
    rcases page with _ | page
    · exact Agree.ret _
    · exact Agree.bind (memset_agree _ _) fun _ =>
        Agree.bind (writePte_agree _ _) fun _ => ih _

theorem walk_agree (pagetable : Frame) (va : Nat) (alloc : Bool) :
    Agree (walk kalloc pagetable va alloc) (walk kallocDoc pagetable va alloc) :=
  Agree.ite (Agree.fail _) (walkLevel_agree _ _ _ _)

theorem walkaddr_agree (pagetable : Frame) (va : Nat) :
    Agree (walkaddr kalloc pagetable va) (walkaddr kallocDoc pagetable va) := by
  refine Agree.ite (Agree.ret _) (Agree.bind (walk_agree _ _ _) fun ptr => ?_)
  rcases ptr with _ | ptr
  · exact Agree.ret _
  · exact Agree.bind (readPte_agree _) fun pte =>
      Agree.ite (Agree.ret _) (Agree.ite (Agree.ret _) (Agree.ret _))

theorem mappagesLoop_agree (pagetable : Frame) (perm : Flags) (n a : Nat) (pa : Frame) :
    Agree (mappagesLoop kalloc pagetable perm n a pa)
      (mappagesLoop kallocDoc pagetable perm n a pa) := by
  induction n generalizing a pa with
  | zero =>
    rw [mappagesLoop, mappagesLoop]
    refine Agree.bind (walk_agree _ _ _) fun ptr => ?_
    rcases ptr with _ | ptr
    · exact Agree.ret _
    · exact Agree.bind (readPte_agree _) fun pte => Agree.ite (Agree.fail _)
        (Agree.bind (writePte_agree _ _) fun _ => Agree.ret _)
  | succ n ih =>
    rw [mappagesLoop, mappagesLoop]
    refine Agree.bind (walk_agree _ _ _) fun ptr => ?_
    rcases ptr with _ | ptr
    · exact Agree.ret _
    · exact Agree.bind (readPte_agree _) fun pte => Agree.ite (Agree.fail _)
        (Agree.bind (writePte_agree _ _) fun _ => ih _ _)

theorem mappages_agree (pagetable : Frame) (va size : Nat) (pa : Frame) (perm : Flags) :
    Agree (mappages kalloc pagetable va size pa perm)
      (mappages kallocDoc pagetable va size pa perm) :=
  Agree.ite (Agree.fail _) (mappagesLoop_agree _ _ _ _ _)

theorem uvmcreate_agree : Agree (uvmcreate kalloc) (uvmcreate kallocDoc) := by
  refine Agree.bind kalloc_agree fun pagetable => ?_
  rcases pagetable with _ | pagetable
  · exact Agree.ret _
  · exact Agree.bind (memset_agree _ _) fun _ =>
      Agree.bind (Agree.modify fun _ => ⟨rfl, rfl, rfl, rfl⟩) fun _ => Agree.ret _

theorem uvmclear_agree (pagetable : Frame) (va : Nat) :
    Agree (uvmclear kalloc pagetable va) (uvmclear kallocDoc pagetable va) := by
  refine Agree.bind (walk_agree _ _ _) fun ptr => ?_
  rcases ptr with _ | ptr
  · exact Agree.fail _
  · exact Agree.bind (readPte_agree _) fun pte => writePte_agree _ _

theorem copyout_agree (pagetable : Frame) (dstva : Nat) (src : List UInt8) :
    Agree (copyout kalloc pagetable dstva src) (copyout kallocDoc pagetable dstva src) := by
  suffices h : ∀ fuel dstva src, Agree (copyoutLoop kalloc pagetable fuel dstva src)
      (copyoutLoop kallocDoc pagetable fuel dstva src) from h _ _ _
  intro fuel
  induction fuel with
  | zero => exact fun _ _ => Agree.ret _
  | succ fuel ih =>
    intro dstva src
    refine Agree.ite (Agree.ret _) (Agree.bind (walkaddr_agree _ _) fun pa0 => ?_)
    rcases pa0 with _ | pa0
    · exact Agree.ret _
    · exact Agree.bind (writeBytes_agree _ _ _) fun _ => ih _ _

end Vm

theorem uvmunmap_agree (t : Slot) (pagetable : Frame) (va npages : Nat) (do_free : Bool) :
    Agree (uvmunmap kalloc t pagetable va npages do_free)
      (uvmunmap kallocDoc t pagetable va npages do_free) := by
  refine Agree.ite (Agree.fail _) ?_
  induction npages generalizing va with
  | zero => exact Agree.ret _
  | succ n ih =>
    refine Agree.bind (mark_agree _ _) fun _ => Agree.bind (walk_agree _ _ _) fun ptr => ?_
    rcases ptr with _ | ptr
    · exact Agree.fail _
    · exact Agree.bind (readPte_agree _) fun pte =>
        Agree.ite (Agree.fail _) (Agree.ite (Agree.fail _)
          (Agree.bind (Agree.ite (kref_dec_agree _) (Agree.ret _)) fun _ =>
            Agree.bind (writePte_agree _ _) fun _ =>
              Agree.bind (mark_agree _ _) fun _ => ih _))

theorem uvmdealloc_agree (t : Slot) (pagetable : Frame) (oldsz newsz : Nat) :
    Agree (uvmdealloc kalloc t pagetable oldsz newsz)
      (uvmdealloc kallocDoc t pagetable oldsz newsz) :=
  Agree.ite (Agree.ret _) (Agree.ite
    (Agree.bind (uvmunmap_agree _ _ _ _ _) fun _ => Agree.ret _) (Agree.ret _))

theorem uvmallocLoop_agree (t : Slot) (pagetable : Frame) (oldsz : Nat) (xperm : Flags)
    (n a : Nat) : Agree (uvmallocLoop kalloc t pagetable oldsz xperm n a)
      (uvmallocLoop kallocDoc t pagetable oldsz xperm n a) := by
  induction n generalizing a with
  | zero => exact Agree.ret _
  | succ n ih =>
    refine Agree.bind (mark_agree _ _) fun _ => Agree.bind kalloc_agree fun mem => ?_
    have hfail : ∀ a, Agree (α := Option Unit)
        (do mark t none; let _ ← uvmdealloc kalloc t pagetable a oldsz; return none)
        (do mark t none; let _ ← uvmdealloc kallocDoc t pagetable a oldsz; return none) :=
      fun a => Agree.bind (mark_agree _ _) fun _ =>
        Agree.bind (uvmdealloc_agree _ _ _ _) fun _ => Agree.ret _
    rcases mem with _ | mem
    · exact hfail _
    · refine Agree.bind (memset_agree _ _) fun _ => Agree.bind (mappages_agree _ _ _ _ _) fun r =>
        Agree.ite (Agree.bind (kfree_agree _) fun _ => hfail _)
          (Agree.bind (mark_agree _ _) fun _ => ih _)

theorem uvmalloc_agree (t : Slot) (pagetable : Frame) (oldsz newsz : Nat) (xperm : Flags) :
    Agree (uvmalloc kalloc t pagetable oldsz newsz xperm)
      (uvmalloc kallocDoc t pagetable oldsz newsz xperm) := by
  refine Agree.ite (Agree.ret _) (Agree.bind (uvmallocLoop_agree _ _ _ _ _ _) fun r => ?_)
  rcases r with _ | r <;> exact Agree.ret _

theorem freewalk_agree (depth : Nat) (pagetable : Frame) :
    Agree (freewalk depth pagetable) (freewalk depth pagetable) := by
  induction depth generalizing pagetable with
  | zero => exact Agree.fail _
  | succ depth ih =>
    refine Agree.bind ?_ fun _ => kfree_agree _
    generalize 512 = n
    induction n with
    | zero => exact Agree.ret _
    | succ n ihn =>
      exact Agree.bind (readPte_agree _) fun pte => Agree.ite
        (Agree.bind (ih _) fun _ => Agree.bind (writePte_agree _ _) fun _ => ihn)
        (Agree.ite (Agree.fail _) ihn)

theorem uvmfree_agree (t : Slot) (pagetable : Frame) (sz : Nat) :
    Agree (uvmfree kalloc t pagetable sz) (uvmfree kallocDoc t pagetable sz) :=
  Agree.bind (Agree.ite (uvmunmap_agree _ _ _ _ _) (Agree.ret _)) fun _ =>
    Agree.bind (Agree.modify fun _ => ⟨rfl, rfl, rfl, rfl⟩) fun _ => freewalk_agree _ _

theorem uvmcopy_agree (t : Slot) (old new : Frame) (sz : Nat) :
    Agree (uvmcopy kalloc t old new sz) (uvmcopy kallocDoc t old new sz) := by
  refine Agree.bind ?_ fun r => ?_
  · generalize (sz + PGSIZE - 1) / PGSIZE = n
    generalize 0 = i
    induction n generalizing i with
    | zero => exact Agree.ret _
    | succ n ih =>
      refine Agree.bind (mark_agree _ _) fun _ => Agree.bind (walk_agree _ _ _) fun ptr => ?_
      rcases ptr with _ | ptr
      · exact Agree.fail _
      · exact Agree.bind (readPte_agree _) fun pte => Agree.ite (Agree.fail _)
          (Agree.bind (writePte_agree _ _) fun _ => Agree.bind (mappages_agree _ _ _ _ _) fun r =>
            Agree.ite (Agree.bind (mark_agree _ _) fun _ => Agree.ret _)
              (Agree.bind (kref_inc_agree _) fun _ => Agree.bind (mark_agree _ _) fun _ => ih _))
  · rcases r with _ | i
    · exact Agree.ret _
    · exact Agree.bind (uvmunmap_agree _ _ _ _ _) fun _ => Agree.ret _

/-! ## Files and pipes -/

omit [KernelImage] in
theorem filealloc_agree : Agree filealloc filealloc := by
  refine Agree.atom fun s hs a s' he => ?_
  split at he
  · obtain ⟨-, rfl⟩ := Outcome.ok.inj he
    exact ⟨hs.congr rfl rfl rfl, rfl⟩
  · obtain ⟨-, rfl⟩ := Outcome.ok.inj he
    exact ⟨hs, rfl⟩

omit [KernelImage] in
theorem filedup_agree (i : Nat) : Agree (filedup i) (filedup i) := by
  refine Agree.atom fun s hs a s' he => ?_
  split at he
  · cases he
  · obtain ⟨-, rfl⟩ := Outcome.ok.inj he
    exact ⟨hs.congr rfl rfl rfl, rfl⟩

theorem pipeclose_agree (pi : Frame) (writable : Bool) :
    Agree (pipeclose pi writable) (pipeclose pi writable) := by
  refine Agree.bind (Agree.atom fun s hs a s' he => ?_) fun last => ?_
  · obtain ⟨-, rfl⟩ := Outcome.ok.inj he
    exact ⟨hs.congr rfl rfl rfl, rfl⟩
  · exact Agree.ite (kfree_agree _) (Agree.ret _)

theorem fileclose_agree (i : Nat) : Agree (fileclose i) (fileclose i) := by
  refine Agree.bind (Agree.atom fun s hs a s' he => ?_) fun ff => ?_
  · simp only [Kernel.closeFile] at he
    split at he
    · cases he
    · split at he <;>
      · obtain ⟨-, rfl⟩ := Outcome.ok.inj he
        exact ⟨hs.congr rfl rfl rfl, rfl⟩
  · rcases ff with _ | ff
    · exact Agree.ret _
    · exact Agree.ite (pipeclose_agree _ _) (Agree.ret _)

theorem pipealloc_agree : Agree (pipealloc kalloc) (pipealloc kallocDoc) := by
  refine Agree.bind filealloc_agree fun f0 => ?_
  rcases f0 with _ | f0
  · exact Agree.ret _
  refine Agree.bind filealloc_agree fun f1 => ?_
  rcases f1 with _ | f1
  · exact Agree.bind (fileclose_agree _) fun _ => Agree.ret _
  refine Agree.bind kalloc_agree fun pi => ?_
  rcases pi with _ | pi
  · exact Agree.bind (fileclose_agree _) fun _ => Agree.bind (fileclose_agree _) fun _ =>
      Agree.ret _
  · exact Agree.bind (Agree.modify fun _ => ⟨rfl, rfl, rfl, rfl⟩) fun _ => Agree.ret _

/-! ## Processes -/

theorem proc_freepagetable_agree (t : Slot) (pagetable : Frame) (sz : Nat) :
    Agree (proc_freepagetable kalloc t pagetable sz)
      (proc_freepagetable kallocDoc t pagetable sz) :=
  Agree.bind (uvmunmap_agree _ _ _ _ _) fun _ =>
    Agree.bind (uvmunmap_agree _ _ _ _ _) fun _ => uvmfree_agree _ _ _

theorem proc_pagetable_agree (t : Slot) (trapframe : Frame) :
    Agree (proc_pagetable kalloc t trapframe) (proc_pagetable kallocDoc t trapframe) := by
  refine Agree.bind uvmcreate_agree fun pagetable => ?_
  rcases pagetable with _ | pagetable
  · exact Agree.ret _
  refine Agree.bind (mappages_agree _ _ _ _ _) fun r => Agree.ite ?_ ?_
  · exact Agree.bind (uvmfree_agree _ _ _) fun _ => Agree.ret _
  refine Agree.bind (mappages_agree _ _ _ _ _) fun r => Agree.ite ?_ (Agree.ret _)
  exact Agree.bind (uvmunmap_agree _ _ _ _ _) fun _ =>
    Agree.bind (uvmfree_agree _ _ _) fun _ => Agree.ret _

theorem freeproc_agree (t p : Slot) : Agree (freeproc kalloc t p) (freeproc kallocDoc t p) := by
  refine Agree.bind (Agree.read _) fun trapframe => Agree.bind ?_ fun _ =>
    Agree.bind (Agree.setProc _ _) fun _ => Agree.bind (Agree.read _) fun pagetable =>
      Agree.bind (Agree.read _) fun sz => Agree.bind ?_ fun _ => Agree.setProc _ _
  · rcases trapframe with _ | trapframe
    · exact Agree.ret _
    · exact kfree_agree _
  · rcases pagetable with _ | pagetable
    · exact Agree.ret _
    · exact proc_freepagetable_agree _ _ _

omit [KernelImage] in
theorem findUnused_agree (ps : List Slot) : Agree (findUnused ps) (findUnused ps) := by
  induction ps with
  | nil => exact Agree.ret _
  | cons p ps ih =>
    refine Agree.bind (Agree.atom fun s hs a s' he => ?_) fun found => ?_
    · obtain ⟨-, rfl⟩ := Outcome.ok.inj he
      simp only [Kernel.claim]
      split
      · exact ⟨hs.congr rfl rfl rfl, rfl⟩
      · exact ⟨hs, rfl⟩
    · exact Agree.ite (Agree.ret _) ih

theorem allocproc_agree (t : Slot) : Agree (allocproc kalloc t) (allocproc kallocDoc t) := by
  refine Agree.bind (findUnused_agree _) fun p => ?_
  rcases p with _ | p
  · exact Agree.ret _
  refine Agree.bind kalloc_agree fun trapframe => ?_
  rcases trapframe with _ | trapframe
  · exact Agree.bind (freeproc_agree _ _) fun _ => Agree.ret _
  refine Agree.bind (Agree.setProc _ _) fun _ =>
    Agree.bind (proc_pagetable_agree _ _) fun pagetable => ?_
  rcases pagetable with _ | pagetable
  · exact Agree.bind (freeproc_agree _ _) fun _ => Agree.ret _
  · exact Agree.bind (Agree.setProc _ _) fun _ => Agree.ret _

theorem userinit_agree (initcode : List UInt8) :
    Agree (userinit kalloc initcode) (userinit kallocDoc initcode) := by
  refine Agree.bind (allocproc_agree _) fun p => ?_
  rcases p with _ | p
  · exact Agree.fail _
  refine Agree.bind (Agree.read _) fun pagetable => ?_
  rcases pagetable with _ | pagetable
  · exact Agree.fail _
  refine Agree.bind (Agree.ite (Agree.fail _) ?_) fun _ =>
    Agree.bind (Agree.setProc _ _) fun _ => Agree.setProc _ _
  refine Agree.bind kalloc_agree fun mem => ?_
  rcases mem with _ | mem
  · exact Agree.fail _
  · exact Agree.bind (memset_agree _ _) fun _ =>
      Agree.bind (mappages_agree _ _ _ _ _) fun _ => writeBytes_agree _ _ _

theorem sys_sbrk_agree (t : Slot) (n : Int) :
    Agree (sys_sbrk kalloc t n) (sys_sbrk kallocDoc t n) := by
  refine Agree.bind (Agree.read _) fun addr => Agree.bind ?_ fun r =>
    Agree.ite (Agree.ret _) (Agree.ret _)
  refine Agree.bind (Agree.read _) fun sz => Agree.bind (Agree.read _) fun pagetable => ?_
  rcases pagetable with _ | pagetable
  · exact Agree.fail _
  refine Agree.ite ?_ (Agree.ite ?_ ?_)
  · exact Agree.bind (uvmalloc_agree _ _ _ _ _) fun sz' =>
      Agree.ite (Agree.ret _) (Agree.bind (Agree.setProc _ _) fun _ => Agree.ret _)
  · exact Agree.bind (uvmdealloc_agree _ _ _ _) fun sz' =>
      Agree.bind (Agree.setProc _ _) fun _ => Agree.ret _
  · exact Agree.bind (Agree.setProc _ _) fun _ => Agree.ret _

omit [KernelImage] in
theorem dupFiles_agree (t np : Slot) (fds : List (Fin NOFILE)) :
    Agree (dupFiles t np fds) (dupFiles t np fds) := by
  induction fds with
  | nil => exact Agree.ret _
  | cons fd fds ih =>
    refine Agree.bind (Agree.read _) fun f => ?_
    rcases f with _ | f
    · exact ih
    · exact Agree.bind (filedup_agree _) fun _ => Agree.bind (Agree.setProc _ _) fun _ => ih

theorem fork_agree (t : Slot) : Agree (fork kalloc t) (fork kallocDoc t) := by
  refine Agree.bind (allocproc_agree _) fun np => ?_
  rcases np with _ | np
  · exact Agree.ret _
  refine Agree.bind (Agree.read _) fun old => Agree.bind (Agree.read _) fun sz =>
    Agree.bind (Agree.read _) fun new => ?_
  rcases old with _ | old
  · exact Agree.fail _
  rcases new with _ | new
  · exact Agree.fail _
  refine Agree.bind (uvmcopy_agree _ _ _ _) fun r => Agree.ite ?_ ?_
  · exact Agree.bind (freeproc_agree _ _) fun _ => Agree.ret _
  · exact Agree.bind (Agree.setProc _ _) fun _ => Agree.bind (dupFiles_agree _ _ _) fun _ =>
      Agree.bind (Agree.read _) fun pid => Agree.bind (Agree.setProc _ _) fun _ =>
        Agree.bind (Agree.setProc _ _) fun _ => Agree.ret _

theorem exit_agree (t : Slot) (status : Int) : Agree (exit t status) (exit t status) := by
  refine Agree.ite (Agree.fail _) (Agree.bind ?_ fun _ => Agree.modify fun _ => ⟨rfl, rfl, rfl, rfl⟩)
  generalize List.finRange NOFILE = fds
  induction fds with
  | nil => exact Agree.ret _
  | cons fd fds ih =>
    refine Agree.bind (Agree.read _) fun f => ?_
    rcases f with _ | f
    · exact ih
    · exact Agree.bind (fileclose_agree _) fun _ => Agree.bind (Agree.setProc _ _) fun _ => ih

theorem wait_agree (t : Slot) (addr : Nat) : Agree (wait kalloc t addr) (wait kallocDoc t addr) := by
  refine Agree.bind (Agree.atom fun s hs a s' he => ?_) fun kid => ?_
  · simp only [Kernel.scan] at he
    split at he
    · obtain ⟨-, rfl⟩ := Outcome.ok.inj he
      exact ⟨hs, rfl⟩
    · split at he
      · obtain ⟨-, rfl⟩ := Outcome.ok.inj he
        exact ⟨hs, rfl⟩
      · cases he
  rcases kid with pp | _
  · refine Agree.bind (Agree.read _) fun pid => Agree.bind (Agree.read _) fun xstate =>
      Agree.bind (Agree.read _) fun pagetable => ?_
    rcases pagetable with _ | pagetable
    · exact Agree.fail _
    · exact Agree.bind (Agree.ite (copyout_agree _ _ _) (Agree.ret _)) fun r =>
        Agree.ite (Agree.ret _) (Agree.bind (freeproc_agree _ _) fun _ => Agree.ret _)
  · exact Agree.ret _

/-! ## exec -/

omit [KernelImage] in
theorem loadseg_agree (pagetable : Frame) (va : Nat) (content : List UInt8) (offset sz : Nat) :
    Agree (loadseg kalloc pagetable va content offset sz)
      (loadseg kallocDoc pagetable va content offset sz) := by
  unfold loadseg
  generalize (sz + PGSIZE - 1) / PGSIZE = n
  generalize 0 = i
  induction n generalizing i with
  | zero => exact Agree.ret _
  | succ n ih =>
    refine Agree.bind (walkaddr_agree _ _) fun pa => ?_
    rcases pa with _ | pa
    · exact Agree.fail _
    · exact Agree.bind (writeBytes_agree _ _ _) fun _ => Agree.ite (Agree.ret _) (ih _)

theorem loadPhdrs_agree (t : Slot) (pagetable : Frame) (content : List UInt8) (n off sz : Nat) :
    Agree (loadPhdrs kalloc t pagetable content n off sz)
      (loadPhdrs kallocDoc t pagetable content n off sz) := by
  induction n generalizing off sz with
  | zero => exact Agree.ret _
  | succ n ih =>
    rw [loadPhdrs, loadPhdrs]
    split
    · exact Agree.ret _
    · exact Agree.ite (ih _ _) (Agree.ite (Agree.ret _) (Agree.ite (Agree.ret _)
        (Agree.ite (Agree.ret _) (Agree.bind (uvmalloc_agree _ _ _ _ _) fun sz1 =>
          Agree.ite (Agree.ret _) (Agree.bind (loadseg_agree _ _ _ _ _) fun r =>
            Agree.ite (Agree.ret _) (ih _ _))))))

omit [KernelImage] in
theorem pushArgs_agree (pagetable : Frame) (stackbase : Nat) (args : List (List UInt8)) (sp : Nat)
    (ustack : List Nat) : Agree (pushArgs kalloc pagetable stackbase args sp ustack)
      (pushArgs kallocDoc pagetable stackbase args sp ustack) := by
  induction args generalizing sp ustack with
  | nil => exact Agree.ret _
  | cons arg args ih =>
    exact Agree.ite (Agree.ret _) (Agree.ite (Agree.ret _)
      (Agree.bind (copyout_agree _ _ _) fun r => Agree.ite (Agree.ret _) (ih _ _)))

theorem buildStack_agree (t : Slot) (pagetable : Frame) (sz : Nat) (argv : List (List UInt8)) :
    Agree (buildStack kalloc t pagetable sz argv) (buildStack kallocDoc t pagetable sz argv) := by
  refine Agree.bind (uvmalloc_agree _ _ _ _ _) fun sz1 => Agree.ite (Agree.ret _)
    (Agree.bind (uvmclear_agree _ _) fun _ => Agree.bind (pushArgs_agree _ _ _ _ _) fun r => ?_)
  rcases r with _ | ⟨sp, ustack⟩
  · exact Agree.ret _
  · exact Agree.ite (Agree.ret _) (Agree.bind (copyout_agree _ _ _) fun r =>
      Agree.ite (Agree.ret _) (Agree.ret _))

theorem exec_agree (t : Slot) (file : Option (List UInt8)) (argv : List (List UInt8)) :
    Agree (exec kalloc t file argv) (exec kallocDoc t file argv) := by
  rcases file with _ | content
  · exact Agree.ret _
  unfold exec
  simp only
  split
  · exact Agree.ret _
  refine Agree.ite (Agree.ret _) (Agree.bind (Agree.read _) fun trapframe => ?_)
  rcases trapframe with _ | trapframe
  · exact Agree.fail _
  refine Agree.bind (proc_pagetable_agree _ _) fun pagetable => ?_
  rcases pagetable with _ | pagetable
  · exact Agree.ret _
  have hbad : ∀ sz, Agree (α := Int) (do proc_freepagetable kalloc t pagetable sz; return -1)
      (do proc_freepagetable kallocDoc t pagetable sz; return -1) := fun sz =>
    Agree.bind (proc_freepagetable_agree _ _ _) fun _ => Agree.ret _
  refine Agree.bind (loadPhdrs_agree _ _ _ _ _ _) fun ⟨sz, ok⟩ => Agree.ite (hbad _) ?_
  refine Agree.bind (buildStack_agree _ _ _ _) fun ⟨sz, sp⟩ => ?_
  rcases sp with _ | sp
  · exact hbad _
  refine Agree.bind (writeBytes_agree _ _ _) fun _ => Agree.bind (Agree.read _) fun oldsz =>
    Agree.bind (Agree.read _) fun old => ?_
  rcases old with _ | old
  · exact Agree.fail _
  · exact Agree.bind (Agree.setProc _ _) fun _ => Agree.bind (writeBytes_agree _ _ _) fun _ =>
      Agree.bind (writeBytes_agree _ _ _) fun _ =>
        Agree.bind (proc_freepagetable_agree _ _ _) fun _ => Agree.ret _

omit [KernelImage] in
theorem fetchArgs_agree (fetch : List ArgFetch) (i : Nat) :
    Agree (fetchArgs kalloc fetch i) (fetchArgs kallocDoc fetch i) := by
  induction fetch generalizing i with
  | nil =>
    rw [fetchArgs, fetchArgs]
    exact Agree.ite (Agree.ret _) (Agree.ret _)
  | cons arg fetch ih =>
    unfold fetchArgs
    refine Agree.ite (Agree.ret _) ?_
    rcases arg with _ | _ | arg
    · exact Agree.ret _
    all_goals
      refine Agree.bind kalloc_agree fun page => ?_
      rcases page with _ | page
    · exact Agree.ret _
    · exact Agree.ret _
    · exact Agree.ret _
    · exact Agree.bind (writeBytes_agree _ _ _) fun _ =>
        Agree.bind (ih _) fun ⟨pages, rest⟩ => Agree.ret _

theorem freeArgs_agree (pages : List Frame) : Agree (freeArgs pages) (freeArgs pages) := by
  induction pages with
  | nil => exact Agree.ret _
  | cons page pages ih => exact Agree.bind (kfree_agree _) fun _ => ih

theorem sys_exec_agree (t : Slot) (file : Option (List UInt8)) (fetch : List ArgFetch) :
    Agree (sys_exec kalloc t file fetch) (sys_exec kallocDoc t file fetch) := by
  refine Agree.bind (fetchArgs_agree _ _) fun ⟨pages, argv⟩ => ?_
  rcases argv with _ | argv
  · exact Agree.bind (freeArgs_agree _) fun _ => Agree.ret _
  · exact Agree.bind (exec_agree _ _ _) fun ret =>
      Agree.bind (freeArgs_agree _) fun _ => Agree.ret _

/-! ## Faults and the other system calls -/

section Files

omit [KernelImage]

theorem fdalloc_agree (t : Slot) (f : Nat) : Agree (fdalloc t f) (fdalloc t f) := by
  refine Agree.atom fun s hs a s' he => ?_
  split at he
  · obtain ⟨-, rfl⟩ := Outcome.ok.inj he
    exact ⟨hs.congr rfl rfl rfl, rfl⟩
  · obtain ⟨-, rfl⟩ := Outcome.ok.inj he
    exact ⟨hs, rfl⟩

theorem copyoutSelf_agree (t : Slot) (dst : Nat) (src : List UInt8) :
    Agree (copyoutSelf kalloc t dst src) (copyoutSelf kallocDoc t dst src) := by
  refine Agree.bind (Agree.read _) fun pagetable => ?_
  rcases pagetable with _ | pagetable
  · exact Agree.fail _
  · exact copyout_agree _ _ _

theorem userStore_agree (t : Slot) (va : Nat) (b : UInt8) :
    Agree (userStore t va b) (userStore t va b) := by
  refine Agree.atom fun s hs a s' he => ?_
  obtain ⟨-, rfl⟩ := Outcome.ok.inj he
  simp only [Kernel.hwStore]
  split
  · split
    · exact ⟨hs.congr rfl rfl rfl, rfl⟩
    · exact ⟨hs, rfl⟩
  · exact ⟨hs, rfl⟩

end Files

theorem storeFault_agree (t : Slot) (va : Nat) :
    Agree (storeFault kalloc t va) (storeFault kallocDoc t va) := by
  have hkill : Agree (setkilled t) (setkilled t) := Agree.setProc _ _
  refine Agree.ite hkill (Agree.bind (Agree.read _) fun pagetable => ?_)
  rcases pagetable with _ | pagetable
  · exact Agree.fail _
  refine Agree.bind (walk_agree _ _ _) fun ptr => ?_
  rcases ptr with _ | ptr
  · exact hkill
  refine Agree.bind (readPte_agree _) fun pte => Agree.ite hkill (Agree.ite ?_ hkill)
  refine Agree.bind kalloc_agree fun mem => ?_
  rcases mem with _ | mem
  · exact hkill
  · exact Agree.bind (mark_agree _ _) fun _ =>
      Agree.bind (Agree.modify fun _ => ⟨rfl, rfl, rfl, rfl⟩) fun _ =>
        Agree.bind (writePte_agree _ _) fun _ => Agree.bind (kref_dec_agree _) fun _ =>
          mark_agree _ _

theorem usertrap_agree (t : Slot) (va : Nat) :
    Agree (usertrap kalloc t va) (usertrap kallocDoc t va) :=
  Agree.bind (storeFault_agree _ _) fun _ => Agree.bind (Agree.read _) fun _ =>
    Agree.ite (Agree.bind (exit_agree _ _) fun _ => Agree.ret _) (Agree.ret _)

omit [KernelImage] in
theorem sys_dup_agree (t : Slot) (fd : Fin NOFILE) : Agree (sys_dup t fd) (sys_dup t fd) := by
  refine Agree.bind (Agree.read _) fun f => ?_
  rcases f with _ | f
  · exact Agree.ret _
  refine Agree.bind (fdalloc_agree _ _) fun fd => ?_
  rcases fd with _ | fd
  · exact Agree.ret _
  · exact Agree.bind (filedup_agree _) fun _ => Agree.ret _

theorem sys_close_agree (t : Slot) (fd : Fin NOFILE) : Agree (sys_close t fd) (sys_close t fd) := by
  refine Agree.bind (Agree.read _) fun f => ?_
  rcases f with _ | f
  · exact Agree.ret _
  · exact Agree.bind (Agree.setProc _ _) fun _ => Agree.bind (fileclose_agree _) fun _ =>
      Agree.ret _

theorem sys_pipe_agree (t : Slot) (fdarray : Nat) :
    Agree (sys_pipe kalloc t fdarray) (sys_pipe kallocDoc t fdarray) := by
  refine Agree.bind pipealloc_agree fun r => ?_
  rcases r with _ | ⟨rf, wf⟩
  · exact Agree.ret _
  have hclose : Agree (α := Int) (do fileclose rf; fileclose wf; return -1)
      (do fileclose rf; fileclose wf; return -1) :=
    Agree.bind (fileclose_agree _) fun _ => Agree.bind (fileclose_agree _) fun _ => Agree.ret _
  refine Agree.bind (fdalloc_agree _ _) fun fd0 => ?_
  rcases fd0 with _ | fd0
  · exact hclose
  refine Agree.bind (fdalloc_agree _ _) fun fd1 => ?_
  rcases fd1 with _ | fd1
  · exact Agree.bind (Agree.setProc _ _) fun _ => hclose
  refine Agree.bind (copyoutSelf_agree _ _ _) fun r =>
    Agree.bind (Agree.ite (Agree.ret _) (copyoutSelf_agree _ _ _)) fun r => Agree.ite ?_ (Agree.ret _)
  exact Agree.bind (Agree.setProc _ _) fun _ => Agree.bind (Agree.setProc _ _) fun _ => hclose

theorem op_agree (t : Slot) (op : Op) : Agree (op.prog kalloc t) (op.prog kallocDoc t) := by
  cases op with
  | store va b => exact Agree.bind (userStore_agree _ _ _) fun _ => Agree.ite (Agree.ret _) (Agree.ret _)
  | fault va => exact Agree.bind (usertrap_agree _ _) fun _ => Agree.ite (Agree.ret _) (Agree.ret _)
  | fork => exact Agree.bind (fork_agree _) fun _ => Agree.ret _
  | sbrk n => exact Agree.bind (sys_sbrk_agree _ _) fun _ => Agree.ret _
  | exec file fetch => exact Agree.bind (sys_exec_agree _ _ _) fun _ => Agree.ret _
  | exit status => exact Agree.bind (exit_agree _ _) fun _ => Agree.ret _
  | wait addr => exact Agree.bind (wait_agree _ _) fun _ => Agree.ret _
  | pipe fdarray => exact Agree.bind (sys_pipe_agree _ _) fun _ => Agree.ret _
  | dup fd => exact Agree.bind (sys_dup_agree _ _) fun _ => Agree.ret _
  | close fd => exact Agree.bind (sys_close_agree _ _) fun _ => Agree.ret _
  | copyout dst src => exact Agree.bind (copyoutSelf_agree _ _ _) fun _ => Agree.ret _

/-! ## Every run -/

theorem AtBoot.exact {s : Kernel} (h : AtBoot s) : Exact s := by
  have hle : s.freelist.length ≤ PHYSTOP / PGSIZE - KernelImage.endPage := by
    have hsub : s.freelist.toFinset ⊆ Finset.Ico KernelImage.endPage (PHYSTOP / PGSIZE) :=
      fun f hf => Finset.mem_Ico.2 (h.managed f (by simpa using hf))
    simpa [List.toFinset_card_of_nodup h.nodup] using Finset.card_le_card hsub
  have hpos : 0 < PHYSTOP / PGSIZE - KernelImage.endPage := Nat.sub_pos_of_lt KernelImage.end_lt
  have hlt : PHYSTOP / PGSIZE < 2 ^ 64 := by decide
  refine ⟨h.free, by rw [h.free, h.max]; exact hle, by rw [h.max]; exact hpos.ne', ?_⟩
  rw [h.max]
  exact lt_of_le_of_lt (Nat.sub_le _ _) hlt

omit [KernelImage] in
/-- On an empty list `kalloc` panics, or counts a page that it did not take. -/
theorem kalloc_empty {s : Kernel} (hl : s.freelist = []) :
    kalloc.run s = .panic "assert failed" ∨
      ∃ s', kalloc.run s = .ok none s' ∧ s'.FREE_PAGES ≠ s.FREE_PAGES := by
  by_cases hf : 0 < s.FREE_PAGES
  · right
    refine ⟨_, by
      simp only [kalloc, kassert, run_bind, run_atom, hf, decide_true, if_true, Kernel.pop, hl,
        initPage, pure_eq, run_ret, run_modify]
      rfl, ?_⟩
    have hd := decr_cases UINT64_MAX s.FREE_PAGES
    simp only [Kernel.decFree]
    omega
  · left
    simp [kalloc, kassert, run_bind, hf]

theorem Booted.exact {initcode : List UInt8} {s : Kernel} (h : Booted initcode s) :
    Exact s ∧ s.nulls = 0 := by
  obtain ⟨s₀, h₀, hr⟩ := h
  rcases userinit_agree initcode s₀ h₀.exact with he | ⟨-, hpost⟩
  · exact absurd (hr.symm.trans he) (by simp)
  · exact ⟨(hpost () s hr).1, (hpost () s hr).2.trans h₀.nulls⟩

/-- As long as operations run one at a time the counter is exact, and no
call of `kalloc` has found the list empty. -/
theorem SeqReachable.exact {s : Kernel} (h : SeqReachable s) : Exact s ∧ s.nulls = 0 := by
  obtain ⟨initcode, s₀, m, hb, hr⟩ := h
  induction hr with
  | init => exact hb.exact
  | @op s l l' t op a s' _ _ hrun ih =>
    obtain ⟨hx, hn⟩ := ih
    rcases op_agree t op s hx with he | ⟨-, hpost⟩
    · exact absurd (hrun.symm.trans he) (by simp)
    · exact ⟨(hpost a s' hrun).1, (hpost a s' hrun).2.trans hn⟩

/-- **Out of memory.** `kalloc` on an empty list never returns 0 with the
allocator's state unchanged. And in a run of one system call or fault at a
time no call of `kalloc` has ever returned 0, so no caller's branch for it
was ever taken: an operation that would come upon the empty list, did
`kalloc` what its comment says, panics. -/
theorem outOfMemory_panics (s : Kernel) :
    (s.freelist = [] → ¬ ∃ s', kalloc.run s = .ok none s' ∧ s'.freelist = s.freelist ∧
      s'.refcounts = s.refcounts ∧ s'.FREE_PAGES = s.FREE_PAGES) ∧
    (SeqReachable s → s.nulls = 0 ∧
      ∀ t op r s', (Op.prog kallocDoc t op).run s = .ok r s' → s'.nulls ≠ s.nulls →
        (Op.prog kalloc t op).run s = .panic "assert failed") := by
  refine ⟨fun hl => ?_, fun h => ⟨h.exact.2, fun t op r s' hr hn => ?_⟩⟩
  · rintro ⟨s', hr, -, -, hf⟩
    rcases kalloc_empty hl with he | ⟨s₁, he, hf'⟩
    · exact absurd (hr.symm.trans he) (by simp)
    · obtain ⟨-, rfl⟩ := Outcome.ok.inj (hr.symm.trans he)
      exact hf' hf
  · rcases op_agree t op s h.exact.1 with he | ⟨he, hpost⟩
    · exact he
    · exact absurd (hpost r s' (he.symm.trans hr)).2 hn

end

/-! ## Boot with seven pages -/

attribute [local instance] image

theorem sevenPages_reachable : SeqReachable (Kernel.booted 7) :=
  ⟨_, _, _, Kernel.booted_booted (n := 7) (by decide) (by decide +kernel), .init⟩

/-- The first process takes the last page, and its first `fork` panics. -/
theorem fork_panics_sevenPages : ∃ s, SeqReachable s ∧ (s.proc initproc).state.live ∧
    s.freelist = [] ∧ kalloc.run s = .panic "assert failed" ∧
    (Op.prog kalloc initproc .fork).run s = .panic "assert failed" :=
  ⟨Kernel.booted 7, sevenPages_reachable, by decide +kernel, by decide +kernel,
    Outcome.eq_panic (by decide +kernel), Outcome.eq_panic (by decide +kernel)⟩

theorem outOfMemory_panics_sevenPages :
    (Op.prog kalloc initproc .fork).run (Kernel.booted 7) = .panic "assert failed" := by
  obtain ⟨r, hr⟩ := Outcome.eq_ok (o := (Op.prog kallocDoc initproc .fork).run (Kernel.booted 7))
    (by decide +kernel) (Kernel.booted 7)
  exact ((outOfMemory_panics (Kernel.booted 7)).2 sevenPages_reachable).2 initproc .fork r _ hr
    (by decide +kernel)

end Xv6
