/-
kalloc.c: `kinit` and `freerange`, and what main.c does with memory: from the
variables that the linker has put in `.bss` to the first process.
-/
import Xv6.KernelMap

namespace Xv6

open Conc Prog

section

variable [KernelImage]

/-- The loop of `freerange`: `n` pages from `p` on. -/
def freerangeLoop : (n : Nat) → (p : Frame) → Prog Kernel Unit
  | 0, _ => return
  | n + 1, p => do
    kfree p
    freerangeLoop n (p + 1)

def freerange (pa_start pa_end : Frame) : Prog Kernel Unit :=
  freerangeLoop (pa_end - pa_start) pa_start

def kinit : Prog Kernel Unit := do
  freerange KernelImage.endPage (PHYSTOP / PGSIZE)
  modify fun s => { s with MAX_PAGES := s.FREE_PAGES }

/-- `main`, up to `kvminit`. -/
def boot : Prog Kernel Frame := do
  kinit
  kvmmake

/-- The pages of the disk's queues. -/
def virtio_disk_init : Prog Kernel Unit := do
  let desc ← kalloc
  let avail ← kalloc
  let used ← kalloc
  match desc, avail, used with
  | some desc, some avail, some used =>
    memset desc 0
    memset avail 0
    memset used 0
  | _, _, _ => fail "virtio disk kalloc"

/-- `main`, up to `userinit`. -/
def main (initcode : List UInt8) : Prog Kernel Unit := do
  let _ ← boot
  virtio_disk_init
  userinit kalloc initcode

variable {s s' : Kernel} {p : Nat}

/-- What is in `.bss` is zero. -/
structure Kernel.Bss (s : Kernel) : Prop where
  blank : s.Blank
  freelist : s.freelist = []
  free : s.FREE_PAGES = 0
  max : s.MAX_PAGES = 0

/-- `freerange` has come to page `p`. -/
structure Kernel.FreedTo (s : Kernel) (p : Nat) : Prop where
  blank : s.Blank
  nodup : s.freelist.Nodup
  range : ∀ f ∈ s.freelist, KernelImage.endPage ≤ f ∧ f < p
  length : s.freelist.length = p - KernelImage.endPage
  free : s.FREE_PAGES = s.freelist.length
  max : s.MAX_PAGES = 0

omit [KernelImage] in
theorem stop_lt : PHYSTOP / PGSIZE < UINT64_MAX := by decide

/-- One page more. -/
theorem Kernel.FreedTo.kfree (h : s.FreedTo p) (hle : KernelImage.endPage ≤ p)
    (hlt : p < PHYSTOP / PGSIZE) :
    ∃ s', (Xv6.kfree p).run s = .ok () s' ∧ s'.FreedTo (p + 1) := by
  have hstop := stop_lt
  have hlen := h.length
  have hnew : p ∉ s.freelist := fun hmem => Nat.lt_irrefl p (h.range p hmem).2
  refine ⟨_, kfree_run (.inl h.max) ⟨hle, hlt⟩, ?_⟩
  refine ⟨h.blank.congr rfl rfl rfl rfl rfl rfl, List.nodup_cons.2 ⟨hnew, h.nodup⟩, ?_, ?_, ?_,
    h.max⟩
  · intro f hf
    rcases List.mem_cons.1 hf with rfl | hf
    · exact ⟨hle, Nat.lt_succ_self f⟩
    · exact ⟨(h.range f hf).1, Nat.lt_succ_of_lt (h.range f hf).2⟩
  · have hcons : ((s.fill p 1).push p).freelist.length = s.freelist.length + 1 := rfl
    rw [hcons, hlen, ← Nat.sub_add_comm hle]
  · have hcount : incr UINT64_MAX s.FREE_PAGES = s.freelist.length + 1 := by
      rcases incr_cases UINT64_MAX s.FREE_PAGES with ⟨hmax, -⟩ | ⟨-, hi⟩
      · have hfree := h.free
        omega
      · rw [hi, h.free]
    exact hcount

/-- The whole range. -/
theorem Kernel.FreedTo.freerangeLoop {n : Nat} (h : s.FreedTo p) (hle : KernelImage.endPage ≤ p)
    (hn : p + n ≤ PHYSTOP / PGSIZE) :
    ∃ s', (Xv6.freerangeLoop n p).run s = .ok () s' ∧ s'.FreedTo (p + n) := by
  induction n generalizing s p with
  | zero => exact ⟨s, rfl, h⟩
  | succ n ih =>
    obtain ⟨s₁, hrun, h₁⟩ := h.kfree hle (by omega)
    obtain ⟨s', hrun', h'⟩ := ih h₁ (Nat.le_succ_of_le hle) (by omega)
    refine ⟨s', ?_, ?_⟩
    · rw [Xv6.freerangeLoop, run_bind, hrun]
      exact hrun'
    · rw [show p + (n + 1) = p + 1 + n by omega]
      exact h'

/-- `kinit` puts every page on the free list. -/
theorem kinit_run (h : s.Bss) :
    ∃ s', kinit.run s = .ok () s' ∧ s'.Allocator ∧ s'.Blank ∧ s'.freelist.length = totalPages := by
  have hend := KernelImage.end_lt
  have h₀ : s.FreedTo KernelImage.endPage := by
    refine ⟨h.blank, ?_, ?_, ?_, ?_, h.max⟩
    · rw [h.freelist]
      exact List.nodup_nil
    · rw [h.freelist]
      intro f hf
      exact absurd hf List.not_mem_nil
    · rw [h.freelist, Nat.sub_self]
      rfl
    · rw [h.free, h.freelist]
      rfl
  have htop : KernelImage.endPage + (PHYSTOP / PGSIZE - KernelImage.endPage) = PHYSTOP / PGSIZE :=
    Nat.add_sub_cancel' (Nat.le_of_lt hend)
  obtain ⟨s₁, hrun, h₁⟩ := h₀.freerangeLoop (n := PHYSTOP / PGSIZE - KernelImage.endPage)
    (Nat.le_refl _) (Nat.le_of_eq htop)
  rw [htop] at h₁
  refine ⟨{ s₁ with MAX_PAGES := s₁.FREE_PAGES }, ?_, ⟨h₁.nodup, h₁.range, h₁.free, ?_⟩,
    h₁.blank.congr rfl rfl rfl rfl rfl rfl, h₁.length⟩
  · rw [kinit, run_bind, freerange, hrun]
    rfl
  · exact h₁.free.trans h₁.length

/-- The state that `boot` leaves, with `k` pages to spare. -/
theorem boot_laying {k : Nat} (hbase : KERNBASE / PGSIZE ≤ KernelImage.trampoline)
    (hpages : 136 + k ≤ totalPages) (h : s.Bss) :
    ∃ r s' st, boot.run s = .ok r s' ∧ st.length = NPROC ∧
      Laying True kernelNodes k (kernelMap st) st s' r := by
  obtain ⟨s₁, hrun₁, halloc, hblank, hlen⟩ := kinit_run h
  have hfree : 136 + k ≤ s₁.freelist.length := by rwa [hlen]
  obtain ⟨r, s', st, hrun, hstacks, lbl, hT, hF, hmap, hst, hnodup, hblank'⟩ :=
    kvmmake_laying hbase halloc hfree
  refine ⟨r, s', st, ?_, hstacks, lbl, hT, hF, hmap, hst, hnodup, fun _ => hblank' hblank⟩
  rw [boot, run_bind, hrun₁]
  exact hrun

theorem Kernel.Allocator.atBoot (ha : s.Allocator) (hb : s.Blank) : AtBoot s :=
  ⟨ha.nodup, ha.managed, ha.count, ha.max, hb.refcounts, hb.proc, hb.file, hb.upts, hb.busy,
    hb.nulls⟩

/-- From zeroed variables the kernel comes to `userinit` with its page table
made, and with an allocator that has neither a page of that table nor a
stack. -/
theorem boot_reaches_userinit (hbase : KERNBASE / PGSIZE ≤ KernelImage.trampoline)
    (hpages : 136 ≤ totalPages) (h : s.Bss) :
    ∃ r s' st, boot.run s = .ok r s' ∧ AtBoot s' ∧
      (∀ v < 2 ^ 27, mapping s'.pte r v = kernelMap st v) ∧
      (∀ v l f, nodeAt s'.pte r v l = some f → f ∉ s'.freelist) ∧
      st.length = NPROC ∧ st.Nodup ∧ ∀ f ∈ st, f ∉ s'.freelist := by
  obtain ⟨r, s', st, hrun, hstacks, lbl, hT, -, hmap, hst, hnodup, hblank⟩ :=
    boot_laying (k := 0) hbase hpages h
  refine ⟨r, s', st, hrun, hT.alloc.atBoot (hblank trivial), hmap, fun v l f hf hmem => ?_,
    hstacks, hnodup, fun f hf => (hst f hf).2.1⟩
  exact hT.not_reached.1 (hT.free f hmem) v l hf

/-! ## The first process -/

/-- What the first process has mapped. -/
def firstMap (trapframe mem : Frame) : PageMap := fun v =>
  if v = 0 then some { R := true, W := true, X := true, U := true, V := true, pa := mem }
  else if v = TRAPFRAME / PGSIZE then some { readWrite with V := true, pa := trapframe }
  else if v = TRAMPOLINE / PGSIZE then
    some { readExec with V := true, pa := KernelImage.trampoline }
  else none

/-- The page-table pages that takes, below the root. -/
def firstNodes : Finset Node := {.mid 0, .mid 255, .leaf 0 0, .leaf 255 511}

omit [KernelImage] in
theorem mem_firstNodes {u : Nat}
    (hu : (index u 2 = 0 ∧ index u 1 = 0) ∨ index u 2 = 255 ∧ index u 1 = 511) :
    ∀ l < 2, Node.at u l ∈ firstNodes := by
  intro l hl
  obtain rfl | rfl : l = 0 ∨ l = 1 := by omega
  · rcases hu with ⟨h2, h1⟩ | ⟨h2, h1⟩
    · rw [Node.at, h2, h1]
      decide
    · rw [Node.at, h2, h1]
      decide
  · rcases hu with ⟨h2, -⟩ | ⟨h2, -⟩
    · rw [Node.at, h2]
      decide
    · rw [Node.at, h2]
      decide

theorem firstMap_eq (trapframe mem : Frame) :
    (((PageMap.set (fun _ => none) (2 ^ 26 - 1) 1
      (pagesFrom KernelImage.trampoline readExec)).set
      (2 ^ 26 - 2) 1 (pagesFrom trapframe readWrite)).set 0 1
      (pagesFrom mem { W := true, R := true, X := true, U := true })) =
    firstMap trapframe mem := by
  funext v
  have htramp : TRAMPOLINE / PGSIZE = 2 ^ 26 - 1 := rfl
  have htrap : TRAPFRAME / PGSIZE = 2 ^ 26 - 2 := rfl
  simp only [PageMap.set, firstMap, htramp, htrap]
  split_ifs <;> first
    | (exfalso; omega)
    | (rw [show v - 0 = 0 by omega]; rfl)
    | (rw [show v - (2 ^ 26 - 2) = 0 by omega]; rfl)
    | (rw [show v - (2 ^ 26 - 1) = 0 by omega]; rfl)
    | rfl

omit [KernelImage] in
/-- `allocproc` takes the first slot. -/
theorem findUnused_first (h : ∀ q, s.proc q = {}) :
    ∃ s', (findUnused (List.finRange NPROC)).run s = .ok (some initproc) s' ∧
      s'.proc = Function.update s.proc initproc { pid := s.nextpid, state := .USED } ∧
      s'.freelist = s.freelist ∧ s'.FREE_PAGES = s.FREE_PAGES ∧ s'.MAX_PAGES = s.MAX_PAGES := by
  have hslots : List.finRange NPROC = initproc :: (List.finRange NPROC).tail := rfl
  have hunused : (s.proc initproc).state = .UNUSED := by rw [h]
  refine ⟨{ s.updProc initproc fun q => { q with pid := s.nextpid, state := .USED } with
    nextpid := i32 (s.nextpid + 1) }, ?_, ?_, rfl, rfl, rfl⟩
  · rw [hslots, findUnused, run_bind, run_atom, Kernel.claim, if_pos hunused]
    rfl
  · show Function.update s.proc initproc
      { s.proc initproc with pid := s.nextpid, state := .USED } = _
    rw [h initproc]

/-- `proc_pagetable` of a process whose trapframe page is taken. -/
theorem proc_pagetable_first (trapframe : Frame) (ha : s.Allocator)
    (hfree : 6 ≤ s.freelist.length) (t : Slot) :
    ∃ r s', (proc_pagetable kalloc t trapframe).run s = .ok (some r) s' ∧ s'.proc = s.proc ∧
      Laying False firstNodes 1
        ((PageMap.set (fun _ => none) (2 ^ 26 - 1) 1
          (pagesFrom KernelImage.trampoline readExec)).set
          (2 ^ 26 - 2) 1 (pagesFrom trapframe readWrite)) [] s' r := by
  obtain ⟨f, rest, hf⟩ := List.exists_cons_of_length_pos (by omega : 0 < s.freelist.length)
  have hcard : firstNodes.card = 4 := by decide
  have h₀ : Laying s.Blank firstNodes 1 (fun _ => none) [] ((s.alloc f rest).fill f 0) f :=
    Laying.create ha hf (by omega)
  have h₁ : Laying False firstNodes 1 (fun _ => none) []
      { (s.alloc f rest).fill f 0 with upts := insert f (s.alloc f rest).upts } f :=
    h₀.congr rfl rfl rfl rfl
  have hcreate : (uvmcreate kalloc).run s =
      .ok (some f) { (s.alloc f rest).fill f 0 with upts := insert f (s.alloc f rest).upts } := by
    rw [uvmcreate, run_bind, (ha.kalloc hf).1]
    rfl
  obtain ⟨s₂, hrun₂, hproc₂, h₂⟩ := h₁.mappages TRAMPOLINE PGSIZE (2 ^ 26 - 1) 0
    KernelImage.trampoline readExec rfl rfl (by decide) rfl
    (fun u hu hu' => mem_firstNodes (.inr (by unfold index; omega))) fun u hu hu' => rfl
  obtain ⟨s₃, hrun₃, hproc₃, h₃⟩ := h₂.mappages TRAPFRAME PGSIZE (2 ^ 26 - 2) 0
    trapframe readWrite rfl rfl (by decide) rfl
    (fun u hu hu' => mem_firstNodes (.inr (by unfold index; omega)))
    fun u hu hu' => PageMap.set_none (by omega) rfl
  refine ⟨f, s₃, ?_, hproc₃.trans hproc₂, h₃⟩
  rw [proc_pagetable, run_bind, hcreate]
  dsimp only
  rw [run_bind, show ({ R := true, X := true } : Flags) = readExec by rfl, hrun₂]
  dsimp only
  rw [if_neg (by decide), run_bind, show ({ R := true, W := true } : Flags) = readWrite by rfl,
    hrun₃]
  rfl

theorem allocproc_first (h : ∀ q, s.proc q = {}) (ha : s.Allocator)
    (hfree : 7 ≤ s.freelist.length) :
    ∃ r trapframe s', (allocproc kalloc initproc).run s = .ok (some initproc) s' ∧
      s'.proc = Function.update s.proc initproc {
        pid := s.nextpid
        state := .USED
        pagetable := some r
        trapframe := some trapframe } ∧
      Laying False firstNodes 1
        ((PageMap.set (fun _ => none) (2 ^ 26 - 1) 1
          (pagesFrom KernelImage.trampoline readExec)).set
          (2 ^ 26 - 2) 1 (pagesFrom trapframe readWrite)) [] s' r := by
  obtain ⟨s₁, hfound, hproc₁, hlist₁, hcount₁, hmax₁⟩ := findUnused_first h
  obtain ⟨f, rest, hf⟩ := List.exists_cons_of_length_pos (by omega : 0 < s.freelist.length)
  obtain ⟨hk₁, ha₂⟩ := (ha.congr hlist₁ hcount₁ hmax₁).kalloc (hlist₁.trans hf)
  have hrest : 6 ≤ rest.length := by
    rw [hf, List.length_cons] at hfree
    omega
  obtain ⟨r, s₃, hrun₃, hproc₃, h₃⟩ := proc_pagetable_first f
    (s := (s₁.alloc f rest).updProc initproc fun q => { q with trapframe := some f })
    (ha₂.congr rfl rfl rfl) hrest initproc
  refine ⟨r, f, s₃.updProc initproc fun q => { q with pagetable := some r }, ?_, ?_,
    h₃.congr rfl rfl rfl rfl⟩
  · rw [allocproc, run_bind, hfound]
    dsimp only
    rw [run_bind, hk₁]
    dsimp only
    rw [run_bind, run_modify]
    dsimp only
    rw [run_bind, hrun₃]
    rfl
  · show Function.update s₃.proc initproc { s₃.proc initproc with pagetable := some r } = _
    have hproc : s₃.proc = Function.update s₁.proc initproc
        { s₁.proc initproc with trapframe := some f } := hproc₃
    rw [hproc, Function.update_self, Function.update_idem, hproc₁, Function.update_self,
      Function.update_idem]

/-- `userinit` makes the first process, with seven pages. -/
theorem userinit_first {initcode : List UInt8} (h : AtBoot s) (hcode : initcode.length < PGSIZE)
    (hfree : 7 ≤ s.freelist.length) :
    ∃ r trapframe mem s', (userinit kalloc initcode).run s = .ok () s' ∧
      s'.proc = Function.update s.proc initproc {
        pid := s.nextpid
        state := .RUNNABLE
        sz := PGSIZE
        pagetable := some r
        trapframe := some trapframe } ∧
      (∀ v < 2 ^ 27, mapping s'.pte r v = firstMap trapframe mem v) ∧
      ∀ i (hi : i < initcode.length), s'.mem mem i = initcode[i] := by
  obtain ⟨r, f, s₁, hrun₁, hproc₁, h₁⟩ :=
    allocproc_first h.proc ⟨h.nodup, h.managed, h.free, h.max⟩ hfree
  have htable : (s₁.proc initproc).pagetable = some r := by
    rw [hproc₁, Function.update_self]
  obtain ⟨g, s₂, hk₂, hproc₂, h₂⟩ := Laying.kalloc (k := 0) h₁
  have h₃ : Laying False firstNodes 0 _ [g] (s₂.fill g 0) r := h₂.fill List.mem_cons_self 0
  obtain ⟨s₄, hrun₄, hproc₄, h₄⟩ := h₃.mappages 0 PGSIZE 0 0 g
    { W := true, R := true, X := true, U := true } rfl rfl (by decide) rfl
    (fun u hu hu' => mem_firstNodes (.inl (by unfold index; omega)))
    fun u hu hu' => PageMap.set_none (by omega) (PageMap.set_none (by omega) rfl)
  rw [firstMap_eq] at h₄
  obtain ⟨lbl, hT, -, hmap, -, -, -⟩ := h₄
  refine ⟨r, f, g, ((s₄.writeBytes g 0 initcode).updProc initproc fun q =>
    { q with sz := PGSIZE }).updProc initproc fun q => { q with state := .RUNNABLE },
    ?_, ?_, hmap, ?_⟩
  · rw [userinit, run_bind, hrun₁]
    dsimp only
    rw [run_bind, run_read, htable]
    dsimp only
    rw [run_bind, uvmfirst, if_neg (Nat.not_le_of_lt hcode), run_bind, hk₂]
    dsimp only
    rw [run_bind, memset, run_modify]
    dsimp only
    rw [run_bind, hrun₄]
    rfl
  · show Function.update (Function.update s₄.proc initproc
      { s₄.proc initproc with sz := PGSIZE }) initproc
        { Function.update s₄.proc initproc { s₄.proc initproc with sz := PGSIZE } initproc with
          state := .RUNNABLE } = _
    have hproc : s₄.proc = s₁.proc := hproc₄.trans hproc₂
    rw [Function.update_self, Function.update_idem, hproc, hproc₁, Function.update_self,
      Function.update_idem]
  · intro i hi
    show Function.update s₄.mem g _ g i = _
    rw [Function.update_self, if_pos ⟨Nat.zero_le i, by omega⟩, Nat.sub_zero,
      List.getD_eq_getElem?_getD, List.getElem?_eq_getElem hi]
    rfl

omit [KernelImage] in
theorem Kernel.Blank.fill (h : s.Blank) (f : Frame) (c : UInt8) : (s.fill f c).Blank :=
  h.congr rfl rfl rfl rfl rfl rfl

theorem virtio_disk_init_run {N : Finset Node} {k : Nat} {m : PageMap} {st : List Frame}
    {r : Frame} (h : Laying True N (k + 3) m st s r) :
    ∃ s' st', virtio_disk_init.run s = .ok () s' ∧ s'.Blank ∧ Laying False N k m st' s' r := by
  obtain ⟨d, s₁, hrun₁, -, h₁⟩ := Laying.kalloc (k := k + 2) h
  obtain ⟨a, s₂, hrun₂, -, h₂⟩ := Laying.kalloc (k := k + 1) h₁
  obtain ⟨u, s₃, hrun₃, -, h₃⟩ := h₂.kalloc
  have hblank : s₃.Blank := by
    obtain ⟨-, -, -, -, -, -, hblank⟩ := h₃
    exact hblank trivial
  refine ⟨((s₃.fill d 0).fill a 0).fill u 0, st ++ [d] ++ [a] ++ [u], ?_,
    ((hblank.fill d 0).fill a 0).fill u 0,
    ((h₃.fill (by simp) 0).fill (by simp) 0).fill (by simp) 0⟩
  rw [virtio_disk_init, run_bind, hrun₁]
  dsimp only
  rw [run_bind, hrun₂]
  dsimp only
  rw [run_bind, hrun₃]
  rfl

/-- From zeroed variables `main` makes the first process: it alone is there,
it can run, and it has its code at address 0, its trapframe and the
trampoline in its page table and nothing else. -/
theorem main_makes_first_process {initcode : List UInt8}
    (hbase : KERNBASE / PGSIZE ≤ KernelImage.trampoline) (hpages : 146 ≤ totalPages)
    (hcode : initcode.length < PGSIZE) (h : s.Bss) :
    ∃ r trapframe mem s', (main initcode).run s = .ok () s' ∧ Booted initcode s' ∧
      (∃ pid, s'.proc = Function.update (fun _ => {}) initproc {
        pid := pid
        state := .RUNNABLE
        sz := PGSIZE
        pagetable := some r
        trapframe := some trapframe }) ∧
      (∀ v < 2 ^ 27, mapping s'.pte r v = firstMap trapframe mem v) ∧
      ∀ i (hi : i < initcode.length), s'.mem mem i = initcode[i] := by
  obtain ⟨_, s₁, st, hrun₁, -, h₁⟩ := boot_laying (k := 7 + 3) hbase hpages h
  obtain ⟨s₂, st', hrun₂, hblank, lbl, hT, hF, -⟩ := virtio_disk_init_run h₁
  have hboot : AtBoot s₂ := hT.alloc.atBoot hblank
  have hfree : 7 ≤ s₂.freelist.length := by
    unfold Funded at hF
    omega
  obtain ⟨r, f, g, s₃, hrun₃, hproc, hmap, hmem⟩ := userinit_first hboot hcode hfree
  refine ⟨r, f, g, s₃, ?_, ⟨s₂, hboot, hrun₃⟩, ⟨s₂.nextpid, ?_⟩, hmap, hmem⟩
  · rw [main, run_bind, hrun₁]
    dsimp only
    rw [run_bind, hrun₂]
    exact hrun₃
  · rw [hproc]
    congr 1
    exact funext hboot.proc

end

attribute [local instance] image

theorem bss_fresh : (Kernel.fresh []).Bss :=
  ⟨⟨fun _ => Nat.zero_lt_succ _, fun _ => rfl, fun _ => rfl, rfl, fun _ => rfl, rfl⟩, rfl, rfl, rfl⟩

theorem boot_reaches_userinit_image :
    ∃ r s' st, boot.run (Kernel.fresh []) = .ok r s' ∧ AtBoot s' ∧
      (∀ v < 2 ^ 27, mapping s'.pte r v = kernelMap st v) ∧
      (∀ v l f, nodeAt s'.pte r v l = some f → f ∉ s'.freelist) ∧
      st.length = NPROC ∧ st.Nodup ∧ ∀ f ∈ st, f ∉ s'.freelist :=
  boot_reaches_userinit (by decide) (by decide) bss_fresh

theorem main_makes_first_process_image :
    ∃ r trapframe mem s', (main [0x17, 0x05]).run (Kernel.fresh []) = .ok () s' ∧
      Booted [0x17, 0x05] s' ∧
      (∃ pid, s'.proc = Function.update (fun _ => {}) initproc {
        pid := pid
        state := .RUNNABLE
        sz := PGSIZE
        pagetable := some r
        trapframe := some trapframe }) ∧
      (∀ v < 2 ^ 27, mapping s'.pte r v = firstMap trapframe mem v) ∧
      ∀ i (hi : i < [(0x17 : UInt8), 0x05].length),
        s'.mem mem i = [(0x17 : UInt8), 0x05][i] :=
  main_makes_first_process (by decide) (by decide) (by decide) bss_fresh

end Xv6
