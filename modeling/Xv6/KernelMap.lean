/-
vm.c: `kvmmake` makes the page table that the kernel runs on, with `kvmmap`
and `proc_mapstacks` of proc.c.

`kernel.ld` puts the trampoline page last in the kernel's text, so `etext` is
the page after it.
-/
import Mathlib.Data.Finset.Card
import Xv6.FreeWalk

namespace Xv6

open Conc Prog

/-! ## memlayout.h -/

def UART0 : Nat := 0x10000000
def VIRTIO0 : Nat := 0x10001000
def PLIC : Nat := 0x0c000000
def KSTACK (p : Nat) : Nat := TRAMPOLINE - (p + 1) * (2 * PGSIZE)

/-- `PTE_R | PTE_W` -/
def readWrite : Flags := { R := true, W := true }

/-- `PTE_R | PTE_X` -/
def readExec : Flags := { R := true, X := true }

/-! ## kvmmake -/

/-- Add a mapping to the kernel page table; only used when booting. -/
def kvmmap (kpgtbl : Frame) (va : Nat) (pa : Frame) (sz : Nat) (perm : Flags) :
    Prog Kernel Unit := do
  if (← mappages kalloc kpgtbl va sz pa perm) ≠ 0 then fail "kvmmap" else return

/-- The loop of `proc_mapstacks`: `n` processes from number `p` on. -/
def mapstacksLoop (kpgtbl : Frame) : (n p : Nat) → Prog Kernel Unit
  | 0, _ => return
  | n + 1, p => do
    match ← kalloc with
    | none => fail "kalloc"
    | some pa =>
      kvmmap kpgtbl (KSTACK p) pa PGSIZE readWrite
      mapstacksLoop kpgtbl n (p + 1)

/-- Allocate a page for each process's kernel stack, and map it high in
memory, followed by an invalid guard page. -/
def proc_mapstacks (kpgtbl : Frame) : Prog Kernel Unit := mapstacksLoop kpgtbl NPROC 0

section

variable [KernelImage]

/-- The page where the kernel's text ends. -/
def etext : Nat := KernelImage.trampoline + 1

/-- Make a direct-map page table for the kernel. -/
def kvmmake : Prog Kernel Frame := do
  match ← kalloc with
  | none => fail "store page fault" -- `memset` of the null pointer
  | some kpgtbl =>
    memset kpgtbl 0
    kvmmap kpgtbl UART0 (UART0 / PGSIZE) PGSIZE readWrite
    kvmmap kpgtbl VIRTIO0 (VIRTIO0 / PGSIZE) PGSIZE readWrite
    kvmmap kpgtbl PLIC (PLIC / PGSIZE) 0x400000 readWrite
    kvmmap kpgtbl KERNBASE (KERNBASE / PGSIZE) (etext * PGSIZE - KERNBASE) readExec
    kvmmap kpgtbl (etext * PGSIZE) etext (PHYSTOP - etext * PGSIZE) readWrite
    kvmmap kpgtbl TRAMPOLINE KernelImage.trampoline PGSIZE readExec
    proc_mapstacks kpgtbl
    return kpgtbl

/-! ## Enough pages for a table -/

open Classical in
/-- The nodes of `N` that the table does not have yet. -/
noncomputable def lacking (N : Finset Node) (r : Frame) (lbl : Frame → Option (Frame × Node)) :
    Finset Node :=
  N.filter fun n => ∀ f, lbl f ≠ some (r, n)

omit [KernelImage] in
open Classical in
theorem mem_lacking {N : Finset Node} {r : Frame} {lbl : Frame → Option (Frame × Node)} {n : Node} :
    n ∈ lacking N r lbl ↔ n ∈ N ∧ ∀ f, lbl f ≠ some (r, n) := Finset.mem_filter

/-- There is a free page for each of them, and for `k` others. -/
def Funded (N : Finset Node) (k : Nat) (s : Kernel) (r : Frame)
    (lbl : Frame → Option (Frame × Node)) : Prop :=
  (lacking N r lbl).card + k ≤ s.freelist.length

/-- There is no process, no open file and no system call yet. -/
structure Kernel.Blank (s : Kernel) : Prop where
  refcounts : ∀ f, s.refcounts f < 256
  proc : ∀ q, s.proc q = {}
  file : ∀ i, s.file i = {}
  upts : s.upts = ∅
  busy : ∀ t, s.busy t = none
  nulls : s.nulls = 0

/-- From `s` to `s'` the table has only taken pages that were free. -/
structure Taken (s s' : Kernel) (lbl lbl' : Frame → Option (Frame × Node)) : Prop where
  freelist : s'.freelist <:+ s.freelist
  label : ∀ f, f ∉ s.freelist → lbl' f = lbl f
  blank : s.Blank → s'.Blank
  proc : s'.proc = s.proc

variable {s s' s'' : Kernel} {r f g : Frame} {lbl lbl' lbl'' : Frame → Option (Frame × Node)}
  {N : Finset Node} {k : Nat}

omit [KernelImage] in
theorem Kernel.Blank.alloc (h : s.Blank) (f : Frame) (rest : List Frame) :
    (s.alloc f rest).Blank := by
  refine ⟨fun g => ?_, h.proc, h.file, h.upts, h.busy, h.nulls⟩
  show Function.update s.refcounts f 1 g < 256
  by_cases hg : g = f
  · rw [hg, Function.update_self]
    decide
  · rw [Function.update_of_ne hg]
    exact h.refcounts g

omit [KernelImage] in
/-- Writes to pages do not matter. -/
theorem Kernel.Blank.congr (h : s.Blank) (hr : s'.refcounts = s.refcounts)
    (hp : s'.proc = s.proc) (hf : s'.file = s.file) (hu : s'.upts = s.upts)
    (hb : s'.busy = s.busy) (hn : s'.nulls = s.nulls) : s'.Blank :=
  ⟨hr ▸ h.refcounts, hp ▸ h.proc, hf ▸ h.file, hu.trans h.upts, hb ▸ h.busy, hn.trans h.nulls⟩

omit [KernelImage] in
theorem Taken.refl (s : Kernel) (lbl : Frame → Option (Frame × Node)) : Taken s s lbl lbl :=
  ⟨List.suffix_refl _, fun _ _ => rfl, id, rfl⟩

omit [KernelImage] in
theorem Taken.trans (h : Taken s s' lbl lbl') (h' : Taken s' s'' lbl' lbl'') :
    Taken s s'' lbl lbl'' := by
  refine ⟨h'.freelist.trans h.freelist, fun f hf => ?_, h'.blank ∘ h.blank,
    h'.proc.trans h.proc⟩
  rw [h'.label f fun hmem => hf (h.freelist.subset hmem), h.label f hf]

/-- A new table page is paid for. -/
theorem Funded.grow (h : Table s r lbl) (hF : Funded N k s r lbl) {rest : List Frame} {m c : Node}
    {i : Nat} (hf : s.freelist = f :: rest) (hg : lbl g = some (r, m)) (hc : m.child i = some c)
    (hi : i < 512) (hv : ¬ (s.pte g i).V) (hN : c ∈ N) :
    Funded N k (s.grow f rest g i) r (Function.update lbl f (some (r, c))) ∧
      Taken s (s.grow f rest g i) lbl (Function.update lbl f (some (r, c))) := by
  have hfree : lbl f = none := h.free f (by rw [hf]; exact List.mem_cons_self)
  have hlack : c ∈ lacking N r lbl :=
    mem_lacking.2 ⟨hN, h.tree.not_labelled hg hc hi hv⟩
  have hsub : lacking N r (Function.update lbl f (some (r, c))) ⊆ (lacking N r lbl).erase c := by
    intro n hn
    obtain ⟨hnN, hno⟩ := mem_lacking.1 hn
    refine Finset.mem_erase.2 ⟨?_, mem_lacking.2 ⟨hnN, fun f' hf' => ?_⟩⟩
    · intro he
      exact hno f (by rw [he, Function.update_self])
    · exact hno f' (TreeOf.label_kept hfree hf')
  have hcard := Finset.card_le_card hsub
  rw [Finset.card_erase_of_mem hlack] at hcard
  have hpos := Finset.card_pos.2 ⟨c, hlack⟩
  have hlen : s.freelist.length = rest.length + 1 := by rw [hf, List.length_cons]
  constructor
  · unfold Funded at hF ⊢
    have hrest : (s.grow f rest g i).freelist = rest := rfl
    rw [hrest]
    omega
  · refine ⟨?_, fun f' hf' => ?_, fun hb => (hb.alloc f rest).congr rfl rfl rfl rfl rfl rfl, rfl⟩
    · rw [hf]
      exact List.suffix_cons f rest
    · rw [Function.update_of_ne]
      intro he
      exact hf' (by rw [he, hf]; exact List.mem_cons_self)

/-- With enough pages, `walk` finds the page of the lowest level. -/
theorem Table.walkLevel_ok (h : Table s r lbl) (hF : Funded N k s r lbl) (va : Nat)
    {level n : Nat} (hl : level ≤ 2) (hn : lbl n = some (r, Node.at (va / PGSIZE) level))
    (hN : ∀ l < level, Node.at (va / PGSIZE) l ∈ N) :
    ∃ res s' lbl', (Xv6.walkLevel kalloc va true level n).run s = .ok res s' ∧ Table s' r lbl' ∧
      Funded N k s' r lbl' ∧ Taken s s' lbl lbl' := by
  induction level generalizing s lbl n with
  | zero => exact ⟨_, s, lbl, rfl, h, hF, Taken.refl s lbl⟩
  | succ level ih =>
    have hchild := Node.at_child (va / PGSIZE) (by omega : level < 2)
    have hlt := index_lt (va / PGSIZE) (level + 1)
    simp only [Xv6.walkLevel, readPte, run_bind, run_read, PX_eq]
    split
    next hv =>
      exact ih h hF (by omega) (h.tree.down hn hchild hlt hv).2 fun l hl => hN l (by omega)
    next hv =>
      simp only [not_true_eq_false, if_false]
      have hc : Node.at (va / PGSIZE) level ∈ N := hN level (Nat.lt_succ_self level)
      obtain ⟨f, rest, hf⟩ : ∃ f rest, s.freelist = f :: rest := by
        refine List.exists_cons_of_length_pos ?_
        have hlack : Node.at (va / PGSIZE) level ∈ lacking N r lbl :=
          mem_lacking.2 ⟨hc, h.tree.not_labelled hn hchild hlt hv⟩
        have hpos := Finset.card_pos.2 ⟨_, hlack⟩
        unfold Funded at hF
        omega
      simp only [run_bind, (h.alloc.kalloc hf).1, memset, writePte, run_modify]
      obtain ⟨hT, -⟩ := h.grow hf hn hchild hlt hv
      obtain ⟨hF', htaken⟩ := hF.grow h hf hn hchild hlt hv hc
      obtain ⟨res, s', lbl', hrun, hT', hF'', htaken'⟩ :=
        ih hT hF' (by omega) (Function.update_self ..) fun l hl => hN l (by omega)
      exact ⟨res, s', lbl', hrun, hT', hF'', htaken.trans htaken'⟩

omit [KernelImage] in
/-- Where nothing is mapped, the entry that `walk` finds is not valid. -/
theorem not_valid {pt : Frame → Nat → Pte} {v : Nat} (hf : leafTable pt r v = some f)
    (hnone : mapping pt r v = none) : (pt f (index v 0)).V = false := by
  rw [mapping, hf, Option.bind_some] at hnone
  split at hnone
  next => cases hnone
  next hv => simpa using hv

theorem Table.walk_ok (h : Table s r lbl) (hF : Funded N k s r lbl) {v : Nat} (hv : v < 2 ^ 26)
    (hN : ∀ l < 2, Node.at v l ∈ N) :
    ∃ f s' lbl', (walk kalloc r (v * PGSIZE) true).run s = .ok (some (f, index v 0)) s' ∧
      Table s' r lbl' ∧ Funded N k s' r lbl' ∧ Taken s s' lbl lbl' ∧
      leafTable s'.pte r v = some f ∧ ∀ u, mapping s'.pte r u = mapping s.pte r u := by
  have hmax := page_lt.2 hv
  have hdiv := page_div v
  obtain ⟨res, s', lbl', hrun, hT, hF', htaken⟩ :=
    h.walkLevel_ok hF (v * PGSIZE) (Nat.le_refl 2) h.root (by rwa [hdiv])
  obtain ⟨-, -, -, hmap, f, rfl, hf⟩ := h.walkLevel (Nat.le_refl 2) h.root hrun
  rw [hdiv] at hf
  rw [PX_eq, hdiv] at hrun
  refine ⟨f, s', lbl', ?_, hT, hF', htaken, hf, hmap⟩
  rw [walk, if_neg (by omega), hrun]

/-- With enough pages, `mappages` succeeds where nothing is mapped. -/
theorem Table.mappagesLoop_ok (h : Table s r lbl) (hF : Funded N k s r lbl) {perm : Flags}
    {n v : Nat} (pa : Frame) (hn : v + n < 2 ^ 26) (hperm : (perm.R || perm.W || perm.X) = true)
    (hN : ∀ u, v ≤ u → u ≤ v + n → ∀ l < 2, Node.at u l ∈ N)
    (hnone : ∀ u, v ≤ u → u ≤ v + n → mapping s.pte r u = none) :
    ∃ s' lbl', (Xv6.mappagesLoop kalloc r perm n (v * PGSIZE) pa).run s = .ok 0 s' ∧
      Table s' r lbl' ∧ Funded N k s' r lbl' ∧ Taken s s' lbl lbl' ∧
      ∀ u, u < 2 ^ 27 → mapping s'.pte r u =
        PageMap.set (mapping s.pte r) v (n + 1) (pagesFrom pa perm) u := by
  suffices hok : ∃ s' lbl', (Xv6.mappagesLoop kalloc r perm n (v * PGSIZE) pa).run s = .ok 0 s' ∧
      Table s' r lbl' ∧ Funded N k s' r lbl' ∧ Taken s s' lbl lbl' by
    obtain ⟨s', lbl', hrun, hT, hF', htaken⟩ := hok
    obtain ⟨-, -, -, -, hmap⟩ := h.mappagesLoop hn hperm hrun
    exact ⟨s', lbl', hrun, hT, hF', htaken, hmap⟩
  induction n generalizing s lbl v pa with
  | zero =>
    obtain ⟨f, s₁, lbl₁, hw, hT₁, hF₁, htaken₁, hf, hmap₁⟩ :=
      h.walk_ok hF (by omega : v < 2 ^ 26) (hN v (by omega) (by omega))
    have hinvalid := not_valid hf ((hmap₁ v).trans (hnone v (by omega) (by omega)))
    obtain ⟨hT₂, -⟩ := hT₁.setPte (p := { perm with V := true, pa := pa })
      (by omega : v < 2 ^ 27) hf fun _ => hperm
    unfold Xv6.mappagesLoop
    simp only [run_bind, hw, readPte, run_read, hinvalid, writePte, run_modify,
      Bool.false_eq_true, if_false]
    exact ⟨_, lbl₁, rfl, hT₂, hF₁, htaken₁.freelist, htaken₁.label,
      fun hb => (htaken₁.blank hb).congr rfl rfl rfl rfl rfl rfl, htaken₁.proc⟩
  | succ n ih =>
    obtain ⟨f, s₁, lbl₁, hw, hT₁, hF₁, htaken₁, hf, hmap₁⟩ :=
      h.walk_ok hF (by omega : v < 2 ^ 26) (hN v (by omega) (by omega))
    have hinvalid := not_valid hf ((hmap₁ v).trans (hnone v (by omega) (by omega)))
    obtain ⟨hT₂, hmap₂⟩ := hT₁.setPte (p := { perm with V := true, pa := pa })
      (by omega : v < 2 ^ 27) hf fun _ => hperm
    have hrest : ∀ u, v + 1 ≤ u → u ≤ v + 1 + n →
        mapping (s₁.setPte (f, index v 0) { perm with V := true, pa := pa }).pte r u = none := by
      intro u hu hu'
      rw [hmap₂ u (by omega), if_neg (by omega), hmap₁, hnone u (by omega) (by omega)]
    obtain ⟨s', lbl', hrun, hT', hF', htaken'⟩ := ih hT₂ hF₁ (v := v + 1) (pa + 1) (by omega)
      (fun u hu hu' => hN u (by omega) (by omega)) hrest
    rw [Nat.succ_mul] at hrun
    unfold Xv6.mappagesLoop
    simp only [run_bind, hw, readPte, run_read, hinvalid, writePte, run_modify,
      Bool.false_eq_true, if_false]
    exact ⟨s', lbl', hrun, hT', hF', htaken₁.trans ⟨htaken'.freelist, htaken'.label,
      fun hb => htaken'.blank (hb.congr rfl rfl rfl rfl rfl rfl), htaken'.proc⟩⟩

/-! ## The table of the kernel as it grows -/

/-- The table at `r` maps what `m` says, `st` are the stacks, and there are
pages for all nodes in `N` and for `k` stacks. If `B`, nothing else is there. -/
def Laying (B : Prop) (N : Finset Node) (k : Nat) (m : PageMap) (st : List Frame) (s : Kernel)
    (r : Frame) : Prop :=
  ∃ lbl, Table s r lbl ∧ Funded N k s r lbl ∧ (∀ u < 2 ^ 27, mapping s.pte r u = m u) ∧
    (∀ f ∈ st, managed f ∧ f ∉ s.freelist ∧ lbl f = none) ∧ st.Nodup ∧
    (B → s.Blank)

variable {B : Prop} {m : PageMap} {st : List Frame}

/-- `mappages` of `n + 1` pages where nothing is mapped. -/
theorem Laying.mappages (h : Laying B N k m st s r) (va sz v n : Nat) (pa : Frame) (perm : Flags)
    (hva : va = v * PGSIZE) (hsz : sz = (n + 1) * PGSIZE) (hn : v + n < 2 ^ 26)
    (hperm : (perm.R || perm.W || perm.X) = true)
    (hN : ∀ u, v ≤ u → u ≤ v + n → ∀ l < 2, Node.at u l ∈ N)
    (hnone : ∀ u, v ≤ u → u ≤ v + n → m u = none) :
    ∃ s', (Xv6.mappages kalloc r va sz pa perm).run s = .ok 0 s' ∧ s'.proc = s.proc ∧
      Laying B N k (m.set v (n + 1) (pagesFrom pa perm)) st s' r := by
  obtain ⟨lbl, hT, hF, hmap, hst, hnodup, hblank⟩ := h
  obtain ⟨s', lbl', hrun, hT', hF', htaken, hmap'⟩ := hT.mappagesLoop_ok hF pa hn hperm hN
    fun u hu hu' => (hmap u (by omega)).trans (hnone u hu hu')
  have hpos : sz ≠ 0 := by
    rw [hsz]
    unfold PGSIZE
    omega
  have hlast : (PGROUNDDOWN (va + sz - 1) - PGROUNDDOWN va) / PGSIZE = n := by
    rw [hva, hsz]
    unfold PGROUNDDOWN PGSIZE
    omega
  have hfirst : PGROUNDDOWN va = v * PGSIZE := by
    rw [hva, PGROUNDDOWN, page_div]
  refine ⟨s', ?_, htaken.proc, lbl', hT', hF', fun u hu => ?_, fun f hf => ?_, hnodup,
    fun hB => htaken.blank (hblank hB)⟩
  · rw [Xv6.mappages, if_neg hpos]
    dsimp only
    rw [hlast, hfirst, hrun]
  · rw [hmap' u hu, PageMap.set, PageMap.set, hmap u hu]
  · obtain ⟨hm, hfree, hlbl⟩ := hst f hf
    exact ⟨hm, fun hmem => hfree (htaken.freelist.subset hmem), (htaken.label f hfree).trans hlbl⟩

theorem Laying.kvmmap (h : Laying B N k m st s r) (va sz v n : Nat) (pa : Frame) (perm : Flags)
    (hva : va = v * PGSIZE) (hsz : sz = (n + 1) * PGSIZE) (hn : v + n < 2 ^ 26)
    (hperm : (perm.R || perm.W || perm.X) = true)
    (hN : ∀ u, v ≤ u → u ≤ v + n → ∀ l < 2, Node.at u l ∈ N)
    (hnone : ∀ u, v ≤ u → u ≤ v + n → m u = none) :
    ∃ s', (Xv6.kvmmap r va pa sz perm).run s = .ok () s' ∧
      Laying B N k (m.set v (n + 1) (pagesFrom pa perm)) st s' r := by
  obtain ⟨s', hrun, -, h'⟩ := h.mappages va sz v n pa perm hva hsz hn hperm hN hnone
  refine ⟨s', ?_, h'⟩
  rw [Xv6.kvmmap, run_bind, hrun]
  rfl

/-- Changes elsewhere. -/
theorem Laying.congr (h : Laying B N k m st s r) (hpte : s'.pte = s.pte)
    (hl : s'.freelist = s.freelist) (hc : s'.FREE_PAGES = s.FREE_PAGES)
    (hm : s'.MAX_PAGES = s.MAX_PAGES) : Laying False N k m st s' r := by
  obtain ⟨lbl, hT, hF, hmap, hst, hnodup, -⟩ := h
  refine ⟨lbl, ?_, ?_, ?_, ?_, hnodup, False.elim⟩
  · exact hT.congr (hT.alloc.congr hl hc hm) (fun f _ _ => by rw [hpte]) (by rw [hl]; exact hT.free)
  · rw [Funded, hl]
    exact hF
  · rw [hpte]
    exact hmap
  · rw [hl]
    exact hst

/-- A page for a stack, or for a process. -/
theorem Laying.kalloc (h : Laying B N (k + 1) m st s r) :
    ∃ f s', Xv6.kalloc.run s = .ok (some f) s' ∧ s'.proc = s.proc ∧
      Laying B N k m (st ++ [f]) s' r := by
  obtain ⟨lbl, hT, hF, hmap, hst, hnodup, hblank⟩ := h
  obtain ⟨f, rest, hf⟩ : ∃ f rest, s.freelist = f :: rest := by
    refine List.exists_cons_of_length_pos ?_
    unfold Funded at hF
    omega
  have hmem : f ∈ s.freelist := by
    rw [hf]
    exact List.mem_cons_self
  have hsub : ∀ g ∈ rest, g ∈ s.freelist := by
    intro g hg
    rw [hf]
    exact List.mem_cons_of_mem f hg
  have hfrest : f ∉ rest := by
    have hnd := hT.alloc.nodup
    rw [hf] at hnd
    exact (List.nodup_cons.1 hnd).1
  have hnew : f ∉ st := fun hfst => (hst f hfst).2.1 hmem
  obtain ⟨hrun, halloc⟩ := hT.alloc.kalloc hf
  have hkeep : ∀ g x, lbl g = some x → (s.alloc f rest).pte g = s.pte g := by
    intro g x hg
    have hne : g ≠ f := by
      intro he
      rw [he, hT.free f hmem] at hg
      cases hg
    exact Function.update_of_ne hne ..
  have hT' : Table (s.alloc f rest) r lbl :=
    hT.congr halloc hkeep fun g hg => hT.free g (hsub g hg)
  refine ⟨f, s.alloc f rest, hrun, rfl, lbl, hT', ?_, fun u hu => ?_, fun g hg => ?_, ?_,
    fun hB => (hblank hB).alloc f rest⟩
  · unfold Funded at hF ⊢
    have hrest : (s.alloc f rest).freelist = rest := rfl
    rw [hf, List.length_cons] at hF
    rw [hrest]
    omega
  · rw [hT.tree.mapping_congr hT.root (fun g n hg => hkeep g _ hg), hmap u hu]
  · rcases List.mem_append.1 hg with hg | hg
    · obtain ⟨hm, hfree, hlbl⟩ := hst g hg
      exact ⟨hm, fun hgr => hfree (hsub g hgr), hlbl⟩
    · obtain rfl := List.mem_singleton.1 hg
      exact ⟨hT.alloc.managed g hmem, hfrest, hT.free g hmem⟩
  · refine List.nodup_append.2 ⟨hnodup, List.nodup_singleton f, fun g hg g' hg' => ?_⟩
    rw [List.mem_singleton.1 hg']
    intro he
    exact hnew (he ▸ hg)

/-- A new table, with pages for the nodes in `N` and for `k` others. -/
theorem Laying.create (ha : s.Allocator) {rest : List Frame} (hf : s.freelist = f :: rest)
    (hfree : N.card + k + 1 ≤ s.freelist.length) :
    Laying s.Blank N k (fun _ => none) [] ((s.alloc f rest).fill f 0) f := by
  have hbuilt : Built initproc f (fun _ => none)
      { (s.alloc f rest).fill f 0 with upts := insert f (s.alloc f rest).upts } := by
    refine .create ha ?_
    rw [uvmcreate, run_bind, (ha.kalloc hf).1]
    rfl
  obtain ⟨lbl, hT, hmap, -⟩ := hbuilt.table
  have hT₀ : Table ((s.alloc f rest).fill f 0) f lbl :=
    hT.congr (hT.alloc.congr rfl rfl rfl) (fun _ _ _ => rfl) hT.free
  refine ⟨lbl, hT₀, ?_, hmap, fun g hg => absurd hg List.not_mem_nil, List.nodup_nil,
    fun hB => (hB.alloc f rest).congr rfl rfl rfl rfl rfl rfl⟩
  have hsub : lacking N f lbl ⊆ N := fun n hn => (mem_lacking.1 hn).1
  have hcard := Finset.card_le_card hsub
  have hlen : s.freelist.length = rest.length + 1 := by rw [hf, List.length_cons]
  have hrest : ((s.alloc f rest).fill f 0).freelist = rest := rfl
  rw [Funded, hrest]
  omega

/-- Such a page is filled. -/
theorem Laying.fill (h : Laying B N k m st s r) (hf : f ∈ st) (c : UInt8) :
    Laying False N k m st (s.fill f c) r := by
  obtain ⟨lbl, hT, hF, hmap, hst, hnodup, -⟩ := h
  have hkeep : ∀ g x, lbl g = some x → (s.fill f c).pte g = s.pte g := by
    intro g x hg
    have hne : g ≠ f := by
      intro he
      rw [he, (hst f hf).2.2] at hg
      cases hg
    exact Function.update_of_ne hne ..
  refine ⟨lbl, hT.congr (hT.alloc.congr rfl rfl rfl) hkeep hT.free, hF, fun u hu => ?_, hst, hnodup,
    False.elim⟩
  rw [hT.tree.mapping_congr hT.root (fun g n hg => hkeep g _ hg), hmap u hu]

/-! ## What the kernel maps -/

/-- The stack that begins at page `v`. -/
def stackAt (st : List Frame) (v : Nat) : Option Frame :=
  let d := TRAMPOLINE / PGSIZE - v
  if 0 < d ∧ d % 2 = 0 then st[d / 2 - 1]? else none

/-- Devices and memory at their own addresses, the text without `PTE_W`; at
the top the trampoline, and below it the stacks `st`. -/
def kernelMap (st : List Frame) : PageMap := fun v =>
  if v = UART0 / PGSIZE ∨ v = VIRTIO0 / PGSIZE ∨ PLIC / PGSIZE ≤ v ∧ v < PLIC / PGSIZE + 0x400 then
    some { readWrite with V := true, pa := v }
  else if KERNBASE / PGSIZE ≤ v ∧ v < etext then some { readExec with V := true, pa := v }
  else if etext ≤ v ∧ v < PHYSTOP / PGSIZE then some { readWrite with V := true, pa := v }
  else if v = TRAMPOLINE / PGSIZE then
    some { readExec with V := true, pa := KernelImage.trampoline }
  else (stackAt st v).map fun f => { readWrite with V := true, pa := f }

/-- The page-table pages that takes, below the root. -/
def kernelNodes : Finset Node :=
  {.mid 0, .mid 2, .mid 255, .leaf 0 96, .leaf 0 97, .leaf 0 128, .leaf 255 511} ∪
    (Finset.range 64).image (.leaf 2)

omit [KernelImage] in
theorem kernelNodes_card : kernelNodes.card ≤ 71 := by
  have himage : ((Finset.range 64).image (Node.leaf 2)).card ≤ 64 :=
    Nat.le_trans Finset.card_image_le (Nat.le_of_eq (Finset.card_range 64))
  exact Nat.le_trans (Finset.card_union_le _ _) (Nat.add_le_add (by decide) himage)

omit [KernelImage] in
theorem mem_kernelNodes {u : Nat}
    (hu : (index u 2 = 0 ∧ (index u 1 = 96 ∨ index u 1 = 97 ∨ index u 1 = 128)) ∨
      (index u 2 = 2 ∧ index u 1 < 64) ∨ index u 2 = 255 ∧ index u 1 = 511) :
    ∀ l < 2, Node.at u l ∈ kernelNodes := by
  intro l hl
  obtain rfl | rfl : l = 0 ∨ l = 1 := by omega
  · rcases hu with ⟨h2, h1 | h1 | h1⟩ | ⟨h2, h1⟩ | ⟨h2, h1⟩
    · rw [Node.at, h2, h1]
      decide
    · rw [Node.at, h2, h1]
      decide
    · rw [Node.at, h2, h1]
      decide
    · rw [Node.at, h2]
      exact Finset.mem_union_right _ (Finset.mem_image_of_mem _ (Finset.mem_range.2 h1))
    · rw [Node.at, h2, h1]
      decide
  · rcases hu with ⟨h2, -⟩ | ⟨h2, -⟩ | ⟨h2, -⟩
    · rw [Node.at, h2]
      decide
    · rw [Node.at, h2]
      decide
    · rw [Node.at, h2]
      decide

omit [KernelImage] in
theorem PageMap.set_none {v n u : Nat} {e : Nat → Option Pte} (hu : u < v ∨ v + n ≤ u)
    (h : m u = none) : m.set v n e u = none := by
  rw [PageMap.set, if_neg (by omega), h]

theorem etext_lt : etext < PHYSTOP / PGSIZE :=
  Nat.lt_of_le_of_lt KernelImage.trampoline_lt KernelImage.end_lt

omit [KernelImage] in
theorem kstack_eq {p : Nat} (hlt : p < NPROC) : KSTACK p = (2 ^ 26 - 1 - 2 * (p + 1)) * PGSIZE := by
  unfold NPROC at hlt
  unfold KSTACK TRAMPOLINE MAXVA PGSIZE
  omega

omit [KernelImage] in
theorem kstack_page {p : Nat} (hlt : p < NPROC) :
    KSTACK p / PGSIZE = 2 ^ 26 - 1 - 2 * (p + 1) := by
  rw [kstack_eq hlt, page_div]

/-- Above memory there are only the trampoline and the stacks. -/
theorem kernelMap_high {v : Nat} (hv : PHYSTOP / PGSIZE ≤ v) (hne : v ≠ TRAMPOLINE / PGSIZE) :
    kernelMap st v = (stackAt st v).map fun f => { readWrite with V := true, pa := f } := by
  have htext := etext_lt
  have huart : UART0 / PGSIZE = 0x10000 := rfl
  have hvirtio : VIRTIO0 / PGSIZE = 0x10001 := rfl
  have hplic : PLIC / PGSIZE = 0xc000 := rfl
  have hkern : KERNBASE / PGSIZE = 0x80000 := rfl
  have hstop : PHYSTOP / PGSIZE = 0x88000 := rfl
  rw [kernelMap, if_neg (by omega), if_neg (by omega), if_neg (by omega), if_neg hne]

theorem kernelMap_kstack {p : Nat} (hlt : p < NPROC) :
    kernelMap st (KSTACK p / PGSIZE) =
      st[p]?.map fun f => { readWrite with V := true, pa := f } := by
  have hstop : PHYSTOP / PGSIZE = 0x88000 := rfl
  have htramp : TRAMPOLINE / PGSIZE = 2 ^ 26 - 1 := rfl
  have hproc : NPROC = 64 := rfl
  rw [kstack_page hlt, kernelMap_high (by omega) (by omega), stackAt]
  dsimp only
  have hslot : (2 ^ 26 - 1 - (2 ^ 26 - 1 - 2 * (p + 1))) / 2 - 1 = p := by omega
  rw [if_pos (by omega), htramp, hslot]

/-- One more stack. -/
theorem kernelMap_stack {p : Nat} (hp : st.length = p) (hlt : p < NPROC) (f : Frame) :
    (kernelMap st).set (KSTACK p / PGSIZE) 1 (pagesFrom f readWrite) = kernelMap (st ++ [f]) := by
  funext v
  by_cases hv : v = KSTACK p / PGSIZE
  · subst hv
    rw [PageMap.set, if_pos (by omega), Nat.sub_self, kernelMap_kstack hlt, ← hp,
      List.getElem?_concat_length]
    rfl
  · rw [PageMap.set, if_neg (by omega)]
    have hstack : stackAt (st ++ [f]) v = stackAt st v := by
      unfold stackAt
      dsimp only
      split
      next hd =>
        have hne : (TRAMPOLINE / PGSIZE - v) / 2 - 1 ≠ p := by
          intro he
          refine hv ?_
          have htramp : TRAMPOLINE / PGSIZE = 2 ^ 26 - 1 := rfl
          rw [kstack_page hlt]
          rw [htramp] at he hd
          omega
        rcases Nat.lt_or_gt_of_ne hne with hi | hi
        · rw [List.getElem?_append_left (by omega)]
        · rw [List.getElem?_eq_none (by rw [List.length_append, List.length_singleton]; omega),
            List.getElem?_eq_none (by omega)]
      next => rfl
    unfold kernelMap
    rw [hstack]

/-- `proc_mapstacks` maps all stacks. -/
theorem Laying.mapstacks {n p : Nat} (h : Laying B kernelNodes (k + n) (kernelMap st) st s r)
    (hp : st.length = p) (hn : p + n ≤ NPROC) :
    ∃ s' st', (mapstacksLoop r n p).run s = .ok () s' ∧ st'.length = p + n ∧
      Laying B kernelNodes k (kernelMap st') st' s' r := by
  induction n generalizing s st p with
  | zero => exact ⟨s, st, rfl, hp, h⟩
  | succ n ih =>
    obtain ⟨f, s₁, hrun, -, h₁⟩ := Laying.kalloc (k := k + n) h
    have hlt : p < NPROC := by omega
    have hproc : NPROC = 64 := rfl
    have htop : ∀ u, 2 ^ 26 - 1 - 2 * (p + 1) = u → index u 2 = 255 ∧ index u 1 = 511 := by
      intro u hu
      unfold index
      omega
    have hguard : kernelMap st (KSTACK p / PGSIZE) = none := by
      rw [kernelMap_kstack hlt, List.getElem?_eq_none (Nat.le_of_eq hp)]
      rfl
    obtain ⟨s₂, hrun₂, h₂⟩ := h₁.kvmmap (KSTACK p) PGSIZE _ 0 f readWrite (kstack_eq hlt)
      (Nat.one_mul PGSIZE).symm (by omega) rfl
      (fun u hu hu' => mem_kernelNodes (.inr (.inr (htop u (by omega)))))
      (fun u hu hu' => by
        rw [kstack_page hlt] at hguard
        rwa [show u = 2 ^ 26 - 1 - 2 * (p + 1) by omega])
    rw [← kstack_page hlt, kernelMap_stack hp hlt] at h₂
    have hlen : (st ++ [f]).length = p + 1 := by
      rw [List.length_append, List.length_singleton, hp]
    obtain ⟨s', st', hrun', hlen', h'⟩ := ih h₂ hlen (by omega)
    refine ⟨s', st', ?_, by omega, h'⟩
    simp only [mapstacksLoop, run_bind, hrun, hrun₂, hrun']

omit [KernelImage] in
theorem pagesFrom_sub (perm : Flags) {a v : Nat} (h : a ≤ v) :
    pagesFrom a perm (v - a) = some { perm with V := true, pa := v } := by
  rw [pagesFrom, Nat.add_sub_cancel' h]

/-- Before the stacks. -/
theorem kernelMap_nil (hbase : KERNBASE / PGSIZE < etext) :
    (((((PageMap.set (fun _ => none) 0x10000 1 (pagesFrom (UART0 / PGSIZE) readWrite)).set 0x10001 1
      (pagesFrom (VIRTIO0 / PGSIZE) readWrite)).set 0xc000 0x400
        (pagesFrom (PLIC / PGSIZE) readWrite)).set 0x80000 (etext - 0x80000)
          (pagesFrom (KERNBASE / PGSIZE) readExec)).set etext (0x88000 - etext)
            (pagesFrom etext readWrite)).set (2 ^ 26 - 1) 1
              (pagesFrom KernelImage.trampoline readExec) = kernelMap [] := by
  funext v
  have htext := etext_lt
  have hstop : PHYSTOP / PGSIZE = 0x88000 := rfl
  have huart : UART0 / PGSIZE = 0x10000 := rfl
  have hvirtio : VIRTIO0 / PGSIZE = 0x10001 := rfl
  have hplic : PLIC / PGSIZE = 0xc000 := rfl
  have hkern : KERNBASE / PGSIZE = 0x80000 := rfl
  have htramp : TRAMPOLINE / PGSIZE = 2 ^ 26 - 1 := rfl
  have hstack : stackAt [] v = none := by simp [stackAt]
  simp only [PageMap.set, kernelMap, hstack, Option.map_none, huart, hvirtio, hplic, hkern, hstop]
  split_ifs <;> first
    | (exfalso; omega)
    | (rw [show v - (2 ^ 26 - 1) = 0 by omega]; rfl)
    | (rw [pagesFrom_sub _ (by omega)])
    | rfl

omit [KernelImage] in
theorem run_bind_ok {p : Prog Kernel Unit} {q : Unit → Prog Kernel Frame}
    (h : p.run s = .ok () s') : (p >>= q).run s = (q ()).run s' := by
  rw [run_bind, h]

/-- With a page for each node and each stack, `kvmmake` succeeds. -/
theorem kvmmake_laying (hbase : KERNBASE / PGSIZE ≤ KernelImage.trampoline) (ha : s.Allocator)
    (hfree : 136 + k ≤ s.freelist.length) :
    ∃ r s' st, kvmmake.run s = .ok r s' ∧ st.length = NPROC ∧
      Laying s.Blank kernelNodes k (kernelMap st) st s' r := by
  have htext := etext_lt
  have hstop : PHYSTOP / PGSIZE = 0x88000 := rfl
  have hkern : KERNBASE / PGSIZE = 0x80000 := rfl
  have hbase' : KERNBASE / PGSIZE < etext := Nat.lt_succ_of_le hbase
  obtain ⟨f, rest, hf⟩ := List.exists_cons_of_length_pos (by omega : 0 < s.freelist.length)
  have halloc := (ha.kalloc hf).1
  have h₀ : Laying s.Blank kernelNodes (k + NPROC) (fun _ => none) []
      ((s.alloc f rest).fill f 0) f := by
    have hcard := kernelNodes_card
    have hproc : NPROC = 64 := rfl
    exact Laying.create ha hf (by omega)
  obtain ⟨s₁, hrun₁, h₁⟩ := h₀.kvmmap UART0 PGSIZE 0x10000 0 (UART0 / PGSIZE)
    readWrite rfl rfl (by decide) rfl
    (fun u hu hu' => mem_kernelNodes (.inl (by unfold index; omega))) fun u hu hu' => rfl
  obtain ⟨s₂, hrun₂, h₂⟩ := h₁.kvmmap VIRTIO0 PGSIZE 0x10001 0 (VIRTIO0 / PGSIZE)
    readWrite rfl rfl (by decide) rfl
    (fun u hu hu' => mem_kernelNodes (.inl (by unfold index; omega)))
    fun u hu hu' => PageMap.set_none (by omega) rfl
  obtain ⟨s₃, hrun₃, h₃⟩ := h₂.kvmmap PLIC 0x400000 0xc000 0x3ff (PLIC / PGSIZE)
    readWrite rfl rfl (by decide) rfl
    (fun u hu hu' => mem_kernelNodes (.inl (by unfold index; omega)))
    fun u hu hu' => PageMap.set_none (by omega) (PageMap.set_none (by omega) rfl)
  have hpage : ∀ a, a * PGSIZE = a * 4096 := fun a => rfl
  obtain ⟨s₄, hrun₄, h₄⟩ := h₃.kvmmap KERNBASE (etext * PGSIZE - KERNBASE) 0x80000
    (etext - 0x80000 - 1) (KERNBASE / PGSIZE) readExec rfl
    (by rw [hpage, hpage, show KERNBASE = 0x80000 * 4096 by rfl]; omega) (by omega) rfl
    (fun u hu hu' => mem_kernelNodes (.inr (.inl (by unfold index; omega))))
    fun u hu hu' => PageMap.set_none (by omega)
      (PageMap.set_none (by omega) (PageMap.set_none (by omega) rfl))
  obtain ⟨s₅, hrun₅, h₅⟩ := h₄.kvmmap (etext * PGSIZE) (PHYSTOP - etext * PGSIZE) etext
    (0x88000 - etext - 1) etext readWrite rfl
    (by rw [hpage, hpage, show PHYSTOP = 0x88000 * 4096 by rfl]; omega) (by omega) rfl
    (fun u hu hu' => mem_kernelNodes (.inr (.inl (by unfold index; omega))))
    fun u hu hu' => PageMap.set_none (by omega) (PageMap.set_none (by omega)
      (PageMap.set_none (by omega) (PageMap.set_none (by omega) rfl)))
  obtain ⟨s₆, hrun₆, h₆⟩ := h₅.kvmmap TRAMPOLINE PGSIZE (2 ^ 26 - 1) 0
    KernelImage.trampoline readExec rfl rfl (by decide) rfl
    (fun u hu hu' => mem_kernelNodes (.inr (.inr (by unfold index; omega))))
    fun u hu hu' => PageMap.set_none (by omega) (PageMap.set_none (by omega)
      (PageMap.set_none (by omega) (PageMap.set_none (by omega) (PageMap.set_none (by omega) rfl))))
  rw [show etext - 0x80000 - 1 + 1 = etext - 0x80000 by omega,
    show 0x88000 - etext - 1 + 1 = 0x88000 - etext by omega, kernelMap_nil hbase'] at h₆
  obtain ⟨s₇, st, hrun₇, hlen, h₇⟩ := Laying.mapstacks (k := k) (n := NPROC) (p := 0) h₆ rfl
    (Nat.le_of_eq (Nat.zero_add NPROC))
  refine ⟨f, s₇, st, ?_, by rw [hlen, Nat.zero_add], h₇⟩
  rw [kvmmake, run_bind, halloc]
  dsimp only
  rw [run_bind, memset, run_modify]
  dsimp only
  rw [run_bind_ok hrun₁, run_bind_ok hrun₂, run_bind_ok hrun₃, run_bind_ok hrun₄,
    run_bind_ok hrun₅, run_bind_ok hrun₆, proc_mapstacks, run_bind_ok hrun₇]
  rfl

/-- What a page of the kernel may do: the text alone is executable, and it is
not writable at any address. -/
theorem kernelMap_rights {v : Nat} {p : Pte} (hbase : KERNBASE / PGSIZE ≤ KernelImage.trampoline)
    (hst : ∀ f ∈ st, managed f) (h : kernelMap st v = some p) :
    p.U = false ∧
      ((p.X = false ∧ (p.pa < KERNBASE / PGSIZE ∨ etext ≤ p.pa)) ∨
        (p.W = false ∧ KERNBASE / PGSIZE ≤ p.pa ∧ p.pa < etext)) := by
  have huart : UART0 / PGSIZE = 0x10000 := rfl
  have hvirtio : VIRTIO0 / PGSIZE = 0x10001 := rfl
  have hplic : PLIC / PGSIZE = 0xc000 := rfl
  have hkern : KERNBASE / PGSIZE = 0x80000 := rfl
  rw [kernelMap] at h
  split_ifs at h with hdev htext hdata htramp
  · obtain rfl := Option.some.inj h
    have hv : v < KERNBASE / PGSIZE := by omega
    exact ⟨rfl, .inl ⟨rfl, .inl hv⟩⟩
  · obtain rfl := Option.some.inj h
    exact ⟨rfl, .inr ⟨rfl, htext.1, htext.2⟩⟩
  · obtain rfl := Option.some.inj h
    exact ⟨rfl, .inl ⟨rfl, .inr hdata.1⟩⟩
  · obtain rfl := Option.some.inj h
    exact ⟨rfl, .inr ⟨rfl, hbase, Nat.lt_succ_self _⟩⟩
  · obtain ⟨f, hf, rfl⟩ := Option.map_eq_some_iff.1 h
    have hmem : f ∈ st := by
      unfold stackAt at hf
      dsimp only at hf
      split at hf
      next => exact List.mem_of_getElem? hf
      next => cases hf
    exact ⟨rfl, .inl ⟨rfl, .inr (Nat.le_trans KernelImage.trampoline_lt (hst f hmem).1)⟩⟩

/-- Next to a stack nothing is mapped. -/
theorem kernelMap_guard {p v : Nat} (hlt : p < NPROC)
    (hv : v + 1 = KSTACK p / PGSIZE ∨ v = KSTACK p / PGSIZE + 1) : kernelMap st v = none := by
  have hstop : PHYSTOP / PGSIZE = 0x88000 := rfl
  have htramp : TRAMPOLINE / PGSIZE = 2 ^ 26 - 1 := rfl
  have hproc : NPROC = 64 := rfl
  rw [kstack_page hlt] at hv
  rw [kernelMap_high (by omega) (by omega), stackAt]
  dsimp only
  rw [if_neg (by omega)]
  rfl

/-- With 136 free pages `kvmmake` succeeds, and the table it makes maps every
page as `kernelMap` says and nothing else; the stacks are different pages that
were free, and are no pages of the table. -/
theorem kvmmake_maps (hbase : KERNBASE / PGSIZE ≤ KernelImage.trampoline) (ha : s.Allocator)
    (hfree : 136 ≤ s.freelist.length) :
    ∃ r s' st, kvmmake.run s = .ok r s' ∧ st.length = NPROC ∧ st.Nodup ∧
      (∀ f ∈ st, managed f ∧ f ∉ s'.freelist ∧ ∀ v l, nodeAt s'.pte r v l ≠ some f) ∧
      ∀ v < 2 ^ 27, mapping s'.pte r v = kernelMap st v := by
  obtain ⟨r, s', st, hrun, hlen, lbl, hT, -, hmap, hst, hnodup, -⟩ :=
    kvmmake_laying (k := 0) hbase ha hfree
  refine ⟨r, s', st, hrun, hlen, hnodup, fun f hf => ?_, hmap⟩
  obtain ⟨hm, hfr, hlbl⟩ := hst f hf
  exact ⟨hm, hfr, hT.not_reached.1 hlbl⟩

/-- In the kernel's table no page is the user's, no frame is writable at one
address and executable at another, and each stack is mapped between two pages
that are not. -/
theorem kvmmake_protects (hbase : KERNBASE / PGSIZE ≤ KernelImage.trampoline) (ha : s.Allocator)
    (hfree : 136 ≤ s.freelist.length) :
    ∃ r s', kvmmake.run s = .ok r s' ∧
      (∀ v p, v < 2 ^ 27 → mapping s'.pte r v = some p → p.U = false) ∧
      (∀ u v p q, u < 2 ^ 27 → v < 2 ^ 27 → mapping s'.pte r u = some p →
        mapping s'.pte r v = some q → p.pa = q.pa → ¬ (p.W ∧ q.X)) ∧
      ∀ i < NPROC, (∃ p, mapping s'.pte r (KSTACK i / PGSIZE) = some p ∧ p.W = true) ∧
        mapping s'.pte r (KSTACK i / PGSIZE - 1) = none ∧
        mapping s'.pte r (KSTACK i / PGSIZE + 1) = none := by
  obtain ⟨r, s', st, hrun, hlen, lbl, -, -, hmap, hst, -, -⟩ :=
    kvmmake_laying (k := 0) hbase ha hfree
  have hrights : ∀ v p, v < 2 ^ 27 → mapping s'.pte r v = some p → _ := fun v p hv hp =>
    kernelMap_rights hbase (fun f hf => (hst f hf).1) ((hmap v hv).symm.trans hp)
  have hproc : NPROC = 64 := rfl
  refine ⟨r, s', hrun, fun v p hv hp => (hrights v p hv hp).1, ?_, fun i hi => ⟨?_, ?_, ?_⟩⟩
  · intro u v p q hu hv hp hq hpa hwx
    rcases (hrights u p hu hp).2 with ⟨-, hpout⟩ | ⟨hpw, -⟩
    · rcases (hrights v q hv hq).2 with ⟨hqx, -⟩ | ⟨-, hqin⟩
      · rw [hqx] at hwx
        exact Bool.false_ne_true hwx.2
      · rw [hpa] at hpout
        rcases hpout with hlow | hhigh
        · exact Nat.not_lt_of_le hqin.1 hlow
        · exact Nat.not_lt_of_le hhigh hqin.2
    · rw [hpw] at hwx
      exact Bool.false_ne_true hwx.1
  · have hpage := kstack_page hi
    rw [hmap _ (by omega), kernelMap_kstack hi, List.getElem?_eq_getElem (by omega)]
    exact ⟨_, rfl, rfl⟩
  · have hpage := kstack_page hi
    rw [hmap _ (by omega), kernelMap_guard hi (.inl (by omega))]
  · have hpage := kstack_page hi
    rw [hmap _ (by omega), kernelMap_guard hi (.inr rfl)]

end

attribute [local instance] image

/-- The allocator at boot, with just enough pages. -/
theorem boot_allocator : (Kernel.boot 136).Allocator := by
  have hboot := Kernel.boot_atBoot (n := 136) (by decide)
  exact ⟨hboot.nodup, hboot.managed, hboot.free, hboot.max⟩

theorem boot_pages : 136 ≤ (Kernel.boot 136).freelist.length := by
  simp [Kernel.boot, Kernel.fresh]

theorem kvmmake_maps_boot :
    ∃ r s' st, kvmmake.run (Kernel.boot 136) = .ok r s' ∧ st.length = NPROC ∧ st.Nodup ∧
      (∀ f ∈ st, managed f ∧ f ∉ s'.freelist ∧ ∀ v l, nodeAt s'.pte r v l ≠ some f) ∧
      ∀ v < 2 ^ 27, mapping s'.pte r v = kernelMap st v :=
  kvmmake_maps (by decide) boot_allocator boot_pages

theorem kvmmake_protects_boot :
    ∃ r s', kvmmake.run (Kernel.boot 136) = .ok r s' ∧
      (∀ v p, v < 2 ^ 27 → mapping s'.pte r v = some p → p.U = false) ∧
      (∀ u v p q, u < 2 ^ 27 → v < 2 ^ 27 → mapping s'.pte r u = some p →
        mapping s'.pte r v = some q → p.pa = q.pa → ¬ (p.W ∧ q.X)) ∧
      ∀ i < NPROC, (∃ p, mapping s'.pte r (KSTACK i / PGSIZE) = some p ∧ p.W = true) ∧
        mapping s'.pte r (KSTACK i / PGSIZE - 1) = none ∧
        mapping s'.pte r (KSTACK i / PGSIZE + 1) = none :=
  kvmmake_protects (by decide) boot_allocator boot_pages

end Xv6
