/-
proc.c: the page table of a process, and `proc_freepagetable` of all of it.
-/
import Xv6.Growth
import Xv6.Lend

namespace Xv6

open Conc Prog

variable [KernelImage] {s s' : Kernel} {ka : Kalloc} {r g : Frame} {t : Slot}
  {lbl lbl' : Frame → Option (Frame × Node)}

/-- The table maps the pages of `sz` bytes, each in a frame of its own that is
no page of the table, the trapframe and the trampoline. -/
structure UserTable (s : Kernel) (r : Frame) (lbl : Frame → Option (Frame × Node)) (sz : Nat) :
    Prop where
  table : Table s r lbl
  size : sz ≤ TRAPFRAME
  mapped : ∀ u, u < 2 ^ 27 →
    (mapping s.pte r u ≠ none ↔ u * PGSIZE < sz ∨ u = userPages ∨ u = userPages + 1)
  page : ∀ u p, u < userPages → mapping s.pte r u = some p →
    managed p.pa ∧ p.pa ∉ s.freelist ∧ lbl p.pa = none
  once : ∀ u w p q, u < userPages → w < userPages → mapping s.pte r u = some p →
    mapping s.pte r w = some q → q.pa = p.pa → w = u

/-- The table does not see what others do. -/
theorem UserTable.congr {sz : Nat} (h : UserTable s r lbl sz) (ha : s'.Allocator)
    (hpte : ∀ f x, lbl f = some x → s'.pte f = s.pte f)
    (hfree : ∀ f, f ∈ s'.freelist → f ∈ s.freelist) :
    UserTable s' r lbl sz ∧ ∀ v, mapping s'.pte r v = mapping s.pte r v := by
  have hmap : ∀ v, mapping s'.pte r v = mapping s.pte r v :=
    h.table.tree.mapping_congr h.table.root fun f n hf => hpte f _ hf
  refine ⟨⟨h.table.congr ha hpte fun f hf => h.table.free f (hfree f hf), h.size, fun u hu => ?_,
    fun u p hu hp => ?_, fun u w p q hu hw hp hq he => ?_⟩, hmap⟩
  · rw [hmap]
    exact h.mapped u hu
  · rw [hmap] at hp
    obtain ⟨hm, hf, hl⟩ := h.page u p hu hp
    exact ⟨hm, fun hmem => hf (hfree _ hmem), hl⟩
  · rw [hmap] at hp hq
    exact h.once u w p q hu hw hp hq he

/-- `freewalk` touches no page but those of the table. -/
theorem Table.freewalk (h : Table s r lbl) (hno : ∀ v, v < 2 ^ 27 → mapping s.pte r v = none) :
    ∃ s', (Xv6.freewalk 3 r).run s = .ok () s' ∧ s'.proc = s.proc ∧
      ∀ g, g ∉ s.freelist → lbl g = none → s.Spares s' g := by
  obtain ⟨hhollow, hnodup, hbelow⟩ := h.below_root hno
  have hnot : ∀ {g}, lbl g = none → g ∉ below s.pte 3 r := fun hl hg => by
    obtain ⟨n, hn⟩ := (hbelow _).1 hg
    rw [hl] at hn
    cases hn
  obtain ⟨s', hrun, hfreed⟩ := freewalk_run 3 s r h.alloc hhollow ⟨hnodup, fun g hg => by
    obtain ⟨n, hn⟩ := (hbelow g).1 hg
    refine ⟨(h.own g _ hn).2, fun hfree => ?_⟩
    rw [h.free g hfree] at hn
    cases hn⟩
  have honly := freewalk_onlyFrees hrun
  refine ⟨s', hrun, honly.proc, fun g hg hl => ?_⟩
  have hfree : g ∉ s'.freelist := by
    rw [hfreed.freelist, List.mem_append, List.mem_reverse, not_or]
    exact ⟨hnot hl, hg⟩
  exact ⟨honly.mem g hfree, hfreed.pte g (hnot hl) nofun, fun hmem => absurd hmem hfree⟩

/-- `proc_freepagetable` gives the memory back, and touches no other page. -/
theorem UserTable.proc_freepagetable {sz : Nat} (h : UserTable s r lbl sz) (ka : Kalloc)
    (t : Slot) :
    ∃ s', (Xv6.proc_freepagetable ka t r sz).run s = .ok () s' ∧ s'.proc = s.proc ∧
      ∀ g, g ∉ s.freelist → lbl g = none →
        (∀ u p, u < userPages → mapping s.pte r u = some p → p.pa ≠ g) → s.Spares s' g := by
  have hpages : userPages + 1 < 2 ^ 26 := by decide
  have hframe : TRAPFRAME = userPages * PGSIZE := rfl
  have hsize := h.size
  obtain ⟨n, hn⟩ : ∃ n, n = PGROUNDUP sz / PGSIZE := ⟨_, rfl⟩
  have hcover : ∀ u, u < n ↔ u * PGSIZE < sz := fun u => by
    have hp : userPages = 67108862 := rfl
    rw [hn]
    unfold PGROUNDUP PGSIZE at *
    omega
  have hnle : n ≤ userPages := by
    by_contra hlt
    have := (hcover userPages).1 (by omega)
    omega
  -- the trampoline and the trapframe are unmapped
  have hno : ∀ {P : Prop}, false = true → P := fun he => absurd he Bool.false_ne_true
  obtain ⟨s₁, hrun₁, hT₁, hmap₁, hproc₁, hspare₁⟩ := h.table.uvmunmapLoop ka t
    (n := 1) (v := userPages + 1) (by omega) (fun i hi => by
      obtain rfl : i = 0 := by omega
      exact (h.mapped _ (by omega)).2 (.inr (.inr rfl))) hno
  obtain ⟨s₂, hrun₂, hT₂, hmap₂, hproc₂, hspare₂⟩ := hT₁.uvmunmapLoop ka t
    (n := 1) (v := userPages) (by omega) (fun i hi => by
      obtain rfl : i = 0 := by omega
      rw [hmap₁ _ (by omega), PageMap.set, if_neg (by omega)]
      exact (h.mapped _ (by omega)).2 (.inr (.inl rfl))) hno
  have hold : ∀ u, u < userPages → mapping s₂.pte r u = mapping s.pte r u := fun u hu => by
    rw [hmap₂ u (by omega), PageMap.set, if_neg (by omega), hmap₁ u (by omega), PageMap.set,
      if_neg (by omega)]
  have hspare : ∀ g, lbl g = none → s.Spares s₂ g := fun g hg =>
    (hspare₁ g hg hno).trans (hspare₂ g hg hno)
  -- the pages of memory go
  have hfrees : s₂.Frees r 0 n := by
    intro i hi p hp
    rw [Nat.zero_add, hold i (by omega)] at hp
    obtain ⟨hm, hfree, hl⟩ := h.page i p (by omega) hp
    refine ⟨hm, fun hmem => hfree ((hspare _ hl).free hmem), hT₂.not_reached.1 hl,
      fun j hj q hq he => ?_⟩
    rw [Nat.zero_add, hold j (by omega)] at hq
    exact h.once i j p q (by omega) (by omega) hp hq he
  obtain ⟨s₃, hrun₃, hT₃, hmap₃, hproc₃, hspare₃⟩ := hT₂.uvmunmapLoop ka t
    (n := n) (v := 0) (by omega) (fun i hi => by
      rw [Nat.zero_add, hold i (by omega)]
      exact (h.mapped _ (by omega)).2 (.inl ((hcover i).1 hi))) fun (_ : true = true) => hfrees
  have hT₄ : Table { s₃ with upts := s₃.upts.erase r } r lbl :=
    hT₃.congr (hT₃.alloc.congr rfl rfl rfl) (fun _ _ _ => rfl) hT₃.free
  obtain ⟨s', hrun, hproc, hspare'⟩ := hT₄.freewalk fun u hu => by
    show mapping s₃.pte r u = none
    rw [hmap₃ u hu, PageMap.set]
    split
    · rfl
    next hge =>
      rw [hmap₂ u hu, PageMap.set]
      split
      · rfl
      next hne =>
        rw [hmap₁ u hu, PageMap.set]
        split
        · rfl
        next hne' =>
          by_contra hsome
          rcases (h.mapped u hu).1 hsome with hlt | he | he
          · exact hge ⟨by omega, by have := (hcover u).2 hlt; omega⟩
          · exact hne (by omega)
          · exact hne' (by omega)
  refine ⟨s', ?_, hproc.trans (hproc₃.trans (hproc₂.trans hproc₁)), fun g hg hl hne => ?_⟩
  · have htramp : ¬ TRAMPOLINE % PGSIZE ≠ 0 := by decide
    have htrap : ¬ TRAPFRAME % PGSIZE ≠ 0 := by decide
    have hzero : ¬ 0 % PGSIZE ≠ 0 := by decide
    rw [← TRAMPOLINE_eq] at hrun₁
    rw [← TRAPFRAME_eq] at hrun₂
    rw [Nat.zero_mul] at hrun₃
    have hmem : (if sz > 0 then uvmunmap ka t r 0 (PGROUNDUP sz / PGSIZE) true
        else pure ()).run s₂ = .ok () s₃ := by
      rw [← hn]
      split
      · rw [uvmunmap, if_neg hzero, hrun₃]
      next hle =>
        obtain rfl : n = 0 := by
          by_contra hne
          have := (hcover 0).1 (by omega)
          omega
        exact hrun₃
    simp only [Xv6.proc_freepagetable, uvmunmap, if_neg htramp, if_neg htrap, run_bind, hrun₁,
      hrun₂, uvmfree]
    simp only [uvmunmap] at hmem
    rw [hmem]
    simp only [run_modify]
    exact hrun
  · have hs₃ := (hspare g hl).trans (hspare₃ g hl fun _ i hi p hp => by
      rw [Nat.zero_add, hold i (by omega)] at hp
      exact hne i p (by omega) hp)
    have hs' := hspare' g (fun hmem => hg (hs₃.free hmem)) hl
    exact hs₃.trans ⟨hs'.mem, hs'.pte, hs'.free⟩

theorem uvmunmapLoop_proc {do_free : Bool} {n a : Nat}
    (hr : (uvmunmapLoop ka t r do_free n a).run s = .ok () s') : s'.proc = s.proc := by
  induction n generalizing s a with
  | zero =>
    obtain ⟨-, rfl⟩ := Outcome.ok.inj hr
    rfl
  | succ n ih =>
    unfold uvmunmapLoop at hr
    rw [run_bind, mark, run_modify] at hr
    dsimp only at hr
    by_cases ha : a < MAXVA
    · rw [run_bind, walk_run ha] at hr
      dsimp only at hr
      split at hr
      · cases hr
      · rw [run_bind, readPte, run_read] at hr
        dsimp only at hr
        split at hr
        · cases hr
        split at hr
        · cases hr
        obtain ⟨_, s₁, hdrop, hr⟩ := bind_run_ok hr
        rw [writePte, run_bind, run_modify] at hr
        dsimp only at hr
        rw [mark, run_bind, run_modify] at hr
        have hproc₁ : s₁.proc = s.proc := by
          split at hdrop
          · rw [kref_dec_run] at hdrop
            split at hdrop
            · exact (kfree_onlyFrees hdrop).proc
            · obtain ⟨-, rfl⟩ := Outcome.ok.inj hdrop
              rfl
          · obtain ⟨-, rfl⟩ := Outcome.ok.inj hdrop
            rfl
        exact (ih hr).trans hproc₁
    · rw [run_bind, walk, if_pos (by omega)] at hr
      cases hr

theorem uvmunmap_proc {do_free : Bool} {n a : Nat}
    (hr : (uvmunmap ka t r a n do_free).run s = .ok () s') : s'.proc = s.proc := by
  unfold uvmunmap at hr
  split at hr
  · cases hr
  · exact uvmunmapLoop_proc hr

theorem proc_freepagetable_proc {sz : Nat}
    (hr : (proc_freepagetable ka t r sz).run s = .ok () s') : s'.proc = s.proc := by
  obtain ⟨_, s₁, hr₁, hr⟩ := bind_run_ok hr
  obtain ⟨_, s₂, hr₂, hr⟩ := bind_run_ok hr
  obtain ⟨_, s₃, hr₃, hr⟩ := bind_run_ok hr
  rw [run_bind, run_modify] at hr
  have hproc₃ : s₃.proc = s₂.proc := by
    split at hr₃
    · exact uvmunmap_proc hr₃
    · obtain ⟨-, rfl⟩ := Outcome.ok.inj hr₃
      rfl
  exact (freewalk_onlyFrees hr).proc.trans
    (hproc₃.trans ((uvmunmap_proc hr₂).trans (uvmunmap_proc hr₁)))

/-! ## A process in a system call -/

/-- Process `t` in a system call: its table, and its trapframe, which is no
page of user memory. -/
structure Kernel.InCall (s : Kernel) (t : Slot) (r tf : Frame)
    (lbl : Frame → Option (Frame × Node)) : Prop where
  pagetable : (s.proc t).pagetable = some r
  trapframe : (s.proc t).trapframe = some tf
  user : UserTable s r lbl (s.proc t).sz
  taken : tf ∉ s.freelist
  node : lbl tf = none
  page : ∀ u p, u < userPages → mapping s.pte r u = some p → p.pa ≠ tf

theorem Kernel.InCall.congr {old tf : Frame} (h : s.InCall t old tf lbl) (ha : s'.Allocator)
    (hext : s.Extends s' (fun _ => none) lbl') : s'.InCall t old tf lbl := by
  obtain ⟨hU, hmap⟩ := h.user.congr ha (fun f x hf => hext.pte f (fun hmem => by
    rw [h.user.table.free f hmem] at hf
    cases hf) rfl) hext.free
  refine ⟨by rw [hext.proc]; exact h.pagetable, by rw [hext.proc]; exact h.trapframe,
    by rw [hext.proc]; exact hU, fun hmem => h.taken (hext.free tf hmem), h.node,
    fun u p hu hp => ?_⟩
  rw [hmap] at hp
  exact h.page u p hu hp

/-- The table grows from `sz` to `newsz` bytes. -/
theorem UserTable.uvmallocLoop {sz : Nat} (h : UserTable s r lbl sz) {n v newsz oldsz : Nat}
    {xperm : Flags} {res : Option Unit} (hv : PGROUNDUP sz = v * PGSIZE) (hle : sz ≤ newsz)
    (hnew : newsz ≤ TRAPFRAME) (hn : n = (newsz - v * PGSIZE + PGSIZE - 1) / PGSIZE)
    (hr : (Xv6.uvmallocLoop kalloc t r oldsz xperm n (v * PGSIZE)).run s = .ok res s') :
    ∃ lbl', UserTable s' r lbl' newsz ∧ s.Extends s' lbl lbl' ∧
      ∀ u p, u < userPages → mapping s'.pte r u = some p →
        p.pa ∈ s.freelist ∨ mapping s.pte r u = some p := by
  obtain ⟨-, -, -, lbl', g, hT, hext, hfresh, hnode, hmap⟩ := h.table.uvmallocLoop hr
  have hframe : TRAPFRAME = userPages * PGSIZE := rfl
  have hpages : userPages = 67108862 := rfl
  have hold : ∀ u, u * PGSIZE < sz ↔ u < v := fun u => by
    unfold PGROUNDUP at hv
    unfold PGSIZE at *
    omega
  have hall : ∀ u, u * PGSIZE < newsz ↔ u < v + n := fun u => by
    rw [hn]
    unfold PGROUNDUP at hv
    unfold PGSIZE at *
    omega
  have hcases : ∀ u p, u < userPages → mapping s'.pte r u = some p →
      (v ≤ u ∧ u < v + n ∧ p.pa = g u) ∨ mapping s.pte r u = some p := fun u p hu hp => by
    rw [hmap u (by omega)] at hp
    split at hp
    next hin =>
      obtain rfl := Option.some.inj hp
      exact .inl ⟨hin.1, hin.2, rfl⟩
    next => exact .inr hp
  refine ⟨lbl', ⟨hT, hnew, fun u hu => ?_, fun u p hu hp => ?_, fun u w p q hu hw hp hq he => ?_⟩,
    hext, fun u p hu hp => ?_⟩
  · rw [hmap u hu, hall]
    split
    next hin => exact iff_of_true nofun (.inl hin.2)
    next hout =>
      rw [h.mapped u hu, hold]
      refine or_congr_left ⟨fun hlt => by omega, fun hlt => ?_⟩
      by_contra hge
      exact hout ⟨by omega, hlt⟩
  · rcases hcases u p hu hp with ⟨hlo, hhi, hpa⟩ | hp
    · rw [hpa]
      exact ⟨h.table.alloc.managed _ (hfresh.free u hlo hhi), hfresh.taken u hlo hhi,
        hnode u hlo hhi⟩
    · obtain ⟨hm, hf, hl⟩ := h.page u p hu hp
      exact ⟨hm, fun hmem => hf (hext.free _ hmem), by rw [hext.label _ hf, hl]⟩
  · rcases hcases u p hu hp with ⟨hlo, hhi, hpa⟩ | hp
    · rcases hcases w q hw hq with ⟨hlo', hhi', hpa'⟩ | hq
      · exact hfresh.inj w u hlo' hhi' hlo hhi (by rw [← hpa, ← hpa', he])
      · refine absurd (hfresh.free u hlo hhi) ?_
        rw [← hpa, ← he]
        exact (h.page w q hw hq).2.1
    · rcases hcases w q hw hq with ⟨hlo', hhi', hpa'⟩ | hq
      · refine absurd (hfresh.free w hlo' hhi') ?_
        rw [← hpa', he]
        exact (h.page u p hu hp).2.1
      · exact h.once u w p q hu hw hp hq he
  · rcases hcases u p hu hp with ⟨hlo, hhi, hpa⟩ | hp
    · exact .inl (hpa ▸ hfresh.free u hlo hhi)
    · exact .inr hp

/-- `growproc` keeps it so. -/
theorem Kernel.InCall.growproc {tf n : Nat} {res : Int} (h : s.InCall t r tf lbl) (hn : 0 < n)
    (hsize : (s.proc t).sz + n ≤ TRAPFRAME)
    (hr : (Xv6.growproc kalloc t n).run s = .ok res s') : ∃ lbl', s'.InCall t r tf lbl' := by
  obtain ⟨sz, hsz⟩ : ∃ sz, sz = (s.proc t).sz := ⟨_, rfl⟩
  obtain ⟨v, hv⟩ : ∃ v, PGROUNDUP sz = v * PGSIZE := ⟨_, rfl⟩
  have hsum : u64 ((sz : Int) + (n : Int)) = sz + n := by
    have hmax : TRAPFRAME = 274877898752 := rfl
    unfold u64
    omega
  unfold Xv6.growproc at hr
  simp only [run_bind, run_read, h.pagetable, ← hsz] at hr
  rw [if_pos (by omega)] at hr
  obtain ⟨sz', s₁, hgrow, hr⟩ := bind_run_ok hr
  rw [hsum, uvmalloc, if_neg (by omega)] at hgrow
  dsimp only at hgrow
  rw [hv] at hgrow
  obtain ⟨res₁, s₂, hloop, hend⟩ := bind_run_ok hgrow
  have hU : UserTable s r lbl sz := hsz ▸ h.user
  obtain ⟨lbl', hU', hext, hcases⟩ := hU.uvmallocLoop hv (by omega) (hsz ▸ hsize) rfl hloop
  obtain ⟨rfl, -⟩ := h.user.table.uvmallocLoop hloop
  obtain ⟨rfl, rfl⟩ := Outcome.ok.inj hend
  rw [if_neg (by omega)] at hr
  simp only [run_bind, run_modify] at hr
  obtain ⟨-, rfl⟩ := Outcome.ok.inj hr
  have hproc : (s₂.updProc t fun p => { p with sz := sz + n }).proc t =
      { s.proc t with sz := sz + n } := by
    rw [← hext.proc]
    exact Function.update_self ..
  have ha : (s₂.updProc t fun p => { p with sz := sz + n }).Allocator :=
    hU'.table.alloc.congr rfl rfl rfl
  obtain ⟨hU'', hmap⟩ := hU'.congr ha (fun _ _ _ => rfl) fun _ hf => hf
  refine ⟨lbl', by rw [hproc]; exact h.pagetable, by rw [hproc]; exact h.trapframe,
    by rw [hproc]; exact hU'', fun hmem => h.taken (hext.free tf hmem),
    (hext.label tf h.taken).trans h.node, fun u p hu hp he => ?_⟩
  rcases hcases u p hu hp with hmem | hp
  · exact h.taken (he ▸ hmem)
  · exact h.page u p hu hp he

end Xv6
