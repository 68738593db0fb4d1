/-
vm.c: a process's memory grows. `uvmalloc` with `kalloc` itself, on the page
table of a process that runs alone: the frames it maps are fresh, and what is
not on the free list stays what it is.
-/
import Xv6.Kernel.Proc
import Xv6.PageMap
import Xv6.UserCopy

namespace Xv6

open Conc Prog

/-- From `s` to `s'` pages have been taken off the free list, and no other has
been written. -/
structure Kernel.Takes (s s' : Kernel) : Prop where
  mem : ∀ f, f ∉ s.freelist → s'.mem f = s.mem f
  free : ∀ f, f ∈ s'.freelist → f ∈ s.freelist
  proc : s'.proc = s.proc
  file : s'.file = s.file

variable {s s' s'' : Kernel} {r f : Frame} {t : Slot}

theorem Kernel.Takes.refl (s : Kernel) : s.Takes s :=
  ⟨fun _ _ => rfl, fun _ hf => hf, rfl, rfl⟩

theorem Kernel.Takes.trans (h : s.Takes s') (h' : s'.Takes s'') : s.Takes s'' := by
  refine ⟨fun f hf => ?_, fun f hf => h.free f (h'.free f hf), h'.proc.trans h.proc,
    h'.file.trans h.file⟩
  exact (h'.mem f fun hm => hf (h.free f hm)).trans (h.mem f hf)

/-- A page is taken and filled with 0. -/
theorem Kernel.Takes.alloc {rest : List Frame} (hf : s.freelist = f :: rest) :
    s.Takes ((s.alloc f rest).fill f 0) := by
  refine ⟨fun g hg => ?_, fun g hg => ?_, rfl, rfl⟩
  · have hne : g ≠ f := by
      rintro rfl
      exact hg (by rw [hf]; exact List.mem_cons_self)
    exact (Function.update_of_ne hne ..).trans (Function.update_of_ne hne ..)
  · rw [hf]
    exact List.mem_cons_of_mem f hg

variable [KernelImage]

theorem walkLevel_takes {va level : Nat} {res : Option PtePtr} (ha : s.Allocator)
    (hr : (walkLevel kalloc va true level r).run s = .ok res s') : s.Takes s' ∧ s'.Allocator := by
  induction level generalizing s r with
  | zero =>
    obtain ⟨-, rfl⟩ := Outcome.ok.inj hr
    exact ⟨.refl s, ha⟩
  | succ level ih =>
    simp only [walkLevel, readPte, run_bind, run_read] at hr
    split at hr
    next => exact ih ha hr
    next =>
      simp only [not_true_eq_false, if_false] at hr
      obtain ⟨p, s₁, hk, hr⟩ := bind_run_ok hr
      obtain ⟨f, rest, hf, rfl, rfl⟩ := ha.kalloc_ok hk
      simp only [run_bind, memset, writePte, run_modify] at hr
      obtain ⟨htakes, ha'⟩ := ih (by exact (ha.kalloc hf).2.congr rfl rfl rfl) hr
      exact ⟨(Kernel.Takes.alloc hf).trans ⟨htakes.mem, htakes.free, htakes.proc, htakes.file⟩, ha'⟩

theorem mappagesLoop_takes {perm : Flags} {n a : Nat} {pa : Frame} {res : Int} (ha : s.Allocator)
    (hr : (mappagesLoop kalloc r perm n a pa).run s = .ok res s') :
    s.Takes s' ∧ s'.Allocator := by
  induction n generalizing s a pa with
  | zero =>
    unfold mappagesLoop walk at hr
    obtain ⟨p, s₁, hw, hr⟩ := bind_run_ok hr
    split at hw
    next => cases hw
    next =>
      obtain ⟨htakes, ha₁⟩ := walkLevel_takes ha hw
      cases p with
      | none =>
        obtain ⟨-, rfl⟩ := Outcome.ok.inj hr
        exact ⟨htakes, ha₁⟩
      | some ptr =>
        simp only [readPte, run_bind, run_read] at hr
        split at hr
        next => cases hr
        next =>
          obtain ⟨-, rfl⟩ := Outcome.ok.inj hr
          exact ⟨⟨htakes.mem, htakes.free, htakes.proc, htakes.file⟩, ha₁.congr rfl rfl rfl⟩
  | succ n ih =>
    unfold mappagesLoop walk at hr
    obtain ⟨p, s₁, hw, hr⟩ := bind_run_ok hr
    split at hw
    next => cases hw
    next =>
      obtain ⟨htakes, ha₁⟩ := walkLevel_takes ha hw
      cases p with
      | none =>
        obtain ⟨-, rfl⟩ := Outcome.ok.inj hr
        exact ⟨htakes, ha₁⟩
      | some ptr =>
        simp only [readPte, run_bind, run_read] at hr
        split at hr
        next => cases hr
        next =>
          simp only [writePte, run_bind, run_modify] at hr
          obtain ⟨htakes', ha'⟩ := ih (by exact ha₁.congr rfl rfl rfl) hr
          exact ⟨htakes.trans ⟨htakes'.mem, htakes'.free, htakes'.proc, htakes'.file⟩, ha'⟩

variable {lbl : Frame → Option (Frame × Node)}

/-- A fresh page that is not for the table. -/
theorem Table.kalloc (h : Table s r lbl) {f : Frame} {rest : List Frame}
    (hf : s.freelist = f :: rest) : Table ((s.alloc f rest).fill f 0) r lbl ∧
      ∀ v, mapping ((s.alloc f rest).fill f 0).pte r v = mapping s.pte r v := by
  have hpte : ∀ f' x, lbl f' = some x → ((s.alloc f rest).fill f 0).pte f' = s.pte f' :=
    fun f' x hx => by
      have hne : f' ≠ f := by
        rintro rfl
        rw [h.free f' (by rw [hf]; exact List.mem_cons_self)] at hx
        cases hx
      exact (Function.update_of_ne hne ..).trans (Function.update_of_ne hne ..)
  refine ⟨h.congr ((h.alloc.kalloc hf).2.congr rfl rfl rfl) hpte fun f' hf' => ?_,
    h.tree.mapping_congr h.root fun f' n hx => hpte f' _ hx⟩
  exact h.free f' (by rw [hf]; exact List.mem_cons_of_mem _ hf')

omit [KernelImage] in
theorem Kernel.Extends.kalloc (lbl : Frame → Option (Frame × Node)) {f : Frame}
    {rest : List Frame} (hf : s.freelist = f :: rest) :
    s.Extends ((s.alloc f rest).fill f 0) lbl lbl := by
  refine ⟨fun g hg => ?_, fun _ _ => rfl, fun g hg _ => ?_, rfl⟩
  · rw [hf]
    exact List.mem_cons_of_mem f hg
  · have hne : g ≠ f := fun he => hg (by rw [he, hf]; exact List.mem_cons_self)
    exact (Function.update_of_ne hne ..).trans (Function.update_of_ne hne ..)

/-- `mappages` of one page, which `walk` has found below `MAXVA`. -/
theorem Table.mapOne (h : Table s r lbl) {v : Nat} {pa : Frame} {perm : Flags} {res : Int}
    (hperm : (perm.R || perm.W || perm.X) = true)
    (hr : (Xv6.mappages Xv6.kalloc r (v * PGSIZE) PGSIZE pa perm).run s = .ok res s') :
    v < 2 ^ 26 ∧ res = 0 ∧ s.Takes s' ∧ ∃ lbl', Table s' r lbl' ∧ s.Extends s' lbl lbl' ∧
      ∀ u, u < 2 ^ 27 → mapping s'.pte r u =
        if u = v then some { perm with V := true, pa := pa } else mapping s.pte r u := by
  have hmax : MAXVA = 2 ^ 26 * PGSIZE := rfl
  have hn : (PGROUNDDOWN (v * PGSIZE + PGSIZE - 1) - PGROUNDDOWN (v * PGSIZE)) / PGSIZE = 0 := by
    unfold PGROUNDDOWN PGSIZE
    omega
  have hdown : PGROUNDDOWN (v * PGSIZE) = v * PGSIZE := by
    unfold PGROUNDDOWN PGSIZE
    omega
  rw [Xv6.mappages, if_neg (by decide)] at hr
  dsimp only at hr
  rw [hn, hdown] at hr
  have hv : v < 2 ^ 26 := by
    by_contra hge
    rw [Xv6.mappagesLoop, run_bind, walk, if_pos (by unfold PGSIZE at *; omega)] at hr
    cases hr
  obtain ⟨hres, lbl', hT, hext, hmap⟩ := h.mappagesLoop (by omega) hperm hr
  refine ⟨hv, hres, (mappagesLoop_takes h.alloc hr).1, lbl', hT, hext, fun u hu => ?_⟩
  rw [hmap u hu, PageMap.set]
  by_cases huv : u = v
  · rw [if_pos (by omega), if_pos huv, show u - v = 0 by omega]
    rfl
  · rw [if_neg (by omega), if_neg huv]

/-- The frames `g` of `n` pages from `v` on were free, are not any more, and
differ from page to page. -/
structure Kernel.Fresh (s s' : Kernel) (v n : Nat) (g : Nat → Frame) : Prop where
  free : ∀ u, v ≤ u → u < v + n → g u ∈ s.freelist
  taken : ∀ u, v ≤ u → u < v + n → g u ∉ s'.freelist
  inj : ∀ u w, v ≤ u → u < v + n → v ≤ w → w < v + n → g u = g w → u = w

theorem Table.uvmallocLoop (h : Table s r lbl) {n v oldsz : Nat} {xperm : Flags}
    {res : Option Unit}
    (hr : (Xv6.uvmallocLoop Xv6.kalloc t r oldsz xperm n (v * PGSIZE)).run s = .ok res s') :
    res = some () ∧ (0 < n → v + n ≤ 2 ^ 26) ∧ s.Takes s' ∧ ∃ lbl' g, Table s' r lbl' ∧
      s.Extends s' lbl lbl' ∧ s.Fresh s' v n g ∧
      (∀ u, v ≤ u → u < v + n → lbl' (g u) = none) ∧ ∀ u, u < 2 ^ 27 → mapping s'.pte r u =
        if v ≤ u ∧ u < v + n then some { xperm with V := true, R := true, U := true, pa := g u }
        else mapping s.pte r u := by
  induction n generalizing s v lbl with
  | zero =>
    obtain ⟨rfl, rfl⟩ := Outcome.ok.inj hr
    refine ⟨rfl, by omega, .refl s, lbl, fun _ => 0, h, .refl s lbl, ⟨?_, ?_, ?_⟩, ?_,
      fun u _ => ?_⟩
    · intro u hu hlt
      omega
    · intro u hu hlt
      omega
    · intro u w hu hlt
      omega
    · intro u hu hlt
      omega
    · rw [if_neg (by omega)]
  | succ n ih =>
    unfold Xv6.uvmallocLoop at hr
    obtain ⟨_, s₀, hmark, hr⟩ := bind_run_ok hr
    rw [page_div] at hmark
    obtain ⟨-, rfl⟩ := Outcome.ok.inj hmark
    have hT₀ : Table (s.setBusy t (some (r, v))) r lbl :=
      h.congr (h.alloc.congr rfl rfl rfl) (fun _ _ _ => rfl) h.free
    obtain ⟨p, s₁, hk, hr⟩ := bind_run_ok hr
    obtain ⟨f, rest, hf, rfl, rfl⟩ := hT₀.alloc.kalloc_ok hk
    obtain ⟨hT₁, hmap₁⟩ := hT₀.kalloc hf
    have hext₁ := Kernel.Extends.kalloc lbl hf
    have htakes₁ := Kernel.Takes.alloc hf
    obtain ⟨_, s₁, hset, hr⟩ := bind_run_ok hr
    obtain ⟨-, rfl⟩ := Outcome.ok.inj hset
    obtain ⟨x, s₂, hm, hr⟩ := bind_run_ok hr
    obtain ⟨hv, rfl, htakes₂, lbl₂, hT₂, hext₂, hmap₂⟩ := hT₁.mapOne rfl hm
    simp only [ne_eq, not_true_eq_false, if_false, run_bind] at hr
    rw [← Nat.succ_mul] at hr
    have hT₃ : Table (s₂.setBusy t none) r lbl₂ :=
      hT₂.congr (hT₂.alloc.congr rfl rfl rfl) (fun _ _ _ => rfl) hT₂.free
    obtain ⟨hres, hle, htakes₃, lbl', g, hT', hext₃, hfresh, hnode, hmap'⟩ := ih hT₃ hr
    have hext₂' := hext₁.trans hext₂
    have hext : s.Extends s₂ lbl lbl₂ := ⟨hext₂'.free, hext₂'.label, hext₂'.pte, hext₂'.proc⟩
    have htakes : s.Takes s₂ := by
      have h₁₂ := htakes₁.trans htakes₂
      exact ⟨h₁₂.mem, h₁₂.free, h₁₂.proc, h₁₂.file⟩
    have hff : f ∈ s.freelist := by
      rw [show s.freelist = f :: rest from hf]
      exact List.mem_cons_self
    have hnot : f ∉ s₂.freelist := by
      intro hmem
      have hnodup : (f :: rest).Nodup := hf ▸ hT₀.alloc.nodup
      exact (List.nodup_cons.1 hnodup).1 (htakes₂.free f hmem)
    refine ⟨hres, fun _ => by omega, htakes.trans ⟨htakes₃.mem, htakes₃.free, htakes₃.proc, htakes₃.file⟩, lbl',
      Function.update g v f, hT', hext.trans ⟨hext₃.free, hext₃.label, hext₃.pte, hext₃.proc⟩,
      ⟨?_, ?_, ?_⟩, ?_, fun u hu => ?_⟩
    · intro u hu hlt
      by_cases huv : u = v
      · rwa [huv, Function.update_self]
      · rw [Function.update_of_ne huv]
        exact htakes.free _ (hfresh.free u (by omega) (by omega))
    · intro u hu hlt
      by_cases huv : u = v
      · rw [huv, Function.update_self]
        exact fun hmem => hnot (htakes₃.free f hmem)
      · rw [Function.update_of_ne huv]
        exact hfresh.taken u (by omega) (by omega)
    · -- the later frames are free when this one no longer is
      have hne : ∀ w, v + 1 ≤ w → w < v + 1 + n → f ≠ g w := by
        rintro w hw hlt rfl
        exact hnot (hfresh.free w hw hlt)
      intro u w hu hltu hw hltw heq
      by_cases huv : u = v
      · by_cases hwv : w = v
        · rw [huv, hwv]
        · rw [huv, Function.update_self, Function.update_of_ne hwv] at heq
          exact absurd heq (hne w (by omega) (by omega))
      · by_cases hwv : w = v
        · rw [hwv, Function.update_self, Function.update_of_ne huv] at heq
          exact absurd heq.symm (hne u (by omega) (by omega))
        · rw [Function.update_of_ne huv, Function.update_of_ne hwv] at heq
          exact hfresh.inj u w (by omega) (by omega) (by omega) (by omega) heq
    · intro u hu hlt
      by_cases huv : u = v
      · have hrest : f ∉ rest := (List.nodup_cons.1 (hf ▸ hT₀.alloc.nodup)).1
        rw [huv, Function.update_self, hext₃.label f hnot, hext₂.label f hrest]
        exact h.free f hff
      · rw [Function.update_of_ne huv]
        exact hnode u (by omega) (by omega)
    · have hold : mapping (s₂.setBusy t none).pte r u = if u = v then
          some { xperm with V := true, R := true, U := true, pa := f }
          else mapping s.pte r u := (hmap₂ u hu).trans (by rw [hmap₁ u]; rfl)
      rw [hmap' u hu, hold]
      by_cases huv : u = v
      · rw [if_neg (by omega), if_pos huv, if_pos (by omega), huv, Function.update_self]
      · rw [Function.update_of_ne huv]
        by_cases hin : v + 1 ≤ u ∧ u < v + 1 + n
        · rw [if_pos hin, if_pos (by omega)]
        · rw [if_neg hin, if_neg huv, if_neg (by omega)]

/-! ## growproc -/

/-- Process `t` between its system calls: its user frames are not free, and
no two of its pages are one frame. -/
structure Kernel.Caller (s : Kernel) (t : Slot) (r : Frame)
    (lbl : Frame → Option (Frame × Node)) : Prop where
  pagetable : (s.proc t).pagetable = some r
  table : Table s r lbl
  size : (s.proc t).sz ≤ MAXVA
  held : ∀ v f, v < MAXVA / PGSIZE → s.userPage r v = some f → f ∉ s.freelist
  unshared : s.Unshared r

/-- `growproc` has added `n` bytes to the process, in fresh frames. -/
structure Kernel.Grown (s s' : Kernel) (t : Slot) (r : Frame) (n : Nat) : Prop where
  proc : s'.proc = Function.update s.proc t { s.proc t with sz := (s.proc t).sz + n }
  below : ∀ x, x < (s.proc t).sz → s'.userByte r x = s.userByte r x
  page : ∀ x, x < PGROUNDUP (s.proc t).sz → s'.pageOf r x = s.pageOf r x
  mapped : ∀ x, PGROUNDUP (s.proc t).sz ≤ x → x < (s.proc t).sz + n → s'.userByte r x ≠ none

omit [KernelImage] in
theorem le_PGROUNDUP {sz : Nat} (h : sz ≤ MAXVA) :
    sz ≤ PGROUNDUP sz ∧ PGROUNDUP sz < sz + PGSIZE := by
  unfold PGROUNDUP MAXVA PGSIZE at *
  omega

omit [KernelImage] in
theorem userByte_congr {x : Nat} (hpage : s'.userPage r (x / PGSIZE) = s.userPage r (x / PGSIZE))
    (hmem : ∀ f, s.userPage r (x / PGSIZE) = some f → s'.mem f = s.mem f) :
    s'.userByte r x = s.userByte r x := by
  unfold Kernel.userByte
  split
  next =>
    rw [hpage]
    cases hf : s.userPage r (x / PGSIZE) with
    | none => rfl
    | some f => rw [Option.map_some, Option.map_some, hmem f hf]
  next => rfl

omit [KernelImage] in
/-- A user page of the grown table is an old one or one of the new frames. -/
theorem userPage_grown {v n : Nat} {g : Nat → Frame} {xperm : Flags}
    (hmap : ∀ u, u < 2 ^ 27 → mapping s'.pte r u =
      if v ≤ u ∧ u < v + n then some { xperm with V := true, R := true, U := true, pa := g u }
      else mapping s.pte r u) {u : Nat} (hu : u < MAXVA / PGSIZE) :
    s'.userPage r u = if v ≤ u ∧ u < v + n then some (g u) else s.userPage r u := by
  have hmax : MAXVA / PGSIZE = 2 ^ 26 := rfl
  rw [Kernel.userPage, hmap u (by omega)]
  split
  next => rfl
  next => rfl

theorem Kernel.Caller.growproc (h : s.Caller t r lbl) {n : Nat} {res : Int} (hn : 0 < n)
    (hlt : n < 2 ^ 32) (hr : (Xv6.growproc Xv6.kalloc t n).run s = .ok res s') :
    res = 0 ∧ s.Grown s' t r n ∧ s'.file = s.file ∧ ∃ lbl', s'.Caller t r lbl' := by
  have hmax : MAXVA = 2 ^ 26 * PGSIZE := rfl
  have hpages : MAXVA / PGSIZE = 2 ^ 26 := rfl
  have hsize := h.size
  obtain ⟨sz, hsz⟩ : ∃ sz, sz = (s.proc t).sz := ⟨_, rfl⟩
  obtain ⟨v, hv⟩ : ∃ v, PGROUNDUP sz = v * PGSIZE := ⟨_, rfl⟩
  obtain ⟨hup, hup'⟩ := le_PGROUNDUP (hsz ▸ hsize)
  have hsum : u64 ((sz : Int) + (n : Int)) = sz + n := by
    unfold u64 PGSIZE at *
    omega
  rw [← hsz] at hsize
  unfold Xv6.growproc at hr
  simp only [run_bind, run_read, h.pagetable, ← hsz] at hr
  rw [if_pos (by omega)] at hr
  obtain ⟨sz', s₁, hgrow, hr⟩ := bind_run_ok hr
  rw [hsum, uvmalloc, if_neg (by omega)] at hgrow
  dsimp only at hgrow
  rw [hv] at hgrow
  obtain ⟨res₁, s₂, hloop, hend⟩ := bind_run_ok hgrow
  obtain ⟨rfl, hle, htakes, lbl', g, hT, -, hfresh, -, hmap⟩ := h.table.uvmallocLoop hloop
  obtain ⟨rfl, rfl⟩ := Outcome.ok.inj hend
  rw [if_neg (by omega)] at hr
  simp only [run_bind, run_modify] at hr
  obtain ⟨rfl, rfl⟩ := Outcome.ok.inj hr
  obtain ⟨k, hk⟩ : ∃ k, k = (sz + n - v * PGSIZE + PGSIZE - 1) / PGSIZE := ⟨_, rfl⟩
  rw [← hk] at hle hfresh hmap
  have hproc : s₂.proc = s.proc := htakes.proc
  have hnew : (s₂.updProc t fun p => { p with sz := sz + n }).proc =
      Function.update s.proc t { s.proc t with sz := (s.proc t).sz + n } := by
    show Function.update s₂.proc t { s₂.proc t with sz := sz + n } = _
    rw [hproc, hsz]
  have hcover : v * PGSIZE < sz + n → sz + n ≤ (v + k) * PGSIZE := by
    unfold PGSIZE at *
    omega
  refine ⟨rfl, ⟨hnew, fun x hx => ?_, fun x hx => ?_, fun x hx hlt' => ?_⟩, htakes.file, lbl',
    ⟨?_, ?_, ?_, ?_, ?_⟩⟩
  · -- an old page is below the new ones, and its frame was not free
    rw [← hsz] at hx
    have hu : x / PGSIZE < MAXVA / PGSIZE := by
      unfold PGSIZE at *
      omega
    have hold : x / PGSIZE < v := by
      unfold PGSIZE at *
      omega
    refine userByte_congr ?_ fun f hf => htakes.mem f (h.held _ f hu hf)
    refine (userPage_grown hmap hu).trans ?_
    rw [if_neg (by omega)]
  · rw [← hsz, hv] at hx
    have hu : x / PGSIZE < MAXVA / PGSIZE := by
      unfold PGSIZE at *
      omega
    have hold : x / PGSIZE < v := by
      unfold PGSIZE at *
      omega
    show s₂.pageOf r x = s.pageOf r x
    rw [Kernel.pageOf, Kernel.pageOf, userPage_grown hmap hu,
      if_neg (by omega : ¬ (v ≤ x / PGSIZE ∧ _))]
  · rw [← hsz] at hx hlt'
    rw [hv] at hx
    have hin : v ≤ x / PGSIZE ∧ x / PGSIZE < v + k := by
      unfold PGSIZE at *
      omega
    have hu : x / PGSIZE < MAXVA / PGSIZE := by
      have := hle (by omega)
      omega
    show Kernel.userByte s₂ r x ≠ none
    have hxlt : x < MAXVA := by
      unfold PGSIZE at *
      omega
    rw [Kernel.userByte, if_pos hxlt, userPage_grown hmap hu, if_pos hin]
    simp
  · show (Function.update s₂.proc t _ t).pagetable = some r
    rw [Function.update_self, hproc]
    exact h.pagetable
  · exact hT.congr (hT.alloc.congr rfl rfl rfl) (fun _ _ _ => rfl) hT.free
  · show (Function.update s₂.proc t _ t).sz ≤ MAXVA
    rw [Function.update_self]
    show sz + n ≤ MAXVA
    by_cases hk0 : 0 < k
    · have := hle hk0
      have hmul : (v + k) * PGSIZE ≤ 2 ^ 26 * PGSIZE := Nat.mul_le_mul_right _ this
      by_cases hin : v * PGSIZE < sz + n
      · have := hcover hin
        omega
      · unfold PGSIZE at *
        omega
    · unfold PGSIZE at *
      omega
  · intro u f hu hf hmem
    have hf : s₂.userPage r u = some f := hf
    rw [userPage_grown hmap hu] at hf
    split at hf
    next hin =>
      obtain rfl := Option.some.inj hf
      exact hfresh.taken u hin.1 hin.2 hmem
    next => exact h.held u f hu hf (htakes.free f hmem)
  · intro u w f hu hw hfu hfw
    have hfu : s₂.userPage r u = some f := hfu
    have hfw : s₂.userPage r w = some f := hfw
    rw [userPage_grown hmap hu] at hfu
    rw [userPage_grown hmap hw] at hfw
    split at hfu
    next hin =>
      obtain rfl := Option.some.inj hfu
      split at hfw
      next hin' =>
        exact hfresh.inj u w hin.1 hin.2 hin'.1 hin'.2 (Option.some.inj hfw).symm
      next => exact absurd (hfresh.free u hin.1 hin.2) (h.held w _ hw hfw)
    next =>
      split at hfw
      next hin' =>
        obtain rfl := Option.some.inj hfw
        exact absurd (hfresh.free w hin'.1 hin'.2) (h.held u _ hu hfu)
      next => exact h.unshared u w f hu hw hfu hfw

end Xv6
