/-
vm.c with an allocator that may return 0 at any call.

`Lends` compares a state with one in which nothing has been taken: some pages
are out, one slot of the process table is being worked on, and all else is the
same. `Builds` says that the pages are those of a page table under
construction, and others; what fails on the way leaves it so, and `freewalk`
gives the pages of the table back.
-/
import Xv6.FreeWalk

namespace Xv6

open Conc Prog

variable [KernelImage]

/-- What the comment of `kalloc` promises: a page, or 0 at any call. -/
def Promised (ka : Kalloc) : Prop := ∀ s : Kernel, s.Allocator →
  ka.run s = .ok none { s with nulls := s.nulls + 1 } ∨
    ∃ f rest, s.freelist = f :: rest ∧ ka.run s = .ok (some f) (s.alloc f rest)

theorem kallocDoc_promised : Promised kallocDoc := by
  intro s _
  cases hf : s.freelist with
  | nil =>
    left
    simp [kallocDoc, run_bind, Kernel.pop, hf]
  | cons f rest =>
    right
    refine ⟨f, rest, rfl, ?_⟩
    simp [kallocDoc, run_bind, Kernel.pop, hf, memset, Kernel.alloc]

/-- `s` is `b` but for the pages `own`, which are free in `b`, and slot `q`. -/
structure Kernel.Lends (b s : Kernel) (q : Slot) (own : Set Frame) : Prop where
  alloc : s.Allocator
  free : ∀ f, f ∈ b.freelist ↔ f ∈ s.freelist ∨ f ∈ own
  taken : ∀ f ∈ own, f ∉ s.freelist
  one : ∀ f ∈ own, s.refcounts f = 1
  mem : ∀ f, f ∉ b.freelist → s.mem f = b.mem f
  pte : ∀ f, f ∉ b.freelist → s.pte f = b.pte f
  refcounts : ∀ f, f ∉ b.freelist → s.refcounts f = b.refcounts f
  proc : ∀ p, p ≠ q → s.proc p = b.proc p
  file : s.file = b.file

variable {b s s' : Kernel} {ka : Kalloc} {q t : Slot} {r f g tf : Frame} {own X : Set Frame}
  {lbl : Frame → Option (Frame × Node)}

namespace Kernel.Lends

theorem refl (ha : b.Allocator) (q : Slot) : b.Lends b q ∅ :=
  ⟨ha, fun f => by simp, nofun, nofun, fun _ _ => rfl, fun _ _ => rfl, fun _ _ => rfl,
    fun _ _ => rfl, rfl⟩

theorem not_own (h : b.Lends s q own) (hf : f ∉ b.freelist) : f ∉ own :=
  fun ho => hf ((h.free f).2 (.inr ho))

/-- Changes to pages that are out, and to the slot. -/
theorem update (h : b.Lends s q own) (ha : s'.Allocator) (hl : s'.freelist = s.freelist)
    (hmem : ∀ f, f ∉ own → s'.mem f = s.mem f) (hpte : ∀ f, f ∉ own → s'.pte f = s.pte f)
    (hrefs : s'.refcounts = s.refcounts) (hproc : ∀ p, p ≠ q → s'.proc p = s.proc p)
    (hfile : s'.file = s.file) : b.Lends s' q own := by
  refine ⟨ha, fun f => ?_, fun f hf => ?_, fun f hf => ?_, fun f hf => ?_, fun f hf => ?_,
    fun f hf => ?_, fun p hp => ?_, hfile.trans h.file⟩
  · rw [hl]
    exact h.free f
  · rw [hl]
    exact h.taken f hf
  · rw [hrefs]
    exact h.one f hf
  · exact (hmem f (h.not_own hf)).trans (h.mem f hf)
  · exact (hpte f (h.not_own hf)).trans (h.pte f hf)
  · rw [hrefs]
    exact h.refcounts f hf
  · exact (hproc p hp).trans (h.proc p hp)

/-- The allocator gives out one more page. -/
theorem take (h : b.Lends s q own) {rest : List Frame} (hf : s.freelist = f :: rest) :
    f ∉ own ∧ b.Lends (s.alloc f rest) q (insert f own) := by
  have hmem : f ∈ s.freelist := by
    rw [hf]
    exact List.mem_cons_self
  have hown : f ∉ own := fun ho => h.taken f ho hmem
  have hnodup := h.alloc.nodup
  rw [hf] at hnodup
  have hb : ∀ {g}, g ∉ b.freelist → g ≠ f := by
    intro g hg he
    exact hg ((h.free g).2 (.inl (he ▸ hmem)))
  refine ⟨hown, (h.alloc.kalloc hf).2, fun g => ?_, fun g hg => ?_, fun g hg => ?_, fun g hg => ?_,
    fun g hg => ?_, fun g hg => ?_, h.proc, h.file⟩
  · rw [h.free, hf, List.mem_cons, Set.mem_insert_iff]
    show _ ↔ g ∈ rest ∨ _
    tauto
  · show g ∉ rest
    rcases hg with rfl | hg
    · exact (List.nodup_cons.1 hnodup).1
    · intro hr
      refine h.taken g hg ?_
      rw [hf]
      exact List.mem_cons_of_mem _ hr
  · show Function.update s.refcounts f 1 g = 1
    rcases hg with rfl | hg
    · exact Function.update_self ..
    · have hne : g ≠ f := fun he => hown (he ▸ hg)
      rw [Function.update_of_ne hne]
      exact h.one g hg
  · exact (Function.update_of_ne (hb hg) ..).trans (h.mem g hg)
  · exact (Function.update_of_ne (hb hg) ..).trans (h.pte g hg)
  · exact (Function.update_of_ne (hb hg) ..).trans (h.refcounts g hg)

/-- `kfree` of a page that is out. -/
theorem give (h : b.Lends s q own) (hf : f ∈ own) (hm : managed f) :
    (kfree f).run s = .ok () ((s.fill f 1).push f) ∧
      b.Lends ((s.fill f 1).push f) q (own \ {f}) := by
  obtain ⟨hrun, ha⟩ := h.alloc.kfree hm (h.taken f hf)
  have hb : ∀ {g}, g ∉ b.freelist → g ≠ f := by
    intro g hg he
    exact hg ((h.free g).2 (.inr (he ▸ hf)))
  refine ⟨hrun, ha, fun g => ?_, fun g hg => ?_, fun g hg => h.one g hg.1, fun g hg => ?_,
    fun g hg => ?_, h.refcounts, h.proc, h.file⟩
  · rw [h.free, Set.mem_sdiff, Set.mem_singleton_iff]
    show _ ↔ g ∈ f :: s.freelist ∨ _
    rw [List.mem_cons]
    by_cases he : g = f
    · simp [he, hf]
    · simp [he]
  · show g ∉ f :: s.freelist
    rw [List.mem_cons, not_or]
    exact ⟨hg.2, h.taken g hg.1⟩
  · exact (Function.update_of_ne (hb hg) ..).trans (h.mem g hg)
  · exact (Function.update_of_ne (hb hg) ..).trans (h.pte g hg)

theorem updProc (h : b.Lends s q own) (f : Proc → Proc) : b.Lends (s.updProc q f) q own :=
  h.update (h.alloc.congr rfl rfl rfl) rfl (fun _ _ => rfl) (fun _ _ => rfl) rfl
    (fun _ hp => Function.update_of_ne hp ..) rfl

/-- Once every page is back, the free pages are those of before. -/
theorem freePages (h : b.Lends s q ∅) (ha : b.Allocator) :
    (∀ f, f ∈ s.freelist ↔ f ∈ b.freelist) ∧ s.FREE_PAGES = b.FREE_PAGES := by
  have hmem : ∀ f, f ∈ s.freelist ↔ f ∈ b.freelist := fun f => by
    rw [h.free]
    simp
  refine ⟨hmem, ?_⟩
  rw [h.alloc.count, ha.count]
  exact ((List.perm_ext_iff_of_nodup h.alloc.nodup ha.nodup).2 hmem).length_eq

end Kernel.Lends

/-! ## A page table under construction -/

/-- The table at `r` and the pages `X` have been taken. -/
structure Kernel.Builds (b s : Kernel) (q : Slot) (r : Frame)
    (lbl : Frame → Option (Frame × Node)) (X : Set Frame) : Prop where
  lends : b.Lends s q ({f | lbl f ≠ none} ∪ X)
  table : Table s r lbl
  other : ∀ f ∈ X, lbl f = none

namespace Kernel.Builds

theorem setBusy (h : b.Builds s q r lbl X) (t : Slot) (e : Option (Frame × Nat)) :
    b.Builds (s.setBusy t e) q r lbl X := by
  have ha : (s.setBusy t e).Allocator := h.table.alloc.congr rfl rfl rfl
  exact ⟨h.lends.update ha rfl (fun _ _ => rfl) (fun _ _ => rfl) rfl (fun _ _ => rfl) rfl,
    h.table.congr ha (fun _ _ _ => rfl) h.table.free, h.other⟩

theorem nulls (h : b.Builds s q r lbl X) (n : Nat) : b.Builds { s with nulls := n } q r lbl X := by
  have ha : ({ s with nulls := n } : Kernel).Allocator := h.table.alloc.congr rfl rfl rfl
  exact ⟨h.lends.update ha rfl (fun _ _ => rfl) (fun _ _ => rfl) rfl (fun _ _ => rfl) rfl,
    h.table.congr ha (fun _ _ _ => rfl) h.table.free, h.other⟩

theorem updProc (h : b.Builds s q r lbl X) (f : Proc → Proc) :
    b.Builds (s.updProc q f) q r lbl X :=
  ⟨h.lends.updProc f, h.table.congr (h.table.alloc.congr rfl rfl rfl) (fun _ _ _ => rfl)
    h.table.free, h.other⟩

/-- An entry of a page that is not for the table changes on both sides. -/
theorem setPte (h : b.Builds s q r lbl X) (hf : f ∉ b.freelist) (i : Nat) (p : Pte) :
    (b.setPte (f, i) p).Builds (s.setPte (f, i) p) q r lbl X ∧
      ∀ v, mapping (s.setPte (f, i) p).pte r v = mapping s.pte r v := by
  have hnot := h.lends.not_own hf
  have hkeep : ∀ f' x, lbl f' = some x → (s.setPte (f, i) p).pte f' = s.pte f' := by
    intro f' x hx
    have hne : f' ≠ f := fun he => hnot (.inl (show lbl f ≠ none by rw [← he, hx]; nofun))
    exact Function.update_of_ne hne ..
  have ha : (s.setPte (f, i) p).Allocator := h.table.alloc.congr rfl rfl rfl
  refine ⟨⟨⟨ha, h.lends.free, h.lends.taken, h.lends.one, h.lends.mem, fun g hg => ?_,
    h.lends.refcounts, h.lends.proc, h.lends.file⟩, h.table.congr ha hkeep h.table.free, h.other⟩,
    h.table.tree.mapping_congr h.table.root fun f' n hx => hkeep f' _ hx⟩
  show Function.update s.pte f _ g = Function.update b.pte f _ g
  dsimp only
  rw [h.lends.pte f hf]
  by_cases he : g = f
  · rw [he, Function.update_self, Function.update_self]
  · rw [Function.update_of_ne he, Function.update_of_ne he]
    exact h.lends.pte g hg

/-- And so does a count. -/
theorem setRef (h : b.Builds s q r lbl X) (hf : f ∉ b.freelist) (n : Nat) :
    (b.setRef f n).Builds (s.setRef f n) q r lbl X := by
  have hnot := h.lends.not_own hf
  have ha : (s.setRef f n).Allocator := h.table.alloc.congr rfl rfl rfl
  refine ⟨⟨ha, h.lends.free, h.lends.taken, fun g hg => ?_, h.lends.mem, h.lends.pte, fun g hg => ?_,
    h.lends.proc, h.lends.file⟩, h.table.congr ha (fun _ _ _ => rfl) h.table.free, h.other⟩
  · have hne : g ≠ f := fun he => hnot (he ▸ hg)
    exact (Function.update_of_ne hne ..).trans (h.lends.one g hg)
  · show Function.update s.refcounts f n g = Function.update b.refcounts f n g
    by_cases he : g = f
    · rw [he, Function.update_self, Function.update_self]
    · rw [Function.update_of_ne he, Function.update_of_ne he]
      exact h.lends.refcounts g hg

/-- `kfree` of one of the other pages. -/
theorem give (h : b.Builds s q r lbl X) (hf : f ∈ X) (hm : managed f) :
    (kfree f).run s = .ok () ((s.fill f 1).push f) ∧
      b.Builds ((s.fill f 1).push f) q r lbl (X \ {f}) ∧
      ∀ v, mapping ((s.fill f 1).push f).pte r v = mapping s.pte r v := by
  obtain ⟨hrun, hL⟩ := h.lends.give (.inr hf) hm
  have hkeep : ∀ f' x, lbl f' = some x → ((s.fill f 1).push f).pte f' = s.pte f' := by
    intro f' x hx
    have hne : f' ≠ f := by
      rintro rfl
      rw [h.other f' hf] at hx
      cases hx
    exact Function.update_of_ne hne ..
  have hset : (({f' | lbl f' ≠ none} ∪ X) \ {f} : Set Frame) =
      {f' | lbl f' ≠ none} ∪ X \ {f} := by
    ext f'
    by_cases he : f' = f
    · simp [he, h.other f hf]
    · simp [he]
  rw [hset] at hL
  refine ⟨hrun, ⟨hL, h.table.congr hL.alloc hkeep fun g hg => ?_, fun g hg => h.other g hg.1⟩,
    h.table.tree.mapping_congr h.table.root fun f' n hx => hkeep f' _ hx⟩
  rcases List.mem_cons.1 hg with rfl | hg
  · exact h.other g hf
  · exact h.table.free g hg

/-- `walk` takes a page for the table. -/
theorem grow (h : b.Builds s q r lbl X) {rest : List Frame} {m c : Node} {i : Nat}
    (hf : s.freelist = f :: rest) (hg : lbl g = some (r, m)) (hc : m.child i = some c)
    (hi : i < 512) (hv : ¬ (s.pte g i).V) :
    b.Builds (s.grow f rest g i) q r (Function.update lbl f (some (r, c))) X ∧
      ∀ v, mapping (s.grow f rest g i).pte r v = mapping s.pte r v := by
  obtain ⟨hT, hmap⟩ := h.table.grow hf hg hc hi hv
  obtain ⟨hout, hL⟩ := h.lends.take hf
  rw [Set.mem_union, not_or] at hout
  have hset : ({f' | Function.update lbl f (some (r, c)) f' ≠ none} ∪ X : Set Frame) =
      insert f ({f' | lbl f' ≠ none} ∪ X) := by
    ext f'
    by_cases he : f' = f
    · simp [he]
    · simp [he]
  refine ⟨⟨?_, hT, fun f' hf' => ?_⟩, hmap⟩
  · rw [hset]
    have hnotf : ∀ {f'}, f' ∉ insert f ({f' | lbl f' ≠ none} ∪ X : Set Frame) → f' ≠ f :=
      fun hf' he => hf' (.inl he)
    have hnotg : ∀ {f'}, f' ∉ insert f ({f' | lbl f' ≠ none} ∪ X : Set Frame) → f' ≠ g :=
      fun {f'} hf' he => hf' (.inr (.inl (show lbl f' ≠ none by rw [he, hg]; nofun)))
    refine hL.update (hT.alloc) rfl (fun f' hf' => ?_) (fun f' hf' => ?_) rfl (fun _ _ => rfl) rfl
    · exact Function.update_of_ne (hnotf hf') ..
    · exact (Function.update_of_ne (hnotg hf') ..).trans (Function.update_of_ne (hnotf hf') ..)
  · have hne : f' ≠ f := fun he => hout.2 (he ▸ hf')
    rw [Function.update_of_ne hne]
    exact h.other f' hf'

/-- `walk` with `alloc` may stop halfway; it changes no translation. -/
theorem walkLevel (h : b.Builds s q r lbl X) (hka : Promised ka) (va : Nat) {level n : Nat}
    (hl : level ≤ 2) (hn : lbl n = some (r, Node.at (va / PGSIZE) level)) :
    ∃ res s' lbl', (Xv6.walkLevel ka va true level n).run s = .ok res s' ∧
      b.Builds s' q r lbl' X ∧ (∀ v, mapping s'.pte r v = mapping s.pte r v) ∧
      s'.proc = s.proc ∧ (res = none ∨ s'.nulls = s.nulls ∧
        ∃ f, res = some (f, index (va / PGSIZE) 0) ∧
          leafTable s'.pte r (va / PGSIZE) = some f) := by
  induction level generalizing s lbl n with
  | zero =>
    exact ⟨_, s, lbl, rfl, h, fun _ => rfl, rfl, .inr ⟨rfl, n, by rw [PX_eq],
      (h.table.tree.leafTable_iff h.table.root).2 hn⟩⟩
  | succ level ih =>
    have hchild := Node.at_child (va / PGSIZE) (by omega : level < 2)
    have hlt := index_lt (va / PGSIZE) (level + 1)
    simp only [Xv6.walkLevel, readPte, run_bind, run_read, PX_eq]
    by_cases hv : (s.pte n (index (va / PGSIZE) (level + 1))).V = true
    · rw [if_pos hv]
      exact ih h (by omega) (h.table.tree.down hn hchild hlt hv).2
    · rw [if_neg hv, if_neg (by decide), run_bind]
      rcases hka s h.table.alloc with hrun | ⟨f, rest, hf, hrun⟩
      · rw [hrun]
        exact ⟨none, _, lbl, rfl, h.nulls _, fun _ => rfl, rfl, .inl rfl⟩
      · rw [hrun]
        obtain ⟨hB, hmap⟩ := h.grow hf hn hchild hlt hv
        obtain ⟨res, s', lbl', hrun', hB', hmap', hproc', hres⟩ := ih hB (by omega)
          (Function.update_self ..)
        refine ⟨res, s', lbl', ?_, hB', fun v => (hmap' v).trans (hmap v), hproc', hres⟩
        simp only [run_bind, memset, writePte, run_modify]
        exact hrun'

/-- `*pte = p` at the lowest level. -/
theorem setLeaf (h : b.Builds s q r lbl X) {v : Nat} {p : Pte} (hv : v < 2 ^ 27)
    (hf : leafTable s.pte r v = some f) (hp : p.V → p.rwx = true) :
    b.Builds (s.setPte (f, index v 0) p) q r lbl X ∧ ∀ u, u < 2 ^ 27 →
      mapping (s.setPte (f, index v 0) p).pte r u =
        if u = v then (if p.V then some p else none) else mapping s.pte r u := by
  obtain ⟨hT, hmap⟩ := h.table.setPte hv hf hp
  have hlf := (h.table.tree.leafTable_iff h.table.root).1 hf
  refine ⟨⟨h.lends.update hT.alloc rfl (fun _ _ => rfl) (fun f' hf' => ?_) rfl (fun _ _ => rfl) rfl,
    hT, h.other⟩, hmap⟩
  have hne : f' ≠ f := fun he => hf' (.inl (show lbl f' ≠ none by rw [he, hlf]; nofun))
  exact Function.update_of_ne hne ..

/-- `mappages` of one page. -/
theorem mapOne (h : b.Builds s q r lbl X) (hka : Promised ka) {v : Nat} (pa : Frame)
    (perm : Flags) (hv : v < 2 ^ 26) (hperm : (perm.R || perm.W || perm.X) = true)
    (hnone : mapping s.pte r v = none) :
    ∃ res s' lbl', (mappages ka r (v * PGSIZE) PGSIZE pa perm).run s = .ok res s' ∧
      b.Builds s' q r lbl' X ∧ s'.proc = s.proc ∧
      (res = -1 ∧ (∀ u, mapping s'.pte r u = mapping s.pte r u) ∨
        res = 0 ∧ s'.nulls = s.nulls ∧ ∀ u, u < 2 ^ 27 → mapping s'.pte r u =
          if u = v then some { perm with V := true, pa := pa } else mapping s.pte r u) := by
  have hmax := page_lt.2 hv
  have hn : (PGROUNDDOWN (v * PGSIZE + PGSIZE - 1) - PGROUNDDOWN (v * PGSIZE)) / PGSIZE = 0 := by
    unfold PGROUNDDOWN PGSIZE
    omega
  have hdown : PGROUNDDOWN (v * PGSIZE) = v * PGSIZE := by
    unfold PGROUNDDOWN PGSIZE
    omega
  have hzero : PGSIZE ≠ 0 := by decide
  obtain ⟨res, s₁, lbl₁, hrun, hB, hmap, hproc, hres⟩ := h.walkLevel hka (v * PGSIZE)
    (Nat.le_refl 2) h.table.root
  rw [mappages, if_neg hzero]
  dsimp only
  rw [hn, hdown]
  unfold mappagesLoop
  rw [run_bind, walk, if_neg (by omega), hrun]
  rcases hres with rfl | ⟨hnulls, f, rfl, hf⟩
  · exact ⟨-1, s₁, lbl₁, rfl, hB, hproc, .inl ⟨rfl, hmap⟩⟩
  · rw [page_div] at hf
    have hV : ¬ (s₁.pte f (index v 0)).V = true := by
      intro hV
      have hnone₁ := (hmap v).trans hnone
      rw [mapping, hf, Option.bind_some, if_pos hV] at hnone₁
      cases hnone₁
    obtain ⟨hB', hmap'⟩ := hB.setLeaf (p := { perm with V := true, pa := pa })
      (by omega : v < 2 ^ 27) hf fun _ => hperm
    refine ⟨0, _, lbl₁, ?_, hB', hproc, .inr ⟨rfl, hnulls, fun u hu => ?_⟩⟩
    · simp only [readPte, run_bind, run_read, page_div, if_neg hV, writePte, run_modify]
      rfl
    · rw [hmap' u hu, hmap]
      rfl

/-- An iteration of `uvmunmap`, once the reference has been dropped. -/
theorem unmapOne (h : b.Builds s q r lbl X) {do_free : Bool} {v n : Nat} {p : Pte} {b₁ s₁ : Kernel}
    {X₁ : Set Frame} (hv : v < 2 ^ 26) (hp : mapping s.pte r v = some p)
    (hdrop : (if do_free then kref_dec p.pa else pure ()).run (s.setBusy t (some (r, v))) =
      .ok () s₁) (h₁ : b₁.Builds s₁ q r lbl X₁)
    (hmap₁ : ∀ u, mapping s₁.pte r u = mapping s.pte r u) :
    ∃ s₂, (uvmunmapLoop ka t r do_free (n + 1) (v * PGSIZE)).run s =
        (uvmunmapLoop ka t r do_free n ((v + 1) * PGSIZE)).run s₂ ∧
      b₁.Builds s₂ q r lbl X₁ ∧ s₂.proc = s₁.proc ∧ s₂.refcounts = s₁.refcounts ∧
      s₂.nulls = s₁.nulls ∧ ∀ u, u < 2 ^ 27 →
        mapping s₂.pte r u = if u = v then none else mapping s.pte r u := by
  have hT := h.table
  obtain ⟨f, hf, rfl, hV⟩ := hT.tree.mapping_some hT.root hp
  have hok : (s.pte f (index v 0)).rwx = true :=
    (hT.tree.mapping_ok hT.root (by omega : v < 2 ^ 27) hp).2
  have hleaf := (hT.tree.leafTable_iff hT.root).2 hf
  have hleaf₁ := (h₁.table.tree.leafTable_iff h₁.table.root).2 hf
  obtain ⟨hB, hmap⟩ := h₁.setLeaf (p := {}) (by omega : v < 2 ^ 27) hleaf₁ nofun
  refine ⟨(s₁.setPte (f, index v 0) {}).setBusy t none, ?_, hB.setBusy t none, rfl, rfl, rfl,
    fun u hu => ?_⟩
  · have hflags : ¬ ¬ ((s.pte f (index v 0)).rwx || (s.pte f (index v 0)).U ||
        (s.pte f (index v 0)).COW) = true := by simp [hok]
    have hva := page_lt.2 hv
    have hbusy : (s.setBusy t (some (r, v))).pte = s.pte := rfl
    rw [uvmunmapLoop]
    simp only [mark, run_bind, run_modify, page_div, walk_run hva, hbusy, hleaf, Option.map_some,
      readPte, run_read, PX_eq, hV, not_true_eq_false, if_false, if_neg hflags, hdrop, writePte]
    rw [Nat.succ_mul]
  · rw [← hmap₁ u]
    exact hmap u hu

end Kernel.Builds

/-! ## freewalk -/

/-- Pages have been freed, and that is all. -/
structure Kernel.OnlyFrees (s s' : Kernel) : Prop where
  free : ∀ f ∈ s.freelist, f ∈ s'.freelist
  mem : ∀ f, f ∉ s'.freelist → s'.mem f = s.mem f
  refcounts : s'.refcounts = s.refcounts
  proc : s'.proc = s.proc
  file : s'.file = s.file
  nulls : s'.nulls = s.nulls

namespace Kernel.OnlyFrees

omit [KernelImage] in
theorem refl (s : Kernel) : s.OnlyFrees s := ⟨fun _ hf => hf, fun _ _ => rfl, rfl, rfl, rfl, rfl⟩

omit [KernelImage] in
theorem trans {s₁ : Kernel} (h : s.OnlyFrees s₁) (h' : s₁.OnlyFrees s') : s.OnlyFrees s' :=
  ⟨fun f hf => h'.free f (h.free f hf),
    fun f hf => (h'.mem f hf).trans (h.mem f fun hf₁ => hf (h'.free f hf₁)),
    h'.refcounts.trans h.refcounts, h'.proc.trans h.proc, h'.file.trans h.file,
    h'.nulls.trans h.nulls⟩

omit [KernelImage] in
theorem setPte (h : s.OnlyFrees s') (ptr : PtePtr) (p : Pte) : s.OnlyFrees (s'.setPte ptr p) :=
  ⟨h.free, h.mem, h.refcounts, h.proc, h.file, h.nulls⟩

end Kernel.OnlyFrees

theorem kfree_onlyFrees (h : (kfree f).run s = .ok () s') : s.OnlyFrees s' := by
  unfold kfree kassert at h
  obtain ⟨_, s₁, hassert, h⟩ := bind_run_ok h
  rw [run_atom] at hassert
  split at hassert
  · obtain ⟨-, rfl⟩ := Outcome.ok.inj hassert
    split at h
    · cases h
    · obtain ⟨-, rfl⟩ := Outcome.ok.inj h
      refine ⟨fun g hg => List.mem_cons_of_mem _ hg, fun g hg => ?_, rfl, rfl, rfl, rfl⟩
      have hne : g ≠ f := fun he => hg (he ▸ List.mem_cons_self)
      exact Function.update_of_ne hne ..
  · cases hassert

omit [KernelImage] in
theorem freewalkLoop_onlyFrees {child : Frame → Prog Kernel Unit}
    (hc : ∀ f s s', (child f).run s = .ok () s' → s.OnlyFrees s') {n : Nat}
    (h : (freewalkLoop child f n).run s = .ok () s') : s.OnlyFrees s' := by
  induction n generalizing s with
  | zero =>
    obtain ⟨-, rfl⟩ := Outcome.ok.inj h
    exact .refl s
  | succ n ih =>
    unfold freewalkLoop at h
    simp only [readPte, run_bind, run_read] at h
    split at h
    · obtain ⟨_, s₁, hchild, h⟩ := bind_run_ok h
      simp only [writePte, run_bind, run_modify] at h
      have hrest := ih h
      exact ((hc _ _ _ hchild).setPte _ _).trans hrest
    · split at h
      · cases h
      · exact ih h

theorem freewalk_onlyFrees {d : Nat} (h : (freewalk d f).run s = .ok () s') : s.OnlyFrees s' := by
  induction d generalizing s s' f with
  | zero => cases h
  | succ d ih =>
    unfold freewalk at h
    obtain ⟨_, s₁, hloop, h⟩ := bind_run_ok h
    exact (freewalkLoop_onlyFrees (fun f s s' hf => ih hf) hloop).trans (kfree_onlyFrees h)

/-- The pages of a table that maps nothing go back. -/
theorem Kernel.Builds.freewalk (h : b.Builds s q r lbl X)
    (hno : ∀ v, v < 2 ^ 27 → mapping s.pte r v = none) :
    ∃ s', (Xv6.freewalk 3 r).run s = .ok () s' ∧ b.Lends s' q X ∧ s'.proc = s.proc ∧
      s'.nulls = s.nulls := by
  obtain ⟨hhollow, hnodup, hbelow⟩ := h.table.below_root hno
  have hlbl : ∀ g, g ∈ below s.pte 3 r ↔ lbl g ≠ none := fun g => by
    rw [hbelow]
    constructor
    · intro hg he
      obtain ⟨n, hn⟩ := hg
      rw [he] at hn
      cases hn
    · intro hg
      obtain ⟨⟨r', n⟩, hx⟩ := Option.ne_none_iff_exists'.1 hg
      obtain rfl := (h.table.own g _ hx).1
      exact ⟨n, hx⟩
  have hheld : s.Held (below s.pte 3 r) := by
    refine ⟨hnodup, fun g hg => ⟨?_, fun hfree => ?_⟩⟩
    · obtain ⟨n, hn⟩ := (hbelow g).1 hg
      exact (h.table.own g _ hn).2
    · exact (hlbl g).1 hg (h.table.free g hfree)
  obtain ⟨s', hrun, hfreed⟩ := freewalk_run 3 s r h.table.alloc hhollow hheld
  have honly := freewalk_onlyFrees hrun
  have hmem : ∀ g, g ∈ s'.freelist ↔ lbl g ≠ none ∨ g ∈ s.freelist := fun g => by
    rw [hfreed.freelist, List.mem_append, List.mem_reverse, hlbl]
  have hX : ∀ g ∈ X, g ∉ s'.freelist := by
    intro g hg hfree
    rcases (hmem g).1 hfree with hn | hfree
    · exact hn (h.other g hg)
    · exact h.lends.taken g (.inr hg) hfree
  have hfree : ∀ g, g ∈ b.freelist ↔ g ∈ s'.freelist ∨ g ∈ X := fun g => by
    rw [h.lends.free, hmem]
    show _ ∨ (lbl g ≠ none ∨ g ∈ X) ↔ _
    tauto
  have hb : ∀ {g}, g ∉ b.freelist → g ∉ s'.freelist := fun hg hs => hg ((hfree _).2 (.inl hs))
  refine ⟨s', hrun, ⟨hfreed.alloc, hfree, hX, fun g hg => ?_, fun g hg => ?_, fun g hg => ?_,
    fun g hg => ?_, fun p hp => ?_, honly.file.trans h.lends.file⟩, honly.proc, honly.nulls⟩
  · rw [honly.refcounts]
    exact h.lends.one g (.inr hg)
  · exact (honly.mem g (hb hg)).trans (h.lends.mem g hg)
  · refine (hfreed.pte g (fun hbel => ?_) nofun).trans (h.lends.pte g hg)
    exact hb hg ((hmem g).2 (.inl ((hlbl g).1 hbel)))
  · rw [honly.refcounts]
    exact h.lends.refcounts g hg
  · rw [honly.proc]
    exact h.lends.proc p hp

theorem Kernel.Builds.uvmfree (h : b.Builds s q r lbl X) (ka : Kalloc) (t : Slot)
    (hno : ∀ v, v < 2 ^ 27 → mapping s.pte r v = none) :
    ∃ s', (Xv6.uvmfree ka t r 0).run s = .ok () s' ∧ b.Lends s' q X ∧ s'.proc = s.proc ∧
      s'.nulls = s.nulls := by
  have ha : ({ s with upts := s.upts.erase r } : Kernel).Allocator :=
    h.table.alloc.congr rfl rfl rfl
  have hB : b.Builds { s with upts := s.upts.erase r } q r lbl X :=
    ⟨h.lends.update ha rfl (fun _ _ => rfl) (fun _ _ => rfl) rfl (fun _ _ => rfl) rfl,
      h.table.congr ha (fun _ _ _ => rfl) h.table.free, h.other⟩
  obtain ⟨s', hrun, hL, hproc, hnulls⟩ := hB.freewalk hno
  refine ⟨s', ?_, hL, hproc, hnulls⟩
  rw [Xv6.uvmfree, if_neg (by decide), run_bind]
  simp only [pure_eq, run_ret, run_bind, run_modify]
  exact hrun

/-! ## A new page table -/

omit [KernelImage] in
theorem TreeOf.empty (ok : Nat → Pte → Prop) (pt : Frame → Nat → Pte) :
    TreeOf ok pt fun _ => none := by
  refine ⟨?_, ?_, ?_, ?_⟩
  all_goals
    intros
    simp_all

/-- `uvmcreate` takes a page for an empty table. -/
theorem Kernel.Lends.uvmcreate (h : b.Lends s q X) (hka : Promised ka) :
    ∃ res s', (Xv6.uvmcreate ka).run s = .ok res s' ∧ s'.proc = s.proc ∧
      (res = none ∧ b.Lends s' q X ∨ ∃ r lbl, res = some r ∧ s'.nulls = s.nulls ∧
        b.Builds s' q r lbl X ∧ ∀ v, mapping s'.pte r v = none) := by
  unfold Xv6.uvmcreate
  rw [run_bind]
  rcases hka s h.alloc with hrun | ⟨r, rest, hf, hrun⟩
  · rw [hrun]
    refine ⟨none, _, rfl, rfl, .inl ⟨rfl, ?_⟩⟩
    exact h.update (h.alloc.congr rfl rfl rfl) rfl (fun _ _ => rfl) (fun _ _ => rfl) rfl
      (fun _ _ => rfl) rfl
  · rw [hrun]
    obtain ⟨hout, hL⟩ := h.take hf
    obtain ⟨s', hs'⟩ : ∃ s', s' = ({ (s.alloc r rest).fill r 0 with
        upts := insert r ((s.alloc r rest).fill r 0).upts } : Kernel) := ⟨_, rfl⟩
    have hmanaged : managed r := h.alloc.managed r (by rw [hf]; exact List.mem_cons_self)
    have hlist : s'.freelist = rest := by
      rw [hs']
      rfl
    have ha : s'.Allocator := hL.alloc.congr (by rw [hs']; rfl) (by rw [hs']; rfl) (by rw [hs']; rfl)
    have h0 : ∀ k, ¬ (s'.pte r k).V := fun k => by
      have hpte : s'.pte r = fun _ => Pte.ofFill 0 := by
        rw [hs']
        exact Function.update_self ..
      rw [hpte]
      exact (by decide : ¬ (Pte.ofFill 0).V)
    obtain ⟨lbl, hlbl⟩ : ∃ lbl : Frame → Option (Frame × Node),
        lbl = Function.update (fun _ => none) r (some (r, .root)) := ⟨_, rfl⟩
    have hsome : ∀ f x, lbl f = some x → f = r ∧ x = (r, .root) := fun f x hx => by
      rw [hlbl] at hx
      by_cases he : f = r
      · rw [he, Function.update_self] at hx
        exact ⟨he, (Option.some.inj hx).symm⟩
      · rw [Function.update_of_ne he] at hx
        cases hx
    have hnone : ∀ f, f ≠ r → lbl f = none := fun f hne => by
      rw [hlbl, Function.update_of_ne hne]
    have htree : TreeOf Mapped s'.pte lbl := by
      rw [hlbl]
      exact (TreeOf.empty Mapped s'.pte).addRoot rfl h0
    have hnodup := h.alloc.nodup
    rw [hf] at hnodup
    have hT : Table s' r lbl := by
      refine ⟨ha, htree, by rw [hlbl, Function.update_self], fun f x hx => ?_, fun f hfree => ?_⟩
      · obtain ⟨rfl, rfl⟩ := hsome f x hx
        exact ⟨rfl, hmanaged⟩
      · refine hnone f fun he => ?_
        rw [hlist, he] at hfree
        exact (List.nodup_cons.1 hnodup).1 hfree
    have hset : ({f | lbl f ≠ none} ∪ X : Set Frame) = insert r X := by
      ext f
      by_cases he : f = r
      · simp [he, hlbl]
      · simp [he, hlbl]
    refine ⟨some r, s', ?_, ?_, .inr ⟨r, lbl, rfl, ?_, ⟨?_, hT, fun f hfX => ?_⟩,
      mapping_empty h0⟩⟩
    · rw [hs']
      simp only [run_bind, memset, run_modify]
      rfl
    · rw [hs']
      rfl
    · rw [hs']
      rfl
    · rw [hset]
      refine hL.update ha (by rw [hs']; rfl) (fun f hf' => ?_) (fun f hf' => ?_) (by rw [hs']; rfl)
        (fun _ _ => by rw [hs']; rfl) (by rw [hs']; rfl)
      · have hne : f ≠ r := fun he => hf' (.inl he)
        rw [hs']
        exact Function.update_of_ne hne ..
      · have hne : f ≠ r := fun he => hf' (.inl he)
        rw [hs']
        exact Function.update_of_ne hne ..
    · exact hnone f fun he => hout (he ▸ hfX)

/-- A page that is out of the user's reach is no longer mapped. -/
theorem Kernel.Builds.uvmunmap_one (h : b.Builds s q r lbl X) (ka : Kalloc) (t : Slot) {v : Nat}
    {p : Pte} (hv : v < 2 ^ 26) (hp : mapping s.pte r v = some p) :
    ∃ s', (uvmunmap ka t r (v * PGSIZE) 1 false).run s = .ok () s' ∧ b.Builds s' q r lbl X ∧
      s'.proc = s.proc ∧ s'.nulls = s.nulls ∧
      ∀ u, u < 2 ^ 27 → mapping s'.pte r u = if u = v then none else mapping s.pte r u := by
  obtain ⟨s', hrun, hB, hproc, -, hnulls, hmap⟩ := h.unmapOne (n := 0) hv hp
    (show (if false then kref_dec p.pa else pure ()).run (s.setBusy t (some (r, v))) =
      .ok () (s.setBusy t (some (r, v))) from rfl) (h.setBusy t (some (r, v))) fun _ => rfl
  refine ⟨s', ?_, hB, hproc, hnulls, hmap⟩
  rw [uvmunmap, if_neg (by rw [Nat.mul_mod_left]; decide), hrun]
  rfl

omit [KernelImage] in
theorem TRAMPOLINE_eq : TRAMPOLINE = (userPages + 1) * PGSIZE := rfl

omit [KernelImage] in
theorem TRAPFRAME_eq : TRAPFRAME = userPages * PGSIZE := rfl

/-- The pages that every process has mapped. -/
def Kernel.Fixed (s : Kernel) (r : Frame) : Prop :=
  ∀ u, u < 2 ^ 27 → userPages ≤ u → (mapping s.pte r u ≠ none ↔ u = userPages ∨ u = userPages + 1)

/-- `proc_pagetable` ends with a page table, or with nothing taken. -/
theorem Kernel.Lends.proc_pagetable (h : b.Lends s q X) (hka : Promised ka) (t : Slot)
    (trapframe : Frame) :
    ∃ res s', (Xv6.proc_pagetable ka t trapframe).run s = .ok res s' ∧ s'.proc = s.proc ∧
      (res = none ∧ b.Lends s' q X ∨ ∃ r lbl, res = some r ∧ s'.nulls = s.nulls ∧
        b.Builds s' q r lbl X ∧ s'.Fixed r ∧ ∀ u, u < userPages → mapping s'.pte r u = none) := by
  have hpages : userPages + 1 < 2 ^ 26 := by decide
  obtain ⟨res, s₁, hrun₁, hproc₁, hres₁⟩ := h.uvmcreate hka
  unfold Xv6.proc_pagetable
  rw [run_bind, hrun₁]
  rcases hres₁ with ⟨rfl, hL⟩ | ⟨r, lbl, rfl, hnulls₁, hB₁, hmap₁⟩
  · exact ⟨none, s₁, rfl, hproc₁, .inl ⟨rfl, hL⟩⟩
  · obtain ⟨res, s₂, lbl₂, hrun₂, hB₂, hproc₂, hres₂⟩ := hB₁.mapOne hka
      KernelImage.trampoline { R := true, X := true } hpages rfl (hmap₁ _)
    rw [← TRAMPOLINE_eq] at hrun₂
    simp only [run_bind, hrun₂]
    rcases hres₂ with ⟨rfl, hmap₂⟩ | ⟨rfl, hnulls₂, hmap₂⟩
    · obtain ⟨s', hrun, hL, hproc, -⟩ := hB₂.uvmfree ka t fun v _ =>
        (hmap₂ v).trans (hmap₁ v)
      rw [if_pos (by decide), run_bind, hrun]
      exact ⟨none, s', rfl, hproc.trans (hproc₂.trans hproc₁), .inl ⟨rfl, hL⟩⟩
    · rw [if_neg (by decide), run_bind]
      have hnone : mapping s₂.pte r userPages = none := by
        rw [hmap₂ _ (by omega), if_neg (by omega)]
        exact hmap₁ _
      obtain ⟨res, s₃, lbl₃, hrun₃, hB₃, hproc₃, hres₃⟩ := hB₂.mapOne hka trapframe
        { R := true, W := true } (by omega : userPages < 2 ^ 26) rfl hnone
      rw [← TRAPFRAME_eq] at hrun₃
      rw [hrun₃]
      rcases hres₃ with ⟨rfl, hmap₃⟩ | ⟨rfl, hnulls₃, hmap₃⟩
      · have hp : mapping s₃.pte r (userPages + 1) =
            some { R := true, X := true, V := true, pa := KernelImage.trampoline } := by
          rw [hmap₃, hmap₂ _ (by omega), if_pos rfl]
        obtain ⟨s₄, hrun₄, hB₄, hproc₄, -, hmap₄⟩ := hB₃.uvmunmap_one ka t hpages hp
        rw [← TRAMPOLINE_eq] at hrun₄
        obtain ⟨s', hrun, hL, hproc, -⟩ := hB₄.uvmfree ka t fun v hv => by
          rw [hmap₄ v hv]
          split
          · rfl
          · next hne =>
            rw [hmap₃, hmap₂ v hv, if_neg hne]
            exact hmap₁ v
        dsimp only
        rw [if_pos (by decide)]
        simp only [run_bind, hrun₄, hrun]
        exact ⟨none, s', rfl, hproc.trans (hproc₄.trans (hproc₃.trans (hproc₂.trans hproc₁))),
          .inl ⟨rfl, hL⟩⟩
      · have hmap : ∀ u, u < 2 ^ 27 → (mapping s₃.pte r u ≠ none ↔
            u = userPages ∨ u = userPages + 1) := fun u hu => by
          rw [hmap₃ u hu]
          split
          · next he => simp [he]
          · next hne =>
            rw [hmap₂ u hu]
            split
            · next he => simp [he]
            · next hne' =>
              rw [hmap₁]
              simp [hne, hne']
        refine ⟨some r, s₃, rfl, hproc₃.trans (hproc₂.trans hproc₁), .inr ⟨r, lbl₃, rfl,
          hnulls₃.trans (hnulls₂.trans hnulls₁), hB₃, fun u hu _ => hmap u hu, fun u hu => ?_⟩⟩
        by_contra hne
        have := (hmap u (by omega)).1 hne
        omega

/-- `proc_freepagetable` when nothing is left of user memory. -/
theorem Kernel.Builds.proc_freepagetable (h : b.Builds s q r lbl X) (hfix : s.Fixed r)
    (hno : ∀ u, u < userPages → mapping s.pte r u = none) (ka : Kalloc) (t : Slot) :
    ∃ s', (Xv6.proc_freepagetable ka t r 0).run s = .ok () s' ∧ b.Lends s' q X ∧
      s'.proc = s.proc := by
  have hpages : userPages + 1 < 2 ^ 26 := by decide
  obtain ⟨p, hp⟩ := Option.ne_none_iff_exists'.1
    ((hfix (userPages + 1) (by omega) (by omega)).2 (.inr rfl))
  obtain ⟨s₁, hrun₁, hB₁, hproc₁, -, hmap₁⟩ := h.uvmunmap_one ka t hpages hp
  obtain ⟨p', hp'⟩ := Option.ne_none_iff_exists'.1
    ((hfix userPages (by omega) (Nat.le_refl _)).2 (.inl rfl))
  have hp₁ : mapping s₁.pte r userPages = some p' := by
    rw [hmap₁ _ (by omega), if_neg (by omega)]
    exact hp'
  obtain ⟨s₂, hrun₂, hB₂, hproc₂, -, hmap₂⟩ := hB₁.uvmunmap_one ka t (by omega : userPages < 2 ^ 26)
    hp₁
  have hnone : ∀ v, v < 2 ^ 27 → mapping s₂.pte r v = none := fun v hv => by
    rw [hmap₂ v hv]
    split
    · rfl
    · next hne =>
      rw [hmap₁ v hv]
      split
      · rfl
      · next hne' =>
        by_cases hlt : v < userPages
        · exact hno v hlt
        · by_contra hsome
          rcases (hfix v hv (by omega)).1 hsome with he | he
          · exact hne he
          · exact hne' he
  obtain ⟨s', hrun, hL, hproc, -⟩ := hB₂.uvmfree ka t hnone
  rw [← TRAMPOLINE_eq] at hrun₁
  rw [← TRAPFRAME_eq] at hrun₂
  refine ⟨s', ?_, hL, hproc.trans (hproc₂.trans hproc₁)⟩
  simp only [Xv6.proc_freepagetable, run_bind, hrun₁, hrun₂, hrun]

end Xv6
