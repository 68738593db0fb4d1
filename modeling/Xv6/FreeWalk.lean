/-
`freewalk` of a page table with no mappings left frees its pages, each of
them once.
-/
import Mathlib.Data.List.Nodup
import Xv6.Kernel.System
import Xv6.PageMap

namespace Xv6

open Conc Prog

/-- What a loop over the entries of page `f` from `i` on frees, where `below`
is what the page of an entry leads to. -/
def entriesBelow (pt : Frame → Nat → Pte) (below : Frame → List Frame) (f : Frame) (i n : Nat) :
    List Frame :=
  (List.range' i n).flatMap fun j => if (pt f j).V then below (pt f j).pa else []

/-- The pages of a table of `depth` levels, children first. -/
def below (pt : Frame → Nat → Pte) : (depth : Nat) → (pagetable : Frame) → List Frame
  | 0, _ => []
  | depth + 1, f => entriesBelow pt (below pt depth) f 0 512 ++ [f]

/-- No entry of the lowest level is valid. -/
def Hollow (pt : Frame → Nat → Pte) : (depth : Nat) → (pagetable : Frame) → Prop
  | 0, _ => False
  | depth + 1, f => ∀ i < 512, (pt f i).V → (pt f i).rwx = false ∧ Hollow pt depth (pt f i).pa

variable {pt pt' : Frame → Nat → Pte} {s s' : Kernel} {r f g : Frame} {d : Nat}

theorem entriesBelow_succ (b : Frame → List Frame) (f : Frame) (i n : Nat) :
    entriesBelow pt b f i (n + 1) =
      (if (pt f i).V then b (pt f i).pa else []) ++ entriesBelow pt b f (i + 1) n := by
  rw [entriesBelow, List.range'_succ, List.flatMap_cons]
  rfl

theorem mem_entriesBelow {b : Frame → List Frame} {i n : Nat} : g ∈ entriesBelow pt b f i n ↔
    ∃ j, (i ≤ j ∧ j < i + n) ∧ (pt f j).V = true ∧ g ∈ b (pt f j).pa := by
  simp only [entriesBelow, List.mem_flatMap, List.mem_range'_1]
  refine exists_congr fun j => and_congr_right fun _ => ?_
  split
  next hv => simp [hv]
  next hv => simp [hv]

/-- What different entries lead to is different. -/
theorem nodup_below (hb : ∀ j < 512, (pt f j).V = true → (below pt d (pt f j).pa).Nodup ∧
      f ∉ below pt d (pt f j).pa)
    (hone : ∀ i < 512, ∀ j < 512, (pt f i).V = true → (pt f j).V = true →
      ∀ g ∈ below pt d (pt f i).pa, g ∈ below pt d (pt f j).pa → i = j) :
    (below pt (d + 1) f).Nodup := by
  refine List.nodup_append.2 ⟨List.nodup_flatMap.2 ⟨fun j hj => ?_, ?_⟩, List.nodup_singleton f,
    fun g hg g' hg' he => ?_⟩
  · have hlt := List.mem_range'_1.1 hj
    split
    next hv => exact (hb j (by omega) hv).1
    next => exact List.nodup_nil
  · refine List.Nodup.pairwise_of_forall_ne List.nodup_range' fun i hi j hj hij g hgi hgj => ?_
    have hi' := List.mem_range'_1.1 hi
    have hj' := List.mem_range'_1.1 hj
    dsimp only at hgi hgj
    split at hgi
    next hvi =>
      split at hgj
      next hvj => exact hij (hone i (by omega) j (by omega) hvi hvj g hgi hgj)
      next => cases hgj
    next => cases hgi
  · obtain ⟨j, hj, hv, hgj⟩ := mem_entriesBelow.1 hg
    obtain rfl := List.mem_singleton.1 hg'
    exact (hb j (by omega) hv).2 (he ▸ hgj)

theorem mem_below {g : Frame} : g ∈ below pt (d + 1) f ↔
    g = f ∨ ∃ j < 512, (pt f j).V = true ∧ g ∈ below pt d (pt f j).pa := by
  rw [below, List.mem_append, List.mem_singleton, mem_entriesBelow, Or.comm]
  simp

/-- `below` reads the pages that it lists. -/
theorem below_congr (h : ∀ g ∈ below pt d f, pt' g = pt g) : below pt' d f = below pt d f := by
  induction d generalizing f with
  | zero => rfl
  | succ d ih =>
    have hf := h f (mem_below.2 (.inl rfl))
    rw [below, below]
    congr 1
    refine List.flatMap_congr fun j hj => ?_
    rw [hf]
    split
    next hv =>
      have hj' : j < 512 := by
        have hlt := List.mem_range'_1.1 hj
        omega
      exact ih fun g hg => h g (mem_below.2 (.inr ⟨j, hj', hv, hg⟩))
    next => rfl

theorem Hollow.congr (h : Hollow pt d f) (heq : ∀ g ∈ below pt d f, pt' g = pt g) :
    Hollow pt' d f := by
  induction d generalizing f with
  | zero => exact h
  | succ d ih =>
    have hf := heq f (mem_below.2 (.inl rfl))
    intro i hi hv
    rw [hf] at hv ⊢
    exact ⟨(h i hi hv).1, ih (h i hi hv).2 fun g hg => heq g (mem_below.2 (.inr ⟨i, hi, hv, hg⟩))⟩

/-! ## The run -/

section

variable [KernelImage]

/-- The pages `ps` have been freed, the first of them first, and the entries of
no others have changed but those of `own`. -/
structure Kernel.Freed (s s' : Kernel) (ps own : List Frame) : Prop where
  alloc : s'.Allocator
  freelist : s'.freelist = ps.reverse ++ s.freelist
  pte : ∀ g, g ∉ ps → g ∉ own → s'.pte g = s.pte g

/-- Pages that can be freed. -/
def Kernel.Held (s : Kernel) (ps : List Frame) : Prop :=
  ps.Nodup ∧ ∀ g ∈ ps, managed g ∧ g ∉ s.freelist

theorem freewalkLoop_run (ih : ∀ (s : Kernel) (c : Frame), s.Allocator → Hollow s.pte d c →
      s.Held (below s.pte d c) →
      ∃ s', (freewalk d c).run s = .ok () s' ∧ s.Freed s' (below s.pte d c) [])
    {n : Nat} (hn : n ≤ 512) (ha : s.Allocator)
    (hh : ∀ i, 512 - n ≤ i → i < 512 → (s.pte f i).V →
      (s.pte f i).rwx = false ∧ Hollow s.pte d (s.pte f i).pa)
    (hheld : s.Held (entriesBelow s.pte (below s.pte d) f (512 - n) n ++ [f])) :
    ∃ s', (freewalkLoop (freewalk d) f n).run s = .ok () s' ∧
      s.Freed s' (entriesBelow s.pte (below s.pte d) f (512 - n) n) [f] := by
  induction n generalizing s with
  | zero => exact ⟨s, rfl, ha, rfl, fun _ _ _ => rfl⟩
  | succ n ihn =>
    have hi : 512 - (n + 1) + 1 = 512 - n := by omega
    have hlt : 512 - (n + 1) < 512 := by omega
    unfold freewalkLoop
    rw [entriesBelow_succ, hi] at hheld ⊢
    simp only [readPte, run_bind, run_read]
    by_cases hv : (s.pte f (512 - (n + 1))).V = true
    · obtain ⟨hrwx, hc⟩ := hh _ (Nat.le_refl _) hlt hv
      simp only [hv, hrwx, Bool.not_false, Bool.and_self, if_true] at hheld ⊢
      rw [List.append_assoc] at hheld
      obtain ⟨C, hC⟩ : ∃ C, C = below s.pte d (s.pte f (512 - (n + 1))).pa := ⟨_, rfl⟩
      obtain ⟨L, hL⟩ : ∃ L, L = entriesBelow s.pte (below s.pte d) f (512 - n) n := ⟨_, rfl⟩
      rw [← hC, ← hL] at hheld ⊢
      obtain ⟨hCnd, hLnd, hdis⟩ := List.nodup_append.1 hheld.1
      have hfC : f ∉ C := fun hf => hdis f hf f (by simp) rfl
      obtain ⟨s₁, hrun, hfreed⟩ := ih s _ ha hc (hC ▸ ⟨hCnd, fun g hg => hheld.2 g (by simp [hg])⟩)
      rw [← hC] at hfreed
      obtain ⟨s₂, hs₂⟩ : ∃ s₂, s₂ = s₁.setPte (f, 512 - (n + 1)) {} := ⟨_, rfl⟩
      have hentry : ∀ j, j ≠ 512 - (n + 1) → s₂.pte f j = s.pte f j := fun j hj => by
        rw [hs₂, Kernel.setPte]
        dsimp only
        rw [Function.update_self, Function.update_of_ne hj, hfreed.pte f hfC List.not_mem_nil]
      have hpte : ∀ g, g ∉ C → g ≠ f → s₂.pte g = s.pte g := fun g hg hgf => by
        rw [hs₂, Kernel.setPte]
        dsimp only
        rw [Function.update_of_ne hgf, hfreed.pte g hg List.not_mem_nil]
      -- what the later entries lead to is as before
      have hlater : ∀ j, 512 - n ≤ j → j < 512 → (s.pte f j).V = true →
          ∀ g ∈ below s.pte d (s.pte f j).pa, s₂.pte g = s.pte g := fun j hj hj' hvj g hg => by
        have hgL : g ∈ L := hL ▸ mem_entriesBelow.2 ⟨j, by omega, hvj, hg⟩
        have hne := List.nodup_append.1 hLnd
        exact hpte g (fun hgC => hdis g hgC g (by simp [hgL]) rfl)
          fun he => hne.2.2 g hgL f (by simp) he
      have hL₂ : entriesBelow s₂.pte (below s₂.pte d) f (512 - n) n = L := by
        rw [hL]
        refine List.flatMap_congr fun j hj => ?_
        have hlt := List.mem_range'_1.1 hj
        rw [hentry j (by omega)]
        split
        next hvj => exact below_congr (hlater j (by omega) (by omega) hvj)
        next => rfl
      have ha₂ : s₂.Allocator := hfreed.alloc.congr (by rw [hs₂]; rfl) (by rw [hs₂]; rfl)
        (by rw [hs₂]; rfl)
      have hfree₂ : s₂.freelist = C.reverse ++ s.freelist := by
        rw [hs₂]
        exact hfreed.freelist
      obtain ⟨s', hrun', hfreed'⟩ := ihn (s := s₂) (by omega) ha₂ (fun j hj hj' hvj => by
        rw [hentry j (by omega)] at hvj ⊢
        obtain ⟨hrwx', hcj⟩ := hh j (by omega) hj' hvj
        exact ⟨hrwx', hcj.congr (hlater j hj hj' hvj)⟩) (by
          rw [hL₂]
          refine ⟨hLnd, fun g hg => ⟨(hheld.2 g (List.mem_append_right _ hg)).1, fun hgf => ?_⟩⟩
          rw [hfree₂, List.mem_append, List.mem_reverse] at hgf
          rcases hgf with hgC | hgf
          · exact hdis g hgC g hg rfl
          · exact (hheld.2 g (List.mem_append_right _ hg)).2 hgf)
      rw [hL₂] at hfreed'
      refine ⟨s', ?_, hfreed'.alloc, ?_, fun g hg hgf => ?_⟩
      · simp only [run_bind, hrun, writePte, run_modify]
        rw [← hs₂]
        exact hrun'
      · rw [hfreed'.freelist, hfree₂, List.reverse_append, List.append_assoc]
      · rw [List.mem_append, not_or] at hg
        rw [hfreed'.pte g hg.2 hgf]
        exact hpte g hg.1 (by simpa using hgf)
    · simp only [hv, Bool.false_and, Bool.false_eq_true, if_false, List.nil_append] at hheld ⊢
      exact ihn (by omega) ha (fun j hj => hh j (by omega)) hheld

/-- `freewalk` frees the pages that it reaches. -/
theorem freewalk_run (d : Nat) (s : Kernel) (f : Frame) (ha : s.Allocator) (hh : Hollow s.pte d f)
    (hheld : s.Held (below s.pte d f)) :
    ∃ s', (freewalk d f).run s = .ok () s' ∧ s.Freed s' (below s.pte d f) [] := by
  induction d generalizing s f with
  | zero => cases hh
  | succ d ih =>
    obtain ⟨s₁, hrun, hfreed⟩ := freewalkLoop_run (n := 512) ih (Nat.le_refl _) ha
      (fun i _ hi hv => hh i hi hv) hheld
    have hf := hheld.2 f (mem_below.2 (.inl rfl))
    have hff : f ∉ s₁.freelist := by
      rw [hfreed.freelist, List.mem_append, List.mem_reverse, not_or]
      exact ⟨fun hm => (List.nodup_append.1 hheld.1).2.2 f hm f (by simp) rfl, hf.2⟩
    obtain ⟨hkfree, ha'⟩ := hfreed.alloc.kfree hf.1 hff
    refine ⟨_, ?_, ha', ?_, fun g hg _ => ?_⟩
    · rw [freewalk, run_bind, hrun]
      exact hkfree
    · show f :: s₁.freelist = _
      rw [hfreed.freelist, below, List.reverse_append]
      rfl
    · rw [mem_below.not, not_or] at hg
      have hpte : ((s₁.fill f 1).push f).pte g = s₁.pte g := Function.update_of_ne hg.1 ..
      rw [hpte]
      refine hfreed.pte g (fun hm => ?_) (by simpa using hg.1)
      obtain ⟨j, hj, hv, hgj⟩ := mem_entriesBelow.1 hm
      exact hg.2 ⟨j, by omega, hv, hgj⟩

/-! ## The pages of a table -/

section

variable {lbl : Frame → Option (Frame × Node)} {i j : Nat}

/-- The lowest level of a table that maps nothing. -/
theorem Table.leaf_empty (h : Table s r lbl) (hno : ∀ v, v < 2 ^ 27 → mapping s.pte r v = none)
    (hf : lbl f = some (r, .leaf i j)) {k : Nat} (hk : k < 512) : (s.pte f k).V = false := by
  obtain ⟨hj, g, hg, -⟩ := h.tree.leaf_linked hf
  have hi := (h.tree.mid_linked hg).1
  have hv : vpnOf i j k < 2 ^ 27 := by
    unfold vpnOf
    omega
  have hidx : index (vpnOf i j k) 2 = i ∧ index (vpnOf i j k) 1 = j ∧ index (vpnOf i j k) 0 = k := by
    unfold index vpnOf
    omega
  have hleaf : leafTable s.pte r (vpnOf i j k) = some f :=
    (h.tree.leafTable_iff h.root).2 (by rw [hidx.1, hidx.2.1, hf])
  have hnone := hno _ hv
  rw [mapping, hleaf, Option.bind_some, hidx.2.2] at hnone
  by_contra hV
  rw [if_pos (by simpa using hV)] at hnone
  cases hnone

theorem Table.below_leaf (h : Table s r lbl)
    (hno : ∀ v, v < 2 ^ 27 → mapping s.pte r v = none) (hf : lbl f = some (r, .leaf i j)) :
    Hollow s.pte 1 f ∧ below s.pte 1 f = [f] := by
  refine ⟨fun k hk hv => ?_, ?_⟩
  · rw [h.leaf_empty hno hf hk] at hv
    cases hv
  · rw [below, List.append_left_eq_self, List.eq_nil_iff_forall_not_mem]
    intro g hg
    obtain ⟨k, hk, hv, -⟩ := mem_entriesBelow.1 hg
    rw [h.leaf_empty hno hf (by omega)] at hv
    cases hv

theorem Table.below_mid (h : Table s r lbl)
    (hno : ∀ v, v < 2 ^ 27 → mapping s.pte r v = none) (hf : lbl f = some (r, .mid i)) :
    Hollow s.pte 2 f ∧ (below s.pte 2 f).Nodup ∧
      ∀ g, g ∈ below s.pte 2 f ↔ g = f ∨ ∃ j, lbl g = some (r, .leaf i j) := by
  have hdown : ∀ {k}, k < 512 → (s.pte f k).V = true →
      s.pte f k = link (s.pte f k).pa ∧ lbl (s.pte f k).pa = some (r, .leaf i k) :=
    fun hk hv => h.tree.down hf rfl hk hv
  have hmem : ∀ g, g ∈ below s.pte 2 f ↔ g = f ∨ ∃ j, lbl g = some (r, .leaf i j) := fun g => by
    rw [mem_below]
    refine or_congr_right ⟨?_, ?_⟩
    · rintro ⟨k, hk, hv, hg⟩
      rw [(h.below_leaf hno (hdown hk hv).2).2, List.mem_singleton] at hg
      exact ⟨k, hg ▸ (hdown hk hv).2⟩
    · rintro ⟨j, hg⟩
      obtain ⟨hj, f', hf', hl⟩ := h.tree.leaf_linked hg
      obtain rfl := h.tree.unique hf' hf
      have hv : (s.pte f' j).V = true := by rw [hl]; rfl
      refine ⟨j, hj, hv, ?_⟩
      rw [(h.below_leaf hno (hdown hj hv).2).2, List.mem_singleton, hl]
      rfl
  refine ⟨fun k hk hv => ⟨?_, (h.below_leaf hno (hdown hk hv).2).1⟩, ?_, hmem⟩
  · rw [(hdown hk hv).1]
    rfl
  · refine nodup_below (fun k hk hv => ?_) fun a ha b hb hva hvb g hga hgb => ?_
    · have hk' := (hdown hk hv).2
      rw [(h.below_leaf hno hk').2]
      refine ⟨List.nodup_singleton _, fun hm => ?_⟩
      rw [← List.mem_singleton.1 hm, hf] at hk'
      cases hk'
    · have ha' := (hdown ha hva).2
      have hb' := (hdown hb hvb).2
      rw [(h.below_leaf hno ha').2, List.mem_singleton] at hga
      rw [(h.below_leaf hno hb').2, List.mem_singleton] at hgb
      rw [← hga] at ha'
      rw [← hgb, ha'] at hb'
      cases hb'
      rfl

/-- The pages that `freewalk` frees are those of the table. -/
theorem Table.below_root (h : Table s r lbl)
    (hno : ∀ v, v < 2 ^ 27 → mapping s.pte r v = none) :
    Hollow s.pte 3 r ∧ (below s.pte 3 r).Nodup ∧
      ∀ g, g ∈ below s.pte 3 r ↔ ∃ n, lbl g = some (r, n) := by
  have hdown : ∀ {k}, k < 512 → (s.pte r k).V = true →
      s.pte r k = link (s.pte r k).pa ∧ lbl (s.pte r k).pa = some (r, .mid k) :=
    fun hk hv => h.tree.down h.root rfl hk hv
  have hmid : ∀ {k}, k < 512 → (s.pte r k).V = true → ∀ g, g ∈ below s.pte 2 (s.pte r k).pa →
      lbl g = some (r, .mid k) ∨ ∃ j, lbl g = some (r, .leaf k j) := fun hk hv g hg => by
    rcases ((h.below_mid hno (hdown hk hv).2).2.2 g).1 hg with rfl | hg
    · exact .inl (hdown hk hv).2
    · exact .inr hg
  refine ⟨fun k hk hv => ⟨?_, (h.below_mid hno (hdown hk hv).2).1⟩, ?_, fun g => ?_⟩
  · rw [(hdown hk hv).1]
    rfl
  · refine nodup_below (fun k hk hv => ⟨(h.below_mid hno (hdown hk hv).2).2.1, fun hm => ?_⟩)
      fun a ha b hb hva hvb g hga hgb => ?_
    · rcases hmid hk hv r hm with hr | ⟨j, hr⟩ <;> rw [h.root] at hr <;> cases hr
    · rcases hmid ha hva g hga with hg | ⟨j, hg⟩ <;> rcases hmid hb hvb g hgb with hg' | ⟨k, hg'⟩ <;>
        rw [hg] at hg' <;> cases hg' <;> rfl
  · rw [mem_below]
    constructor
    · rintro (rfl | ⟨k, hk, hv, hg⟩)
      · exact ⟨_, h.root⟩
      · rcases hmid hk hv g hg with hg | ⟨j, hg⟩
        · exact ⟨_, hg⟩
        · exact ⟨_, hg⟩
    · rintro ⟨n, hn⟩
      -- the entry of the root on the way to the page
      have hvia : ∀ {k f'}, lbl f' = some (r, .mid k) → g ∈ below s.pte 2 f' →
          ∃ j < 512, (s.pte r j).V = true ∧ g ∈ below s.pte 2 (s.pte r j).pa := by
        intro k f' hf' hg
        obtain ⟨hk, hl⟩ := h.tree.mid_linked hf'
        exact ⟨k, hk, by rw [hl]; rfl, by rw [hl]; exact hg⟩
      cases n with
      | root => exact .inl (h.tree.root hn)
      | mid k => exact .inr (hvia hn (((h.below_mid hno hn).2.2 g).2 (.inl rfl)))
      | leaf k j =>
        obtain ⟨-, f', hf', -⟩ := h.tree.leaf_linked hn
        exact .inr (hvia hf' (((h.below_mid hno hf').2.2 g).2 (.inr ⟨j, hn⟩)))

end

/-! ## Any sequence of calls -/

/-- The loop of `mappages` with its test `a == last`, for at most `fuel`
iterations. -/
def mappagesUntil (ka : Kalloc) (pagetable : Frame) (perm : Flags) (last : Nat) :
    (fuel a : Nat) → (pa : Frame) → Prog Kernel (Option Int)
  | 0, _, _ => return none
  | fuel + 1, a, pa => do
    match ← walk ka pagetable a true with
    | none => return some (-1)
    | some ptr =>
      let pte ← readPte ptr
      if pte.V then fail "mappages: remap"
      else
        writePte ptr { perm with V := true, pa := pa }
        if a = last then return some 0
        else mappagesUntil ka pagetable perm last fuel ((a + PGSIZE) % 2 ^ 64) (pa + 1)

omit [KernelImage] in
theorem mappagesUntil_run {ka : Kalloc} {perm : Flags} {n v fuel : Nat} (pa : Frame)
    (hn : v + n < 2 ^ 26) (hfuel : n < fuel) (s : Kernel) :
    (mappagesUntil ka r perm ((v + n) * PGSIZE) fuel (v * PGSIZE) pa).run s =
      (do return some (← mappagesLoop ka r perm n (v * PGSIZE) pa)).run s := by
  obtain ⟨fuel, rfl⟩ : ∃ k, fuel = k + 1 := ⟨fuel - 1, by omega⟩
  induction n generalizing v fuel pa s with
  | zero =>
    unfold mappagesUntil mappagesLoop
    simp only [run_bind]
    cases (walk ka r (v * PGSIZE) true).run s with
    | wait | panic => rfl
    | ok p s₁ =>
      cases p with
      | none => rfl
      | some ptr =>
        simp only [readPte, run_bind, run_read]
        split
        next => rfl
        next =>
          simp only [writePte, run_bind, run_modify, Nat.add_zero, if_true]
          rfl
  | succ n ih =>
    have hne : ¬ v * PGSIZE = (v + (n + 1)) * PGSIZE := by
      unfold PGSIZE
      omega
    obtain ⟨fuel, rfl⟩ : ∃ k, fuel = k + 1 := ⟨fuel - 1, by omega⟩
    have hsucc : v * PGSIZE + PGSIZE = (v + 1) * PGSIZE := (Nat.succ_mul v PGSIZE).symm
    have hwrap : (v + 1) * PGSIZE % 2 ^ 64 = (v + 1) * PGSIZE := by
      unfold PGSIZE
      omega
    have hlast : v + (n + 1) = v + 1 + n := by omega
    unfold mappagesUntil mappagesLoop
    simp only [run_bind]
    cases (walk ka r (v * PGSIZE) true).run s with
    | wait | panic => rfl
    | ok p s₁ =>
      cases p with
      | none => rfl
      | some ptr =>
        simp only [readPte, run_bind, run_read]
        split
        next => rfl
        next =>
          simp only [writePte, run_bind, run_modify]
          rw [hsucc, hwrap, hlast, ih (pa + 1) (by omega) _ fuel (by omega), run_bind]

/-- The states of the kernel after `uvmcreate` has made `r` and any calls for
this table, with what is mapped by then; the rest of the kernel leaves its
pages alone. -/
inductive Built (t : Slot) (r : Frame) : PageMap → Kernel → Prop
  | create {s s' : Kernel} : s.Allocator → (uvmcreate kalloc).run s = .ok (some r) s' →
    Built t r (fun _ => none) s'
  | mappages {m : PageMap} {s s' : Kernel} {va size : Nat} {pa : Frame} {perm : Flags} :
    Built t r m s → 0 < size → va + size ≤ MAXVA → (perm.R || perm.W || perm.X) = true →
    (mappages kalloc r va size pa perm).run s = .ok 0 s' →
    Built t r (m.set (va / PGSIZE) ((va + size - 1) / PGSIZE - va / PGSIZE + 1)
      (pagesFrom pa perm)) s'
  | uvmunmap {m : PageMap} {s s' : Kernel} {va npages : Nat} {do_free : Bool} :
    Built t r m s → va % PGSIZE = 0 → va + npages * PGSIZE ≤ MAXVA →
    (∀ i < npages, m (va / PGSIZE + i) ≠ none) →
    (do_free = true → s.Frees r (va / PGSIZE) npages) →
    (uvmunmap kalloc t r va npages do_free).run s = .ok () s' →
    Built t r (m.set (va / PGSIZE) npages fun _ => none) s'
  | other {m : PageMap} {s s' : Kernel} : Built t r m s → s'.Allocator →
    (∀ f v l, nodeAt s.pte r v l = some f → s'.pte f = s.pte f ∧ f ∉ s'.freelist) →
    Built t r m s'

variable {t : Slot} {m : PageMap}

/-- The table is a tree of its own, and maps what the calls have said. -/
theorem Built.table (h : Built t r m s) : ∃ lbl, Table s r lbl ∧
    (∀ v, v < 2 ^ 27 → mapping s.pte r v = m v) ∧ ∀ v, 2 ^ 26 ≤ v → m v = none := by
  induction h with
  | @create s s' ha hrun =>
    rw [uvmcreate] at hrun
    obtain ⟨p, s₁, hk, hrun⟩ := bind_run_ok hrun
    obtain ⟨f, rest, hf, rfl, rfl⟩ := ha.kalloc_ok hk
    simp only [memset, run_bind, run_modify] at hrun
    obtain ⟨he, rfl⟩ := Outcome.ok.inj hrun
    obtain rfl := Option.some.inj he
    have h0 : ∀ k, ¬ (((s.alloc f rest).fill f 0).pte f k).V := fun k => by
      show ¬ (Function.update (s.alloc f rest).pte f (fun _ => Pte.ofFill 0) f k).V
      rw [Function.update_self]
      decide
    have hnone : TreeOf Mapped ((s.alloc f rest).fill f 0).pte fun _ => none := by
      constructor <;> intros <;> contradiction
    refine ⟨Function.update (fun _ => none) f (some (f, .root)),
      ⟨(ha.kalloc hf).2.congr rfl rfl rfl, hnone.addRoot rfl h0, Function.update_self ..,
        fun g x hg => ?_, fun g hg => ?_⟩, fun v _ => mapping_empty h0 v, fun _ _ => rfl⟩
    · rcases TreeOf.label_cases hg with ⟨rfl, rfl⟩ | ⟨-, hg⟩
      · exact ⟨rfl, ha.managed g (by rw [hf]; exact List.mem_cons_self)⟩
      · cases hg
    · have hnodup := ha.nodup
      rw [hf] at hnodup
      have hgrest : g ∈ rest := hg
      rw [Function.update_of_ne]
      rintro rfl
      exact (List.nodup_cons.1 hnodup).1 hgrest
  | mappages _ hsize hva hperm hrun ih =>
    obtain ⟨lbl, hT, hmap, hhigh⟩ := ih
    obtain ⟨-, lbl', hT', hmap'⟩ := hT.mappages hsize hva hperm hrun
    refine ⟨lbl', hT', fun v hv => ?_, fun v hv => ?_⟩
    · rw [hmap' v hv, PageMap.set, PageMap.set, hmap v hv]
    · have hmax : MAXVA = 2 ^ 26 * PGSIZE := rfl
      rw [PageMap.set, if_neg, hhigh v hv]
      unfold PGSIZE at *
      omega
  | @uvmunmap m s s' va npages do_free _ halign hva hmapped hfree hrun ih =>
    obtain ⟨lbl, hT, hmap, hhigh⟩ := ih
    have hmax : MAXVA = 2 ^ 26 * PGSIZE := rfl
    have hva' : va = va / PGSIZE * PGSIZE := by
      unfold PGSIZE at *
      omega
    have hlt : va / PGSIZE + npages ≤ 2 ^ 26 := by
      unfold PGSIZE at *
      omega
    obtain ⟨s₁, hrun₁, hT₁, hmap₁, -⟩ := hT.uvmunmapLoop _ _ hlt (fun i hi => by
      rw [hmap _ (by omega)]
      exact hmapped i hi) hfree
    rw [Xv6.uvmunmap, if_neg (not_not_intro halign), hva', hrun₁] at hrun
    obtain ⟨-, rfl⟩ := Outcome.ok.inj hrun
    refine ⟨lbl, hT₁, fun v hv => ?_, fun v hv => ?_⟩
    · rw [hmap₁ v hv, PageMap.set, PageMap.set, hmap v hv]
    · rw [PageMap.set, if_neg (by omega), hhigh v hv]
  | @other m s s' _ ha hkeep ih =>
    obtain ⟨lbl, hT, hmap, hhigh⟩ := ih
    have hpte : ∀ f x, lbl f = some x → s'.pte f = s.pte f ∧ f ∉ s'.freelist := fun f x hf => by
      obtain ⟨v, l, hv⟩ := hT.reached hf
      exact hkeep f v l hv
    refine ⟨lbl, hT.congr ha (fun f x hf => (hpte f x hf).1) fun f hf => ?_, fun v hv => ?_, hhigh⟩
    · by_contra hne
      obtain ⟨x, hx⟩ := Option.ne_none_iff_exists'.1 hne
      exact (hpte f x hx).2 hf
    · rw [hT.tree.mapping_congr hT.root (fun f n hf => (hpte f _ hf).1), hmap v hv]

/-- After any calls, the table pages form a tree, `walk` finds just what has
been mapped and not unmapped since, the loop of `mappages` ends for every
range, `uvmunmap` of what is mapped succeeds, and when nothing is mapped
`freewalk` frees every page of the table, once. -/
theorem page_map (h : Built t r m s) :
    (∀ u v k l f, nodeAt s.pte r u k = some f → nodeAt s.pte r v l = some f →
      k = l ∧ Node.at u k = Node.at v l) ∧
    (∀ va, va < MAXVA → ∃ ptr, (walk kalloc r va false).run s = .ok ptr s ∧
      (ptr.bind fun x => if (s.pte x.1 x.2).V then some (s.pte x.1 x.2) else none) =
        m (va / PGSIZE)) ∧
    (∀ va size pa perm fuel, 0 < size → va + size ≤ MAXVA → size / PGSIZE + 1 < fuel →
      (mappagesUntil kalloc r perm (PGROUNDDOWN (va + size - 1)) fuel (PGROUNDDOWN va) pa).run s =
        (do return some (← mappages kalloc r va size pa perm)).run s) ∧
    (∀ va npages do_free, va % PGSIZE = 0 → va + npages * PGSIZE ≤ MAXVA →
      (∀ i < npages, m (va / PGSIZE + i) ≠ none) →
      (do_free = true → s.Frees r (va / PGSIZE) npages) →
      ∃ s', (uvmunmap kalloc t r va npages do_free).run s = .ok () s') ∧
    ((∀ v, m v = none) → ∃ s' ps, (freewalk 3 r).run s = .ok () s' ∧
      s'.freelist = ps ++ s.freelist ∧ ps.Nodup ∧
      ∀ f, f ∈ ps ↔ ∃ v l, nodeAt s.pte r v l = some f) := by
  obtain ⟨lbl, hT, hmap, hhigh⟩ := h.table
  have hmax : MAXVA = 2 ^ 26 * PGSIZE := rfl
  refine ⟨fun u v k l f hu hv => hT.nodeAt_inj hu hv, fun va hva => ?_,
    fun va size pa perm fuel hsize hva hfuel => ?_,
    fun va npages do_free halign hva hmapped hfree => ?_, fun hnone => ?_⟩
  · refine ⟨_, walk_run hva, ?_⟩
    have hlt : va / PGSIZE < 2 ^ 27 := by
      unfold PGSIZE at *
      omega
    rw [← hmap _ hlt, mapping, PX_eq]
    cases leafTable s.pte r (va / PGSIZE) <;> rfl
  · have hn : (PGROUNDDOWN (va + size - 1) - PGROUNDDOWN va) / PGSIZE =
        (va + size - 1) / PGSIZE - va / PGSIZE := by
      unfold PGROUNDDOWN PGSIZE
      omega
    have hlast : PGROUNDDOWN (va + size - 1) =
        (va / PGSIZE + ((va + size - 1) / PGSIZE - va / PGSIZE)) * PGSIZE := by
      unfold PGROUNDDOWN PGSIZE
      omega
    rw [mappages, if_neg (by omega)]
    dsimp only
    rw [hn, hlast]
    refine mappagesUntil_run pa ?_ ?_ s
    · unfold PGSIZE at *
      omega
    · unfold PGSIZE at *
      omega
  · have hva' : va = va / PGSIZE * PGSIZE := by
      unfold PGSIZE at *
      omega
    have hlt : va / PGSIZE + npages ≤ 2 ^ 26 := by
      unfold PGSIZE at *
      omega
    obtain ⟨s', hrun, -⟩ := hT.uvmunmapLoop kalloc t hlt (fun i hi => by
      rw [hmap _ (by omega)]
      exact hmapped i hi) hfree
    rw [← hva'] at hrun
    exact ⟨s', by rw [uvmunmap, if_neg (not_not_intro halign), hrun]⟩
  · obtain ⟨hh, hnd, hmem⟩ := hT.below_root fun v hv => (hmap v hv).trans (hnone v)
    obtain ⟨s', hrun, hfreed⟩ := freewalk_run 3 s r hT.alloc hh ⟨hnd, fun g hg => by
      obtain ⟨n, hn⟩ := (hmem g).1 hg
      refine ⟨(hT.own g _ hn).2, fun hgf => ?_⟩
      rw [hT.free g hgf] at hn
      cases hn⟩
    refine ⟨s', _, hrun, hfreed.freelist, List.nodup_reverse.2 hnd, fun f => ?_⟩
    rw [List.mem_reverse, hmem f]
    constructor
    · rintro ⟨n, hn⟩
      exact hT.reached hn
    · rintro ⟨v, l, hv⟩
      by_contra hno
      have hnone : lbl f = none := by
        by_contra hne
        obtain ⟨x, hx⟩ := Option.ne_none_iff_exists'.1 hne
        exact hno ⟨x.2, by rw [hx, ← (hT.own f x hx).1]⟩
      exact hT.not_reached.1 hnone v l hv

end

attribute [local instance] image

/-- The kernel at boot, with `n` free pages, has made a table. -/
def created (n : Nat) : Kernel := ((uvmcreate kalloc).run (Kernel.boot n)).state (Kernel.boot n)

theorem created_built {n : Nat} (hn : n + 1 ≤ totalPages) :
    Built initproc image.endPage (fun _ => none) (created (n + 1)) := by
  have hboot := Kernel.boot_atBoot hn
  have ha : (Kernel.boot (n + 1)).Allocator :=
    ⟨hboot.nodup, hboot.managed, hboot.free, hboot.max⟩
  obtain ⟨rest, hf⟩ : ∃ rest, (Kernel.boot (n + 1)).freelist = image.endPage :: rest := by
    refine ⟨((List.range n).map Nat.succ).map (image.endPage + ·), ?_⟩
    show (List.range (n + 1)).map (image.endPage + ·) = _
    rw [List.range_succ_eq_map, List.map_cons]
    rfl
  refine .create ha ?_
  rw [created, uvmcreate, run_bind, (ha.kalloc hf).1]
  rfl

/-- A page is mapped in a new table. -/
def onceMapped : Outcome Kernel Int :=
  (mappages kalloc image.endPage (5 * PGSIZE) PGSIZE 7 { R := true }).run (created 4)

theorem page_map_one : ∃ s ptr, (walk kalloc image.endPage (5 * PGSIZE) false).run s = .ok ptr s ∧
    (ptr.bind fun x => if (s.pte x.1 x.2).V then some (s.pte x.1 x.2) else none) =
      some { V := true, R := true, pa := 7 } := by
  have hb := created_built (n := 3) (by decide)
  obtain ⟨lbl, hT, -⟩ := hb.table
  obtain ⟨res, hres⟩ := Outcome.eq_ok (o := onceMapped) (by decide +kernel) (created 4)
  obtain ⟨rfl, -⟩ := hT.mappages (by decide) (by decide) rfl hres
  obtain ⟨ptr, hrun, hptr⟩ := (page_map (.mappages hb (by decide) (by decide) rfl hres)).2.1
    (5 * PGSIZE) (by decide)
  exact ⟨_, ptr, hrun, hptr⟩

end Xv6
