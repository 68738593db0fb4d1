/-
A page table is a partial map from pages to frames with permissions: what
`uvmcreate`, `mappages` and `uvmunmap` make of it, with `kalloc` on a free
list that has none of its pages.
-/
import Xv6.Kernel.Alone

namespace Xv6

open Conc Prog

/-- What is mapped at each page. -/
abbrev PageMap := Nat → Option Pte

/-- `n` pages from `v` on, mapped anew. -/
def PageMap.set (m : PageMap) (v n : Nat) (e : Nat → Option Pte) : PageMap :=
  fun u => if v ≤ u ∧ u < v + n then e (u - v) else m u

/-- A valid entry of the lowest level maps something. -/
def Mapped (_ : Nat) (p : Pte) : Prop := p.rwx = true

variable [KernelImage]

/-- The table at `r`, with its pages where `lbl` says. -/
structure Table (s : Kernel) (r : Frame) (lbl : Frame → Option (Frame × Node)) : Prop where
  alloc : s.Allocator
  tree : TreeOf Mapped s.pte lbl
  root : lbl r = some (r, .root)
  own : ∀ f x, lbl f = some x → x.1 = r ∧ managed f
  free : ∀ f ∈ s.freelist, lbl f = none

variable {s s' : Kernel} {r f g : Frame} {lbl : Frame → Option (Frame × Node)} {t : Slot}

/-- A table page is at one place of the tree. -/
theorem Table.nodeAt_inj (h : Table s r lbl) {u v k l : Nat} (hu : nodeAt s.pte r u k = some f)
    (hv : nodeAt s.pte r v l = some f) : k = l ∧ Node.at u k = Node.at v l := by
  have hle : ∀ {w j}, nodeAt s.pte r w j = some f → j ≤ 2 := fun {w j} hw => by
    match j with
    | 0 | 1 | 2 => omega
    | _ + 3 => cases hw
  have hlu := (h.tree.nodeAt_iff h.root (hle hu)).1 hu
  have hlv := (h.tree.nodeAt_iff h.root (hle hv)).1 hv
  have heq := (Prod.mk.inj (Option.some.inj (hlu.symm.trans hlv))).2
  refine ⟨?_, heq⟩
  have hk := hle hu
  have hl := hle hv
  obtain rfl | rfl | rfl : k = 0 ∨ k = 1 ∨ k = 2 := by omega
  all_goals obtain rfl | rfl | rfl : l = 0 ∨ l = 1 ∨ l = 2 := by omega
  all_goals first | rfl | cases heq

/-- Every labelled page is reached by a walk. -/
theorem Table.reached (h : Table s r lbl) {x : Frame × Node} (hf : lbl f = some x) :
    ∃ v l, nodeAt s.pte r v l = some f := by
  obtain ⟨q, n⟩ := x
  obtain rfl : q = r := (h.own f _ hf).1
  cases n with
  | root => exact ⟨0, 2, by rw [h.tree.root hf]; rfl⟩
  | mid i =>
    have hi := (h.tree.mid_linked hf).1
    refine ⟨i * 512 ^ 2, 1, (h.tree.nodeAt_iff h.root (by omega)).2 ?_⟩
    rw [hf, Node.at, index, show i * 512 ^ 2 / 512 ^ 2 % 512 = i by omega]
  | leaf i j =>
    obtain ⟨hj, g, hg, -⟩ := h.tree.leaf_linked hf
    have hi := (h.tree.mid_linked hg).1
    refine ⟨i * 512 ^ 2 + j * 512, 0, (h.tree.nodeAt_iff h.root (by omega)).2 ?_⟩
    rw [hf, Node.at, index, index, show (i * 512 ^ 2 + j * 512) / 512 ^ 2 % 512 = i by omega,
      show (i * 512 ^ 2 + j * 512) / 512 ^ 1 % 512 = j by omega]

/-- The labels are those of the pages that walks reach. -/
theorem Table.not_reached (h : Table s r lbl) :
    lbl f = none ↔ ∀ v l, nodeAt s.pte r v l ≠ some f := by
  constructor
  · intro hf v l hv
    match l with
    | 0 | 1 | 2 =>
      rw [(h.tree.nodeAt_iff h.root (by omega)).1 hv] at hf
      cases hf
    | _ + 3 => cases hv
  · intro hno
    by_contra hne
    obtain ⟨x, hx⟩ := Option.ne_none_iff_exists'.1 hne
    obtain ⟨v, l, hv⟩ := h.reached hx
    exact hno v l hv

/-- Changes elsewhere. -/
theorem Table.congr (h : Table s r lbl) (ha : s'.Allocator)
    (hpte : ∀ f x, lbl f = some x → s'.pte f = s.pte f)
    (hfree : ∀ f ∈ s'.freelist, lbl f = none) : Table s' r lbl :=
  ⟨ha, h.tree.congr fun f q n hf => hpte f (q, n) hf, h.root, h.own, hfree⟩

/-! ## A new table page -/

/-- `walk` takes page `f` for entry `i` of page `g`. -/
def Kernel.grow (s : Kernel) (f : Frame) (rest : List Frame) (g i : Nat) : Kernel :=
  ((s.alloc f rest).fill f 0).setPte (g, i) { pa := f, V := true }

omit [KernelImage] in
theorem grow_pte (rest : List Frame) (i : Nat) : (s.grow f rest g i).pte =
    setEntry (Function.update s.pte f fun _ => Pte.ofFill 0) g i (link f) := by
  have hfill : ((s.alloc f rest).fill f 0).pte = Function.update s.pte f fun _ => Pte.ofFill 0 := by
    show Function.update (Function.update s.pte f _) f _ = _
    rw [Function.update_idem]
  show Function.update ((s.alloc f rest).fill f 0).pte g _ = _
  rw [hfill]
  rfl

theorem Table.grow (h : Table s r lbl) {rest : List Frame} {m c : Node} {i : Nat}
    (hf : s.freelist = f :: rest) (hg : lbl g = some (r, m)) (hc : m.child i = some c)
    (hi : i < 512) (hv : ¬ (s.pte g i).V) :
    Table (s.grow f rest g i) r (Function.update lbl f (some (r, c))) ∧
      ∀ v, mapping (s.grow f rest g i).pte r v = mapping s.pte r v := by
  have hfree : lbl f = none := h.free f (by rw [hf]; exact List.mem_cons_self)
  have hkeep : ∀ f' x, lbl f' = some x →
      Function.update s.pte f (fun _ => Pte.ofFill 0) f' = s.pte f' := fun f' x hx => by
    have hne : f' ≠ f := by
      rintro rfl
      rw [hfree] at hx
      cases hx
    rw [Function.update_of_ne hne]
  have htree : TreeOf Mapped (Function.update s.pte f fun _ => Pte.ofFill 0) lbl :=
    h.tree.congr fun f' q n hx => hkeep f' _ hx
  have h0 : ∀ k, ¬ (Function.update s.pte f (fun _ => Pte.ofFill 0) f k).V := fun k => by
    rw [Function.update_self]
    decide
  have hv' : ¬ (Function.update s.pte f (fun _ => Pte.ofFill 0) g i).V := by
    rwa [hkeep g _ hg]
  have hmanaged : managed f := h.alloc.managed f (by rw [hf]; exact List.mem_cons_self)
  refine ⟨⟨?_, ?_, ?_, fun f' x hx => ?_, fun f' hf' => ?_⟩, fun v => ?_⟩
  · exact (h.alloc.kalloc hf).2.congr rfl rfl rfl
  · rw [grow_pte]
    exact htree.addNode hg hc hi hv' hfree h0
  · exact TreeOf.label_kept hfree h.root
  · rcases TreeOf.label_cases hx with ⟨rfl, rfl⟩ | ⟨-, hx⟩
    · exact ⟨rfl, hmanaged⟩
    · exact h.own f' x hx
  · have hnodup := h.alloc.nodup
    rw [hf] at hnodup
    have hf'rest : f' ∈ rest := hf'
    have hne : f' ≠ f := by
      rintro rfl
      exact (List.nodup_cons.1 hnodup).1 hf'rest
    rw [Function.update_of_ne hne]
    exact h.free f' (by rw [hf]; exact List.mem_cons_of_mem _ hf'rest)
  · rw [grow_pte, htree.mapping_addNode hg hc hi hv' hfree h0 h.root]
    exact h.tree.mapping_congr h.root (fun f' n hx => hkeep f' _ hx) v

/-- From `s` to `s'` the table has only taken pages that were free, and no
other page holds other entries. -/
structure Kernel.Extends (s s' : Kernel) (lbl lbl' : Frame → Option (Frame × Node)) : Prop where
  free : ∀ f, f ∈ s'.freelist → f ∈ s.freelist
  label : ∀ f, f ∉ s.freelist → lbl' f = lbl f
  pte : ∀ f, f ∉ s.freelist → lbl f = none → s'.pte f = s.pte f
  proc : s'.proc = s.proc

section

omit [KernelImage]

variable {s'' : Kernel} {lbl' lbl'' : Frame → Option (Frame × Node)}

theorem Kernel.Extends.refl (s : Kernel) (lbl : Frame → Option (Frame × Node)) :
    s.Extends s lbl lbl := ⟨fun _ hf => hf, fun _ _ => rfl, fun _ _ _ => rfl, rfl⟩

theorem Kernel.Extends.trans (h : s.Extends s' lbl lbl') (h' : s'.Extends s'' lbl' lbl'') :
    s.Extends s'' lbl lbl'' := by
  have hold : ∀ {f}, f ∉ s.freelist → f ∉ s'.freelist := fun hf hmem => hf (h.free _ hmem)
  refine ⟨fun f hf => h.free f (h'.free f hf), fun f hf => ?_, fun f hf hl => ?_,
    h'.proc.trans h.proc⟩
  · rw [h'.label f (hold hf), h.label f hf]
  · rw [h'.pte f (hold hf) (by rw [h.label f hf, hl]), h.pte f hf hl]

/-- An entry of the table is written. -/
theorem Kernel.Extends.setPte {x : Frame × Node} (hf : lbl f = some x) (i : Nat) (p : Pte) :
    s.Extends (s.setPte (f, i) p) lbl lbl := by
  refine ⟨fun _ hg => hg, fun _ _ => rfl, fun g _ hg => ?_, rfl⟩
  have hne : g ≠ f := by
    rintro rfl
    rw [hf] at hg
    cases hg
  exact Function.update_of_ne hne ..

theorem Kernel.Extends.grow {x y : Frame × Node} {rest : List Frame} (hf : s.freelist = f :: rest)
    (hg : lbl g = some x) (i : Nat) :
    s.Extends (s.grow f rest g i) lbl (Function.update lbl f (some y)) := by
  have hne : ∀ {f'}, f' ∉ s.freelist → f' ≠ f := fun hf' he =>
    hf' (by rw [he, hf]; exact List.mem_cons_self)
  refine ⟨fun f' hf' => ?_, fun f' hf' => Function.update_of_ne (hne hf') .., fun f' hf' hl => ?_,
    rfl⟩
  · rw [hf]
    exact List.mem_cons_of_mem f hf'
  · have hne' : f' ≠ g := by
      rintro rfl
      rw [hg] at hl
      cases hl
    rw [grow_pte, setEntry_of_ne _ _ hne', Function.update_of_ne (hne hf')]

end

/-- `walk` with `alloc` finds the page of the lowest level, and changes no
translation. -/
theorem Table.walkLevel (h : Table s r lbl) {va level n : Nat} {res : Option PtePtr}
    (hl : level ≤ 2) (hn : lbl n = some (r, Node.at (va / PGSIZE) level))
    (hr : (Xv6.walkLevel kalloc va true level n).run s = .ok res s') :
    ∃ lbl', Table s' r lbl' ∧ s.Extends s' lbl lbl' ∧
      (∀ v, mapping s'.pte r v = mapping s.pte r v) ∧
      ∃ f, res = some (f, PX 0 va) ∧ leafTable s'.pte r (va / PGSIZE) = some f := by
  induction level generalizing s lbl n with
  | zero =>
    obtain ⟨rfl, rfl⟩ := Outcome.ok.inj hr
    exact ⟨lbl, h, .refl s lbl, fun _ => rfl, n, rfl, (h.tree.leafTable_iff h.root).2 hn⟩
  | succ level ih =>
    have hchild := Node.at_child (va / PGSIZE) (by omega : level < 2)
    have hlt := index_lt (va / PGSIZE) (level + 1)
    simp only [Xv6.walkLevel, readPte, run_bind, run_read, PX_eq] at hr
    split at hr
    next hv => exact ih h (by omega) (h.tree.down hn hchild hlt hv).2 hr
    next hv =>
      simp only [not_true_eq_false, if_false] at hr
      obtain ⟨p, s₁, hk, hr⟩ := bind_run_ok hr
      obtain ⟨f, rest, hf, rfl, rfl⟩ := h.alloc.kalloc_ok hk
      simp only [run_bind, memset, writePte, run_modify] at hr
      obtain ⟨hT, hmap⟩ := h.grow hf hn hchild hlt hv
      obtain ⟨lbl', hT', hext, hmap', hres⟩ := ih hT (by omega) (Function.update_self ..) hr
      exact ⟨lbl', hT', (Kernel.Extends.grow hf hn _).trans hext,
        fun v => (hmap' v).trans (hmap v), hres⟩

/-! ## One entry -/

/-- `*pte = p` at the lowest level. -/
theorem Table.setPte (h : Table s r lbl) {v : Nat} {p : Pte} (hv : v < 2 ^ 27)
    (hf : leafTable s.pte r v = some f) (hp : p.V → p.rwx = true) :
    Table (s.setPte (f, index v 0) p) r lbl ∧ ∀ u, u < 2 ^ 27 →
      mapping (s.setPte (f, index v 0) p).pte r u =
        if u = v then (if p.V then some p else none) else mapping s.pte r u := by
  have hpte : (s.setPte (f, index v 0) p).pte = setEntry s.pte f (index v 0) p := rfl
  have hlf := (h.tree.leafTable_iff h.root).1 hf
  refine ⟨⟨h.alloc.congr rfl rfl rfl, ?_, h.root, h.own, h.free⟩, fun u hu => ?_⟩
  · rw [hpte]
    exact h.tree.setLeaf hlf hp
  · rw [hpte, h.tree.mapping_setLeaf h.root hf hv h.root hu]
    simp only [true_and]

/-! ## mappages -/

/-- The entries that `mappages` writes. -/
def pagesFrom (pa : Frame) (perm : Flags) (i : Nat) : Option Pte :=
  some { perm with V := true, pa := pa + i }

omit [KernelImage] in
theorem page_div (v : Nat) : v * PGSIZE / PGSIZE = v := Nat.mul_div_cancel _ (by decide)

omit [KernelImage] in
theorem page_lt {v : Nat} : v * PGSIZE < MAXVA ↔ v < 2 ^ 26 := by
  unfold PGSIZE MAXVA
  omega

/-- An iteration of `mappages`, before it goes on with `k`. -/
theorem Table.mapPage (h : Table s r lbl) {perm : Flags} {v : Nat} {pa : Frame} {res : Int}
    {k : Prog Kernel Int} (hv : v < 2 ^ 26) (hperm : (perm.R || perm.W || perm.X) = true)
    (hr : (do
      match ← walk kalloc r (v * PGSIZE) true with
      | none => return -1
      | some ptr =>
        let pte ← readPte ptr
        if pte.V then fail "mappages: remap"
        else
          writePte ptr { perm with V := true, pa := pa }
          k).run s = .ok res s') :
    ∃ s₁ lbl₁, Table s₁ r lbl₁ ∧ s.Extends s₁ lbl lbl₁ ∧ k.run s₁ = .ok res s' ∧
      ∀ u, u < 2 ^ 27 →
      mapping s₁.pte r u = if u = v then pagesFrom pa perm 0 else mapping s.pte r u := by
  have hmax := page_lt.2 hv
  rw [walk, if_neg (by omega)] at hr
  obtain ⟨p, s₁, hw, hr⟩ := bind_run_ok hr
  obtain ⟨lbl₁, hT, hext, hmap, f, rfl, hf⟩ := h.walkLevel (Nat.le_refl 2) h.root hw
  rw [page_div] at hf
  simp only [readPte, run_bind, run_read, PX_eq, page_div] at hr
  split at hr
  next => cases hr
  next =>
    simp only [writePte, run_bind, run_modify] at hr
    obtain ⟨hT', hmap'⟩ := hT.setPte (p := { perm with V := true, pa := pa })
      (by omega : v < 2 ^ 27) hf fun _ => hperm
    refine ⟨_, lbl₁, hT', hext.trans (.setPte ((hT.tree.leafTable_iff hT.root).1 hf) _ _), hr,
      fun u hu => ?_⟩
    rw [hmap' u hu, hmap]
    rfl

theorem Table.mappagesLoop (h : Table s r lbl) {perm : Flags} {n v : Nat} {pa : Frame} {res : Int}
    (hn : v + n < 2 ^ 26) (hperm : (perm.R || perm.W || perm.X) = true)
    (hr : (Xv6.mappagesLoop kalloc r perm n (v * PGSIZE) pa).run s = .ok res s') :
    res = 0 ∧ ∃ lbl', Table s' r lbl' ∧ s.Extends s' lbl lbl' ∧ ∀ u, u < 2 ^ 27 →
      mapping s'.pte r u =
        PageMap.set (mapping s.pte r) v (n + 1) (pagesFrom pa perm) u := by
  induction n generalizing s lbl v pa with
  | zero =>
    unfold Xv6.mappagesLoop at hr
    obtain ⟨s₁, lbl₁, hT, hext, hk, hmap⟩ := h.mapPage (by omega) hperm hr
    obtain ⟨rfl, rfl⟩ := Outcome.ok.inj hk
    refine ⟨rfl, lbl₁, hT, hext, fun u hu => ?_⟩
    rw [hmap u hu, PageMap.set]
    by_cases huv : u = v
    · rw [if_pos huv, if_pos (by omega), show u - v = 0 by omega]
    · rw [if_neg huv, if_neg (by omega)]
  | succ n ih =>
    unfold Xv6.mappagesLoop at hr
    obtain ⟨s₁, lbl₁, hT, hext, hk, hmap⟩ := h.mapPage (by omega) hperm hr
    rw [← Nat.succ_mul] at hk
    obtain ⟨hres, lbl', hT', hext', hmap'⟩ := ih hT (by omega) hk
    refine ⟨hres, lbl', hT', hext.trans hext', fun u hu => ?_⟩
    rw [hmap' u hu, PageMap.set, PageMap.set, hmap u hu]
    by_cases huv : u = v
    · rw [if_neg (by omega), if_pos huv, if_pos (by omega), show u - v = 0 by omega]
    · by_cases hin : v + 1 ≤ u ∧ u < v + 1 + (n + 1)
      · rw [if_pos hin, if_pos (by omega), pagesFrom, pagesFrom,
          show u - v = 1 + (u - (v + 1)) by omega, ← Nat.add_assoc]
      · rw [if_neg hin, if_neg huv, if_neg (by omega)]

/-- `mappages` of a range below `MAXVA`. -/
theorem Table.mappages (h : Table s r lbl) {perm : Flags} {va size : Nat} {pa : Frame} {res : Int}
    (hsize : 0 < size) (hva : va + size ≤ MAXVA)
    (hperm : (perm.R || perm.W || perm.X) = true)
    (hr : (Xv6.mappages kalloc r va size pa perm).run s = .ok res s') :
    res = 0 ∧ ∃ lbl', Table s' r lbl' ∧ ∀ u, u < 2 ^ 27 → mapping s'.pte r u =
      PageMap.set (mapping s.pte r) (va / PGSIZE) ((va + size - 1) / PGSIZE - va / PGSIZE + 1)
        (pagesFrom pa perm) u := by
  have hmax : MAXVA = 2 ^ 26 * PGSIZE := rfl
  have hn : (PGROUNDDOWN (va + size - 1) - PGROUNDDOWN va) / PGSIZE =
      (va + size - 1) / PGSIZE - va / PGSIZE := by
    unfold PGROUNDDOWN PGSIZE
    omega
  rw [Xv6.mappages, if_neg (by omega)] at hr
  dsimp only at hr
  rw [hn] at hr
  have hlast : va / PGSIZE + ((va + size - 1) / PGSIZE - va / PGSIZE) < 2 ^ 26 := by
    unfold PGSIZE at *
    omega
  obtain ⟨hres, lbl', hT, -, hmap⟩ := h.mappagesLoop hlast hperm hr
  exact ⟨hres, lbl', hT, hmap⟩

/-! ## uvmunmap -/

/-- Page `g` is as it was, and has not become free. -/
structure Kernel.Spares (s s' : Kernel) (g : Frame) : Prop where
  mem : s'.mem g = s.mem g
  pte : s'.pte g = s.pte g
  free : g ∈ s'.freelist → g ∈ s.freelist

omit [KernelImage] in
theorem Kernel.Spares.trans {s'' : Kernel} (h : s.Spares s' g) (h' : s'.Spares s'' g) :
    s.Spares s'' g :=
  ⟨h'.mem.trans h.mem, h'.pte.trans h.pte, fun hg => h.free (h'.free hg)⟩

/-- The table does not see its data pages go. -/
theorem Table.kref_dec (h : Table s r lbl) (hm : managed f) (hf : f ∉ s.freelist)
    (hl : lbl f = none) : ∃ s', (Xv6.kref_dec f).run s = .ok () s' ∧ Table s' r lbl ∧
      (∀ v, mapping s'.pte r v = mapping s.pte r v) ∧
      (∀ g ∈ s'.freelist, g = f ∨ g ∈ s.freelist) ∧ s'.proc = s.proc ∧
      ∀ g, g ≠ f → s.Spares s' g := by
  rw [kref_dec_run]
  split
  next =>
    have ha : (s.setRef f 0).Allocator := h.alloc.congr rfl rfl rfl
    obtain ⟨hrun, ha'⟩ := ha.kfree hm hf
    have hkeep : ∀ g x, lbl g = some x →
        (((s.setRef f 0).fill f 1).push f).pte g = s.pte g := fun g x hg => by
      have hne : g ≠ f := by
        rintro rfl
        rw [hl] at hg
        cases hg
      exact Function.update_of_ne hne ..
    have hT := h.congr ha' hkeep fun g hg => by
      rcases List.mem_cons.1 hg with rfl | hg
      · exact hl
      · exact h.free g hg
    refine ⟨_, hrun, hT, h.tree.mapping_congr h.root fun g n hg => hkeep g _ hg,
      fun g hg => List.mem_cons.1 hg, rfl, fun g hne => ⟨?_, ?_, fun hg => ?_⟩⟩
    · exact Function.update_of_ne hne ..
    · exact Function.update_of_ne hne ..
    · exact (List.mem_cons.1 hg).resolve_left hne
  next =>
    exact ⟨_, rfl, h.congr (h.alloc.congr rfl rfl rfl) (fun _ _ _ => rfl) h.free, fun _ => rfl,
      fun g hg => .inr hg, rfl, fun _ _ => ⟨rfl, rfl, id⟩⟩

/-- `uvmunmap` with `do_free` drops frames that are the allocator's, not free
and not pages of the table, each of them once. -/
def Kernel.Frees (s : Kernel) (r : Frame) (v n : Nat) : Prop :=
  ∀ i < n, ∀ p, mapping s.pte r (v + i) = some p → managed p.pa ∧ p.pa ∉ s.freelist ∧
    (∀ u l, nodeAt s.pte r u l ≠ some p.pa) ∧
    ∀ j < n, ∀ q, mapping s.pte r (v + j) = some q → q.pa = p.pa → j = i

theorem Table.uvmunmapLoop (h : Table s r lbl) (ka : Kalloc) (t : Slot) {do_free : Bool} {n v : Nat}
    (hn : v + n ≤ 2 ^ 26) (hmapped : ∀ i < n, mapping s.pte r (v + i) ≠ none)
    (hfree : do_free = true → s.Frees r v n) :
    ∃ s', (Xv6.uvmunmapLoop ka t r do_free n (v * PGSIZE)).run s = .ok () s' ∧ Table s' r lbl ∧
      (∀ u, u < 2 ^ 27 →
        mapping s'.pte r u = PageMap.set (mapping s.pte r) v n (fun _ => none) u) ∧
      s'.proc = s.proc ∧ ∀ g, lbl g = none → (do_free = true → ∀ i < n, ∀ p,
        mapping s.pte r (v + i) = some p → p.pa ≠ g) → s.Spares s' g := by
  induction n generalizing s v with
  | zero =>
    refine ⟨s, rfl, h, fun u hu => ?_, rfl, fun _ _ _ => ⟨rfl, rfl, id⟩⟩
    rw [PageMap.set, if_neg (by omega)]
  | succ n ih =>
    obtain ⟨p, hp⟩ := Option.ne_none_iff_exists'.1 (hmapped 0 (by omega))
    rw [Nat.add_zero] at hp
    obtain ⟨f, hf, rfl, hV⟩ := h.tree.mapping_some h.root hp
    have hleaf := (h.tree.leafTable_iff h.root).2 hf
    have hok : (s.pte f (index v 0)).rwx = true :=
      (h.tree.mapping_ok h.root (by omega : v < 2 ^ 27) hp).2
    -- the reference that the mapping held
    obtain ⟨s₁, hdrop, hT, hmap₁, hl₁, hproc₁, hspare₁⟩ : ∃ s₁,
        (if do_free then Xv6.kref_dec (s.pte f (index v 0)).pa else pure ()).run
          (s.setBusy t (some (r, v))) = .ok () s₁ ∧ Table s₁ r lbl ∧
        (∀ u, mapping s₁.pte r u = mapping s.pte r u) ∧
        (∀ g ∈ s₁.freelist, (do_free = true ∧ g = (s.pte f (index v 0)).pa) ∨ g ∈ s.freelist) ∧
        s₁.proc = s.proc ∧
        ∀ g, (do_free = true → g ≠ (s.pte f (index v 0)).pa) → s.Spares s₁ g := by
      have hT₀ : Table (s.setBusy t (some (r, v))) r lbl :=
        h.congr (h.alloc.congr rfl rfl rfl) (fun _ _ _ => rfl) h.free
      cases hd : do_free with
      | false =>
        exact ⟨_, rfl, hT₀, fun _ => rfl, fun g hg => .inr hg, rfl, fun _ _ => ⟨rfl, rfl, id⟩⟩
      | true =>
        obtain ⟨hm, hnf, hnt, -⟩ := hfree hd 0 (by omega) _ hp
        obtain ⟨s₁, hrun, hT, hmap, hl, hproc, hspare⟩ :=
          hT₀.kref_dec hm hnf (h.not_reached.2 hnt)
        refine ⟨s₁, hrun, hT, hmap, fun g hg => (hl g hg).imp_left fun he => ⟨rfl, he⟩, hproc,
          fun g hg => ?_⟩
        have hs := hspare g (hg rfl)
        exact ⟨hs.mem, hs.pte, hs.free⟩
    have hleaf₁ := (hT.tree.leafTable_iff hT.root).2 hf
    obtain ⟨hT₂, hmap₂⟩ := hT.setPte (p := {}) (by omega : v < 2 ^ 27) hleaf₁ nofun
    have hT₃ : Table ((s₁.setPte (f, index v 0) {}).setBusy t none) r lbl :=
      hT₂.congr (hT₂.alloc.congr rfl rfl rfl) (fun _ _ _ => rfl) hT₂.free
    have hmap₃ : ∀ u, u < 2 ^ 27 → mapping ((s₁.setPte (f, index v 0) {}).setBusy t none).pte r u =
        if u = v then none else mapping s.pte r u := fun u hu => by
      rw [← hmap₁ u]
      exact hmap₂ u hu
    obtain ⟨s', hrun, hT', hmap', hproc', hspare'⟩ := ih hT₃ (v := v + 1) (by omega) (fun i hi => by
      rw [hmap₃ _ (by omega), if_neg (by omega), Nat.add_assoc, Nat.add_comm 1]
      exact hmapped (i + 1) (by omega)) fun hd i hi q hq => by
        rw [hmap₃ _ (by omega), if_neg (by omega), Nat.add_assoc, Nat.add_comm 1] at hq
        obtain ⟨hm, hnf, hnt, hone⟩ := hfree hd (i + 1) (by omega) q hq
        refine ⟨hm, fun hmem => ?_, hT₃.not_reached.1 (h.not_reached.2 hnt),
          fun j hj q' hq' he => ?_⟩
        · rcases hl₁ _ hmem with ⟨-, hpa⟩ | hmem
          · exact absurd (hone 0 (by omega) _ hp hpa.symm) (by omega)
          · exact hnf hmem
        · rw [hmap₃ _ (by omega), if_neg (by omega), Nat.add_assoc, Nat.add_comm 1] at hq'
          have hji := hone (j + 1) (by omega) q' hq' he
          omega
    refine ⟨s', ?_, hT', fun u hu => ?_, hproc'.trans hproc₁, fun g hg hno => ?_⟩
    · have hflags : ¬ ¬ ((s.pte f (index v 0)).rwx || (s.pte f (index v 0)).U ||
          (s.pte f (index v 0)).COW) = true := by simp [hok]
      have hva := page_lt.2 (by omega : v < 2 ^ 26)
      unfold Xv6.uvmunmapLoop
      have hbusy : (s.setBusy t (some (r, v))).pte = s.pte := rfl
      simp only [mark, run_bind, run_modify, page_div, walk_run hva, hbusy, hleaf, Option.map_some,
        readPte, run_read, PX_eq, hV, not_true_eq_false, if_false, if_neg hflags, hdrop, writePte]
      rw [← Nat.succ_mul]
      exact hrun
    · rw [hmap' u hu, PageMap.set, PageMap.set, hmap₃ u hu]
      by_cases huv : u = v
      · rw [if_neg (by omega), if_pos huv, if_pos (by omega)]
      · by_cases hin : v + 1 ≤ u ∧ u < v + 1 + n
        · rw [if_pos hin, if_pos (by omega)]
        · rw [if_neg hin, if_neg huv, if_neg (by omega)]
    · have hne : g ≠ f := by
        rintro rfl
        rw [hf] at hg
        cases hg
      have hs₁ := hspare₁ g fun hd => (hno hd 0 (by omega) _ hp).symm
      have hs₂ : s₁.Spares ((s₁.setPte (f, index v 0) {}).setBusy t none) g :=
        ⟨rfl, Function.update_of_ne hne .., id⟩
      refine (hs₁.trans hs₂).trans (hspare' g hg fun hd i hi p hp' => ?_)
      rw [hmap₃ _ (by omega), if_neg (by omega), Nat.add_assoc, Nat.add_comm 1] at hp'
      exact hno hd (i + 1) (by omega) p hp'

end Xv6
