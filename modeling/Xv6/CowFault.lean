/-
trap.c: the copy-on-write fault.

Between system calls the count of a user frame is the number of processes
that map it. A fault moves one process to a fresh frame, and the frame that
it leaves goes back to the allocator with the last of them, so that the free
pages and the frames of a group of processes always come to the same sum.
-/
import Xv6.Kernel.Alone
import Xv6.Kernel.System

namespace Xv6

open Conc Prog

/-- What process `q` has mapped at page `v`. -/
def Kernel.entry (s : Kernel) (q : Slot) (v : Nat) : Option Pte :=
  (s.proc q).pagetable.bind fun r => mapping s.pte r v

theorem Kernel.userPte_eq (s : Kernel) (q : Slot) {va : Nat} (hva : va < MAXVA) :
    s.userPte q va = s.entry q (va / PGSIZE) := if_pos hva

open Classical in
/-- The processes that map a frame. -/
noncomputable def Kernel.sharers (s : Kernel) (f : Frame) : Finset Slot :=
  Finset.univ.filter fun q => ∃ v < userPages, ∃ p, s.entry q v = some p ∧ p.pa = f

variable {s s' : Kernel} {lbl : Frame → Option (Frame × Node)} {t q : Slot} {v va : Nat} {p : Pte}
  {f g n r : Frame} {rest : List Frame}

theorem Kernel.mem_sharers :
    q ∈ s.sharers f ↔ ∃ v < userPages, ∃ p, s.entry q v = some p ∧ p.pa = f := by
  simp [Kernel.sharers]

theorem Kernel.sharer (hv : v < userPages) (he : s.entry t v = some p) : t ∈ s.sharers p.pa :=
  mem_sharers.2 ⟨v, hv, p, he, rfl⟩

section

variable [KernelImage]

/-- User memory as it is between system calls: the tables are apart, user
frames are the allocator's but neither free nor in a table, and are counted.
A frame that a process may write is its own. -/
structure Kernel.Memory (s : Kernel) (lbl : Frame → Option (Frame × Node)) : Prop where
  alloc : s.Allocator
  tree : Tree s.pte lbl
  root : ∀ {q r}, (s.proc q).pagetable = some r → lbl r = some (r, .root)
  own : ∀ {q q' r}, (s.proc q).pagetable = some r → (s.proc q').pagetable = some r → q = q'
  node : ∀ {f x}, lbl f = some x → f ∉ s.freelist
  page : ∀ {q v p}, v < userPages → s.entry q v = some p →
    managed p.pa ∧ p.pa ∉ s.freelist ∧ lbl p.pa = none
  once : ∀ {q v w p p'}, v < userPages → w < userPages → s.entry q v = some p →
    s.entry q w = some p' → p.pa = p'.pa → v = w
  count : ∀ {q v p}, v < userPages → s.entry q v = some p →
    s.refcounts p.pa = (s.sharers p.pa).card
  writable : ∀ {q v p}, v < userPages → s.entry q v = some p → p.W →
    p.COW = false ∧ s.sharers p.pa = {q}

namespace Kernel.Memory

variable (h : s.Memory lbl)
include h

theorem entry_leaf (he : s.entry t v = some p) : ∃ r n, (s.proc t).pagetable = some r ∧
    leafTable s.pte r v = some n ∧ lbl n = some (r, .leaf (index v 2) (index v 1)) ∧
    p = s.pte n (index v 0) ∧ p.V := by
  obtain ⟨r, hr, hm⟩ := Option.bind_eq_some_iff.1 he
  obtain ⟨n, hn, hp, hV⟩ := h.tree.mapping_some (h.root hr) hm
  exact ⟨r, n, hr, (h.tree.leafTable_iff (h.root hr)).2 hn, hn, hp, hV⟩

theorem user_lt (hv : v < 2 ^ 27) (he : s.entry t v = some p) (hU : p.U) : v < userPages := by
  obtain ⟨r, hr, hm⟩ := Option.bind_eq_some_iff.1 he
  by_contra hlt
  exact (h.tree.mapping_ok (h.root hr) hv hm).2.2 (by omega) hU

theorem fresh_ne (hf : s.freelist = f :: rest) (hv : v < userPages) (he : s.entry t v = some p) :
    p.pa ≠ f := fun hpa => by
  refine (h.page hv he).2.1 ?_
  rw [hpa, hf]
  exact List.mem_cons_self

theorem count_le (hv : v < userPages) (he : s.entry t v = some p) :
    0 < s.refcounts p.pa ∧ s.refcounts p.pa < UINT8_MAX := by
  rw [h.count hv he]
  refine ⟨Finset.card_pos.2 ⟨t, Kernel.sharer hv he⟩, Nat.lt_of_le_of_lt (Finset.card_le_univ _) ?_⟩
  rw [Fintype.card_fin]
  decide

end Kernel.Memory

/-- The entry that a resolved fault writes. -/
def Pte.resolved (p : Pte) (f : Frame) : Pte := { p with COW := false, W := true, pa := f }

/-- What a resolved fault leaves: the entry `p` of process `t` at page `v` is
at frame `f` now. -/
structure Kernel.Resolved (s s' : Kernel) (lbl : Frame → Option (Frame × Node)) (t : Slot)
    (v : Nat) (p : Pte) (f : Frame) (rest : List Frame) : Prop where
  proc : s'.proc = s.proc
  pte : ∃ r n, (s.proc t).pagetable = some r ∧ leafTable s.pte r v = some n ∧
    ∀ g x, lbl g = some x → s'.pte g =
      setEntry s.pte n (index v 0) (p.resolved f) g
  mem : s'.mem f = s.mem p.pa
  refcounts : s'.refcounts =
    Function.update (Function.update s.refcounts f 1) p.pa (s.refcounts p.pa - 1)
  freelist : s'.freelist = if s.refcounts p.pa = 1 then p.pa :: rest else rest
  alloc : s'.Allocator

theorem Kernel.Memory.storeFault_cow (h : s.Memory lbl) (hva : va < MAXVA)
    (he : s.entry t (va / PGSIZE) = some p) (hU : p.U) (hC : p.COW) (hf : s.freelist = f :: rest) :
    ∃ s', (storeFault kalloc t va).run s = .ok () s' ∧
      s.Resolved s' lbl t (va / PGSIZE) p f rest := by
  have hvpn : va / PGSIZE < 2 ^ 27 := by
    unfold MAXVA at hva
    unfold PGSIZE
    omega
  have hv := h.user_lt hvpn he hU
  obtain ⟨hmanaged, hbusy, hnode⟩ := h.page hv he
  obtain ⟨hpos, hlt⟩ := h.count_le hv he
  obtain ⟨r, n, hr, hleaf, hn, rfl, hV⟩ := h.entry_leaf he
  obtain ⟨pte, hpte⟩ : ∃ pte, pte = s.pte n (index (va / PGSIZE) 0) := ⟨_, rfl⟩
  rw [← hpte] at hU hC hmanaged hbusy hnode hpos hlt hV ⊢
  have hff : f ∈ s.freelist := by rw [hf]; exact List.mem_cons_self
  have hne : pte.pa ≠ f := fun he => hbusy (he ▸ hff)
  have hlf : lbl f = none := by
    by_contra hne
    obtain ⟨x, hx⟩ := Option.ne_none_iff_exists'.1 hne
    exact h.node hx hff
  have hnf : n ≠ f := fun he => by
    rw [he, hlf] at hn
    cases hn
  have hkalloc := h.alloc.kalloc hf
  -- the entry is written, and the old frame has not been dropped yet
  obtain ⟨s₃, hs₃⟩ : ∃ s₃, s₃ = ((s.alloc f rest).setBusy t (some (r, va / PGSIZE))).copyPage f
      pte.pa := ⟨_, rfl⟩
  obtain ⟨s₄, hs₄⟩ : ∃ s₄, s₄ = s₃.setPte (n, index (va / PGSIZE) 0)
      { pte with COW := false, W := true, pa := f } := ⟨_, rfl⟩
  have hrun : (storeFault kalloc t va).run s =
      (do
        kref_dec pte.pa
        mark t none).run s₄ := by
    rw [storeFault, if_neg (by omega), hs₄, hs₃]
    simp only [run_bind, run_read, hr, walk_run hva, hleaf, Option.map_some, readPte, PX_eq,
      ← hpte, hV, hU, not_true_eq_false, or_self, if_false, hC, if_true, hkalloc.1, mark,
      run_modify, writePte]
  have hptes : ∀ g x, lbl g = some x → s₄.pte g = setEntry s.pte n (index (va / PGSIZE) 0)
      { pte with COW := false, W := true, pa := f } g := fun g x hg => by
    have hgf : g ≠ f := fun he => by
      rw [he, hlf] at hg
      cases hg
    have hkeep : ∀ {g}, g ≠ f → s₃.pte g = s.pte g := fun hgf => by
      rw [hs₃]
      exact Function.update_of_ne hgf ..
    rw [hs₄]
    by_cases hgn : g = n
    · subst hgn
      show Function.update s₃.pte g (Function.update (s₃.pte g) _ _) g = _
      rw [setEntry, Function.update_self, Function.update_self, hkeep hnf]
    · rw [setEntry_of_ne _ _ hgn]
      exact (Function.update_of_ne hgn ..).trans (hkeep hgf)
  have hmem : s₄.mem f = s.mem pte.pa := by
    rw [hs₄, hs₃]
    exact (Function.update_self ..).trans (Function.update_of_ne hne ..)
  have hrefs : s₄.refcounts = Function.update s.refcounts f 1 := by
    rw [hs₄, hs₃]
    rfl
  have hcount : s₄.refcounts pte.pa = s.refcounts pte.pa := by
    rw [hrefs, Function.update_of_ne hne]
  have halloc : s₄.Allocator := hkalloc.2.congr (by rw [hs₄, hs₃]; rfl)
    (by rw [hs₄, hs₃]; rfl) (by rw [hs₄, hs₃]; rfl)
  have hlist : s₄.freelist = rest := by
    rw [hs₄, hs₃]
    rfl
  have hproc : s₄.proc = s.proc := by
    rw [hs₄, hs₃]
    rfl
  have hdec : decr UINT8_MAX (s.refcounts pte.pa) = s.refcounts pte.pa - 1 := by
    unfold decr
    rw [if_neg (by omega)]
  rw [hrun]
  simp only [run_bind, kref_dec_run, hcount, hdec]
  by_cases hone : s.refcounts pte.pa = 1
  · -- the last sharer: the old frame is freed
    rw [if_pos (by omega)]
    have hnot : pte.pa ∉ (s₄.setRef pte.pa 0).freelist := fun hmem => by
      have hmem : pte.pa ∈ rest := hlist ▸ hmem
      exact hbusy (by rw [hf]; exact List.mem_cons_of_mem _ hmem)
    have halloc₅ : (s₄.setRef pte.pa 0).Allocator := halloc.congr rfl rfl rfl
    obtain ⟨hkfree, halloc₆⟩ := halloc₅.kfree hmanaged hnot
    rw [hkfree]
    refine ⟨_, rfl, ⟨hproc, ⟨r, n, hr, hleaf, fun g x hg => ?_⟩, ?_, ?_, ?_,
      halloc₆.congr rfl rfl rfl⟩⟩
    · have hgp : g ≠ pte.pa := fun he => by
        rw [he, hnode] at hg
        cases hg
      exact (Function.update_of_ne hgp ..).trans (hptes g x hg)
    · exact (Function.update_of_ne (Ne.symm hne) ..).trans hmem
    · rw [hone]
      show Function.update s₄.refcounts pte.pa 0 = _
      rw [hrefs]
    · rw [if_pos hone]
      exact congrArg (pte.pa :: ·) hlist
  · rw [if_neg (by omega)]
    refine ⟨_, rfl, ⟨hproc, ⟨r, n, hr, hleaf, fun g x hg => hptes g x hg⟩, hmem, ?_, ?_,
      halloc.congr rfl rfl rfl⟩⟩
    · show Function.update s₄.refcounts pte.pa _ = _
      rw [hrefs]
    · rw [if_neg hone]
      exact hlist

/-- Every other store fault kills the process and changes nothing else. -/
theorem storeFault_kills (hr : (s.proc t).pagetable = some r)
    (hno : ∀ p, s.userPte t va = some p → ¬ (p.U ∧ p.COW)) :
    (storeFault kalloc t va).run s = .ok () (s.updProc t fun p => { p with killed := true }) := by
  rw [storeFault]
  by_cases hva : va ≥ MAXVA
  · rw [if_pos hva]
    rfl
  · rw [if_neg hva]
    have hlt : va < MAXVA := by omega
    rw [s.userPte_eq t hlt, Kernel.entry, hr, Option.bind_some, mapping] at hno
    simp only [run_bind, run_read, hr, walk_run hlt]
    cases hl : leafTable s.pte r (va / PGSIZE) with
    | none => rfl
    | some n =>
      simp only [hl, Option.bind_some] at hno
      simp only [Option.map_some, run_bind, readPte, run_read, PX_eq]
      split
      · rfl
      · next hVU =>
        rw [not_or, not_not, not_not] at hVU
        split
        · next hC =>
          rw [if_pos hVU.1] at hno
          exact absurd ⟨hVU.2, hC⟩ (hno _ rfl)
        · rfl

/-! ## After a fault -/

section

variable (h : s.Memory lbl) (hv : v < userPages) (he : s.entry t v = some p)
  (hR : s.Resolved s' lbl t v p f rest) (hf : s.freelist = f :: rest)
include h hv he hR

theorem Kernel.Resolved.tree : Tree s'.pte lbl ∧ ∀ q u, u < 2 ^ 27 →
    s'.entry q u = if q = t ∧ u = v then some (p.resolved f) else s.entry q u := by
  have hv27 : v < 2 ^ 27 := Nat.lt_trans hv (by decide)
  obtain ⟨r, n, hr, hleaf, hpte⟩ := hR.pte
  have hn := (h.tree.leafTable_iff (h.root hr)).1 hleaf
  have hok : (p.resolved f).V → LeafOk v (p.resolved f) := fun _ => by
    obtain ⟨r', hr', hm⟩ := Option.bind_eq_some_iff.1 he
    have hp := (h.tree.mapping_ok (h.root hr') hv27 hm).2
    exact ⟨hp.1, hp.2⟩
  have hV : (p.resolved f).V = true := by
    obtain ⟨-, -, -, -, -, -, hV⟩ := h.entry_leaf he
    exact hV
  have htree : Tree (setEntry s.pte n (index v 0) (p.resolved f)) lbl := by
    refine h.tree.setLeaf hn fun hV => ?_
    rw [vpnOf_split hv27]
    exact hok hV
  refine ⟨htree.congr fun g r' m hg => hpte g _ hg, fun q u hu => ?_⟩
  unfold Kernel.entry
  rw [hR.proc]
  cases hq : (s.proc q).pagetable with
  | none =>
    rw [if_neg]
    · rfl
    · intro hqt
      rw [hqt.1, hr] at hq
      cases hq
  | some r' =>
    simp only [Option.bind_some]
    rw [htree.mapping_congr (h.root hq) (fun g m hg => hpte g _ hg) u,
      h.tree.mapping_setLeaf (h.root hr) hleaf hv27 (h.root hq) hu, if_pos hV]
    have hiff : r' = r ↔ q = t := by
      constructor
      · intro hrr
        exact h.own hq (hrr ▸ hr)
      · intro hqt
        rw [hqt, hr] at hq
        exact (Option.some.inj hq).symm
    simp only [hiff]

theorem Kernel.Resolved.entry {u : Nat} (hu : u < userPages) :
    s'.entry q u = if q = t ∧ u = v then some (p.resolved f) else s.entry q u :=
  (hR.tree h hv he).2 q u (Nat.lt_trans hu (by decide))

/-- Process `t` has moved from one frame to the other. -/
theorem Kernel.Resolved.mem_sharers :
    q ∈ s'.sharers g ↔ (q = t ∧ g = f) ∨ (q ∈ s.sharers g ∧ ¬ (q = t ∧ g = p.pa)) := by
  rw [Kernel.mem_sharers, Kernel.mem_sharers]
  constructor
  · intro hq
    obtain ⟨w, hw, p₁, he₁, rfl⟩ := hq
    rw [hR.entry h hv he hw] at he₁
    split at he₁
    · next hqt =>
      obtain rfl := Option.some.inj he₁
      exact .inl ⟨hqt.1, rfl⟩
    · next hqt =>
      refine .inr ⟨⟨w, hw, p₁, he₁, rfl⟩, fun hpa => hqt ⟨hpa.1, ?_⟩⟩
      rw [hpa.1] at he₁
      exact h.once hw hv he₁ he hpa.2
  · intro hq
    rcases hq with ⟨rfl, rfl⟩ | ⟨⟨w, hw, p₁, he₁, rfl⟩, hne⟩
    · exact ⟨v, hv, p.resolved g, by rw [hR.entry h hv he hv, if_pos ⟨rfl, rfl⟩], rfl⟩
    · refine ⟨w, hw, p₁, ?_, rfl⟩
      rw [hR.entry h hv he hw, if_neg]
      · exact he₁
      · intro hqt
        obtain ⟨rfl, rfl⟩ := hqt
        rw [he] at he₁
        obtain rfl := Option.some.inj he₁
        exact hne ⟨rfl, rfl⟩

theorem Kernel.Resolved.sharers_other (hgf : g ≠ f) (hgp : g ≠ p.pa) :
    s'.sharers g = s.sharers g := by
  ext q
  rw [hR.mem_sharers h hv he]
  simp [hgf, hgp]

include hf

theorem Kernel.Resolved.sharers_fresh : s'.sharers f = {t} := by
  ext q
  rw [hR.mem_sharers h hv he, Finset.mem_singleton]
  constructor
  · intro hq
    rcases hq with hq | hq
    · exact hq.1
    · obtain ⟨w, hw, p₁, he₁, hpa⟩ := Kernel.mem_sharers.1 hq.1
      exact absurd hpa (h.fresh_ne hf hw he₁)
  · intro hq
    exact .inl ⟨hq, rfl⟩

theorem Kernel.Resolved.sharers_old : s'.sharers p.pa = (s.sharers p.pa).erase t := by
  have hne := h.fresh_ne hf hv he
  ext q
  rw [hR.mem_sharers h hv he, Finset.mem_erase]
  simp only [hne, and_false, false_or, and_true]
  exact and_comm

theorem Kernel.Resolved.memory : s'.Memory lbl := by
  have hne := h.fresh_ne hf hv he
  have hpage := h.page hv he
  have hcount := h.count hv he
  have hnodup := h.alloc.nodup
  rw [hf] at hnodup
  have hff : f ∈ s.freelist := by rw [hf]; exact List.mem_cons_self
  have hlf : lbl f = none := by
    by_contra hne
    obtain ⟨x, hx⟩ := Option.ne_none_iff_exists'.1 hne
    exact h.node hx hff
  have hlist : ∀ g ∈ s'.freelist, (s.refcounts p.pa = 1 ∧ g = p.pa) ∨ g ∈ rest := fun g hg => by
    rw [hR.freelist] at hg
    split at hg
    · next h1 => exact (List.mem_cons.1 hg).imp_left fun he => ⟨h1, he⟩
    · exact .inr hg
  have hrest : ∀ g ∈ rest, g ∈ s.freelist := fun g hg => by
    rw [hf]
    exact List.mem_cons_of_mem _ hg
  -- another entry for the old frame is another process's
  have hother : ∀ {q w p₁}, w < userPages → ¬ (q = t ∧ w = v) → s.entry q w = some p₁ →
      p₁.pa = p.pa → q ≠ t := fun hw hne' he₁ hpa hqt => by
    rw [hqt] at he₁
    exact hne' ⟨hqt, h.once hw hv he₁ he hpa⟩
  refine ⟨hR.alloc, (hR.tree h hv he).1, fun {q r} hr => ?_, fun {q q' r} hr hr' => ?_,
    fun {g x} hg hmem => ?_, fun {q w p₁} hw he₁ => ?_, fun {q w w' p₁ p₂} hw hw' he₁ he₂ hpa => ?_,
    fun {q w p₁} hw he₁ => ?_, fun {q w p₁} hw he₁ hW => ?_⟩
  · rw [hR.proc] at hr
    exact h.root hr
  · rw [hR.proc] at hr hr'
    exact h.own hr hr'
  · rcases hlist g hmem with ⟨-, rfl⟩ | hmem
    · rw [hpage.2.2] at hg
      cases hg
    · exact h.node hg (hrest g hmem)
  · rw [hR.entry h hv he hw] at he₁
    split at he₁
    · obtain rfl := Option.some.inj he₁
      refine ⟨h.alloc.managed f hff, fun hmem => ?_, hlf⟩
      rcases hlist f hmem with ⟨-, hpa⟩ | hmem
      · exact hne hpa.symm
      · exact (List.nodup_cons.1 hnodup).1 hmem
    · next hqt =>
      obtain ⟨hm, hnf, hl⟩ := h.page hw he₁
      refine ⟨hm, fun hmem => ?_, hl⟩
      rcases hlist _ hmem with ⟨h1, hpa⟩ | hmem
      · rw [h1] at hcount
        obtain ⟨x, hx⟩ := Finset.card_eq_one.1 hcount.symm
        have ht := Kernel.sharer hv he
        have hq : q ∈ s.sharers p.pa := hpa ▸ Kernel.sharer hw he₁
        rw [hx, Finset.mem_singleton] at ht hq
        exact hother hw hqt he₁ hpa (hq.trans ht.symm)
      · exact hnf (hrest _ hmem)
  · rw [hR.entry h hv he hw] at he₁
    rw [hR.entry h hv he hw'] at he₂
    split at he₁
    · next hqt =>
      obtain rfl := Option.some.inj he₁
      split at he₂
      · next hqt' => exact hqt.2.trans hqt'.2.symm
      · exact absurd hpa.symm (h.fresh_ne hf hw' he₂)
    · split at he₂
      · obtain rfl := Option.some.inj he₂
        exact absurd hpa (h.fresh_ne hf hw he₁)
      · exact h.once hw hw' he₁ he₂ hpa
  · rw [hR.entry h hv he hw] at he₁
    rw [hR.refcounts]
    split at he₁
    · obtain rfl := Option.some.inj he₁
      show Function.update (Function.update s.refcounts f 1) p.pa (s.refcounts p.pa - 1) f =
        (s'.sharers f).card
      rw [Function.update_of_ne hne.symm, Function.update_self, hR.sharers_fresh h hv he hf,
        Finset.card_singleton]
    · next hqt =>
      have hpf := h.fresh_ne hf hw he₁
      by_cases hpa : p₁.pa = p.pa
      · rw [hpa, Function.update_self, hR.sharers_old h hv he hf, hcount,
          Finset.card_erase_of_mem (Kernel.sharer hv he)]
      · rw [Function.update_of_ne hpa, Function.update_of_ne hpf,
          hR.sharers_other h hv he hpf hpa]
        exact h.count hw he₁
  · rw [hR.entry h hv he hw] at he₁
    split at he₁
    · next hqt =>
      obtain rfl := Option.some.inj he₁
      refine ⟨rfl, ?_⟩
      show s'.sharers f = {q}
      rw [hR.sharers_fresh h hv he hf, hqt.1]
    · next hqt =>
      obtain ⟨hC, hS⟩ := h.writable hw he₁ hW
      have hpa : p₁.pa ≠ p.pa := fun hpa => by
        have ht := Kernel.sharer hv he
        rw [← hpa, hS, Finset.mem_singleton] at ht
        exact hother hw hqt he₁ hpa ht.symm
      exact ⟨hC, by rw [hR.sharers_other h hv he (h.fresh_ne hf hw he₁) hpa, hS]⟩

end

/-! ## A group of processes -/

/-- A user store, and again after `usertrap` if it faults: is it done? -/
def storeByte (ka : Kalloc) (t : Slot) (va : Nat) (b : UInt8) : Prog Kernel Bool := do
  if ← userStore t va b then return true
  else if ← usertrap ka t va then userStore t va b
  else return false

/-- The stores one after another. -/
def storeAll (ka : Kalloc) : List (Slot × Nat × UInt8) → Prog Kernel Unit
  | [] => return
  | (t, va, b) :: l => do
    let _ ← storeByte ka t va b
    storeAll ka l

omit [KernelImage] in
theorem hwStore_done (hva : va < MAXVA) (he : s.entry t (va / PGSIZE) = some p) (hU : p.U)
    (hW : p.W) (b : UInt8) :
    s.hwStore t va b = (true, s.writeBytes p.pa (va % PGSIZE) [b]) := by
  rw [Kernel.hwStore, s.userPte_eq t hva, he]
  simp [hU, hW]

omit [KernelImage] in
theorem hwStore_faults (hva : va < MAXVA) (he : s.entry t (va / PGSIZE) = some p)
    (hW : p.W = false) (b : UInt8) : s.hwStore t va b = (false, s) := by
  rw [Kernel.hwStore, s.userPte_eq t hva, he]
  simp [hW]

theorem Kernel.Memory.writeBytes (h : s.Memory lbl) (g off : Nat) (bytes : List UInt8) :
    (s.writeBytes g off bytes).Memory lbl :=
  ⟨h.alloc.congr rfl rfl rfl, h.tree, h.root, h.own, h.node, h.page, h.once, h.count, h.writable⟩

/-- These processes, each with its page, share frames with nobody else, and
may write them, if only after a fault. -/
structure Kernel.Group (s : Kernel) (S : Finset Slot) (page : Slot → Nat) : Prop where
  entry : ∀ q ∈ S, page q < userPages ∧ (s.proc q).killed = false ∧
    ∃ p, s.entry q (page q) = some p ∧ p.U ∧ (p.W ∨ p.COW)
  closed : ∀ q ∈ S, ∀ p, s.entry q (page q) = some p → ∀ q' w p', w < userPages →
    s.entry q' w = some p' → p'.pa = p.pa → q' ∈ S ∧ w = page q'

/-- The frame of a process's page. -/
def Kernel.frame (s : Kernel) (page : Slot → Nat) (q : Slot) : Frame :=
  ((s.entry q (page q)).map Pte.pa).getD 0

omit [KernelImage] in
theorem Kernel.frame_eq {page : Slot → Nat} (he : s.entry q (page q) = some p) :
    s.frame page q = p.pa := by
  rw [Kernel.frame, he]
  rfl

/-- The page of process `q` is its own. -/
def Kernel.Settled (s : Kernel) (page : Slot → Nat) (q : Slot) : Prop :=
  ∀ p, s.entry q (page q) = some p → p.W

section

variable {S : Finset Slot} {page : Slot → Nat} (h : s.Memory lbl) (hG : s.Group S page)
  (ht : t ∈ S) (he : s.entry t (page t) = some p)
  (hR : s.Resolved s' lbl t (page t) p f rest) (hf : s.freelist = f :: rest)
include h hG ht he hR

theorem Kernel.Resolved.group_entry (hq : q ∈ S) :
    s'.entry q (page q) = if q = t then some (p.resolved f) else s.entry q (page q) := by
  rw [hR.entry h (hG.entry t ht).1 he (hG.entry q hq).1]
  have hiff : (q = t ∧ page q = page t) ↔ q = t := and_iff_left_of_imp fun hqt => by rw [hqt]
  simp only [hiff]

theorem Kernel.Resolved.settled (hq : q ∈ S) (hs : q = t ∨ s.Settled page q) :
    s'.Settled page q := by
  intro p₁ he₁
  rw [hR.group_entry h hG ht he hq] at he₁
  split at he₁
  · obtain rfl := Option.some.inj he₁
    rfl
  · next hqt => exact (hs.resolve_left hqt) p₁ he₁

include hf

theorem Kernel.Resolved.group (hU : p.U) : s'.Group S page := by
  have hv := (hG.entry t ht).1
  refine ⟨fun q hq => ?_, fun q hq p₁ he₁ q' w p₂ hw he₂ hpa => ?_⟩
  · obtain ⟨hlt, hk, p₁, he₁, hU₁, hWC⟩ := hG.entry q hq
    rw [hR.proc, hR.group_entry h hG ht he hq]
    refine ⟨hlt, hk, ?_⟩
    split
    · exact ⟨_, rfl, hU, .inl rfl⟩
    · exact ⟨p₁, he₁, hU₁, hWC⟩
  · rw [hR.group_entry h hG ht he hq] at he₁
    rw [hR.entry h hv he hw] at he₂
    split at he₂
    · next hqt =>
      rw [hqt.1]
      exact ⟨ht, hqt.2⟩
    · split at he₁
      · obtain rfl := Option.some.inj he₁
        exact absurd hpa (h.fresh_ne hf hw he₂)
      · exact hG.closed q hq p₁ he₁ q' w p₂ hw he₂ hpa

/-- Free pages and frames of the group come to the same sum. -/
theorem Kernel.Resolved.sum : s'.FREE_PAGES + (S.image (s'.frame page)).card =
    s.FREE_PAGES + (S.image (s.frame page)).card := by
  have hv := (hG.entry t ht).1
  have hframe : s.frame page t = p.pa := Kernel.frame_eq he
  have hcount := h.count hv he
  -- the frames of the others
  obtain ⟨A, hA⟩ : ∃ A, A = (S.erase t).image (s.frame page) := ⟨_, rfl⟩
  have hold : S.image (s.frame page) = insert p.pa A := by
    rw [hA, ← hframe, ← Finset.image_insert, Finset.insert_erase ht]
  have hnew : S.image (s'.frame page) = insert f A := by
    have ht' : s'.frame page t = f := Kernel.frame_eq (by
      rw [hR.group_entry h hG ht he ht, if_pos rfl])
    rw [hA, ← Finset.insert_erase ht, Finset.image_insert, ht', Finset.erase_insert
      (Finset.notMem_erase t S)]
    congr 1
    refine Finset.image_congr fun q hq => ?_
    obtain ⟨hqt, hq⟩ := Finset.mem_erase.1 hq
    unfold Kernel.frame
    rw [hR.group_entry h hG ht he hq, if_neg hqt]
  have hfA : f ∉ A := fun hmem => by
    rw [hA] at hmem
    obtain ⟨q, hq, hqf⟩ := Finset.mem_image.1 hmem
    obtain ⟨hlt, -, p₁, he₁, -⟩ := hG.entry q (Finset.mem_of_mem_erase hq)
    rw [Kernel.frame_eq he₁] at hqf
    exact h.fresh_ne hf hlt he₁ hqf
  have hpA : p.pa ∈ A ↔ s.refcounts p.pa ≠ 1 := by
    rw [hcount, hA]
    constructor
    · intro hmem hone
      obtain ⟨q, hq, hqf⟩ := Finset.mem_image.1 hmem
      obtain ⟨hqt, hq⟩ := Finset.mem_erase.1 hq
      obtain ⟨hlt, -, p₁, he₁, -⟩ := hG.entry q hq
      rw [Kernel.frame_eq he₁] at hqf
      obtain ⟨x, hx⟩ := Finset.card_eq_one.1 hone
      have ht₁ := Kernel.sharer hv he
      have hq₁ : q ∈ s.sharers p.pa := hqf ▸ Kernel.sharer hlt he₁
      rw [hx, Finset.mem_singleton] at ht₁ hq₁
      exact hqt (hq₁.trans ht₁.symm)
    · intro hne
      have hcard := Finset.card_pos.2 ⟨t, Kernel.sharer hv he⟩
      obtain ⟨q, hq, hqt⟩ := Finset.exists_mem_ne
        (by omega : 1 < (s.sharers p.pa).card) t
      obtain ⟨w, hw, p₁, he₁, hpa⟩ := Kernel.mem_sharers.1 hq
      obtain ⟨hqS, rfl⟩ := hG.closed t ht p he q w p₁ hw he₁ hpa
      exact Finset.mem_image.2 ⟨q, Finset.mem_erase.2 ⟨hqt, hqS⟩, (Kernel.frame_eq he₁).trans hpa⟩
  have hlen : s.FREE_PAGES = rest.length + 1 := by rw [h.alloc.count, hf, List.length_cons]
  have hlen' : s'.FREE_PAGES = if s.refcounts p.pa = 1 then rest.length + 1 else rest.length := by
    rw [hR.alloc.count, hR.freelist]
    split <;> rfl
  rw [hold, hnew, Finset.card_insert_of_notMem hfA, hlen, hlen']
  by_cases hone : s.refcounts p.pa = 1
  · rw [if_pos hone, Finset.card_insert_of_notMem (by rw [hpA]; exact not_not.2 hone)]
  · rw [if_neg hone, Finset.insert_eq_of_mem (hpA.2 hone)]
    omega

end

/-! ## Stores in any order -/

variable {S : Finset Slot} {page : Slot → Nat}

omit [KernelImage] in
theorem Kernel.Group.writeBytes (hG : s.Group S page) (g off : Nat) (bytes : List UInt8) :
    (s.writeBytes g off bytes).Group S page := ⟨hG.entry, hG.closed⟩

/-- A store of one of the group, which faults at most once. -/
theorem storeByte_run (h : s.Memory lbl) (hG : s.Group S page) (ht : t ∈ S)
    (hva : va / PGSIZE = page t) (hfree : s.freelist ≠ []) (b : UInt8) :
    ∃ s', (storeByte kalloc t va b).run s = .ok true s' ∧ s'.Memory lbl ∧ s'.Group S page ∧
      s'.FREE_PAGES + (S.image (s'.frame page)).card =
        s.FREE_PAGES + (S.image (s.frame page)).card ∧
      ∀ q ∈ S, q = t ∨ s.Settled page q → s'.Settled page q := by
  obtain ⟨hlt, hk, p, he, hU, hWC⟩ := hG.entry t ht
  have hmax : va < MAXVA := by
    rw [← hva] at hlt
    unfold userPages TRAPFRAME TRAMPOLINE at hlt
    unfold MAXVA PGSIZE at *
    omega
  have he' : s.entry t (va / PGSIZE) = some p := by rw [hva]; exact he
  by_cases hW : p.W
  · refine ⟨s.writeBytes p.pa (va % PGSIZE) [b], ?_, h.writeBytes .., hG.writeBytes .., rfl,
      fun q hq hs p₁ he₁ => ?_⟩
    · simp [storeByte, userStore, run_bind, hwStore_done hmax he' hU hW]
    · rcases hs with rfl | hs
      · obtain rfl := Option.some.inj (he₁.symm.trans he)
        exact hW
      · exact hs p₁ he₁
  · have hC : p.COW := hWC.resolve_left hW
    obtain ⟨f, rest, hf⟩ := List.exists_cons_of_ne_nil hfree
    obtain ⟨s₁, hrun, hR⟩ := h.storeFault_cow hmax he' hU hC hf
    rw [hva] at hR
    have he₁ : s₁.entry t (va / PGSIZE) = some (p.resolved f) := by
      rw [hva, hR.group_entry h hG ht he ht, if_pos rfl]
    have hk₁ : (s₁.proc t).killed = false := by rw [hR.proc, hk]
    have hsum := hR.sum h hG ht he hf
    have hset : ∀ q ∈ S, q = t ∨ s.Settled page q → s₁.Settled page q := fun q hq hs =>
      hR.settled h hG ht he hq hs
    refine ⟨s₁.writeBytes f (va % PGSIZE) [b], ?_, (hR.memory h hlt he hf).writeBytes ..,
      (hR.group h hG ht he hf hU).writeBytes .., hsum, hset⟩
    simp [storeByte, userStore, usertrap, killed, run_bind, hrun, hk₁,
      hwStore_faults hmax he' (by simpa using hW), hwStore_done hmax he₁ hU rfl b]
    rfl

/-- Any stores of the group, in any order. -/
theorem storeAll_run {l : List (Slot × Nat × UInt8)} (h : s.Memory lbl) (hG : s.Group S page)
    (hfree : S.card < s.FREE_PAGES + (S.image (s.frame page)).card)
    (hl : ∀ x ∈ l, x.1 ∈ S ∧ x.2.1 / PGSIZE = page x.1) :
    ∃ s', (storeAll kalloc l).run s = .ok () s' ∧ s'.Memory lbl ∧ s'.Group S page ∧
      s'.FREE_PAGES + (S.image (s'.frame page)).card =
        s.FREE_PAGES + (S.image (s.frame page)).card ∧
      ∀ q ∈ S, (∃ x ∈ l, x.1 = q) ∨ s.Settled page q → s'.Settled page q := by
  induction l generalizing s with
  | nil =>
    refine ⟨s, rfl, h, hG, rfl, fun q hq hs => ?_⟩
    rcases hs with ⟨x, hx, -⟩ | hs
    · cases hx
    · exact hs
  | cons x l ih =>
    obtain ⟨t, va, b⟩ := x
    obtain ⟨ht, hva⟩ := hl _ List.mem_cons_self
    have hcard : (S.image (s.frame page)).card ≤ S.card := Finset.card_image_le
    have hne : s.freelist ≠ [] := fun hnil => by
      have hcount := h.alloc.count
      rw [hnil, List.length_nil] at hcount
      omega
    obtain ⟨s₁, hrun₁, h₁, hG₁, hsum₁, hset₁⟩ := storeByte_run h hG ht hva hne b
    obtain ⟨s', hrun, h', hG', hsum, hset⟩ := ih h₁ hG₁ (by omega) fun x hx =>
      hl x (List.mem_cons_of_mem _ hx)
    refine ⟨s', ?_, h', hG', hsum.trans hsum₁, fun q hq hs => hset q hq ?_⟩
    · simp only [storeAll, run_bind, hrun₁]
      exact hrun
    · rcases hs with ⟨x, hx, hxq⟩ | hs
      · rcases List.mem_cons.1 hx with rfl | hx
        · exact .inr (hset₁ q hq (.inl hxq.symm))
        · exact .inl ⟨x, hx, hxq⟩
      · exact .inr (hset₁ q hq (.inr hs))

/-- When every page of the group is its process's own, so is every frame. -/
theorem Kernel.Group.settled (h : s.Memory lbl) (hG : s.Group S page)
    (hs : ∀ q ∈ S, s.Settled page q) :
    (∀ q ∈ S, s.refcounts (s.frame page q) = 1) ∧
      (∀ q ∈ S, ∀ q' ∈ S, s.frame page q = s.frame page q' → q = q') := by
  have hown : ∀ q ∈ S, s.sharers (s.frame page q) = {q} := fun q hq => by
    obtain ⟨hlt, -, p, he, -⟩ := hG.entry q hq
    rw [Kernel.frame_eq he]
    exact (h.writable hlt he (hs q hq p he)).2
  refine ⟨fun q hq => ?_, fun q hq q' hq' hqq => ?_⟩
  · obtain ⟨hlt, -, p, he, -⟩ := hG.entry q hq
    have hone := hown q hq
    rw [Kernel.frame_eq he] at hone ⊢
    rw [h.count hlt he, hone, Finset.card_singleton]
  · have hone := hown q hq
    rw [hqq, hown q' hq'] at hone
    exact (Finset.singleton_injective hone).symm

/-- A store fault on a page that is the user's and marked `PTE_COW` gives the
process a copy of it, if a page is free, and changes nothing else; any other
kills the process and changes nothing. If processes that share a frame all
store to it, in any order, they end with a frame each. -/
theorem cow_fault (h : s.Memory lbl) (hr : (s.proc t).pagetable = some r) :
    (∀ p, s.userPte t va = some p → p.U → p.COW → s.freelist ≠ [] →
      ∃ f s', f ∈ s.freelist ∧ (storeFault kalloc t va).run s = .ok () s' ∧
        s'.userPte t va = some { p with COW := false, W := true, pa := f } ∧
        s'.mem f = s.mem p.pa ∧
        (∀ q va', va' < MAXVA → ¬ (q = t ∧ va' / PGSIZE = va / PGSIZE) →
          s'.userPte q va' = s.userPte q va') ∧
        s'.refcounts f = 1 ∧ s'.refcounts p.pa + 1 = s.refcounts p.pa ∧
        (∀ g, g ≠ f → g ≠ p.pa → s'.refcounts g = s.refcounts g) ∧
        (p.pa ∈ s'.freelist ↔ s.sharers p.pa = {t}) ∧
        (∀ g, g ≠ f → g ≠ p.pa → (g ∈ s'.freelist ↔ g ∈ s.freelist)) ∧
        (∀ b, (s'.hwStore t va b).1 = true) ∧ s'.Memory lbl) ∧
    ((∀ p, s.userPte t va = some p → ¬ (p.U ∧ p.COW)) →
      (storeFault kalloc t va).run s =
        .ok () (s.updProc t fun p => { p with killed := true })) ∧
    ∀ F page l, (s.sharers F).Nonempty → (s.sharers F).card ≤ s.FREE_PAGES →
      (∀ q ∈ s.sharers F, page q < userPages ∧ (s.proc q).killed = false ∧
        ∃ p, s.entry q (page q) = some p ∧ p.pa = F ∧ p.U ∧ (p.W ∨ p.COW)) →
      (∀ x ∈ l, x.1 ∈ s.sharers F ∧ x.2.1 / PGSIZE = page x.1) →
      (∀ q ∈ s.sharers F, ∃ x ∈ l, x.1 = q) →
      ∃ s', (storeAll kalloc l).run s = .ok () s' ∧
        (∀ q ∈ s.sharers F, s'.refcounts (s'.frame page q) = 1) ∧
        (∀ q ∈ s.sharers F, ∀ q' ∈ s.sharers F, s'.frame page q = s'.frame page q' → q = q') ∧
        s'.FREE_PAGES + ((s.sharers F).card - 1) = s.FREE_PAGES := by
  refine ⟨fun p hp hU hC hfree => ?_, fun hno => storeFault_kills hr hno,
    fun F page l hne hpages hmaps hl hall => ?_⟩
  · have hva : va < MAXVA := by
      by_contra hva
      rw [Kernel.userPte, if_neg hva] at hp
      cases hp
    have he := (s.userPte_eq t hva).symm.trans hp
    have hvpn : ∀ {a}, a < MAXVA → a / PGSIZE < 2 ^ 27 := fun ha => by
      unfold MAXVA at ha
      unfold PGSIZE
      omega
    have hv := h.user_lt (hvpn hva) he hU
    obtain ⟨f, rest, hf⟩ := List.exists_cons_of_ne_nil hfree
    obtain ⟨s', hrun, hR⟩ := h.storeFault_cow hva he hU hC hf
    have hne := h.fresh_ne hf hv he
    have hff : f ∈ s.freelist := by rw [hf]; exact List.mem_cons_self
    have hcount := h.count hv he
    have ht := Kernel.sharer hv he
    have hentry : s'.entry t (va / PGSIZE) = some (p.resolved f) := by
      rw [hR.entry h hv he hv, if_pos ⟨rfl, rfl⟩]
    have hone : s.refcounts p.pa = 1 ↔ s.sharers p.pa = {t} := by
      rw [hcount]
      constructor
      · intro hone
        obtain ⟨x, hx⟩ := Finset.card_eq_one.1 hone
        rw [hx, Finset.mem_singleton] at ht
        rw [hx, ht]
      · intro hset
        rw [hset, Finset.card_singleton]
    refine ⟨f, s', hff, hrun, (s'.userPte_eq t hva).trans hentry, hR.mem, fun q va' hva' hqt => ?_,
      ?_, ?_, fun g hgf hgp => ?_, ?_, fun g hgf hgp => ?_, fun b => ?_, hR.memory h hv he hf⟩
    · rw [s'.userPte_eq q hva', s.userPte_eq q hva', (hR.tree h hv he).2 q _ (hvpn hva'),
        if_neg hqt]
    · rw [hR.refcounts, Function.update_of_ne hne.symm, Function.update_self]
    · have hpos := Finset.card_pos.2 ⟨t, ht⟩
      rw [hR.refcounts, Function.update_self]
      omega
    · rw [hR.refcounts, Function.update_of_ne hgp, Function.update_of_ne hgf]
    · have hnot : p.pa ∉ rest := fun hmem => (h.page hv he).2.1 (by
        rw [hf]
        exact List.mem_cons_of_mem _ hmem)
      rw [← hone, hR.freelist]
      by_cases h1 : s.refcounts p.pa = 1
      · rw [if_pos h1]
        exact iff_of_true List.mem_cons_self h1
      · rw [if_neg h1]
        exact iff_of_false hnot h1
    · rw [hR.freelist, hf]
      split
      · rw [List.mem_cons, List.mem_cons, or_iff_right hgp, or_iff_right hgf]
      · rw [List.mem_cons, or_iff_right hgf]
    · rw [hwStore_done hva hentry hU rfl]
  · have hG : s.Group (s.sharers F) page := by
      refine ⟨fun q hq => ?_, fun q hq p he q' w p' hw he' hpa => ?_⟩
      · obtain ⟨hlt, hk, p, he, -, hU, hWC⟩ := hmaps q hq
        exact ⟨hlt, hk, p, he, hU, hWC⟩
      · obtain ⟨-, -, p₁, he₁, hF, -⟩ := hmaps q hq
        obtain rfl := Option.some.inj (he.symm.trans he₁)
        have hq' : q' ∈ s.sharers F := Kernel.mem_sharers.2 ⟨w, hw, p', he', hpa.trans hF⟩
        obtain ⟨hlt', -, p₂, he₂, hF₂, -⟩ := hmaps q' hq'
        exact ⟨hq', h.once hw hlt' he' he₂ (hpa.trans (hF.trans hF₂.symm))⟩
    have himage : (s.sharers F).image (s.frame page) = {F} := by
      refine Finset.eq_singleton_iff_nonempty_unique_mem.2 ⟨hne.image _, fun g hg => ?_⟩
      obtain ⟨q, hq, rfl⟩ := Finset.mem_image.1 hg
      obtain ⟨-, -, p, he, hF, -⟩ := hmaps q hq
      exact (Kernel.frame_eq he).trans hF
    obtain ⟨s', hrun, h', hG', hsum, hset⟩ := storeAll_run h hG
      (by rw [himage, Finset.card_singleton]; omega) hl
    obtain ⟨hone, hinj⟩ := hG'.settled h' fun q hq => hset q hq (.inl (hall q hq))
    refine ⟨s', hrun, hone, hinj, ?_⟩
    rw [himage, Finset.card_singleton, Finset.card_image_of_injOn fun q hq q' hq' => hinj q hq q' hq']
      at hsum
    have hpos := Finset.card_pos.2 hne
    omega

end

/-! ## Two processes with one page -/

attribute [local instance] image

def parentSlot : Slot := initproc

def childSlot : Slot := ⟨1, by decide⟩

/-- The entry of both. -/
def cowPte : Pte := { V := true, R := true, U := true, COW := true, pa := 0x80040 }

/-- Two processes that share their only page, after a fork. -/
def forked : Kernel :=
  { Kernel.boot 0 with
    freelist := [0x80050, 0x80051]
    FREE_PAGES := 2
    refcounts := fun _ => 2
    pte := fun f i =>
      if i ≠ 0 then {}
      else if f = 0x80030 ∨ f = 0x80031 ∨ f = 0x80034 ∨ f = 0x80035 then link (f + 1)
      else if f = 0x80032 ∨ f = 0x80036 then cowPte
      else {}
    proc := fun q =>
      if q.val = 0 then { state := .RUNNING, pagetable := some 0x80030 }
      else if q.val = 1 then { state := .RUNNABLE, pagetable := some 0x80034 }
      else {} }

def forkedNodes (f : Frame) : Option (Frame × Node) :=
  if f = 0x80030 ∨ f = 0x80034 then some (f, .root)
  else if f = 0x80031 ∨ f = 0x80035 then some (f - 1, .mid 0)
  else if f = 0x80032 ∨ f = 0x80036 then some (f - 2, .leaf 0 0)
  else none

theorem forked_tree : Tree forked.pte forkedNodes := by
  have hcases : ∀ {f r n}, forkedNodes f = some (r, n) →
      (r = 0x80030 ∨ r = 0x80034) ∧ ((f = r ∧ n = .root) ∨ (f = r + 1 ∧ n = .mid 0) ∨
        (f = r + 2 ∧ n = .leaf 0 0)) := by
    intro f r n hf
    unfold forkedNodes at hf
    split at hf
    · next hr =>
      simp only [Option.some.injEq, Prod.mk.injEq] at hf
      obtain ⟨rfl, rfl⟩ := hf
      exact ⟨hr, .inl ⟨rfl, rfl⟩⟩
    · split at hf
      · next hr =>
        simp only [Option.some.injEq, Prod.mk.injEq] at hf
        obtain ⟨rfl, rfl⟩ := hf
        rcases hr with rfl | rfl
        · exact ⟨.inl rfl, .inr (.inl ⟨rfl, rfl⟩)⟩
        · exact ⟨.inr rfl, .inr (.inl ⟨rfl, rfl⟩)⟩
      · split at hf
        · next hr =>
          simp only [Option.some.injEq, Prod.mk.injEq] at hf
          obtain ⟨rfl, rfl⟩ := hf
          rcases hr with rfl | rfl
          · exact ⟨.inl rfl, .inr (.inr ⟨rfl, rfl⟩)⟩
          · exact ⟨.inr rfl, .inr (.inr ⟨rfl, rfl⟩)⟩
        · cases hf
  have hzero : ∀ {f i}, (forked.pte f i).V → i = 0 := fun {f i} hV => by
    by_contra hi
    simp [forked, hi] at hV
  refine ⟨fun {f r} hf => ?_, fun {f r n i c} hf hc hi hV => ?_, fun {f r n} hf => ?_,
    fun {f r i j k} hf hk hV => ?_⟩
  · obtain ⟨-, ⟨rfl, -⟩ | ⟨-, hn⟩ | ⟨-, hn⟩⟩ := hcases hf
    · rfl
    · cases hn
    · cases hn
  · obtain rfl := hzero hV
    obtain ⟨rfl | rfl, ⟨rfl, rfl⟩ | ⟨rfl, rfl⟩ | ⟨rfl, rfl⟩⟩ := hcases hf
    all_goals first
      | (obtain rfl := Option.some.inj hc
         exact ⟨rfl, rfl⟩)
      | cases hc
  · obtain ⟨rfl | rfl, ⟨rfl, rfl⟩ | ⟨rfl, rfl⟩ | ⟨rfl, rfl⟩⟩ := hcases hf
    · exact .inl rfl
    · exact .inr ⟨0x80030, .root, 0, rfl, rfl, by decide, rfl⟩
    · exact .inr ⟨0x80031, .mid 0, 0, rfl, rfl, by decide, rfl⟩
    · exact .inl rfl
    · exact .inr ⟨0x80034, .root, 0, rfl, rfl, by decide, rfl⟩
    · exact .inr ⟨0x80035, .mid 0, 0, rfl, rfl, by decide, rfl⟩
  · obtain rfl := hzero hV
    obtain ⟨rfl | rfl, ⟨rfl, hn⟩ | ⟨rfl, hn⟩ | ⟨rfl, hn⟩⟩ := hcases hf
    all_goals first
      | (obtain ⟨rfl, rfl⟩ := Node.leaf.inj hn
         exact ⟨rfl, fun hle => absurd hle (by decide)⟩)
      | cases hn

theorem forked_entry {v : Nat} (hv : v < userPages) :
    forked.entry q v = if q.val < 2 ∧ v = 0 then some cowPte else none := by
  have hlt : userPages ≤ 2 ^ 27 := by decide
  have hsplit : v = 0 ↔ index v 2 = 0 ∧ index v 1 = 0 ∧ index v 0 = 0 := by
    unfold index
    omega
  have hmap : ∀ r, r = 0x80030 ∨ r = 0x80034 →
      mapping forked.pte r v = if v = 0 then some cowPte else none := by
    intro r hr
    by_cases h₂ : index v 2 = 0
    · by_cases h₁ : index v 1 = 0
      · by_cases h₀ : index v 0 = 0
        · rw [if_pos (hsplit.2 ⟨h₂, h₁, h₀⟩)]
          rcases hr with rfl | rfl <;> simp [mapping, leafTable, h₀, h₁, h₂, forked, link, cowPte]
        · rw [if_neg fun h0 => h₀ (hsplit.1 h0).2.2]
          rcases hr with rfl | rfl <;> simp [mapping, leafTable, h₀, h₁, h₂, forked, link]
      · rw [if_neg fun h0 => h₁ (hsplit.1 h0).2.1]
        rcases hr with rfl | rfl <;> simp [mapping, leafTable, h₁, h₂, forked, link]
    · rw [if_neg fun h0 => h₂ (hsplit.1 h0).1]
      simp [mapping, leafTable, h₂, forked]
  unfold Kernel.entry
  by_cases h0 : q.val = 0
  · rw [show (forked.proc q).pagetable = some 0x80030 by simp [forked, h0], Option.bind_some,
      hmap _ (.inl rfl)]
    simp [h0]
  · by_cases h1 : q.val = 1
    · rw [show (forked.proc q).pagetable = some 0x80034 by simp [forked, h1], Option.bind_some,
        hmap _ (.inr rfl)]
      simp [h1]
    · rw [show (forked.proc q).pagetable = none by simp [forked, h0, h1], if_neg (by omega)]
      rfl

theorem forked_user {v : Nat} {p : Pte} (hv : v < userPages) (he : forked.entry q v = some p) :
    q.val < 2 ∧ v = 0 ∧ p = cowPte := by
  rw [forked_entry hv] at he
  split at he
  · next hq => exact ⟨hq.1, hq.2, (Option.some.inj he).symm⟩
  · cases he

theorem forked_sharers : forked.sharers 0x80040 = {parentSlot, childSlot} := by
  ext q
  rw [Kernel.mem_sharers]
  constructor
  · intro hq
    obtain ⟨v, hv, p, he, -⟩ := hq
    have hlt := (forked_user hv he).1
    rw [Finset.mem_insert, Finset.mem_singleton]
    rcases (by omega : q.val = 0 ∨ q.val = 1) with h0 | h1
    · exact .inl (Fin.ext h0)
    · exact .inr (Fin.ext h1)
  · intro hq
    have hlt : q.val < 2 := by
      rw [Finset.mem_insert, Finset.mem_singleton] at hq
      rcases hq with rfl | rfl <;> decide
    exact ⟨0, by decide, cowPte, by rw [forked_entry (by decide), if_pos ⟨hlt, rfl⟩], rfl⟩

theorem forked_memory : forked.Memory forkedNodes := by
  have hroot : ∀ {q r}, (forked.proc q).pagetable = some r →
      (q.val = 0 ∧ r = 0x80030) ∨ (q.val = 1 ∧ r = 0x80034) := fun {q r} hr => by
    by_cases h0 : q.val = 0
    · simp only [forked, h0, if_true, Option.some.injEq] at hr
      exact .inl ⟨h0, hr.symm⟩
    · by_cases h1 : q.val = 1
      · simp only [forked, h1, one_ne_zero, if_false, if_true, Option.some.injEq] at hr
        exact .inr ⟨h1, hr.symm⟩
      · simp [forked, h0, h1] at hr
  refine ⟨⟨by decide, by decide, rfl, rfl⟩, forked_tree, fun {q r} hr => ?_, fun {q q' r} hr hr' => ?_,
    fun {f x} hf hmem => ?_, fun {q v p} hv he => ?_, fun {q v w p p'} hv hw he he' _ => ?_,
    fun {q v p} hv he => ?_, fun {q v p} hv he hW => ?_⟩
  · rcases hroot hr with ⟨-, rfl⟩ | ⟨-, rfl⟩ <;> rfl
  · rcases hroot hr with ⟨h0, rfl⟩ | ⟨h1, rfl⟩
    · rcases hroot hr' with ⟨h0', -⟩ | ⟨-, hr'⟩
      · exact Fin.ext (h0.trans h0'.symm)
      · cases hr'
    · rcases hroot hr' with ⟨-, hr'⟩ | ⟨h1', -⟩
      · cases hr'
      · exact Fin.ext (h1.trans h1'.symm)
  · rcases List.mem_cons.1 hmem with rfl | hmem
    · cases hf
    · obtain rfl := List.mem_singleton.1 hmem
      cases hf
  · obtain ⟨-, -, rfl⟩ := forked_user hv he
    exact ⟨by decide, by decide, rfl⟩
  · exact (forked_user hv he).2.1.trans (forked_user hw he').2.1.symm
  · obtain ⟨-, -, rfl⟩ := forked_user hv he
    show 2 = (forked.sharers 0x80040).card
    rw [forked_sharers]
    rfl
  · obtain ⟨-, -, rfl⟩ := forked_user hv he
    cases hW

/-- Both write, and each has a page of its own. -/
theorem cow_fault_forked : ∃ s', (storeAll kalloc [(childSlot, 5, 7), (parentSlot, 9, 8)]).run forked = .ok () s' ∧
    (∀ q ∈ forked.sharers 0x80040, s'.refcounts (s'.frame (fun _ => 0) q) = 1) ∧
      s'.FREE_PAGES = 1 := by
  have hmaps : ∀ q ∈ forked.sharers 0x80040, 0 < userPages ∧ (forked.proc q).killed = false ∧
      ∃ p, forked.entry q 0 = some p ∧ p.pa = 0x80040 ∧ p.U ∧ (p.W ∨ p.COW) := fun q hq => by
    obtain ⟨v, hv, p, he, -⟩ := Kernel.mem_sharers.1 hq
    have hlt := (forked_user hv he).1
    refine ⟨by decide, ?_, cowPte, ?_, rfl, rfl, .inr rfl⟩
    · rcases (by omega : q.val = 0 ∨ q.val = 1) with h0 | h1
      · simp [forked, h0]
      · simp [forked, h1]
    · rw [forked_entry (by decide), if_pos ⟨hlt, rfl⟩]
  obtain ⟨s', hrun, hcount, -, hsum⟩ := (@cow_fault forked forkedNodes parentSlot 0 0x80030 _
    forked_memory rfl).2.2 0x80040 (fun _ => 0) [(childSlot, 5, 7), (parentSlot, 9, 8)]
    (by rw [forked_sharers]; exact ⟨parentSlot, by decide⟩) (by rw [forked_sharers]; decide) hmaps
    (by rw [forked_sharers]; decide) (by rw [forked_sharers]; decide)
  rw [forked_sharers] at hsum
  have htwo : ({parentSlot, childSlot} : Finset Slot).card = 2 := by decide
  have hfree : forked.FREE_PAGES = 2 := rfl
  exact ⟨s', hrun, hcount, by omega⟩

end Xv6
