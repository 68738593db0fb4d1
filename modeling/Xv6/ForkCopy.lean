/-
vm.c: uvmcopy, up to the page at which memory runs out, and back.

`Shares` says what `uvmcopy` has done by then to the parent: the entries of its
first pages are copy-on-write, and the frames of some of them have one more
reference, which `uvmunmap` of the child drops again.
-/
import Xv6.CowFault
import Xv6.Lend

namespace Xv6

open Conc Prog

/-- The entry that `uvmcopy` leaves in both tables. -/
def Pte.shared (p : Pte) : Pte := { p with W := false, COW := true }

variable [KernelImage]

/-- The first `n` pages of process `t` are copy-on-write, and the frames of
those from `j` to `m` are counted once more. -/
structure Kernel.Shares (s b : Kernel) (lbl : Frame → Option (Frame × Node)) (t : Slot)
    (n j m : Nat) : Prop where
  alloc : b.Allocator
  tree : Tree b.pte lbl
  entry : ∀ q v, v < 2 ^ 27 →
    b.entry q v = if q = t ∧ v < n then (s.entry q v).map Pte.shared else s.entry q v
  counted : ∀ {v p}, j ≤ v → v < m → s.entry t v = some p →
    b.refcounts p.pa = s.refcounts p.pa + 1
  refcounts : ∀ {f}, (∀ v p, j ≤ v → v < m → s.entry t v = some p → p.pa ≠ f) →
    b.refcounts f = s.refcounts f
  mem : b.mem = s.mem
  freelist : b.freelist = s.freelist
  proc : b.proc = s.proc
  file : b.file = s.file

variable {s b k : Kernel} {ka : Kalloc} {t np : Slot} {old r f tf : Frame}
  {lbl lbl' : Frame → Option (Frame × Node)} {v j m n c : Nat} {p : Pte}

namespace Kernel.Shares

theorem refl (h : s.Memory lbl) (t : Slot) (j : Nat) : s.Shares s lbl t 0 j j :=
  ⟨h.alloc, h.tree, fun q v _ => by simp, fun _ _ => by omega, fun _ => rfl, rfl, rfl, rfl, rfl⟩

theorem root (h : s.Memory lbl) (hS : s.Shares b lbl t n j m) {q : Slot}
    (hr : (b.proc q).pagetable = some r) : lbl r = some (r, .root) := by
  rw [hS.proc] at hr
  exact h.root hr

/-- The next page becomes copy-on-write. -/
theorem share (h : s.Memory lbl) (hS : s.Shares b lbl t v j m)
    (hold : (s.proc t).pagetable = some old) (hv : v < userPages) (he : s.entry t v = some p) :
    ∃ n, leafTable b.pte old v = some n ∧ lbl n ≠ none ∧ b.pte n (index v 0) = p ∧ p.V ∧
      p.R ∧ s.Shares (b.setPte (n, index v 0) p.shared) lbl t (v + 1) j m := by
  have hv27 : v < 2 ^ 27 := Nat.lt_trans hv (by decide)
  have hroot : lbl old = some (old, .root) := h.root hold
  have hb : mapping b.pte old v = some p := by
    have hbe := hS.entry t v hv27
    rw [if_neg (by omega), he, Kernel.entry, hS.proc, hold, Option.bind_some] at hbe
    exact hbe
  obtain ⟨n, hn, hp, hV⟩ := hS.tree.mapping_some hroot hb
  have hleaf := (hS.tree.leafTable_iff hroot).2 hn
  have hok := (hS.tree.mapping_ok hroot hv27 hb).2
  have hV' : p.shared.V = true := hV
  have hpte : (b.setPte (n, index v 0) p.shared).pte = setEntry b.pte n (index v 0) p.shared := rfl
  refine ⟨n, hleaf, by rw [hn]; simp, hp.symm, hV, hok.1, ⟨hS.alloc.congr rfl rfl rfl, ?_,
    fun q u hu => ?_, hS.counted, hS.refcounts, hS.mem, hS.freelist, hS.proc, hS.file⟩⟩
  · rw [hpte]
    refine hS.tree.setLeaf hn fun _ => ?_
    rw [vpnOf_split hv27]
    exact hok
  · have hbu := hS.entry q u hu
    have hproc : (b.setPte (n, index v 0) p.shared).proc = b.proc := rfl
    unfold Kernel.entry at hbu ⊢
    rw [hproc, hpte]
    cases hq : (b.proc q).pagetable with
    | none =>
      rw [hq] at hbu
      rw [← hS.proc, hq]
      simp
    | some r =>
      rw [hq, Option.bind_some] at hbu
      have hr := hS.root h hq
      have hsq : (s.proc q).pagetable = some r := by rw [← hS.proc, hq]
      rw [Option.bind_some, hS.tree.mapping_setLeaf hroot hleaf hv27 hr hu, if_pos hV']
      have hiff : r = old ↔ q = t := by
        constructor
        · intro hro
          exact h.own hsq (hro ▸ hold)
        · intro hqt
          rw [hqt, hold] at hsq
          exact (Option.some.inj hsq).symm
      simp only [hiff]
      by_cases hqt : q = t ∧ u = v
      · rw [if_pos hqt, if_pos ⟨hqt.1, by omega⟩, hsq, Option.bind_some]
        have hm : mapping s.pte r u = some p := by
          rw [hqt.2]
          rw [Kernel.entry, ← hqt.1, hsq] at he
          exact he
        rw [hm]
        rfl
      · rw [if_neg hqt, hbu]
        by_cases hlt : q = t ∧ u < v
        · rw [if_pos hlt, if_pos ⟨hlt.1, by omega⟩]
        · rw [if_neg hlt, if_neg fun hc => ?_]
          by_cases huv : u = v
          · exact hqt ⟨hc.1, huv⟩
          · exact hlt ⟨hc.1, by omega⟩

/-- Its frame is counted once more. -/
theorem count (h : s.Memory lbl) (hS : s.Shares b lbl t n j v) (hjv : j ≤ v) (hv : v < userPages)
    (he : s.entry t v = some p) :
    b.refcounts p.pa = s.refcounts p.pa ∧
      s.Shares (b.setRef p.pa (s.refcounts p.pa + 1)) lbl t n j (v + 1) := by
  have hother : ∀ u p', j ≤ u → u < v → s.entry t u = some p' → p'.pa ≠ p.pa := by
    intro u p' _ hu he' hpa
    have := h.once (by omega) hv he' he hpa
    omega
  refine ⟨hS.refcounts hother, ⟨hS.alloc.congr rfl rfl rfl, hS.tree, hS.entry,
    fun {u p'} hju hu he' => ?_, fun {f} hf => ?_, hS.mem, hS.freelist, hS.proc, hS.file⟩⟩
  · show Function.update b.refcounts p.pa _ p'.pa = _
    by_cases huv : u = v
    · rw [huv, he] at he'
      rw [← Option.some.inj he', Function.update_self]
    · rw [Function.update_of_ne (hother u p' hju (by omega) he')]
      exact hS.counted hju (by omega) he'
  · show Function.update b.refcounts p.pa _ f = _
    rw [Function.update_of_ne (hf v p hjv (by omega) he).symm]
    exact hS.refcounts fun u p' hju hu he' => hf u p' hju (by omega) he'

/-- And once less. -/
theorem uncount (h : s.Memory lbl) (hS : s.Shares b lbl t n j m) (hjm : j < m)
    (hm : m ≤ userPages) (he : s.entry t j = some p) :
    s.Shares (b.setRef p.pa (s.refcounts p.pa)) lbl t n (j + 1) m := by
  have hother : ∀ u p', j + 1 ≤ u → u < m → s.entry t u = some p' → p'.pa ≠ p.pa := by
    intro u p' hju hu he' hpa
    have := h.once (by omega) (by omega) he' he hpa
    omega
  refine ⟨hS.alloc.congr rfl rfl rfl, hS.tree, hS.entry,
    fun {u p'} hju hu he' => ?_, fun {f} hf => ?_, hS.mem, hS.freelist, hS.proc, hS.file⟩
  · show Function.update b.refcounts p.pa _ p'.pa = _
    rw [Function.update_of_ne (hother u p' hju hu he')]
    exact hS.counted (by omega) hu he'
  · show Function.update b.refcounts p.pa _ f = _
    by_cases hfp : f = p.pa
    · rw [hfp, Function.update_self]
    · rw [Function.update_of_ne hfp]
      refine hS.refcounts fun u p' hju hu he' hpa => ?_
      by_cases huj : u = j
      · rw [huj, he] at he'
        rw [← Option.some.inj he'] at hpa
        exact hfp hpa.symm
      · exact hf u p' (by omega) hu he' hpa

end Kernel.Shares

/-! ## The loop -/

/-- `uvmcopy` from `t` to `np`, whose table at `r` has the pages from `j` to
`m`; `b` is the kernel without it. -/
structure Forking (s b k : Kernel) (lbl lbl' : Frame → Option (Frame × Node)) (t np : Slot)
    (r tf : Frame) (n j m : Nat) : Prop where
  builds : b.Builds k np r lbl' {tf}
  shares : s.Shares b lbl t n j m
  fixed : k.Fixed r
  empty : ∀ u, u < userPages → ¬ (j ≤ u ∧ u < m) → mapping k.pte r u = none
  copied : ∀ u, j ≤ u → u < m → ∃ p p', s.entry t u = some p ∧ mapping k.pte r u = some p' ∧
    p'.pa = p.pa

/-- The walk in the parent's table. -/
theorem Forking.parentWalk (h : s.Memory lbl) (hF : Forking s b k lbl lbl' t np r tf n j m)
    (hold : (s.proc t).pagetable = some old) (v : Nat) :
    leafTable k.pte old v = leafTable b.pte old v := by
  refine hF.shares.tree.leafTable_congr (h.root hold) (fun f x hx => ?_) v
  refine hF.builds.lends.pte f fun hf => ?_
  rw [hF.shares.freelist] at hf
  exact h.node hx hf

theorem Forking.uvmcopyLoop (h : s.Memory lbl) (hka : Promised ka)
    (hold : (s.proc t).pagetable = some old)
    (hF : Forking s b k lbl lbl' t np r tf v 0 v) (hc : v + c ≤ userPages)
    (hmapped : ∀ u, u < v + c → s.entry t u ≠ none) :
    ∃ res b' k' lbl'', (Xv6.uvmcopyLoop ka t old r c (v * PGSIZE)).run k = .ok res k' ∧
      k'.proc = k.proc ∧
      ((res = none ∧ k'.nulls = k.nulls ∧
          Forking s b' k' lbl lbl'' t np r tf (v + c) 0 (v + c)) ∨
        ∃ i n, res = some (i * PGSIZE) ∧ i < userPages ∧ n ≤ userPages ∧
          Forking s b' k' lbl lbl'' t np r tf n 0 i) := by
  induction c generalizing b k lbl' v with
  | zero => exact ⟨none, b, k, lbl', rfl, rfl, .inl ⟨rfl, rfl, hF⟩⟩
  | succ c ih =>
    have hv : v < userPages := by omega
    have hv26 : v < 2 ^ 26 := Nat.lt_trans hv (by decide)
    obtain ⟨p, hp⟩ := Option.ne_none_iff_exists'.1 (hmapped v (by omega))
    obtain ⟨hmanaged, hused, -⟩ := h.page hv hp
    obtain ⟨n, hleaf, hn, rfl, hV, hR, hS⟩ := hF.shares.share h hold hv hp
    obtain ⟨p, hpdef⟩ : ∃ p, p = b.pte n (index v 0) := ⟨_, rfl⟩
    rw [← hpdef] at hp hmanaged hused hV hR hS
    have hnb : n ∉ b.freelist := by
      rw [hF.shares.freelist]
      obtain ⟨x, hx⟩ := Option.ne_none_iff_exists'.1 hn
      exact h.node hx
    have hwalk : leafTable k.pte old v = some n := (hF.parentWalk h hold v).trans hleaf
    have hkp : k.pte n (index v 0) = p := by rw [hF.builds.lends.pte n hnb, hpdef]
    -- the parent's entry
    obtain ⟨hB₁, hmap₁⟩ := (hF.builds.setBusy t (some (r, v))).setPte hnb (index v 0) p.shared
    have hmaps₁ : ∀ u, mapping ((k.setBusy t (some (r, v))).setPte (n, index v 0) p.shared).pte r u =
        mapping k.pte r u := hmap₁
    have hnone : mapping ((k.setBusy t (some (r, v))).setPte (n, index v 0) p.shared).pte r v =
        none := (hmaps₁ v).trans (hF.empty v hv (by omega))
    -- the child's
    obtain ⟨res, k₂, lbl₂, hrun₂, hB₂, hproc₂, hres₂⟩ := hB₁.mapOne hka p.pa
      p.shared.toFlags hv26 (by simp [Pte.shared, hR]) hnone
    have hva := page_lt.2 hv26
    have hbusy : (k.setBusy t (some (r, v))).pte = k.pte := rfl
    have hstep : ∀ {res' k'}, (if res ≠ 0 then do
          mark t none
          return some (v * PGSIZE)
        else do
          kref_inc p.pa
          mark t none
          Xv6.uvmcopyLoop ka t old r c ((v + 1) * PGSIZE)).run k₂ = .ok res' k' →
        (Xv6.uvmcopyLoop ka t old r (c + 1) (v * PGSIZE)).run k = .ok res' k' := by
      intro res' k' hrun
      unfold Xv6.uvmcopyLoop
      simp only [mark, run_bind, run_modify, page_div, walk_run hva, hbusy, hwalk, Option.map_some,
        readPte, run_read, PX_eq, hkp, if_neg (not_not.2 hV), writePte]
      have hrun₂' : (mappages ka r (v * PGSIZE) PGSIZE p.pa
          { p.toFlags with W := false, COW := true }).run
          ((k.setBusy t (some (r, v))).setPte (n, index v 0) { p with W := false, COW := true }) =
          .ok res k₂ := hrun₂
      rw [hrun₂', ← Nat.succ_mul]
      exact hrun
    rcases hres₂ with ⟨rfl, hmap₂⟩ | ⟨rfl, hnulls₂, hmap₂⟩
    · refine ⟨some (v * PGSIZE), b.setPte (n, index v 0) p.shared, k₂.setBusy t none, lbl₂,
        hstep rfl, hproc₂, .inr ⟨v, v + 1, rfl, hv, hv, ?_⟩⟩
      have hsame : ∀ u, mapping k₂.pte r u = mapping k.pte r u := fun u =>
        (hmap₂ u).trans (hmaps₁ u)
      refine ⟨hB₂.setBusy t none, hS, fun u hu hlow => ?_, fun u hu hno => ?_, fun u hju hu => ?_⟩
      · show mapping k₂.pte r u ≠ none ↔ _
        rw [hsame]
        exact hF.fixed u hu hlow
      · exact (hsame u).trans (hF.empty u hu hno)
      · obtain ⟨p₁, p₂, h₁, h₂, h₃⟩ := hF.copied u hju hu
        exact ⟨p₁, p₂, h₁, (hsame u).trans h₂, h₃⟩
    · obtain ⟨hcount, hS'⟩ := hS.count h (Nat.zero_le v) hv hp
      have hpb : p.pa ∉ (b.setPte (n, index v 0) p.shared).freelist := by
        rw [show (b.setPte (n, index v 0) p.shared).freelist = b.freelist from rfl,
          hF.shares.freelist]
        exact hused
      have hkcount : k₂.refcounts p.pa = s.refcounts p.pa := by
        rw [hB₂.lends.refcounts _ hpb]
        exact hcount
      have hincr : incr UINT8_MAX (k₂.refcounts p.pa) = s.refcounts p.pa + 1 := by
        obtain ⟨-, hlt⟩ := h.count_le hv hp
        rw [hkcount]
        rcases incr_cases UINT8_MAX (s.refcounts p.pa) with ⟨he, -⟩ | ⟨-, he⟩
        · omega
        · exact he
      have hB₃ := (hB₂.setRef hpb (s.refcounts p.pa + 1)).setBusy t none
      have hmaps₂ : ∀ u, u < 2 ^ 27 → mapping ((k₂.setRef p.pa (s.refcounts p.pa + 1)).setBusy t
          none).pte r u = if u = v then some { p.shared with V := true, pa := p.pa }
          else mapping k.pte r u := fun u hu => by
        rw [← hmaps₁ u]
        exact hmap₂ u hu
      have hpages : userPages < 2 ^ 27 := by decide
      have hF' : Forking s ((b.setPte (n, index v 0) p.shared).setRef p.pa (s.refcounts p.pa + 1))
          ((k₂.setRef p.pa (s.refcounts p.pa + 1)).setBusy t none) lbl lbl₂ t np r tf (v + 1) 0
          (v + 1) := by
        refine ⟨hB₃, hS', fun u hu hlow => ?_, fun u hu hno => ?_, fun u hju hu => ?_⟩
        · rw [hmaps₂ u hu, if_neg (by omega)]
          exact hF.fixed u hu hlow
        · rw [hmaps₂ u (by omega), if_neg (by omega)]
          exact hF.empty u hu (by omega)
        · rw [hmaps₂ u (by omega)]
          by_cases huv : u = v
          · rw [if_pos huv, huv]
            exact ⟨p, _, hp, rfl, rfl⟩
          · rw [if_neg huv]
            exact hF.copied u hju (by omega)
      obtain ⟨res, b', k', lbl'', hrun, hproc, hres⟩ := ih hF' (by omega) fun u hu =>
        hmapped u (by omega)
      refine ⟨res, b', k', lbl'', hstep ?_, hproc.trans hproc₂, ?_⟩
      · rw [if_neg (by decide)]
        simp only [kref_inc, run_bind, run_modify, hincr, mark]
        exact hrun
      · rw [show v + (c + 1) = v + 1 + c by omega]
        refine hres.imp_left fun hres => ⟨hres.1, hres.2.1.trans hnulls₂, hres.2.2⟩

/-- `uvmunmap` of the child drops the references again. -/
theorem Forking.uvmunmapLoop (h : s.Memory lbl) (hF : Forking s b k lbl lbl' t np r tf n j m)
    (hjm : j + c = m) (hm : m ≤ userPages) (ka : Kalloc) (q : Slot) :
    ∃ b' k', (Xv6.uvmunmapLoop ka q r true c (j * PGSIZE)).run k = .ok () k' ∧ k'.proc = k.proc ∧
      Forking s b' k' lbl lbl' t np r tf n m m := by
  induction c generalizing b k j with
  | zero =>
    obtain rfl : j = m := by omega
    exact ⟨b, k, rfl, rfl, hF⟩
  | succ c ih =>
    have hpages : userPages < 2 ^ 26 := by decide
    obtain ⟨p, p', hp, hp', hpa⟩ := hF.copied j (Nat.le_refl j) (by omega)
    obtain ⟨hmanaged, hused, -⟩ := h.page (by omega) hp
    have hpb : p.pa ∉ b.freelist := by rwa [hF.shares.freelist]
    have hcount : k.refcounts p.pa = s.refcounts p.pa + 1 := by
      rw [hF.builds.lends.refcounts _ hpb]
      exact hF.shares.counted (Nat.le_refl j) (by omega) hp
    obtain ⟨hpos, -⟩ := h.count_le (by omega) hp
    have hdec : decr UINT8_MAX (k.refcounts p.pa) = s.refcounts p.pa := by
      unfold decr
      rw [hcount, if_neg (by omega)]
      rfl
    have hdrop : (if true then kref_dec p'.pa else pure ()).run (k.setBusy q (some (r, j))) =
        .ok () ((k.setBusy q (some (r, j))).setRef p.pa (s.refcounts p.pa)) := by
      have hsame : (k.setBusy q (some (r, j))).refcounts = k.refcounts := rfl
      rw [if_pos rfl, hpa, kref_dec_run, hsame, hdec, if_neg (by omega)]
    obtain ⟨k₂, hrun₂, hB₂, hproc₂, -, -, hmap₂⟩ := hF.builds.unmapOne (n := c)
      (by omega : j < 2 ^ 26) hp' hdrop ((hF.builds.setBusy q (some (r, j))).setRef hpb
        (s.refcounts p.pa)) fun _ => rfl
    have hF₂ : Forking s (b.setRef p.pa (s.refcounts p.pa)) k₂ lbl lbl' t np r tf n (j + 1) m := by
      refine ⟨hB₂, hF.shares.uncount h (by omega) hm hp, fun u hu hlow => ?_, fun u hu hno => ?_,
        fun u hju hu => ?_⟩
      · rw [hmap₂ u hu, if_neg (by omega)]
        exact hF.fixed u hu hlow
      · rw [hmap₂ u (by omega)]
        split
        · rfl
        · exact hF.empty u hu (by omega)
      · rw [hmap₂ u (by omega), if_neg (by omega)]
        exact hF.copied u (by omega) hu
    obtain ⟨b', k', hrun, hproc, hF'⟩ := ih hF₂ (by omega)
    exact ⟨b', k', hrun₂.trans hrun, hproc.trans hproc₂, hF'⟩

end Xv6
