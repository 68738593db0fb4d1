/-
The walk of `sys_va2pa` against each step of the target: while the caller
holds `p->lock`, only the switch of page tables in `exec` takes the pages of
its walk away.
-/
import Xv6.Va2paTables

namespace Xv6.Va2pa

open Conc

variable {P : Type} [DecidableEq P] {s s' : State P}

/-! ## Steps of the target -/

/-- What a step leaves as it is for one that walks the current page table:
what is linked stays linked, and a page of the user stays one. -/
structure Calm (s s' : State P) : Prop where
  pagetable : s'.pagetable = s.pagetable
  cur : s'.cur = s.cur
  kept : ∀ p i e l, s.use p = .node s.cur (l + 1) → s.mem p i = some e → s'.mem p i = some e
  user : ∀ p i e, s.use p = .node s.cur 0 → s'.mem p i = some e →
    e.user = true ∨ ∃ e₀, s.mem p i = some e₀ ∧ e.user = e₀.user

omit [DecidableEq P] in
theorem Calm.of_mem (hp : s'.pagetable = s.pagetable) (hc : s'.cur = s.cur)
    (hmem : ∀ p l i, s.use p = .node s.cur l → s'.mem p i = s.mem p i) : Calm s s' :=
  ⟨hp, hc, fun p i _ _ hu he => (hmem p _ i hu).trans he,
    fun p i e hu he => .inr ⟨e, (hmem p _ i hu).symm.trans he, rfl⟩⟩

omit [DecidableEq P] in
theorem Calm.path {π : List Nat} {page : P} (hcalm : Calm s s') (h : Inv s)
    (hl : s.lock = some .caller) (hp : s.path π = some page) (hπ : π.length ≤ 2) :
    s'.path π = some page := by
  induction π generalizing page with
  | nil => exact hcalm.pagetable.trans hp
  | cons i π ih =>
    obtain ⟨p, hpath, hentry⟩ := Option.bind_eq_some_iff.1 hp
    obtain ⟨e, he, rfl⟩ := Option.map_eq_some_iff.1 hentry
    rw [List.length_cons] at hπ
    obtain ⟨l, hlen, hu⟩ := h.path_use hl hpath (by omega)
    obtain ⟨k, rfl⟩ : ∃ k, l = k + 1 := ⟨l - 1, by omega⟩
    refine Option.bind_eq_some_iff.2 ⟨p, ih hpath (by omega), ?_⟩
    rw [hcalm.kept p i e k hu he]
    rfl

omit [DecidableEq P] in
theorem length_indices (va level : Nat) : (indices va level).length ≤ 2 := by
  match level with
  | 0 => exact Nat.le_refl _
  | 1 => exact Nat.le_succ _
  | _ + 2 => exact Nat.zero_le _

omit [DecidableEq P] in
theorem Sound.of_reads (hr : s.caller.reads = none) : Sound s := by
  refine ⟨fun va level page hx => ?_, ?_⟩
  · rw [hr] at hx
    cases hx
  · cases hc : s.caller <;> rw [hc] at hr <;> trivial

omit [DecidableEq P] in
/-- A page on a path is no free page. -/
theorem Inv.path_ne_free {va level : Nat} {page : P} (h : Inv s) (hl : s.lock = some .caller)
    (hp : s.path (indices va level) = some page) : s.use page ≠ .free := by
  obtain ⟨l, -, hu⟩ := h.path_use hl hp (length_indices va level)
  rw [hu]
  nofun

omit [DecidableEq P] in
/-- A calm step of the target does not disturb the walk. -/
theorem Sound.target (hsound : Sound s) (h : Inv s) (h' : Inv s') (hcalm : Calm s s')
    (hcaller : s'.caller = s.caller) : Sound s' := by
  by_cases hr : s.caller.reads = none
  · exact .of_reads (hcaller ▸ hr)
  have hholds : s.caller.holds = true := by
    obtain ⟨x, hx⟩ := Option.ne_none_iff_exists'.1 hr
    exact Caller.holds_of_reads hx
  have hl := h.held hholds
  have hl' := h'.held (hcaller ▸ hholds)
  refine ⟨fun va level page hx => ?_, ?_⟩
  · rw [hcaller] at hx
    have hp := hcalm.path h hl (hsound.table va level page hx).1 (length_indices va level)
    exact ⟨hp, h'.path_ne_free hl' hp⟩
  · have hseen := hsound.seen
    have hupper := h.upper
    rw [hcaller]
    cases hc : s.caller <;> rw [hc] at hseen hupper
    case follow va level page =>
      obtain ⟨e, he⟩ := Option.ne_none_iff_exists'.1 hseen
      have hp := (hsound.table va level page (by rw [hc]; rfl)).1
      have hlevel : ∃ k, s.use page = .node s.cur (k + 1) := by
        obtain ⟨l, hlen, hu⟩ := h.path_use hl hp (length_indices va level)
        rcases hupper with rfl | rfl
        · exact ⟨0, by obtain rfl : l = 1 := Nat.succ.inj hlen; exact hu⟩
        · exact ⟨1, by obtain rfl : l = 2 := hlen; exact hu⟩
      obtain ⟨k, hu⟩ := hlevel
      have he' : s'.mem page (PX level va) = some e := hcalm.kept page _ e k hu he
      exact fun hnone => Option.some_ne_none e (he'.symm.trans hnone)
    case pa va page =>
      intro e he
      have hp := (hsound.table va 0 page (by rw [hc]; rfl)).1
      obtain ⟨l, hlen, hu⟩ := h.path_use hl hp (length_indices va 0)
      obtain rfl : l = 0 := Nat.succ.inj (Nat.succ.inj hlen)
      rcases hcalm.user page _ e hu he with heq | ⟨e₀, he₀, heq⟩
      · exact heq
      · rw [heq]
        exact hseen e₀ he₀
    all_goals trivial

/-- A step of the target keeps the invariant, and is calm while the caller
holds the lock. -/
structure Kept (s s' : State P) : Prop where
  inv : Inv s'
  caller : s'.caller = s.caller
  calm : s.lock = some .caller → Calm s s'

omit [DecidableEq P] in
/-- A step that changes pages only. -/
theorem Inv.memory {use' : P → Use} {mem' : P → Nat → Option (Entry P)} (h : Inv s)
    (ht : Tables use' mem' s.nextid s.mode.cut)
    (hkeep : ∀ p id l, s.use p = .node id l → use' p = .node id l)
    (hfree : ∀ id reap stack back, s.mode = .freewalk id reap stack back →
      ∀ p id l i, s.use p = .node id l → mem' p i = s.mem p i) :
    Inv { s with use := use', mem := mem' } := by
  refine ⟨ht, h.current, fun r hr hreaps => hkeep _ _ _ (h.root r hr hreaps), ?_, h.held, h.upper⟩
  have hm := h.mode
  unfold State.ModeOk at hm ⊢
  dsimp only
  cases hmode : s.mode <;> rw [hmode] at hm <;> dsimp only at hm ⊢
  case make => exact hm
  case build => exact ⟨hm.1, hkeep _ _ _ hm.2⟩
  case unmap => exact ⟨hkeep _ _ _ hm.1, hm.2⟩
  case freewalk id reap stack back =>
    obtain ⟨⟨l, hchain⟩, hends⟩ := hm
    exact ⟨⟨l, hchain.congr fun p k _ hu =>
      ⟨hkeep _ _ _ hu, fun _ i => hfree id reap stack back hmode p id k i hu⟩⟩, hends⟩
  case gone => exact hm

omit [DecidableEq P] in
/-- The rest of the kernel. -/
theorem Inv.other {use' : P → Use} {mem' : P → Nat → Option (Entry P)} (h : Inv s)
    (huse : ∀ p id l, use' p = .node id l ↔ s.use p = .node id l)
    (hmem : ∀ p id l i, s.use p = .node id l → mem' p i = s.mem p i) :
    Kept s { s with use := use', mem := mem' } :=
  ⟨h.memory (h.tables.congr huse hmem) (fun p id l => (huse p id l).2) fun _ _ _ _ _ => hmem, rfl,
    fun _ => .of_mem rfl rfl fun p _ i hu => hmem p _ _ i hu⟩

theorem update_use {q : P} {u : Use} (hq : ∀ id l, s.use q ≠ .node id l)
    (hu : ∀ id l, u ≠ .node id l) (p : P) (id l : Nat) :
    Function.update s.use q u p = .node id l ↔ s.use p = .node id l := by
  by_cases hp : p = q
  · subst hp
    rw [Function.update_self]
    exact iff_of_false (hu id l) (hq id l)
  · rw [Function.update_of_ne hp]

omit [DecidableEq P] in
theorem active_shrinks {id : Nat} (ha : s.active = some id) : s.shrinks = some id := by
  unfold State.shrinks
  split
  next hmode =>
    unfold State.active at ha
    rw [hmode] at ha
    cases ha
  next => exact ha

omit [DecidableEq P] in
theorem not_freewalk {id id' : Nat} {reap back : Bool} {stack : List (P × Nat)}
    (ha : s.shrinks = some id) : s.mode ≠ .freewalk id' reap stack back := by
  intro hmode
  unfold State.shrinks State.active at ha
  rw [hmode] at ha
  cases ha

omit [DecidableEq P] in
theorem cut_shrinks {id : Nat} (ha : s.shrinks = some id) : s.mode.cut = none := by
  cases hmode : s.mode with
  | freewalk => exact absurd hmode (not_freewalk ha)
  | _ => rfl

omit [DecidableEq P] in
/-- While the caller holds the lock, the leaves of the current page table
are written by the target's own code. -/
theorem Inv.shrinks_cur (h : Inv s) (hl : s.lock = some .caller)
    (ha : s.shrinks = some s.cur) : s.mode.runs = true := by
  have hm := h.mode
  unfold State.ModeOk at hm
  unfold State.shrinks State.active at ha
  cases hmode : s.mode <;> rw [hmode] at hm ha <;> dsimp only at hm ha
  case run => rfl
  case make =>
    rw [hl] at hm
    cases hm
  case build => exact absurd (Option.some.inj ha) hm.1
  case unmap id root reap =>
    cases reap with
    | false => exact absurd (Option.some.inj ha) hm.2
    | true =>
      have hlock : s.lock = some .reaper := hm.2
      rw [hl] at hlock
      cases hlock
  all_goals cases ha

/-- Writing a leaf. The user's pages stay the user's. -/
theorem Inv.setLeaf {page : P} {i id : Nat} {x : Option (Entry P)} (h : Inv s)
    (hu : s.use page = .node id 0) (ha : s.shrinks = some id)
    (hx : ∀ e, x = some e → e.leaf = true)
    (huser : s.mode.runs = true → ∀ e, x = some e →
      e.user = true ∨ ∃ e₀, s.mem page i = some e₀ ∧ e.user = e₀.user) :
    Kept s (s.setEntry page i x) := by
  refine ⟨h.memory (h.tables.setLeaf hu hx) (fun _ _ _ hp => hp) fun _ _ _ _ hmode =>
    absurd hmode (not_freewalk ha), rfl, fun hl => ⟨rfl, rfl, fun p j e l hp he => ?_,
      fun p j e hp he => ?_⟩⟩
  · have hne : p ≠ page := by
      rintro rfl
      rw [hu] at hp
      cases hp
    exact (congrFun (Function.update_of_ne hne ..) j).trans he
  · change Function.update s.mem page _ p j = some e at he
    by_cases hpp : p = page
    · subst hpp
      rw [Function.update_self] at he
      by_cases hj : j = i
      · subst hj
        rw [Function.update_self] at he
        rw [hu] at hp
        cases hp
        exact huser (h.shrinks_cur hl ha) e he
      · rw [Function.update_of_ne hj] at he
        exact .inr ⟨e, he, rfl⟩
    · rw [Function.update_of_ne hpp] at he
      exact .inr ⟨e, he, rfl⟩

/-- `walk` links a new page. -/
theorem Inv.table {page q : P} {i id l : Nat} (h : Inv s) (hu : s.use page = .node id (l + 1))
    (ha : s.active = some id) (he : s.mem page i = none) (hq : s.use q = .free) :
    Kept s ((s.newPage q (.node id l)).setEntry page i (some ⟨false, false, q⟩)) := by
  have hne : page ≠ q := by
    rintro rfl
    rw [hu] at hq
    cases hq
  have hnode := h.tables.node page id (l + 1) hu
  have ht := h.tables
  rw [cut_shrinks (active_shrinks ha)] at ht
  have hkeep : ∀ p id' l', s.use p = .node id' l' →
      Function.update s.use q (.node id l) p = .node id' l' := by
    intro p id' l' hp
    rwa [Function.update_of_ne]
    rintro rfl
    rw [hq] at hp
    cases hp
  have hlink := (ht.newPage hq hnode.1 (Nat.le_refl _) (l := l) (by omega)).link (i := i)
    (hkeep page id (l + 1) hu) (Function.update_self ..) fun p j e id' l' hp hj hpa => by
      by_cases hpq : p = q
      · subst hpq
        rw [Function.update_self] at hj
        cases hj
      · rw [Function.update_of_ne hpq] at hp hj
        obtain ⟨-, hc | hc⟩ := ht.child p j e id' l' hp hj
        · rw [hpa, hq] at hc
          cases hc
        · cases hc
  have hold : ∀ p id' l', s.use p = .node id' l' → ∀ j, ¬ (p = page ∧ j = i) →
      ((s.newPage q (.node id l)).setEntry page i (some ⟨false, false, q⟩)).mem p j =
        s.mem p j := by
    intro p id' l' hp j hji
    have hpq : p ≠ q := by
      rintro rfl
      rw [hq] at hp
      cases hp
    change Function.update (Function.update s.mem q fun _ => none) page _ p j = s.mem p j
    by_cases hpp : p = page
    · subst hpp
      rw [Function.update_self, Function.update_of_ne fun hj => hji ⟨rfl, hj⟩]
      exact congrFun (Function.update_of_ne hpq ..) j
    · rw [Function.update_of_ne hpp, Function.update_of_ne hpq]
  refine ⟨h.memory ?_ hkeep fun _ _ _ _ hmode => absurd hmode (not_freewalk (active_shrinks ha)),
    rfl, fun _ => ⟨rfl, rfl, fun p j e l' hp hj => ?_, fun p j e hp hj => ?_⟩⟩
  · rw [cut_shrinks (active_shrinks ha)]
    exact hlink
  · refine (hold p _ _ hp j ?_).trans hj
    rintro ⟨rfl, rfl⟩
    rw [he] at hj
    cases hj
  · refine .inr ⟨e, (hold p _ _ hp j ?_).symm.trans hj, rfl⟩
    rintro ⟨rfl, -⟩
    rw [hu] at hp
    cases hp

/-- `exec` creates a page table. -/
theorem Inv.create {q : P} (h : Inv s) (hmode : s.mode = .run) (hq : s.use q = .free) :
    Kept s { s.newPage q (.node s.nextid 2) with
      mode := .build s.nextid q, nextid := s.nextid + 1 } := by
  have ht := h.tables
  rw [hmode] at ht
  have hkeep : ∀ p id l, s.use p = .node id l → p ≠ q := by
    rintro p id l hp rfl
    rw [hq] at hp
    cases hp
  refine ⟨⟨ht.newPage hq (Nat.lt_succ_self _) (Nat.le_succ _) (Nat.le_refl _),
    Nat.lt_succ_of_lt h.current, fun r hr _ => ?_,
    ⟨Nat.ne_of_gt h.current, Function.update_self ..⟩, h.held, h.upper⟩, rfl,
    fun _ => .of_mem rfl rfl fun p _ i hp => ?_⟩
  · have hu := h.root r hr (by rw [hmode]; rfl)
    exact (Function.update_of_ne (hkeep r _ _ hu) ..).trans hu
  · exact congrFun (Function.update_of_ne (hkeep p _ _ hp) ..) i

omit [DecidableEq P] in
/-- `exec` switches to the page table it has built. -/
theorem Inv.commit {id : Nat} {root old : P} (h : Inv s) (hmode : s.mode = .build id root)
    (hold : s.pagetable = some old) :
    id ≠ s.cur ∧
      Inv { s with pagetable := some root, cur := id, mode := .unmap s.cur old false } := by
  have hm := h.mode
  have ht := h.tables
  unfold State.ModeOk at hm
  rw [hmode] at hm ht
  refine ⟨hm.1, ht, (ht.node root id 2 hm.2).1, fun r hr _ => ?_, ⟨?_, fun heq => hm.1 heq.symm⟩,
    h.held, h.upper⟩
  · obtain rfl := Option.some.inj hr
    exact hm.2
  · exact h.root old hold (by rw [hmode]; rfl)

/-- The state after `freewalk` has freed a page that only `cut` points to. -/
theorem Inv.kfree {p : P} {id l : Nat} {reap : Bool} (h : Inv s) (junk : P) (mode : Mode P)
    (hcut : s.mode.cut = none) (hu : s.use p = .node id l) (hends : s.Ends id reap)
    (hreaps : reap = true → mode.reaps = true)
    (hptr : ∀ p' j e id' l', s.use p' = .node id' (l' + 1) → s.mem p' j = some e → e.pa = p →
      mode.cut = some (p', j)) :
    Tables (s.kfree p junk).use (s.kfree p junk).mem s.nextid mode.cut ∧
    (∀ r, s.pagetable = some r → s.mode.reaps = reap → mode.reaps = false →
      (s.kfree p junk).use r = .node s.cur 2) ∧
    (s.lock = some .caller → ∀ p' l' i, s.use p' = .node s.cur l' →
      (s.kfree p junk).mem p' i = s.mem p' i) := by
  have ht := h.tables
  rw [hcut] at ht
  refine ⟨ht.kfree hptr, fun r hr hreap hmode => ?_, fun hl p' l' i hp' => ?_⟩
  · obtain rfl : reap = false := by
      cases reap with
      | false => rfl
      | true =>
        rw [hreaps rfl] at hmode
        cases hmode
    have hr' := h.root r hr hreap
    refine (Function.update_of_ne ?_ ..).trans hr'
    rintro rfl
    rw [hu] at hr'
    cases hr'
    exact hends rfl
  · refine congrFun (Function.update_of_ne ?_ ..) i
    rintro rfl
    rw [hu] at hp'
    cases hp'
    cases reap with
    | false => exact hends rfl
    | true =>
      have hlock : s.lock = some .reaper := hends
      rw [hl] at hlock
      cases hlock

/-- A step of `freewalk`. -/
theorem Inv.free {junk : P} (h : Inv s) (hs : s.freeStep junk = some s') : Kept s s' := by
  have hm := h.mode
  have ht := h.tables
  unfold State.ModeOk at hm
  unfold State.freeStep at hs
  split at hs
  next id reap p i rest hmode =>
    rw [hmode] at hm ht
    obtain rfl := Option.some.inj hs
    obtain ⟨⟨l, hchain⟩, hends⟩ := hm
    have hu := hchain.top
    have hother : ∀ p' id' k, s.use p' = .node id' k → (id' ≠ id ∨ k ≠ l) → ∀ j,
        (s.setEntry p i none).mem p' j = s.mem p' j := by
      intro p' id' k hp' hne j
      refine congrFun (Function.update_of_ne ?_ ..) j
      rintro rfl
      rw [hu] at hp'
      cases hp'
      exact hne.elim (fun hn => hn rfl) fun hn => hn rfl
    refine ⟨⟨ht.clear, h.current, fun r hr hreaps => h.root r hr (by rw [hmode]; exact hreaps),
      ⟨⟨l, ?_⟩, hends⟩, h.held, h.upper⟩, rfl, fun hl => .of_mem rfl rfl fun p' k j hp' => ?_⟩
    · exact hchain.move.congr fun p' k hk hp' =>
        ⟨hp', fun hlt j => hother p' id k hp' (.inr (Nat.ne_of_gt hlt)) j⟩
    · refine hother p' _ k hp' (.inl ?_) j
      rintro rfl
      cases reap with
      | false => exact hends rfl
      | true =>
        have hlock : s.lock = some .reaper := hends
        rw [hl] at hlock
        cases hlock
  next id reap p i rest hmode =>
    rw [hmode] at hm ht
    obtain ⟨⟨l, hchain⟩, hends⟩ := hm
    have hu := hchain.top
    have hcut : s.mode.cut = none := by rw [hmode]; rfl
    split at hs
    next hi =>
      split at hs
      next e he =>
        split at hs
        next => cases hs
        next hleaf =>
          obtain rfl := Option.some.inj hs
          refine ⟨⟨ht, h.current, fun r hr hreaps => h.root r hr (by rw [hmode]; exact hreaps),
            ?_, h.held, h.upper⟩, rfl, fun _ => .of_mem rfl rfl fun _ _ _ _ => rfl⟩
          cases l with
          | zero => exact absurd (ht.leaf p i e id hu he) hleaf
          | succ l =>
            obtain ⟨-, hc | hc⟩ := ht.child p i e id l hu he
            · exact ⟨⟨l, hc, ⟨e, he, rfl⟩, hchain⟩, hends⟩
            · cases hc
      next =>
        obtain rfl := Option.some.inj hs
        exact ⟨⟨ht, h.current, fun r hr hreaps => h.root r hr (by rw [hmode]; exact hreaps),
          ⟨⟨l, hchain.move⟩, hends⟩, h.held, h.upper⟩, rfl,
          fun _ => .of_mem rfl rfl fun _ _ _ _ => rfl⟩
    next hi =>
      split at hs
      next frame rest =>
        obtain rfl := Option.some.inj hs
        obtain ⟨-, ⟨e, he, hpa⟩, hrest⟩ := hchain
        obtain ⟨ht', hroot, hmem⟩ := h.kfree junk
          (.freewalk id reap (frame :: rest) true) hcut hu hends (fun hr => hr)
          fun p' j e' id' l' hp' he' hpa' => by
            obtain ⟨rfl, rfl⟩ := ht.inj p' j e' id' l' _ _ e id l hp' hrest.top he' he
              (hpa'.trans hpa.symm)
            rfl
        refine ⟨⟨ht', h.current, fun r hr hreaps => hroot r hr (by rw [hmode]; rfl) hreaps,
          ⟨⟨l + 1, hrest.congr fun p' k hk hp' => ?_⟩, hends⟩, h.held, h.upper⟩, rfl,
          fun hl => .of_mem rfl rfl (hmem hl)⟩
        have hne : p' ≠ p := by
          rintro rfl
          rw [hu] at hp'
          cases hp'
          omega
        exact ⟨(Function.update_of_ne hne ..).trans hp',
          fun _ j => congrFun (Function.update_of_ne hne ..) j⟩
      next =>
        obtain ⟨rfl, -⟩ := hchain
        have hptr : ∀ p' j e id' l', s.use p' = .node id' (l' + 1) → s.mem p' j = some e →
            e.pa ≠ p := by
          intro p' j e id' l' hp' he hpa
          obtain ⟨-, hc | hc⟩ := ht.child p' j e id' l' hp' he
          · rw [hpa, hu] at hc
            cases hc
            exact absurd (ht.node p' _ _ hp').2 (by decide)
          · cases hc
        split at hs
        next hreap =>
          obtain rfl := Option.some.inj hs
          obtain ⟨ht', -, hmem⟩ := h.kfree junk .gone hcut hu hends
            (fun _ => rfl) fun p' j e id' l' hp' he hpa => absurd hpa (hptr p' j e id' l' hp' he)
          refine ⟨⟨ht', h.current, nofun, rfl, h.held, h.upper⟩, rfl, fun hl => ?_⟩
          have hlock : s.lock = some .reaper := by
            unfold State.Ends at hends
            rwa [if_pos hreap] at hends
          rw [hl] at hlock
          cases hlock
        next hreap =>
          obtain rfl := Option.some.inj hs
          obtain rfl : reap = false := by simpa using hreap
          obtain ⟨ht', hroot, hmem⟩ := h.kfree junk .run hcut hu hends
            nofun fun p' j e id' l' hp' he hpa => absurd hpa (hptr p' j e id' l' hp' he)
          exact ⟨⟨ht', h.current, fun r hr hreaps => hroot r hr (by rw [hmode]; rfl) hreaps,
            trivial, h.held, h.upper⟩, rfl, fun hl => .of_mem rfl rfl (hmem hl)⟩
  next => cases hs

omit [DecidableEq P] in
/-- The lock changes hands, but is not the caller's. -/
theorem Inv.relock {lock : Option Agent} (h : Inv s) (mode : Mode P)
    (hlock : s.lock ≠ some .caller) (hcut : mode.cut = s.mode.cut)
    (hreaps : mode.reaps = false → s.mode.reaps = false)
    (hmode : State.ModeOk { s with lock := lock, mode := mode }) :
    Kept s { s with lock := lock, mode := mode } := by
  refine ⟨⟨?_, h.current, fun r hr hrs => h.root r hr (hreaps hrs), hmode, fun hc =>
    absurd (h.held hc) hlock, h.upper⟩, rfl, fun hl => absurd hl hlock⟩
  have ht := h.tables
  rw [← hcut] at ht
  exact ht

omit [DecidableEq P] in
theorem Inv.acquire (h : Inv s) (hlock : s.lock = none) (halive : s.mode.alive = true) :
    Kept s { s with lock := some .target } := by
  refine h.relock s.mode (by rw [hlock]; nofun) rfl (fun hr => hr) ?_
  have hm := h.mode
  unfold State.ModeOk at hm ⊢
  dsimp only
  cases hmode : s.mode <;> rw [hmode] at hm halive <;> dsimp only at hm ⊢
  case build => exact hm
  case unmap id root reap =>
    obtain rfl : reap = false := by simpa [Mode.alive] using halive
    exact hm
  case freewalk id reap stack back =>
    obtain rfl : reap = false := by simpa [Mode.alive] using halive
    exact hm
  all_goals cases halive

theorem Inv.release (h : Inv s) (hs : s.next .release = some s') : Kept s s' := by
  have hm := h.mode
  unfold State.ModeOk at hm
  simp only [State.next] at hs
  split at hs
  next hlock hmode =>
    obtain rfl := Option.some.inj hs
    exact h.relock _ (by rw [hlock]; nofun) (by rw [hmode]; rfl) (fun _ => by rw [hmode]; rfl)
      trivial
  next hlock hne =>
    obtain rfl := Option.some.inj hs
    refine h.relock s.mode (by rw [hlock]; nofun) rfl (fun hr => hr) ?_
    unfold State.ModeOk
    dsimp only
    cases hmode : s.mode <;> rw [hmode] at hm <;> dsimp only at hm ⊢
    case make => exact absurd hmode (hne ·)
    case build | gone => exact hm
    case unmap id root reap =>
      refine ⟨hm.1, ?_⟩
      cases reap with
      | false => exact hm.2
      | true =>
        have hl : s.lock = some .reaper := hm.2
        rw [hlock] at hl
        cases hl
    case freewalk id reap stack back =>
      refine ⟨hm.1, ?_⟩
      cases reap with
      | false => exact hm.2
      | true =>
        have hl : s.lock = some .reaper := hm.2
        rw [hlock] at hl
        cases hl
  next hlock hmode =>
    obtain rfl := Option.some.inj hs
    rw [hmode] at hm
    exact h.relock s.mode (by rw [hlock]; nofun) rfl (fun hr => hr)
      (by unfold State.ModeOk; dsimp only; rw [hmode]; exact hm)
  next => cases hs

/-- Every step but the caller's and the switch of page tables. -/
theorem Inv.target {e : Event P} (h : Inv s) (hs : s.next e = some s')
    (hcall : ∀ va pid, e ≠ .va2pa va pid) (hstep : e ≠ .caller) (hcommit : e ≠ .commit) :
    Kept s s' := by
  cases e with
  | va2pa va pid => exact absurd rfl (hcall va pid)
  | caller => exact absurd rfl hstep
  | commit => exact absurd rfl hcommit
  | acquire =>
    simp only [State.next] at hs
    split at hs
    next hc =>
      obtain rfl := Option.some.inj hs
      exact h.acquire hc.1 hc.2
    next => cases hs
  | release => exact h.release hs
  | exit =>
    simp only [State.next] at hs
    split at hs
    next hmode =>
      split at hs
      next hlock =>
        obtain rfl := Option.some.inj hs
        exact h.relock _ (by rw [hlock]; nofun) (by rw [hmode]; rfl) (fun _ => by rw [hmode]; rfl)
          trivial
      next => cases hs
    next => cases hs
  | reap =>
    simp only [State.next] at hs
    split at hs
    next r hmode hr =>
      split at hs
      next hlock =>
        obtain rfl := Option.some.inj hs
        refine h.relock _ (by rw [hlock]; nofun) (by rw [hmode]; rfl) nofun
          ⟨h.root r hr (by rw [hmode]; rfl), rfl⟩
      next => cases hs
    next => cases hs
  | table page i q =>
    simp only [State.next] at hs
    split at hs
    next id l hu =>
      split at hs
      next hc =>
        obtain rfl := Option.some.inj hs
        exact h.table hu hc.1 hc.2.1 hc.2.2
      next => cases hs
    next => cases hs
  | mappages page i e =>
    simp only [State.next] at hs
    split at hs
    next id hu =>
      split at hs
      next hc =>
        obtain rfl := Option.some.inj hs
        refine h.setLeaf hu (active_shrinks hc.1) (fun e' he' => ?_) fun hrun e' he' => .inl ?_
        · obtain rfl := Option.some.inj he'
          exact hc.2.2.1
        · obtain rfl := Option.some.inj he'
          exact hc.2.2.2 hrun
      next => cases hs
    next => cases hs
  | remap page i e =>
    simp only [State.next] at hs
    split at hs
    next id e₀ hu he₀ =>
      split at hs
      next hc =>
        obtain rfl := Option.some.inj hs
        refine h.setLeaf hu (active_shrinks hc.1) (fun e' he' => ?_)
          fun hrun e' he' => .inr ⟨e₀, he₀, ?_⟩
        · obtain rfl := Option.some.inj he'
          exact hc.2.1
        · obtain rfl := Option.some.inj he'
          exact hc.2.2 hrun
      next => cases hs
    next => cases hs
  | uvmunmap page i =>
    simp only [State.next] at hs
    split at hs
    next id hu =>
      split at hs
      next ha =>
        obtain rfl := Option.some.inj hs
        exact h.setLeaf hu ha nofun fun _ => nofun
      next => cases hs
    next => cases hs
  | create q =>
    simp only [State.next] at hs
    split at hs
    next hmode =>
      split at hs
      next hq =>
        obtain rfl := Option.some.inj hs
        exact h.create hmode hq
      next => cases hs
    next => cases hs
  | bad =>
    simp only [State.next] at hs
    split at hs
    next id root hmode =>
      obtain rfl := Option.some.inj hs
      have hm := h.mode
      have ht := h.tables
      unfold State.ModeOk at hm
      rw [hmode] at hm ht
      exact ⟨⟨ht, h.current, fun r hr _ => h.root r hr (by rw [hmode]; rfl), ⟨hm.2, hm.1⟩, h.held,
        h.upper⟩, rfl, fun _ => .of_mem rfl rfl fun _ _ _ _ => rfl⟩
    next => cases hs
  | freewalk =>
    simp only [State.next] at hs
    split at hs
    next id root reap hmode =>
      obtain rfl := Option.some.inj hs
      have hm := h.mode
      have ht := h.tables
      unfold State.ModeOk at hm
      rw [hmode] at hm ht
      exact ⟨⟨ht, h.current, fun r hr hreaps => h.root r hr (by rw [hmode]; exact hreaps),
        ⟨⟨2, rfl, hm.1⟩, hm.2⟩, h.held, h.upper⟩, rfl, fun _ => .of_mem rfl rfl fun _ _ _ _ => rfl⟩
    next => cases hs
  | free junk => exact h.free hs
  | take q =>
    simp only [State.next] at hs
    split at hs
    next hq =>
      obtain rfl := Option.some.inj hs
      exact h.other (update_use (by rw [hq]; nofun) nofun) fun _ _ _ _ _ => rfl
    next => cases hs
  | give q =>
    simp only [State.next] at hs
    split at hs
    next hq =>
      obtain rfl := Option.some.inj hs
      exact h.other (update_use (by rw [hq]; nofun) nofun) fun _ _ _ _ _ => rfl
    next => cases hs
  | write q i e =>
    simp only [State.next] at hs
    split at hs
    next => cases hs
    next hq =>
      obtain rfl := Option.some.inj hs
      refine h.other (fun _ _ _ => Iff.rfl) fun p id l j hp =>
        congrFun (Function.update_of_ne ?_ ..) j
      rintro rfl
      exact hq id l hp

/-! ## Steps of the caller -/

omit [DecidableEq P] in
/-- The caller moves, and may take the lock or give it up. -/
theorem Inv.goto (h : Inv s) (lock : Option Agent) (c : Caller P)
    (hlock : lock = s.lock ∨ s.lock ≠ some .target ∧ s.lock ≠ some .reaper)
    (hheld : c.holds = true → lock = some .caller) (hupper : c.Upper) :
    Inv { s with lock := lock, caller := c } := by
  refine ⟨h.tables, h.current, h.root, ?_, hheld, hupper⟩
  have hm := h.mode
  rcases hlock with rfl | ⟨htarget, hreaper⟩
  · exact hm
  unfold State.ModeOk at hm ⊢
  dsimp only
  cases hmode : s.mode <;> rw [hmode] at hm <;> dsimp only at hm ⊢
  case make => exact absurd hm htarget
  case build | gone => exact hm
  case unmap id root reap =>
    cases reap with
    | false => exact hm
    | true => exact absurd hm.2 hreaper
  case freewalk id reap stack back =>
    cases reap with
    | false => exact hm
    | true => exact absurd hm.2 hreaper

omit [DecidableEq P] in
@[simp] theorem path_goto (lock : Option Agent) (c : Caller P) (π : List Nat) :
    State.path { s with lock := lock, caller := c } π = s.path π := by
  induction π with
  | nil => rfl
  | cons i π ih =>
    simp only [State.path, ih]

omit [DecidableEq P] in
/-- The caller goes on to an entry of a page on its way. -/
theorem Sound.goto {c : Caller P} {va level : Nat} {page : P} (h : Inv s)
    (hl : s.lock = some .caller) (hc : c.reads = some (va, level, page))
    (hp : s.path (indices va level) = some page)
    (hseen : c.Seen s.mem) : Sound { s with caller := c } := by
  refine ⟨fun va' level' page' hx => ?_, hseen⟩
  obtain ⟨rfl, rfl, rfl⟩ : va = va' ∧ level = level' ∧ page = page' := by
    simpa using hc.symm.trans hx
  exact ⟨(path_goto s.lock c _).trans hp, h.path_ne_free hl hp⟩

omit [DecidableEq P] in
theorem translation_eq {va : Nat} {page : P} (hp : s.path (indices va 0) = some page) :
    s.translation va =
      (s.mem page (PX 0 va)).bind fun e => if e.user then some e.pa else none := by
  rw [State.translation, hp]
  rfl

omit [DecidableEq P] in
/-- Where an upper entry is not valid, there is no translation. -/
theorem translation_none {va level : Nat} {page : P} (hlevel : level = 1 ∨ level = 2)
    (hp : s.path (indices va level) = some page) (he : s.mem page (PX level va) = none) :
    s.translation va = none := by
  rcases hlevel with rfl | rfl
  · have hp' : s.path [PX 2 va] = some page := hp
    have hpath : s.path (indices va 0) = none := by
      rw [indices, State.path, hp', Option.bind_some, he]
      rfl
    rw [State.translation, hpath]
    rfl
  · have hp' : s.path [] = some page := hp
    have hpath : s.path (indices va 0) = none := by
      rw [indices, State.path, State.path, hp', Option.bind_some, he]
      rfl
    rw [State.translation, hpath]
    rfl

/-- What a step of the caller keeps, and what it returns. -/
structure Walks (s s' : State P) : Prop where
  inv : Inv s'
  sound : Sound s → Sound s'
  answer : Sound s → ∀ va level page result, s.caller.reads = some (va, level, page) →
    s'.caller = .release result → result = s.translation va

omit [DecidableEq P] in
/-- A step from outside `walkaddr`. -/
theorem Walks.outside (hinv : Inv s') (hsound : Sound s → Sound s')
    (hr : s.caller.reads = none) : Walks s s' :=
  ⟨hinv, hsound, fun _ va level page result hx => by
    rw [hr] at hx
    cases hx⟩

omit [DecidableEq P] in
theorem Inv.step (h : Inv s) (hs : s.step = some s') : Walks s s' := by
  have hheld := h.held
  have hupper := h.upper
  unfold State.step at hs
  split at hs
  next => cases hs
  next va pid hc =>
    split at hs
    next hlock =>
      obtain rfl := Option.some.inj hs
      refine .outside (h.goto _ _ (.inr ?_) (fun _ => rfl) trivial) (fun _ => .of_reads rfl)
        (by rw [hc]; rfl)
      rw [hlock]
      exact ⟨nofun, nofun⟩
    next => cases hs
  next va pid hc =>
    rw [hc] at hheld
    obtain rfl := Option.some.inj hs
    refine .outside ?_ (fun _ => .of_reads ?_) (by rw [hc]; rfl)
    · split
      · exact h.goto s.lock _ (.inl rfl) hheld trivial
      · exact h.goto s.lock _ (.inl rfl) hheld trivial
    · dsimp only
      split <;> rfl
  next va hc =>
    rw [hc] at hheld
    split at hs
    next =>
      obtain rfl := Option.some.inj hs
      exact .outside (h.goto s.lock _ (.inl rfl) hheld trivial) (fun _ => .of_reads rfl)
        (by rw [hc]; rfl)
    next =>
      obtain ⟨r, hr, rfl⟩ := Option.map_eq_some_iff.1 hs
      exact .outside (h.goto s.lock _ (.inl rfl) hheld (.inr rfl))
        (fun _ => .goto h (hheld rfl) rfl hr trivial) (by rw [hc]; rfl)
  next va level page hc =>
    rw [hc] at hheld hupper
    have hpath := fun hsound : Sound s => (hsound.table va level page (by rw [hc]; rfl)).1
    split at hs
    next e he =>
      obtain rfl := Option.some.inj hs
      refine ⟨h.goto s.lock _ (.inl rfl) hheld hupper, fun hsound =>
        .goto h (hheld rfl) rfl (hpath hsound) fun hnone => ?_, fun _ _ _ _ _ _ => nofun⟩
      rw [he] at hnone
      cases hnone
    next he =>
      obtain rfl := Option.some.inj hs
      refine ⟨h.goto s.lock _ (.inl rfl) hheld trivial, fun _ => .of_reads rfl,
        fun hsound va' level' page' result hx hres => ?_⟩
      rw [hc] at hx
      cases hx
      cases hres
      exact (translation_none hupper (hpath hsound) he).symm
  next va level page hc =>
    rw [hc] at hheld hupper
    have hpath := fun hsound : Sound s => (hsound.table va level page (by rw [hc]; rfl)).1
    obtain ⟨e, he, rfl⟩ := Option.map_eq_some_iff.1 hs
    rcases hupper with rfl | rfl
    · refine ⟨h.goto s.lock _ (.inl rfl) hheld trivial, fun hsound =>
        .goto h (hheld rfl) rfl ?_ trivial, fun _ _ _ _ _ _ => nofun⟩
      have hp : s.path [PX 2 va] = some page := hpath hsound
      change s.path [PX 1 va, PX 2 va] = some e.pa
      rw [State.path, hp, Option.bind_some, he]
      rfl
    · refine ⟨h.goto s.lock _ (.inl rfl) hheld (.inl rfl), fun hsound =>
        .goto h (hheld rfl) rfl ?_ trivial, fun _ _ _ _ _ _ => nofun⟩
      have hp : s.path [] = some page := hpath hsound
      change s.path [PX 2 va] = some e.pa
      rw [State.path, hp, Option.bind_some, he]
      rfl
  next va page hc =>
    rw [hc] at hheld
    have hpath := fun hsound : Sound s => (hsound.table va 0 page (by rw [hc]; rfl)).1
    split at hs
    next e he =>
      obtain rfl := Option.some.inj hs
      exact ⟨h.goto s.lock _ (.inl rfl) hheld trivial, fun hsound =>
        .goto h (hheld rfl) rfl (hpath hsound) trivial, fun _ _ _ _ _ _ => nofun⟩
    next he =>
      obtain rfl := Option.some.inj hs
      refine ⟨h.goto s.lock _ (.inl rfl) hheld trivial, fun _ => .of_reads rfl,
        fun hsound va' level' page' result hx hres => ?_⟩
      rw [hc] at hx
      cases hx
      cases hres
      rw [translation_eq (hpath hsound), he]
      rfl
  next va page hc =>
    rw [hc] at hheld
    have hpath := fun hsound : Sound s => (hsound.table va 0 page (by rw [hc]; rfl)).1
    split at hs
    next huser =>
      obtain rfl := Option.some.inj hs
      refine ⟨h.goto s.lock _ (.inl rfl) hheld trivial, fun hsound =>
        .goto h (hheld rfl) rfl (hpath hsound) fun e he => ?_, fun _ _ _ _ _ _ => nofun⟩
      rw [he] at huser
      exact huser
    next huser =>
      obtain rfl := Option.some.inj hs
      refine ⟨h.goto s.lock _ (.inl rfl) hheld trivial, fun _ => .of_reads rfl,
        fun hsound va' level' page' result hx hres => ?_⟩
      rw [hc] at hx
      cases hx
      cases hres
      rw [translation_eq (hpath hsound)]
      cases he : s.mem page (PX 0 va) with
      | none => rfl
      | some e =>
        rw [he] at huser
        exact (if_neg huser).symm
  next va page hc =>
    rw [hc] at hheld
    obtain rfl := Option.some.inj hs
    refine ⟨h.goto s.lock _ (.inl rfl) hheld trivial, fun _ => .of_reads rfl,
      fun hsound va' level' page' result hx hres => ?_⟩
    have hpath := (hsound.table va 0 page (by rw [hc]; rfl)).1
    have hseen := hsound.seen
    rw [hc] at hx hseen
    cases hx
    cases hres
    rw [translation_eq hpath]
    cases he : s.mem page (PX 0 va) with
    | none => rfl
    | some e => exact (if_pos (hseen e he)).symm
  all_goals next hc =>
    rw [hc] at hheld
    obtain rfl := Option.some.inj hs
    refine .outside (h.goto none .idle (.inr ?_) nofun trivial) (fun _ => .of_reads rfl)
      (by rw [hc]; rfl)
    rw [hheld rfl]
    exact ⟨nofun, nofun⟩

/-! ## Runs -/

theorem Inv.init (r : P) (pid : Int) : Inv (start r pid) := by
  have hroot : ∀ p id l, (start r pid).use p = .node id l → p = r ∧ id = 0 ∧ l = 2 := by
    intro p id l hp
    change Function.update (fun _ => Use.free) r (.node 0 2) p = .node id l at hp
    by_cases hpr : p = r
    · subst hpr
      rw [Function.update_self] at hp
      cases hp
      exact ⟨rfl, rfl, rfl⟩
    · rw [Function.update_of_ne hpr] at hp
      cases hp
  refine ⟨⟨fun p id l hp => ?_, nofun, nofun, nofun⟩, Nat.zero_lt_one, fun r' hr _ => ?_, rfl,
    nofun, trivial⟩
  · obtain ⟨-, rfl, rfl⟩ := hroot p id l hp
    exact ⟨Nat.zero_lt_one, Nat.le_refl _⟩
  · obtain rfl := Option.some.inj hr
    exact Function.update_self r (Use.node 0 2) fun _ => Use.free

/-- What one step does to the invariant and to the walk. -/
theorem Inv.next {e : Event P} (h : Inv s) (hs : s.next e = some s') :
    Inv s' ∧ (Sound s → (Sound s' ↔ Apart s e)) := by
  by_cases hcall : ∃ va pid, e = .va2pa va pid
  · obtain ⟨va, pid, rfl⟩ := hcall
    simp only [State.next] at hs
    split at hs
    next hc =>
      split at hs
      next => cases hs
      next =>
        obtain rfl := Option.some.inj hs
        exact ⟨h.goto s.lock _ (.inl rfl) nofun trivial, fun _ =>
          iff_of_true (.of_reads rfl) trivial⟩
    next => cases hs
  by_cases hstep : e = .caller
  · subst hstep
    have hw := h.step hs
    exact ⟨hw.inv, fun hsound => iff_of_true (hw.sound hsound) trivial⟩
  by_cases hcommit : e = .commit
  · subst hcommit
    simp only [State.next] at hs
    split at hs
    next id root old hmode hold =>
      obtain rfl := Option.some.inj hs
      obtain ⟨hne, hinv⟩ := h.commit hmode hold
      refine ⟨hinv, fun hsound => ⟨fun hsound' => ?_, fun hr => .of_reads hr⟩⟩
      -- the pages of the two page tables are different ones
      refine Option.eq_none_iff_forall_ne_some.2 fun x hx => ?_
      obtain ⟨va, level, page⟩ := x
      have hl := h.held (Caller.holds_of_reads hx)
      obtain ⟨l, -, hu⟩ := h.path_use hl (hsound.table va level page hx).1 (length_indices va level)
      obtain ⟨l', -, hu'⟩ := hinv.path_use hl (hsound'.table va level page hx).1
        (length_indices va level)
      have heq : Use.node s.cur l = .node id l' := hu.symm.trans hu'
      cases heq
      exact hne rfl
    next => cases hs
  have hk := h.target hs (fun va pid he => hcall ⟨va, pid, he⟩) hstep hcommit
  refine ⟨hk.inv, fun hsound => iff_of_true ?_ ?_⟩
  · by_cases hr : s.caller.reads = none
    · exact .of_reads (hk.caller ▸ hr)
    · obtain ⟨x, hx⟩ := Option.ne_none_iff_exists'.1 hr
      have hl := h.held (Caller.holds_of_reads hx)
      exact hsound.target h hk.inv (hk.calm hl) hk.caller
  · cases e with
    | commit => exact absurd rfl hcommit
    | _ => trivial

/-- In every run, each entry that the walk of `sys_va2pa` reads lies in a
page of the target's page table of that moment if and only if `exec` never
switches page tables in the middle of a walk; then `walkaddr` returns what it
would return if the target stood still. -/
theorem va2pa_walks {r : P} {pid : Int} {es : List (Event P)}
    (h : (machine r pid).exec (start r pid) es = some s) :
    ((machine r pid).Throughout Sound (start r pid) es ↔
      (machine r pid).Meets Apart (start r pid) es) ∧
    ((machine r pid).Meets Apart (start r pid) es → Sound s ∧
      ∀ va level page result s', s.caller.reads = some (va, level, page) →
        s.next .caller = some s' → s'.caller = .release result → result = s.translation va) := by
  have hstart : Sound (start r pid) := .of_reads rfl
  refine ⟨Machine.throughout_iff_meets (fun s e s' hi hn => (Inv.next hi hn).1)
    (fun s e s' hi hsound hn => (Inv.next hi hn).2 hsound) (.init r pid) hstart h, fun hm => ?_⟩
  have hsound := hm.invariant (I := fun s => Inv s ∧ Sound s) ⟨.init r pid, hstart⟩
    (fun s e s' hi hc hn => ⟨(hi.1.next hn).1, ((hi.1.next hn).2 hi.2).2 hc⟩) h
  exact ⟨hsound.2, fun va level page result s' hx hn hr =>
    (hsound.1.step hn).answer hsound.2 va level page result hx hr⟩

/-- A process with its trampoline and one page of its own. -/
def oneUserPage : List (Event (Fin 16)) :=
  [.table 0 255 1, .table 1 511 2, .mappages 2 511 ⟨true, false, 15⟩,
    .mappages 2 510 ⟨true, false, 14⟩, .table 0 0 3, .table 3 0 4, .mappages 4 0 ⟨true, true, 13⟩,
    .release]

/-- `exec` builds a page table with the trampoline and a page. -/
def buildImage : List (Event (Fin 16)) :=
  [.create 5, .table 5 255 6, .table 6 511 7, .mappages 7 511 ⟨true, false, 15⟩,
    .mappages 7 510 ⟨true, false, 14⟩, .table 5 0 8, .table 8 0 9, .mappages 9 0 ⟨true, true, 12⟩]

/-- `exec` switches page tables, and frees the first page of the old one. -/
def commitImage : List (Event (Fin 16)) :=
  [.commit, .uvmunmap 2 511, .uvmunmap 2 510, .uvmunmap 4 0, .freewalk] ++
    List.replicate 515 (.free 11)

/-- The walk of address 0, up to its last read, while `exec` builds its
image. -/
def walkDuringExec : List (Event (Fin 16)) :=
  List.flatten [oneUserPage, .va2pa 0 5 :: List.replicate 3 .caller, buildImage,
    List.replicate 6 .caller]

theorem va2pa_walks_duringExec : ∃ s s', (machine 0 5).exec (start 0 5) walkDuringExec = some s ∧
    (machine 0 5).Throughout Sound (start 0 5) walkDuringExec ∧
      s.next .caller = some s' ∧ s'.caller = .release (some 13) ∧ s.translation 0 = some 13 := by
  have hmeets : (machine 0 5).Meets Apart (start 0 5) walkDuringExec := by decide +kernel
  have hrun : ((machine 0 5).exec (start 0 5) walkDuringExec).map (fun s =>
      (s.caller.reads, (s.next .caller).map (·.caller))) =
      some (some (0, 0, 4), some (.release (some 13))) := by
    decide +kernel
  obtain ⟨s, hs, hr⟩ := Option.map_eq_some_iff.1 hrun
  obtain ⟨hreads, hnext⟩ := Prod.mk.inj hr
  obtain ⟨s', hs', hresult⟩ := Option.map_eq_some_iff.1 hnext
  obtain ⟨hiff, hwalk⟩ := va2pa_walks hs
  exact ⟨s, s', hs, hiff.2 hmeets, hs', hresult,
    ((hwalk hmeets).2 0 0 4 (some 13) s' hreads hs' hresult).symm⟩

/-- The switch, after the caller has got to the page of the last entry. -/
def commitDuringWalk : List (Event (Fin 16)) :=
  List.flatten [oneUserPage, buildImage, .va2pa 0 5 :: List.replicate 7 .caller, commitImage]

/-- The caller is about to read an entry of a page that has been freed. -/
theorem va2pa_reads_freed : ∃ s, (machine 0 5).exec (start 0 5) commitDuringWalk = some s ∧
    s.caller.reads = some (0, 0, 4) ∧ s.use 4 = .free ∧ ¬ Sound s := by
  have hrun : ((machine 0 5).exec (start 0 5) commitDuringWalk).map (fun s =>
      (s.caller.reads, s.use 4)) = some (some (0, 0, 4), .free) := by
    decide +kernel
  obtain ⟨s, hs, hr⟩ := Option.map_eq_some_iff.1 hrun
  obtain ⟨hreads, huse⟩ := Prod.mk.inj hr
  exact ⟨s, hs, hreads, huse, fun hsound => (hsound.table 0 0 4 hreads).2 huse⟩

end Xv6.Va2pa
