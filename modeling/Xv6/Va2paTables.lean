/-
The page tables that `exec` and `freewalk` work on while another process walks
one of them: each page is on one level of one page table, and only the entry
that `freewalk` comes back to may point to a page that is free.
-/
import Xv6.Va2pa

namespace Xv6.Va2pa

variable {P : Type} [DecidableEq P] {s s' : State P}

/-- Every page-table page is on one of three levels. The entries of the
lowest are leaves, those of the others point to pages of the same page table
one level below, each to a page of its own. Only `cut` may dangle. -/
structure Tables (use : P → Use) (mem : P → Nat → Option (Entry P)) (n : Nat)
    (cut : Option (P × Nat)) : Prop where
  node : ∀ p id l, use p = .node id l → id < n ∧ l ≤ 2
  leaf : ∀ p i e id, use p = .node id 0 → mem p i = some e → e.leaf = true
  child : ∀ p i e id l, use p = .node id (l + 1) → mem p i = some e →
    e.leaf = false ∧ (use e.pa = .node id l ∨ cut = some (p, i))
  inj : ∀ p i e id l p' i' e' id' l', use p = .node id (l + 1) → use p' = .node id' (l' + 1) →
    mem p i = some e → mem p' i' = some e' → e.pa = e'.pa → p = p' ∧ i = i'

namespace Tables

variable {use use' : P → Use} {mem mem' : P → Nat → Option (Entry P)} {n : Nat}
  {cut : Option (P × Nat)} {page q : P} {i id l : Nat}

omit [DecidableEq P] in
theorem congr (h : Tables use mem n cut)
    (huse : ∀ p id l, use' p = .node id l ↔ use p = .node id l)
    (hmem : ∀ p id l i, use p = .node id l → mem' p i = mem p i) : Tables use' mem' n cut := by
  refine ⟨fun p id l hp => h.node p id l ((huse ..).1 hp), fun p i e id hp he => ?_,
    fun p i e id l hp he => ?_, fun p i e id l p' i' e' id' l' hp hp' he he' => ?_⟩
  · rw [huse] at hp
    exact h.leaf p i e id hp (hmem p _ _ i hp ▸ he)
  · rw [huse] at hp
    rw [huse]
    exact h.child p i e id l hp (hmem p _ _ i hp ▸ he)
  · rw [huse] at hp hp'
    exact h.inj p i e id l p' i' e' id' l' hp hp' (hmem p _ _ i hp ▸ he) (hmem p' _ _ i' hp' ▸ he')

/-- Writing a leaf. -/
theorem setLeaf {x : Option (Entry P)} (h : Tables use mem n cut) (hp : use page = .node id 0)
    (hx : ∀ e, x = some e → e.leaf = true) :
    Tables use (Function.update mem page (Function.update (mem page) i x)) n cut := by
  have hupper : ∀ p id l j, use p = .node id (l + 1) →
      Function.update mem page (Function.update (mem page) i x) p j = mem p j := by
    intro p id l j hu
    rw [Function.update_of_ne]
    rintro rfl
    rw [hp] at hu
    cases hu
  refine ⟨h.node, fun p j e id' hu he => ?_, fun p j e id' l hu he => ?_,
    fun p j e id' l p' j' e' id'' l' hu hu' he he' => ?_⟩
  · by_cases hpp : p = page
    · subst hpp
      rw [Function.update_self] at he
      by_cases hj : j = i
      · subst hj
        rw [Function.update_self] at he
        exact hx e he
      · rw [Function.update_of_ne hj] at he
        exact h.leaf p j e id' hu he
    · rw [Function.update_of_ne hpp] at he
      exact h.leaf p j e id' hu he
  · rw [hupper p id' l j hu] at he
    exact h.child p j e id' l hu he
  · rw [hupper p id' l j hu] at he
    rw [hupper p' id'' l' j' hu'] at he'
    exact h.inj p j e id' l p' j' e' id'' l' hu hu' he he'

/-- A new page is empty, and nothing points to it. -/
theorem newPage {m : Nat} (h : Tables use mem n none) (hq : use q = .free) (hid : id < m)
    (hn : n ≤ m) (hl : l ≤ 2) :
    Tables (Function.update use q (.node id l)) (Function.update mem q fun _ => none) m none := by
  have hold : ∀ p j e, Function.update mem q (fun _ => none) p j = some e →
      p ≠ q ∧ mem p j = some e := by
    intro p j e he
    by_cases hp : p = q
    · subst hp
      rw [Function.update_self] at he
      cases he
    · rw [Function.update_of_ne hp] at he
      exact ⟨hp, he⟩
  refine ⟨fun p id' l' hu => ?_, fun p j e id' hu he => ?_, fun p j e id' l' hu he => ?_,
    fun p j e id' l' p' j' e' id'' l'' hu hu' he he' => ?_⟩
  · by_cases hp : p = q
    · subst hp
      rw [Function.update_self] at hu
      cases hu
      exact ⟨hid, hl⟩
    · rw [Function.update_of_ne hp] at hu
      exact ⟨Nat.lt_of_lt_of_le (h.node p id' l' hu).1 hn, (h.node p id' l' hu).2⟩
  · obtain ⟨hp, he⟩ := hold p j e he
    rw [Function.update_of_ne hp] at hu
    exact h.leaf p j e id' hu he
  · obtain ⟨hp, he⟩ := hold p j e he
    rw [Function.update_of_ne hp] at hu
    obtain ⟨hleaf, hc | hc⟩ := h.child p j e id' l' hu he
    · refine ⟨hleaf, .inl ?_⟩
      rwa [Function.update_of_ne]
      rintro rfl
      rw [hq] at hc
      cases hc
    · cases hc
  · obtain ⟨hp, he⟩ := hold p j e he
    obtain ⟨hp', he'⟩ := hold p' j' e' he'
    rw [Function.update_of_ne hp] at hu
    rw [Function.update_of_ne hp'] at hu'
    exact h.inj p j e id' l' p' j' e' id'' l'' hu hu' he he'

/-- An entry that is not in use is made to point to a page that no other does. -/
theorem link (h : Tables use mem n none) (hp : use page = .node id (l + 1))
    (hq : use q = .node id l) (hnew : ∀ p j e id l, use p = .node id (l + 1) →
      mem p j = some e → e.pa ≠ q) :
    Tables use (Function.update mem page (Function.update (mem page) i (some ⟨false, false, q⟩)))
      n none := by
  have hold : ∀ p j e, Function.update mem page
      (Function.update (mem page) i (some ⟨false, false, q⟩)) p j = some e →
      (p = page ∧ j = i ∧ e = ⟨false, false, q⟩) ∨ mem p j = some e := by
    intro p j e he
    by_cases hpp : p = page
    · subst hpp
      rw [Function.update_self] at he
      by_cases hj : j = i
      · subst hj
        rw [Function.update_self] at he
        exact .inl ⟨rfl, rfl, (Option.some.inj he).symm⟩
      · rw [Function.update_of_ne hj] at he
        exact .inr he
    · rw [Function.update_of_ne hpp] at he
      exact .inr he
  refine ⟨h.node, fun p j e id' hu he => ?_, fun p j e id' l' hu he => ?_,
    fun p j e id' l' p' j' e' id'' l'' hu hu' he he' heq => ?_⟩
  · rcases hold p j e he with ⟨rfl, -, -⟩ | he
    · rw [hp] at hu
      cases hu
    · exact h.leaf p j e id' hu he
  · rcases hold p j e he with ⟨rfl, -, rfl⟩ | he
    · rw [hp] at hu
      cases hu
      exact ⟨rfl, .inl hq⟩
    · exact h.child p j e id' l' hu he
  · rcases hold p j e he with ⟨rfl, rfl, rfl⟩ | hm
    · rcases hold p' j' e' he' with ⟨rfl, rfl, -⟩ | hm'
      · exact ⟨rfl, rfl⟩
      · exact absurd heq.symm (hnew p' j' e' id'' l'' hu' hm')
    · rcases hold p' j' e' he' with ⟨rfl, rfl, rfl⟩ | hm'
      · exact absurd heq (hnew p j e id' l' hu hm)
      · exact h.inj p j e id' l' p' j' e' id'' l'' hu hu' hm hm' heq

/-- A page is freed that only `cut` points to. -/
theorem kfree {junk : P} (h : Tables use mem n none)
    (hcut : ∀ p j e id l, use p = .node id (l + 1) → mem p j = some e → e.pa = q →
      cut = some (p, j)) :
    Tables (Function.update use q .free)
      (Function.update mem q fun _ => some ⟨false, false, junk⟩) n cut := by
  have hold : ∀ p id l, Function.update use q .free p = .node id l →
      p ≠ q ∧ use p = .node id l := by
    intro p id l hu
    by_cases hp : p = q
    · subst hp
      rw [Function.update_self] at hu
      cases hu
    · rw [Function.update_of_ne hp] at hu
      exact ⟨hp, hu⟩
  refine ⟨fun p id l hu => h.node p id l (hold p id l hu).2, fun p j e id hu he => ?_,
    fun p j e id l hu he => ?_, fun p j e id l p' j' e' id' l' hu hu' he he' => ?_⟩
  · obtain ⟨hp, hu⟩ := hold p id 0 hu
    rw [Function.update_of_ne hp] at he
    exact h.leaf p j e id hu he
  · obtain ⟨hp, hu⟩ := hold p id (l + 1) hu
    rw [Function.update_of_ne hp] at he
    obtain ⟨hleaf, hc | hc⟩ := h.child p j e id l hu he
    · refine ⟨hleaf, ?_⟩
      by_cases hq : e.pa = q
      · exact .inr (hcut p j e id l hu he hq)
      · rw [Function.update_of_ne hq]
        exact .inl hc
    · cases hc
  · obtain ⟨hp, hu⟩ := hold p id (l + 1) hu
    obtain ⟨hp', hu'⟩ := hold p' id' (l' + 1) hu'
    rw [Function.update_of_ne hp] at he
    rw [Function.update_of_ne hp'] at he'
    exact h.inj p j e id l p' j' e' id' l' hu hu' he he'

/-- The entry that dangles is cleared. -/
theorem clear (h : Tables use mem n (some (page, i))) :
    Tables use (Function.update mem page (Function.update (mem page) i none)) n none := by
  have hold : ∀ p j e, Function.update mem page (Function.update (mem page) i none) p j = some e →
      (page, i) ≠ (p, j) ∧ mem p j = some e := by
    intro p j e he
    by_cases hpp : p = page
    · subst hpp
      rw [Function.update_self] at he
      by_cases hj : j = i
      · subst hj
        rw [Function.update_self] at he
        cases he
      · rw [Function.update_of_ne hj] at he
        exact ⟨fun heq => hj (Prod.mk.inj heq).2.symm, he⟩
    · rw [Function.update_of_ne hpp] at he
      exact ⟨fun heq => hpp (Prod.mk.inj heq).1.symm, he⟩
  refine ⟨h.node, fun p j e id hu he => h.leaf p j e id hu (hold p j e he).2,
    fun p j e id l hu he => ?_, fun p j e id l p' j' e' id' l' hu hu' he he' =>
      h.inj p j e id l p' j' e' id' l' hu hu' (hold p j e he).2 (hold p' j' e' he').2⟩
  obtain ⟨hne, he⟩ := hold p j e he
  obtain ⟨hleaf, hc | hc⟩ := h.child p j e id l hu he
  · exact ⟨hleaf, .inl hc⟩
  · exact absurd (Option.some.inj hc) hne

end Tables

/-- The pages that `freewalk` is in, innermost first: each but the root is
the one that the entry at hand of the page above it points to. -/
def Chain (use : P → Use) (mem : P → Nat → Option (Entry P)) (id : Nat) :
    Nat → List (P × Nat) → Prop
  | _, [] => False
  | l, [(p, _)] => l = 2 ∧ use p = .node id l
  | l, (p, _) :: (p', i') :: rest =>
    use p = .node id l ∧ (∃ e, mem p' i' = some e ∧ e.pa = p) ∧
      Chain use mem id (l + 1) ((p', i') :: rest)

namespace Chain

variable {use use' : P → Use} {mem mem' : P → Nat → Option (Entry P)} {id l i j : Nat} {p : P}
  {rest : List (P × Nat)}

omit [DecidableEq P]

theorem top (h : Chain use mem id l ((p, i) :: rest)) : use p = .node id l := by
  cases rest with
  | nil => exact h.2
  | cons => exact h.1

theorem move (h : Chain use mem id l ((p, i) :: rest)) : Chain use mem id l ((p, j) :: rest) := by
  cases rest <;> exact h

theorem congr {stack : List (P × Nat)} (h : Chain use mem id l stack)
    (hkeep : ∀ p k, l ≤ k → use p = .node id k →
      use' p = .node id k ∧ (l < k → ∀ i, mem' p i = mem p i)) : Chain use' mem' id l stack := by
  induction stack generalizing l with
  | nil => exact h
  | cons frame rest ih =>
    cases rest with
    | nil => exact ⟨h.1, (hkeep _ _ (Nat.le_refl _) h.2).1⟩
    | cons frame' rest =>
      obtain ⟨hp, ⟨e, he, hpa⟩, hrest⟩ := h
      refine ⟨(hkeep _ _ (Nat.le_refl _) hp).1, ⟨e, ?_, hpa⟩,
        ih hrest fun p k hk hu => ⟨(hkeep p k (by omega) hu).1, fun hlt => (hkeep p k (by omega)
          hu).2 (by omega)⟩⟩
      rw [(hkeep _ _ (Nat.le_succ l) (top hrest)).2 (Nat.lt_succ_self l)]
      exact he

end Chain

/-- A page table is freed under the lock, or is not the current one. -/
def State.Ends (s : State P) (id : Nat) (reap : Bool) : Prop :=
  if reap = true then s.lock = some .reaper else id ≠ s.cur

/-- What holds of the target in each mode. -/
def State.ModeOk (s : State P) : Prop :=
  match s.mode with
  | .make => s.lock = some .target
  | .run | .zombie => True
  | .build id root => id ≠ s.cur ∧ s.use root = .node id 2
  | .unmap id root reap => s.use root = .node id 2 ∧ s.Ends id reap
  | .freewalk id reap stack _ => (∃ l, Chain s.use s.mem id l stack) ∧ s.Ends id reap
  | .gone => s.pagetable = none

/-- What holds in every state, whatever the caller reads. -/
structure Inv (s : State P) : Prop where
  tables : Tables s.use s.mem s.nextid s.mode.cut
  current : s.cur < s.nextid
  root : ∀ r, s.pagetable = some r → s.mode.reaps = false → s.use r = .node s.cur 2
  mode : s.ModeOk
  held : s.caller.holds = true → s.lock = some .caller
  upper : s.caller.Upper

omit [DecidableEq P] in
/-- While the caller holds the lock nobody frees the current page table. -/
theorem Inv.not_reaps {r : P} (h : Inv s) (hl : s.lock = some .caller)
    (hr : s.pagetable = some r) : s.mode.reaps = false := by
  have hm := h.mode
  unfold State.ModeOk at hm
  cases hmode : s.mode <;> rw [hmode] at hm <;> dsimp only at hm
  case unmap id root reap =>
    cases reap with
    | false => rfl
    | true =>
      have hlock : s.lock = some .reaper := hm.2
      rw [hl] at hlock
      cases hlock
  case freewalk id reap stack back =>
    cases reap with
    | false => rfl
    | true =>
      have hlock : s.lock = some .reaper := hm.2
      rw [hl] at hlock
      cases hlock
  case gone =>
    rw [hr] at hm
    cases hm
  all_goals rfl

omit [DecidableEq P] in
/-- The entry that dangles is not in the current page table. -/
theorem Inv.cut_use {p : P} {i : Nat} (h : Inv s) (hc : s.mode.cut = some (p, i))
    (hr : s.mode.reaps = false) : ∃ id l, s.use p = .node id l ∧ id ≠ s.cur := by
  have hm := h.mode
  unfold State.ModeOk at hm
  cases hmode : s.mode <;> rw [hmode] at hm hc hr
  case freewalk id reap stack back =>
    obtain ⟨⟨l, hchain⟩, hends⟩ := hm
    obtain rfl : reap = false := hr
    cases stack with
    | nil => exact hchain.elim
    | cons frame rest =>
      cases back with
      | false => cases hc
      | true =>
        obtain rfl := Option.some.inj hc
        exact ⟨id, l, hchain.top, hends⟩
  all_goals cases hc

omit [DecidableEq P] in
theorem path_pagetable {π : List Nat} {page : P} (hp : s.path π = some page) :
    ∃ r, s.pagetable = some r := by
  induction π generalizing page with
  | nil => exact ⟨page, hp⟩
  | cons i π ih =>
    obtain ⟨p, hp, -⟩ := Option.bind_eq_some_iff.1 hp
    exact ih hp

omit [DecidableEq P] in
/-- A page on a path from the root is a page of the current page table. -/
theorem Inv.path_use {π : List Nat} {page : P} (h : Inv s) (hl : s.lock = some .caller)
    (hp : s.path π = some page) (hπ : π.length ≤ 2) :
    ∃ l, l + π.length = 2 ∧ s.use page = .node s.cur l := by
  obtain ⟨r, hr⟩ := path_pagetable hp
  have hreaps := h.not_reaps hl hr
  clear hr
  induction π generalizing page with
  | nil => exact ⟨2, rfl, h.root page hp hreaps⟩
  | cons i π ih =>
    obtain ⟨p, hpath, hentry⟩ := Option.bind_eq_some_iff.1 hp
    obtain ⟨e, he, rfl⟩ := Option.map_eq_some_iff.1 hentry
    rw [List.length_cons] at hπ ⊢
    obtain ⟨l, hlen, hu⟩ := ih hpath (by omega)
    obtain ⟨k, rfl⟩ : ∃ k, l = k + 1 := ⟨l - 1, by omega⟩
    refine ⟨k, by omega, ?_⟩
    obtain ⟨-, hc | hc⟩ := h.tables.child p i e _ k hu he
    · exact hc
    · obtain ⟨id, l, hu', hne⟩ := h.cut_use hc hreaps
      rw [hu] at hu'
      cases hu'
      exact absurd rfl hne

end Xv6.Va2pa
