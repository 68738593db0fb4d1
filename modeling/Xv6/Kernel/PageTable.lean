/-
Three-level page tables as trees of pages.

`mapping` is the hardware's walk over the pages `pt`. `TreeOf ok pt lbl` says
that the pages that `lbl` labels make up page tables: each labelled page is
one node of one table, a valid entry of a node that is not a leaf links to
the page labelled as that child, and every node but the roots is linked
from its parent. What the other pages hold does not matter.
-/
import Xv6.Kernel.State

namespace Xv6

/-- The index of page `vpn` at a level, as `PX` computes it from an address. -/
def index (vpn level : Nat) : Nat := vpn / 512 ^ level % 512

theorem index_lt (vpn level : Nat) : index vpn level < 512 := Nat.mod_lt _ (by decide)

/-- The lowest-level table of `r` that page `vpn` falls into. -/
def leafTable (pt : Frame → Nat → Pte) (r : Frame) (vpn : Nat) : Option Frame :=
  let pte₂ := pt r (index vpn 2)
  if pte₂.V then
    let pte₁ := pt pte₂.pa (index vpn 1)
    if pte₁.V then some pte₁.pa else none
  else none

/-- The valid leaf entry for page `vpn` in the table at `r`, as the hardware
walks it. -/
def mapping (pt : Frame → Nat → Pte) (r : Frame) (vpn : Nat) : Option Pte :=
  (leafTable pt r vpn).bind fun f => if (pt f (index vpn 0)).V then some (pt f (index vpn 0)) else none

/-- An entry that points to a lower-level page table. -/
def link (page : Frame) : Pte := { pa := page, V := true }

/-- The nodes of a page table, by the indices on the way to them. -/
inductive Node where
  | root
  | mid (i : Nat)
  | leaf (i j : Nat)
  deriving DecidableEq

namespace Node

/-- The node that entry `i` leads to. -/
def child : Node → Nat → Option Node
  | root, i => some (mid i)
  | mid i, j => some (leaf i j)
  | leaf _ _, _ => none

theorem child_eq_mid {n : Node} {k i : Nat} (h : n.child k = some (mid i)) : n = root ∧ k = i := by
  cases n with
  | root => simpa [child] using h
  | mid a => simp [child] at h
  | leaf a b => simp [child] at h

theorem child_eq_leaf {n : Node} {k i j : Nat} (h : n.child k = some (leaf i j)) :
    n = mid i ∧ k = j := by
  cases n with
  | root => simp [child] at h
  | mid a => simpa [child] using h
  | leaf a b => simp [child] at h

theorem child_ne_root {n : Node} {k : Nat} : n.child k ≠ some root := by
  cases n <;> simp [child]

end Node

/-- The page whose entry is the `k`-th of leaf node `i`, `j`. -/
def vpnOf (i j k : Nat) : Nat := (i * 512 + j) * 512 + k

/-- The number of pages below `TRAPFRAME`. -/
def userPages : Nat := TRAPFRAME / PGSIZE

/-- What every valid lowest-level entry satisfies: it is readable, and not
the user's from `TRAPFRAME` on. -/
def LeafOk (vpn : Nat) (p : Pte) : Prop := p.R ∧ (userPages ≤ vpn → ¬ p.U)

structure TreeOf (ok : Nat → Pte → Prop) (pt : Frame → Nat → Pte)
    (lbl : Frame → Option (Frame × Node)) : Prop where
  root : ∀ {f r}, lbl f = some (r, .root) → f = r
  down : ∀ {f r n i c}, lbl f = some (r, n) → n.child i = some c → i < 512 → (pt f i).V →
    pt f i = link (pt f i).pa ∧ lbl (pt f i).pa = some (r, c)
  up : ∀ {f r n}, lbl f = some (r, n) → n = .root ∨
    ∃ g m i, lbl g = some (r, m) ∧ m.child i = some n ∧ i < 512 ∧ pt g i = link f
  leaf : ∀ {f r i j k}, lbl f = some (r, .leaf i j) → k < 512 → (pt f k).V →
    ok (vpnOf i j k) (pt f k)

/-- The page tables of the kernel. -/
abbrev Tree := TreeOf LeafOk

/-- The node at a level of the walk for page `vpn` in the table at `r`. -/
def nodeAt (pt : Frame → Nat → Pte) (r : Frame) (vpn : Nat) : Nat → Option Frame
  | 0 => leafTable pt r vpn
  | 1 => if (pt r (index vpn 2)).V then some (pt r (index vpn 2)).pa else none
  | 2 => some r
  | _ => none

/-- The place of that node in the tree. -/
def Node.at (vpn : Nat) : Nat → Node
  | 0 => .leaf (index vpn 2) (index vpn 1)
  | 1 => .mid (index vpn 2)
  | _ => .root

theorem PX_eq (level va : Nat) : PX level va = index (va / PGSIZE) level := by
  have hpow : 2 ^ (PGSHIFT + 9 * level) = PGSIZE * 512 ^ level := by
    rw [Nat.pow_add, Nat.pow_mul]
    rfl
  rw [PX, index, hpow, Nat.div_div_eq_div_mul]

theorem Node.at_child (vpn : Nat) {level : Nat} (h : level < 2) :
    (Node.at vpn (level + 1)).child (index vpn (level + 1)) = some (Node.at vpn level) := by
  obtain rfl | rfl : level = 0 ∨ level = 1 := by omega
  · rfl
  · rfl

theorem vpnOf_split {vpn : Nat} (h : vpn < 2 ^ 27) :
    vpnOf (index vpn 2) (index vpn 1) (index vpn 0) = vpn := by
  unfold vpnOf index
  omega

theorem split_inj {u v : Nat} (hu : u < 2 ^ 27) (hv : v < 2 ^ 27)
    (h₂ : index u 2 = index v 2) (h₁ : index u 1 = index v 1)
    (h₀ : index u 0 = index v 0) : u = v := by
  rw [← vpnOf_split hu, ← vpnOf_split hv, h₂, h₁, h₀]

/-- `pt` with entry `k` of page `f` set to `p`. -/
def setEntry (pt : Frame → Nat → Pte) (f k : Nat) (p : Pte) : Frame → Nat → Pte :=
  Function.update pt f (Function.update (pt f) k p)

@[simp] theorem setEntry_self (pt : Frame → Nat → Pte) (f k : Nat) (p : Pte) :
    setEntry pt f k p f k = p := by simp [setEntry]

theorem setEntry_of_ne (pt : Frame → Nat → Pte) {f k g : Nat} (p : Pte) (h : g ≠ f) :
    setEntry pt f k p g = pt g := by simp [setEntry, h]

theorem setEntry_index (pt : Frame → Nat → Pte) {f k i : Nat} (p : Pte) (h : i ≠ k) (g : Frame) :
    setEntry pt f k p g i = pt g i := by
  by_cases hg : g = f
  · subst hg; simp [setEntry, h]
  · rw [setEntry_of_ne pt p hg]

namespace TreeOf

variable {ok : Nat → Pte → Prop} {pt pt' : Frame → Nat → Pte} {lbl lbl' : Frame → Option (Frame × Node)}

/-! ## Nodes -/

theorem mid_linked (h : TreeOf ok pt lbl) {f r i} (hf : lbl f = some (r, .mid i)) :
    i < 512 ∧ pt r i = link f := by
  rcases h.up hf with hr | ⟨g, m, k, hg, hm, hk, hl⟩
  · cases hr
  · obtain ⟨rfl, rfl⟩ := Node.child_eq_mid hm
    obtain rfl := h.root hg
    exact ⟨hk, hl⟩

theorem leaf_linked (h : TreeOf ok pt lbl) {f r i j} (hf : lbl f = some (r, .leaf i j)) :
    j < 512 ∧ ∃ g, lbl g = some (r, .mid i) ∧ pt g j = link f := by
  rcases h.up hf with hr | ⟨g, m, k, hg, hm, hk, hl⟩
  · cases hr
  · obtain ⟨rfl, rfl⟩ := Node.child_eq_leaf hm
    exact ⟨hk, g, hg, hl⟩

/-- A node is at one page only. -/
theorem unique (h : TreeOf ok pt lbl) {f g r n} (hf : lbl f = some (r, n)) (hg : lbl g = some (r, n)) :
    f = g := by
  cases n with
  | root => rw [h.root hf, h.root hg]
  | mid i =>
    have he := (h.mid_linked hf).2.symm.trans (h.mid_linked hg).2
    simpa [link] using he
  | leaf i j =>
    obtain ⟨-, a, ha, hla⟩ := h.leaf_linked hf
    obtain ⟨-, b, hb, hlb⟩ := h.leaf_linked hg
    have hab : a = b := by
      have he := (h.mid_linked ha).2.symm.trans (h.mid_linked hb).2
      simpa [link] using he
    subst hab
    simpa [link] using hla.symm.trans hlb

/-- The walk finds the leaf node that the labels name. -/
theorem leafTable_iff (h : TreeOf ok pt lbl) {r f vpn} (hr : lbl r = some (r, .root)) :
    leafTable pt r vpn = some f ↔
      lbl f = some (r, .leaf (index vpn 2) (index vpn 1)) := by
  have h₂ : index vpn 2 < 512 := index_lt _ _
  have h₁ : index vpn 1 < 512 := index_lt _ _
  constructor
  · intro hw
    simp only [leafTable] at hw
    split at hw
    · next hv =>
      split at hw
      · next hv' =>
        obtain rfl := Option.some.inj hw
        have hm := (h.down hr rfl h₂ hv).2
        exact (h.down hm rfl h₁ hv').2
      · cases hw
    · cases hw
  · intro hf
    obtain ⟨-, g, hg, hl⟩ := h.leaf_linked hf
    have hl' := (h.mid_linked hg).2
    simp [leafTable, hl', link, hl]

theorem mapping_some (h : TreeOf ok pt lbl) {r vpn p} (hr : lbl r = some (r, .root))
    (hm : mapping pt r vpn = some p) : ∃ f,
      lbl f = some (r, .leaf (index vpn 2) (index vpn 1)) ∧ p = pt f (index vpn 0) ∧ p.V := by
  simp only [mapping, Option.bind_eq_some_iff] at hm
  obtain ⟨f, hf, hp⟩ := hm
  split at hp
  · next hv =>
    obtain rfl := Option.some.inj hp
    exact ⟨f, (h.leafTable_iff hr).1 hf, rfl, hv⟩
  · cases hp

theorem mapping_ok (h : TreeOf ok pt lbl) {r vpn p} (hr : lbl r = some (r, .root)) (hv : vpn < 2 ^ 27)
    (hm : mapping pt r vpn = some p) : p.V ∧ ok vpn p := by
  obtain ⟨f, hf, rfl, hV⟩ := h.mapping_some hr hm
  have hl := h.leaf hf (index_lt _ _) hV
  rw [vpnOf_split hv] at hl
  exact ⟨hV, hl⟩

theorem nodeAt_iff (h : TreeOf ok pt lbl) {r f vpn level} (hr : lbl r = some (r, .root))
    (hl : level ≤ 2) : nodeAt pt r vpn level = some f ↔ lbl f = some (r, Node.at vpn level) := by
  obtain rfl | rfl | rfl : level = 0 ∨ level = 1 ∨ level = 2 := by omega
  · exact h.leafTable_iff hr
  · simp only [nodeAt, Node.at]
    constructor
    · intro hw
      split at hw
      · next hv =>
        obtain rfl := Option.some.inj hw
        exact (h.down hr rfl (index_lt _ _) hv).2
      · cases hw
    · intro hf
      simp [(h.mid_linked hf).2, link]
  · simp only [nodeAt, Node.at, Option.some.injEq]
    exact ⟨fun he => he ▸ hr, fun hf => (h.root hf).symm⟩

/-! ## What the walk depends on -/

/-- Two memories that agree on the pages of a table agree on what it maps. -/
theorem leafTable_congr (h : TreeOf ok pt lbl) {r} (hr : lbl r = some (r, .root))
    (he : ∀ f n, lbl f = some (r, n) → pt' f = pt f) (vpn : Nat) :
    leafTable pt' r vpn = leafTable pt r vpn := by
  have h₂ : index vpn 2 < 512 := index_lt _ _
  simp only [leafTable, he r _ hr]
  split
  · next hv =>
    have hm := (h.down hr rfl h₂ hv).2
    rw [he _ _ hm]
  · rfl

theorem mapping_congr (h : TreeOf ok pt lbl) {r} (hr : lbl r = some (r, .root))
    (he : ∀ f n, lbl f = some (r, n) → pt' f = pt f) (vpn : Nat) :
    mapping pt' r vpn = mapping pt r vpn := by
  simp only [mapping, h.leafTable_congr hr he]
  cases hl : leafTable pt r vpn with
  | none => rfl
  | some f => simp only [Option.bind_some, he f _ ((h.leafTable_iff hr).1 hl)]

/-- Pages without a label do not matter. -/
theorem congr (h : TreeOf ok pt lbl) (he : ∀ f r n, lbl f = some (r, n) → pt' f = pt f) :
    TreeOf ok pt' lbl where
  root := h.root
  down hf hc hi hv := by
    rw [he _ _ _ hf] at hv ⊢
    exact h.down hf hc hi hv
  up hf := (h.up hf).imp id fun ⟨g, m, i, hg, hm, hi, hl⟩ => ⟨g, m, i, hg, hm, hi, he _ _ _ hg ▸ hl⟩
  leaf hf hk hv := by
    rw [he _ _ _ hf] at hv ⊢
    exact h.leaf hf hk hv

/-! ## Changes -/

section SetLeaf

variable {f r i j k : Nat} {p : Pte}

/-- A lowest-level entry rewritten. -/
theorem setLeaf (h : TreeOf ok pt lbl) (hf : lbl f = some (r, .leaf i j))
    (hp : p.V → ok (vpnOf i j k) p) : TreeOf ok (setEntry pt f k p) lbl where
  root := h.root
  down {g r' n a c} hg hc ha hv := by
    have hgf : g ≠ f := by
      rintro rfl
      rw [hf] at hg
      obtain ⟨rfl, rfl⟩ := Prod.mk.inj (Option.some.inj hg)
      cases hc
    rw [setEntry_of_ne pt p hgf] at hv ⊢
    exact h.down hg hc ha hv
  up hg := (h.up hg).imp id fun ⟨g, m, a, hgm, hm, ha, hl⟩ => by
    have hgf : g ≠ f := by
      rintro rfl
      rw [hf] at hgm
      obtain ⟨rfl, rfl⟩ := Prod.mk.inj (Option.some.inj hgm)
      cases hm
    exact ⟨g, m, a, hgm, hm, ha, by rw [setEntry_of_ne pt p hgf]; exact hl⟩
  leaf {g r' a b c} hg hc hv := by
    by_cases hgf : g = f
    · subst hgf
      rw [hf] at hg
      obtain ⟨rfl, he⟩ := Prod.mk.inj (Option.some.inj hg)
      obtain ⟨rfl, rfl⟩ := Node.leaf.inj he
      by_cases hck : c = k
      · subst hck
        rw [setEntry_self] at hv ⊢
        exact hp hv
      · rw [setEntry_index pt p hck] at hv ⊢
        exact h.leaf hf hc hv
    · rw [setEntry_of_ne pt p hgf] at hv ⊢
      exact h.leaf hg hc hv

/-- Rewriting a lowest-level entry moves no node. -/
theorem leafTable_setLeaf (h : TreeOf ok pt lbl) (hf : lbl f = some (r, .leaf i j)) {r'}
    (hr : lbl r' = some (r', .root)) (vpn : Nat) :
    leafTable (setEntry pt f k p) r' vpn = leafTable pt r' vpn := by
  have hrf : r' ≠ f := by
    rintro rfl
    rw [hf] at hr
    cases hr
  simp only [leafTable, setEntry_of_ne pt p hrf]
  split
  · next hv =>
    have hm := (h.down hr rfl (index_lt _ _) hv).2
    have hmf : (pt r' (index vpn 2)).pa ≠ f := by
      rintro rfl
      rw [hf] at hm
      cases hm
    rw [setEntry_of_ne pt p hmf]
  · rfl

/-- It changes what is mapped at one page of one table. -/
theorem mapping_setLeaf (h : TreeOf ok pt lbl) {vpn} (hr : lbl r = some (r, .root))
    (hf : leafTable pt r vpn = some f) (hv : vpn < 2 ^ 27) {r'} (hr' : lbl r' = some (r', .root))
    {vpn'} (hv' : vpn' < 2 ^ 27) :
    mapping (setEntry pt f (index vpn 0) p) r' vpn' =
      if r' = r ∧ vpn' = vpn then (if p.V then some p else none) else mapping pt r' vpn' := by
  have hlf := (h.leafTable_iff hr).1 hf
  simp only [mapping, h.leafTable_setLeaf hlf hr']
  by_cases hc : r' = r ∧ vpn' = vpn
  · obtain ⟨rfl, rfl⟩ := hc
    simp [hf]
  · rw [if_neg hc]
    cases hl : leafTable pt r' vpn' with
    | none => rfl
    | some g =>
      have hg := (h.leafTable_iff hr').1 hl
      have he : setEntry pt f (index vpn 0) p g (index vpn' 0) = pt g (index vpn' 0) := by
        by_cases hgf : g = f
        · subst hgf
          rw [hlf] at hg
          obtain ⟨rfl, hn⟩ := Prod.mk.inj (Option.some.inj hg)
          obtain ⟨h₂, h₁⟩ := Node.leaf.inj hn
          refine setEntry_index pt p (fun h₀ => hc ⟨rfl, ?_⟩) g
          exact split_inj hv' hv h₂.symm h₁.symm h₀
        · rw [setEntry_of_ne pt p hgf]
      simp only [Option.bind_some, he]

end SetLeaf

section Link

variable {f g r i : Nat} {m c : Node}

theorem label_kept {x y} (hf : lbl f = none) {f'} (hx : lbl f' = some x) :
    Function.update lbl f (some y) f' = some x := by
  have hne : f' ≠ f := by rintro rfl; rw [hf] at hx; cases hx
  rwa [Function.update_of_ne hne]

theorem label_cases {x y} {f'} (hx : Function.update lbl f (some y) f' = some x) :
    (f' = f ∧ x = y) ∨ (f' ≠ f ∧ lbl f' = some x) := by
  by_cases hne : f' = f
  · subst hne
    exact .inl ⟨rfl, by simpa using hx.symm⟩
  · exact .inr ⟨hne, by rwa [Function.update_of_ne hne] at hx⟩

theorem not_labelled (h : TreeOf ok pt lbl) (hg : lbl g = some (r, m)) (hc : m.child i = some c)
    (hi : i < 512) (hv : ¬ (pt g i).V) (f' : Frame) : lbl f' ≠ some (r, c) := by
  intro hf
  rcases h.up hf with rfl | ⟨g', m', i', hg', hm', hi', hl⟩
  · exact Node.child_ne_root hc
  · have hmi : m' = m ∧ i' = i := by
      cases c with
      | root => exact absurd hc Node.child_ne_root
      | mid a =>
        obtain ⟨rfl, rfl⟩ := Node.child_eq_mid hc
        obtain ⟨rfl, rfl⟩ := Node.child_eq_mid hm'
        exact ⟨rfl, rfl⟩
      | leaf a b =>
        obtain ⟨rfl, rfl⟩ := Node.child_eq_leaf hc
        obtain ⟨rfl, rfl⟩ := Node.child_eq_leaf hm'
        exact ⟨rfl, rfl⟩
    obtain ⟨rfl, rfl⟩ := hmi
    obtain rfl := h.unique hg' hg
    exact hv (by rw [hl]; rfl)

/-- An empty page linked as a new node. -/
theorem addNode (h : TreeOf ok pt lbl) (hg : lbl g = some (r, m)) (hc : m.child i = some c)
    (hi : i < 512) (hv : ¬ (pt g i).V) (hf : lbl f = none) (h0 : ∀ k, ¬ (pt f k).V) :
    TreeOf ok (setEntry pt g i (link f)) (Function.update lbl f (some (r, c))) := by
  have hgf : g ≠ f := by rintro rfl; rw [hf] at hg; cases hg
  refine ⟨?_, ?_, ?_, ?_⟩
  · intro f' r' hr'
    rcases label_cases hr' with ⟨rfl, he⟩ | ⟨-, hl⟩
    · obtain ⟨rfl, rfl⟩ := Prod.mk.inj he
      exact absurd hc Node.child_ne_root
    · exact h.root hl
  · intro f' r' n a c' hn hc' ha hV
    rcases label_cases hn with ⟨rfl, -⟩ | ⟨hne, hl⟩
    · rw [setEntry_of_ne pt _ hgf.symm] at hV
      exact absurd hV (h0 a)
    · by_cases hfg : f' = g ∧ a = i
      · obtain ⟨rfl, rfl⟩ := hfg
        rw [hg] at hl
        obtain ⟨rfl, rfl⟩ := Prod.mk.inj (Option.some.inj hl)
        obtain rfl := Option.some.inj (hc.symm.trans hc')
        rw [setEntry_self]
        exact ⟨rfl, by simp [link]⟩
      · have he : setEntry pt g i (link f) f' a = pt f' a := by
          by_cases hfg' : f' = g
          · exact setEntry_index pt _ (fun hai => hfg ⟨hfg', hai⟩) f'
          · rw [setEntry_of_ne pt _ hfg']
        rw [he] at hV ⊢
        exact ⟨(h.down hl hc' ha hV).1, label_kept hf (h.down hl hc' ha hV).2⟩
  · intro f' r' n hn
    rcases label_cases hn with ⟨rfl, he⟩ | ⟨-, hl⟩
    · obtain ⟨rfl, rfl⟩ := Prod.mk.inj he
      exact .inr ⟨g, m, i, label_kept hf hg, hc, hi, setEntry_self pt g i _⟩
    · refine (h.up hl).imp id fun ⟨g', m', i', hg', hm', hi', hl'⟩ =>
        ⟨g', m', i', label_kept hf hg', hm', hi', ?_⟩
      by_cases hgg : g' = g ∧ i' = i
      · obtain ⟨rfl, rfl⟩ := hgg
        exact absurd (by rw [hl']; rfl) hv
      · by_cases hg'' : g' = g
        · rw [setEntry_index pt _ (fun hii => hgg ⟨hg'', hii⟩) g']
          exact hl'
        · rw [setEntry_of_ne pt _ hg'']
          exact hl'
  · intro f' r' a b k hn hk hV
    rcases label_cases hn with ⟨rfl, -⟩ | ⟨hne, hl⟩
    · rw [setEntry_of_ne pt _ hgf.symm] at hV
      exact absurd hV (h0 k)
    · have hfg : f' ≠ g := by
        rintro rfl
        rw [hg] at hl
        obtain ⟨-, rfl⟩ := Prod.mk.inj (Option.some.inj hl)
        cases hc
      rw [setEntry_of_ne pt _ hfg] at hV ⊢
      exact h.leaf hl hk hV

/-- It maps nothing new. -/
theorem mapping_addNode (h : TreeOf ok pt lbl) (hg : lbl g = some (r, m)) (hc : m.child i = some c)
    (hi : i < 512) (hv : ¬ (pt g i).V) (hf : lbl f = none) (h0 : ∀ k, ¬ (pt f k).V) {r'}
    (hr : lbl r' = some (r', .root)) (vpn : Nat) :
    mapping (setEntry pt g i (link f)) r' vpn = mapping pt r' vpn := by
  have h' := h.addNode hg hc hi hv hf h0
  have hgf : g ≠ f := by rintro rfl; rw [hf] at hg; cases hg
  have hr' : Function.update lbl f (some (r, c)) r' = some (r', .root) := by
    have hne : r' ≠ f := by rintro rfl; rw [hf] at hr; cases hr
    rwa [Function.update_of_ne hne]
  have hent : ∀ f' n, lbl f' = some (r', .leaf (index vpn 2) n) →
      setEntry pt g i (link f) f' = pt f' := by
    intro f' n hl
    refine setEntry_of_ne pt _ ?_
    rintro rfl
    rw [hg] at hl
    obtain ⟨-, rfl⟩ := Prod.mk.inj (Option.some.inj hl)
    cases hc
  cases hl : leafTable pt r' vpn with
  | some f' =>
    have hlf := (h.leafTable_iff hr).1 hl
    have hne : f' ≠ f := by rintro rfl; rw [hf] at hlf; cases hlf
    have hl' : leafTable (setEntry pt g i (link f)) r' vpn = some f' :=
      (h'.leafTable_iff hr').2 (by rwa [Function.update_of_ne hne])
    simp only [mapping, hl, hl', Option.bind_some, hent f' _ hlf]
  | none =>
    cases hl' : leafTable (setEntry pt g i (link f)) r' vpn with
    | none => simp [mapping, hl, hl']
    | some f' =>
      have hlf := (h'.leafTable_iff hr').1 hl'
      by_cases hne : f' = f
      · subst hne
        simp [mapping, hl, hl', setEntry_of_ne pt _ hgf.symm, h0]
      · rw [Function.update_of_ne hne] at hlf
        rw [(h.leafTable_iff hr).2 hlf] at hl
        cases hl

end Link

/-- An empty page made the root of a new table. -/
theorem addRoot (h : TreeOf ok pt lbl) {f} (hf : lbl f = none) (h0 : ∀ k, ¬ (pt f k).V) :
    TreeOf ok pt (Function.update lbl f (some (f, .root))) := by
  refine ⟨?_, ?_, ?_, ?_⟩
  · intro f' r hr
    rcases label_cases hr with ⟨rfl, he⟩ | ⟨-, hl⟩
    · exact (Prod.mk.inj he).1.symm
    · exact h.root hl
  · intro f' r n i c hn hc hi hv
    rcases label_cases hn with ⟨rfl, -⟩ | ⟨-, hl⟩
    · exact absurd hv (h0 i)
    · exact ⟨(h.down hl hc hi hv).1, label_kept hf (h.down hl hc hi hv).2⟩
  · intro f' r n hn
    rcases label_cases hn with ⟨rfl, he⟩ | ⟨-, hl⟩
    · exact .inl (Prod.mk.inj he).2
    · exact (h.up hl).imp id fun ⟨g, m, i, hg, hm⟩ => ⟨g, m, i, label_kept hf hg, hm⟩
  · intro f' r i j k hn hk hv
    rcases label_cases hn with ⟨rfl, he⟩ | ⟨-, hl⟩
    · cases he
    · exact h.leaf hl hk hv

end TreeOf

/-- An empty page maps nothing. -/
theorem mapping_empty {pt : Frame → Nat → Pte} {r : Frame} (h0 : ∀ k, ¬ (pt r k).V) (vpn : Nat) :
    mapping pt r vpn = none := by
  simp [mapping, leafTable, h0]

end Xv6
