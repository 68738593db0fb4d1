/-
The inode table agrees with the inode blocks, and an inode is freed once.
-/
import Xv6.InodeTable
import Xv6.Lib.Count

namespace Xv6.InodeTable

open Conc

section

variable {n : Nat} {H : Type}

/-- The entry, with its lock held, that the process works on. -/
def PC.entry : PC n H → Option (Fin n)
  | .ilockRead i | .writei i | .iupdate i | .itrunc i _ _ | .itruncUpdate i _ | .iputType i _
  | .iputUpdate i _ | .iputInvalid i _ => some i
  | _ => none

/-- The process may have changed the copy since it was read or written. -/
def PC.edits : PC n H → Bool
  | .writei _ | .iupdate _ | .itrunc .. | .itruncUpdate .. | .iputType .. | .iputUpdate ..
  | .iputInvalid .. => true
  | _ => false

/-- `iput` has set the type to zero in the copy. -/
def PC.typeless : PC n H → Bool
  | .iputUpdate .. | .iputInvalid .. => true
  | _ => false

/-- `iput` has written the type zero to the block. -/
def PC.erased : PC n H → Bool
  | .iputInvalid .. => true
  | _ => false

/-- `iput` is freeing the inode, and has not yet written the type zero. -/
def PC.freeing : PC n H → Bool
  | .itrunc _ _ (some _) | .itruncUpdate _ (some _) | .iputType .. | .iputUpdate .. => true
  | _ => false

end

variable {P : Type} {n : Nat} {H : Type} [DecidableEq P] [Fintype P] [DecidableEq H] [Fintype H]
  {s s' : State P n H} {p q : P} {i j : Fin n} {h h' : H} {k : PC n H}

/-- The locks and handles that a process relies on. -/
def State.At (s : State P n H) (p : P) : PC n H → Prop
  | .user | .ialloced .. => True
  | .ialloc _ type _ => type ≠ 0
  | .ilock i h => s.handle h = some i
  | .ilockRead i | .writei i | .iupdate i => ∃ h, s.lock i = some (p, h)
  | .itrunc i _ put | .itruncUpdate i put => ∃ h, s.lock i = some (p, h) ∧ ∀ h' ∈ put, h' = h
  | .iputType i h | .iputUpdate i h | .iputInvalid i h => s.lock i = some (p, h)
  | .iputRef i h => s.handle h = some i ∧ ∀ j q, s.lock j ≠ some (q, h)

/-- Reference counts, handles and locks. -/
structure Refs (s : State P n H) : Prop where
  count : ∀ i, s.ref i = (Finset.univ.filter fun h => s.handle h = some i).card
  keys : ∀ i j, 0 < s.ref i → 0 < s.ref j → s.key i = s.key j → i = j
  held : ∀ i p h, s.lock i = some (p, h) → s.handle h = some i
  at' : ∀ p, s.At p (s.pc p)
  alone : ∀ p h, (s.pc p).puts h → (∀ q, (s.pc q).puts h → q = p) ∧
    (∀ q, (s.pc q).waits h = false) ∧ ∀ i q, s.lock i = some (q, h) → q = p

/-- An entry that is in use, and the block its inode is in. -/
structure Entry (s : State P n H) (i : Fin n) : Prop where
  fresh : ∀ p h, s.lock i = some (p, h) → s.pc p = .ilockRead i ∨ s.valid i
  coherent : s.valid i → (∀ p h, s.lock i = some (p, h) → (s.pc p).entry = some i →
    (s.pc p).edits = false) → s.copy i = s.dinode (s.key i)
  copyType : s.valid i → (∀ p h, s.lock i = some (p, h) → (s.pc p).entry = some i →
    (s.pc p).typeless = false) → (s.copy i).type ≠ 0
  typeless : ∀ p h, s.lock i = some (p, h) → ∀ h', s.pc p = .iputUpdate i h' → (s.copy i).type = 0
  diskType : s.valid i → (∀ p h, s.lock i = some (p, h) → (s.pc p).entry = some i →
    (s.pc p).erased = false) → (s.dinode (s.key i)).type ≠ 0

/-- What `iput` has freed. -/
structure Freed (s : State P n H) : Prop where
  past : ∀ x ∈ s.freed, x.2 < s.allocs x.1 ∨ x.2 = s.allocs x.1 ∧
    ((s.dinode x.1).type = 0 ∨
      ∃ i p, s.key i = x.1 ∧ (s.pc p).entry = some i ∧ (s.pc p).freeing)
  now : ∀ p i, (s.pc p).entry = some i → (s.pc p).freeing →
    (s.key i, s.allocs (s.key i)) ∈ s.freed
  once : s.freed.Nodup

structure Inv (s : State P n H) : Prop where
  refs : Refs s
  entry : ∀ i, 0 < s.ref i → Entry s i
  freed : Freed s

/-! ## References -/

omit [DecidableEq P] [Fintype P] in
theorem Refs.ref_pos (hr : Refs s) (hh : s.handle h = some i) : 0 < s.ref i := by
  rw [hr.count]
  exact Finset.card_pos.2 ⟨h, by simpa using hh⟩

omit [DecidableEq P] [Fintype P] [DecidableEq H] [Fintype H] in
/-- A process that works on an entry has its lock. -/
theorem State.At.locked (hk : s.At p k) (he : k.entry = some i) : ∃ h, s.lock i = some (p, h) := by
  cases k <;> simp only [PC.entry, Option.some.injEq, reduceCtorEq] at he
  case ilockRead | writei | iupdate => exact he ▸ hk
  case itrunc | itruncUpdate =>
    obtain ⟨h, hl, -⟩ := hk
    exact ⟨h, he ▸ hl⟩
  case iputType | iputUpdate | iputInvalid => exact ⟨_, he ▸ hk⟩

omit [DecidableEq P] [Fintype P] in
theorem Refs.entry_pos (hr : Refs s) (he : (s.pc p).entry = some i) : 0 < s.ref i := by
  obtain ⟨h, hl⟩ := (hr.at' p).locked he
  exact hr.ref_pos (hr.held i p h hl)

omit [DecidableEq P] [Fintype P] [DecidableEq H] [Fintype H] in
theorem State.At.congr (hk : s.At p k) (hh : s'.handle = s.handle) (hl : s'.lock = s.lock) :
    s'.At p k := by
  cases k <;> simp only [State.At, hh, hl] <;> exact hk

omit [Fintype P] in
/-- Process `p` goes to `k`, and no lock and no reference changes. -/
theorem Refs.move (hr : Refs s) (hdev : s'.dev = s.dev) (hinum : s'.inum = s.inum)
    (href : s'.ref = s.ref) (hhandle : s'.handle = s.handle) (hlock : s'.lock = s.lock)
    (hpc : s'.pc = Function.update s.pc p k) (hk : s.At p k)
    (hputs : ∀ h, k.puts h → (s.pc p).puts h)
    (hwaits : ∀ h, k.waits h → ∀ q, (s.pc q).puts h = false) : Refs s' := by
  have hpp : s'.pc p = k := by rw [hpc, Function.update_self]
  have hpq : ∀ q, q ≠ p → s'.pc q = s.pc q := fun q hq => by rw [hpc, Function.update_of_ne hq]
  have hp : ∀ q h, (s'.pc q).puts h → (s.pc q).puts h := fun q h hq => by
    by_cases hqp : q = p
    · subst hqp
      exact hputs h (hpp ▸ hq)
    · rwa [hpq q hqp] at hq
  refine ⟨fun i => ?_, fun i j => ?_, fun i q h => ?_, fun q => ?_, fun q h hq => ?_⟩
  · rw [href, hhandle]
    exact hr.count i
  · rw [href, State.key, State.key, hdev, hinum]
    exact hr.keys i j
  · rw [hlock, hhandle]
    exact hr.held i q h
  · by_cases hqp : q = p
    · rw [hqp, hpp]
      exact hk.congr hhandle hlock
    · rw [hpq q hqp]
      exact (hr.at' q).congr hhandle hlock
  · obtain ⟨h₁, h₂, h₃⟩ := hr.alone q h (hp q h hq)
    refine ⟨fun u hu => h₁ u (hp u h hu), fun u => ?_, fun j u hu => h₃ j u (hlock ▸ hu)⟩
    by_cases hup : u = p
    · rw [hup, hpp]
      by_contra hn
      have hput := hwaits h (by simpa using hn) q
      rw [hp q h hq] at hput
      cases hput
    · rw [hpq u hup]
      exact h₂ u

/-! ## Entries -/

omit [DecidableEq P] [Fintype P] [DecidableEq H] [Fintype H] in
theorem PC.freeing_entry (hk : k.freeing) : ∃ i, k.entry = some i := by
  cases k <;> first | exact ⟨_, rfl⟩ | exact nomatch hk

omit [DecidableEq P] [Fintype P] [DecidableEq H] [Fintype H] in
theorem PC.freeing_of_entry (hk : k.entry = none) : k.freeing = false := by
  by_contra hf
  obtain ⟨i, hi⟩ := PC.freeing_entry (by simpa using hf)
  exact nomatch hk.symm.trans hi

omit [DecidableEq P] [Fintype P] [DecidableEq H] [Fintype H] in
/-- A step that concerns other entries. -/
theorem Entry.frame (he : Entry s i) (hlock : s'.lock i = s.lock i)
    (hvalid : s'.valid i = s.valid i)
    (hcopy : s'.copy i = s.copy i) (hdisk : s'.dinode (s'.key i) = s.dinode (s.key i))
    (hpc : ∀ q, s'.pc q = s.pc q ∨ (s.pc q).entry ≠ some i ∧ (s'.pc q).entry ≠ some i) :
    Entry s' i := by
  have hold : ∀ {f : PC n H → Bool}, (∀ p h, s'.lock i = some (p, h) → (s'.pc p).entry = some i →
      f (s'.pc p) = false) → ∀ p h, s.lock i = some (p, h) → (s.pc p).entry = some i →
      f (s.pc p) = false := fun {f} hf p h hl hent => by
    rcases hpc p with heq | ⟨hne, -⟩
    · rw [← heq] at hent ⊢
      exact hf p h (hlock.trans hl) hent
    · exact absurd hent hne
  refine ⟨fun p h hl => ?_, fun hv hf => ?_, fun hv hf => ?_, fun p h hl h' hp => ?_,
    fun hv hf => ?_⟩
  · rw [hvalid]
    rcases he.fresh p h (hlock ▸ hl) with hp | hv
    · rcases hpc p with heq | ⟨hne, -⟩
      · exact .inl (heq.trans hp)
      · exact absurd (by rw [hp]; rfl) hne
    · exact .inr hv
  · rw [hcopy, hdisk]
    exact he.coherent (hvalid ▸ hv) (hold hf)
  · rw [hcopy]
    exact he.copyType (hvalid ▸ hv) (hold hf)
  · rw [hcopy]
    rcases hpc p with heq | ⟨-, hne⟩
    · exact he.typeless p h (hlock ▸ hl) h' (heq ▸ hp)
    · exact absurd (by rw [hp]; rfl) hne
  · rw [hdisk]
    exact he.diskType (hvalid ▸ hv) (hold hf)

/-- What is known of an entry that process `p`, which has its lock, works on
at `k`. -/
structure Works (s : State P n H) (i : Fin n) (k : PC n H) : Prop where
  fresh : k = .ilockRead i ∨ s.valid i
  coherent : s.valid i → (k.entry = some i → k.edits = false) → s.copy i = s.dinode (s.key i)
  copyType : s.valid i → (k.entry = some i → k.typeless = false) → (s.copy i).type ≠ 0
  typeless : ∀ h, k = .iputUpdate i h → (s.copy i).type = 0
  diskType : s.valid i → (k.entry = some i → k.erased = false) → (s.dinode (s.key i)).type ≠ 0

omit [DecidableEq P] [Fintype P] [DecidableEq H] [Fintype H] in
theorem entry_iff_works (hl : s.lock i = some (p, h)) : Entry s i ↔ Works s i (s.pc p) := by
  have hall : ∀ {R : P → Prop}, (∀ q h', s.lock i = some (q, h') → R q) ↔ R p := fun {R} =>
    ⟨fun hR => hR p h hl, fun hR q h' hq => by
      rw [hl] at hq
      obtain ⟨rfl, -⟩ := Prod.mk.inj (Option.some.inj hq)
      exact hR⟩
  constructor
  · rintro ⟨h₁, h₂, h₃, h₄, h₅⟩
    exact ⟨hall.1 h₁, fun hv hf => h₂ hv (hall.2 hf), fun hv hf => h₃ hv (hall.2 hf), hall.1 h₄,
      fun hv hf => h₅ hv (hall.2 hf)⟩
  · rintro ⟨h₁, h₂, h₃, h₄, h₅⟩
    exact ⟨hall.2 h₁, fun hv hf => h₂ hv (hall.1 hf), fun hv hf => h₃ hv (hall.1 hf), hall.2 h₄,
      fun hv hf => h₅ hv (hall.1 hf)⟩

omit [DecidableEq P] [Fintype P] [DecidableEq H] [Fintype H] in
theorem entry_unlocked (hl : s.lock i = none) : Entry s i ↔ (s.valid i →
    s.copy i = s.dinode (s.key i) ∧ (s.copy i).type ≠ 0 ∧ (s.dinode (s.key i)).type ≠ 0) := by
  have hno : ∀ {R : P → Prop}, ∀ q h', s.lock i = some (q, h') → R q := fun {R} q h' hq =>
    nomatch hl.symm.trans hq
  constructor
  · intro he hv
    exact ⟨he.coherent hv hno, he.copyType hv hno, he.diskType hv hno⟩
  · intro he
    exact ⟨hno, fun hv _ => (he hv).1, fun hv _ => (he hv).2.1, hno, fun hv _ => (he hv).2.2⟩

omit [DecidableEq P] [Fintype P] [DecidableEq H] [Fintype H] in
/-- The copy changes, but not its type, and is to be written. -/
theorem Works.edit {k' : PC n H} (hw : Works s i k) (hk : k.entry = some i → k.typeless = false)
    (hread : k ≠ .ilockRead i) (hvalid : s'.valid i = s.valid i)
    (htype : (s'.copy i).type = (s.copy i).type)
    (hdisk : s'.dinode (s'.key i) = s.dinode (s.key i)) (hk' : k'.entry = some i ∧ k'.edits)
    (hk'' : k'.typeless = false) : Works s' i k' := by
  have herased : k.entry = some i → k.erased = false := fun he => by
    have ht := hk he
    cases k <;> first | rfl | exact nomatch ht
  refine ⟨.inr ?_, fun _ hn => ?_, fun hv _ => ?_, fun h he => ?_, fun hv _ => ?_⟩
  · rw [hvalid]
    exact hw.fresh.resolve_left hread
  · rw [hn hk'.1] at hk'
    exact nomatch hk'.2
  · rw [htype]
    exact hw.copyType (hvalid ▸ hv) hk
  · rw [he] at hk''
    cases hk''
  · rw [hdisk]
    exact hw.diskType (hvalid ▸ hv) herased

omit [DecidableEq P] [Fintype P] [DecidableEq H] [Fintype H] in
/-- The copy is written to the block. -/
theorem Works.write {k' : PC n H} (hw : Works s i k) (hk : k.entry = some i → k.typeless = false)
    (hread : k ≠ .ilockRead i) (hvalid : s'.valid i = s.valid i) (hcopy : s'.copy i = s.copy i)
    (hdisk : s'.dinode (s'.key i) = s.copy i) (hk' : ∀ h, k' ≠ .iputUpdate i h) :
    Works s' i k' := by
  have ht : s'.valid i → (s.copy i).type ≠ 0 := fun hv => hw.copyType (hvalid ▸ hv) hk
  refine ⟨.inr ?_, fun _ _ => hcopy.trans hdisk.symm, fun hv _ => ?_, fun h he => absurd he (hk' h),
    fun hv _ => ?_⟩
  · rw [hvalid]
    exact hw.fresh.resolve_left hread
  · rw [hcopy]
    exact ht hv
  · rw [hdisk]
    exact ht hv

/-- What a step leaves alone of the table and the handles. -/
structure Same (s s' : State P n H) : Prop where
  dev : s'.dev = s.dev
  inum : s'.inum = s.inum
  ref : s'.ref = s.ref
  handle : s'.handle = s.handle
  lock : s'.lock = s.lock
  freed : s'.freed = s.freed

omit [DecidableEq P] [Fintype P] [DecidableEq H] [Fintype H] in
theorem Same.key (hs : Same s s') (i : Fin n) : s'.key i = s.key i := by
  rw [State.key, State.key, hs.dev, hs.inum]

omit [Fintype P] in
/-- Process `p` works on entry `i`, whose lock it has, and goes on at `k`. -/
theorem Inv.work (hI : Inv s) (hl : s.lock i = some (p, h)) (hs : Same s s')
    (hallocs : s'.allocs = s.allocs) (hpc : s'.pc = Function.update s.pc p k) (hk : s.At p k)
    (hputs : ∀ h, k.puts h → (s.pc p).puts h) (hwaits : ∀ h, k.waits h = false)
    (hcopy : ∀ j, j ≠ i → s'.copy j = s.copy j) (hvalid : ∀ j, j ≠ i → s'.valid j = s.valid j)
    (hdisk : ∀ x, x ≠ s.key i → s'.dinode x = s.dinode x)
    (he : ∀ j, j ≠ i → (s.pc p).entry ≠ some j) (he' : ∀ j, j ≠ i → k.entry ≠ some j)
    (hw : Works s i (s.pc p) → Works s' i k)
    (hz : (s.dinode (s.key i)).type = 0 → (s'.dinode (s.key i)).type = 0)
    (hf : (s.pc p).freeing → k.entry = some i ∧ k.freeing ∨ (s'.dinode (s.key i)).type = 0)
    (hf' : k.freeing → (s.pc p).freeing) : Inv s' := by
  have hpp : s'.pc p = k := by rw [hpc, Function.update_self]
  have hpq : ∀ q, q ≠ p → s'.pc q = s.pc q := fun q hq => by rw [hpc, Function.update_of_ne hq]
  have hpos : 0 < s.ref i := hI.refs.ref_pos (hI.refs.held i p h hl)
  refine ⟨hI.refs.move hs.dev hs.inum hs.ref hs.handle hs.lock hpc hk hputs
    (fun h hh => by rw [hwaits] at hh; cases hh), fun j hj => ?_,
    ⟨fun x hx => ?_, fun q j hq hfq => ?_, ?_⟩⟩
  · rw [hs.ref] at hj
    by_cases hji : j = i
    · subst hji
      rw [entry_iff_works (by rw [hs.lock]; exact hl), hpp]
      exact hw ((entry_iff_works hl).1 (hI.entry j hj))
    · have hkey : s.key j ≠ s.key i := fun hk => hji (hI.refs.keys j i hj hpos hk)
      refine (hI.entry j hj).frame (by rw [hs.lock]) (hvalid j hji) (hcopy j hji)
        (by rw [hs.key, hdisk _ hkey]) fun q => ?_
      by_cases hqp : q = p
      · rw [hqp, hpp]
        exact .inr ⟨he j hji, he' j hji⟩
      · exact .inl (hpq q hqp)
  · rw [hallocs]
    refine (hI.freed.past x (hs.freed ▸ hx)).imp_right fun ⟨hg, hx⟩ => ⟨hg, ?_⟩
    have hzero : (s.dinode x.1).type = 0 → (s'.dinode x.1).type = 0 := fun h0 => by
      by_cases hxi : x.1 = s.key i
      · rw [hxi] at h0 ⊢
        exact hz h0
      · rw [hdisk _ hxi]
        exact h0
    rcases hx with h0 | ⟨j, q, hj, hej, hfj⟩
    · exact .inl (hzero h0)
    · by_cases hqp : q = p
      · subst hqp
        have hji : j = i := by
          by_contra hne
          exact he j hne hej
        subst hji
        rcases hf hfj with ⟨hke, hkf⟩ | h0
        · exact .inr ⟨j, q, by rw [hs.key, hj], by rw [hpp]; exact ⟨hke, hkf⟩⟩
        · exact .inl (hj ▸ h0)
      · exact .inr ⟨j, q, by rw [hs.key, hj], by rw [hpq q hqp]; exact ⟨hej, hfj⟩⟩
  · rw [hs.key, hallocs, hs.freed]
    by_cases hqp : q = p
    · subst hqp
      rw [hpp] at hq hfq
      obtain rfl : j = i := by
        by_contra hji
        exact he' j hji hq
      obtain ⟨m, hm⟩ := PC.freeing_entry (hf' hfq)
      obtain rfl : m = j := by
        by_contra hmj
        exact he m hmj hm
      exact hI.freed.now q m hm (hf' hfq)
    · rw [hpq q hqp] at hq hfq
      exact hI.freed.now q j hq hfq
  · rw [hs.freed]
    exact hI.freed.once

omit [DecidableEq P] [Fintype P] [DecidableEq H] [Fintype H] in
/-- Freed inodes of a step that writes no block. -/
theorem Freed.same (hf : Freed s) (hs : ∀ j, (∃ q, (s.pc q).entry = some j) → s'.key j = s.key j)
    (hfreed : s'.freed = s.freed) (hallocs : s'.allocs = s.allocs)
    (hdisk : s'.dinode = s.dinode)
    (hpc : ∀ q, s'.pc q = s.pc q ∨ (s.pc q).freeing = false ∧ (s'.pc q).freeing = false) :
    Freed s' := by
  refine ⟨fun x hx => ?_, fun q j hq hfq => ?_, hfreed ▸ hf.once⟩
  · rw [hallocs, hdisk]
    refine (hf.past x (hfreed ▸ hx)).imp_right fun ⟨hg, hx⟩ => ⟨hg, hx.imp_right ?_⟩
    rintro ⟨j, q, hj, hej, hfj⟩
    have hq := (hpc q).resolve_right (by simp [hfj])
    exact ⟨j, q, (hs j ⟨q, hej⟩).trans hj, by rw [hq]; exact ⟨hej, hfj⟩⟩
  · rw [(hpc q).resolve_right (by simp [hfq])] at hq hfq
    rw [hs j ⟨q, hq⟩, hallocs, hfreed]
    exact hf.now q j hq hfq

omit [Fintype P] in
/-- Process `p` goes on outside the entries. -/
theorem Inv.idle (hI : Inv s) (he : (s.pc p).entry = none) (hk : s.At p k) (hke : k.entry = none)
    (hputs : ∀ h, k.puts h → (s.pc p).puts h)
    (hwaits : ∀ h, k.waits h → ∀ q, (s.pc q).puts h = false) : Inv (s.goto p k) := by
  have hpp : (s.goto p k).pc p = k := Function.update_self ..
  have hpq : ∀ q, q ≠ p → (s.goto p k).pc q = s.pc q := fun q hq => Function.update_of_ne hq ..
  refine ⟨hI.refs.move rfl rfl rfl rfl rfl rfl hk hputs hwaits, fun j hj => ?_,
    hI.freed.same (fun _ _ => rfl) rfl rfl rfl fun q => ?_⟩
  · refine (hI.entry j hj).frame rfl rfl rfl rfl fun q => ?_
    by_cases hqp : q = p
    · rw [hqp, hpp, he, hke]
      exact .inr ⟨nofun, nofun⟩
    · exact .inl (hpq q hqp)
  · by_cases hqp : q = p
    · rw [hqp, hpp]
      exact .inr ⟨PC.freeing_of_entry he, PC.freeing_of_entry hke⟩
    · exact .inl (hpq q hqp)

/-! ## Locks -/

omit [DecidableEq P] [Fintype P] [Fintype H] in
theorem State.At.relock (hk : s.At q k) (hh : s'.handle = s.handle)
    (hl : ∀ j h, s.lock j = some (q, h) → s'.lock j = some (q, h))
    (hn : ∀ h, k.puts h → ∀ j u, s'.lock j = some (u, h) → s.lock j = some (u, h)) :
    s'.At q k := by
  cases k with
  | user | ialloced => trivial
  | ialloc => exact hk
  | ilock i h => exact (congrFun hh h).trans hk
  | ilockRead i | writei i | iupdate i =>
    obtain ⟨h, hk⟩ := hk
    exact ⟨h, hl i h hk⟩
  | itrunc i _ put | itruncUpdate i put =>
    obtain ⟨h, hk, hput⟩ := hk
    exact ⟨h, hl i h hk, hput⟩
  | iputType i h | iputUpdate i h | iputInvalid i h => exact hl i h hk
  | iputRef i h =>
    refine ⟨(congrFun hh h).trans hk.1, fun j u hu => hk.2 j u (hn h ?_ j u hu)⟩
    simp [PC.puts]

/-- Process `p`, which goes to `k`, gives up locks, or takes that of entry `i`
by the handle `h`. -/
theorem Refs.relock (hr : Refs s) (hdev : s'.dev = s.dev) (hinum : s'.inum = s.inum)
    (href : s'.ref = s.ref) (hhandle : s'.handle = s.handle)
    (hpc : s'.pc = Function.update s.pc p k)
    (hkept : ∀ q, q ≠ p → ∀ j h', s.lock j = some (q, h') → s'.lock j = some (q, h'))
    (hnew : ∀ j u h', s'.lock j = some (u, h') → s.lock j = some (u, h') ∨
      u = p ∧ s.handle h' = some j ∧ ∀ q, q ≠ p → (s.pc q).puts h' = false)
    (hk : s'.At p k) (hputs : ∀ h', k.puts h' → (s.pc p).puts h' ∨ s.Unused h')
    (hwaits : ∀ h', k.waits h' = false) : Refs s' := by
  have hpp : s'.pc p = k := by rw [hpc, Function.update_self]
  have hpq : ∀ q, q ≠ p → s'.pc q = s.pc q := fun q hq => by rw [hpc, Function.update_of_ne hq]
  refine ⟨fun i => ?_, fun i j => ?_, fun i q h hl => ?_, fun q => ?_, fun q h hq => ?_⟩
  · rw [href, hhandle]
    exact hr.count i
  · rw [href, State.key, State.key, hdev, hinum]
    exact hr.keys i j
  · rw [hhandle]
    rcases hnew i q h hl with hl | ⟨-, hh, -⟩
    · exact hr.held i q h hl
    · exact hh
  · by_cases hqp : q = p
    · rw [hqp, hpp]
      exact hk
    · rw [hpq q hqp]
      refine (hr.at' q).relock hhandle (hkept q hqp) fun h hp j u hu => ?_
      rcases hnew j u h hu with hu | ⟨-, -, hno⟩
      · exact hu
      · rw [hno q hqp] at hp
        cases hp
  · have hwait : ∀ u, (s.pc u).waits h = false → (s'.pc u).waits h = false := fun u hu => by
      by_cases hup : u = p
      · rw [hup, hpp]
        exact hwaits h
      · rw [hpq u hup]
        exact hu
    by_cases hqp : q = p
    · subst hqp
      rw [hpp] at hq
      rcases hputs h hq with hold | ⟨hun, hlk⟩
      · obtain ⟨h₁, h₂, h₃⟩ := hr.alone q h hold
        refine ⟨fun u hu => ?_, fun u => hwait u (h₂ u), fun j u hu => ?_⟩
        · by_contra hne
          exact hne (h₁ u (by rwa [hpq u hne] at hu))
        · rcases hnew j u h hu with hu | ⟨hu, -⟩
          · exact h₃ j u hu
          · exact hu
      · refine ⟨fun u hu => ?_, fun u => hwait u (hun u).2, fun j u hu => ?_⟩
        · by_contra hne
          rw [hpq u hne, (hun u).1] at hu
          cases hu
        · rcases hnew j u h hu with hu | ⟨hu, -⟩
          · exact absurd rfl (hlk j (u, h) hu)
          · exact hu
    · rw [hpq q hqp] at hq
      obtain ⟨h₁, h₂, h₃⟩ := hr.alone q h hq
      refine ⟨fun u hu => ?_, fun u => hwait u (h₂ u), fun j u hu => ?_⟩
      · by_cases hup : u = p
        · subst hup
          rw [hpp] at hu
          rcases hputs h hu with hold | ⟨hun, -⟩
          · exact h₁ u hold
          · rw [(hun q).1] at hq
            cases hq
        · exact h₁ u (by rwa [hpq u hup] at hu)
      · rcases hnew j u h hu with hu | ⟨-, -, hno⟩
        · exact h₃ j u hu
        · rw [hno q hqp] at hq
          cases hq

omit [Fintype P] in
/-- Process `p` takes or gives up the lock of entry `i`. -/
theorem Inv.relock (hI : Inv s) (hr : Refs s') (hdev : s'.dev = s.dev) (hinum : s'.inum = s.inum)
    (href : s'.ref = s.ref) (hcopy : s'.copy = s.copy) (hdisk : s'.dinode = s.dinode)
    (hpc : s'.pc = Function.update s.pc p k) (hlock : ∀ j, j ≠ i → s'.lock j = s.lock j)
    (hvalid : ∀ j, j ≠ i → s'.valid j = s.valid j) (he : ∀ j, j ≠ i → (s.pc p).entry ≠ some j)
    (he' : ∀ j, j ≠ i → k.entry ≠ some j) (hentry : 0 < s.ref i → Entry s i → Entry s' i)
    (hfreed : Freed s') : Inv s' := by
  refine ⟨hr, fun j hj => ?_, hfreed⟩
  rw [href] at hj
  by_cases hji : j = i
  · subst hji
    exact hentry hj (hI.entry j hj)
  · refine (hI.entry j hj).frame (hlock j hji) (hvalid j hji) (by rw [hcopy])
      (by rw [hdisk, State.key, State.key, hdev, hinum]) fun q => ?_
    by_cases hqp : q = p
    · subst hqp
      refine .inr ⟨he j hji, ?_⟩
      rw [hpc, Function.update_self]
      exact he' j hji
    · exact .inl (by rw [hpc, Function.update_of_ne hqp])

theorem Inv.acquiresleep (hI : Inv s) (hp : s.pc p = .ilock i h) (hl : s.lock i = none) :
    Inv ((s.acquiresleep p i h).goto p (.ilockRead i)) := by
  have hh : s.handle h = some i := by
    have hat := hI.refs.at' p
    rwa [hp] at hat
  have hput : ∀ q, (s.pc q).puts h = false := fun q => by
    by_contra hq
    have hno := (hI.refs.alone q h (by simpa using hq)).2.1 p
    rw [hp] at hno
    simp [PC.waits] at hno
  have hli : ((s.acquiresleep p i h).goto p (.ilockRead i)).lock i = some (p, h) :=
    Function.update_self ..
  have hlj : ∀ j, j ≠ i → ((s.acquiresleep p i h).goto p (.ilockRead i)).lock j = s.lock j :=
    fun j hj => Function.update_of_ne hj ..
  have hpp : ((s.acquiresleep p i h).goto p (.ilockRead i)).pc p = .ilockRead i :=
    Function.update_self ..
  have hr : Refs ((s.acquiresleep p i h).goto p (.ilockRead i)) := by
    refine hI.refs.relock rfl rfl rfl rfl rfl (fun q _ j h' hj => ?_) (fun j u h' hj => ?_)
      ⟨h, hli⟩ nofun fun _ => rfl
    · refine (hlj j ?_).trans hj
      rintro rfl
      exact nomatch hl.symm.trans hj
    · by_cases hji : j = i
      · subst hji
        obtain ⟨rfl, rfl⟩ := Prod.mk.inj (Option.some.inj (hli.symm.trans hj))
        exact .inr ⟨rfl, hh, fun q _ => hput q⟩
      · exact .inl (hlj j hji ▸ hj)
  refine hI.relock hr rfl rfl rfl rfl rfl rfl hlj (fun _ _ => rfl) (by rw [hp]; nofun)
    (fun j hj hji => hj (Option.some.inj hji).symm) (fun _ he => ?_)
    (hI.freed.same (fun _ _ => rfl) rfl rfl rfl fun q => ?_)
  · have hu := (entry_unlocked hl).1 he
    rw [entry_iff_works hli, hpp]
    exact ⟨.inl rfl, fun hv _ => (hu hv).1, fun hv _ => (hu hv).2.1, nofun,
      fun hv _ => (hu hv).2.2⟩
  · by_cases hqp : q = p
    · rw [hqp, hpp, hp]
      exact .inr ⟨rfl, rfl⟩
    · exact .inl (Function.update_of_ne hqp ..)

theorem Inv.releasesleep (hI : Inv s) (hp : s.pc p = .user) (hl : s.lock i = some (p, h)) :
    Inv (s.releasesleep i) := by
  have hli : (s.releasesleep i).lock i = none := Function.update_self ..
  have hlj : ∀ j, j ≠ i → (s.releasesleep i).lock j = s.lock j :=
    fun j hj => Function.update_of_ne hj ..
  have hpc : (s.releasesleep i).pc = Function.update s.pc p .user := by
    rw [← hp, Function.update_eq_self]
    rfl
  have hr : Refs (s.releasesleep i) := by
    refine hI.refs.relock rfl rfl rfl rfl hpc (fun q hq j h' hj => ?_) (fun j u h' hj => ?_)
      trivial nofun fun _ => rfl
    · refine (hlj j ?_).trans hj
      rintro rfl
      exact hq (Prod.mk.inj (Option.some.inj (hj.symm.trans hl))).1
    · refine .inl ((hlj j ?_).symm.trans hj)
      rintro rfl
      exact nomatch hli.symm.trans hj
  refine hI.relock hr rfl rfl rfl rfl rfl hpc hlj (fun _ _ => rfl) (by rw [hp]; nofun)
    nofun (fun _ he => ?_) (hI.freed.same (fun _ _ => rfl) rfl rfl rfl fun _ => .inl rfl)
  have hw := (entry_iff_works hl).1 he
  rw [hp] at hw
  exact (entry_unlocked hli).2 fun hv => ⟨hw.coherent hv nofun, hw.copyType hv nofun,
    hw.diskType hv nofun⟩

/-- `iput` has written the inode, and lets others have the entry. -/
theorem Inv.invalid (hI : Inv s) (hp : s.pc p = .iputInvalid i h) :
    Inv (({ s with valid := Function.update s.valid i false }.releasesleep i).goto p
      (.iputRef i h)) := by
  have hl : s.lock i = some (p, h) := by
    have hat := hI.refs.at' p
    rwa [hp] at hat
  generalize hs' : ({ s with valid := Function.update s.valid i false }.releasesleep i).goto p
    (.iputRef i h) = s'
  have hli : s'.lock i = none := hs' ▸ Function.update_self ..
  have hlj : ∀ j, j ≠ i → s'.lock j = s.lock j := hs' ▸ fun j hj => Function.update_of_ne hj ..
  have hpc : s'.pc = Function.update s.pc p (.iputRef i h) := hs' ▸ rfl
  have hputs : (s.pc p).puts h := by simp [hp, PC.puts]
  have hh := hI.refs.held i p h hl
  have hhandle : s'.handle = s.handle := hs' ▸ rfl
  have hr : Refs s' := by
    refine hI.refs.relock (hs' ▸ rfl) (hs' ▸ rfl) (hs' ▸ rfl) hhandle hpc
      (fun q hq j h' hj => ?_) (fun j u h' hj => ?_) ⟨hhandle ▸ hh, fun j q hj => ?_⟩
      (fun h' hh' => .inl ?_) fun _ => rfl
    · refine (hlj j ?_).trans hj
      rintro rfl
      exact hq (Prod.mk.inj (Option.some.inj (hj.symm.trans hl))).1
    · refine .inl ((hlj j ?_).symm.trans hj)
      rintro rfl
      exact nomatch hli.symm.trans hj
    · have hji : j ≠ i := by
        rintro rfl
        exact nomatch hli.symm.trans hj
      rw [hlj j hji] at hj
      exact hji (Option.some.inj ((hI.refs.held j q h hj).symm.trans hh))
    · simpa [hp, PC.puts] using hh'
  refine hI.relock hr (hs' ▸ rfl) (hs' ▸ rfl) (hs' ▸ rfl) (hs' ▸ rfl) (hs' ▸ rfl) hpc hlj
    (hs' ▸ fun j hj => Function.update_of_ne hj ..) (fun j hj hji => ?_) nofun (fun _ he => ?_)
    (hI.freed.same (hs' ▸ fun _ _ => rfl) (hs' ▸ rfl) (hs' ▸ rfl) (hs' ▸ rfl) fun q => ?_)
  · rw [hp] at hji
    exact hj (Option.some.inj hji).symm
  · refine (entry_unlocked hli).2 fun hv => ?_
    rw [← hs'] at hv
    exact absurd hv (by simp [State.releasesleep, State.goto])
  · by_cases hqp : q = p
    · rw [hqp, hpc, Function.update_self, hp]
      exact .inr ⟨rfl, rfl⟩
    · exact .inl (by rw [hpc, Function.update_of_ne hqp])

/-- `iput` gives up the last reference to an inode that has no links. -/
theorem Inv.free (hI : Inv s) (hp : s.pc p = .user) (hh : s.handle h = some i)
    (hun : s.Unused h) (hv : s.valid i) (hl : s.lock i = none) :
    Inv (({ s with freed := (s.key i, s.allocs (s.key i)) :: s.freed }.acquiresleep p i h).goto p
      (.itrunc i 0 (some h))) := by
  generalize hs' : ({ s with freed := (s.key i, s.allocs (s.key i)) :: s.freed }.acquiresleep p i
    h).goto p (.itrunc i 0 (some h)) = s'
  have hli : s'.lock i = some (p, h) := hs' ▸ Function.update_self ..
  have hlj : ∀ j, j ≠ i → s'.lock j = s.lock j := hs' ▸ fun j hj => Function.update_of_ne hj ..
  have hpc : s'.pc = Function.update s.pc p (.itrunc i 0 (some h)) := hs' ▸ rfl
  have hpp : s'.pc p = .itrunc i 0 (some h) := by rw [hpc, Function.update_self]
  have hkey : ∀ j, s'.key j = s.key j := hs' ▸ fun _ => rfl
  have hpos := hI.refs.ref_pos hh
  have hu := (entry_unlocked hl).1 (hI.entry i hpos) hv
  have hr : Refs s' := by
    refine hI.refs.relock (hs' ▸ rfl) (hs' ▸ rfl) (hs' ▸ rfl) (hs' ▸ rfl) hpc
      (fun q hq j h' hj => ?_) (fun j u h' hj => ?_) ⟨h, hli, fun h' hh' => ?_⟩
      (fun h' hh' => .inr ?_) fun _ => rfl
    · refine (hlj j ?_).trans hj
      rintro rfl
      exact nomatch hl.symm.trans hj
    · by_cases hji : j = i
      · subst hji
        obtain ⟨rfl, rfl⟩ := Prod.mk.inj (Option.some.inj (hli.symm.trans hj))
        exact .inr ⟨rfl, hh, fun q _ => (hun.1 q).1⟩
      · exact .inl (hlj j hji ▸ hj)
    · exact (Option.some.inj hh').symm
    · obtain rfl : h = h' := by simpa [PC.puts] using hh'
      exact hun
  refine hI.relock hr (hs' ▸ rfl) (hs' ▸ rfl) (hs' ▸ rfl) (hs' ▸ rfl) (hs' ▸ rfl) hpc hlj
    (hs' ▸ fun _ _ => rfl) (by rw [hp]; nofun)
    (fun j hj hji => hj (Option.some.inj hji).symm) (fun _ _ => ?_)
    ⟨fun x hx => ?_, fun q j hq hfq => ?_, ?_⟩
  · have hv' : s'.valid i := hs' ▸ hv
    have hcopy : s'.copy i = s.copy i := hs' ▸ rfl
    have hdisk : s'.dinode (s'.key i) = s.dinode (s.key i) := hs' ▸ rfl
    rw [entry_iff_works hli, hpp]
    exact ⟨.inr hv', fun _ hn => (nomatch hn rfl), fun _ _ => hcopy ▸ hu.2.1, nofun,
      fun _ _ => hdisk ▸ hu.2.2⟩
  · have hallocs : s'.allocs = s.allocs := hs' ▸ rfl
    have hdisk : s'.dinode = s.dinode := hs' ▸ rfl
    have hfreed : s'.freed = (s.key i, s.allocs (s.key i)) :: s.freed := hs' ▸ rfl
    rw [hallocs, hdisk]
    rcases List.mem_cons.1 (hfreed ▸ hx) with rfl | hx
    · exact .inr ⟨rfl, .inr ⟨i, p, hkey i, by rw [hpp]; exact ⟨rfl, rfl⟩⟩⟩
    · refine (hI.freed.past x hx).imp_right fun ⟨hg, hx⟩ => ⟨hg, hx.imp_right ?_⟩
      rintro ⟨j, q, hj, hej, hfj⟩
      refine ⟨j, q, (hkey j).trans hj, ?_⟩
      rw [hpc, Function.update_of_ne]
      · exact ⟨hej, hfj⟩
      · rintro rfl
        rw [hp] at hej
        cases hej
  · have hallocs : s'.allocs = s.allocs := hs' ▸ rfl
    have hfreed : s'.freed = (s.key i, s.allocs (s.key i)) :: s.freed := hs' ▸ rfl
    rw [hkey, hallocs, hfreed]
    by_cases hqp : q = p
    · rw [hqp, hpp] at hq
      obtain rfl := Option.some.inj hq
      exact List.mem_cons_self ..
    · rw [hpc, Function.update_of_ne hqp] at hq hfq
      exact List.mem_cons_of_mem _ (hI.freed.now q j hq hfq)
  · have hfreed : s'.freed = (s.key i, s.allocs (s.key i)) :: s.freed := hs' ▸ rfl
    rw [hfreed]
    refine List.nodup_cons.2 ⟨fun hm => ?_, hI.freed.once⟩
    rcases hI.freed.past _ hm with hlt | ⟨-, h0 | ⟨j, q, hj, hej, -⟩⟩
    · exact Nat.lt_irrefl _ hlt
    · exact hu.2.2 h0
    · obtain rfl := hI.refs.keys j i (hI.refs.entry_pos hej) hpos hj
      obtain ⟨h', hl'⟩ := (hI.refs.at' q).locked hej
      exact nomatch hl.symm.trans hl'

/-! ## Allocating an inode -/

omit [DecidableEq P] [Fintype P] in
/-- An entry of a free inode is not valid, but for one that `iput` has just
freed. -/
theorem Inv.free_entry (hI : Inv s) (hi : 0 < s.ref i) (h0 : (s.dinode (s.key i)).type = 0) :
    s.valid i = false ∨ ∃ q h, s.lock i = some (q, h) ∧ s.pc q = .iputInvalid i h := by
  by_contra hn
  rw [not_or] at hn
  refine (hI.entry i hi).diskType (by simpa using hn.1) (fun q h hl hq => ?_) h0
  by_contra he
  refine hn.2 ⟨q, h, hl, ?_⟩
  have hat := hI.refs.at' q
  cases hk : s.pc q with
  | iputInvalid j h' =>
    rw [hk] at hq hat
    obtain rfl := Option.some.inj hq
    obtain ⟨-, rfl⟩ := Prod.mk.inj (Option.some.inj (hl.symm.trans hat))
    rfl
  | _ =>
    rw [hk] at he
    exact absurd rfl he

omit [Fintype P] in
theorem Inv.mark {dev inum : Nat} {type : Int} (hI : Inv s) (hp : s.pc p = .ialloc dev type inum)
    (h0 : (s.dinode (dev, inum)).type = 0) :
    Inv ((s.mark (dev, inum) type).goto p (.ialloced dev inum)) := by
  generalize hs' : (s.mark (dev, inum) type).goto p (.ialloced dev inum) = s'
  have hpc : s'.pc = Function.update s.pc p (.ialloced dev inum) := hs' ▸ rfl
  have hpq : ∀ q, q ≠ p → s'.pc q = s.pc q := fun q hq => by rw [hpc, Function.update_of_ne hq]
  have hne : ∀ q j, (s.pc q).entry = some j → q ≠ p := by
    rintro q j hq rfl
    rw [hp] at hq
    cases hq
  have hdisk : ∀ x, x ≠ (dev, inum) → s'.dinode x = s.dinode x :=
    hs' ▸ fun x hx => Function.update_of_ne hx ..
  have hallocs : s'.allocs (dev, inum) = s.allocs (dev, inum) + 1 := hs' ▸ Function.update_self ..
  have hallocs' : ∀ x, x ≠ (dev, inum) → s'.allocs x = s.allocs x :=
    hs' ▸ fun x hx => Function.update_of_ne hx ..
  have hkey : ∀ j, s'.key j = s.key j := hs' ▸ fun _ => rfl
  have hr : Refs s' := hI.refs.move (hs' ▸ rfl) (hs' ▸ rfl) (hs' ▸ rfl) (hs' ▸ rfl) (hs' ▸ rfl)
    hpc trivial nofun nofun
  have hlock : s'.lock = s.lock := hs' ▸ rfl
  have hvalid : s'.valid = s.valid := hs' ▸ rfl
  have hcopy : s'.copy = s.copy := hs' ▸ rfl
  have href : s'.ref = s.ref := hs' ▸ rfl
  have hfreed : s'.freed = s.freed := hs' ▸ rfl
  refine ⟨hr, fun j hj => ?_, fun x hx => ?_, fun q j hq hfq => ?_, ?_⟩
  · rw [href] at hj
    by_cases hji : s.key j = (dev, inum)
    · rcases hI.free_entry hj (hji ▸ h0) with hv | ⟨q, h, hl, hq⟩
      · cases hl : s.lock j with
        | none =>
          rw [entry_unlocked (by rw [hlock, hl]), hvalid, hv]
          exact nofun
        | some x =>
          obtain ⟨q, h⟩ := x
          have hread : s.pc q = .ilockRead j :=
            ((hI.entry j hj).fresh q h hl).resolve_right (by simp [hv])
          have hqp : q ≠ p := hne q j (by rw [hread]; rfl)
          rw [entry_iff_works (by rw [hlock]; exact hl), hpq q hqp, hread]
          exact ⟨.inl rfl, fun hv' => absurd (hvalid ▸ hv') (by simp [hv]),
            fun hv' => absurd (hvalid ▸ hv') (by simp [hv]), nofun,
            fun hv' => absurd (hvalid ▸ hv') (by simp [hv])⟩
      · have hqp : q ≠ p := hne q j (by rw [hq]; rfl)
        have hv : s.valid j := ((hI.entry j hj).fresh q h hl).resolve_left (by rw [hq]; nofun)
        rw [entry_iff_works (by rw [hlock]; exact hl), hpq q hqp, hq]
        exact ⟨.inr (hvalid ▸ hv), fun _ hn => (nomatch hn rfl), fun _ hn => (nomatch hn rfl),
          nofun, fun _ hn => (nomatch hn rfl)⟩
    · refine (hI.entry j hj).frame (by rw [hlock]) (by rw [hvalid]) (by rw [hcopy])
        (by rw [hkey, hdisk _ hji]) fun q => ?_
      by_cases hqp : q = p
      · subst hqp
        rw [hpc, Function.update_self, hp]
        exact .inr ⟨nofun, nofun⟩
      · exact .inl (hpq q hqp)
  · have hx' : x ∈ s.freed := hfreed ▸ hx
    by_cases hxk : x.1 = (dev, inum)
    · rw [hxk, hallocs]
      refine .inl (Nat.lt_succ_of_le ?_)
      rw [← hxk]
      exact (hI.freed.past x hx').elim Nat.le_of_lt fun hg => Nat.le_of_eq hg.1
    · rw [hallocs' _ hxk, hdisk _ hxk]
      refine (hI.freed.past x hx').imp_right fun ⟨hg, hx⟩ => ⟨hg, hx.imp_right ?_⟩
      rintro ⟨j, q, hj, hej, hfj⟩
      exact ⟨j, q, (hkey j).trans hj, by rw [hpq q (hne q j hej)]; exact ⟨hej, hfj⟩⟩
  · have hqp : q ≠ p := by
      rintro rfl
      rw [hpc, Function.update_self] at hq
      cases hq
    rw [hpq q hqp] at hq hfq
    have hkj : s.key j ≠ (dev, inum) := fun hkj => by
      obtain ⟨h, hl⟩ := (hI.refs.at' q).locked hq
      rcases hI.free_entry (hI.refs.entry_pos hq) (hkj ▸ h0) with hv | ⟨u, h', hl', hu⟩
      · have hread := ((hI.entry j (hI.refs.entry_pos hq)).fresh q h hl).resolve_right
          (by simp [hv])
        rw [hread] at hfq
        cases hfq
      · obtain ⟨rfl, -⟩ := Prod.mk.inj (Option.some.inj (hl.symm.trans hl'))
        rw [hu] at hfq
        cases hfq
    rw [hkey, hallocs' _ hkj, hfreed]
    exact hI.freed.now q j hq hfq
  · exact hfreed ▸ hI.freed.once

/-! ## References come and go -/

omit [DecidableEq P] [Fintype P] [Fintype H] in
theorem State.At.rehandle (hk : s.At q k) (hl : s'.lock = s.lock)
    (hh : ∀ h, k.puts h ∨ k.waits h → s'.handle h = s.handle h) : s'.At q k := by
  cases k with
  | user | ialloced => trivial
  | ialloc => exact hk
  | ilock i h => exact (hh h (.inr (by simp [PC.waits]))).trans hk
  | ilockRead i | writei i | iupdate i =>
    obtain ⟨h, hk⟩ := hk
    exact ⟨h, hl ▸ hk⟩
  | itrunc i _ put | itruncUpdate i put =>
    obtain ⟨h, hk, hput⟩ := hk
    exact ⟨h, hl ▸ hk, hput⟩
  | iputType i h | iputUpdate i h | iputInvalid i h => exact (congrFun hl i).trans hk
  | iputRef i h => exact ⟨(hh h (.inl (by simp [PC.puts]))).trans hk.1, hl ▸ hk.2⟩

omit [DecidableEq P] in
/-- No process uses a handle that has no reference. -/
theorem Refs.unused (hr : Refs s) (hh : s.handle h = none) : s.Unused h := by
  have hno : ∀ i q, s.lock i ≠ some (q, h) := fun i q hl => nomatch hh.symm.trans (hr.held i q h hl)
  refine ⟨fun q => ?_, fun i x hx hxh => hno i x.1 ?_⟩
  · have hat := hr.at' q
    cases hk : s.pc q with
    | user | ialloc | ialloced | ilockRead | writei | iupdate => exact ⟨rfl, rfl⟩
    | ilock i h' =>
      rw [hk] at hat
      refine ⟨rfl, decide_eq_false ?_⟩
      rintro rfl
      exact nomatch hh.symm.trans hat
    | itrunc i _ put | itruncUpdate i put =>
      rw [hk] at hat
      obtain ⟨h', hl, hput⟩ := hat
      cases put with
      | none => exact ⟨rfl, rfl⟩
      | some h'' =>
        refine ⟨decide_eq_false ?_, rfl⟩
        rintro rfl
        exact hno i q (hput h'' rfl ▸ hl)
    | iputType i h' | iputUpdate i h' | iputInvalid i h' =>
      rw [hk] at hat
      refine ⟨decide_eq_false ?_, rfl⟩
      rintro rfl
      exact hno i q hat
    | iputRef i h' =>
      rw [hk] at hat
      refine ⟨decide_eq_false ?_, rfl⟩
      rintro rfl
      exact nomatch hh.symm.trans hat.1
  · rw [← hxh]
    exact hx

omit [DecidableEq P] in
/-- A handle that no process uses gets or loses its reference. -/
theorem Refs.rehandle {o : Option (Fin n)} (hr : Refs s) (hun : s.Unused h)
    (hh : s'.handle = Function.update s.handle h o) (hlock : s'.lock = s.lock)
    (hpc : s'.pc = s.pc) (hcount : ∀ i, s'.ref i + (if s.handle h = some i then 1 else 0) =
      s.ref i + if o = some i then 1 else 0)
    (hkeys : ∀ i j, 0 < s'.ref i → 0 < s'.ref j → s'.key i = s'.key j → i = j) : Refs s' := by
  have hne : ∀ h', h' ≠ h → s'.handle h' = s.handle h' := fun h' hn => by
    rw [hh, Function.update_of_ne hn]
  refine ⟨fun i => ?_, hkeys, fun i q h' hl => ?_, fun q => ?_, fun q h' hq => ?_⟩
  · have hsame : ∀ h', h' ≠ h → (s'.handle h' = some i ↔ s.handle h' = some i) :=
      fun h' hn => by rw [hne h' hn]
    have hcard := card_filter_change hsame
    rw [show s'.handle h = o by rw [hh, Function.update_self]] at hcard
    have hold := hr.count i
    have hnew := hcount i
    omega
  · rw [hlock] at hl
    rw [hne h' (hun.2 i (q, h') hl)]
    exact hr.held i q h' hl
  · rw [hpc]
    refine (hr.at' q).rehandle hlock fun h' hk => hne h' ?_
    rintro rfl
    rw [(hun.1 q).1, (hun.1 q).2] at hk
    simp at hk
  · rw [hpc] at hq ⊢
    rw [hlock]
    exact hr.alone q h' hq

omit [DecidableEq P] in
theorem Inv.addRef (hI : Inv s) (hh : s.handle h = none) (hi : 0 < s.ref i) :
    Inv (s.addRef i h) := by
  have href : ∀ j, 0 < (s.addRef i h).ref j → 0 < s.ref j := fun j hj => by
    by_cases hji : j = i
    · exact hji ▸ hi
    · rwa [show (s.addRef i h).ref j = s.ref j from Function.update_of_ne hji ..] at hj
  refine ⟨hI.refs.rehandle (hI.refs.unused hh) rfl rfl rfl (fun j => ?_) fun j j' hj hj' =>
    hI.refs.keys j j' (href j hj) (href j' hj'), fun j hj => ?_,
    hI.freed.same (fun _ _ => rfl) rfl rfl rfl fun _ => .inl rfl⟩
  · by_cases hji : j = i
    · subst hji
      simp [State.addRef, hh]
    · rw [show (s.addRef i h).ref j = s.ref j from Function.update_of_ne hji .., hh]
      simp [Ne.symm hji]
  · exact (hI.entry j (href j hj)).frame rfl rfl rfl rfl fun _ => .inl rfl

omit [DecidableEq P] in
theorem Inv.dropRef (hI : Inv s) (hh : s.handle h = some i) (hun : s.Unused h) :
    Inv (s.dropRef i h) := by
  have href : ∀ j, 0 < (s.dropRef i h).ref j → 0 < s.ref j := fun j hj => by
    by_cases hji : j = i
    · exact hji ▸ hI.refs.ref_pos hh
    · rwa [show (s.dropRef i h).ref j = s.ref j from Function.update_of_ne hji ..] at hj
  refine ⟨hI.refs.rehandle hun rfl rfl rfl (fun j => ?_) fun j j' hj hj' =>
    hI.refs.keys j j' (href j hj) (href j' hj'), fun j hj => ?_,
    hI.freed.same (fun _ _ => rfl) rfl rfl rfl fun _ => .inl rfl⟩
  · have hpos := hI.refs.ref_pos hh
    by_cases hji : j = i
    · subst hji
      simp [State.dropRef, hh]
      omega
    · rw [show (s.dropRef i h).ref j = s.ref j from Function.update_of_ne hji .., hh]
      simp [Ne.symm hji]
  · exact (hI.entry j (href j hj)).frame rfl rfl rfl rfl fun _ => .inl rfl

omit [DecidableEq P] in
/-- `iget` takes an unused entry. -/
theorem Inv.recycle {dev inum : Nat} (hI : Inv s) (hh : s.handle h = none) (hi : s.ref i = 0)
    (hnone : ∀ j, ¬ (0 < s.ref j ∧ s.dev j = dev ∧ s.inum j = inum)) :
    Inv (s.recycle i dev inum h) := by
  have hli : s.lock i = none := by
    by_contra hl
    obtain ⟨⟨q, h'⟩, hl⟩ := Option.ne_none_iff_exists'.1 hl
    have hpos := hI.refs.ref_pos (hI.refs.held i q h' hl)
    omega
  have hrefj : ∀ j, j ≠ i → (s.recycle i dev inum h).ref j = s.ref j :=
    fun j hj => Function.update_of_ne hj ..
  have hkeyj : ∀ j, j ≠ i → (s.recycle i dev inum h).key j = s.key j := fun j hj => by
    simp [State.key, State.recycle, hj]
  have hkeyi : (s.recycle i dev inum h).key i = (dev, inum) := by
    simp [State.key, State.recycle]
  have hnew : ∀ j, 0 < (s.recycle i dev inum h).ref j → (s.recycle i dev inum h).key j =
      (dev, inum) → j = i := fun j hj hk => by
    by_contra hji
    rw [hrefj j hji] at hj
    rw [hkeyj j hji] at hk
    exact hnone j ⟨hj, congrArg Prod.fst hk, congrArg Prod.snd hk⟩
  refine ⟨hI.refs.rehandle (hI.refs.unused hh) rfl rfl rfl (fun j => ?_) fun j j' hj hj' hk => ?_,
    fun j hj => ?_, hI.freed.same ?_ rfl rfl rfl fun _ => .inl rfl⟩
  · by_cases hji : j = i
    · subst hji
      simp [State.recycle, hh, hi]
    · rw [hrefj j hji, hh]
      simp [Ne.symm hji]
  · by_cases hji : j = i
    · subst hji
      exact (hnew j' hj' (hk ▸ hkeyi)).symm
    · by_cases hji' : j' = i
      · subst hji'
        exact hnew j hj (hk.trans hkeyi)
      · rw [hkeyj j hji, hkeyj j' hji'] at hk
        exact hI.refs.keys j j' (hrefj j hji ▸ hj) (hrefj j' hji' ▸ hj') hk
  · by_cases hji : j = i
    · subst hji
      refine (entry_unlocked (s := s.recycle j dev inum h) hli).2 fun hv => ?_
      exact absurd hv (by simp [State.recycle])
    · exact (hI.entry j (hrefj j hji ▸ hj)).frame rfl (Function.update_of_ne hji ..) rfl
        (by rw [hkeyj j hji]; rfl) fun _ => .inl rfl
  · rintro j ⟨q, hq⟩
    refine hkeyj j ?_
    rintro rfl
    have hpos := hI.refs.entry_pos hq
    omega

omit [DecidableEq P] in
theorem Inv.iget {dev inum : Nat} (hI : Inv s) (hs : s.iget dev inum h = some s') :
    Inv s' ∧ s'.pc = s.pc := by
  unfold State.iget at hs
  split at hs
  next hh =>
    split at hs
    next i hi =>
      obtain rfl := Option.some.inj hs
      have hp := List.find?_some hi
      exact ⟨hI.addRef hh (by simpa using (of_decide_eq_true hp).1), rfl⟩
    next hnone =>
      split at hs
      next i hi =>
        obtain rfl := Option.some.inj hs
        refine ⟨hI.recycle hh (by simpa using List.find?_some hi) fun j hj => ?_, rfl⟩
        exact List.find?_eq_none.1 hnone j (List.mem_finRange j) (decide_eq_true hj)
      next => cases hs
  next => cases hs

/-! ## Runs -/

omit [DecidableEq P] [Fintype P] in
theorem Inv.initial (hinit : (∀ i, s.ref i = 0 ∧ s.lock i = none) ∧ (∀ p, s.pc p = .user) ∧
    (∀ h, s.handle h = none) ∧ s.freed = []) : Inv s := by
  obtain ⟨ht, hpc, hh, hf⟩ := hinit
  refine ⟨⟨fun i => ?_, fun i j hi => ?_, fun i p h hl => ?_, fun p => ?_, fun p h hp => ?_⟩,
    fun i hi => ?_, ⟨fun x hx => ?_, fun p i hp => ?_, ?_⟩⟩
  · rw [(ht i).1]
    simp [hh]
  · rw [(ht i).1] at hi
    exact absurd hi (Nat.lt_irrefl 0)
  · exact nomatch (ht i).2.symm.trans hl
  · rw [hpc]
    trivial
  · rw [hpc] at hp
    cases hp
  · rw [(ht i).1] at hi
    exact absurd hi (Nat.lt_irrefl 0)
  · rw [hf] at hx
    cases hx
  · rw [hpc] at hp
    cases hp
  · rw [hf]
    exact List.nodup_nil

omit [Fintype P] in
/-- A process that works on an entry takes a step in which it only edits the
copy. -/
theorem Inv.edit {d : Dinode} (hI : Inv s) (hl : s.lock i = some (p, h))
    (hpi : ∀ j, j ≠ i → (s.pc p).entry ≠ some j) (hk : (s.pc p).entry = some i →
      (s.pc p).typeless = false) (hread : s.pc p ≠ .ilockRead i) (hd : d.type = (s.copy i).type)
    (hat : s.At p k) (hputs : ∀ h, k.puts h → (s.pc p).puts h) (hwaits : ∀ h, k.waits h = false)
    (hke : k.entry = some i) (hke' : k.edits) (hkt : k.typeless = false)
    (hf : (s.pc p).freeing = k.freeing) : Inv ((s.setCopy i d).goto p k) := by
  refine hI.work hl ⟨rfl, rfl, rfl, rfl, rfl, rfl⟩ rfl rfl hat hputs hwaits
    (fun j hj => Function.update_of_ne hj ..) (fun _ _ => rfl) (fun _ _ => rfl) hpi
    (fun j hj hkj => hj (Option.some.inj (hke.symm.trans hkj)).symm) (fun hw => ?_) id
    (fun hfr => .inl ⟨hke, hf ▸ hfr⟩) fun hfr => hf ▸ hfr
  refine hw.edit hk hread rfl ?_ rfl ⟨hke, hke'⟩ hkt
  show (Function.update s.copy i d i).type = _
  rw [Function.update_self, hd]

omit [Fintype P] in
/-- A process that works on an entry writes the copy to the block. -/
theorem Inv.written (hI : Inv s) (hl : s.lock i = some (p, h)) (hpi : (s.pc p).entry = some i)
    (hk : (s.pc p).typeless = false) (hread : s.pc p ≠ .ilockRead i)
    (hat : s.At p k) (hputs : ∀ h, k.puts h → (s.pc p).puts h) (hwaits : ∀ h, k.waits h = false)
    (hke : ∀ j, j ≠ i → k.entry ≠ some j) (hkt : ∀ h, k ≠ .iputUpdate i h)
    (hf : (s.pc p).freeing → k.entry = some i ∧ k.freeing) (hf' : k.freeing → (s.pc p).freeing) :
    Inv ((s.iupdate i).goto p k) := by
  have hw₀ := (entry_iff_works hl).1 (hI.entry i (hI.refs.entry_pos hpi))
  have herased : (s.pc p).erased = false := by
    revert hk
    cases s.pc p <;> first | exact fun _ => rfl | exact nofun
  have hz : (s.dinode (s.key i)).type ≠ 0 :=
    hw₀.diskType (hw₀.fresh.resolve_left hread) fun _ => herased
  refine hI.work hl ⟨rfl, rfl, rfl, rfl, rfl, rfl⟩ rfl rfl hat hputs hwaits
    (fun _ _ => rfl) (fun _ _ => rfl) (fun j hj => Function.update_of_ne hj ..)
    (fun j hj hkj => hj (Option.some.inj (hpi.symm.trans hkj)).symm) hke (fun hw => ?_)
    (fun h0 => absurd h0 hz) (fun hfr => .inl (hf hfr)) hf'
  exact hw.write (fun _ => hk) hread rfl rfl (Function.update_self ..) hkt

omit [Fintype P] in
/-- `ilock` reads the inode, where the entry is not valid. -/
theorem Inv.read (hI : Inv s) (hp : s.pc p = .ilockRead i)
    (hs : (if s.valid i then some (s.goto p .user)
      else if (s.dinode (s.key i)).type = 0 then none
      else some ((s.load i).goto p .user)) = some s') : Inv s' := by
  have hat := hI.refs.at' p
  rw [hp] at hat
  obtain ⟨h, hl⟩ := hat
  have hpi : ∀ j, j ≠ i → (s.pc p).entry ≠ some j := fun j hj hkj => by
    rw [hp] at hkj
    exact hj (Option.some.inj hkj).symm
  have hfr : ¬ (s.pc p).freeing := by
    rw [hp]
    nofun
  split at hs
  next hv =>
    obtain rfl := Option.some.inj hs
    refine hI.work hl ⟨rfl, rfl, rfl, rfl, rfl, rfl⟩ rfl rfl trivial nofun (fun _ => rfl)
      (fun _ _ => rfl) (fun _ _ => rfl) (fun _ _ => rfl) hpi nofun (fun hw => ?_) id
      (fun hf => absurd hf hfr) nofun
    rw [hp] at hw
    exact ⟨.inr hv, fun hv _ => hw.coherent hv fun _ => rfl, fun hv _ => hw.copyType hv fun _ => rfl,
      nofun, fun hv _ => hw.diskType hv fun _ => rfl⟩
  next =>
    split at hs
    next => cases hs
    next h0 =>
      obtain rfl := Option.some.inj hs
      have hcopy : ((s.load i).goto p .user).copy i = s.dinode (s.key i) := Function.update_self ..
      refine hI.work hl ⟨rfl, rfl, rfl, rfl, rfl, rfl⟩ rfl rfl trivial nofun (fun _ => rfl)
        (fun j hj => Function.update_of_ne hj ..) (fun j hj => Function.update_of_ne hj ..)
        (fun _ _ => rfl) hpi nofun (fun _ => ?_) id (fun hf => absurd hf hfr)
        nofun
      exact ⟨.inr (Function.update_self ..), fun _ _ => hcopy, fun _ _ => hcopy ▸ h0, nofun,
        fun _ _ => h0⟩

omit [Fintype P] in
/-- `iput` sets the type to zero. -/
theorem Inv.erase (hI : Inv s) (hp : s.pc p = .iputType i h) :
    Inv ((s.setCopy i { s.copy i with type := 0 }).goto p (.iputUpdate i h)) := by
  have hl : s.lock i = some (p, h) := by
    have hat := hI.refs.at' p
    rwa [hp] at hat
  have hcopy : ((s.setCopy i { s.copy i with type := 0 }).goto p (.iputUpdate i h)).copy i =
      { s.copy i with type := 0 } := Function.update_self ..
  refine hI.work hl ⟨rfl, rfl, rfl, rfl, rfl, rfl⟩ rfl rfl hl (fun h' hh' => ?_) (fun _ => rfl)
    (fun j hj => Function.update_of_ne hj ..) (fun _ _ => rfl) (fun _ _ => rfl) (fun j hj hkj => ?_)
    (fun j hj hkj => hj (Option.some.inj hkj).symm) (fun hw => ?_) id
    (fun _ => .inl ⟨rfl, rfl⟩) fun _ => by rw [hp]; rfl
  · rw [hp]
    exact hh'
  · rw [hp] at hkj
    exact hj (Option.some.inj hkj).symm
  · rw [hp] at hw
    refine ⟨.inr (hw.fresh.resolve_left nofun), fun _ hn => (nomatch hn rfl),
      fun _ hn => (nomatch hn rfl), fun _ _ => ?_, fun hv _ => hw.diskType hv fun _ => rfl⟩
    rw [hcopy]

omit [Fintype P] in
/-- `iput` writes the type zero. -/
theorem Inv.erased (hI : Inv s) (hp : s.pc p = .iputUpdate i h) :
    Inv ((s.iupdate i).goto p (.iputInvalid i h)) := by
  have hl : s.lock i = some (p, h) := by
    have hat := hI.refs.at' p
    rwa [hp] at hat
  have h0 : (((s.iupdate i).goto p (.iputInvalid i h)).dinode (s.key i)).type = 0 := by
    show (Function.update s.dinode (s.key i) (s.copy i) (s.key i)).type = 0
    rw [Function.update_self]
    exact (hI.entry i (hI.refs.ref_pos (hI.refs.held i p h hl))).typeless p h hl h hp
  refine hI.work hl ⟨rfl, rfl, rfl, rfl, rfl, rfl⟩ rfl rfl hl (fun h' hh' => ?_) (fun _ => rfl)
    (fun _ _ => rfl) (fun _ _ => rfl) (fun j hj => Function.update_of_ne hj ..)
    (fun j hj hkj => ?_) (fun j hj hkj => hj (Option.some.inj hkj).symm) (fun hw => ?_)
    (fun _ => h0) (fun _ => .inr h0) nofun
  · rw [hp]
    exact hh'
  · rw [hp] at hkj
    exact hj (Option.some.inj hkj).symm
  · rw [hp] at hw
    exact ⟨.inr (hw.fresh.resolve_left nofun), fun _ hn => (nomatch hn rfl),
      fun _ hn => (nomatch hn rfl), nofun, fun _ hn => (nomatch hn rfl)⟩

/-- A process that is done with `iput` gives up its reference. -/
theorem Inv.put (hI : Inv s) (hp : s.pc p = .iputRef i h) :
    Inv ((s.dropRef i h).goto p .user) := by
  have hat := hI.refs.at' p
  rw [hp] at hat
  have hputs : (s.pc p).puts h := by simp [hp, PC.puts]
  obtain ⟨h₁, h₂, -⟩ := hI.refs.alone p h hputs
  have hidle : Inv (s.goto p .user) := hI.idle (by rw [hp]; rfl) trivial rfl nofun nofun
  refine hidle.dropRef (s := s.goto p .user) hat.1 ⟨fun q => ?_, fun j x hx hxh => ?_⟩
  · by_cases hqp : q = p
    · rw [hqp, show (s.goto p .user).pc p = .user from Function.update_self ..]
      exact ⟨rfl, rfl⟩
    · rw [show (s.goto p .user).pc q = s.pc q from Function.update_of_ne hqp ..]
      refine ⟨?_, h₂ q⟩
      by_contra hq
      exact hqp (h₁ q (by simpa using hq))
  · refine hat.2 j x.1 ?_
    rw [← hxh]
    exact hx

omit [DecidableEq P] [Fintype P] [DecidableEq H] [Fintype H] in
theorem State.setCopy_self (s : State P n H) (i : Fin n) : s.setCopy i (s.copy i) = s := by
  simp [State.setCopy]

omit [Fintype P] [DecidableEq H] [Fintype H] in
theorem State.goto_self (hp : s.pc p = k) : s.goto p k = s := by
  subst hp
  simp [State.goto]

omit [Fintype P] in
/-- The loop of `itrunc`. -/
theorem Inv.itrunc {m : Nat} {put : Option H} {d : Dinode} (hI : Inv s)
    (hp : s.pc p = .itrunc i m put) (hd : d.type = (s.copy i).type)
    (hk : (∃ m', k = .itrunc i m' put) ∨ k = .itruncUpdate i put) :
    Inv ((s.setCopy i d).goto p k) := by
  have hat := hI.refs.at' p
  rw [hp] at hat
  obtain ⟨h, hl, hput⟩ := hat
  refine hI.edit hl (fun j hj hkj => ?_) (fun _ => by rw [hp]; rfl) (by rw [hp]; nofun) hd ?_
    (fun h' hh' => ?_) (fun h' => ?_) ?_ ?_ ?_ ?_
  · rw [hp] at hkj
    exact hj (Option.some.inj hkj).symm
  · obtain ⟨m', rfl⟩ | rfl := hk <;> exact ⟨h, hl, hput⟩
  · rw [hp]
    obtain ⟨m', rfl⟩ | rfl := hk <;> cases put <;> exact hh'
  · obtain ⟨m', rfl⟩ | rfl := hk <;> rfl
  · obtain ⟨m', rfl⟩ | rfl := hk <;> rfl
  · obtain ⟨m', rfl⟩ | rfl := hk <;> rfl
  · obtain ⟨m', rfl⟩ | rfl := hk <;> rfl
  · rw [hp]
    obtain ⟨m', rfl⟩ | rfl := hk <;> cases put <;> rfl

theorem Inv.go {ninodes : Nat} (hI : Inv s) (hs : s.go ninodes p = some s') : Inv s' := by
  have hat := hI.refs.at' p
  unfold State.go at hs
  split at hs
  next => cases hs
  next => cases hs
  next => cases hs
  next dev type inum hp =>
    rw [hp] at hat
    split at hs
    · split at hs
      next h0 =>
        obtain rfl := Option.some.inj hs
        exact hI.mark hp h0
      next =>
        obtain rfl := Option.some.inj hs
        exact hI.idle (by rw [hp]; rfl) hat rfl nofun nofun
    · obtain rfl := Option.some.inj hs
      exact hI.idle (by rw [hp]; rfl) trivial rfl nofun nofun
  next i h hp =>
    split at hs
    next hl =>
      obtain rfl := Option.some.inj hs
      exact hI.acquiresleep hp hl
    next => cases hs
  next i hp => exact hI.read hp hs
  next i hp =>
    obtain rfl := Option.some.inj hs
    rw [hp] at hat
    obtain ⟨h, hl⟩ := hat
    exact hI.written hl (by rw [hp]; rfl) (by rw [hp]; rfl) (by rw [hp]; nofun) trivial nofun
      (fun _ => rfl) nofun nofun (by rw [hp]; nofun) nofun
  next i j put hp =>
    split at hs
    next =>
      split at hs
      next =>
        obtain rfl := Option.some.inj hs
        rw [← s.setCopy_self i]
        exact hI.itrunc hp rfl (.inl ⟨j + 1, rfl⟩)
      next =>
        obtain rfl := Option.some.inj hs
        exact hI.itrunc hp rfl (.inl ⟨j + 1, rfl⟩)
    next =>
      obtain rfl := Option.some.inj hs
      exact hI.itrunc hp rfl (.inr rfl)
  next i hp =>
    obtain rfl := Option.some.inj hs
    rw [hp] at hat
    obtain ⟨h, hl, -⟩ := hat
    exact hI.written hl (by rw [hp]; rfl) (by rw [hp]; rfl) (by rw [hp]; nofun) trivial nofun
      (fun _ => rfl) nofun nofun (by rw [hp]; nofun) nofun
  next i h hp =>
    obtain rfl := Option.some.inj hs
    rw [hp] at hat
    obtain ⟨h', hl, hput⟩ := hat
    obtain rfl := hput h rfl
    exact hI.written hl (by rw [hp]; rfl) (by rw [hp]; rfl) (by rw [hp]; nofun) hl
      (fun h' hh' => by rw [hp]; exact hh') (fun _ => rfl)
      (fun j hj hkj => hj (Option.some.inj hkj).symm) nofun (fun _ => ⟨rfl, rfl⟩)
      fun _ => by rw [hp]; rfl
  next i h hp =>
    obtain rfl := Option.some.inj hs
    exact hI.erase hp
  next i h hp =>
    obtain rfl := Option.some.inj hs
    exact hI.erased hp
  next i h hp =>
    obtain rfl := Option.some.inj hs
    exact hI.invalid hp
  next i h hp =>
    obtain rfl := Option.some.inj hs
    exact hI.put hp

omit [Fintype P] in
/-- A process that holds a lock begins to change the entry. -/
theorem Inv.begin {d : Dinode} (hI : Inv s) (hp : s.pc p = .user) (hl : s.lock i = some (p, h))
    (hd : d.type = (s.copy i).type) (hk : k = .itrunc i 0 none ∨ k = .writei i ∨ k = .iupdate i) :
    Inv ((s.setCopy i d).goto p k) := by
  refine hI.edit hl (by rw [hp]; nofun) (by rw [hp]; nofun) (by rw [hp]; nofun) hd ?_
    (fun h' hh' => ?_) (fun h' => ?_) ?_ ?_ ?_ ?_
  · obtain rfl | rfl | rfl := hk
    · exact ⟨h, hl, nofun⟩
    · exact ⟨h, hl⟩
    · exact ⟨h, hl⟩
  · obtain rfl | rfl | rfl := hk <;> exact nomatch hh'
  · obtain rfl | rfl | rfl := hk <;> rfl
  · obtain rfl | rfl | rfl := hk <;> rfl
  · obtain rfl | rfl | rfl := hk <;> rfl
  · obtain rfl | rfl | rfl := hk <;> rfl
  · rw [hp]
    obtain rfl | rfl | rfl := hk <;> rfl

omit [Fintype P] [Fintype H] in
/-- What the first section of `iput` does. -/
theorem iput_cases (hs : s.iput p i h = some s') :
    (s.ref i = 1 ∧ s.valid i ∧ (s.copy i).nlink = 0 ∧ s.lock i = none ∧
      s' = ({ s with freed := (s.key i, s.allocs (s.key i)) :: s.freed }.acquiresleep p i h).goto p
        (.itrunc i 0 (some h))) ∨ s' = s.dropRef i h := by
  unfold State.iput at hs
  split at hs
  next hc =>
    split at hs
    next hl => exact .inl ⟨hc.1, hc.2.1, hc.2.2, hl, (Option.some.inj hs).symm⟩
    next => cases hs
  next => exact .inr (Option.some.inj hs).symm

theorem Inv.call {e : Event P n H} (hI : Inv s) (hp : s.pc p = .user)
    (hs : s.call p e = some s') : Inv s' := by
  cases e <;> simp only [State.call, reduceCtorEq] at hs
  case ialloc dev type =>
    split at hs
    next => cases hs
    next ht =>
      obtain rfl := Option.some.inj hs
      exact hI.idle (by rw [hp]; rfl) ht rfl nofun nofun
  case iget => exact (hI.iget hs).1
  case idup h h' =>
    split at hs
    next i hh =>
      split at hs
      next hc =>
        obtain rfl := Option.some.inj hs
        exact hI.addRef hc.1 (hI.refs.ref_pos hh)
      next => cases hs
    next => cases hs
  case ilock h =>
    split at hs
    next i hh =>
      split at hs
      next hput =>
        obtain rfl := Option.some.inj hs
        refine hI.idle (by rw [hp]; rfl) hh rfl nofun fun h' hw => ?_
        obtain rfl : h = h' := by simpa [PC.waits] using hw
        exact hput
      next => cases hs
    next => cases hs
  case iunlock h =>
    split at hs
    next i hh =>
      split at hs
      next hl =>
        obtain rfl := Option.some.inj hs
        exact hI.releasesleep hp hl
      next => cases hs
    next => cases hs
  case iput h =>
    split at hs
    next i hh =>
      split at hs
      next hun =>
        obtain ⟨-, hv, -, hl, rfl⟩ | rfl := iput_cases hs
        · exact hI.free hp hh hun hv hl
        · exact hI.dropRef hh hun
      next => cases hs
    next => cases hs
  case itrunc h =>
    split at hs
    next i hh =>
      split at hs
      next hl =>
        obtain rfl := Option.some.inj hs
        rw [← s.setCopy_self i]
        exact hI.begin hp hl rfl (.inl rfl)
      next => cases hs
    next => cases hs
  case writei h =>
    split at hs
    next i hh =>
      split at hs
      next hl =>
        obtain rfl := Option.some.inj hs
        rw [← s.setCopy_self i]
        exact hI.begin hp hl rfl (.inr (.inl rfl))
      next => cases hs
    next => cases hs
  case update h major minor nlink =>
    split at hs
    next i hh =>
      split at hs
      next hl =>
        obtain rfl := Option.some.inj hs
        exact hI.begin hp hl rfl (.inr (.inr rfl))
      next => cases hs
    next => cases hs

omit [Fintype P] in
/-- In the loop of `writei` and at its end. -/
theorem Inv.writei {d : Dinode} (hI : Inv s) (hp : s.pc p = .writei i)
    (hd : d.type = (s.copy i).type) (hk : k = .writei i ∨ k = .iupdate i) :
    Inv ((s.setCopy i d).goto p k) := by
  have hat := hI.refs.at' p
  rw [hp] at hat
  obtain ⟨h, hl⟩ := hat
  refine hI.edit hl (fun j hj hkj => ?_) (fun _ => by rw [hp]; rfl) (by rw [hp]; nofun) hd ?_
    (fun h' hh' => ?_) (fun h' => ?_) ?_ ?_ ?_ ?_
  · rw [hp] at hkj
    exact hj (Option.some.inj hkj).symm
  · obtain rfl | rfl := hk <;> exact ⟨h, hl⟩
  · obtain rfl | rfl := hk <;> exact nomatch hh'
  · obtain rfl | rfl := hk <;> rfl
  · obtain rfl | rfl := hk <;> rfl
  · obtain rfl | rfl := hk <;> rfl
  · obtain rfl | rfl := hk <;> rfl
  · rw [hp]
    obtain rfl | rfl := hk <;> rfl

omit [Fintype P] in
theorem Inv.write {e : Event P n H} (hI : Inv s) (hp : s.pc p = .writei i)
    (hs : s.write p i e = some s') : Inv s' := by
  cases e <;> simp only [State.write, reduceCtorEq] at hs
  case bmap j addr =>
    split at hs
    next =>
      obtain rfl := Option.some.inj hs
      rw [← State.goto_self (s := s.setCopy i _) (p := p) (k := .writei i) hp]
      exact hI.writei hp rfl (.inl rfl)
    next => cases hs
  case wrote off =>
    obtain rfl := Option.some.inj hs
    exact hI.writei hp rfl (.inr rfl)

theorem Inv.next {ninodes : Nat} {e : Event P n H} (hI : Inv s)
    (hs : (machine P n H ninodes).next s e = some s') : Inv s' := by
  simp only [machine] at hs
  split at hs
  next hp => exact hI.call hp hs
  next i hp => exact hI.write hp hs
  next dev inum hp =>
    split at hs
    next p h =>
      obtain ⟨s₁, hs₁, rfl⟩ := Option.map_eq_some_iff.1 hs
      obtain ⟨hI₁, hpc⟩ := hI.iget hs₁
      refine hI₁.idle ?_ trivial rfl nofun nofun
      rw [hpc, show s.pc p = _ from hp]
      rfl
    next => cases hs
  next =>
    split at hs
    next p => exact hI.go hs
    next => cases hs

theorem Inv.reachable {ninodes : Nat} (h : (machine P n H ninodes).Reachable s) : Inv s :=
  h.invariant (fun _ hi => Inv.initial hi) fun _ _ _ hI hs => Inv.next hI hs

/-! ## What a step writes and frees -/

/-- `iupdate` on entry `i` is next. -/
def PC.updates (i : Fin n) : PC n H → Prop
  | .iupdate j | .itruncUpdate j _ | .iputUpdate j _ => j = i
  | _ => False

/-- The changes that a step makes to the inode blocks, and what it frees. -/
inductive Effect (s s' : State P n H) (e : Event P n H) : Prop where
  | none (hdisk : s'.dinode = s.dinode) (hfreed : s'.freed = s.freed)
  | mark (p : P) (dev : Nat) (type : Int) (inum : Nat) (hp : s.pc p = .ialloc dev type inum)
      (hdisk : s'.dinode = Function.update s.dinode (dev, inum) (.ofType type))
      (hfreed : s'.freed = s.freed)
  | write (p : P) (i : Fin n) (hp : (s.pc p).updates i)
      (hdisk : s'.dinode = Function.update s.dinode (s.key i) (s.copy i))
      (hfreed : s'.freed = s.freed)
  | free (p : P) (h : H) (i : Fin n) (he : e = .iput p h) (hh : s.handle h = some i)
      (href : s.ref i = 1) (hnlink : (s.copy i).nlink = 0) (hl : s.lock i = .none)
      (hun : s.Unused h) (hdisk : s'.dinode = s.dinode)
      (hfreed : s'.freed = (s.key i, s.allocs (s.key i)) :: s.freed)
      (hp : s'.pc p = .itrunc i 0 (some h))

omit [Fintype H] in
theorem go_effect {ninodes : Nat} {e : Event P n H} (hs : s.go ninodes p = some s') :
    Effect s s' e := by
  unfold State.go at hs
  split at hs
  next => cases hs
  next => cases hs
  next => cases hs
  next dev type inum hp =>
    split at hs
    · split at hs <;> obtain rfl := Option.some.inj hs
      · exact .mark p dev type inum hp rfl rfl
      · exact .none rfl rfl
    · obtain rfl := Option.some.inj hs
      exact .none rfl rfl
  next =>
    split at hs
    next =>
      obtain rfl := Option.some.inj hs
      exact .none rfl rfl
    next => cases hs
  next =>
    split at hs
    · obtain rfl := Option.some.inj hs
      exact .none rfl rfl
    · split at hs
      next => cases hs
      next =>
        obtain rfl := Option.some.inj hs
        exact .none rfl rfl
  next i hp =>
    obtain rfl := Option.some.inj hs
    exact .write p i (by rw [hp]; rfl) rfl rfl
  next =>
    split at hs
    · split at hs <;> obtain rfl := Option.some.inj hs <;> exact .none rfl rfl
    · obtain rfl := Option.some.inj hs
      exact .none rfl rfl
  next i hp =>
    obtain rfl := Option.some.inj hs
    exact .write p i (by rw [hp]; rfl) rfl rfl
  next i h hp =>
    obtain rfl := Option.some.inj hs
    exact .write p i (by rw [hp]; rfl) rfl rfl
  next =>
    obtain rfl := Option.some.inj hs
    exact .none rfl rfl
  next i h hp =>
    obtain rfl := Option.some.inj hs
    exact .write p i (by rw [hp]; rfl) rfl rfl
  next =>
    obtain rfl := Option.some.inj hs
    exact .none rfl rfl
  next =>
    obtain rfl := Option.some.inj hs
    exact .none rfl rfl

omit [DecidableEq P] [Fintype P] [Fintype H] in
theorem iget_frame {dev inum : Nat} (hs : s.iget dev inum h = some s') :
    s'.dinode = s.dinode ∧ s'.freed = s.freed := by
  unfold State.iget at hs
  split at hs
  next =>
    split at hs
    next =>
      obtain rfl := Option.some.inj hs
      exact ⟨rfl, rfl⟩
    next =>
      split at hs
      next =>
        obtain rfl := Option.some.inj hs
        exact ⟨rfl, rfl⟩
      next => cases hs
  next => cases hs

omit [Fintype H] in
theorem call_effect {e : Event P n H} (he : e.process = p) (hs : s.call p e = some s') :
    Effect s s' e := by
  cases e with
  | go | ialloced | bmap | wrote => cases hs
  | ialloc _ dev type =>
    unfold State.call at hs
    dsimp only at hs
    split at hs
    next => cases hs
    next =>
      obtain rfl := Option.some.inj hs
      exact .none rfl rfl
  | iget _ dev inum h => exact .none (iget_frame hs).1 (iget_frame hs).2
  | iput q h =>
    obtain rfl : q = p := he
    unfold State.call at hs
    dsimp only at hs
    split at hs
    next i hh =>
      split at hs
      next hun =>
        obtain ⟨href, -, hnlink, hl, rfl⟩ | rfl := iput_cases hs
        · exact .free q h i rfl hh href hnlink hl hun rfl rfl (Function.update_self ..)
        · exact .none rfl rfl
      next => cases hs
    next => cases hs
  | idup | ilock | iunlock | itrunc | writei | update =>
    unfold State.call at hs
    dsimp only at hs
    split at hs
    next =>
      split at hs
      next =>
        obtain rfl := Option.some.inj hs
        exact .none rfl rfl
      next => cases hs
    next => cases hs

omit [Fintype H] in
theorem next_effect {ninodes : Nat} {e : Event P n H}
    (hs : (machine P n H ninodes).next s e = some s') : Effect s s' e := by
  simp only [machine] at hs
  split at hs
  next => exact call_effect rfl hs
  next i hp =>
    cases e <;> simp only [State.write, reduceCtorEq] at hs
    case bmap =>
      split at hs
      next =>
        obtain rfl := Option.some.inj hs
        exact .none rfl rfl
      next => cases hs
    case wrote =>
      obtain rfl := Option.some.inj hs
      exact .none rfl rfl
  next =>
    split at hs
    next =>
      obtain ⟨s₁, hs₁, rfl⟩ := Option.map_eq_some_iff.1 hs
      exact .none (iget_frame hs₁).1 (iget_frame hs₁).2
    next => cases hs
  next =>
    split at hs
    next => exact go_effect hs
    next => cases hs

omit [DecidableEq P] in
/-- A reference that is the last, in a handle that no process uses: none holds
or waits for the lock. -/
theorem Refs.last (hr : Refs s) (href : s.ref i = 1) (hh : s.handle h = some i)
    (hun : s.Unused h) : ∀ q h', s.pc q ≠ .ilock i h' := fun q h' hq => by
  have hat : s.handle h' = some i := by
    have hat := hr.at' q
    rwa [hq] at hat
  have hone : (Finset.univ.filter fun h => s.handle h = some i).card ≤ 1 :=
    Nat.le_of_eq ((hr.count i).symm.trans href)
  obtain rfl : h' = h := Finset.card_le_one.1 hone h' (by simpa using hat) h (by simpa using hh)
  have hno := (hun.1 q).2
  rw [hq] at hno
  simp [PC.waits] at hno

omit [DecidableEq P] [Fintype P] in
/-- Only the last step of `iput` in the block writes the type zero. -/
theorem Inv.updates_type (hI : Inv s) (hp : (s.pc p).updates i)
    (h0 : (s.copy i).type = 0) : ∃ h, s.pc p = .iputUpdate i h := by
  have hpi : (s.pc p).entry = some i := by
    cases hk : s.pc p <;> rw [hk] at hp <;> first | exact hp.elim | exact congrArg some hp
  obtain ⟨h, hl⟩ := (hI.refs.at' p).locked hpi
  have hw := (entry_iff_works hl).1 (hI.entry i (hI.refs.entry_pos hpi))
  by_contra hn
  have hread : s.pc p ≠ .ilockRead i := fun hk => by
    rw [hk] at hp
    exact hp
  refine hw.copyType (hw.fresh.resolve_left hread) (fun _ => ?_) h0
  cases hk : s.pc p with
  | iputUpdate j h' =>
    rw [hk] at hp
    obtain rfl : j = i := hp
    exact absurd ⟨h', hk⟩ hn
  | iputInvalid j h' =>
    rw [hk] at hp
    exact hp.elim
  | _ => rfl

/-- In every run, no inode has two entries with references; an entry that is
valid and not locked agrees with the block; an inode is freed at most once for
each allocation, and only by an `iput` that has the only reference, with no
links left and no process that holds or waits for the lock; and when `ialloc`
takes an inode, no entry of it is valid, but for one that `iput` has just freed
and is about to invalidate, and no process is to write it. -/
theorem inodes_coherent {ninodes : Nat} (h : (machine P n H ninodes).Reachable s) :
    (∀ i j, 0 < s.ref i → 0 < s.ref j → s.key i = s.key j → i = j) ∧
    (∀ i, 0 < s.ref i → s.valid i → s.lock i = none → s.copy i = s.dinode (s.key i)) ∧
    s.freed.Nodup ∧
    (∀ p i, (s.pc p).entry = some i → (s.pc p).freeing →
      (s.key i, s.allocs (s.key i)) ∈ s.freed) ∧
    (∀ e s', (machine P n H ninodes).next s e = some s' →
      (s'.freed = s.freed ∨ ∃ p h i, e = .iput p h ∧ s.handle h = some i ∧ s.ref i = 1 ∧
        (s.copy i).nlink = 0 ∧ s.lock i = none ∧ (∀ q h', s.pc q ≠ .ilock i h') ∧
        s'.freed = (s.key i, s.allocs (s.key i)) :: s.freed ∧ s'.pc p = .itrunc i 0 (some h)) ∧
      ∀ x, (s.dinode x).type ≠ 0 → (s'.dinode x).type = 0 →
        ∃ p i h, s.key i = x ∧ s.pc p = .iputUpdate i h) ∧
    ∀ p dev type inum, s.pc p = .ialloc dev type inum → (s.dinode (dev, inum)).type = 0 →
      ∀ i, 0 < s.ref i → s.key i = (dev, inum) →
        (s.valid i = false ∨ ∃ q h, s.lock i = some (q, h) ∧ s.pc q = .iputInvalid i h) ∧
        ∀ q, (s.pc q).entry = some i → s.pc q = .ilockRead i ∨ ∃ h, s.pc q = .iputInvalid i h := by
  have hI := Inv.reachable h
  refine ⟨hI.refs.keys, fun i hi hv hl => ?_, hI.freed.once, hI.freed.now, fun e s' hs => ?_,
    fun p dev type inum _ h0 i hi hk => ?_⟩
  · exact ((entry_unlocked hl).1 (hI.entry i hi) hv).1
  · cases next_effect hs with
    | none hdisk hfreed =>
      exact ⟨.inl hfreed, fun x hx h0 => absurd (hdisk ▸ h0) hx⟩
    | mark p dev type inum hp hdisk hfreed =>
      refine ⟨.inl hfreed, fun x hx h0 => ?_⟩
      have hat := hI.refs.at' p
      rw [hp] at hat
      rw [hdisk] at h0
      by_cases hxk : x = (dev, inum)
      · rw [hxk, Function.update_self] at h0
        exact absurd h0 hat
      · rw [Function.update_of_ne hxk] at h0
        exact absurd h0 hx
    | write p i hp hdisk hfreed =>
      refine ⟨.inl hfreed, fun x hx h0 => ?_⟩
      rw [hdisk] at h0
      by_cases hxk : x = s.key i
      · rw [hxk, Function.update_self] at h0
        obtain ⟨h', hp'⟩ := hI.updates_type hp h0
        exact ⟨p, i, h', hxk.symm, hp'⟩
      · rw [Function.update_of_ne hxk] at h0
        exact absurd h0 hx
    | free p h' i he hh href hnlink hl hun hdisk hfreed hp =>
      exact ⟨.inr ⟨p, h', i, he, hh, href, hnlink, hl, hI.refs.last href hh hun, hfreed, hp⟩,
        fun x hx h0 => absurd (hdisk ▸ h0) hx⟩
  · have hfree := hI.free_entry hi (hk ▸ h0)
    refine ⟨hfree, fun q hq => ?_⟩
    obtain ⟨h', hl⟩ := (hI.refs.at' q).locked hq
    rcases hfree with hv | ⟨u, h'', hu, hp⟩
    · exact .inl (((hI.entry i hi).fresh q h' hl).resolve_right (by simp [hv]))
    · obtain ⟨rfl, -⟩ := Prod.mk.inj (Option.some.inj (hl.symm.trans hu))
      exact .inr ⟨h'', hp⟩

/-- One inode, which is free, and an empty table. -/
def booted : State Bool 2 (Fin 2) where
  dev _ := 0
  inum _ := 0
  ref _ := 0
  lock _ := none
  valid _ := false
  copy _ := .ofType 0
  dinode _ := .ofType 0
  pc _ := .user
  handle _ := none
  allocs _ := 0
  freed := []

/-- A process allocates the inode, locks it and gives it up; before its `iput`
is done, another allocates the inode again and revives the entry. -/
def revival : List (Event Bool 2 (Fin 2)) :=
  [.ialloc false 1 2, .go false, .ialloced false 0, .ilock false 0, .go false, .go false,
    .iunlock false 0, .iput false 0] ++ List.replicate 18 (.go false) ++
    [.ialloc true 1 3, .go true, .ialloced true 1, .go false]

theorem inodes_coherent_revival : ∃ s, (machine Bool 2 (Fin 2) 2).exec booted revival = some s ∧
    (s.freed, s.ref 0, s.allocs (1, 1)) = ([((1, 1), 1)], 1, 2) ∧
    (∀ i j, 0 < s.ref i → 0 < s.ref j → s.key i = s.key j → i = j) ∧
    (∀ i, 0 < s.ref i → s.valid i → s.lock i = none → s.copy i = s.dinode (s.key i)) ∧
    s.freed.Nodup := by
  have hrun : ((machine Bool 2 (Fin 2) 2).exec booted revival).map (fun s => (s.freed, s.ref 0,
      s.allocs (1, 1))) = some ([((1, 1), 1)], 1, 2) := by
    decide +kernel
  obtain ⟨s, hs, hr⟩ := Option.map_eq_some_iff.1 hrun
  obtain ⟨h₁, h₂, h₃, -⟩ := inodes_coherent (s := s) ⟨booted, revival,
    ⟨fun _ => ⟨rfl, rfl⟩, fun _ => rfl, fun _ => rfl, rfl⟩, hs⟩
  exact ⟨s, hs, hr, h₁, h₂, h₃⟩

end Xv6.InodeTable
