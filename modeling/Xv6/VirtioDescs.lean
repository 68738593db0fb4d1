/-
virtio_disk.c: which process owns which descriptors, and holds which locks.

A process in `virtio_disk_rw` owns the three descriptors of its chain until it
frees them; the others are free. `alloc3_desc` and `free_chain` are given by
what they do to the free ones.
-/
import Xv6.VirtioDisk
import Mathlib.Data.List.Perm.Basic
import Mathlib.Data.List.NodupEquivFin
import Mathlib.Tactic.Common

namespace Xv6.VirtioDisk

open Conc

variable {P C B : Type}

namespace PC

/-- The call that the process is in. -/
def call : PC B → Option (Call B)
  | .user => none
  | .acquire r | .alloc r | .sleepFree r | .format r _ | .ring r _ _ | .publish r _ _
  | .wait r _ _ | .sleepBuf r _ _ | .finish r _ _ | .release r _ => some r

/-- The descriptors that the process owns. -/
def chain : PC B → List Nat
  | .format _ idx | .ring _ idx _ | .publish _ idx _ | .wait _ idx _ | .sleepBuf _ idx _
  | .finish _ idx _ => idx.toList
  | _ => []

/-- The request whose descriptors the process has filled in. -/
def formatted : PC B → Option (Call B × Chain × Nat)
  | .ring r idx k | .publish r idx k | .wait r idx k | .sleepBuf r idx k | .finish r idx k =>
    some (r, idx, k)
  | _ => none

/-- The request that the process waits for. -/
def waiting : PC B → Option (Call B × Chain × Nat)
  | .wait r idx k | .sleepBuf r idx k => some (r, idx, k)
  | _ => none

/-- The request that the process has not published. -/
def unpublished : PC B → Option (Call B × Nat)
  | .ring r _ k | .publish r _ k => some (r, k)
  | _ => none

/-- The request that the process has seen to be over. -/
def ended : PC B → Option Nat
  | .finish _ _ k | .release _ k => some k
  | _ => none

/-- The process holds `disk.vdisk_lock`. -/
def holds : PC B → Bool
  | .user | .acquire _ | .sleepFree _ | .sleepBuf _ _ _ => false
  | _ => true

theorem formatted_of_waiting {pc : PC B} {x : Call B × Chain × Nat} (h : pc.waiting = some x) :
    pc.formatted = some x := by
  cases pc <;> first | exact h | cases h

theorem unpublished_of_waiting {pc : PC B} {x : Call B × Chain × Nat} (h : pc.waiting = some x) :
    pc.unpublished = none := by
  cases pc <;> first | rfl | cases h

theorem chain_of_formatted {pc : PC B} {r : Call B} {idx : Chain} {k : Nat}
    (h : pc.formatted = some (r, idx, k)) : pc.chain = idx.toList ∧ pc.call = some r := by
  cases pc <;> cases h <;> exact ⟨rfl, rfl⟩

end PC

/-- The handler of a CPU holds `disk.vdisk_lock`. -/
def Intr.holds : Intr → Bool
  | .none | .acquire => false
  | _ => true

/-! ## The invariant -/

/-- The descriptors of a request are as `virtio_disk_rw` has filled them in. -/
structure Formatted (s : State P C B) (r : Call B) (idx : Chain) (k : Nat) : Prop where
  ops : s.ops idx.head =
    ⟨if r.write then VIRTIO_BLK_T_OUT else VIRTIO_BLK_T_IN, 0, r.sector⟩
  head : s.desc idx.head = ⟨.ops idx.head, 16, VRING_DESC_F_NEXT, idx.data⟩
  data : s.desc idx.data = ⟨.data r.b, BSIZE,
    (if r.write then 0 else VRING_DESC_F_WRITE) ||| VRING_DESC_F_NEXT, idx.status⟩
  status : s.desc idx.status = ⟨.status idx.head, 1, VRING_DESC_F_WRITE, 0⟩
  info : s.info idx.head = some r.b
  number : s.number idx.head = k
  count : k < s.count

/-- Who owns which descriptors. -/
structure Descs (s : State P C B) : Prop where
  chain : ∀ p, (s.pc p).chain.Nodup ∧ ∀ i ∈ (s.pc p).chain, i < NUM ∧ s.free i = false
  disjoint : ∀ p q i, i ∈ (s.pc p).chain → i ∈ (s.pc q).chain → p = q
  free : ∀ i, i < NUM → s.free i = false → ∃ p, i ∈ (s.pc p).chain
  formatted : ∀ p r idx k, (s.pc p).formatted = some (r, idx, k) → Formatted s r idx k
  number : ∀ p q x y, (s.pc p).formatted = some x → (s.pc q).formatted = some y →
    x.2.2 = y.2.2 → p = q

/-- Who holds which locks. -/
structure Locks (s : State P C B) : Prop where
  proc : ∀ p, (s.pc p).holds → s.vdiskLock = some (.inl p)
  intr : ∀ c, (s.intr c).holds → s.vdiskLock = some (.inr c)
  buf : ∀ p r, (s.pc p).call = some r → s.lock r.b = some p

variable {s s' : State P C B} {p q : P} {c : C} {r : Call B} {idx : Chain} {i k : Nat}
  {A U : List Nat}

/-! ## Locks -/

theorem Locks.congr (h : Locks s) (hv : s'.vdiskLock = s.vdiskLock) (hl : s'.lock = s.lock)
    (hpc : ∀ q, ((s'.pc q).holds → (s.pc q).holds) ∧
      ∀ r, (s'.pc q).call = some r → (s.pc q).call = some r)
    (hintr : ∀ c, (s'.intr c).holds → (s.intr c).holds) : Locks s' where
  proc q hq := hv ▸ h.proc q ((hpc q).1 hq)
  intr c hc := hv ▸ h.intr c (hintr c hc)
  buf q r hr := hl ▸ h.buf q r ((hpc q).2 r hr)

theorem Locks.only (h : Locks s) (hp : (s.pc p).holds) (hq : (s.pc q).holds) : q = p :=
  Sum.inl.inj (Option.some.inj ((h.proc q hq).symm.trans (h.proc p hp)))

theorem Locks.no_intr (h : Locks s) (hp : (s.pc p).holds) (c : C) : (s.intr c).holds = false := by
  cases hc : (s.intr c).holds with
  | false => rfl
  | true => exact nomatch (h.intr c hc).symm.trans (h.proc p hp)

/-- Two processes are in a call for different buffers. -/
theorem Locks.buf_inj (h : Locks s) {r' : Call B} (hp : (s.pc p).call = some r)
    (hq : (s.pc q).call = some r') (hb : r'.b = r.b) : q = p := by
  have h₁ := h.buf p r hp
  have h₂ := h.buf q r' hq
  rw [hb] at h₂
  exact Option.some.inj (h₂.symm.trans h₁)

section

variable [DecidableEq P]

/-- A property of the places of the processes after one of them has moved. -/
theorem forall_update {pc : P → PC B} {p : P} {x : PC B} {R : P → PC B → Prop} (hp : R p x)
    (h : ∀ q, q ≠ p → R q (pc q)) : ∀ q, R q (Function.update pc p x q) := fun q => by
  by_cases hq : q = p
  · rw [hq, Function.update_self]
    exact hp
  · rw [Function.update_of_ne hq]
    exact h q hq

/-- A process that holds the lock goes on. -/
theorem Locks.goto (h : Locks s) {pc : PC B} (hv : s'.vdiskLock = s.vdiskLock)
    (hl : s'.lock = s.lock) (hintr : s'.intr = s.intr) (hpc : s'.pc = Function.update s.pc p pc)
    (hh : (s.pc p).holds) (hcall : pc.call = (s.pc p).call) : Locks s' := by
  refine h.congr hv hl ?_ fun c => hintr ▸ id
  rw [hpc]
  exact forall_update (R := fun q x => (x.holds → (s.pc q).holds) ∧
    ∀ r, x.call = some r → (s.pc q).call = some r)
    ⟨fun _ => hh, fun r hr => hcall ▸ hr⟩ fun q _ => ⟨id, fun r => id⟩

/-- A process takes the lock. -/
theorem Locks.take (h : Locks s) {pc : PC B} (hv : s.vdiskLock = none)
    (hv' : s'.vdiskLock = some (.inl p)) (hl : s'.lock = s.lock) (hintr : s'.intr = s.intr)
    (hpc : s'.pc = Function.update s.pc p pc) (hcall : pc.call = (s.pc p).call) : Locks s' where
  proc := by
    rw [hpc]
    refine forall_update (R := fun q x => x.holds → s'.vdiskLock = some (.inl q)) (fun _ => hv')
      fun q _ hq => ?_
    exact nomatch hv.symm.trans (h.proc q hq)
  intr c hc := by
    rw [hintr] at hc
    exact nomatch hv.symm.trans (h.intr c hc)
  buf := by
    rw [hpc, hl]
    exact forall_update (R := fun q x => ∀ r, x.call = some r → s.lock r.b = some q)
      (fun r hr => h.buf p r (hcall ▸ hr)) fun q _ => h.buf q

/-- A process gives up the lock. -/
theorem Locks.drop (h : Locks s) {pc : PC B} (hl : s'.lock = s.lock) (hintr : s'.intr = s.intr)
    (hpc : s'.pc = Function.update s.pc p pc) (hh : (s.pc p).holds) (hh' : pc.holds = false)
    (hcall : ∀ r, pc.call = some r → (s.pc p).call = some r) : Locks s' where
  proc := by
    rw [hpc]
    refine forall_update (R := fun q x => x.holds → s'.vdiskLock = some (.inl q))
      (fun hq => absurd hq (by simp [hh'])) fun q hqp hq => ?_
    exact absurd (Sum.inl.inj (Option.some.inj ((h.proc q hq).symm.trans (h.proc p hh)))) hqp
  intr c hc := by
    rw [hintr] at hc
    exact nomatch (h.intr c hc).symm.trans (h.proc p hh)
  buf := by
    rw [hpc, hl]
    exact forall_update (R := fun q x => ∀ r, x.call = some r → s.lock r.b = some q)
      (fun r hr => h.buf p r (hcall r hr)) fun q _ => h.buf q

end

/-! ## Taking and freeing descriptors -/

section

variable [DecidableEq P] [DecidableEq C] [DecidableEq B]

/-- Only descriptors and processes that sleep may differ. -/
def Same (s s' : State P C B) : Prop :=
  ∃ free desc chan, s' = { s with free := free, desc := desc, chan := chan }

omit [DecidableEq P] [DecidableEq C] [DecidableEq B] in
theorem Same.trans {s₁ s₂ s₃ : State P C B} (h : Same s₁ s₂) (h' : Same s₂ s₃) : Same s₁ s₃ := by
  obtain ⟨free, desc, chan, rfl⟩ := h
  obtain ⟨free, desc, chan, rfl⟩ := h'
  exact ⟨free, desc, chan, rfl⟩

omit [DecidableEq P] [DecidableEq C] in
theorem free_desc_ok (hi : i < NUM) (hf : s.free i = false) :
    s.free_desc i = .ok (({ s with
      desc := Function.update s.desc i ⟨.null, 0, 0, 0⟩
      free := Function.update s.free i true }).wakeup .free) := by
  rw [State.free_desc, if_neg (Nat.not_le.2 hi), if_neg (by simp [hf])]

omit [DecidableEq P] [DecidableEq C] in
/-- Freeing descriptors that are not free. -/
theorem freeDescs_ok {l : List Nat} (hl : l.Nodup) (h : ∀ i ∈ l, i < NUM ∧ s.free i = false) :
    ∃ s', s.freeDescs l = .ok s' ∧ Same s s' ∧ (∀ i, s'.free i = (s.free i || decide (i ∈ l))) ∧
      ∀ i, i ∉ l → s'.desc i = s.desc i := by
  induction l generalizing s with
  | nil => exact ⟨s, rfl, ⟨_, _, _, rfl⟩, fun i => by simp, fun i _ => rfl⟩
  | cons i l ih =>
    obtain ⟨hil, hl⟩ := List.nodup_cons.1 hl
    obtain ⟨hi, hf⟩ := h i List.mem_cons_self
    let s₁ := ({ s with
      desc := Function.update s.desc i ⟨.null, 0, 0, 0⟩
      free := Function.update s.free i true } : State P C B).wakeup .free
    have h₁ : ∀ j ∈ l, j < NUM ∧ s₁.free j = false := fun j hj => by
      have hji : j ≠ i := fun e => hil (e ▸ hj)
      refine ⟨(h j (List.mem_cons_of_mem i hj)).1, ?_⟩
      show Function.update s.free i true j = false
      rw [Function.update_of_ne hji]
      exact (h j (List.mem_cons_of_mem i hj)).2
    obtain ⟨s', hs', hsame, hfree, hdesc⟩ := ih hl h₁
    refine ⟨s', ?_, Same.trans ⟨_, _, _, rfl⟩ hsame, fun j => ?_, fun j hj => ?_⟩
    · rw [State.freeDescs, free_desc_ok hi hf]
      exact hs'
    · rw [hfree j]
      show (Function.update s.free i true j || decide (j ∈ l)) = _
      by_cases hji : j = i
      · simp [hji]
      · rw [Function.update_of_ne hji]
        simp [hji]
    · rw [List.mem_cons, not_or] at hj
      obtain ⟨hji, hjl⟩ := hj
      rw [hdesc j hjl]
      exact Function.update_of_ne hji _ _

omit [DecidableEq P] [DecidableEq C] in
theorem freeChainLoop_succ {fuel : Nat} {s₁ : State P C B} (h : s.free_desc i = .ok s₁) :
    State.freeChainLoop (fuel + 1) s i = if (s.desc i).flags &&& VRING_DESC_F_NEXT ≠ 0 then
      State.freeChainLoop fuel s₁ (s.desc i).next else .ok s₁ := by
  simp only [State.freeChainLoop, h]

omit [DecidableEq P] [DecidableEq C] in
/-- `free_chain` frees the descriptors of a request. -/
theorem free_chain_eq {s₀ : State P C B} (h : Formatted s₀ r idx k) (hd : s.desc = s₀.desc)
    (hl : idx.toList.Nodup) (hf : ∀ i ∈ idx.toList, i < NUM ∧ s.free i = false) :
    s.free_chain idx.head = s.freeDescs idx.toList := by
  obtain ⟨i, j, m⟩ := idx
  obtain ⟨hi, hfi⟩ := hf i (by simp [Chain.toList])
  obtain ⟨hj, hfj⟩ := hf j (by simp [Chain.toList])
  obtain ⟨hm, hfm⟩ := hf m (by simp [Chain.toList])
  have hne : j ≠ i ∧ m ≠ i ∧ m ≠ j := by
    simp [Chain.toList] at hl
    exact ⟨Ne.symm hl.1.1, Ne.symm hl.1.2, Ne.symm hl.2⟩
  have hflag : ((if r.write then 0 else VRING_DESC_F_WRITE) ||| VRING_DESC_F_NEXT) &&&
      VRING_DESC_F_NEXT ≠ 0 := by
    cases r.write <;> decide
  let s₁ := ({ s with
    desc := Function.update s.desc i ⟨.null, 0, 0, 0⟩
    free := Function.update s.free i true } : State P C B).wakeup .free
  let s₂ := ({ s₁ with
    desc := Function.update s₁.desc j ⟨.null, 0, 0, 0⟩
    free := Function.update s₁.free j true } : State P C B).wakeup .free
  have h₁ : s.free_desc i = .ok s₁ := free_desc_ok hi hfi
  have h₂ : s₁.free_desc j = .ok s₂ :=
    free_desc_ok hj ((Function.update_of_ne hne.1 _ _).trans hfj)
  have hd₁ : s₁.desc j = s.desc j := Function.update_of_ne hne.1 _ _
  have hd₂ : s₂.desc m = s.desc m :=
    (Function.update_of_ne hne.2.2 _ _).trans (Function.update_of_ne hne.2.1 _ _)
  have h₃ := free_desc_ok hm (s := s₂)
    ((Function.update_of_ne hne.2.2 _ _).trans ((Function.update_of_ne hne.2.1 _ _).trans hfm))
  -- one turn of the loop for each descriptor
  show State.freeChainLoop (6 + 1 + 1 + 1) s i = _
  have hhead : VRING_DESC_F_NEXT &&& VRING_DESC_F_NEXT ≠ 0 := by decide
  have hlast : ¬VRING_DESC_F_WRITE &&& VRING_DESC_F_NEXT ≠ 0 := by decide
  rw [freeChainLoop_succ h₁, hd, h.head, if_pos hhead, freeChainLoop_succ h₂, hd₁, hd, h.data,
    if_pos hflag, freeChainLoop_succ h₃, hd₂, hd, h.status, if_neg hlast]
  simp only [Chain.toList, State.freeDescs, h₁, h₂, h₃]

/-! ### `alloc3_desc` -/

/-- The free descriptors of `s`, but for those in `l`, are free in `s'`. -/
def Allocated (s s' : State P C B) (l : List Nat) : Prop :=
  l.Nodup ∧ (∀ i ∈ l, i < NUM ∧ s.free i = true) ∧
    s' = { s with free := fun i => s.free i && !decide (i ∈ l) }

/-- Nothing but descriptors that are free has changed. -/
def RolledBack (s s' : State P C B) : Prop :=
  Same s s' ∧ s'.free = s.free ∧ ∀ i, s.free i = false → s'.desc i = s.desc i

omit [DecidableEq P] [DecidableEq C] in
theorem allocLoop_spec {n : Nat} {l : List Nat} {s₀ : State P C B} (h : Allocated s₀ s l) :
    (∃ s' l', State.allocLoop n s l = .ok (s', some l') ∧ Allocated s₀ s' l' ∧
      l'.length = l.length + n) ∨
    ∃ s', State.allocLoop n s l = .ok (s', none) ∧ RolledBack s₀ s' := by
  induction n generalizing s l with
  | zero => exact .inl ⟨s, l, rfl, h, rfl⟩
  | succ n ih =>
    obtain ⟨hl, hi, rfl⟩ := h
    simp only [State.allocLoop, State.alloc_desc]
    split
    next s₁ i hs₁ =>
      split at hs₁
      next j hj =>
        obtain ⟨rfl, hji⟩ := Prod.mk.inj hs₁
        obtain rfl := Option.some.inj hji
        have hfree := List.find?_some hj
        have hlt := List.mem_range.1 (List.mem_of_find?_eq_some hj)
        simp only [Bool.and_eq_true, Bool.not_eq_true', decide_eq_false_iff_not] at hfree
        have hnext : Allocated s₀ { s₀ with
            free := Function.update (fun i => s₀.free i && !decide (i ∈ l)) j false }
            (l ++ [j]) := by
          refine ⟨?_, ?_, ?_⟩
          · rw [List.nodup_append]
            simp [hl]
            exact fun a ha e => hfree.2 (e ▸ ha)
          · intro a ha
            rcases List.mem_append.1 ha with ha | ha
            · exact hi a ha
            · obtain rfl := List.mem_singleton.1 ha
              exact ⟨hlt, hfree.1⟩
          · congr 1
            funext a
            by_cases ha : a = j
            · simp [ha]
            · simp [ha]
        rcases ih hnext with ⟨s', l', hs', hal, hlen⟩ | hback
        · refine .inl ⟨s', l', hs', hal, ?_⟩
          rw [hlen, List.length_append, List.length_singleton]
          omega
        · exact .inr hback
      next => cases hs₁
    next s₁ hs₁ =>
      split at hs₁
      next => cases hs₁
      next =>
        obtain ⟨rfl, -⟩ := Prod.mk.inj hs₁
        obtain ⟨s', hs', ⟨free, desc, chan, rfl⟩, hfree, hdesc⟩ :=
          freeDescs_ok (s := { s₀ with free := fun i => s₀.free i && !decide (i ∈ l) }) hl
            fun i hil => ⟨(hi i hil).1, by simp [hil]⟩
        refine .inr ⟨_, by rw [hs'], ⟨_, _, _, rfl⟩, funext fun i => ?_, fun i hf => ?_⟩
        · rw [hfree i]
          by_cases hil : i ∈ l
          · simp [hil, (hi i hil).2]
          · simp [hil]
        · refine hdesc i fun hil => ?_
          rw [(hi i hil).2] at hf
          cases hf

omit [DecidableEq P] [DecidableEq C] in
/-- Either `alloc3_desc` takes three free descriptors, or it leaves the free
ones as they were. -/
theorem alloc3_desc_spec (s : State P C B) :
    (∃ s' i j m, s.alloc3_desc = .ok (s', some [i, j, m]) ∧ Allocated s s' [i, j, m]) ∨
    ∃ s', s.alloc3_desc = .ok (s', none) ∧ RolledBack s s' := by
  rcases allocLoop_spec (n := 3) (l := []) (s := s) (⟨.nil, nofun, by simp⟩ : Allocated s _ _) with
    ⟨s', l, hs', hal, hlen⟩ | hback
  · obtain ⟨i, j, m, rfl⟩ := List.length_eq_three.1 hlen
    exact .inl ⟨s', i, j, m, hs', hal⟩
  · exact .inr hback

/-! ## Descriptors -/

omit [DecidableEq P] [DecidableEq C] [DecidableEq B] in
theorem Formatted.congr (h : Formatted s r idx k) (hag : ∀ i ∈ idx.toList,
      s'.desc i = s.desc i ∧ s'.ops i = s.ops i ∧ s'.info i = s.info i ∧ s'.number i = s.number i)
    (hc : s.count ≤ s'.count) : Formatted s' r idx k := by
  obtain ⟨hd, ho, hi, hn⟩ := hag idx.head (by simp [Chain.toList])
  exact ⟨ho.trans h.ops, hd.trans h.head, (hag idx.data (by simp [Chain.toList])).1.trans h.data,
    (hag idx.status (by simp [Chain.toList])).1.trans h.status, hi.trans h.info, hn.trans h.number,
    Nat.lt_of_lt_of_le h.count hc⟩

omit [DecidableEq P] [DecidableEq C] [DecidableEq B] in
theorem Descs.congr (h : Descs s) (hfree : s'.free = s.free) (hdesc : s'.desc = s.desc)
    (hops : s'.ops = s.ops) (hinfo : s'.info = s.info) (hnum : s'.number = s.number)
    (hcount : s'.count = s.count)
    (hpc : ∀ p, (s'.pc p).chain = (s.pc p).chain ∧ (s'.pc p).formatted = (s.pc p).formatted) :
    Descs s' where
  chain p := by
    rw [(hpc p).1, hfree]
    exact h.chain p
  disjoint p q := by
    rw [(hpc p).1, (hpc q).1]
    exact h.disjoint p q
  free i hi hf := by
    rw [hfree] at hf
    obtain ⟨p, hp⟩ := h.free i hi hf
    exact ⟨p, (hpc p).1 ▸ hp⟩
  formatted p r idx k hp := by
    rw [(hpc p).2] at hp
    refine (h.formatted p r idx k hp).congr (fun i _ => ?_) (Nat.le_of_eq hcount.symm)
    rw [hdesc, hops, hinfo, hnum]
    exact ⟨rfl, rfl, rfl, rfl⟩
  number p q := by
    rw [(hpc p).2, (hpc q).2]
    exact h.number p q

omit [DecidableEq C] [DecidableEq B] in
/-- A process goes on with the same descriptors. -/
theorem Descs.goto (h : Descs s) {pc : PC B} (hfree : s'.free = s.free) (hdesc : s'.desc = s.desc)
    (hops : s'.ops = s.ops) (hinfo : s'.info = s.info) (hnum : s'.number = s.number)
    (hcount : s'.count = s.count) (hpc : s'.pc = Function.update s.pc p pc)
    (hchain : pc.chain = (s.pc p).chain) (hform : pc.formatted = (s.pc p).formatted) :
    Descs s' := by
  refine h.congr hfree hdesc hops hinfo hnum hcount ?_
  rw [hpc]
  exact forall_update (R := fun q x => x.chain = (s.pc q).chain ∧
    x.formatted = (s.pc q).formatted) ⟨hchain, hform⟩ fun q _ => ⟨rfl, rfl⟩

omit [DecidableEq C] [DecidableEq B] in
/-- A process takes, fills in or frees descriptors that are no other's. -/
theorem Descs.move (h : Descs s) {pc : PC B} (hpc : s'.pc = Function.update s.pc p pc)
    (hag : ∀ q, q ≠ p → ∀ i ∈ (s.pc q).chain, s'.free i = false ∧ s'.desc i = s.desc i ∧
      s'.ops i = s.ops i ∧ s'.info i = s.info i ∧ s'.number i = s.number i)
    (hcount : s.count ≤ s'.count)
    (chain : pc.chain.Nodup ∧ ∀ i ∈ pc.chain, i < NUM ∧ s'.free i = false ∧
      ∀ q, q ≠ p → i ∉ (s.pc q).chain)
    (free : ∀ i, i < NUM → s'.free i = false → i ∈ pc.chain ∨ ∃ q, q ≠ p ∧ i ∈ (s.pc q).chain)
    (formatted : ∀ r idx k, pc.formatted = some (r, idx, k) → Formatted s' r idx k ∧
      ∀ q, q ≠ p → ∀ x, (s.pc q).formatted = some x → x.2.2 ≠ k) : Descs s' := by
  have hp : s'.pc p = pc := by rw [hpc, Function.update_self]
  have hq : ∀ q, q ≠ p → s'.pc q = s.pc q := fun q hq => by rw [hpc, Function.update_of_ne hq]
  refine ⟨fun q => ?_, fun q q' i hi hi' => ?_, fun i hi hf => ?_, fun q r idx k hk => ?_,
    fun q q' x y hx hy hxy => ?_⟩
  · by_cases hqp : q = p
    · rw [hqp, hp]
      exact ⟨chain.1, fun i hi => ⟨(chain.2 i hi).1, (chain.2 i hi).2.1⟩⟩
    · rw [hq q hqp]
      exact ⟨(h.chain q).1, fun i hi => ⟨((h.chain q).2 i hi).1, (hag q hqp i hi).1⟩⟩
  · by_cases hqp : q = p <;> by_cases hqp' : q' = p
    · exact hqp.trans hqp'.symm
    · rw [hqp, hp] at hi
      rw [hq q' hqp'] at hi'
      exact absurd hi' ((chain.2 i hi).2.2 q' hqp')
    · rw [hq q hqp] at hi
      rw [hqp', hp] at hi'
      exact absurd hi ((chain.2 i hi').2.2 q hqp)
    · rw [hq q hqp] at hi
      rw [hq q' hqp'] at hi'
      exact h.disjoint q q' i hi hi'
  · rcases free i hi hf with hmem | ⟨q, hqp, hmem⟩
    · exact ⟨p, hp ▸ hmem⟩
    · exact ⟨q, (hq q hqp).symm ▸ hmem⟩
  · by_cases hqp : q = p
    · rw [hqp, hp] at hk
      exact (formatted r idx k hk).1
    · rw [hq q hqp] at hk
      refine (h.formatted q r idx k hk).congr (fun i hi => ?_) hcount
      rw [← (PC.chain_of_formatted hk).1] at hi
      exact (hag q hqp i hi).2
  · by_cases hqp : q = p <;> by_cases hqp' : q' = p
    · exact hqp.trans hqp'.symm
    · rw [hqp, hp] at hx
      rw [hq q' hqp'] at hy
      exact absurd hxy.symm ((formatted x.1 x.2.1 x.2.2 hx).2 q' hqp' y hy)
    · rw [hq q hqp] at hx
      rw [hqp', hp] at hy
      exact absurd hxy ((formatted y.1 y.2.1 y.2.2 hy).2 q hqp x hx)
    · rw [hq q hqp] at hx
      rw [hq q' hqp'] at hy
      exact h.number q q' x y hx hy hxy

omit [DecidableEq P] [DecidableEq C] [DecidableEq B] in
/-- The descriptors of the other processes are not those of the chain. -/
theorem Descs.chain_ne (h : Descs s) (hc : (s.pc p).chain = idx.toList) (hq : q ≠ p)
    (hi : i ∈ (s.pc q).chain) : i ≠ idx.head ∧ i ≠ idx.data ∧ i ≠ idx.status := by
  have hn : i ∉ idx.toList := fun hm => hq (h.disjoint q p i hi (hc ▸ hm))
  simpa [Chain.toList] using hn

omit [DecidableEq C] in
theorem Descs.format (h : Descs s) (hp : s.pc p = .format r idx) :
    Descs ((s.format r idx).goto p (.ring r idx s.count)) := by
  have hc : (s.pc p).chain = idx.toList := by rw [hp]; rfl
  obtain ⟨hnodup, hown⟩ := h.chain p
  rw [hc] at hnodup hown
  obtain ⟨hhd, hhs, hds⟩ : idx.head ≠ idx.data ∧ idx.head ≠ idx.status ∧ idx.data ≠ idx.status := by
    simpa [Chain.toList, and_assoc] using hnodup
  refine h.move rfl (fun q hq i hi => ?_) (Nat.le_succ _) ⟨hnodup, fun i hi => ?_⟩
    (fun i hi hf => ?_) fun r' idx' k' hx => ?_
  · obtain ⟨h₁, h₂, h₃⟩ := h.chain_ne hc hq hi
    simp [State.format, State.goto, h₁, h₂, h₃, ((h.chain q).2 i hi).2]
  · exact ⟨(hown i hi).1, (hown i hi).2, fun q hq hqi => hq (h.disjoint q p i hqi (hc ▸ hi))⟩
  · obtain ⟨q, hq⟩ := h.free i hi hf
    by_cases hqp : q = p
    · rw [hqp, hc] at hq
      exact .inl hq
    · exact .inr ⟨q, hqp, hq⟩
  · obtain ⟨rfl, rfl, rfl⟩ := (by
      simpa [PC.formatted] using hx : r = r' ∧ idx = idx' ∧ s.count = k')
    refine ⟨?_, fun q _ x hx => Nat.ne_of_lt (h.formatted q _ _ _ hx).count⟩
    exact ⟨by simp [State.format, State.goto], by simp [State.format, State.goto, hhd, hhs],
      by simp [State.format, State.goto, hds], by simp [State.format, State.goto],
      by simp [State.format, State.goto], by simp [State.format, State.goto], Nat.lt_succ_self _⟩

end

end Xv6.VirtioDisk
