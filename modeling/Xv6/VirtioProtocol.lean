/-
virtio_disk.c: the protocol between the driver and the device.

The chains in flight, from the avail ring through the device to the used ring,
are those of the processes that wait for a buffer whose `disk` is set, each
once. Every step of the driver, of the handler and of the device keeps this.
-/
import Xv6.Lib.RingQueue
import Xv6.VirtioDescs

namespace Xv6.VirtioDisk

open Conc

variable {P C B : Type}

/-! ## The invariant -/

/-- The chains in flight, where the avail ring holds `A` and the used ring
holds `U`. -/
def State.flight (s : State P C B) (A U : List Nat) : List Nat :=
  A ++ s.taken ++ s.done ++ s.put.toList ++ U

/-- Which chains are in flight. -/
structure Flight (s : State P C B) (A U : List Nat) : Prop where
  avail : RingQueue NUM WRAP s.availRing s.takenIdx s.availIdx A
  used : RingQueue NUM WRAP s.usedRing s.seenIdx s.usedIdx U
  put : ∀ i ∈ s.put, s.usedRing (s.usedIdx % NUM) = i
  ring : ∀ p r idx k, s.pc p = .publish r idx k → s.availRing (s.availIdx % NUM) = idx.head
  nodup : (s.flight A U).Nodup
  mem : ∀ i, i ∈ s.flight A U ↔
    ∃ p r idx k, (s.pc p).waiting = some (r, idx, k) ∧ idx.head = i ∧ s.disk r.b = true
  completed : ∀ i ∈ s.done ++ s.put.toList ++ U, s.status i = 0 ∧ s.number i ∈ s.completed
  uncompleted : ∀ i ∈ A ++ s.taken, s.number i ∉ s.completed
  unpublished : ∀ p r k, (s.pc p).unpublished = some (r, k) → k ∉ s.completed ∧ s.disk r.b = true
  cleared : ∀ p r idx k, (s.pc p).waiting = some (r, idx, k) → s.disk r.b = false →
    k ∈ s.completed
  ended : ∀ p k, (s.pc p).ended = some k → k ∈ s.completed
  count : ∀ k ∈ s.completed, k < s.count
  entry : ∀ c, s.intr c = .entry → s.seenIdx ≠ s.usedIdx

/-- The invariant. -/
structure Inv (s : State P C B) : Prop where
  panic : s.panic = none
  descs : Descs s
  locks : Locks s
  flight : ∃ A U, Flight s A U

variable {s s' : State P C B} {p q : P} {c : C} {r : Call B} {idx : Chain} {i k : Nat}
  {A U : List Nat}

section

variable [DecidableEq P] [DecidableEq C] [DecidableEq B]

/-! ## Chains in flight -/

omit [DecidableEq P] [DecidableEq C] [DecidableEq B] in
theorem Flight.owner (h : Flight s A U) (hd : Descs s) (hi : i ∈ s.flight A U) :
    ∃ p r idx k, (s.pc p).waiting = some (r, idx, k) ∧ idx.head = i ∧ s.disk r.b = true ∧
      Formatted s r idx k ∧ i ∈ (s.pc p).chain := by
  obtain ⟨p, r, idx, k, hw, rfl, hb⟩ := (h.mem i).1 hi
  have hf := PC.formatted_of_waiting hw
  refine ⟨p, r, idx, k, hw, rfl, hb, hd.formatted p r idx k hf, ?_⟩
  rw [(PC.chain_of_formatted hf).1]
  simp [Chain.toList]

omit [DecidableEq P] [DecidableEq C] [DecidableEq B] in
theorem Flight.lt (h : Flight s A U) (hd : Descs s) (hi : i ∈ s.flight A U) : i < NUM := by
  obtain ⟨p, r, idx, k, -, -, -, -, hc⟩ := h.owner hd hi
  exact ((hd.chain p).2 i hc).1

omit [DecidableEq P] [DecidableEq C] [DecidableEq B] in
/-- Different descriptors are no more than there are. -/
theorem length_le_num {l : List Nat} (hl : l.Nodup) (h : ∀ i ∈ l, i < NUM) : l.length ≤ NUM := by
  have hsub : l ⊆ List.range NUM := fun i hi => List.mem_range.2 (h i hi)
  simpa using (List.subperm_of_subset hl hsub).length_le

/-- The rings, what is in flight, and which requests are completed are the
same. -/
structure SameFlight (s s' : State P C B) : Prop where
  takenIdx : s'.takenIdx = s.takenIdx
  availIdx : s'.availIdx = s.availIdx
  usedRing : s'.usedRing = s.usedRing
  seenIdx : s'.seenIdx = s.seenIdx
  usedIdx : s'.usedIdx = s.usedIdx
  taken : s'.taken = s.taken
  done : s'.done = s.done
  put : s'.put = s.put
  disk : s'.disk = s.disk
  status : s'.status = s.status
  number : s'.number = s.number
  count : s'.count = s.count
  completed : s'.completed = s.completed

omit [DecidableEq P] [DecidableEq C] [DecidableEq B] in
theorem Flight.congr (h : Flight s A U) (hs : SameFlight s s')
    (avail : RingQueue NUM WRAP s'.availRing s.takenIdx s.availIdx A)
    (ring : ∀ p r idx k, s'.pc p = .publish r idx k →
      s'.availRing (s.availIdx % NUM) = idx.head)
    (waiting : ∀ p r idx k, (s'.pc p).waiting = some (r, idx, k) →
      (s.pc p).waiting = some (r, idx, k))
    (waits : ∀ p r idx k, (s.pc p).waiting = some (r, idx, k) → s.disk r.b = true →
      (s'.pc p).waiting = some (r, idx, k))
    (unpublished : ∀ p r k, (s'.pc p).unpublished = some (r, k) →
      k ∉ s.completed ∧ s.disk r.b = true)
    (ended : ∀ p k, (s'.pc p).ended = some k → k ∈ s.completed)
    (entry : ∀ c, s'.intr c = .entry → s.seenIdx ≠ s.usedIdx) : Flight s' A U := by
  have hflight : s'.flight A U = s.flight A U := by
    rw [State.flight, State.flight, hs.taken, hs.done, hs.put]
  refine ⟨?_, ?_, ?_, ?_, hflight ▸ h.nodup, fun i => ?_, ?_, ?_, ?_, fun p r idx k hw hb => ?_,
    ?_, ?_, ?_⟩
  · rw [hs.takenIdx, hs.availIdx]
    exact avail
  · rw [hs.usedRing, hs.seenIdx, hs.usedIdx]
    exact h.used
  · rw [hs.put, hs.usedRing, hs.usedIdx]
    exact h.put
  · rw [hs.availIdx]
    exact ring
  · rw [hflight, h.mem i, hs.disk]
    constructor
    · rintro ⟨p, r, idx, k, hw, hi, hb⟩
      exact ⟨p, r, idx, k, waits p r idx k hw hb, hi, hb⟩
    · rintro ⟨p, r, idx, k, hw, hi, hb⟩
      exact ⟨p, r, idx, k, waiting p r idx k hw, hi, hb⟩
  · rw [hs.done, hs.put, hs.status, hs.number, hs.completed]
    exact h.completed
  · rw [hs.taken, hs.number, hs.completed]
    exact h.uncompleted
  · rw [hs.completed, hs.disk]
    exact unpublished
  · rw [hs.disk] at hb
    rw [hs.completed]
    exact h.cleared p r idx k (waiting p r idx k hw) hb
  · rw [hs.completed]
    exact ended
  · rw [hs.completed, hs.count]
    exact h.count
  · rw [hs.seenIdx, hs.usedIdx]
    exact entry

omit [DecidableEq C] [DecidableEq B] in
/-- A process goes on, and none is about to publish a chain. -/
theorem Flight.goto (h : Flight s A U) {pc : PC B} (hs : SameFlight s s')
    (havail : s'.availRing = s.availRing) (hintr : s'.intr = s.intr)
    (hpc : s'.pc = Function.update s.pc p pc) (hun : pc.unpublished = none)
    (waiting : ∀ x, pc.waiting = some x → (s.pc p).waiting = some x)
    (waits : ∀ r idx k, (s.pc p).waiting = some (r, idx, k) → s.disk r.b = true →
      pc.waiting = some (r, idx, k))
    (ended : ∀ k, pc.ended = some k → k ∈ s.completed) : Flight s' A U := by
  refine h.congr hs (havail ▸ h.avail) ?_ ?_ ?_ ?_ ?_ (hintr ▸ h.entry)
  · rw [hpc, havail]
    refine forall_update (R := fun q x => ∀ r idx k, x = .publish r idx k →
      s.availRing (s.availIdx % NUM) = idx.head) (fun r idx k hx => ?_) fun q _ => h.ring q
    rw [hx] at hun
    cases hun
  · rw [hpc]
    exact forall_update (R := fun q x => ∀ r idx k, x.waiting = some (r, idx, k) →
      (s.pc q).waiting = some (r, idx, k)) (fun r idx k => waiting _) fun q _ r idx k => id
  · rw [hpc]
    exact forall_update (R := fun q x => ∀ r idx k, (s.pc q).waiting = some (r, idx, k) →
      s.disk r.b = true → x.waiting = some (r, idx, k)) waits fun q _ r idx k hw _ => hw
  · rw [hpc]
    refine forall_update (R := fun q x => ∀ r k, x.unpublished = some (r, k) →
      k ∉ s.completed ∧ s.disk r.b = true) (fun r k hk => ?_) fun q _ => h.unpublished q
    rw [hun] at hk
    cases hk
  · rw [hpc]
    exact forall_update (R := fun q x => ∀ k, x.ended = some k → k ∈ s.completed) ended
      fun q _ => h.ended q

omit [DecidableEq P] [DecidableEq C] [DecidableEq B] in
/-- A chain that its owner does not wait for is not in flight. -/
theorem Flight.head_notMem (h : Flight s A U) (hd : Descs s) (hc : idx.head ∈ (s.pc p).chain)
    (hw : (s.pc p).waiting = none) : idx.head ∉ s.flight A U := fun hi => by
  obtain ⟨q, r', idx', k', hq, -, -, -, hc'⟩ := h.owner hd hi
  obtain rfl := hd.disjoint q p idx.head hc' hc
  exact nomatch hq.symm.trans hw

omit [DecidableEq P] [DecidableEq C] [DecidableEq B] in
theorem Flight.length_lt (h : Flight s A U) (hd : Descs s) (hi : i < NUM)
    (hn : i ∉ s.flight A U) : (s.flight A U).length < NUM := by
  have hnodup : (i :: s.flight A U).Nodup := List.nodup_cons.2 ⟨hn, h.nodup⟩
  refine length_le_num hnodup fun j hj => ?_
  rcases List.mem_cons.1 hj with rfl | hj
  · exact hi
  · exact h.lt hd hj

theorem num_dvd_wrap : NUM ∣ WRAP := ⟨8192, rfl⟩

theorem num_lt_wrap : NUM < WRAP := by decide

omit [DecidableEq C] [DecidableEq B] in
/-- `disk.avail->ring[disk.avail->idx % NUM] = idx[0]` -/
theorem Inv.ring (h : Inv s) (hp : s.pc p = .ring r idx k) :
    Inv ({ s with availRing := Function.update s.availRing (s.availIdx % NUM) idx.head }.goto p
      (.publish r idx k)) := by
  obtain ⟨hpanic, hd, hl, A, U, hf⟩ := h
  have hc : idx.head ∈ (s.pc p).chain := by simp [hp, PC.chain, Chain.toList]
  have hn := hf.head_notMem hd hc (by rw [hp]; rfl)
  have hlen := hf.length_lt hd ((hd.chain p).2 _ hc).1 hn
  have hA : A.length < NUM := by
    simp only [State.flight, List.length_append] at hlen
    omega
  have hun := hf.unpublished p r k (by rw [hp]; rfl)
  refine ⟨hpanic, hd.goto rfl rfl rfl rfl rfl rfl rfl (by rw [hp]; rfl) (by rw [hp]; rfl),
    hl.goto rfl rfl rfl rfl (by rw [hp]; rfl) (by rw [hp]; rfl), A, U,
    hf.congr ⟨rfl, rfl, rfl, rfl, rfl, rfl, rfl, rfl, rfl, rfl, rfl, rfl, rfl⟩
      (hf.avail.write num_dvd_wrap hA) ?_ ?_ ?_ ?_ ?_ hf.entry⟩
  · refine forall_update (R := fun q x => ∀ r' idx' k', x = .publish r' idx' k' →
      Function.update s.availRing (s.availIdx % NUM) idx.head (s.availIdx % NUM) = idx'.head)
      (fun r' idx' k' hx => ?_) fun q hq r' idx' k' hx => ?_
    · obtain ⟨-, rfl, -⟩ := PC.publish.inj hx
      exact Function.update_self _ _ _
    · exact absurd (hl.only (p := p) (q := q) (by rw [hp]; rfl) (by rw [hx]; rfl)) hq
  · exact forall_update (R := fun q x => ∀ r idx k, x.waiting = some (r, idx, k) →
      (s.pc q).waiting = some (r, idx, k)) (fun _ _ _ hw => by cases hw) fun q _ r idx k => id
  · refine forall_update (R := fun q x => ∀ r idx k, (s.pc q).waiting = some (r, idx, k) →
      s.disk r.b = true → x.waiting = some (r, idx, k)) (fun r idx k hw => ?_)
      fun q _ r idx k hw _ => hw
    rw [hp] at hw
    cases hw
  · refine forall_update (R := fun q x => ∀ r k, x.unpublished = some (r, k) →
      k ∉ s.completed ∧ s.disk r.b = true) (fun r' k' hk => ?_) fun q _ => hf.unpublished q
    obtain ⟨rfl, rfl⟩ := Prod.mk.inj (Option.some.inj hk)
    exact hun
  · exact forall_update (R := fun q x => ∀ k, x.ended = some k → k ∈ s.completed)
      (fun _ hk => by cases hk)
      fun q _ => hf.ended q

omit [DecidableEq C] [DecidableEq B] in
/-- `disk.avail->idx += 1` -/
theorem Inv.publish (h : Inv s) (hp : s.pc p = .publish r idx k) :
    Inv ({ s with availIdx := (s.availIdx + 1) % WRAP }.goto p (.wait r idx k)) := by
  obtain ⟨hpanic, hd, hl, A, U, hf⟩ := h
  generalize hs' : ({ s with availIdx := (s.availIdx + 1) % WRAP } : State P C B).goto p
    (.wait r idx k) = s'
  have hc : idx.head ∈ (s.pc p).chain := by simp [hp, PC.chain, Chain.toList]
  have hnum := (hd.formatted p r idx k (by rw [hp]; rfl)).number
  have hn := hf.head_notMem hd hc (by rw [hp]; rfl)
  have hlen := hf.length_lt hd ((hd.chain p).2 _ hc).1 hn
  have hA : A.length < NUM := by
    simp only [State.flight, List.length_append] at hlen
    omega
  obtain ⟨hun, hb⟩ := hf.unpublished p r k (by rw [hp]; rfl)
  have hpc : s'.pc = Function.update s.pc p (.wait r idx k) := hs' ▸ rfl
  have hperm : (s'.flight (A ++ [idx.head]) U).Perm (idx.head :: s.flight A U) := by
    subst hs'
    rw [List.perm_iff_count]
    intro a
    simp only [State.flight, State.goto, List.count_append, List.count_cons, List.count_nil]
    omega
  have hold : ∀ q, q ≠ p → s'.pc q = s.pc q := fun q hq => by rw [hpc, Function.update_of_ne hq]
  refine ⟨hs' ▸ hpanic,
    hd.goto (hs' ▸ rfl) (hs' ▸ rfl) (hs' ▸ rfl) (hs' ▸ rfl) (hs' ▸ rfl) (hs' ▸ rfl) hpc
      (by rw [hp]; rfl) (by rw [hp]; rfl),
    hl.goto (hs' ▸ rfl) (hs' ▸ rfl) (hs' ▸ rfl) hpc (by rw [hp]; rfl) (by rw [hp]; rfl),
    A ++ [idx.head], U, ?_⟩
  constructor
  case avail =>
    subst hs'
    exact hf.avail.push hA (hf.ring p r idx k hp)
  case used => exact hs' ▸ hf.used
  case put => exact hs' ▸ hf.put
  case ring =>
    intro q r' idx' k' hq
    by_cases hqp : q = p
    · rw [hqp, hpc, Function.update_self] at hq
      cases hq
    · rw [hold q hqp] at hq
      exact absurd (hl.only (p := p) (q := q) (by rw [hp]; rfl) (by rw [hq]; rfl)) hqp
  case nodup => exact hperm.nodup_iff.2 (List.nodup_cons.2 ⟨hn, hf.nodup⟩)
  case mem =>
    intro i
    rw [hperm.mem_iff, List.mem_cons, hf.mem i]
    have hdisk : s'.disk = s.disk := hs' ▸ rfl
    rw [hdisk]
    constructor
    · rintro (rfl | ⟨q, r', idx', k', hw, hi, hb'⟩)
      · exact ⟨p, r, idx, k, by rw [hpc, Function.update_self]; rfl, rfl, hb⟩
      · refine ⟨q, r', idx', k', ?_, hi, hb'⟩
        rw [hold q]
        · exact hw
        · rintro rfl
          rw [hp] at hw
          cases hw
    · rintro ⟨q, r', idx', k', hw, hi, hb'⟩
      by_cases hqp : q = p
      · rw [hqp, hpc, Function.update_self] at hw
        obtain ⟨-, rfl, -⟩ := (by simpa [PC.waiting] using hw : r = r' ∧ idx = idx' ∧ k = k')
        exact .inl hi.symm
      · rw [hold q hqp] at hw
        exact .inr ⟨q, r', idx', k', hw, hi, hb'⟩
  case completed => exact hs' ▸ hf.completed
  case uncompleted =>
    intro i hi
    have hi : i ∈ (A ++ [idx.head]) ++ s.taken := by
      subst hs'
      exact hi
    have hgoal : s.number i ∉ s.completed := by
      rcases List.mem_append.1 hi with hi | hi
      · rcases List.mem_append.1 hi with hi | hi
        · exact hf.uncompleted i (List.mem_append_left _ hi)
        · obtain rfl := List.mem_singleton.1 hi
          rw [hnum]
          exact hun
      · exact hf.uncompleted i (List.mem_append_right _ hi)
    subst hs'
    exact hgoal
  case unpublished =>
    intro q r' k' hq
    by_cases hqp : q = p
    · rw [hqp, hpc, Function.update_self] at hq
      cases hq
    · rw [hold q hqp] at hq
      subst hs'
      exact hf.unpublished q r' k' hq
  case cleared =>
    intro q r' idx' k' hw hb'
    have hb' : s.disk r'.b = false := by
      subst hs'
      exact hb'
    by_cases hqp : q = p
    · rw [hqp, hpc, Function.update_self] at hw
      obtain ⟨rfl, -, -⟩ := (by simpa [PC.waiting] using hw : r = r' ∧ idx = idx' ∧ k = k')
      cases hb.symm.trans hb'
    · rw [hold q hqp] at hw
      subst hs'
      exact hf.cleared q r' idx' k' hw hb'
  case ended =>
    intro q k' hq
    by_cases hqp : q = p
    · rw [hqp, hpc, Function.update_self] at hq
      cases hq
    · rw [hold q hqp] at hq
      subst hs'
      exact hf.ended q k' hq
  case count => exact hs' ▸ hf.count
  case entry =>
    intro c hc
    have hc : s.intr c = .entry := by
      subst hs'
      exact hc
    exact absurd (hl.no_intr (p := p) (by rw [hp]; rfl) c) (by rw [hc]; decide)

omit [DecidableEq C] in
theorem Inv.format (h : Inv s) (hp : s.pc p = .format r idx) :
    Inv ((s.format r idx).goto p (.ring r idx s.count)) := by
  obtain ⟨hpanic, hd, hl, A, U, hf⟩ := h
  have hc : (s.pc p).chain = idx.toList := by rw [hp]; rfl
  have hn : idx.head ∉ s.flight A U :=
    hf.head_notMem hd (p := p) (by rw [hc]; simp [Chain.toList]) (by rw [hp]; rfl)
  have hdescs := hd.format hp
  have hlocks : Locks ((s.format r idx).goto p (.ring r idx s.count)) :=
    hl.goto rfl rfl rfl rfl (by rw [hp]; rfl) (by rw [hp]; rfl)
  refine ⟨hpanic, hdescs, hlocks, A, U, ?_⟩
  generalize hs' : (s.format r idx).goto p (.ring r idx s.count) = s'
  have hpc : s'.pc = Function.update s.pc p (.ring r idx s.count) := hs' ▸ rfl
  have hold : ∀ q, q ≠ p → s'.pc q = s.pc q := fun q hq => by rw [hpc, Function.update_of_ne hq]
  have hflight : s'.flight A U = s.flight A U := hs' ▸ rfl
  have hstatus : ∀ i, i ≠ idx.head → s'.status i = s.status i ∧ s'.number i = s.number i :=
    fun i hi => by
      subst hs'
      exact ⟨Function.update_of_ne hi _ _, Function.update_of_ne hi _ _⟩
  have hcompleted : s'.completed = s.completed := hs' ▸ rfl
  have hdisk : ∀ q r', q ≠ p → (s.pc q).call = some r' → s'.disk r'.b = s.disk r'.b :=
    fun q r' hq hr => by
      subst hs'
      exact Function.update_of_ne (fun hb => hq (hl.buf_inj (by rw [hp]; rfl) hr hb)) _ _
  have hcall : ∀ {q r' idx' k'}, (s.pc q).waiting = some (r', idx', k') →
      q ≠ p ∧ (s.pc q).call = some r' := fun {q r' idx' k'} hw => by
    refine ⟨?_, (PC.chain_of_formatted (PC.formatted_of_waiting hw)).2⟩
    rintro rfl
    rw [hp] at hw
    cases hw
  have hwait : ∀ {q r' idx' k'}, (s'.pc q).waiting = some (r', idx', k') ↔
      (s.pc q).waiting = some (r', idx', k') := fun {q r' idx' k'} => by
    by_cases hq : q = p
    · rw [hq, hpc, Function.update_self, hp]
      exact iff_of_false (by simp [PC.waiting]) (by simp [PC.waiting])
    · rw [hold q hq]
  constructor
  case avail => exact hs' ▸ hf.avail
  case used => exact hs' ▸ hf.used
  case put => exact hs' ▸ hf.put
  case ring =>
    intro q r' idx' k' hq
    by_cases hqp : q = p
    · rw [hqp, hpc, Function.update_self] at hq
      cases hq
    · rw [hold q hqp] at hq
      exact absurd (hl.only (p := p) (q := q) (by rw [hp]; rfl) (by rw [hq]; rfl)) hqp
  case nodup => exact hflight ▸ hf.nodup
  case mem =>
    intro i
    rw [hflight, hf.mem i]
    constructor
    · rintro ⟨q, r', idx', k', hw, hi, hb⟩
      obtain ⟨hq, hcl⟩ := hcall hw
      exact ⟨q, r', idx', k', hwait.2 hw, hi, (hdisk q r' hq hcl).trans hb⟩
    · rintro ⟨q, r', idx', k', hw, hi, hb⟩
      obtain ⟨hq, hcl⟩ := hcall (hwait.1 hw)
      exact ⟨q, r', idx', k', hwait.1 hw, hi, (hdisk q r' hq hcl).symm.trans hb⟩
  case completed =>
    intro i hi
    have hi : i ∈ s.done ++ s.put.toList ++ U := by
      subst hs'
      exact hi
    have hne : i ≠ idx.head := fun e => hn (by
      rw [← e]
      simp only [State.flight, List.mem_append] at hi ⊢
      tauto)
    rw [(hstatus i hne).1, (hstatus i hne).2, hcompleted]
    exact hf.completed i hi
  case uncompleted =>
    intro i hi
    have hi : i ∈ A ++ s.taken := by
      subst hs'
      exact hi
    have hne : i ≠ idx.head := fun e => hn (by
      rw [← e]
      simp only [State.flight, List.mem_append] at hi ⊢
      tauto)
    rw [(hstatus i hne).2, hcompleted]
    exact hf.uncompleted i hi
  case unpublished =>
    intro q r' k' hq
    by_cases hqp : q = p
    · rw [hqp, hpc, Function.update_self] at hq
      obtain ⟨rfl, rfl⟩ := Prod.mk.inj (Option.some.inj hq)
      subst hs'
      exact ⟨fun hk => Nat.lt_irrefl _ (hf.count _ hk), Function.update_self _ _ _⟩
    · rw [hold q hqp] at hq
      obtain ⟨hk, hb⟩ := hf.unpublished q r' k' hq
      have hcl : (s.pc q).call = some r' := by
        cases hpq : s.pc q <;> rw [hpq] at hq <;> cases hq <;> rfl
      rw [hcompleted, hdisk q r' hqp hcl]
      exact ⟨hk, hb⟩
  case cleared =>
    intro q r' idx' k' hw hb
    obtain ⟨hq, hcl⟩ := hcall (hwait.1 hw)
    rw [hcompleted]
    exact hf.cleared q r' idx' k' (hwait.1 hw) ((hdisk q r' hq hcl).symm.trans hb)
  case ended =>
    intro q k' hq
    by_cases hqp : q = p
    · rw [hqp, hpc, Function.update_self] at hq
      cases hq
    · rw [hold q hqp] at hq
      rw [hcompleted]
      exact hf.ended q k' hq
  case count =>
    intro k hk
    subst hs'
    exact Nat.lt_succ_of_lt (hf.count k hk)
  case entry => exact hs' ▸ hf.entry

omit [DecidableEq P] [DecidableEq C] [DecidableEq B] in
/-- What `Same` leaves alone. -/
theorem Same.flight (h : Same s s') : SameFlight s s' ∧ s'.availRing = s.availRing ∧
    s'.intr = s.intr ∧ s'.pc = s.pc ∧ s'.lock = s.lock ∧ s'.vdiskLock = s.vdiskLock ∧
    s'.panic = s.panic ∧ s'.ops = s.ops ∧ s'.info = s.info := by
  obtain ⟨free, desc, chan, rfl⟩ := h
  exact ⟨⟨rfl, rfl, rfl, rfl, rfl, rfl, rfl, rfl, rfl, rfl, rfl, rfl, rfl⟩, rfl, rfl, rfl, rfl, rfl,
    rfl, rfl, rfl⟩

omit [DecidableEq C] [DecidableEq B] in
/-- `alloc3_desc` gives three descriptors to a process. -/
theorem Inv.allocated {j m : Nat} (h : Inv s) (hp : s.pc p = .alloc r)
    (hal : Allocated s s' [i, j, m]) : Inv (s'.goto p (.format r ⟨i, j, m⟩)) := by
  obtain ⟨hpanic, hd, hl, A, U, hf⟩ := h
  obtain ⟨hnodup, hfree, rfl⟩ := hal
  refine ⟨hpanic, hd.move rfl (fun q hq a ha => ⟨?_, rfl, rfl, rfl, rfl⟩) (Nat.le_refl _)
    ⟨hnodup, fun a ha => ⟨(hfree a ha).1, ?_, fun q hq haq => ?_⟩⟩ (fun a ha hna => ?_) nofun,
    hl.goto rfl rfl rfl rfl (by rw [hp]; rfl) (by rw [hp]; rfl), A, U,
    hf.goto ⟨rfl, rfl, rfl, rfl, rfl, rfl, rfl, rfl, rfl, rfl, rfl, rfl, rfl⟩ rfl rfl rfl rfl nofun
      (fun r idx k hw => ?_) nofun⟩
  · show (s.free a && _) = false
    rw [((hd.chain q).2 a ha).2]
    rfl
  · show (s.free a && !decide (a ∈ [i, j, m])) = false
    have ha : a ∈ [i, j, m] := ha
    simp [ha]
  · exact nomatch ((hd.chain q).2 a haq).2.symm.trans (hfree a ha).2
  · have hna : (s.free a && !decide (a ∈ [i, j, m])) = false := hna
    by_cases hmem : a ∈ [i, j, m]
    · exact .inl hmem
    · rw [decide_eq_false hmem, Bool.not_false, Bool.and_true] at hna
      obtain ⟨q, hq⟩ := hd.free a ha hna
      refine .inr ⟨q, ?_, hq⟩
      rintro rfl
      rw [hp] at hq
      cases hq
  · rw [hp] at hw
    cases hw

omit [DecidableEq C] [DecidableEq B] in
/-- `alloc3_desc` fails, and the process sleeps. -/
theorem Inv.rolledBack (h : Inv s) (hp : s.pc p = .alloc r) (hs : RolledBack s s') :
    Inv ((s'.sleep p .free).goto p (.sleepFree r)) := by
  obtain ⟨hpanic, hd, hl, A, U, hf⟩ := h
  obtain ⟨⟨free, desc, chan, rfl⟩, hfree, hdesc⟩ := hs
  refine ⟨hpanic, hd.move rfl (fun q hq i hi => ?_) (Nat.le_refl _) ⟨.nil, nofun⟩
    (fun i hi hn => ?_) nofun,
    hl.drop rfl rfl rfl (by rw [hp]; rfl) rfl (by rw [hp]; exact fun _ => id), A, U,
    hf.goto ⟨rfl, rfl, rfl, rfl, rfl, rfl, rfl, rfl, rfl, rfl, rfl, rfl, rfl⟩ rfl rfl rfl rfl nofun
      (fun r idx k hw => ?_) nofun⟩
  · have hi := ((hd.chain q).2 i hi).2
    exact ⟨(congrFun hfree i).trans hi, hdesc i hi, rfl, rfl, rfl⟩
  · obtain ⟨q, hq⟩ := hd.free i hi ((congrFun hfree i).symm.trans hn)
    refine .inr ⟨q, ?_, hq⟩
    rintro rfl
    rw [hp] at hq
    cases hq
  · rw [hp] at hw
    cases hw

omit [DecidableEq C] in
/-- The end of `virtio_disk_rw`: `free_chain` does not panic. -/
theorem Inv.finish (h : Inv s) (hp : s.pc p = .finish r idx k) :
    ∃ s', State.free_chain { s with info := Function.update s.info idx.head none } idx.head =
      .ok s' ∧ s'.pc = s.pc ∧ s'.disk = s.disk ∧ Inv (s'.goto p (.release r k)) := by
  obtain ⟨hpanic, hd, hl, A, U, hf⟩ := h
  have hc : (s.pc p).chain = idx.toList := by rw [hp]; rfl
  obtain ⟨hnodup, hown⟩ := hd.chain p
  rw [hc] at hnodup hown
  have hform := hd.formatted p r idx k (by rw [hp]; rfl)
  have hover := hf.ended p k (by rw [hp]; rfl)
  let s₁ : State P C B := { s with info := Function.update s.info idx.head none }
  obtain ⟨s', hs', hsame, hfree, hdesc⟩ := freeDescs_ok (s := s₁) hnodup hown
  obtain ⟨hsf, ⟨havail, hintr, hpc, hlock, hvdisk, hpan, hops, hinfo⟩⟩ := hsame.flight
  have hpc' : (s'.goto p (.release r k)).pc = Function.update s.pc p (.release r k) := by
    rw [State.goto, hpc]
  refine ⟨s', (free_chain_eq (s := s₁) hform rfl hnodup hown).trans hs', hpc, hsf.disk,
    hpan.trans hpanic, ?_,
    hl.goto hvdisk hlock hintr hpc' (by rw [hp]; rfl) (by rw [hp]; rfl), A, U, ?_⟩
  · refine hd.move hpc' (fun q hq i hi => ?_) (Nat.le_of_eq hsf.count.symm) ⟨.nil, fun _ hi => absurd hi List.not_mem_nil⟩
      (fun i hi hn => ?_) fun _ _ _ hf => by cases hf
    · obtain ⟨h₁, h₂, h₃⟩ := hd.chain_ne hc hq hi
      have hnot : i ∉ idx.toList := by simp [Chain.toList, h₁, h₂, h₃]
      refine ⟨(hfree i).trans ?_, hdesc i hnot, congrFun hops i, (congrFun hinfo i).trans ?_,
        congrFun hsf.number i⟩
      · rw [decide_eq_false hnot, Bool.or_false]
        exact ((hd.chain q).2 i hi).2
      · exact Function.update_of_ne h₁ _ _
    · have hn := (hfree i).symm.trans hn
      obtain ⟨hfi, hnot⟩ : s.free i = false ∧ i ∉ idx.toList := by
        simpa [s₁] using hn
      obtain ⟨q, hq⟩ := hd.free i hi hfi
      refine .inr ⟨q, ?_, hq⟩
      rintro rfl
      exact hnot (hc ▸ hq)
  · refine hf.goto ⟨hsf.takenIdx, hsf.availIdx, hsf.usedRing, hsf.seenIdx, hsf.usedIdx, hsf.taken,
      hsf.done, hsf.put, hsf.disk, hsf.status, hsf.number, hsf.count, hsf.completed⟩ havail hintr
      hpc' rfl (fun _ hw => by cases hw) (fun r' idx' k' hw => ?_) fun k' hk => ?_
    · rw [hp] at hw
      cases hw
    · obtain rfl := Option.some.inj hk
      exact hover

omit [DecidableEq C] in
theorem Inv.go (h : Inv s) (hs : s.go p = some s') : Inv s' := by
  have hI := h
  obtain ⟨hpanic, hd, hl, A, U, hf⟩ := h
  rw [State.go] at hs
  split at hs
  next => cases hs
  next r hp =>
    split at hs
    next hv =>
      obtain rfl := Option.some.inj hs
      exact ⟨hpanic, hd.goto rfl rfl rfl rfl rfl rfl rfl (by rw [hp]; rfl) (by rw [hp]; rfl),
        hl.take hv rfl rfl rfl rfl (by rw [hp]; rfl), A, U,
        hf.goto ⟨rfl, rfl, rfl, rfl, rfl, rfl, rfl, rfl, rfl, rfl, rfl, rfl, rfl⟩ rfl rfl rfl rfl nofun
          (by rw [hp]; nofun) nofun⟩
    next => cases hs
  next r hp =>
    rcases alloc3_desc_spec s with ⟨s₁, i, j, m, h₁, hal⟩ | ⟨s₁, h₁, hback⟩
    · rw [h₁] at hs
      obtain rfl := Option.some.inj hs
      exact hI.allocated hp hal
    · rw [h₁] at hs
      obtain rfl := Option.some.inj hs
      exact hI.rolledBack hp hback
  next r hp =>
    split at hs
    next hv =>
      obtain rfl := Option.some.inj hs
      exact ⟨hpanic, hd.goto rfl rfl rfl rfl rfl rfl rfl (by rw [hp]; rfl) (by rw [hp]; rfl),
        hl.take hv.2 rfl rfl rfl rfl (by rw [hp]; rfl), A, U,
        hf.goto ⟨rfl, rfl, rfl, rfl, rfl, rfl, rfl, rfl, rfl, rfl, rfl, rfl, rfl⟩ rfl rfl rfl rfl nofun
          (by rw [hp]; nofun) nofun⟩
    next => cases hs
  next r idx hp =>
    obtain rfl := Option.some.inj hs
    exact hI.format hp
  next r idx k hp =>
    obtain rfl := Option.some.inj hs
    exact hI.ring hp
  next r idx k hp =>
    obtain rfl := Option.some.inj hs
    exact hI.publish hp
  next r idx k hp =>
    split at hs
    next =>
      obtain rfl := Option.some.inj hs
      exact ⟨hpanic, hd.goto rfl rfl rfl rfl rfl rfl rfl (by rw [hp]; rfl) (by rw [hp]; rfl),
        hl.drop rfl rfl rfl (by rw [hp]; rfl) rfl (by rw [hp]; exact fun _ => id), A, U,
        hf.goto ⟨rfl, rfl, rfl, rfl, rfl, rfl, rfl, rfl, rfl, rfl, rfl, rfl, rfl⟩ rfl rfl rfl rfl
          (by rw [hp]; exact fun _ => id) (by rw [hp]; exact fun _ _ _ hw _ => hw) nofun⟩
    next hb =>
      obtain rfl := Option.some.inj hs
      have hb : s.disk r.b = false := by simpa using hb
      refine ⟨hpanic, hd.goto rfl rfl rfl rfl rfl rfl rfl (by rw [hp]; rfl) (by rw [hp]; rfl),
        hl.goto rfl rfl rfl rfl (by rw [hp]; rfl) (by rw [hp]; rfl), A, U,
        hf.goto ⟨rfl, rfl, rfl, rfl, rfl, rfl, rfl, rfl, rfl, rfl, rfl, rfl, rfl⟩ rfl rfl rfl rfl nofun
          (fun r' idx' k' hw hb' => ?_) fun k' hk => ?_⟩
      · rw [hp] at hw
        obtain ⟨rfl, -, -⟩ := (by simpa [PC.waiting] using hw : r = r' ∧ idx = idx' ∧ k = k')
        cases hb.symm.trans hb'
      · obtain rfl := Option.some.inj hk
        exact hf.cleared p r idx k (by rw [hp]; rfl) hb
  next r idx k hp =>
    split at hs
    next hv =>
      obtain rfl := Option.some.inj hs
      exact ⟨hpanic, hd.goto rfl rfl rfl rfl rfl rfl rfl (by rw [hp]; rfl) (by rw [hp]; rfl),
        hl.take hv.2 rfl rfl rfl rfl (by rw [hp]; rfl), A, U,
        hf.goto ⟨rfl, rfl, rfl, rfl, rfl, rfl, rfl, rfl, rfl, rfl, rfl, rfl, rfl⟩ rfl rfl rfl rfl
          (by rw [hp]; exact fun _ => id) (by rw [hp]; exact fun _ _ _ hw _ => hw) nofun⟩
    next => cases hs
  next r idx k hp =>
    obtain ⟨s₁, h₁, -, -, hinv⟩ := hI.finish hp
    rw [h₁] at hs
    obtain rfl := Option.some.inj hs
    exact hinv
  next r k hp =>
    obtain rfl := Option.some.inj hs
    exact ⟨hpanic, hd.goto rfl rfl rfl rfl rfl rfl rfl (by rw [hp]; rfl) (by rw [hp]; rfl),
      hl.drop rfl rfl rfl (by rw [hp]; rfl) rfl nofun, A, U,
      hf.goto ⟨rfl, rfl, rfl, rfl, rfl, rfl, rfl, rfl, rfl, rfl, rfl, rfl, rfl⟩ rfl rfl rfl rfl nofun
        (by rw [hp]; nofun) nofun⟩

/-! ## The interrupt handler -/

omit [DecidableEq P] [DecidableEq B] in
/-- A handler goes on, or takes or gives up the lock. -/
theorem Locks.handle (h : Locks s) {x : Intr} {v : Option (P ⊕ C)}
    (hv : s.vdiskLock = none ∨ s.vdiskLock = some (.inr c)) (hv' : s'.vdiskLock = v)
    (hx : x.holds → v = some (.inr c)) (hl : s'.lock = s.lock) (hpc : s'.pc = s.pc)
    (hintr : s'.intr = Function.update s.intr c x) : Locks s' where
  proc p hp := by
    rw [hpc] at hp
    rcases hv with hv | hv <;> exact nomatch hv.symm.trans (h.proc p hp)
  intr c' hc' := by
    rw [hintr] at hc'
    by_cases hcc : c' = c
    · rw [hcc, Function.update_self] at hc'
      rw [hcc, hv', hx hc']
    · rw [Function.update_of_ne hcc] at hc'
      rcases hv with hv | hv
      · exact nomatch hv.symm.trans (h.intr c' hc')
      · exact absurd (Sum.inr.inj (Option.some.inj ((h.intr c' hc').symm.trans hv))) hcc
  buf p r hp := by
    rw [hpc] at hp
    rw [hl]
    exact h.buf p r hp

omit [DecidableEq P] [DecidableEq B] in
/-- A handler goes on, but for the body of its loop. -/
theorem Inv.handler (h : Inv s) {x : Intr} {v : Option (P ⊕ C)}
    (hv : s.vdiskLock = none ∨ s.vdiskLock = some (.inr c)) (hx : x.holds → v = some (.inr c))
    (he : x = .entry → s.seenIdx ≠ s.usedIdx) :
    Inv ({ s with vdiskLock := v }.intrGoto c x) := by
  obtain ⟨hpanic, hd, hl, A, U, hf⟩ := h
  refine ⟨hpanic, hd.congr rfl rfl rfl rfl rfl rfl fun _ => ⟨rfl, rfl⟩,
    hl.handle hv rfl hx rfl rfl rfl, A, U,
    hf.congr ⟨rfl, rfl, rfl, rfl, rfl, rfl, rfl, rfl, rfl, rfl, rfl, rfl, rfl⟩ hf.avail hf.ring
      (fun _ _ _ _ => id) (fun _ _ _ _ hw _ => hw) hf.unpublished hf.ended fun c' hc' => ?_⟩
  by_cases hcc : c' = c
  · have hc' : Function.update s.intr c x c' = .entry := hc'
    rw [hcc, Function.update_self] at hc'
    exact he hc'
  · have hc' : Function.update s.intr c x c' = .entry := hc'
    rw [Function.update_of_ne hcc] at hc'
    exact hf.entry c' hc'

/-- What the body of the loop does: it takes the next entry of the used ring,
which is a request that the device has completed, and clears `b->disk`. -/
theorem Inv.entry (h : Inv s) (hc : s.intr c = .entry) :
    ∃ p r idx k, (s.pc p).waiting = some (r, idx, k) ∧
      s.usedRing (s.seenIdx % NUM) = idx.head ∧ s.disk r.b = true ∧ k ∈ s.completed ∧
      s.handle c = some ((s.clear r.b).intrGoto c .loop) ∧
      Inv ((s.clear r.b).intrGoto c .loop) := by
  obtain ⟨hpanic, hd, hl, A, U, hf⟩ := h
  have hv := hl.intr c (by rw [hc]; rfl)
  have hU : U ≠ [] := fun hU => hf.entry c hc ((hf.used.eq_iff num_lt_wrap).2 hU)
  obtain ⟨i, U', rfl⟩ := List.exists_cons_of_ne_nil hU
  obtain ⟨hslot, hused⟩ := hf.used.pop
  have hi : i ∈ s.flight A (i :: U') := by simp [State.flight]
  obtain ⟨hstatus, hnum⟩ := hf.completed i (by simp)
  obtain ⟨p, r, idx, k, hw, rfl, hb, hform, hchain⟩ := hf.owner hd hi
  rw [hform.number] at hnum
  have hcp := (PC.chain_of_formatted (PC.formatted_of_waiting hw)).2
  refine ⟨p, r, idx, k, hw, hslot, hb, hnum, ?_, ?_⟩
  · rw [State.handle, hc]
    dsimp only
    rw [hslot, if_neg (not_not_intro hstatus), hform.info]
  generalize hs' : (s.clear r.b).intrGoto c .loop = s'
  have hpc : s'.pc = s.pc := hs' ▸ rfl
  -- another process waits for another buffer, and has another chain
  have hother : ∀ q r' idx' k', (s.pc q).waiting = some (r', idx', k') → q ≠ p →
      idx'.head ≠ idx.head ∧ s'.disk r'.b = s.disk r'.b := fun q r' idx' k' hq hqp => by
    have hfq := PC.formatted_of_waiting hq
    refine ⟨fun e => hqp (hd.disjoint q p idx.head ?_ hchain), ?_⟩
    · rw [(PC.chain_of_formatted hfq).1, ← e]
      simp [Chain.toList]
    · subst hs'
      refine Function.update_of_ne (fun hbb => hqp ?_) _ _
      exact hl.buf_inj hcp (PC.chain_of_formatted hfq).2 hbb
  have hself : s'.disk r.b = false := by
    subst hs'
    exact Function.update_self _ _ _
  have hperm : (s.flight A (idx.head :: U')).Perm (idx.head :: s'.flight A U') := by
    subst hs'
    rw [List.perm_iff_count]
    intro a
    simp only [State.flight, State.intrGoto, State.clear, State.wakeup, List.count_append,
      List.count_cons]
    omega
  obtain ⟨hn, hnodup⟩ := List.nodup_cons.1 (hperm.nodup_iff.1 hf.nodup)
  refine ⟨hs' ▸ hpanic, hd.congr (hs' ▸ rfl) (hs' ▸ rfl) (hs' ▸ rfl) (hs' ▸ rfl) (hs' ▸ rfl)
      (hs' ▸ rfl) fun q => ?_,
    hl.handle (.inr hv) (v := some (.inr c)) (x := .loop) ?_ (fun _ => rfl) (hs' ▸ rfl) hpc
      (hs' ▸ rfl), A, U', ?_⟩
  · rw [hpc]
    exact ⟨rfl, rfl⟩
  · subst hs'
    exact hv
  constructor
  case avail => exact hs' ▸ hf.avail
  case used => exact hs' ▸ hused
  case put => exact hs' ▸ hf.put
  case ring => exact hs' ▸ hf.ring
  case nodup => exact hnodup
  case mem =>
    intro j
    constructor
    · intro hj
      have hjm : j ∈ s.flight A (idx.head :: U') := hperm.mem_iff.2 (List.mem_cons_of_mem _ hj)
      obtain ⟨q, r', idx', k', hq, hjq, hb'⟩ := (hf.mem j).1 hjm
      have hqp : q ≠ p := by
        rintro rfl
        obtain ⟨-, rfl, -⟩ := (by simpa [hw] using hq : r = r' ∧ idx = idx' ∧ k = k')
        exact hn (hjq ▸ hj)
      exact ⟨q, r', idx', k', hpc ▸ hq, hjq, (hother q r' idx' k' hq hqp).2.trans hb'⟩
    · rintro ⟨q, r', idx', k', hq, hjq, hb'⟩
      rw [hpc] at hq
      have hqp : q ≠ p := by
        rintro rfl
        obtain ⟨rfl, -, -⟩ := (by simpa [hw] using hq : r = r' ∧ idx = idx' ∧ k = k')
        cases hself.symm.trans hb'
      obtain ⟨hne, hdq⟩ := hother q r' idx' k' hq hqp
      have hjm := hperm.mem_iff.1 ((hf.mem j).2 ⟨q, r', idx', k', hq, hjq, hdq.symm.trans hb'⟩)
      exact (List.mem_cons.1 hjm).resolve_left (hjq ▸ hne)
  case completed =>
    intro j hj
    subst hs'
    exact hf.completed j (by
      have hj : j ∈ s.done ++ s.put.toList ++ U' := hj
      simp only [List.mem_append, List.mem_cons] at hj ⊢
      tauto)
  case uncompleted => exact hs' ▸ hf.uncompleted
  case unpublished =>
    intro q r' k' hq
    rw [hpc] at hq
    have hholds : (s.pc q).holds := by
      cases hpq : s.pc q <;> rw [hpq] at hq <;> first | rfl | cases hq
    cases hv.symm.trans (hl.proc q hholds)
  case cleared =>
    intro q r' idx' k' hq hb'
    rw [hpc] at hq
    have hgoal : k' ∈ s.completed := by
      by_cases hqp : q = p
      · subst hqp
        obtain ⟨-, -, rfl⟩ := (by simpa [hw] using hq : r = r' ∧ idx = idx' ∧ k = k')
        exact hnum
      · exact hf.cleared q r' idx' k' hq ((hother q r' idx' k' hq hqp).2.symm.trans hb')
    exact hs' ▸ hgoal
  case ended => exact hs' ▸ hf.ended
  case count => exact hs' ▸ hf.count
  case entry =>
    intro c' hc'
    have hc' : Function.update s.intr c .loop c' = .entry := by
      subst hs'
      exact hc'
    by_cases hcc : c' = c
    · rw [hcc, Function.update_self] at hc'
      cases hc'
    · rw [Function.update_of_ne hcc] at hc'
      have hv' := hl.intr c' (by rw [hc']; rfl)
      exact absurd (Sum.inr.inj (Option.some.inj (hv'.symm.trans hv))) hcc

theorem Inv.handle (h : Inv s) (hs : s.handle c = some s') : Inv s' := by
  cases hc : s.intr c with
  | none =>
    rw [State.handle, hc] at hs
    cases hs
  | acquire =>
    rw [State.handle, hc] at hs
    dsimp only at hs
    split at hs
    next hv =>
      obtain rfl := Option.some.inj hs
      exact h.handler (.inl hv) (fun _ => rfl) nofun
    next => cases hs
  | loop =>
    rw [State.handle, hc] at hs
    obtain rfl := Option.some.inj hs
    have hv := h.locks.intr c (by rw [hc]; rfl)
    refine h.handler (.inr hv) (fun _ => hv) fun hx => ?_
    split at hx
    next hne => exact hne
    next => cases hx
  | entry =>
    obtain ⟨p, r, idx, k, -, -, -, -, hs₁, hinv⟩ := h.entry hc
    obtain rfl := Option.some.inj (hs₁.symm.trans hs)
    exact hinv
  | release =>
    rw [State.handle, hc] at hs
    obtain rfl := Option.some.inj hs
    exact h.handler (.inr (h.locks.intr c (by rw [hc]; rfl))) nofun nofun

end

/-! ## The device -/

/-- The device reads in a chain in flight what the driver has put there. -/
theorem Formatted.request (h : Formatted s r idx k) : s.request idx.head =
    some (⟨if r.write then VIRTIO_BLK_T_OUT else VIRTIO_BLK_T_IN, 0, r.sector⟩, r.b, idx.head) := by
  simp only [State.request, h.head, h.data, h.status, h.ops]

/-- The device works on what is in flight, and completes requests. -/
theorem Flight.device {A' U' : List Nat} (h : Flight s A U) (hpc : s'.pc = s.pc)
    (hdisk : s'.disk = s.disk) (hcount : s'.count = s.count) (hintr : s'.intr = s.intr)
    (hseen : s'.seenIdx = s.seenIdx) (havail : s'.availRing = s.availRing)
    (hidx : s'.availIdx = s.availIdx)
    (avail : RingQueue NUM WRAP s.availRing s'.takenIdx s.availIdx A')
    (used : RingQueue NUM WRAP s'.usedRing s.seenIdx s'.usedIdx U')
    (put : ∀ i ∈ s'.put, s'.usedRing (s'.usedIdx % NUM) = i)
    (perm : (s'.flight A' U').Perm (s.flight A U))
    (completed : ∀ i ∈ s'.done ++ s'.put.toList ++ U', s'.status i = 0 ∧ s'.number i ∈ s'.completed)
    (uncompleted : ∀ i ∈ A' ++ s'.taken, s'.number i ∉ s'.completed)
    (new : ∀ k ∈ s'.completed, k ∈ s.completed ∨ ∃ i ∈ s.taken, s.number i = k ∧ k < s.count ∧
      ∀ p r k', (s.pc p).unpublished = some (r, k') → k' ≠ k)
    (old : ∀ k ∈ s.completed, k ∈ s'.completed)
    (entry : U ≠ [] → U' ≠ []) : Flight s' A' U' := by
  refine ⟨by rw [havail, hidx]; exact avail, by rw [hseen]; exact used, put, ?_,
    perm.nodup_iff.2 h.nodup, fun i => ?_, completed, uncompleted, fun p r k hk => ?_,
    fun p r idx k hw hb => ?_, fun p k hk => ?_, fun k hk => ?_, fun c hc => ?_⟩
  · rw [hpc, havail, hidx]
    exact h.ring
  · rw [perm.mem_iff, h.mem i, hpc, hdisk]
  · rw [hpc] at hk
    obtain ⟨hn, hb⟩ := h.unpublished p r k hk
    rw [hdisk]
    refine ⟨fun hk' => ?_, hb⟩
    rcases new k hk' with hmem | ⟨i, -, -, -, hne⟩
    · exact hn hmem
    · exact hne p r k hk rfl
  · rw [hpc] at hw
    rw [hdisk] at hb
    exact old k (h.cleared p r idx k hw hb)
  · rw [hpc] at hk
    exact old k (h.ended p k hk)
  · rw [hcount]
    rcases new k hk with hmem | ⟨i, -, -, hlt, -⟩
    · exact h.count k hmem
    · exact hlt
  · rw [hintr] at hc
    rw [hseen]
    intro he
    have hU : U ≠ [] := fun hU => h.entry c hc ((h.used.eq_iff num_lt_wrap).2 hU)
    exact entry hU ((used.eq_iff num_lt_wrap).1 he)

/-- The device takes a chain of the avail ring. -/
theorem Inv.take (h : Inv s) (hs : s.device .take = some s') : Inv s' := by
  obtain ⟨hpanic, hd, hl, A, U, hf⟩ := h
  rw [State.device] at hs
  split at hs
  next hne =>
    obtain rfl := Option.some.inj hs
    have hA : A ≠ [] := fun hA => hne ((hf.avail.eq_iff num_lt_wrap).2 hA)
    obtain ⟨i, A', rfl⟩ := List.exists_cons_of_ne_nil hA
    obtain ⟨hslot, hpop⟩ := hf.avail.pop
    refine ⟨hpanic, hd.congr rfl rfl rfl rfl rfl rfl fun _ => ⟨rfl, rfl⟩,
      hl.congr rfl rfl (fun _ => ⟨id, fun _ => id⟩) fun _ => id, A', U,
      hf.device rfl rfl rfl rfl rfl rfl rfl hpop hf.used hf.put ?_ hf.completed (fun j hj => ?_)
        (fun k hk => .inl hk) (fun k => id) id⟩
    · rw [List.perm_iff_count]
      intro a
      simp only [State.flight, hslot, List.count_append, List.count_cons, List.count_nil]
      omega
    · refine hf.uncompleted j ?_
      simp only [hslot, List.mem_append, List.mem_cons, List.not_mem_nil, or_false] at hj ⊢
      tauto
  next => cases hs

/-- The device completes a request. -/
theorem Inv.complete (h : Inv s) (hs : s.device (.complete i) = some s') : Inv s' := by
  obtain ⟨hpanic, hd, hl, A, U, hf⟩ := h
  rw [State.device] at hs
  split at hs
  next hi =>
    have hif : i ∈ s.flight A U := by
      simp only [State.flight, List.mem_append]
      exact .inl (.inl (.inl (.inr hi)))
    obtain ⟨p, r, idx, k, hw, rfl, hb, hform, hchain⟩ := hf.owner hd hif
    rw [hform.request] at hs
    obtain rfl := Option.some.inj hs
    have hfp := PC.formatted_of_waiting hw
    refine ⟨hpanic, hd.congr rfl rfl rfl rfl rfl rfl fun _ => ⟨rfl, rfl⟩,
      hl.congr rfl rfl (fun _ => ⟨id, fun _ => id⟩) fun _ => id, A, U,
      hf.device rfl rfl rfl rfl rfl rfl rfl hf.avail hf.used hf.put ?_ (fun j hj => ?_)
        (fun j hj => ?_) (fun k' hk => ?_) (fun k' => List.mem_cons_of_mem _) id⟩
    · rw [List.perm_iff_count]
      intro a
      have hpos := List.count_pos_iff.2 hi
      simp only [State.flight, List.count_append, List.count_cons, List.count_nil,
        List.count_erase]
      split
      next he =>
        obtain rfl := beq_iff_eq.1 he
        omega
      next => omega
    · by_cases hji : j = idx.head
      · rw [hji]
        exact ⟨Function.update_self _ _ _, List.mem_cons_self⟩
      · have hj : j ∈ s.done ++ s.put.toList ++ U := by
          simp only [List.mem_append, List.mem_cons, List.not_mem_nil, or_false, hji] at hj ⊢
          exact hj
        obtain ⟨hst, hnum⟩ := hf.completed j hj
        exact ⟨(Function.update_of_ne hji _ _).trans hst, List.mem_cons_of_mem _ hnum⟩
    · have hj' : j ∈ A ++ s.taken := by
        rcases List.mem_append.1 hj with hj | hj
        · exact List.mem_append_left _ hj
        · exact List.mem_append_right _ (List.mem_of_mem_erase hj)
      have hjf : j ∈ s.flight A U := by
        simp only [State.flight, List.mem_append] at hj' ⊢
        tauto
      obtain ⟨q, r', idx', k', hq, rfl, -, hform', -⟩ := hf.owner hd hjf
      intro hmem
      rcases List.mem_cons.1 hmem with he | hmem
      · have hpq := hd.number q p _ _ (PC.formatted_of_waiting hq) hfp
          (hform'.number.symm.trans (he.trans hform.number))
        subst hpq
        obtain ⟨-, rfl, -⟩ := (by simpa [hw] using hq : r = r' ∧ idx = idx' ∧ k = k')
        have hnodup := hf.nodup
        simp only [State.flight, List.nodup_append] at hnodup
        obtain ⟨⟨⟨⟨-, htaken, hdis⟩, -⟩, -⟩, -⟩ := hnodup
        rcases List.mem_append.1 hj with hj | hj
        · exact hdis _ hj _ hi rfl
        · exact htaken.not_mem_erase hj
      · exact hf.uncompleted _ hj' hmem
    · rcases List.mem_cons.1 hk with rfl | hk
      · refine .inr ⟨idx.head, hi, rfl, hform.number ▸ hform.count, fun q r' k' hq e => ?_⟩
        obtain ⟨idx', hfq⟩ : ∃ idx', (s.pc q).formatted = some (r', idx', k') := by
          cases hpq : s.pc q <;> rw [hpq] at hq <;> cases hq <;> exact ⟨_, rfl⟩
        have hqp := hd.number q p _ _ hfq hfp (e.trans hform.number)
        subst hqp
        exact nomatch (PC.unpublished_of_waiting hw).symm.trans hq
      · exact .inl hk
  next => cases hs

/-- The device puts a chain in the used ring. -/
theorem Inv.put (h : Inv s) (hs : s.device (.put i) = some s') : Inv s' := by
  obtain ⟨hpanic, hd, hl, A, U, hf⟩ := h
  rw [State.device] at hs
  split at hs
  next hi =>
    obtain rfl := Option.some.inj hs
    obtain ⟨hi, hput⟩ := hi
    have hlen : (s.flight A U).length ≤ NUM := length_le_num hf.nodup fun j => hf.lt hd
    have hpos := List.length_pos_of_mem hi
    have hU : U.length < NUM := by
      simp only [State.flight, List.length_append] at hlen
      omega
    refine ⟨hpanic, hd.congr rfl rfl rfl rfl rfl rfl fun _ => ⟨rfl, rfl⟩,
      hl.congr rfl rfl (fun _ => ⟨id, fun _ => id⟩) fun _ => id, A, U,
      hf.device rfl rfl rfl rfl rfl rfl rfl hf.avail (hf.used.write num_dvd_wrap hU) (fun j hj => ?_)
        ?_ (fun j hj => ?_) hf.uncompleted (fun k hk => .inl hk) (fun k => id) id⟩
    · obtain rfl := Option.some.inj hj
      exact Function.update_self _ _ _
    · rw [List.perm_iff_count]
      intro a
      have hpos := List.count_pos_iff.2 hi
      simp only [State.flight, hput, Option.toList, List.count_append, List.count_cons,
        List.count_nil, List.count_erase]
      split
      next he =>
        obtain rfl := beq_iff_eq.1 he
        omega
      next => omega
    · refine hf.completed j ?_
      simp only [List.mem_append, Option.toList, List.mem_cons, List.not_mem_nil, or_false] at hj ⊢
      rcases hj with (hj | rfl) | hj
      · exact .inl (.inl (List.mem_of_mem_erase hj))
      · exact .inl (.inl hi)
      · exact .inr hj
  next => cases hs

/-- The device increments `used->idx`. -/
theorem Inv.used (h : Inv s) (hs : s.device .used = some s') : Inv s' := by
  obtain ⟨hpanic, hd, hl, A, U, hf⟩ := h
  rw [State.device] at hs
  split at hs
  next hput =>
    obtain rfl := Option.some.inj hs
    obtain ⟨i, hput⟩ := Option.isSome_iff_exists.1 hput
    have hlen : (s.flight A U).length ≤ NUM := length_le_num hf.nodup fun j => hf.lt hd
    have hU : U.length < NUM := by
      simp only [State.flight, hput, List.length_append, Option.toList, List.length_singleton]
        at hlen
      omega
    refine ⟨hpanic, hd.congr rfl rfl rfl rfl rfl rfl fun _ => ⟨rfl, rfl⟩,
      hl.congr rfl rfl (fun _ => ⟨id, fun _ => id⟩) fun _ => id, A, U ++ [i],
      hf.device rfl rfl rfl rfl rfl rfl rfl hf.avail (hf.used.push hU (hf.put i hput)) nofun ?_
        (fun j hj => ?_) hf.uncompleted (fun k hk => .inl hk) (fun k => id) (by simp)⟩
    · rw [List.perm_iff_count]
      intro a
      simp only [State.flight, hput, Option.toList, List.count_append, List.count_cons,
        List.count_nil]
      omega
    · refine hf.completed j ?_
      simp only [hput, Option.toList, List.mem_append, List.mem_cons, List.not_mem_nil,
        or_false] at hj ⊢
      tauto
  next => cases hs

theorem device_same {e : Event P C B} (hs : s.device e = some s') :
    s'.disk = s.disk ∧ s'.pc = s.pc := by
  unfold State.device at hs
  split at hs
  next =>
    split at hs
    next =>
      obtain rfl := Option.some.inj hs
      exact ⟨rfl, rfl⟩
    next => cases hs
  next =>
    split at hs
    next =>
      split at hs
      next =>
        obtain rfl := Option.some.inj hs
        exact ⟨rfl, rfl⟩
      next => cases hs
    next => cases hs
  next =>
    split at hs
    next =>
      obtain rfl := Option.some.inj hs
      exact ⟨rfl, rfl⟩
    next => cases hs
  next =>
    split at hs
    next =>
      obtain rfl := Option.some.inj hs
      exact ⟨rfl, rfl⟩
    next => cases hs
  next => cases hs

theorem Inv.device {e : Event P C B} (h : Inv s) (hs : s.device e = some s') : Inv s' := by
  cases e with
  | take => exact h.take hs
  | complete i => exact h.complete hs
  | put i => exact h.put hs
  | used => exact h.used hs
  | _ => cases hs

/-! ## Runs -/

/-- The heads that a ring holds from `head` up to `tail`. -/
def ringHeads (ring : Nat → Nat) (head tail : Nat) : List Nat :=
  (List.range ((tail + WRAP - head) % WRAP)).map fun j => ring ((head + j) % WRAP % NUM)

/-- The chains that the driver has published and whose completion the handler
has not looked at. -/
def State.published (s : State P C B) : List Nat :=
  s.flight (ringHeads s.availRing s.takenIdx s.availIdx) (ringHeads s.usedRing s.seenIdx s.usedIdx)

theorem Flight.published (h : Flight s A U) : s.published = s.flight A U := by
  rw [State.published, h.avail.eq_map num_lt_wrap, h.used.eq_map num_lt_wrap]
  rfl

section

variable [DecidableEq P] [DecidableEq C] [DecidableEq B]

theorem Inv.init (h : (machine P C B).init s) : Inv s := by
  obtain ⟨hfree, havail, hused, hseen, htaken, htk, hdone, hput, hv, hpc, hintr, hdisk, hlock,
    hpanic, hcompleted⟩ := h
  have hp : ∀ p, s.pc p = .user := fun p => (hpc p).1
  refine ⟨hpanic, ⟨fun p => ?_, fun p q i hi => ?_, fun i hi hf => ?_, fun p r idx k hk => ?_,
    fun p q x y hx => ?_⟩, ⟨fun p hk => ?_, fun c hk => ?_, fun p r hk => ?_⟩, [], [],
    ⟨?_, ?_, ?_, ?_, ?_, fun i => ?_, ?_, ?_, ?_, ?_, ?_, ?_, ?_⟩⟩
  · rw [hp p]
    exact ⟨.nil, nofun⟩
  · rw [hp p] at hi
    cases hi
  · rw [hfree i, decide_eq_true hi] at hf
    cases hf
  · rw [hp p] at hk
    cases hk
  · rw [hp p] at hx
    cases hx
  · rw [hp p] at hk
    cases hk
  · rw [hintr c] at hk
    cases hk
  · rw [hp p] at hk
    cases hk
  · rw [htaken, havail]
    exact .nil (by decide)
  · rw [hseen, hused]
    exact .nil (by decide)
  · rw [hput]
    nofun
  · intro p r idx k hk
    rw [hp p] at hk
    cases hk
  · simp [State.flight, htk, hdone, hput]
  · refine iff_of_false (by simp [State.flight, htk, hdone, hput]) ?_
    rintro ⟨p, r, idx, k, hw, -, -⟩
    rw [hp p] at hw
    cases hw
  · simp [hdone, hput]
  · simp [htk]
  · intro p r k hk
    rw [hp p] at hk
    cases hk
  · intro p r idx k hk
    rw [hp p] at hk
    cases hk
  · intro p k hk
    rw [hp p] at hk
    cases hk
  · rw [hcompleted]
    nofun
  · intro c hc
    rw [hintr c] at hc
    cases hc

theorem Inv.next {e : Event P C B} (h : Inv s) (hs : (machine P C B).next s e = some s') :
    Inv s' := by
  have hI := h
  obtain ⟨hpanic, hd, hl, A, U, hf⟩ := h
  simp only [machine] at hs
  rw [if_neg (not_not_intro hpanic)] at hs
  cases e with
  | go p => exact hI.go hs
  | handle c => exact hI.handle hs
  | acquiresleep p b =>
    dsimp only at hs
    split at hs
    next hp hb =>
      obtain rfl := Option.some.inj hs
      refine ⟨hpanic, hd.congr rfl rfl rfl rfl rfl rfl fun _ => ⟨rfl, rfl⟩,
        ⟨hl.proc, hl.intr, fun q r hq => ?_⟩, A, U,
        hf.congr ⟨rfl, rfl, rfl, rfl, rfl, rfl, rfl, rfl, rfl, rfl, rfl, rfl, rfl⟩ hf.avail hf.ring
          (fun _ _ _ _ => id) (fun _ _ _ _ hw _ => hw) hf.unpublished hf.ended hf.entry⟩
      have hlock := hl.buf q r hq
      have hne : r.b ≠ b := by
        rintro rfl
        exact nomatch hb.symm.trans hlock
      exact (Function.update_of_ne hne _ _).trans hlock
    next => cases hs
  | releasesleep p b =>
    dsimp only at hs
    split at hs
    next hp =>
      split at hs
      next hb =>
        obtain rfl := Option.some.inj hs
        refine ⟨hpanic, hd.congr rfl rfl rfl rfl rfl rfl fun _ => ⟨rfl, rfl⟩,
          ⟨hl.proc, hl.intr, fun q r hq => ?_⟩, A, U,
          hf.congr ⟨rfl, rfl, rfl, rfl, rfl, rfl, rfl, rfl, rfl, rfl, rfl, rfl, rfl⟩ hf.avail hf.ring
            (fun _ _ _ _ => id) (fun _ _ _ _ hw _ => hw) hf.unpublished hf.ended hf.entry⟩
        have hlock := hl.buf q r hq
        have hne : r.b ≠ b := by
          rintro rfl
          obtain rfl := Option.some.inj (hb.symm.trans hlock)
          rw [hp] at hq
          cases hq
        exact (Function.update_of_ne hne _ _).trans hlock
      next => cases hs
    next => cases hs
  | virtio_disk_rw p r =>
    dsimp only at hs
    split at hs
    next hp =>
      split at hs
      next hb =>
        obtain rfl := Option.some.inj hs
        refine ⟨hpanic, hd.goto rfl rfl rfl rfl rfl rfl rfl (by rw [hp]; rfl) (by rw [hp]; rfl),
          ⟨forall_update (R := fun q x => x.holds → s.vdiskLock = some (.inl q)) nofun
            fun q _ => hl.proc q, hl.intr,
            forall_update (R := fun q x => ∀ r, x.call = some r → s.lock r.b = some q)
              (fun r' hr => ?_) fun q _ => hl.buf q⟩, A, U,
          hf.goto ⟨rfl, rfl, rfl, rfl, rfl, rfl, rfl, rfl, rfl, rfl, rfl, rfl, rfl⟩ rfl rfl rfl rfl nofun
            (by rw [hp]; nofun) nofun⟩
        obtain rfl := Option.some.inj hr
        exact hb
      next => cases hs
    next => cases hs
  | virtio_disk_intr c =>
    dsimp only at hs
    split at hs
    next hc =>
      obtain rfl := Option.some.inj hs
      refine ⟨hpanic, hd.congr rfl rfl rfl rfl rfl rfl fun _ => ⟨rfl, rfl⟩,
        ⟨hl.proc, fun c' hc' => ?_, hl.buf⟩, A, U,
        hf.congr ⟨rfl, rfl, rfl, rfl, rfl, rfl, rfl, rfl, rfl, rfl, rfl, rfl, rfl⟩ hf.avail hf.ring
          (fun _ _ _ _ => id) (fun _ _ _ _ hw _ => hw) hf.unpublished hf.ended fun c' hc' => ?_⟩
      · have hc' : (Function.update s.intr c .acquire c').holds = true := hc'
        by_cases hcc : c' = c
        · rw [hcc, Function.update_self] at hc'
          cases hc'
        · rw [Function.update_of_ne hcc] at hc'
          exact hl.intr c' hc'
      · have hc' : Function.update s.intr c .acquire c' = .entry := hc'
        by_cases hcc : c' = c
        · rw [hcc, Function.update_self] at hc'
          cases hc'
        · rw [Function.update_of_ne hcc] at hc'
          exact hf.entry c' hc'
    next => cases hs
  | wake p =>
    obtain rfl := Option.some.inj hs
    exact ⟨hpanic, hd.congr rfl rfl rfl rfl rfl rfl fun _ => ⟨rfl, rfl⟩,
      ⟨hl.proc, hl.intr, hl.buf⟩, A, U,
      hf.congr ⟨rfl, rfl, rfl, rfl, rfl, rfl, rfl, rfl, rfl, rfl, rfl, rfl, rfl⟩ hf.avail hf.ring
        (fun _ _ _ _ => id) (fun _ _ _ _ hw _ => hw) hf.unpublished hf.ended hf.entry⟩
  | take => exact hI.device hs
  | complete i => exact hI.device hs
  | put i => exact hI.device hs
  | used => exact hI.device hs

theorem Inv.reachable (h : (machine P C B).Reachable s) : Inv s :=
  h.invariant (fun _ => Inv.init) fun _ _ _ hI => hI.next

/-! ## Steps -/

omit [DecidableEq C] in
/-- A process moves itself only, clears no `b->disk`, and goes on waiting for a
request that is not completed. -/
theorem Inv.go_waiting (h : Inv s) (hs : s.go q = some s') :
    (∀ b, s.disk b = true → s'.disk b = true) ∧
    ∀ p r idx k, (s.pc p).waiting = some (r, idx, k) → s.disk r.b = true →
      (s'.pc p).waiting = some (r, idx, k) := by
  -- a process that goes from `pc` to `pc'`
  have hmove : ∀ (s₁ : State P C B) (pc : PC B), s₁.pc = s.pc →
      (∀ r idx k, (s.pc q).waiting = some (r, idx, k) → s.disk r.b = true →
        pc.waiting = some (r, idx, k)) →
      ∀ p r idx k, (s.pc p).waiting = some (r, idx, k) → s.disk r.b = true →
        ((s₁.goto q pc).pc p).waiting = some (r, idx, k) := by
    intro s₁ pc hpc hq p
    rw [State.goto, hpc]
    exact forall_update (R := fun p x => ∀ r idx k, (s.pc p).waiting = some (r, idx, k) →
      s.disk r.b = true → x.waiting = some (r, idx, k)) hq (fun p _ r idx k hw _ => hw) p
  rw [State.go] at hs
  split at hs
  next => cases hs
  next r hq =>
    split at hs
    next =>
      obtain rfl := Option.some.inj hs
      exact ⟨fun _ => id, hmove _ _ rfl (by simp [hq, PC.waiting])⟩
    next => cases hs
  next r hq =>
    rcases alloc3_desc_spec s with ⟨s₁, i, j, m, h₁, -, -, rfl⟩ | ⟨s₁, h₁, ⟨_, _, _, rfl⟩, -⟩
    · rw [h₁] at hs
      obtain rfl := Option.some.inj hs
      exact ⟨fun _ => id, hmove _ _ rfl (by simp [hq, PC.waiting])⟩
    · rw [h₁] at hs
      obtain rfl := Option.some.inj hs
      exact ⟨fun _ => id, hmove _ _ rfl (by simp [hq, PC.waiting])⟩
  next r hq =>
    split at hs
    next =>
      obtain rfl := Option.some.inj hs
      exact ⟨fun _ => id, hmove _ _ rfl (by simp [hq, PC.waiting])⟩
    next => cases hs
  next r idx hq =>
    obtain rfl := Option.some.inj hs
    refine ⟨fun b hb => ?_, hmove _ _ rfl (by simp [hq, PC.waiting])⟩
    show Function.update s.disk r.b true b = true
    rw [Function.update_apply]
    split
    next => rfl
    next => exact hb
  next r idx k hq =>
    obtain rfl := Option.some.inj hs
    exact ⟨fun _ => id, hmove _ _ rfl (by simp [hq, PC.waiting])⟩
  next r idx k hq =>
    obtain rfl := Option.some.inj hs
    exact ⟨fun _ => id, hmove _ _ rfl (by simp [hq, PC.waiting])⟩
  next r idx k hq =>
    split at hs
    next =>
      obtain rfl := Option.some.inj hs
      exact ⟨fun _ => id, hmove _ _ rfl (by rw [hq]; exact fun _ _ _ hw _ => hw)⟩
    next hb =>
      obtain rfl := Option.some.inj hs
      refine ⟨fun _ => id, hmove _ _ rfl fun r' idx' k' hw hb' => ?_⟩
      rw [hq] at hw
      obtain ⟨rfl, -, -⟩ := (by simpa [PC.waiting] using hw : r = r' ∧ idx = idx' ∧ k = k')
      exact absurd hb' hb
  next r idx k hq =>
    split at hs
    next =>
      obtain rfl := Option.some.inj hs
      exact ⟨fun _ => id, hmove _ _ rfl (by rw [hq]; exact fun _ _ _ hw _ => hw)⟩
    next => cases hs
  next r idx k hq =>
    obtain ⟨s₁, h₁, hpc, hdisk, -⟩ := h.finish hq
    rw [h₁] at hs
    obtain rfl := Option.some.inj hs
    exact ⟨fun b hb => (congrFun hdisk b).trans hb, hmove _ _ hpc (by simp [hq, PC.waiting])⟩
  next r k hq =>
    obtain rfl := Option.some.inj hs
    exact ⟨fun _ => id, hmove _ _ rfl (by simp [hq, PC.waiting])⟩

/-- Only the handler, in the body of its loop, clears a `b->disk`: that of the
buffer whose request is the next of the used ring. -/
theorem Inv.next_waiting {e : Event P C B} (h : Inv s) (hs : (machine P C B).next s e = some s') :
    ((∀ b, s.disk b = true → s'.disk b = true) ∧
      ∀ p r idx k, (s.pc p).waiting = some (r, idx, k) → s.disk r.b = true →
        (s'.pc p).waiting = some (r, idx, k)) ∨
    ∃ c p r idx k, e = .handle c ∧ s.intr c = .entry ∧ (s.pc p).waiting = some (r, idx, k) ∧
      s.usedRing (s.seenIdx % NUM) = idx.head ∧ s.disk r.b = true ∧ k ∈ s.completed ∧
      s'.disk = Function.update s.disk r.b false ∧ s'.pc = s.pc := by
  have same : s'.disk = s.disk → s'.pc = s.pc →
      (∀ b, s.disk b = true → s'.disk b = true) ∧
      ∀ p r idx k, (s.pc p).waiting = some (r, idx, k) → s.disk r.b = true →
        (s'.pc p).waiting = some (r, idx, k) := fun hdisk hpc => by
    rw [hdisk, hpc]
    exact ⟨fun _ => id, fun _ _ _ _ hw _ => hw⟩
  simp only [machine] at hs
  rw [if_neg (not_not_intro h.panic)] at hs
  cases e with
  | go p => exact .inl (h.go_waiting hs)
  | handle c =>
    cases hc : s.intr c with
    | entry =>
      obtain ⟨p, r, idx, k, hw, hslot, hb, hk, hs₁, -⟩ := h.entry hc
      obtain rfl := Option.some.inj (hs₁.symm.trans hs)
      exact .inr ⟨c, p, r, idx, k, rfl, hc, hw, hslot, hb, hk, rfl, rfl⟩
    | none =>
      simp only [State.handle, hc] at hs
      cases hs
    | acquire =>
      simp only [State.handle, hc] at hs
      split at hs
      next =>
        obtain rfl := Option.some.inj hs
        exact .inl (same rfl rfl)
      next => cases hs
    | loop =>
      simp only [State.handle, hc] at hs
      obtain rfl := Option.some.inj hs
      exact .inl (same rfl rfl)
    | release =>
      simp only [State.handle, hc] at hs
      obtain rfl := Option.some.inj hs
      exact .inl (same rfl rfl)
  | acquiresleep p b =>
    dsimp only at hs
    split at hs
    next =>
      obtain rfl := Option.some.inj hs
      exact .inl (same rfl rfl)
    next => cases hs
  | releasesleep p b =>
    dsimp only at hs
    split at hs
    next =>
      split at hs
      next =>
        obtain rfl := Option.some.inj hs
        exact .inl (same rfl rfl)
      next => cases hs
    next => cases hs
  | virtio_disk_rw q r =>
    dsimp only at hs
    split at hs
    next hq =>
      split at hs
      next =>
        obtain rfl := Option.some.inj hs
        refine .inl ⟨fun _ => id, fun p r' idx k hw _ => ?_⟩
        have hpq : p ≠ q := by
          rintro rfl
          rw [hq] at hw
          cases hw
        exact (congrArg PC.waiting (Function.update_of_ne hpq _ _)).trans hw
      next => cases hs
    next => cases hs
  | virtio_disk_intr c =>
    dsimp only at hs
    split at hs
    next =>
      obtain rfl := Option.some.inj hs
      exact .inl (same rfl rfl)
    next => cases hs
  | wake p =>
    obtain rfl := Option.some.inj hs
    exact .inl (same rfl rfl)
  | take =>
    obtain ⟨h₁, h₂⟩ := device_same hs
    exact .inl (same h₁ h₂)
  | complete i =>
    obtain ⟨h₁, h₂⟩ := device_same hs
    exact .inl (same h₁ h₂)
  | put i =>
    obtain ⟨h₁, h₂⟩ := device_same hs
    exact .inl (same h₁ h₂)
  | used =>
    obtain ⟨h₁, h₂⟩ := device_same hs
    exact .inl (same h₁ h₂)

/-! ## The protocol -/

/-- In every run, no panic is reached; the descriptors are the free ones and
three for each request, which are filled in until its process frees them; the
published chains are, each once, those of the processes that wait for a buffer
with `disk` set; a chain stays in flight, and what the device reads in it stays
the same, until the handler takes it from the used ring, and then it is `disk`
of this chain's buffer that is cleared; and a process is done only when its own
request, which was not completed when it was published, is completed. -/
theorem disk_protocol (h : (machine P C B).Reachable s) :
    s.panic = none ∧
    ((∀ i, i < NUM → (s.free i = true ↔ ∀ p, i ∉ (s.pc p).chain)) ∧
      (∀ p, (s.pc p).chain.Nodup ∧ ∀ i ∈ (s.pc p).chain, i < NUM) ∧
      (∀ p q i, i ∈ (s.pc p).chain → i ∈ (s.pc q).chain → p = q) ∧
      ∀ s', s.alloc3_desc = .ok (s', none) → s'.free = s.free) ∧
    (s.published.Nodup ∧
      (∀ i, i ∈ s.published ↔
        ∃ p r idx k, (s.pc p).waiting = some (r, idx, k) ∧ idx.head = i ∧ s.disk r.b = true) ∧
      (∀ p r idx k, s.pc p = .publish r idx k →
        idx.head ∉ s.published ∧ s.availRing (s.availIdx % NUM) = idx.head) ∧
      ∀ p r idx k, (s.pc p).formatted = some (r, idx, k) →
        (s.pc p).chain = idx.toList ∧ Formatted s r idx k) ∧
    ((∀ p r k, (s.pc p).unpublished = some (r, k) → k ∉ s.completed) ∧
      ∀ p k, (s.pc p).ended = some k → k ∈ s.completed) ∧
    ∀ e s', (machine P C B).next s e = some s' →
      ((∀ b, s.disk b = true → s'.disk b = true) ∧
        ∀ i ∈ s.published, i ∈ s'.published ∧ s'.request i = s.request i) ∨
      ∃ c p r idx k, e = .handle c ∧ (s.pc p).waiting = some (r, idx, k) ∧
        s.usedRing (s.seenIdx % NUM) = idx.head ∧ s.disk r.b = true ∧ k ∈ s.completed ∧
        s'.disk = Function.update s.disk r.b false ∧
        ∀ i ∈ s.published, i ≠ idx.head → i ∈ s'.published ∧ s'.request i = s.request i := by
  have hI := Inv.reachable h
  have ⟨hpanic, hd, hl, A, U, hf⟩ := hI
  have hpub := hf.published
  refine ⟨hpanic, ⟨fun i hi => ⟨fun hfree p hp => ?_, fun hno => ?_⟩,
    fun p => ⟨(hd.chain p).1, fun i hi => ((hd.chain p).2 i hi).1⟩, hd.disjoint, fun s' hs' => ?_⟩,
    ⟨hpub ▸ hf.nodup, fun i => by rw [hpub, hf.mem i], fun p r idx k hp => ⟨?_, hf.ring p r idx k hp⟩,
      fun p r idx k hp => ⟨(PC.chain_of_formatted hp).1, hd.formatted p r idx k hp⟩⟩,
    ⟨fun p r k hk => (hf.unpublished p r k hk).1, hf.ended⟩, fun e s' hs => ?_⟩
  · exact nomatch hfree.symm.trans ((hd.chain p).2 i hp).2
  · cases hfree : s.free i with
    | true => rfl
    | false =>
      obtain ⟨p, hp⟩ := hd.free i hi hfree
      exact absurd hp (hno p)
  · rcases alloc3_desc_spec s with ⟨s₁, i, j, m, h₁, -⟩ | ⟨s₁, h₁, -, hfree, -⟩
    · exact nomatch h₁.symm.trans hs'
    · obtain ⟨rfl, -⟩ := Prod.mk.inj (Except.ok.inj (h₁.symm.trans hs'))
      exact hfree
  · rw [hpub]
    exact hf.head_notMem hd (p := p) (by simp [hp, PC.chain, Chain.toList]) (by rw [hp]; rfl)
  have hI' := hI.next hs
  obtain ⟨A', U', hf'⟩ := hI'.flight
  have hpub' := hf'.published
  -- a chain whose process still waits for it
  have hkeep : ∀ {p r idx k}, (s.pc p).waiting = some (r, idx, k) →
      (s'.pc p).waiting = some (r, idx, k) → s'.disk r.b = true →
      idx.head ∈ s'.published ∧ s'.request idx.head = s.request idx.head :=
    fun {p r idx k} hw hw' hb' => by
      have hform := hd.formatted p r idx k (PC.formatted_of_waiting hw)
      have hform' := hI'.descs.formatted p r idx k (PC.formatted_of_waiting hw')
      rw [hpub', hf'.mem, hform.request, hform'.request]
      exact ⟨⟨p, r, idx, k, hw', rfl, hb'⟩, rfl⟩
  rcases hI.next_waiting hs with ⟨hdisk, hwait⟩ |
    ⟨c, p, r, idx, k, he, -, hw, hslot, hb, hk, hdisk, hpc⟩
  · refine .inl ⟨hdisk, fun i hi => ?_⟩
    rw [hpub, hf.mem i] at hi
    obtain ⟨p, r, idx, k, hw, rfl, hb⟩ := hi
    exact hkeep hw (hwait p r idx k hw hb) (hdisk r.b hb)
  · refine .inr ⟨c, p, r, idx, k, he, hw, hslot, hb, hk, hdisk, fun i hi hne => ?_⟩
    rw [hpub, hf.mem i] at hi
    obtain ⟨q, r', idx', k', hw', rfl, hb'⟩ := hi
    refine hkeep hw' (hpc ▸ hw') ?_
    have hbb : r'.b ≠ r.b := fun e => hne (by
      have hcall := fun {q r idx k} (h : (s.pc q).waiting = some (r, idx, k)) =>
        (PC.chain_of_formatted (PC.formatted_of_waiting h)).2
      obtain rfl := hl.buf_inj (hcall hw) (hcall hw') e
      obtain ⟨-, rfl, -⟩ := (by simpa [hw] using hw' : r = r' ∧ idx = idx' ∧ k = k')
      rfl)
    rw [hdisk, Function.update_of_ne hbb]
    exact hb'

end

/-- After `virtio_disk_init`. -/
def booted : State Bool Unit Bool where
  free i := decide (i < NUM)
  desc _ := ⟨.null, 0, 0, 0⟩
  ops _ := ⟨0, 0, 0⟩
  info _ := none
  status _ := 0
  availRing _ := 0
  availIdx := 0
  usedRing _ := 0
  usedIdx := 0
  seenIdx := 0
  disk _ := false
  vdiskLock := none
  lock _ := none
  pc _ := .user
  intr _ := .none
  chan _ := none
  panic := none
  takenIdx := 0
  taken := []
  done := []
  put := none
  count := 0
  number _ := 0
  completed := []

/-- Two processes read a block each, and the device completes the second
request first. -/
def twoReads : List (Event Bool Unit Bool) :=
  List.flatten [
    [.acquiresleep false false, .acquiresleep true true, .virtio_disk_rw false ⟨false, 46, false⟩],
    List.replicate 6 (.go false), [.virtio_disk_rw true ⟨true, 47, true⟩],
    List.replicate 6 (.go true), [.take, .take, .complete 3, .put 3, .used, .virtio_disk_intr ()],
    List.replicate 5 (.handle ()), List.replicate 3 (.go true)]

theorem disk_protocol_twoReads : ∃ s, (machine Bool Unit Bool).exec booted twoReads = some s ∧
    (s.published, (s.pc true).ended, s.completed) = ([0], some 1, [1]) ∧ s.panic = none ∧
    s.published.Nodup ∧ ∀ p k, (s.pc p).ended = some k → k ∈ s.completed := by
  have hrun : ((machine Bool Unit Bool).exec booted twoReads).map (fun s =>
      (s.published, (s.pc true).ended, s.completed)) = some ([0], some 1, [1]) := by
    decide +kernel
  obtain ⟨s, hs, hr⟩ := Option.map_eq_some_iff.1 hrun
  obtain ⟨hpanic, -, ⟨hnodup, -⟩, ⟨-, hover⟩, -⟩ := disk_protocol (s := s) ⟨booted, twoReads,
    ⟨fun _ => rfl, rfl, rfl, rfl, rfl, rfl, rfl, rfl, rfl, fun _ => ⟨rfl, rfl⟩, fun _ => rfl,
      fun _ => rfl, fun _ => rfl, rfl, rfl⟩, hs⟩
  exact ⟨s, hs, hr, hpanic, hnodup, hover⟩

end Xv6.VirtioDisk
