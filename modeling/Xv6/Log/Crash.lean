/-
log.c: what a crash leaves.

At any moment the disk holds the contents as of the last commit: each home
block either has them, or the header on the disk lists it and its copy in the
log has them. Recovery puts them in place.
-/
import Xv6.Log.Capacity
import Xv6.Lib.Count

namespace Xv6.Log

open Conc

variable {P B : Type} [DecidableEq P] {sb : Superblock}

/-- The contents after some changes. -/
def replay (base : Nat → B) (hist : List (Change P B)) : Nat → B :=
  hist.foldl (fun d c => Function.update d c.block c.data) base

omit [DecidableEq P] in
theorem replay_concat (base : Nat → B) (hist : List (Change P B)) (c : Change P B) :
    replay base (hist ++ [c]) = Function.update (replay base hist) c.block c.data := by
  simp [replay, List.foldl_append]

namespace State

/-- The contents that the operations see. -/
def current (s : State P B) : Nat → B := replay s.base s.hist

/-- The contents as of the last commit whose header write reached the disk. -/
def committed (s : State P B) : Nat → B := replay s.base (s.hist.take s.mark)

/-- The operation has begun and not ended. -/
def InProgress (s : State P B) (o : Op P) : Prop := s.pc o.1 = .op ∧ s.opNo o.1 = o.2

end State

/-- Every change of a buffer inside an operation is followed by `log_write`
before `brelse`, and before the operation ends. -/
def Disciplined (s : State P B) : Event P B → Prop
  | .brelse _ b => s.dirty b = false
  | .endOp p => ∀ b, s.lock b = some p → s.dirty b = false
  | _ => True

/-- The disk holds the committed contents, in place or in the log. -/
structure OnDisk (sb : Superblock) (s : State P B) : Prop where
  mark_le : s.mark ≤ s.hist.length
  logged : ∀ j b, s.head[j]? = some b → ¬ sb.InLog b ∧ s.disk (sb.slot j) = s.committed b
  home : ∀ b, ¬ sb.InLog b → b ∉ s.head → s.disk b = s.committed b

/-- Each operation is committed or not, and a committed one has ended. -/
structure Whole (s : State P B) : Prop where
  opNo : ∀ c ∈ s.hist, c.op.2 ≤ s.opNo c.op.1
  ended : ∀ c ∈ s.hist.take s.mark, ¬ s.InProgress c.op
  apart : ∀ c ∈ s.hist.take s.mark, ∀ c' ∈ s.hist.drop s.mark, c.op ≠ c'.op

/-- The process is in `commit`. -/
def PC.commits : PC → Bool
  | .out | .op => false
  | _ => true

/-- The process has written the header and not yet erased it. -/
def PC.installs : PC → Bool
  | .installTrans _ | .clear => true
  | _ => false

/-- What `commit` has done so far. -/
def PC.Phase (sb : Superblock) (s : State P B) : PC → Prop
  | .writeLog tail => ∀ j b, j < tail → s.lh[j]? = some b → s.disk (sb.slot j) = s.current b
  | .writeHead => ∀ j b, s.lh[j]? = some b → s.disk (sb.slot j) = s.current b
  | .installTrans tail => s.head = s.lh ∧ s.mark = s.hist.length ∧
    (∀ j b, j < tail → s.lh[j]? = some b → s.disk b = s.current b) ∧
    ∀ j b, tail ≤ j → s.lh[j]? = some b → 0 < s.pins b
  | .clear => s.head = s.lh ∧ s.mark = s.hist.length ∧ ∀ b ∈ s.lh, s.disk b = s.current b
  | _ => True

/-- While processes run: the cache shows the current contents, and a block
whose contents are not committed is in the log header, or held by an operation
that has changed it. -/
structure Running [Fintype P] (sb : Superblock) (s : State P B) : Prop where
  count : s.outstanding = (Finset.univ.filter fun p => s.pc p = .op).card
  committing : ∀ p, (s.pc p).commits → s.committing
  alone : ∀ p, (s.pc p).commits → s.outstanding = 0
  one : ∀ p q, (s.pc p).commits → (s.pc q).commits → p = q
  lockHome : ∀ b p, s.lock b = some p → ¬ sb.InLog b
  dirtyLock : ∀ b, s.dirty b → ∃ p, s.lock b = some p ∧ s.pc p = .op
  view : ∀ b, ¬ sb.InLog b → s.read b = s.current b
  logCache : ∀ b v, sb.InLog b → s.cache b = some v → s.disk b = v
  clean : ∀ b, ¬ sb.InLog b → b ∉ s.lh → s.dirty b = false → s.current b = s.committed b
  lhHome : ∀ b ∈ s.lh, ¬ sb.InLog b
  before : (∀ p, ¬ (s.pc p).installs) → s.head = [] ∧ ∀ b ∈ s.lh, 0 < s.pins b
  phase : ∀ p, (s.pc p).Phase sb s

/-- What `recover_from_log` has done so far. -/
def Boot.Phase (sb : Superblock) (s : State P B) : Boot → Prop
  | .readHead => True
  | .installTrans tail => s.lh = s.head ∧
    ∀ j b, j < tail → s.head[j]? = some b → s.disk b = s.committed b
  | .clear => ∀ b, ¬ sb.InLog b → s.disk b = s.committed b

/-- While the log is recovered there is nothing else. -/
structure Booting (sb : Superblock) (s : State P B) (r : Boot) : Prop where
  coherent : ∀ b v, s.cache b = some v → s.disk b = v
  lock : ∀ b, s.lock b = none
  dirty : ∀ b, s.dirty b = false
  outstanding : s.outstanding = 0
  pc : ∀ p, s.pc p = .out
  mark : s.mark = s.hist.length
  phase : r.Phase sb s

/-- The invariant of the log. -/
structure Inv [Fintype P] (sb : Superblock) (s : State P B) : Prop where
  listed : Listed sb s
  onDisk : OnDisk sb s
  whole : Whole s
  running : s.boot = none → s.panicked = none → Running sb s
  booting : ∀ r, s.boot = some r → Booting sb s r

omit [DecidableEq P] in
theorem committed_of_mark {s : State P B} (h : s.mark = s.hist.length) :
    s.committed = s.current := by
  rw [State.committed, h, List.take_length, State.current]

omit [DecidableEq P] in
/-- A slot of the log header is in the log region. -/
theorem inLog_slot {s : State P B} (h : Listed sb s) {j : Nat} {b : Nat}
    (hj : s.lh[j]? = some b) : sb.InLog (sb.slot j) := by
  have hlt := (List.getElem?_eq_some_iff.1 hj).1
  have hle := h.lh_le
  unfold Superblock.InLog Superblock.slot
  omega

theorem ne_slot {b : Nat} (hb : ¬ sb.InLog b) {c : Nat} (hc : sb.InLog c) : b ≠ c :=
  fun he => hb (he ▸ hc)

namespace PC

variable {s s' : State P B}

omit [DecidableEq P] in
theorem Phase.of_not_commits {pc : PC} (h : ¬ pc.commits) : pc.Phase sb s := by
  cases pc <;> first | exact trivial | exact absurd rfl h

omit [DecidableEq P] in
theorem Phase.congr {pc : PC} (h : pc.Phase sb s) (hlh : s'.lh = s.lh) (hdisk : s'.disk = s.disk)
    (hhead : s'.head = s.head) (hmark : s'.mark = s.mark) (hhist : s'.hist = s.hist)
    (hpins : s'.pins = s.pins) (hbase : s'.base = s.base) : pc.Phase sb s' := by
  cases pc with
  | out | op | finish => trivial
  | _ => simpa only [Phase, State.current, hlh, hdisk, hhead, hmark, hhist, hpins, hbase] using h

end PC

namespace State

variable {s : State P B} {p q : P} {pc : PC}

@[simp] theorem goto_self : (s.goto p pc).pc p = pc := by simp [goto]

theorem goto_of_ne (h : q ≠ p) : (s.goto p pc).pc q = s.pc q := by simp [goto, h]

end State

/-! ## Operations -/

namespace Whole

variable {s s' : State P B} {p : P} {b : Nat}

omit [DecidableEq P] in
theorem congr (h : Whole s) (hhist : s'.hist = s.hist) (hmark : s'.mark = s.mark)
    (hop : s'.opNo = s.opNo) (hpc : ∀ q, s'.pc q = .op → s.pc q = .op) : Whole s' := by
  refine ⟨?_, fun c hc hin => ?_, ?_⟩
  · rw [hhist, hop]
    exact h.opNo
  · rw [hhist, hmark] at hc
    exact h.ended c hc ⟨hpc _ hin.1, by rw [← hop]; exact hin.2⟩
  · rw [hhist, hmark]
    exact h.apart

theorem beginOp (h : Whole s) (hs : s.beginOp p = some s') : Whole s' := by
  unfold State.beginOp at hs
  repeat' split at hs
  all_goals first
    | obtain rfl := Option.some.inj hs
    | cases hs
  have hle : ∀ q, s.opNo q ≤ Function.update s.opNo p (s.opNo p + 1) q := fun q => by
    by_cases hq : q = p
    · subst hq
      simp
    · simp [hq]
  refine ⟨fun c hc => (h.opNo c hc).trans (hle _), fun c hc hin => ?_, h.apart⟩
  by_cases hq : c.op.1 = p
  · have hno := h.opNo c (List.mem_of_mem_take hc)
    have hin' : Function.update s.opNo p (s.opNo p + 1) c.op.1 = c.op.2 := hin.2
    rw [hq, Function.update_self] at hin'
    rw [hq] at hno
    omega
  · have hpc : s.pc c.op.1 = .op := (State.goto_of_ne hq).symm.trans hin.1
    have hno : Function.update s.opNo p (s.opNo p + 1) c.op.1 = c.op.2 := hin.2
    rw [Function.update_of_ne hq] at hno
    exact h.ended c hc ⟨hpc, hno⟩

theorem modify {data : B} (h : Whole s) (hm : s.mark ≤ s.hist.length)
    (hs : s.modify p b data = some s') : Whole s' := by
  unfold State.modify at hs
  split at hs
  case isFalse => cases hs
  next hop =>
  obtain rfl := Option.some.inj hs
  refine ⟨fun c hc => ?_, fun c hc => ?_, fun c hc c' hc' => ?_⟩
  · rcases List.mem_append.1 hc with hc | hc
    · exact h.opNo c hc
    · obtain rfl := List.mem_singleton.1 hc
      exact Nat.le_refl _
  · dsimp only at hc
    rw [List.take_append_of_le_length hm] at hc
    exact h.ended c hc
  · dsimp only at hc hc'
    rw [List.take_append_of_le_length hm] at hc
    rw [List.drop_append_of_le_length hm] at hc'
    rcases List.mem_append.1 hc' with hc' | hc'
    · exact h.apart c hc c' hc'
    · obtain rfl := List.mem_singleton.1 hc'
      -- The committed operations have ended, and this one has not.
      exact fun he => h.ended c hc ⟨by rw [he]; exact hop.2, by rw [he]⟩

omit [DecidableEq P] in
/-- Everything is committed, and no operation is in progress. -/
theorem commit (h : Whole s) (hhist : s'.hist = s.hist) (hmark : s'.mark = s.hist.length)
    (hop : s'.opNo = s.opNo) (hpc : ∀ q, s'.pc q ≠ .op) : Whole s' := by
  refine ⟨?_, fun c _ hin => hpc _ hin.1, fun c _ c' hc' => ?_⟩
  · rw [hhist, hop]
    exact h.opNo
  · rw [hhist, hmark, List.drop_length] at hc'
    cases hc'

omit [DecidableEq P] in
theorem crash (h : Whole s) : Whole s.crash := by
  refine ⟨fun c hc => h.opNo c (List.mem_of_mem_take hc), fun c _ hin => (nomatch hin.1),
    fun c _ c' hc' => ?_⟩
  have : (s.hist.take s.mark).drop s.mark = [] := List.drop_eq_nil_of_le (List.length_take_le _ _)
  rw [show s.crash.hist.drop s.crash.mark = [] from this] at hc'
  cases hc'

end Whole

/-! ## The disk -/

namespace OnDisk

variable {s s' : State P B} {b : Nat}

omit [DecidableEq P] in
theorem congr (h : OnDisk sb s) (hdisk : s'.disk = s.disk) (hhead : s'.head = s.head)
    (hhist : s'.hist = s.hist) (hmark : s'.mark = s.mark) (hbase : s'.base = s.base) :
    OnDisk sb s' := by
  obtain ⟨h₁, h₂, h₃⟩ := h
  unfold State.committed at h₂ h₃
  constructor <;> simpa only [State.committed, hdisk, hhead, hhist, hmark, hbase]

omit [DecidableEq P] in
theorem crash (h : OnDisk sb s) : OnDisk sb s.crash := by
  have hc : s.crash.committed = s.committed := by
    show replay s.base ((s.hist.take s.mark).take s.mark) = _
    rw [List.take_take, Nat.min_self]
    rfl
  refine ⟨?_, fun j b hj => ?_, fun b hb hn => ?_⟩
  · show s.mark ≤ (s.hist.take s.mark).length
    rw [List.length_take]
    exact le_min (Nat.le_refl _) h.mark_le
  · rw [hc]
    exact h.logged j b hj
  · rw [hc]
    exact h.home b hb hn

omit [DecidableEq P] in
/-- Writing the committed contents of a block in place. -/
theorem install (h : OnDisk sb s) (hb : ¬ sb.InLog b) (hle : s.head.length ≤ sb.nlog - 1)
    (hdisk : s'.disk = Function.update s.disk b (s.committed b)) (hhead : s'.head = s.head)
    (hhist : s'.hist = s.hist) (hmark : s'.mark = s.mark) (hbase : s'.base = s.base) :
    OnDisk sb s' := by
  have hc : s'.committed = s.committed := by rw [State.committed, hhist, hmark, hbase]; rfl
  refine ⟨by rw [hmark, hhist]; exact h.mark_le, fun j c hj => ?_, fun c hc' hn => ?_⟩
  · rw [hhead] at hj
    obtain ⟨hnc, hd⟩ := h.logged j c hj
    have hlt := (List.getElem?_eq_some_iff.1 hj).1
    have hslot : sb.slot j ≠ b := fun he => hb (by
      rw [← he]
      unfold Superblock.InLog Superblock.slot
      omega)
    rw [hdisk, Function.update_of_ne hslot, hc]
    exact ⟨hnc, hd⟩
  · rw [hdisk, hc]
    by_cases hcb : c = b
    · subst hcb
      rw [Function.update_self]
    · rw [Function.update_of_ne hcb]
      exact h.home c hc' (by rwa [hhead] at hn)

omit [DecidableEq P] in
/-- Erasing a header whose blocks are all in place. -/
theorem erase (h : OnDisk sb s) (hp : ∀ b, ¬ sb.InLog b → s.disk b = s.committed b)
    (hdisk : s'.disk = s.disk) (hhead : s'.head = []) (hhist : s'.hist = s.hist)
    (hmark : s'.mark = s.mark) (hbase : s'.base = s.base) : OnDisk sb s' := by
  have hc : s'.committed = s.committed := by rw [State.committed, hhist, hmark, hbase]; rfl
  refine ⟨by rw [hmark, hhist]; exact h.mark_le, fun j c hj => ?_, fun c hc' _ => ?_⟩
  · rw [hhead] at hj
    cases hj
  · rw [hdisk, hc]
    exact hp c hc'

end OnDisk

/-! ## Steps of the processes -/

namespace Running

variable [Fintype P] {s s' s₀ : State P B} {p : P} {b : Nat} {pc : PC}

omit [DecidableEq P] in
/-- While an operation is in progress nobody commits. -/
theorem idle_of_op (h : Running sb s) (hp : s.pc p = .op) (q : P) : ¬ (s.pc q).commits :=
  fun hq => by
    have hz := h.alone q hq
    rw [h.count, Finset.card_eq_zero] at hz
    exact Finset.notMem_empty p (hz ▸ Finset.mem_filter.2 ⟨Finset.mem_univ p, hp⟩)

omit [DecidableEq P] in
/-- While a process commits no operation is in progress. -/
theorem no_op (h : Running sb s) (hp : (s.pc p).commits) (q : P) : s.pc q ≠ .op :=
  fun hq => h.idle_of_op hq p hp

omit [DecidableEq P] in
theorem clean_of_commits (h : Running sb s) (hp : (s.pc p).commits) (b : Nat) :
    s.dirty b = false := by
  by_contra hd
  obtain ⟨q, -, hq⟩ := h.dirtyLock b (by simpa using hd)
  exact h.no_op hp q hq

/-- The operations in progress after process `p` goes on at `pc`. -/
theorem card_goto_op (s : State P B) (p : P) (pc : PC) :
    (Finset.univ.filter fun q => (s.goto p pc).pc q = .op).card + (if s.pc p = .op then 1 else 0) =
      (Finset.univ.filter fun q => s.pc q = .op).card + if pc = .op then 1 else 0 := by
  have hcard := card_filter_change (K := P) (k := p) (fun q hq => by rw [State.goto_of_ne hq] :
    ∀ q, q ≠ p → ((s.goto p pc).pc q = .op ↔ s.pc q = .op))
  rwa [State.goto_self] at hcard

omit [DecidableEq P] in
/-- The invariant where nobody commits. -/
theorem ofIdle (hno : ∀ q, ¬ (s.pc q).commits)
    (count : s.outstanding = (Finset.univ.filter fun p => s.pc p = .op).card)
    (lockHome : ∀ b p, s.lock b = some p → ¬ sb.InLog b)
    (dirtyLock : ∀ b, s.dirty b → ∃ p, s.lock b = some p ∧ s.pc p = .op)
    (view : ∀ b, ¬ sb.InLog b → s.read b = s.current b)
    (logCache : ∀ b v, sb.InLog b → s.cache b = some v → s.disk b = v)
    (clean : ∀ b, ¬ sb.InLog b → b ∉ s.lh → s.dirty b = false → s.current b = s.committed b)
    (lhHome : ∀ b ∈ s.lh, ¬ sb.InLog b)
    (before : s.head = [] ∧ ∀ b ∈ s.lh, 0 < s.pins b) : Running sb s where
  count := count
  committing q hq := absurd hq (hno q)
  alone q hq := absurd hq (hno q)
  one q _ hq := absurd hq (hno q)
  lockHome := lockHome
  dirtyLock := dirtyLock
  view := view
  logCache := logCache
  clean := clean
  lhHome := lhHome
  before _ := before
  phase q := .of_not_commits (hno q)

omit [DecidableEq P] in
/-- Where nobody commits nobody installs. -/
theorem idle_before (h : Running sb s) (hno : ∀ q, ¬ (s.pc q).commits) :
    s.head = [] ∧ ∀ b ∈ s.lh, 0 < s.pins b :=
  h.before fun q hq => hno q (by
    cases hpc : s.pc q <;> rw [hpc] at hq <;> first | rfl | cases hq)

omit [DecidableEq P] in
/-- Where one process commits and does not install, nobody does. -/
theorem no_installs (h : Running sb s) (hp : (s.pc p).commits) (hi : ¬ (s.pc p).installs) (q : P) :
    ¬ (s.pc q).installs := fun hq => by
  have hc : (s.pc q).commits := by
    cases hpc : s.pc q <;> rw [hpc] at hq <;> first | rfl | cases hq
  rw [h.one q p hc hp] at hq
  exact hi hq

omit [DecidableEq P] in
/-- A change to the cache and the buffer locks. -/
theorem cache (h : Running sb s) (hs : s' = { s with cache := s'.cache, lock := s'.lock })
    (lockHome : ∀ b p, s'.lock b = some p → ¬ sb.InLog b)
    (dirtyLock : ∀ b, s.dirty b → s'.lock b = s.lock b)
    (view : ∀ b, ¬ sb.InLog b → s'.read b = s.read b)
    (logCache : ∀ b v, sb.InLog b → s'.cache b = some v → s.disk b = v) : Running sb s' := by
  obtain ⟨disk, head, c', l', pins, outstanding, committing, lh, pc, boot, panicked, base, hist,
    mark, opNo, dirty, since⟩ := s'
  cases hs
  refine ⟨h.count, h.committing, h.alone, h.one, lockHome, fun b hb => ?_, fun b hb => ?_, logCache,
    h.clean, h.lhHome, h.before, fun q => (h.phase q).congr rfl rfl rfl rfl rfl rfl rfl⟩
  · rw [dirtyLock b hb]
    exact h.dirtyLock b hb
  · exact (view b hb).trans (h.view b hb)

omit [DecidableEq P] in
theorem bread (h : Running sb s) (hs : s.bread sb p b = some s') : Running sb s' := by
  unfold State.bread at hs
  split at hs
  case isFalse => cases hs
  next hb =>
  obtain rfl := Option.some.inj hs
  refine h.cache rfl (fun c q hc => ?_) (fun c hc => ?_) (fun c _ => ?_) fun c v hc hv => ?_
  · dsimp only at hc
    by_cases hcb : c = b
    · subst hcb
      exact hb.1
    · rw [Function.update_of_ne hcb] at hc
      exact h.lockHome c q hc
  · dsimp only
    refine Function.update_of_ne (fun he => ?_) _ _
    obtain ⟨q, hq, -⟩ := h.dirtyLock c hc
    rw [he, hb.2] at hq
    cases hq
  · simp only [State.read, State.load]
    by_cases hcb : c = b
    · subst hcb
      simp
    · simp [hcb]
  · simp only [State.load] at hv
    have hcb : c ≠ b := fun he => hb.1 (by rwa [← he])
    rw [Function.update_of_ne hcb] at hv
    exact h.logCache c v hc hv

theorem brelse (h : Running sb s) (hd : s.dirty b = false) (hs : s.brelse p b = some s') :
    Running sb s' := by
  unfold State.brelse at hs
  split at hs
  case isFalse => cases hs
  obtain rfl := Option.some.inj hs
  refine h.cache rfl (fun c q hc => ?_) (fun c hc => ?_) (fun c _ => rfl) h.logCache
  · dsimp only at hc
    by_cases hcb : c = b
    · rw [hcb, Function.update_self] at hc
      cases hc
    · rw [Function.update_of_ne hcb] at hc
      exact h.lockHome c q hc
  · refine Function.update_of_ne (fun he => ?_) _ _
    rw [he, hd] at hc
    cases hc

omit [DecidableEq P] in
/-- A block that nobody holds or has pinned is the same on the disk. -/
theorem disk_eq (h : Running sb s) (ho : OnDisk sb s) (hb : ¬ sb.InLog b) (hl : s.lock b = none)
    (hp : s.pins b = 0) : s.disk b = s.current b := by
  by_cases hi : ∃ q, (s.pc q).installs
  · obtain ⟨q, hq⟩ := hi
    have hph := h.phase q
    have hin : s.head = s.lh → s.mark = s.hist.length → b ∉ s.lh → s.disk b = s.current b :=
      fun hh hm hn => by
        rw [← committed_of_mark hm]
        exact ho.home b hb (hh ▸ hn)
    cases hpc : s.pc q with
    | installTrans tail =>
      rw [hpc] at hph
      obtain ⟨hh, hm, hdone, hleft⟩ := hph
      by_cases hmem : b ∈ s.lh
      · obtain ⟨j, hj⟩ := List.mem_iff_getElem?.1 hmem
        by_cases hjt : j < tail
        · exact hdone j b hjt hj
        · have := hleft j b (by omega) hj
          omega
      · exact hin hh hm hmem
    | clear =>
      rw [hpc] at hph
      obtain ⟨hh, hm, hdone⟩ := hph
      by_cases hmem : b ∈ s.lh
      · exact hdone b hmem
      · exact hin hh hm hmem
    | _ =>
      rw [hpc] at hq
      cases hq
  · rw [not_exists] at hi
    obtain ⟨hh, hpin⟩ := h.before hi
    have hmem : b ∉ s.lh := fun hm => by
      have := hpin b hm
      omega
    have hd : s.dirty b = false := by
      by_contra hd
      obtain ⟨q, hq, -⟩ := h.dirtyLock b (by simpa using hd)
      rw [hl] at hq
      cases hq
    rw [h.clean b hb hmem hd]
    exact ho.home b hb (by rw [hh]; exact List.not_mem_nil)

omit [DecidableEq P] in
theorem evict (h : Running sb s) (ho : OnDisk sb s) (hs : s.evict b = some s') : Running sb s' := by
  unfold State.evict at hs
  split at hs
  case isFalse => cases hs
  next hb =>
  obtain rfl := Option.some.inj hs
  refine h.cache rfl h.lockHome (fun _ _ => rfl) (fun c hc => ?_) fun c v hc hv => ?_
  · by_cases hcb : c = b
    · subst hcb
      rw [h.view c hc, ← h.disk_eq ho hc hb.1 hb.2]
      simp [State.read]
    · simp [State.read, hcb]
  · by_cases hcb : c = b
    · subst hcb
      simp at hv
    · dsimp only at hv
      rw [Function.update_of_ne hcb] at hv
      exact h.logCache c v hc hv

theorem beginOp (h : Running sb s) (hs : s.beginOp p = some s') : Running sb s' := by
  unfold State.beginOp at hs
  split at hs
  case isFalse => cases hs
  next hpc =>
  split at hs
  · cases hs
  next hcom =>
  split at hs
  · cases hs
  obtain rfl := Option.some.inj hs
  have hno : ∀ q, ¬ (s.pc q).commits := fun q hq => hcom (h.committing q hq)
  have hpcs : ∀ q, ((s.goto p .op).pc q = .op ↔ s.pc q = .op) ∨ q = p := fun q => by
    by_cases hq : q = p
    · exact .inr hq
    · exact .inl (by rw [State.goto_of_ne hq])
  refine .ofIdle (fun q => ?_) ?_ h.lockHome (fun c hc => ?_) h.view h.logCache h.clean h.lhHome
    (h.idle_before hno)
  · by_cases hq : q = p
    · subst hq
      rw [State.goto_self]
      exact Bool.false_ne_true
    · rw [State.goto_of_ne hq]
      exact hno q
  · have hcard := card_goto_op s p .op
    rw [if_neg (by rw [hpc]; nofun), if_pos rfl, ← h.count] at hcard
    exact hcard.symm
  · obtain ⟨q, hl, hq⟩ := h.dirtyLock c hc
    refine ⟨q, hl, ?_⟩
    by_cases hqp : q = p
    · subst hqp
      exact State.goto_self
    · rwa [State.goto_of_ne hqp]

theorem modify {data : B} (h : Running sb s) (hm : s.mark ≤ s.hist.length)
    (hs : s.modify p b data = some s') : Running sb s' := by
  unfold State.modify at hs
  split at hs
  case isFalse => cases hs
  next hop =>
  obtain rfl := Option.some.inj hs
  have hb := h.lockHome b p hop.1
  have hno := h.idle_of_op hop.2
  refine .ofIdle hno h.count h.lockHome (fun c hc => ?_) (fun c hc => ?_) (fun c v hc hv => ?_)
    (fun c hc hmem hd => ?_) h.lhHome (h.idle_before hno)
  · by_cases hcb : c = b
    · subst hcb
      exact ⟨p, hop⟩
    · dsimp only at hc
      rw [Function.update_of_ne hcb] at hc
      exact h.dirtyLock c hc
  · have := h.view c hc
    simp only [State.read, State.current, replay_concat] at this ⊢
    by_cases hcb : c = b
    · subst hcb
      simp
    · rw [Function.update_of_ne hcb, Function.update_of_ne hcb]
      exact this
  · have hcb : c ≠ b := fun he => hb (by rwa [← he])
    dsimp only at hv
    rw [Function.update_of_ne hcb] at hv
    exact h.logCache c v hc hv
  · have hcb : c ≠ b := fun he => by
      subst he
      simp at hd
    dsimp only at hd
    rw [Function.update_of_ne hcb] at hd
    simp only [State.current, State.committed, replay_concat]
    rw [Function.update_of_ne hcb, List.take_append_of_le_length hm]
    exact h.clean c hc hmem hd

theorem logWrite (h : Running sb s) (hs : s.logWrite sb p b = some s') (hp : s'.panicked = none) :
    Running sb s' := by
  unfold State.logWrite at hs
  split at hs
  case isFalse => cases hs
  next hop =>
  split at hs
  · obtain rfl := Option.some.inj hs
    cases hp
  split at hs
  · obtain rfl := Option.some.inj hs
    cases hp
  have hb := h.lockHome b p hop.1
  have hno := h.idle_of_op hop.2
  have hdirty : ∀ c, Function.update s.dirty b false c → s.dirty c := fun c hc => by
    by_cases hcb : c = b
    · subst hcb
      simp at hc
    · rwa [Function.update_of_ne hcb] at hc
  dsimp only at hs
  split at hs
  · next hmem =>
    obtain rfl := Option.some.inj hs
    refine .ofIdle hno h.count h.lockHome (fun c hc => h.dirtyLock c (hdirty c hc)) h.view
      h.logCache (fun c hc hn hd => ?_) h.lhHome (h.idle_before hno)
    have hcb : c ≠ b := fun he => hn (by rwa [he])
    dsimp only at hd
    rw [Function.update_of_ne hcb] at hd
    exact h.clean c hc hn hd
  · obtain rfl := Option.some.inj hs
    obtain ⟨hh, hpin⟩ := h.idle_before hno
    refine .ofIdle hno h.count h.lockHome (fun c hc => h.dirtyLock c (hdirty c hc)) h.view
      h.logCache (fun c hc hn hd => ?_) (fun c hc => ?_) ⟨hh, fun c hc => ?_⟩
    · rw [List.mem_append, List.mem_singleton, not_or] at hn
      dsimp only at hd
      rw [Function.update_of_ne hn.2] at hd
      exact h.clean c hc hn.1 hd
    · rcases List.mem_append.1 hc with hc | hc
      · exact h.lhHome c hc
      · rwa [List.mem_singleton.1 hc]
    · dsimp only
      by_cases hcb : c = b
      · subst hcb
        rw [Function.update_self]
        exact Nat.succ_pos _
      · rw [Function.update_of_ne hcb]
        rcases List.mem_append.1 hc with hc | hc
        · exact hpin c hc
        · exact absurd (List.mem_singleton.1 hc) hcb

theorem endOp (h : Running sb s) (hd : ∀ b, s.lock b = some p → s.dirty b = false)
    (hs : s.endOp p = some s') (hp : s'.panicked = none) : Running sb s' := by
  unfold State.endOp at hs
  split at hs
  case isFalse => cases hs
  next hop =>
  have hno := h.idle_of_op hop
  have hcard : ∀ pc, pc ≠ .op → s.outstanding - 1 =
      (Finset.univ.filter fun q => (s.goto p pc).pc q = .op).card := fun pc hpc => by
    have := card_goto_op s p pc
    rw [if_pos hop, if_neg hpc, ← h.count] at this
    omega
  have hdirty : ∀ pc c, s.dirty c → ∃ q, s.lock c = some q ∧ (s.goto p pc).pc q = .op :=
    fun pc c hc => by
      obtain ⟨q, hl, hq⟩ := h.dirtyLock c hc
      have hqp : q ≠ p := fun he => by
        subst he
        rw [hd c hl] at hc
        cases hc
      exact ⟨q, hl, by rwa [State.goto_of_ne hqp]⟩
  dsimp only at hs
  split at hs
  · obtain rfl := Option.some.inj hs
    cases hp
  split at hs
  · next hz =>
    obtain rfl := Option.some.inj hs
    have hbefore := h.idle_before hno
    have hpc : ∀ q, q ≠ p → ¬ ((s.goto p (if s.lh = [] then .finish else .writeLog 0)).pc q).commits :=
      fun q hq => by
        rw [State.goto_of_ne hq]
        exact hno q
    have hself := fun q hq => by_contra fun hqp => hpc q hqp hq
    refine ⟨?_, fun _ _ => rfl, fun _ _ => hz, fun q r hq hr => ?_, h.lockHome, hdirty _, h.view,
      h.logCache, h.clean, h.lhHome, fun _ => hbefore, fun q => ?_⟩
    · refine hcard _ ?_
      split <;> nofun
    · exact (hself q hq).trans (hself r hr).symm
    · by_cases hq : q = p
      · subst hq
        rw [State.goto_self]
        split
        · trivial
        · exact fun j b hj => absurd hj (Nat.not_lt_zero j)
      · exact .of_not_commits (hpc q hq)
  · obtain rfl := Option.some.inj hs
    refine .ofIdle (fun q => ?_) (hcard _ nofun) h.lockHome (hdirty _) h.view h.logCache h.clean
      h.lhHome (h.idle_before hno)
    by_cases hq : q = p
    · subst hq
      rw [State.goto_self]
      exact Bool.false_ne_true
    · rw [State.goto_of_ne hq]
      exact hno q

/-- A step of the process that commits. -/
theorem ofCommit (h : Running sb s) (hp : (s.pc p).commits) (hpc : s₀.pc = s.pc)
    (hout : s₀.outstanding = s.outstanding) (hcom : s₀.committing = s.committing)
    (hlock : s₀.lock = s.lock) (hdirty : s₀.dirty = s.dirty) (hc : pc.commits)
    (view : ∀ b, ¬ sb.InLog b → s₀.read b = s₀.current b)
    (logCache : ∀ b v, sb.InLog b → s₀.cache b = some v → s₀.disk b = v)
    (clean : ∀ b, ¬ sb.InLog b → b ∉ s₀.lh → s₀.current b = s₀.committed b)
    (lhHome : ∀ b ∈ s₀.lh, ¬ sb.InLog b)
    (before : ¬ pc.installs → s₀.head = [] ∧ ∀ b ∈ s₀.lh, 0 < s₀.pins b)
    (phase : pc.Phase sb s₀) : Running sb (s₀.goto p pc) := by
  have hne : ∀ q, q ≠ p → (s₀.goto p pc).pc q = s.pc q := fun q hq => by
    rw [State.goto_of_ne hq, hpc]
  have hother : ∀ q, q ≠ p → ¬ ((s₀.goto p pc).pc q).commits := fun q hq hcq => by
    rw [hne q hq] at hcq
    exact hq (h.one q p hcq hp)
  have hself := fun q hq => by_contra fun hqp => hother q hqp hq
  have hop : ∀ q, (s₀.goto p pc).pc q ≠ .op := fun q => by
    by_cases hq : q = p
    · subst hq
      rw [State.goto_self]
      rintro rfl
      cases hc
    · rw [hne q hq]
      exact h.no_op hp q
  have hz := h.alone p hp
  refine ⟨?_, fun _ _ => hcom.trans (h.committing p hp), fun _ _ => hout.trans hz,
    fun q r hq hr => ?_, fun b q hb => h.lockHome b q (by rw [← hlock]; exact hb), fun b hb => ?_,
    view, logCache, fun b hb hn _ => clean b hb hn, lhHome, fun hi => before ?_, fun q => ?_⟩
  · rw [Finset.filter_false_of_mem fun q _ => hop q]
    exact hout.trans hz
  · exact (hself q hq).trans (hself r hr).symm
  · have hb' : s.dirty b := by
      rw [← hdirty]
      exact hb
    rw [h.clean_of_commits hp b] at hb'
    cases hb'
  · have := hi p
    rwa [State.goto_self] at this
  · by_cases hq : q = p
    · subst hq
      rw [State.goto_self]
      exact phase.congr rfl rfl rfl rfl rfl rfl rfl
    · exact .of_not_commits (hother q hq)

/-- One turn of the loop of `write_log`. -/
theorem writeLog {tail : Nat} (h : Running sb s) (hl : Listed sb s) (ho : OnDisk sb s)
    (hpc : s.pc p = .writeLog tail) (hs : s.commit sb p = some s') :
    Running sb s' ∧ OnDisk sb s' := by
  have hp : (s.pc p).commits := by rw [hpc]; rfl
  have hbefore := h.before (h.no_installs hp (by rw [hpc]; exact Bool.false_ne_true))
  have hphase := h.phase p
  rw [hpc] at hphase
  have hclean : ∀ c, ¬ sb.InLog c → c ∉ s.lh → s.current c = s.committed c := fun c hc hn =>
    h.clean c hc hn (h.clean_of_commits hp c)
  simp only [State.commit, hpc] at hs
  split at hs
  · next b hb =>
    split at hs
    case isFalse => cases hs
    obtain rfl := Option.some.inj hs
    have hslot := inLog_slot hl hb
    have hbh := h.lhHome b (List.mem_of_getElem? hb)
    refine ⟨h.ofCommit hp rfl rfl rfl rfl rfl rfl (fun c hc => ?_) (fun c v hc hv => ?_) hclean
      h.lhHome (fun _ => hbefore) fun j c hj hjc => ?_, ho.mark_le, fun j c hj => ?_,
      fun c hc hn => ?_⟩
    · have hcs : c ≠ sb.slot tail := ne_slot hc hslot
      have := h.view c hc
      show _ = s.current c
      rw [← this]
      simp only [State.read, State.bwrite, State.load]
      rw [Function.update_of_ne hcs, Function.update_of_ne hcs]
      by_cases hcb : c = b
      · subst hcb
        simp
      · simp [hcb]
    · simp only [State.bwrite, State.load] at hv ⊢
      by_cases hcs : c = sb.slot tail
      · subst hcs
        rw [Function.update_self] at hv ⊢
        exact Option.some.inj hv
      · rw [Function.update_of_ne hcs] at hv ⊢
        rw [Function.update_of_ne fun he => hbh (by rwa [← he])] at hv
        exact h.logCache c v hc hv
    · show Function.update s.disk _ _ _ = s.current c
      by_cases hjt : j = tail
      · subst hjt
        rw [Function.update_self]
        obtain rfl : b = c := Option.some.inj (hb.symm.trans hjc)
        exact h.view b hbh
      · have hne : sb.slot j ≠ sb.slot tail := fun he => hjt (by
          unfold Superblock.slot at he
          omega)
        rw [Function.update_of_ne hne]
        exact hphase j c (by omega) hjc
    · have hj' : s.head[j]? = some c := hj
      rw [hbefore.1] at hj'
      cases hj'
    · show Function.update s.disk _ _ c = s.committed c
      rw [Function.update_of_ne (ne_slot hc hslot)]
      exact ho.home c hc hn
  · next hend =>
    obtain rfl := Option.some.inj hs
    refine ⟨h.ofCommit hp rfl rfl rfl rfl rfl rfl h.view h.logCache hclean h.lhHome
      (fun _ => hbefore) fun j c hjc => hphase j c ?_ hjc, ho.congr rfl rfl rfl rfl rfl⟩
    have hlt := (List.getElem?_eq_some_iff.1 hjc).1
    rw [List.getElem?_eq_none_iff] at hend
    omega

/-- The header write commits. -/
theorem writeHead (h : Running sb s) (hpc : s.pc p = .writeHead) (hs : s.commit sb p = some s') :
    Running sb s' := by
  have hp : (s.pc p).commits := by rw [hpc]; rfl
  have hpin := (h.before (h.no_installs hp (by rw [hpc]; exact Bool.false_ne_true))).2
  simp only [State.commit, hpc] at hs
  obtain rfl := Option.some.inj hs
  refine h.ofCommit hp rfl rfl rfl rfl rfl rfl h.view h.logCache (fun c hc hn => ?_) h.lhHome
    (fun hi => absurd rfl hi) ⟨rfl, rfl, fun j c hj => absurd hj (Nat.not_lt_zero j),
      fun j c _ hjc => hpin c (List.mem_of_getElem? hjc)⟩
  exact (congrFun (committed_of_mark (s := { s with head := s.lh, mark := s.hist.length }) rfl)
    c).symm

/-- One turn of the loop of `install_trans`. -/
theorem installTrans {tail : Nat} (h : Running sb s) (hl : Listed sb s) (hnodup : s.lh.Nodup)
    (ho : OnDisk sb s) (hpc : s.pc p = .installTrans tail) (hs : s.commit sb p = some s') :
    Running sb s' ∧ OnDisk sb s' := by
  have hp : (s.pc p).commits := by rw [hpc]; rfl
  have hphase := h.phase p
  rw [hpc] at hphase
  obtain ⟨hh, hm, hdone, hleft⟩ := hphase
  have hcur := committed_of_mark hm
  simp only [State.commit, hpc] at hs
  split at hs
  · next b hb =>
    split at hs
    case isFalse => cases hs
    obtain rfl := Option.some.inj hs
    have hslot := inLog_slot hl hb
    have hbh := h.lhHome b (List.mem_of_getElem? hb)
    -- The log block is the same in the cache and on the disk.
    have hread : s.read (sb.slot tail) = s.current b := by
      have hd := (ho.logged tail b (by rw [hh]; exact hb)).2
      rw [hcur] at hd
      rw [← hd, State.read]
      cases hc : s.cache (sb.slot tail) with
      | none => rfl
      | some v => exact (h.logCache _ v hslot hc).symm
    have hview : ∀ c, ¬ sb.InLog c → Function.update
        (Function.update s.cache (sb.slot tail) (some (s.read (sb.slot tail)))) b
        (some (s.read (sb.slot tail))) c = if c = b then some (s.current b) else s.cache c :=
      fun c hc => by
        split
        · next hcb => rw [hcb, Function.update_self, hread]
        · next hcb => rw [Function.update_of_ne hcb, Function.update_of_ne (ne_slot hc hslot)]
    constructor
    · refine h.ofCommit hp rfl rfl rfl rfl rfl rfl (fun c hc => ?_) (fun c v hc hv => ?_)
        (fun c hc hn => congrFun hcur.symm c) h.lhHome (fun hi => absurd rfl hi)
        ⟨hh, hm, fun j c hj hjc => ?_, fun j c hj hjc => ?_⟩
      · have := h.view c hc
        simp only [State.read, State.bwrite, State.load] at hview this ⊢
        rw [hview c hc]
        split
        · next hcb => rw [hcb]; rfl
        · next hcb =>
          rw [Function.update_of_ne hcb]
          exact this
      · have hcb : c ≠ b := fun he => hbh (by rwa [← he])
        simp only [State.bwrite, State.load] at hv ⊢
        rw [Function.update_of_ne hcb] at hv ⊢
        by_cases hcs : c = sb.slot tail
        · subst hcs
          rw [Function.update_self] at hv
          rw [← Option.some.inj hv, State.read]
          cases hc' : s.cache (sb.slot tail) with
          | none => rfl
          | some v => exact h.logCache _ v hslot hc'
        · rw [Function.update_of_ne hcs] at hv
          exact h.logCache c v hc hv
      · show Function.update s.disk b _ c = s.current c
        by_cases hcb : c = b
        · rw [hcb, Function.update_self, hread]
        · rw [Function.update_of_ne hcb]
          rcases Nat.lt_succ_iff_lt_or_eq.1 hj with hlt | rfl
          · exact hdone j c hlt hjc
          · exact absurd (Option.some.inj (hjc.symm.trans hb)) hcb
      · have hcb : c ≠ b := fun he => by
          subst he
          have := (List.getElem?_inj (List.getElem?_eq_some_iff.1 hjc).1 hnodup).1
            (hjc.trans hb.symm)
          omega
        show 0 < Function.update s.pins b _ c
        rw [Function.update_of_ne hcb]
        exact hleft j c (by omega) hjc
    · refine ho.install hbh hl.head_le ?_ rfl rfl rfl rfl
      simp only [State.goto, State.bwrite, State.load, hread, hcur]
  · next hend =>
    obtain rfl := Option.some.inj hs
    refine ⟨h.ofCommit hp rfl rfl rfl rfl rfl rfl h.view h.logCache
      (fun c hc hn => congrFun hcur.symm c) h.lhHome (fun hi => absurd rfl hi)
      ⟨hh, hm, fun b hb => ?_⟩, ho.congr rfl rfl rfl rfl rfl⟩
    obtain ⟨j, hj⟩ := List.mem_iff_getElem?.1 hb
    have hlt := (List.getElem?_eq_some_iff.1 hj).1
    rw [List.getElem?_eq_none_iff] at hend
    exact hdone j b (by omega) hj

/-- Erasing the transaction from the log. -/
theorem clear (h : Running sb s) (ho : OnDisk sb s) (hpc : s.pc p = .clear)
    (hs : s.commit sb p = some s') : Running sb s' ∧ OnDisk sb s' := by
  have hp : (s.pc p).commits := by rw [hpc]; rfl
  have hphase := h.phase p
  rw [hpc] at hphase
  obtain ⟨hh, hm, hdone⟩ := hphase
  have hcur := committed_of_mark hm
  simp only [State.commit, hpc] at hs
  obtain rfl := Option.some.inj hs
  refine ⟨h.ofCommit hp rfl rfl rfl rfl rfl rfl h.view h.logCache
    (fun c hc hn => congrFun hcur.symm c) (fun _ hb => absurd hb List.not_mem_nil)
    (fun _ => ⟨rfl, fun _ hb => absurd hb List.not_mem_nil⟩) trivial,
    ho.erase (fun b hb => ?_) rfl rfl rfl rfl rfl⟩
  by_cases hmem : b ∈ s.lh
  · rw [hcur]
    exact hdone b hmem
  · exact ho.home b hb (by rwa [hh])

theorem finish (h : Running sb s) (hpc : s.pc p = .finish) (hs : s.commit sb p = some s') :
    Running sb s' := by
  have hp : (s.pc p).commits := by rw [hpc]; rfl
  simp only [State.commit, hpc] at hs
  obtain rfl := Option.some.inj hs
  have hno : ∀ q, ¬ ((s.goto p .out).pc q).commits := fun q hq => by
    by_cases hqp : q = p
    · subst hqp
      rw [State.goto_self] at hq
      cases hq
    · rw [State.goto_of_ne hqp] at hq
      exact hqp (h.one q p hq hp)
  refine .ofIdle hno ?_ h.lockHome (fun b hb => ?_) h.view h.logCache h.clean h.lhHome
    (h.before (h.no_installs hp (by rw [hpc]; exact Bool.false_ne_true)))
  · have := card_goto_op s p .out
    rw [if_neg (h.no_op hp p), if_neg (by simp), ← h.count] at this
    exact this.symm
  · have hb' : s.dirty b := hb
    rw [h.clean_of_commits hp b] at hb'
    cases hb'

/-- While a process is about to write the header, the log and the home blocks
together have the current contents. -/
theorem onDisk_writeHead (h : Running sb s) (ho : OnDisk sb s) (hpc : s.pc p = .writeHead)
    (hs : s.commit sb p = some s') : OnDisk sb s' := by
  have hp : (s.pc p).commits := by rw [hpc]; rfl
  have hphase := h.phase p
  rw [hpc] at hphase
  have hhead := (h.before (h.no_installs hp (by rw [hpc]; exact Bool.false_ne_true))).1
  simp only [State.commit, hpc] at hs
  obtain rfl := Option.some.inj hs
  have hcur := committed_of_mark (s := { s with head := s.lh, mark := s.hist.length }.goto p
    (.installTrans 0)) rfl
  refine ⟨Nat.le_refl _, fun j b hj => ?_, fun b hb hn => ?_⟩
  · rw [hcur]
    exact ⟨h.lhHome b (List.mem_of_getElem? hj), hphase j b hj⟩
  · rw [hcur]
    show s.disk b = s.current b
    rw [ho.home b hb (by rw [hhead]; exact List.not_mem_nil)]
    exact (h.clean b hb hn (h.clean_of_commits hp b)).symm

/-- Any step of `commit`. -/
theorem commit (h : Running sb s) (hl : Listed sb s) (hb : s.boot = none) (ho : OnDisk sb s)
    (hs : s.commit sb p = some s') : Running sb s' ∧ OnDisk sb s' := by
  have hs' := hs
  cases hpc : s.pc p with
  | out | op =>
    simp only [State.commit, hpc] at hs
    cases hs
  | writeLog tail => exact h.writeLog hl ho hpc hs
  | writeHead => exact ⟨h.writeHead hpc hs, h.onDisk_writeHead ho hpc hs⟩
  | installTrans tail => exact h.installTrans hl (hl.nodup hb) ho hpc hs
  | clear => exact h.clear ho hpc hs
  | finish =>
    refine ⟨h.finish hpc hs, ?_⟩
    simp only [State.commit, hpc] at hs'
    obtain rfl := Option.some.inj hs'
    exact ho.congr rfl rfl rfl rfl rfl

end Running

/-! ## Recovery -/

namespace Booting

variable {s s' : State P B} {r : Boot}

omit [DecidableEq P] in
theorem readHead (h : Booting sb s .readHead) :
    Booting sb { s with lh := s.head, boot := some (.installTrans 0) } (.installTrans 0) :=
  ⟨h.coherent, h.lock, h.dirty, h.outstanding, h.pc, h.mark,
    ⟨rfl, fun j _ hj => absurd hj (Nat.not_lt_zero j)⟩⟩

omit [DecidableEq P] in
theorem installTrans {tail : Nat} (h : Booting sb s (.installTrans tail)) (hl : Listed sb s)
    (ho : OnDisk sb s) (hr : s.boot = some (.installTrans tail)) (hs : s.recover sb = some s') :
    (∀ r, s'.boot = some r → Booting sb s' r) ∧ OnDisk sb s' := by
  obtain ⟨hlh, hdone⟩ := h.phase
  simp only [State.recover, hr] at hs
  split at hs
  · next b hb =>
    obtain rfl := Option.some.inj hs
    rw [hlh] at hb
    have hbl := ho.logged tail b hb
    have hread : s.read (sb.slot tail) = s.committed b := by
      rw [← hbl.2, State.read]
      cases hc : s.cache (sb.slot tail) with
      | none => rfl
      | some v => exact (h.coherent _ v hc).symm
    refine ⟨?_, ho.install hbl.1 hl.head_le ?_ rfl rfl rfl rfl⟩
    · rintro r hr'
      obtain rfl := Option.some.inj hr'
      refine ⟨fun c v hv => ?_, h.lock, h.dirty, h.outstanding, h.pc, h.mark, hlh,
        fun j c hj hjc => ?_⟩
      · simp only [State.bwrite, State.load] at hv ⊢
        by_cases hcb : c = b
        · subst hcb
          rw [Function.update_self] at hv ⊢
          exact Option.some.inj hv
        · rw [Function.update_of_ne hcb] at hv ⊢
          by_cases hcs : c = sb.slot tail
          · subst hcs
            rw [Function.update_self] at hv
            rw [← Option.some.inj hv, hread, hbl.2]
          · rw [Function.update_of_ne hcs] at hv
            exact h.coherent c v hv
      · show Function.update s.disk b _ c = s.committed c
        by_cases hcb : c = b
        · rw [hcb, Function.update_self, hread]
        · rw [Function.update_of_ne hcb]
          rcases Nat.lt_succ_iff_lt_or_eq.1 hj with hlt | rfl
          · exact hdone j c hlt hjc
          · exact absurd (Option.some.inj (hjc.symm.trans hb)) hcb
    · simp only [State.bwrite, State.load, hread]
  · next hend =>
    obtain rfl := Option.some.inj hs
    refine ⟨?_, ho.congr rfl rfl rfl rfl rfl⟩
    rintro r hr'
    obtain rfl := Option.some.inj hr'
    refine ⟨h.coherent, h.lock, h.dirty, h.outstanding, h.pc, h.mark, fun b hb => ?_⟩
    by_cases hmem : b ∈ s.head
    · obtain ⟨j, hj⟩ := List.mem_iff_getElem?.1 hmem
      have hlt := (List.getElem?_eq_some_iff.1 hj).1
      rw [List.getElem?_eq_none_iff, hlh] at hend
      exact hdone j b (by omega) hj
    · exact ho.home b hb hmem

omit [DecidableEq P] in
/-- The end of recovery: processes run on an empty log. -/
theorem clear [Fintype P] (h : Booting sb s .clear) :
    Running sb { s with lh := [], head := [], boot := none } := by
  have hcur := committed_of_mark h.mark
  refine .ofIdle (fun q => ?_) ?_ (fun b p hb => ?_) (fun b hb => ?_) (fun b hb => ?_)
    (fun c v _ => h.coherent c v) (fun c _ _ _ => congrFun hcur.symm c) nofun ⟨rfl, nofun⟩
  · show ¬ (s.pc q).commits
    rw [h.pc q]
    exact Bool.false_ne_true
  · show s.outstanding = _
    rw [h.outstanding, Finset.filter_false_of_mem fun q _ => by
      show s.pc q ≠ .op
      rw [h.pc q]
      nofun]
    rfl
  · have := h.lock b
    rw [show s.lock b = some p from hb] at this
    cases this
  · have := h.dirty b
    rw [show s.dirty b = true from hb] at this
    cases this
  · show s.read b = s.current b
    rw [← hcur, ← h.phase b hb, State.read]
    cases hc : s.cache b with
    | none => rfl
    | some v => exact (h.coherent b v hc).symm

end Booting

/-! ## Runs -/

/-- The same disk and the same changes. -/
structure State.Volatile (s s' : State P B) : Prop where
  disk : s'.disk = s.disk
  head : s'.head = s.head
  hist : s'.hist = s.hist
  mark : s'.mark = s.mark
  base : s'.base = s.base
  boot : s'.boot = s.boot

section

variable {s s' : State P B} {p : P} {b : Nat}

theorem goto_op {pc : PC} {q : P} (hq : (s.goto p pc).pc q = .op) (hpc : pc ≠ .op) :
    s.pc q = .op := by
  by_cases hqp : q = p
  · subst hqp
    rw [State.goto_self] at hq
    exact absurd hq hpc
  · rwa [State.goto_of_ne hqp] at hq

theorem beginOp_volatile (hs : s.beginOp p = some s') : s.Volatile s' := by
  unfold State.beginOp at hs
  repeat' split at hs
  all_goals first
    | (obtain rfl := Option.some.inj hs
       exact ⟨rfl, rfl, rfl, rfl, rfl, rfl⟩)
    | cases hs

/-- Buffer calls, `log_write` and `end_op` begin no operation. -/
theorem buffer_volatile (sb : Superblock)
    (hs : (∃ p b, s.bread sb p b = some s') ∨ (∃ p b, s.logWrite sb p b = some s') ∨
      (∃ p b, s.brelse p b = some s') ∨ (∃ b, s.evict b = some s') ∨ ∃ p, s.endOp p = some s') :
    s.Volatile s' ∧ s'.opNo = s.opNo ∧ ∀ q, s'.pc q = .op → s.pc q = .op := by
  rcases hs with ⟨p, b, hs⟩ | ⟨p, b, hs⟩ | ⟨p, b, hs⟩ | ⟨b, hs⟩ | ⟨p, hs⟩
  all_goals
    simp only [State.bread, State.logWrite, State.brelse, State.evict, State.endOp] at hs
    repeat' split at hs
  all_goals first
    | (obtain rfl := Option.some.inj hs
       first
       | exact ⟨⟨rfl, rfl, rfl, rfl, rfl, rfl⟩, rfl, fun _ hq => hq⟩
       | exact ⟨⟨rfl, rfl, rfl, rfl, rfl, rfl⟩, rfl, fun _ hq => goto_op hq (by simp)⟩)
    | cases hs

theorem commit_boot (hs : s.commit sb p = some s') : s'.boot = s.boot := by
  unfold State.commit at hs
  repeat' split at hs
  all_goals first
    | (obtain rfl := Option.some.inj hs
       rfl)
    | cases hs

/-- A step of `commit` commits everything or nothing. -/
theorem commit_whole [Fintype P] (h : Whole s) (hr : Running sb s) (hs : s.commit sb p = some s') :
    Whole s' := by
  have hs' := hs
  cases hpc : s.pc p with
  | writeHead =>
    have hp : (s.pc p).commits := by rw [hpc]; rfl
    simp only [State.commit, hpc] at hs
    obtain rfl := Option.some.inj hs
    exact h.commit rfl rfl rfl fun q hq => hr.no_op hp q (goto_op hq (by simp))
  | _ =>
    simp only [State.commit, hpc] at hs
    repeat' split at hs
    all_goals first
      | (obtain rfl := Option.some.inj hs
         exact h.congr rfl rfl rfl fun q hq => goto_op hq (by simp))
      | cases hs

theorem modify_onDisk {data : B} (h : OnDisk sb s) (hs : s.modify p b data = some s') :
    OnDisk sb s' ∧ s'.boot = s.boot := by
  unfold State.modify at hs
  split at hs
  case isFalse => cases hs
  obtain rfl := Option.some.inj hs
  have hc : replay s.base ((s.hist ++ [(⟨(p, s.opNo p), b, data⟩ : Change P B)]).take s.mark) =
      s.committed := by
    rw [List.take_append_of_le_length h.mark_le]
    rfl
  refine ⟨⟨?_, fun j c hj => ?_, fun c hb hn => ?_⟩, rfl⟩
  · exact h.mark_le.trans (by simp)
  · rw [State.committed, hc]
    exact h.logged j c hj
  · rw [State.committed, hc]
    exact h.home c hb hn

end

namespace Inv

variable [Fintype P] {s s' : State P B} {e : Event P B}

omit [DecidableEq P] in
theorem mkfs (d : Nat → B) : Inv sb (State.mkfs d : State P B) where
  listed := .mkfs d
  onDisk := ⟨Nat.le_refl _, nofun, fun _ _ _ => rfl⟩
  whole := ⟨nofun, nofun, nofun⟩
  running := nofun
  booting r hr := by
    obtain rfl := Option.some.inj hr
    exact ⟨nofun, fun _ => rfl, fun _ => rfl, rfl, fun _ => rfl, rfl, trivial⟩

omit [DecidableEq P] in
theorem crash (h : Inv sb s) (hl : Listed sb s.crash) : Inv sb s.crash where
  listed := hl
  onDisk := h.onDisk.crash
  whole := h.whole.crash
  running := nofun
  booting r hr := by
    obtain rfl := Option.some.inj hr
    refine ⟨nofun, fun _ => rfl, fun _ => rfl, rfl, fun _ => rfl, ?_, trivial⟩
    exact (List.length_take_of_le h.onDisk.mark_le).symm

omit [DecidableEq P] in
theorem recover (h : Inv sb s) (hl : Listed sb s') (hs : s.recover sb = some s') : Inv sb s' := by
  have hwhole : Whole s' := by
    refine h.whole.congr ?_ ?_ ?_ ?_ <;> unfold State.recover at hs <;> (repeat' split at hs)
    all_goals first
      | (obtain rfl := Option.some.inj hs
         first | rfl | exact fun _ hq => hq)
      | cases hs
  cases hr : s.boot with
  | none =>
    simp only [State.recover, hr] at hs
    cases hs
  | some r =>
    have hb := h.booting r hr
    cases r with
    | readHead =>
      simp only [State.recover, hr] at hs
      obtain rfl := Option.some.inj hs
      refine ⟨hl, h.onDisk.congr rfl rfl rfl rfl rfl, hwhole, (fun hn => by cases hn), fun r hr' => ?_⟩
      obtain rfl := Option.some.inj hr'
      exact hb.readHead
    | installTrans tail =>
      obtain ⟨hb', ho⟩ := hb.installTrans h.listed h.onDisk hr hs
      refine ⟨hl, ho, hwhole, fun hn => ?_, hb'⟩
      simp only [State.recover, hr] at hs
      split at hs
      all_goals
        obtain rfl := Option.some.inj hs
        cases hn
    | clear =>
      simp only [State.recover, hr] at hs
      obtain rfl := Option.some.inj hs
      exact ⟨hl, h.onDisk.erase hb.phase rfl rfl rfl rfl rfl, hwhole, fun _ _ => hb.clear,
        fun _ hn => by cases hn⟩

/-- The invariant is kept by each step that follows the discipline. -/
theorem next (h : Inv sb s) (hd : Disciplined s e) (he : (machine P B sb).next s e = some s') :
    Inv sb s' := by
  have hl := h.listed.next he
  have ho := h.onDisk
  have hw := h.whole
  cases e with
  | crash =>
    obtain rfl := Option.some.inj he
    exact h.crash hl
  | recover =>
    simp only [machine] at he
    split at he
    · exact h.recover hl he
    · cases he
  | _ =>
    simp only [machine] at he
    split at he
    case isFalse => cases he
    next hrun =>
    have hr := h.running hrun.2 hrun.1
    have hof : s'.boot = s.boot → OnDisk sb s' → Whole s' → (s'.panicked = none → Running sb s') →
        Inv sb s' := fun hb ho hw hr =>
      ⟨hl, ho, hw, fun _ => hr, fun r hr' => by
        rw [hb, hrun.2] at hr'
        cases hr'⟩
    have hbuffer : s.Volatile s' ∧ s'.opNo = s.opNo ∧ (∀ q, s'.pc q = .op → s.pc q = .op) →
        (s'.panicked = none → Running sb s') → Inv sb s' := fun hb => by
      obtain ⟨hv, hop, hpc⟩ := hb
      exact hof hv.boot (ho.congr hv.disk hv.head hv.hist hv.mark hv.base)
        (hw.congr hv.hist hv.mark hop hpc)
    first
    | exact hbuffer (buffer_volatile sb (.inl ⟨_, _, he⟩)) fun _ => hr.bread he
    | exact hbuffer (buffer_volatile sb (.inr (.inl ⟨_, _, he⟩))) (hr.logWrite he)
    | exact hbuffer (buffer_volatile sb (.inr (.inr (.inl ⟨_, _, he⟩)))) fun _ => hr.brelse hd he
    | exact hbuffer (buffer_volatile sb (.inr (.inr (.inr (.inl ⟨_, he⟩))))) fun _ => hr.evict ho he
    | exact hbuffer (buffer_volatile sb (.inr (.inr (.inr (.inr ⟨_, he⟩))))) (hr.endOp hd he)
    | exact hof (commit_boot he) (hr.commit h.listed hrun.2 ho he).2 (commit_whole hw hr he)
        fun _ => (hr.commit h.listed hrun.2 ho he).1
    | exact hof (modify_onDisk ho he).2 (modify_onDisk ho he).1 (hw.modify ho.mark_le he)
        fun _ => hr.modify ho.mark_le he
    | (have hv := beginOp_volatile he
       exact hof hv.boot (ho.congr hv.disk hv.head hv.hist hv.mark hv.base) (hw.beginOp he)
        fun _ => hr.beginOp he)

end Inv

/-- Crashes and recovery. -/
def Event.reboots : Event P B → Bool
  | .crash | .recover => true
  | _ => false

section

variable {s s' : State P B} {es : List (Event P B)}

omit [DecidableEq P] in
theorem committed_crash (s : State P B) : s.crash.committed = s.committed := by
  show replay s.base ((s.hist.take s.mark).take s.mark) = _
  rw [List.take_take, Nat.min_self]
  rfl

omit [DecidableEq P] in
/-- Recovery changes nothing but the disk and the cache. -/
theorem recover_committed (hs : s.recover sb = some s') : s'.committed = s.committed := by
  unfold State.recover at hs
  repeat' split at hs
  all_goals first
    | (obtain rfl := Option.some.inj hs
       rfl)
    | cases hs

omit [DecidableEq P] in
/-- Recovery ends with an empty log. -/
theorem recover_head (hs : s.recover sb = some s') (hb : s'.boot = none) : s'.head = [] := by
  unfold State.recover at hs
  repeat' split at hs
  all_goals first
    | (obtain rfl := Option.some.inj hs
       first | rfl | cases hb)
    | cases hs

omit [DecidableEq P] in
/-- On an empty log recovery changes no block of the disk. -/
theorem recover_empty (h : s.head = [] ∧ (s.boot = none ∨ s.lh = [])) (hs : s.recover sb = some s') :
    s'.disk = s.disk ∧ s'.head = [] ∧ (s'.boot = none ∨ s'.lh = []) := by
  obtain ⟨hh, hb⟩ := h
  unfold State.recover at hs
  split at hs
  · cases hs
  · obtain rfl := Option.some.inj hs
    exact ⟨rfl, hh, .inr hh⟩
  · next hr =>
    have hlh := hb.resolve_left (by rw [hr]; nofun)
    rw [hlh] at hs
    obtain rfl := Option.some.inj hs
    exact ⟨rfl, hh, .inr rfl⟩
  · obtain rfl := Option.some.inj hs
    exact ⟨rfl, rfl, .inl rfl⟩

theorem reboots_next {e : Event P B} (he : e.reboots) (hs : (machine P B sb).next s e = some s') :
    e = .crash ∧ s' = s.crash ∨ e = .recover ∧ s.recover sb = some s' := by
  cases e with
  | crash => exact .inl ⟨rfl, (Option.some.inj hs).symm⟩
  | recover =>
    simp only [machine] at hs
    split at hs
    · exact .inr ⟨rfl, hs⟩
    · cases hs
  | _ => cases he

/-- What crashes and recovery steps keep holds after any of them. -/
theorem reboots_invariant {I : State P B → Prop} (hcrash : ∀ s, I s → I s.crash)
    (hrec : ∀ s s', I s → s.recover sb = some s' → I s') (he : ∀ e ∈ es, e.reboots)
    (hi : I s) (hr : (machine P B sb).exec s es = some s') : I s' := by
  refine Machine.exec_invariant hi (fun es₁ e es₂ s₁ s₂ hes _ hn h₁ => ?_) hr
  rcases reboots_next (he e (by rw [hes]; simp)) hn with ⟨-, rfl⟩ | ⟨-, hs⟩
  · exact hcrash s₁ h₁
  · exact hrec s₁ s₂ h₁ hs

/-- The loop of `install_trans` and the header write end. -/
theorem recover_ends (k : Nat) {tail : Nat} (hp : s.panicked = none)
    (hb : s.boot = some (.installTrans tail)) (hk : s.lh.length - tail = k) :
    ∃ s', (machine P B sb).exec s (List.replicate (k + 2) .recover) = some s' ∧ s'.boot = none := by
  induction k generalizing s tail with
  | zero =>
    have hnone : s.lh[tail]? = none := List.getElem?_eq_none (by omega)
    have h₁ : (machine P B sb).next s .recover = some { s with boot := some .clear } := by
      simp only [machine, hp, State.recover, hb, hnone, if_true]
    have h₂ : (machine P B sb).next { s with boot := some .clear } .recover =
        some { s with lh := [], head := [], boot := none } := by
      simp only [machine, hp, State.recover, if_true]
    refine ⟨_, ?_, (rfl : ({ s with lh := [], head := [], boot := none } : State P B).boot = none)⟩
    show (machine P B sb).exec s [.recover, .recover] = _
    rw [Machine.exec_cons, h₁, Option.bind_some, Machine.exec_cons, h₂]
    rfl
  | succ k ih =>
    have hlt : tail < s.lh.length := by omega
    rw [List.replicate_succ, Machine.exec_cons]
    have hnext : (machine P B sb).next s .recover =
        some { (s.load (sb.slot tail)).bwrite s.lh[tail] (s.read (sb.slot tail)) with
          boot := some (.installTrans (tail + 1)) } := by
      simp only [machine, hp, State.recover, hb, List.getElem?_eq_getElem hlt, if_true]
    rw [hnext, Option.bind_some]
    exact ih hp rfl (by
      show s.lh.length - (tail + 1) = k
      omega)

end

/-- A crash at any moment, and any number of crashes while the log is
recovered: recovery comes to an end, and then the home blocks have the
contents as of the last commit whose header write reached the disk; to recover
again changes nothing; and every operation is in these contents with all its
changes or with none, with all only if it has ended. -/
theorem crash_atomic [Fintype P] {s₀ s : State P B} {es : List (Event P B)}
    (hi : (machine P B sb).init s₀) (hr : (machine P B sb).exec s₀ es = some s)
    (hd : (machine P B sb).Meets Disciplined s₀ es) :
    (∃ s', (machine P B sb).exec s (.crash :: List.replicate (s.head.length + 3) .recover) = some s' ∧
      s'.boot = none) ∧
    (∀ es' s', (∀ e ∈ es', e.reboots) → (machine P B sb).exec s (.crash :: es') = some s' →
      s'.boot = none →
      (∀ b, ¬ sb.InLog b → s'.disk b = s.committed b) ∧
      ∀ es'' s'', (∀ e ∈ es'', e.reboots) → (machine P B sb).exec s' es'' = some s'' →
        s''.disk = s'.disk) ∧
    ∀ o, (∀ c ∈ s.hist.take s.mark, c.op ≠ o) ∨
      (∀ c ∈ s.hist.drop s.mark, c.op ≠ o) ∧ ¬ s.InProgress o := by
  obtain ⟨d, rfl⟩ := hi
  have h : Inv sb s := hd.invariant (Inv.mkfs d) (fun _ _ _ h hd he => h.next hd he) hr
  refine ⟨?_, fun es' s' hes' hr' hb' => ?_, fun o => ?_⟩
  · exact recover_ends (s := { s.crash with lh := s.head, boot := some (.installTrans 0) })
      s.head.length rfl rfl rfl
  · obtain ⟨hinv, hc, hhead⟩ := reboots_invariant (s := s.crash)
      (I := fun s' => Inv sb s' ∧ s'.committed = s.committed ∧ (s'.boot = none → s'.head = []))
      (fun s₁ h₁ => ⟨h₁.1.crash (h₁.1.listed.next (e := .crash) rfl),
        (committed_crash s₁).trans h₁.2.1, nofun⟩)
      (fun s₁ s₂ h₁ hs => ⟨h₁.1.recover (h₁.1.listed.recover hs) hs,
        (recover_committed hs).trans h₁.2.1, recover_head hs⟩) hes'
      ⟨h.crash (h.listed.next (e := .crash) rfl), committed_crash s, nofun⟩ hr'
    refine ⟨fun b hb => ?_, fun es'' s'' hes'' hr'' => ?_⟩
    · rw [← hc]
      exact hinv.onDisk.home b hb (by rw [hhead hb']; exact List.not_mem_nil)
    · refine (reboots_invariant (I := fun s'' => s''.disk = s'.disk ∧ s''.head = [] ∧
        (s''.boot = none ∨ s''.lh = [])) (fun s₁ h₁ => ⟨h₁.1, h₁.2.1, .inr rfl⟩)
        (fun s₁ s₂ h₁ hs => ?_) hes'' ⟨rfl, hhead hb', .inl hb'⟩ hr'').1
      obtain ⟨hd, h₂⟩ := recover_empty h₁.2 hs
      exact ⟨hd.trans h₁.1, h₂⟩
  · by_cases ho : ∃ c ∈ s.hist.take s.mark, c.op = o
    · obtain ⟨c, hc, rfl⟩ := ho
      exact .inr ⟨fun c' hc' he => h.whole.apart c hc c' hc' he.symm, h.whole.ended c hc⟩
    · exact .inl fun c hc he => ho ⟨c, hc, he⟩

/-- One operation changes one block, and its commit gets to the header
write. -/
def headWritten : List (Event Unit Nat) :=
  [.recover, .recover, .recover, .beginOp (), .bread () 50, .modify () 50 7, .logWrite () 50,
    .brelse () 50, .endOp (), .commit (), .commit (), .commit ()]

theorem crash_atomic_headWritten : ∃ s s', (machine Unit Nat .mkfs).exec (.mkfs fun _ => 0)
    headWritten = some s ∧ (machine Unit Nat .mkfs).exec s (.crash :: List.replicate 4 .recover) =
      some s' ∧ s'.disk 50 = 7 := by
  obtain ⟨s, hs, hc, hl⟩ : ∃ s, (machine Unit Nat .mkfs).exec (.mkfs fun _ => 0) headWritten =
    some s ∧ s.committed 50 = 7 ∧ s.head.length = 1 := ⟨_, rfl, rfl, rfl⟩
  have hd : (machine Unit Nat .mkfs).Meets Disciplined (.mkfs fun _ => 0) headWritten := by
    refine ⟨trivial, trivial, trivial, trivial, trivial, trivial, trivial, rfl, fun b _ => ?_,
      trivial, trivial, trivial, trivial⟩
    show Function.update (Function.update (fun _ => false) 50 true) 50 false b = false
    by_cases h : b = 50 <;> simp [h]
  obtain ⟨⟨s', hs', hb'⟩, h, -⟩ := crash_atomic ⟨_, rfl⟩ hs hd
  rw [hl] at hs'
  refine ⟨s, s', hs, hs', ?_⟩
  rw [(h _ s' (by decide) hs' hb').1 50 (by decide), hc]

end Xv6.Log
