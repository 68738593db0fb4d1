/-
pipe.c: who sleeps on a pipe, and who wakes them.

A reader sleeps on `&pi->nread` while the pipe is empty, a writer on
`&pi->nwrite` while it is full. `pipewrite` puts bytes in before it wakes the
readers, at the end of its loop or when the pipe is full; one exit, taken when
the read end is closed or the caller was killed, comes without a `wakeup`.
-/
import Xv6.PipeBuffer

namespace Xv6.PipeBuffer

open Conc

/-- The process holds `pi->lock`. -/
def PC.holds : PC → Bool
  | .wLoop .. | .wBody .. | .wFull .. | .wDone .. | .wRelease .. | .rLoop _ | .rEmpty _
  | .rCopy .. | .rDone _ | .rRelease _ | .cBody _ | .cRelease => true
  | _ => false

/-- The process may have put in bytes that it has not told of yet. -/
def PC.fills : PC → Bool
  | .wLoop .. | .wBody .. | .wDone .. => true
  | _ => false

/-- The process may have made space that it has not told of yet. -/
def PC.drains : PC → Bool
  | .rCopy .. | .rDone _ => true
  | _ => false

def PC.reader : PC → Bool
  | .rSleep _ => true
  | _ => false

def PC.writer : PC → Bool
  | .wSleep .. => true
  | _ => false

variable {P : Type} [DecidableEq P]

namespace Pipe

/-- A process sleeps on `&pi->nread`. -/
def ReaderSleeps (s : Pipe P) : Prop := ∃ q, (s.pc q).reader

/-- A process sleeps on `&pi->nwrite`. -/
def WriterSleeps (s : Pipe P) : Prop := ∃ q, (s.pc q).writer

/-- No process sleeps on what it could have. -/
structure Awake (s : Pipe P) : Prop where
  reader : s.ReaderSleeps → s.nread = s.nwrite ∧ s.writeopen
  writer : s.WriterSleeps → s.full ∧ s.readopen

/-- Process `p` is about to return -1 from `pipewrite`: it was killed, or the
read end is closed. -/
def Quits (s : Pipe P) (p : P) : Prop :=
  ∃ src i, s.pc p = .wLoop src i ∧ i < src.length ∧ (s.readopen = false ∨ s.killed p)

/-- A process that quits leaves no bytes behind that a reader sleeps for. -/
def QuitsEmpty (s : Pipe P) (p : P) : Prop :=
  s.Quits p → s.nread = s.nwrite ∨ ¬ s.ReaderSleeps

end Pipe

/-! ## The lock and what its holder knows -/

/-- What a process that is about to sleep, or past the test of the loop,
knows of the pipe. -/
def PC.Knows (s : Pipe P) : PC → Prop
  | .rEmpty _ => s.nread = s.nwrite ∧ s.writeopen
  | .wFull .. => s.full ∧ s.readopen
  | .wBody .. => s.readopen
  | _ => True

/-- Between the steps: the sleepers of each kind have what they sleep for, or
the holder of the lock has yet to wake them. -/
structure Sleepers (s : Pipe P) : Prop where
  lock : ∀ p, s.lock = some p ↔ (s.pc p).holds
  knows : ∀ p, (s.pc p).Knows s
  reader : s.ReaderSleeps → s.writeopen ∧
    (s.nread = s.nwrite ∨ ∃ p, s.lock = some p ∧ (s.pc p).fills)
  writer : s.WriterSleeps → s.readopen ∧ (s.full ∨ ∃ p, s.lock = some p ∧ (s.pc p).drains)

namespace PC

@[simp] theorem holds_wake (chan : Chan) (pc : PC) : (pc.wake chan).holds = pc.holds := by
  cases chan <;> cases pc <;> rfl

theorem reader_of_wake {chan : Chan} {pc : PC} (h : (pc.wake chan).reader) : pc.reader := by
  cases chan <;> cases pc <;> first | exact h | cases h

theorem writer_of_wake {chan : Chan} {pc : PC} (h : (pc.wake chan).writer) : pc.writer := by
  cases chan <;> cases pc <;> first | exact h | cases h

theorem not_reader_wake (pc : PC) : ¬ (pc.wake .nread).reader := by
  cases pc <;> exact Bool.false_ne_true

theorem not_writer_wake (pc : PC) : ¬ (pc.wake .nwrite).writer := by
  cases pc <;> exact Bool.false_ne_true

theorem reader_of_holds {pc : PC} (h : pc.holds) : pc.reader = false := by
  cases pc <;> first | rfl | cases h

theorem writer_of_holds {pc : PC} (h : pc.holds) : pc.writer = false := by
  cases pc <;> first | rfl | cases h

omit [DecidableEq P] in
/-- A process without the lock knows nothing. -/
theorem Knows.of_not_holds {s : Pipe P} {pc : PC} (h : ¬ pc.holds) : pc.Knows s := by
  cases pc <;> first | exact True.intro | exact absurd rfl h

end PC

namespace Sleepers

variable {s s' : Pipe P} {p : P}

omit [DecidableEq P] in
theorem awake (h : Sleepers s) (hl : s.lock = none) : s.Awake := by
  refine ⟨fun hr => ?_, fun hw => ?_⟩
  · obtain ⟨ho, he | ⟨p, hp, -⟩⟩ := h.reader hr
    · exact ⟨he, ho⟩
    · rw [hl] at hp
      cases hp
  · obtain ⟨ho, he | ⟨p, hp, -⟩⟩ := h.writer hw
    · exact ⟨he, ho⟩
    · rw [hl] at hp
      cases hp

/-- A step of the holder `p` after which it still holds the lock. -/
theorem keep (h : Sleepers s) (hp : (s.pc p).holds) (hl : s'.lock = s.lock)
    (hpc : ∀ q, q ≠ p → (s'.pc q).holds = (s.pc q).holds) (hh : (s'.pc p).holds)
    (hk : (s'.pc p).Knows s')
    (hr : s'.ReaderSleeps → s'.writeopen ∧ (s'.nread = s'.nwrite ∨ (s'.pc p).fills))
    (hw : s'.WriterSleeps → s'.readopen ∧ (s'.full ∨ (s'.pc p).drains)) : Sleepers s' := by
  have hlock := (h.lock p).2 hp
  refine ⟨fun q => ?_, fun q => ?_, fun hs => ?_, fun hs => ?_⟩
  · by_cases hq : q = p
    · subst hq
      rw [hl]
      exact iff_of_true hlock hh
    · rw [hl, hpc q hq]
      exact h.lock q
  · by_cases hq : q = p
    · subst hq
      exact hk
    · refine .of_not_holds fun hq' => hq ?_
      rw [hpc q hq, ← h.lock q, hlock] at hq'
      exact (Option.some.inj hq').symm
  · exact (hr hs).imp_right (.imp_right fun hf => ⟨p, hl.trans hlock, hf⟩)
  · exact (hw hs).imp_right (.imp_right fun hf => ⟨p, hl.trans hlock, hf⟩)

/-- The holder gives the lock up. -/
theorem release {pc : PC} (h : Sleepers s) (hp : (s.pc p).holds) (hh : ¬ pc.holds)
    (hr : s.ReaderSleeps ∨ pc.reader → s.nread = s.nwrite ∧ s.writeopen)
    (hw : s.WriterSleeps ∨ pc.writer → s.full ∧ s.readopen) : Sleepers (s.release p pc) := by
  have hlock := (h.lock p).2 hp
  have hnone : ∀ q, ¬ ((s.release p pc).pc q).holds := fun q => by
    by_cases hq : q = p
    · subst hq
      rwa [Pipe.release_self]
    · show ¬ (((s.goto p pc).pc q).holds)
      rw [Pipe.goto_of_ne hq]
      intro hq'
      rw [← h.lock q, hlock] at hq'
      exact hq (Option.some.inj hq').symm
  have hcases : ∀ (f : PC → Bool) q, f ((s.release p pc).pc q) → f (s.pc q) ∨ f pc := fun f q hf => by
    by_cases hq : q = p
    · subst hq
      rw [Pipe.release_self] at hf
      exact .inr hf
    · change f ((s.goto p pc).pc q) at hf
      rw [Pipe.goto_of_ne hq] at hf
      exact .inl hf
  refine ⟨fun q => iff_of_false (fun hl => by cases hl) (hnone q), fun q => .of_not_holds (hnone q),
    fun ⟨q, hq⟩ => ?_, fun ⟨q, hq⟩ => ?_⟩
  · obtain ⟨he, ho⟩ := hr ((hcases PC.reader q hq).imp_left fun h' => ⟨q, h'⟩)
    exact ⟨ho, .inl he⟩
  · obtain ⟨he, ho⟩ := hw ((hcases PC.writer q hq).imp_left fun h' => ⟨q, h'⟩)
    exact ⟨ho, .inl he⟩

/-- A process takes the free lock. -/
theorem acquire {pc : PC} (h : Sleepers s) (ha : s.acquire p pc = some s') (hh : pc.holds)
    (hk : pc.Knows s) : Sleepers s' := by
  obtain ⟨hl, rfl⟩ := Pipe.acquire_eq ha
  have haw := h.awake hl
  have hns : ∀ f : PC → Bool, f pc = false → ∀ q, f (({ s with lock := some p }.goto p pc).pc q) →
      f (s.pc q) := fun f hf q hq => by
    by_cases hqp : q = p
    · subst hqp
      rw [Pipe.goto_self, hf] at hq
      cases hq
    · rwa [Pipe.goto_of_ne hqp] at hq
  refine ⟨fun q => ?_, fun q => ?_, fun ⟨q, hq⟩ => ?_, fun ⟨q, hq⟩ => ?_⟩
  · by_cases hqp : q = p
    · subst hqp
      rw [Pipe.goto_self]
      exact iff_of_true rfl hh
    · rw [Pipe.goto_of_ne hqp]
      refine iff_of_false (fun he => hqp (Option.some.inj he).symm) fun hq => ?_
      have := (h.lock q).2 hq
      rw [hl] at this
      cases this
  · by_cases hqp : q = p
    · subst hqp
      rw [Pipe.goto_self]
      cases pc <;> exact hk
    · rw [Pipe.goto_of_ne hqp]
      have := h.knows q
      cases hpc : s.pc q <;> rw [hpc] at this <;> exact this
  · obtain ⟨he, ho⟩ := haw.reader ⟨q, hns PC.reader (PC.reader_of_holds hh) q hq⟩
    exact ⟨ho, .inl he⟩
  · obtain ⟨he, ho⟩ := haw.writer ⟨q, hns PC.writer (PC.writer_of_holds hh) q hq⟩
    exact ⟨ho, .inl he⟩

/-- The holder goes on without a wakeup. -/
theorem goto {s₀ : Pipe P} {pc : PC} (h : Sleepers s) (hp : (s.pc p).holds) (hpc : s₀.pc = s.pc)
    (hl : s₀.lock = s.lock) (hh : pc.holds) (hk : pc.Knows (s₀.goto p pc))
    (hr : s.ReaderSleeps → s₀.writeopen ∧ (s₀.nread = s₀.nwrite ∨ pc.fills))
    (hw : s.WriterSleeps → s₀.readopen ∧ (s₀.full ∨ pc.drains)) : Sleepers (s₀.goto p pc) := by
  have hne : ∀ q, q ≠ p → (s₀.goto p pc).pc q = s.pc q := fun q hq => by
    rw [Pipe.goto_of_ne hq, hpc]
  have hself : ∀ f : PC → Bool, f pc = false → ∀ q, f ((s₀.goto p pc).pc q) → f (s.pc q) :=
    fun f hf q hq => by
      by_cases hqp : q = p
      · subst hqp
        rw [Pipe.goto_self, hf] at hq
        cases hq
      · rwa [hne q hqp] at hq
  refine h.keep hp hl (fun q hq => by rw [hne q hq]) ?_ ?_ (fun ⟨q, hq⟩ => ?_) fun ⟨q, hq⟩ => ?_
  · rwa [Pipe.goto_self]
  · rwa [Pipe.goto_self]
  · rw [Pipe.goto_self]
    exact hr ⟨q, hself PC.reader (PC.reader_of_holds hh) q hq⟩
  · rw [Pipe.goto_self]
    exact hw ⟨q, hself PC.writer (PC.writer_of_holds hh) q hq⟩

/-- The holder goes on after a wakeup. -/
theorem wakeup {s₀ : Pipe P} {pc : PC} {chan : Chan} (h : Sleepers s) (hp : (s.pc p).holds)
    (hpc : s₀.pc = s.pc) (hl : s₀.lock = s.lock) (hh : pc.holds)
    (hk : pc.Knows ((s₀.wakeup chan).goto p pc))
    (hr : chan ≠ .nread → s.ReaderSleeps → s₀.writeopen ∧ (s₀.nread = s₀.nwrite ∨ pc.fills))
    (hw : chan ≠ .nwrite → s.WriterSleeps → s₀.readopen ∧ (s₀.full ∨ pc.drains)) :
    Sleepers ((s₀.wakeup chan).goto p pc) := by
  have hne : ∀ q, q ≠ p → ((s₀.wakeup chan).goto p pc).pc q = (s.pc q).wake chan :=
    fun q hq => by
      rw [Pipe.goto_of_ne hq, ← hpc]
      rfl
  have hself : ∀ f : PC → Bool, f pc = false → ∀ q, f (((s₀.wakeup chan).goto p pc).pc q) →
      f ((s.pc q).wake chan) := fun f hf q hq => by
    by_cases hqp : q = p
    · subst hqp
      rw [Pipe.goto_self, hf] at hq
      cases hq
    · rwa [hne q hqp] at hq
  refine h.keep hp hl (fun q hq => by rw [hne q hq, PC.holds_wake]) ?_ ?_ (fun ⟨q, hq⟩ => ?_)
    fun ⟨q, hq⟩ => ?_
  · rwa [Pipe.goto_self]
  · rwa [Pipe.goto_self]
  · have hq' := hself PC.reader (PC.reader_of_holds hh) q hq
    rw [Pipe.goto_self]
    refine hr (fun he => ?_) ⟨q, PC.reader_of_wake hq'⟩
    subst he
    exact PC.not_reader_wake _ hq'
  · have hq' := hself PC.writer (PC.writer_of_holds hh) q hq
    rw [Pipe.goto_self]
    refine hw (fun he => ?_) ⟨q, PC.writer_of_wake hq'⟩
    subst he
    exact PC.not_writer_wake _ hq'

omit [DecidableEq P] in
/-- While the holder is at a point where it has put nothing in, the readers
that sleep have an empty pipe. -/
theorem reader_of_holder (h : Sleepers s) (hp : (s.pc p).holds) (hf : ¬ (s.pc p).fills)
    (hs : s.ReaderSleeps) : s.nread = s.nwrite ∧ s.writeopen := by
  obtain ⟨ho, he | ⟨q, hq, hqf⟩⟩ := h.reader hs
  · exact ⟨he, ho⟩
  · rw [(h.lock p).2 hp] at hq
    obtain rfl := Option.some.inj hq
    exact absurd hqf hf

omit [DecidableEq P] in
/-- While the holder is at a point where it has taken nothing out, the writers
that sleep have a full pipe. -/
theorem writer_of_holder (h : Sleepers s) (hp : (s.pc p).holds) (hf : ¬ (s.pc p).drains)
    (hs : s.WriterSleeps) : s.full ∧ s.readopen := by
  obtain ⟨ho, he | ⟨q, hq, hqf⟩⟩ := h.writer hs
  · exact ⟨he, ho⟩
  · rw [(h.lock p).2 hp] at hq
    obtain rfl := Option.some.inj hq
    exact absurd hqf hf

/-- A process without the lock goes on somewhere without it, and awake. -/
theorem outside {s₀ : Pipe P} {pc : PC} (h : Sleepers s) (hp : ¬ (s.pc p).holds)
    (hs : s₀ = { s with killed := s₀.killed, calls := s₀.calls }) (hh : ¬ pc.holds)
    (hr : pc.reader = false) (hw : pc.writer = false) : Sleepers (s₀.goto p pc) := by
  have hne : ∀ q, q ≠ p → (s₀.goto p pc).pc q = s.pc q := fun q hq => by
    rw [Pipe.goto_of_ne hq, hs]
  have hself : ∀ f : PC → Bool, f pc = false → ∀ q, f ((s₀.goto p pc).pc q) → f (s.pc q) ∧ q ≠ p :=
    fun f hf q hq => by
      by_cases hqp : q = p
      · subst hqp
        rw [Pipe.goto_self, hf] at hq
        cases hq
      · rw [hne q hqp] at hq
        exact ⟨hq, hqp⟩
  have hholder : ∀ f : PC → Bool, (∃ q, s.lock = some q ∧ f (s.pc q)) →
      ∃ q, s.lock = some q ∧ f ((s₀.goto p pc).pc q) := fun f ⟨q, hl, hf⟩ => by
    refine ⟨q, hl, ?_⟩
    rwa [hne q fun he => hp (by rw [← he]; exact (h.lock q).1 hl)]
  have hlock : (s₀.goto p pc).lock = s.lock := by rw [hs]; rfl
  refine ⟨fun q => ?_, fun q => ?_, fun ⟨q, hq⟩ => ?_, fun ⟨q, hq⟩ => ?_⟩
  · rw [hlock, h.lock q]
    by_cases hqp : q = p
    · subst hqp
      rw [Pipe.goto_self]
      exact iff_of_false hp hh
    · rw [hne q hqp]
  · by_cases hqp : q = p
    · subst hqp
      rw [Pipe.goto_self]
      exact .of_not_holds hh
    · have := h.knows q
      rw [hne q hqp]
      rw [hs]
      cases hpc : s.pc q <;> rw [hpc] at this <;> exact this
  · obtain ⟨ho, he⟩ := h.reader ⟨q, (hself PC.reader hr q hq).1⟩
    rw [hlock]
    have he' := he.imp_right (hholder PC.fills)
    rw [hs] at he' ⊢
    exact ⟨ho, he'⟩
  · obtain ⟨ho, he⟩ := h.writer ⟨q, (hself PC.writer hw q hq).1⟩
    rw [hlock]
    have he' := he.imp_right (hholder PC.drains)
    rw [hs] at he' ⊢
    exact ⟨ho, he'⟩

/-- A step of `pipewrite` keeps the invariant, if a process that quits leaves
no bytes behind that a reader sleeps for. -/
theorem go_wLoop {src i} (h : Sleepers s) (hq : s.QuitsEmpty p) (hpc : s.pc p = .wLoop src i)
    (hg : s.go p = some s') : Sleepers s' := by
  have hp : (s.pc p).holds := by rw [hpc]; rfl
  have hwrite := h.writer_of_holder hp (by rw [hpc]; exact Bool.false_ne_true)
  simp only [Pipe.go, hpc] at hg
  split at hg
  · next hi =>
    split at hg
    · next hk =>
      obtain rfl := Option.some.inj hg
      have hquits : s.Quits p := ⟨src, i, hpc, hi, by simpa using hk⟩
      refine h.release hp Bool.false_ne_true (fun hr => ?_) fun hw => ?_
      · have hr := hr.resolve_right Bool.false_ne_true
        exact ⟨(hq hquits).resolve_right fun hn => hn hr, (h.reader hr).1⟩
      · exact hwrite (hw.resolve_right Bool.false_ne_true)
    · next hk =>
      obtain rfl := Option.some.inj hg
      have hopen : s.readopen := by simp_all
      exact h.goto hp rfl rfl rfl hopen (fun hr => ⟨(h.reader hr).1, .inr rfl⟩)
        fun hw => ⟨hopen, .inl (hwrite hw).1⟩
  · obtain rfl := Option.some.inj hg
    exact h.goto hp rfl rfl rfl True.intro (fun hr => ⟨(h.reader hr).1, .inr rfl⟩)
      fun hw => (hwrite hw).symm.imp_right .inl

theorem go_wBody {src i} (h : Sleepers s) (hpc : s.pc p = .wBody src i)
    (hg : s.go p = some s') : Sleepers s' := by
  have hp : (s.pc p).holds := by rw [hpc]; rfl
  have hwrite := h.writer_of_holder hp (by rw [hpc]; exact Bool.false_ne_true)
  have hopen : s.readopen := by simpa [hpc, PC.Knows] using h.knows p
  simp only [Pipe.go, hpc] at hg
  split at hg
  · next hf =>
    obtain rfl := Option.some.inj hg
    exact h.wakeup hp rfl rfl rfl ⟨hf, hopen⟩ (fun hn => absurd rfl hn)
      fun _ hw => (hwrite hw).symm.imp_right .inl
  · next hf =>
    split at hg
    · obtain rfl := Option.some.inj hg
      exact h.goto hp rfl rfl rfl True.intro (fun hr => ⟨(h.reader hr).1, .inr rfl⟩)
        fun hw => (hwrite hw).symm.imp_right .inl
    · obtain rfl := Option.some.inj hg
      exact h.goto hp rfl rfl rfl True.intro (fun hr => ⟨(h.reader hr).1, .inr rfl⟩)
        fun hw => absurd (hwrite hw).1 hf

theorem go_rLoop {dst} (h : Sleepers s) (hpc : s.pc p = .rLoop dst) (hg : s.go p = some s') :
    Sleepers s' := by
  have hp : (s.pc p).holds := by rw [hpc]; rfl
  have hread := h.reader_of_holder hp (by rw [hpc]; exact Bool.false_ne_true)
  have hwrite := h.writer_of_holder hp (by rw [hpc]; exact Bool.false_ne_true)
  simp only [Pipe.go, hpc] at hg
  split at hg
  · next he =>
    split at hg
    · obtain rfl := Option.some.inj hg
      exact h.release hp Bool.false_ne_true
        (fun hr => hread (hr.resolve_right Bool.false_ne_true))
        fun hw => hwrite (hw.resolve_right Bool.false_ne_true)
    · obtain rfl := Option.some.inj hg
      have hempty : s.nread = s.nwrite ∧ s.writeopen := by simpa using he
      exact h.goto hp rfl rfl rfl hempty (fun hr => (hread hr).symm.imp_right .inl)
        fun hw => (hwrite hw).symm.imp_right .inl
  · obtain rfl := Option.some.inj hg
    exact h.goto hp rfl rfl rfl True.intro (fun hr => (hread hr).symm.imp_right .inl)
      fun hw => (hwrite hw).symm.imp_right .inl

theorem go_rCopy {dst i} (h : Sleepers s) (hpc : s.pc p = .rCopy dst i) (hg : s.go p = some s') :
    Sleepers s' := by
  have hp : (s.pc p).holds := by rw [hpc]; rfl
  have hread := h.reader_of_holder hp (by rw [hpc]; exact Bool.false_ne_true)
  have hdone : Sleepers (s.goto p (.rDone i)) :=
    h.goto hp rfl rfl rfl True.intro (fun hr => (hread hr).symm.imp_right .inl)
      fun hw => ⟨(h.writer hw).1, .inr rfl⟩
  simp only [Pipe.go, hpc] at hg
  split at hg
  · split at hg
    · obtain rfl := Option.some.inj hg
      exact hdone
    · next hne =>
      split at hg
      all_goals
        obtain rfl := Option.some.inj hg
        exact h.goto hp rfl rfl rfl True.intro (fun hr => absurd (hread hr).1 hne)
          fun hw => ⟨(h.writer hw).1, .inr rfl⟩
  · obtain rfl := Option.some.inj hg
    exact hdone

theorem go_cBody {writable} (h : Sleepers s) (hpc : s.pc p = .cBody writable)
    (hg : s.go p = some s') : Sleepers s' := by
  have hp : (s.pc p).holds := by rw [hpc]; rfl
  have hread := h.reader_of_holder hp (by rw [hpc]; exact Bool.false_ne_true)
  have hwrite := h.writer_of_holder hp (by rw [hpc]; exact Bool.false_ne_true)
  simp only [Pipe.go, hpc] at hg
  split at hg
  · obtain rfl := Option.some.inj hg
    exact h.wakeup hp rfl rfl rfl True.intro (fun hn => absurd rfl hn)
      fun _ hw => (hwrite hw).symm.imp_right .inl
  · obtain rfl := Option.some.inj hg
    exact h.wakeup hp rfl rfl rfl True.intro (fun _ hr => (hread hr).symm.imp_right .inl)
      fun hn => absurd rfl hn

/-- A step keeps the invariant, if a process that quits leaves no bytes behind
that a reader sleeps for. -/
theorem go (h : Sleepers s) (hq : s.QuitsEmpty p) (hg : s.go p = some s') : Sleepers s' := by
  have hread := h.reader_of_holder (p := p)
  have hwrite := h.writer_of_holder (p := p)
  have hknows := h.knows p
  have hrelease : ∀ {pc : PC}, (s.pc p).holds → ¬ (s.pc p).fills → ¬ (s.pc p).drains →
      ¬ pc.holds → (pc.reader → s.nread = s.nwrite ∧ s.writeopen) →
      (pc.writer → s.full ∧ s.readopen) → Sleepers (s.release p pc) := fun hp hf hd hh hr hw =>
    h.release hp hh (fun hs => hs.elim (hread hp hf) hr) fun hs => hs.elim (hwrite hp hd) hw
  cases hpc : s.pc p with
  | wLoop src i => exact h.go_wLoop hq hpc hg
  | wBody src i => exact h.go_wBody hpc hg
  | rLoop dst => exact h.go_rLoop hpc hg
  | rCopy dst i => exact h.go_rCopy hpc hg
  | cBody writable => exact h.go_cBody hpc hg
  | idle | wSleep | rSleep =>
    simp only [Pipe.go, hpc] at hg
    cases hg
  | wStart | wWoken | rStart | rWoken | cStart =>
    simp only [Pipe.go, hpc] at hg
    exact h.acquire hg rfl True.intro
  | wRet | rRet =>
    simp only [Pipe.go, hpc] at hg
    obtain rfl := Option.some.inj hg
    exact h.outside (by rw [hpc]; exact Bool.false_ne_true) rfl Bool.false_ne_true rfl rfl
  | wFull | rEmpty | wRelease | rRelease | cRelease =>
    simp only [Pipe.go, hpc] at hg
    obtain rfl := Option.some.inj hg
    rw [hpc] at hknows
    refine hrelease (by rw [hpc]; rfl) (by rw [hpc]; exact Bool.false_ne_true)
      (by rw [hpc]; exact Bool.false_ne_true) Bool.false_ne_true ?_ ?_
    all_goals first | exact fun _ => hknows | exact fun hn => absurd hn Bool.false_ne_true
  | wDone =>
    simp only [Pipe.go, hpc] at hg
    obtain rfl := Option.some.inj hg
    rw [hpc] at hwrite
    exact h.wakeup (by rw [hpc]; rfl) rfl rfl rfl True.intro (fun hn => absurd rfl hn)
      fun _ hw => (hwrite rfl Bool.false_ne_true hw).symm.imp_right .inl
  | rDone =>
    simp only [Pipe.go, hpc] at hg
    obtain rfl := Option.some.inj hg
    rw [hpc] at hread
    exact h.wakeup (by rw [hpc]; rfl) rfl rfl rfl True.intro
      (fun _ hr => (hread rfl Bool.false_ne_true hr).symm.imp_right .inl) fun hn => absurd rfl hn

theorem call {pc : PC} (h : Sleepers s) (hc : s.call p pc = some s') (hh : ¬ pc.holds)
    (hr : pc.reader = false) (hw : pc.writer = false) : Sleepers s' := by
  unfold Pipe.call at hc
  split at hc
  · next hidle =>
    obtain rfl := Option.some.inj hc
    exact h.outside (by rw [hidle]; exact Bool.false_ne_true) rfl hh hr hw
  · cases hc

theorem kill (h : Sleepers s) : Sleepers (s.kill p) := by
  unfold Pipe.kill
  by_cases hp : (s.pc p).holds
  · have hpc : ((s.pc p).wake .nread).wake .nwrite = s.pc p := by
      cases hpc : s.pc p <;> rw [hpc] at hp <;> first | rfl | cases hp
    rw [hpc]
    refine h.goto hp rfl rfl hp ?_ (fun hr => ?_) fun hw => ?_
    · have := h.knows p
      cases hpc : s.pc p <;> rw [hpc] at this <;> exact this
    · refine (h.reader hr).imp_right (.imp_right fun ⟨q, hl, hf⟩ => ?_)
      rw [(h.lock p).2 hp] at hl
      rwa [Option.some.inj hl]
    · refine (h.writer hw).imp_right (.imp_right fun ⟨q, hl, hf⟩ => ?_)
      rw [(h.lock p).2 hp] at hl
      rwa [Option.some.inj hl]
  · refine h.outside hp rfl (by rwa [PC.holds_wake, PC.holds_wake]) ?_ ?_
    · cases s.pc p <;> rfl
    · cases s.pc p <;> rfl

theorem init (h : (machine P).init s) : Sleepers s := by
  obtain ⟨-, -, -, -, hl, hi, -⟩ := h
  refine ⟨fun p => ?_, fun p => ?_, fun ⟨p, hp⟩ => ?_, fun ⟨p, hp⟩ => ?_⟩
  · rw [hl, hi]
    exact iff_of_false (fun he => by cases he) Bool.false_ne_true
  · rw [hi]
    exact True.intro
  · rw [hi] at hp
    cases hp
  · rw [hi] at hp
    cases hp

theorem next {e : Event P} (h : Sleepers s) (hq : ∀ p, e = .go p → s.QuitsEmpty p)
    (he : (machine P).next s e = some s') : Sleepers s' := by
  cases e with
  | write p src => exact h.call he Bool.false_ne_true rfl rfl
  | read p dst => exact h.call he Bool.false_ne_true rfl rfl
  | close p writable => exact h.call he Bool.false_ne_true rfl rfl
  | go p => exact h.go (hq p rfl) he
  | kill p =>
    obtain rfl := Option.some.inj he
    exact h.kill

end Sleepers

/-! ## No one sleeps on what the pipe has -/

/-- A process that quits while a reader sleeps on bytes leaves it sleeping. -/
theorem quits_not_awake {s s' : Pipe P} {p : P} (hq : s.Quits p) (hne : s.nread ≠ s.nwrite)
    (hr : s.ReaderSleeps) (hg : s.go p = some s') : s'.lock = none ∧ ¬ s'.Awake := by
  obtain ⟨src, i, hpc, hi, hk⟩ := hq
  have hk' : (! s.readopen || s.killed p) = true := by simpa using hk
  simp only [Pipe.go, hpc, hi, hk', if_true] at hg
  obtain rfl := Option.some.inj hg
  refine ⟨rfl, fun ha => hne (ha.reader ?_).1⟩
  obtain ⟨q, hq⟩ := hr
  refine ⟨q, ?_⟩
  have hqp : q ≠ p := fun he => by
    rw [he, hpc] at hq
    cases hq
  show ((s.goto p _).pc q).reader
  rwa [Pipe.goto_of_ne hqp]

/-- In a run, no process sleeps on what it could have whenever the lock is
free, if and only if no process quits with bytes in the pipe and a reader
asleep. -/
theorem awake_iff_quitsEmpty {s₀ s : Pipe P} {es : List (Event P)} (hi : (machine P).init s₀)
    (hr : (machine P).exec s₀ es = some s) :
    (∀ es₁ es₂ s₁, es = es₁ ++ es₂ → (machine P).exec s₀ es₁ = some s₁ → s₁.lock = none →
      s₁.Awake) ↔
    ∀ es₁ p es₂ s₁, es = es₁ ++ .go p :: es₂ → (machine P).exec s₀ es₁ = some s₁ →
      s₁.QuitsEmpty p := by
  constructor
  · intro h es₁ p es₂ s₁ he h₁ hq
    by_contra hn
    rw [not_or, not_not] at hn
    rw [he, Machine.exec_append, h₁, Option.bind_some, Machine.exec_cons,
      Option.bind_eq_some_iff] at hr
    obtain ⟨s₂, h₂, -⟩ := hr
    obtain ⟨hl, hna⟩ := quits_not_awake hq hn.1 hn.2 h₂
    exact hna (h (es₁ ++ [.go p]) es₂ s₂ (by rw [he, List.append_assoc]; rfl)
      (Machine.exec_concat h₁ h₂) hl)
  · intro h es₁ es₂ s₁ he h₁ hl
    refine Sleepers.awake ?_ hl
    refine Machine.exec_invariant (Sleepers.init hi) (fun es₃ e es₄ s₃ s₄ he' h₃ h₄ hs => ?_) h₁
    refine hs.next (fun p hp => h es₃ p (es₄ ++ es₂) s₃ ?_ h₃) h₄
    rw [he, he', hp, List.append_assoc]
    rfl

/-- A reader sleeps; a writer puts a byte in, is killed, and quits. -/
def killedWriter : List (Event Bool) :=
  [.read false [true], .go false, .go false, .go false,
    .write true [some 7, some 8], .go true, .go true, .go true, .kill true, .go true]

theorem exec_killedWriter : ∃ s, (machine Bool).exec (Pipe.alloc Bool) killedWriter = some s ∧
    s.lock = none ∧ ¬ s.Awake := by
  refine ⟨_, rfl, rfl, fun h => ?_⟩
  have := (h.reader ⟨false, rfl⟩).1
  exact absurd this (by decide)

theorem pipewrite_loses_wakeup : ∃ s, (machine Bool).Reachable s ∧ s.lock = none ∧ ¬ s.Awake := by
  obtain ⟨s, hs, hl, ha⟩ := exec_killedWriter
  exact ⟨s, ⟨_, _, Pipe.alloc_init Bool, hs⟩, hl, ha⟩

theorem awake_iff_quitsEmpty_killedWriter : ¬ ∀ es₁ p es₂ s₁,
    killedWriter = es₁ ++ .go p :: es₂ →
    (machine Bool).exec (Pipe.alloc Bool) es₁ = some s₁ → s₁.QuitsEmpty p := by
  obtain ⟨s, hs, hl, ha⟩ := exec_killedWriter
  exact fun h => ha ((awake_iff_quitsEmpty (Pipe.alloc_init Bool) hs).2 h killedWriter [] s
    (List.append_nil _).symm hs hl)

end Xv6.PipeBuffer
