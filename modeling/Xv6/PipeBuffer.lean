/-
pipe.c: the buffer of a pipe, its readers and writers.

Any number of processes call `pipewrite`, `piperead` and `pipeclose` on one
pipe, and any process may be killed at any moment. An event is one step of
one process. Only `kill` comes in between while a process holds `pi->lock`;
`sleep` gives the lock up and is one step, and so is `wakeup`, whose caller
holds it. The bytes that `copyin` gets (`none`: it fails) and whether
`copyout` can store a byte come with the call.

`put`, `taken` and `calls` are auxiliary: every byte that was put in, with
the call that did it, every byte that was taken out, and how many calls each
process has begun.
-/
import Mathlib.Algebra.Group.Nat.Defs
import Mathlib.Algebra.Group.Int.Defs
import Xv6.Lib.Machine
import Mathlib.Logic.Function.Basic

namespace Xv6.PipeBuffer

open Conc

def PIPESIZE : Nat := 512

/-- `x++` of a `uint`. -/
def inc (x : Nat) : Nat := (x + 1) % 2 ^ 32

/-- Where a process is in `pipewrite(pi, addr, n)`, which has put in `i` of
the bytes `src`, in `piperead`, or in `pipeclose`. -/
inductive PC where
  | idle
  | wStart (src : List (Option UInt8))
  /-- At the test of the loop. -/
  | wLoop (src : List (Option UInt8)) (i : Nat)
  /-- Past the test for `readopen` and `killed`. -/
  | wBody (src : List (Option UInt8)) (i : Nat)
  /-- About to sleep on `nwrite`. -/
  | wFull (src : List (Option UInt8)) (i : Nat)
  | wSleep (src : List (Option UInt8)) (i : Nat)
  /-- Woken, and about to take the lock again. -/
  | wWoken (src : List (Option UInt8)) (i : Nat)
  /-- After the loop. -/
  | wDone (src : List (Option UInt8)) (i : Nat)
  | wRelease (src : List (Option UInt8)) (i : Nat)
  | wRet (src : List (Option UInt8)) (r : Int)
  | rStart (dst : List Bool)
  | rLoop (dst : List Bool)
  /-- About to sleep on `nread`. -/
  | rEmpty (dst : List Bool)
  | rSleep (dst : List Bool)
  | rWoken (dst : List Bool)
  | rCopy (dst : List Bool) (i : Nat)
  | rDone (i : Nat)
  | rRelease (i : Nat)
  | rRet (r : Int)
  | cStart (writable : Bool)
  | cBody (writable : Bool)
  | cRelease
  deriving DecidableEq

/-- `struct pipe`, and the processes `P` that use it. -/
structure Pipe (P : Type) where
  data : Nat → UInt8
  nread : Nat
  nwrite : Nat
  readopen : Bool
  writeopen : Bool
  lock : Option P
  killed : P → Bool
  pc : P → PC
  put : List ((P × Nat) × UInt8)
  taken : List UInt8
  calls : P → Nat

/-- A channel that processes sleep on. -/
inductive Chan where
  | nread
  | nwrite

/-- A process sleeping on this channel is made `RUNNABLE`. -/
def PC.wake : Chan → PC → PC
  | .nread, .rSleep dst => .rWoken dst
  | .nwrite, .wSleep src i => .wWoken src i
  | _, pc => pc

namespace Pipe

variable {P : Type} [DecidableEq P]

/-- Process `p` goes on at `pc`. -/
def goto (s : Pipe P) (p : P) (pc : PC) : Pipe P := { s with pc := Function.update s.pc p pc }

def wakeup (s : Pipe P) (chan : Chan) : Pipe P := { s with pc := fun q => (s.pc q).wake chan }

/-- `pi->nwrite == pi->nread + PIPESIZE` -/
def full (s : Pipe P) : Bool := s.nwrite = (s.nread + PIPESIZE) % 2 ^ 32

/-- `pi->data[pi->nwrite++ % PIPESIZE] = ch` -/
def putByte (s : Pipe P) (p : P) (ch : UInt8) : Pipe P :=
  { s with
    data := Function.update s.data (s.nwrite % PIPESIZE) ch
    nwrite := inc s.nwrite
    put := s.put ++ [((p, s.calls p), ch)] }

/-- `ch = pi->data[pi->nread++ % PIPESIZE]` -/
def takeByte (s : Pipe P) : Pipe P :=
  { s with nread := inc s.nread, taken := s.taken ++ [s.data (s.nread % PIPESIZE)] }

/-- `acquire(&pi->lock)` -/
def acquire (s : Pipe P) (p : P) (pc : PC) : Option (Pipe P) :=
  if s.lock = none then some ({ s with lock := some p }.goto p pc) else none

/-- `release(&pi->lock)`, or the part of `sleep` that gives it up. -/
def release (s : Pipe P) (p : P) (pc : PC) : Pipe P := { s with lock := none }.goto p pc

/-- The next step of process `p`. -/
def go (s : Pipe P) (p : P) : Option (Pipe P) :=
  match s.pc p with
  | .idle => none
  | .wStart src => s.acquire p (.wLoop src 0)
  | .wLoop src i =>
    if i < src.length then
      if ! s.readopen || s.killed p then some (s.release p (.wRet src (-1)))
      else some (s.goto p (.wBody src i))
    else some (s.goto p (.wDone src i))
  | .wBody src i =>
    if s.full then some ((s.wakeup .nread).goto p (.wFull src i))
    else
      match src.getD i none with
      | none => some (s.goto p (.wDone src i))
      | some ch => some ((s.putByte p ch).goto p (.wLoop src (i + 1)))
  | .wFull src i => some (s.release p (.wSleep src i))
  | .wSleep .. => none
  | .wWoken src i => s.acquire p (.wLoop src i)
  | .wDone src i => some ((s.wakeup .nread).goto p (.wRelease src i))
  | .wRelease src i => some (s.release p (.wRet src i))
  | .wRet .. => some (s.goto p .idle)
  | .rStart dst => s.acquire p (.rLoop dst)
  | .rLoop dst =>
    if s.nread = s.nwrite && s.writeopen then
      if s.killed p then some (s.release p (.rRet (-1))) else some (s.goto p (.rEmpty dst))
    else some (s.goto p (.rCopy dst 0))
  | .rEmpty dst => some (s.release p (.rSleep dst))
  | .rSleep _ => none
  | .rWoken dst => s.acquire p (.rLoop dst)
  | .rCopy dst i =>
    if i < dst.length then
      if s.nread = s.nwrite then some (s.goto p (.rDone i))
      else if dst.getD i false then some (s.takeByte.goto p (.rCopy dst (i + 1)))
      else some (s.takeByte.goto p (.rDone i))
    else some (s.goto p (.rDone i))
  | .rDone i => some ((s.wakeup .nwrite).goto p (.rRelease i))
  | .rRelease i => some (s.release p (.rRet i))
  | .rRet _ => some (s.goto p .idle)
  | .cStart writable => s.acquire p (.cBody writable)
  | .cBody writable =>
    if writable then some (({ s with writeopen := false }.wakeup .nread).goto p .cRelease)
    else some (({ s with readopen := false }.wakeup .nwrite).goto p .cRelease)
  | .cRelease => some (s.release p .idle)

end Pipe

/-- What happens next: a process begins a call or goes on with one, or one is
killed. -/
inductive Event (P : Type) where
  | write (p : P) (src : List (Option UInt8))
  | read (p : P) (dst : List Bool)
  | close (p : P) (writable : Bool)
  | go (p : P)
  | kill (p : P)

variable {P : Type} [DecidableEq P]

/-- An idle process begins a call. -/
def Pipe.call (s : Pipe P) (p : P) (pc : PC) : Option (Pipe P) :=
  if s.pc p = .idle then some ({ s with calls := Function.update s.calls p (s.calls p + 1) }.goto p pc)
  else none

/-- `kill` wakes the process, whatever it sleeps on. -/
def Pipe.kill (s : Pipe P) (p : P) : Pipe P :=
  { s with killed := Function.update s.killed p true }.goto p (((s.pc p).wake .nread).wake .nwrite)

/-- The pipe from `pipealloc` on. -/
def machine (P : Type) [DecidableEq P] : Machine (Pipe P) (Event P) where
  init s := s.nread = 0 ∧ s.nwrite = 0 ∧ s.readopen ∧ s.writeopen ∧ s.lock = none ∧
    (∀ p, s.pc p = .idle) ∧ s.put = [] ∧ s.taken = []
  next s
    | .write p src => s.call p (.wStart src)
    | .read p dst => s.call p (.rStart dst)
    | .close p writable => s.call p (.cStart writable)
    | .go p => s.go p
    | .kill p => some (s.kill p)

/-! ## What a step does to the buffer -/

namespace Pipe

/-- The same counters, bytes and history. -/
structure SameBuffer (s s' : Pipe P) : Prop where
  data : s'.data = s.data
  nread : s'.nread = s.nread
  nwrite : s'.nwrite = s.nwrite
  put : s'.put = s.put
  taken : s'.taken = s.taken

variable {s s' : Pipe P} {p q : P}

theorem acquire_eq {pc : PC} (h : s.acquire p pc = some s') :
    s.lock = none ∧ s' = { s with lock := some p }.goto p pc := by
  unfold acquire at h
  split at h
  · next hl => exact ⟨hl, (Option.some.inj h).symm⟩
  · cases h

/-- A step leaves the buffer alone, puts a byte in where there is room, or
takes one out where there is one. -/
theorem go_buffer (h : s.go p = some s') : s.SameBuffer s' ∨
    (¬ s.full ∧ ∃ ch, (s.putByte p ch).SameBuffer s') ∨
    (s.nread ≠ s.nwrite ∧ s.takeByte.SameBuffer s') := by
  unfold go at h
  split at h
  all_goals first
    | (obtain rfl := Option.some.inj h; exact .inl ⟨rfl, rfl, rfl, rfl, rfl⟩)
    | (obtain ⟨-, rfl⟩ := acquire_eq h; exact .inl ⟨rfl, rfl, rfl, rfl, rfl⟩)
    | cases h
    | skip
  · split at h
    · split at h <;> (obtain rfl := Option.some.inj h; exact .inl ⟨rfl, rfl, rfl, rfl, rfl⟩)
    · obtain rfl := Option.some.inj h
      exact .inl ⟨rfl, rfl, rfl, rfl, rfl⟩
  · split at h
    · obtain rfl := Option.some.inj h
      exact .inl ⟨rfl, rfl, rfl, rfl, rfl⟩
    · next hf =>
      split at h
      · obtain rfl := Option.some.inj h
        exact .inl ⟨rfl, rfl, rfl, rfl, rfl⟩
      · next ch _ =>
        obtain rfl := Option.some.inj h
        exact .inr (.inl ⟨hf, ch, rfl, rfl, rfl, rfl, rfl⟩)
  · split at h
    · split at h <;> (obtain rfl := Option.some.inj h; exact .inl ⟨rfl, rfl, rfl, rfl, rfl⟩)
    · obtain rfl := Option.some.inj h
      exact .inl ⟨rfl, rfl, rfl, rfl, rfl⟩
  · split at h
    · split at h
      · obtain rfl := Option.some.inj h
        exact .inl ⟨rfl, rfl, rfl, rfl, rfl⟩
      · next hne =>
        split at h <;> (obtain rfl := Option.some.inj h; exact .inr (.inr ⟨hne, rfl, rfl, rfl, rfl, rfl⟩))
    · obtain rfl := Option.some.inj h
      exact .inl ⟨rfl, rfl, rfl, rfl, rfl⟩
  · split at h <;> (obtain rfl := Option.some.inj h; exact .inl ⟨rfl, rfl, rfl, rfl, rfl⟩)

end Pipe

/-! ## First in, first out -/

/-- The buffer holds the bytes that were put in and not taken out, and the
bytes taken out are the first that were put in. -/
structure Fifo (s : Pipe P) : Prop where
  nwrite : s.nwrite = s.put.length % 2 ^ 32
  nread : s.nread = s.taken.length % 2 ^ 32
  le : s.taken.length ≤ s.put.length
  room : s.put.length ≤ s.taken.length + PIPESIZE
  taken : s.taken = (s.put.map Prod.snd).take s.taken.length
  data : ∀ k x, s.taken.length ≤ k → s.put[k]? = some x → s.data (k % PIPESIZE) = x.2

namespace Fifo

variable {s s' : Pipe P} {p : P}

omit [DecidableEq P]

theorem congr (h : Fifo s) (hb : s.SameBuffer s') : Fifo s' := by
  obtain ⟨hd, hr, hw, hp, ht⟩ := hb
  obtain ⟨h₁, h₂, h₃, h₄, h₅, h₆⟩ := h
  constructor <;> simpa only [hd, hr, hw, hp, ht]

theorem full_iff (h : Fifo s) : s.full ↔ s.put.length = s.taken.length + PIPESIZE := by
  have h₁ := h.le
  have h₂ := h.room
  simp only [Pipe.full, decide_eq_true_eq, h.nwrite, h.nread]
  unfold PIPESIZE at h₂ ⊢
  omega

theorem empty_iff (h : Fifo s) : s.nread = s.nwrite ↔ s.taken.length = s.put.length := by
  have h₁ := h.le
  have h₂ := h.room
  rw [h.nwrite, h.nread]
  unfold PIPESIZE at h₂
  omega

theorem putByte [DecidableEq P] (h : Fifo s) (hf : ¬ s.full) (ch : UInt8) : Fifo (s.putByte p ch) := by
  have hroom := h.room
  have hne : s.put.length ≠ s.taken.length + PIPESIZE := fun he => hf (h.full_iff.2 he)
  have hidx : s.nwrite % PIPESIZE = s.put.length % PIPESIZE := by
    rw [h.nwrite]
    unfold PIPESIZE
    omega
  refine ⟨?_, h.nread, ?_, ?_, ?_, fun k x hk hx => ?_⟩
  · simp only [Pipe.putByte, inc, h.nwrite, List.length_append, List.length_singleton]
    omega
  · have := h.le
    simp only [Pipe.putByte, List.length_append]
    omega
  · simp only [Pipe.putByte, List.length_append, List.length_singleton]
    omega
  · have := h.le
    simp only [Pipe.putByte, List.map_append]
    rw [List.take_append_of_le_length (by simpa using h.le)]
    exact h.taken
  · simp only [Pipe.putByte] at hk hx ⊢
    rw [hidx]
    by_cases hlast : k = s.put.length
    · subst hlast
      rw [List.getElem?_concat_length] at hx
      obtain rfl := Option.some.inj hx
      simp
    · have hlt : k < s.put.length := by
        have := (List.getElem?_eq_some_iff.1 hx).1
        simp only [List.length_append, List.length_singleton] at this
        omega
      rw [List.getElem?_append_left hlt] at hx
      -- The bytes still in the buffer are fewer than its size.
      have hidx' : k % PIPESIZE ≠ s.put.length % PIPESIZE := by
        unfold PIPESIZE at *
        omega
      rw [Function.update_of_ne hidx']
      exact h.data k x hk hx

theorem takeByte (h : Fifo s) (hne : s.nread ≠ s.nwrite) : Fifo s.takeByte := by
  have hle := h.le
  have hlt : s.taken.length < s.put.length := by
    have : s.taken.length ≠ s.put.length := fun he => hne (h.empty_iff.2 he)
    omega
  have hidx : s.nread % PIPESIZE = s.taken.length % PIPESIZE := by
    rw [h.nread]
    unfold PIPESIZE
    omega
  refine ⟨h.nwrite, ?_, ?_, ?_, ?_, fun k x hk hx => ?_⟩
  · simp only [Pipe.takeByte, inc, h.nread, List.length_append, List.length_singleton]
    omega
  · simp only [Pipe.takeByte, List.length_append, List.length_singleton]
    omega
  · have := h.room
    simp only [Pipe.takeByte, List.length_append, List.length_singleton]
    omega
  · have hd := h.data s.taken.length s.put[s.taken.length] (Nat.le_refl _)
      (List.getElem?_eq_getElem hlt)
    simp only [Pipe.takeByte, List.length_append, List.length_singleton, hidx, hd]
    rw [List.take_add_one, ← h.taken]
    simp [hlt]
  · simp only [Pipe.takeByte, List.length_append, List.length_singleton] at hk
    exact h.data k x (by omega) hx

theorem go [DecidableEq P] (h : Fifo s) (hg : s.go p = some s') : Fifo s' := by
  rcases Pipe.go_buffer hg with hb | ⟨hf, ch, hb⟩ | ⟨hne, hb⟩
  · exact h.congr hb
  · exact (h.putByte hf ch).congr hb
  · exact (h.takeByte hne).congr hb

end Fifo

/-! ## What each call of pipewrite puts in -/

/-- The bytes of a call of `pipewrite` in progress, and how many it has put
in. -/
def PC.written : PC → Option (List (Option UInt8) × Nat)
  | .wStart src => some (src, 0)
  | .wLoop src i | .wBody src i | .wFull src i | .wSleep src i | .wWoken src i | .wDone src i
  | .wRelease src i => some (src, i)
  | _ => none

/-- The bytes that a call put in, in order. -/
def Pipe.bytesOf (s : Pipe P) (c : P × Nat) : List UInt8 :=
  (s.put.filter fun x => x.1 = c).map Prod.snd

/-- A call in progress has put in the first of its bytes; one that returns a
count has put in that many. -/
structure Calls (s : Pipe P) : Prop where
  fresh : ∀ p k, s.calls p < k → s.bytesOf (p, k) = []
  writing : ∀ p src i, (s.pc p).written = some (src, i) →
    i ≤ src.length ∧ (s.bytesOf (p, s.calls p)).map some = src.take i
  ret : ∀ p src r, s.pc p = .wRet src r → r = -1 ∨
    ∃ i : Nat, r = i ∧ i ≤ src.length ∧ (s.bytesOf (p, s.calls p)).map some = src.take i

/-- The processes other than `p` are in the same calls. -/
def Pipe.Others (s s' : Pipe P) (p : P) : Prop :=
  ∀ q, q ≠ p → (s'.pc q).written = (s.pc q).written ∧
    ∀ src r, s'.pc q = .wRet src r → s.pc q = .wRet src r

namespace PC

theorem written_wake (chan : Chan) (pc : PC) : (pc.wake chan).written = pc.written := by
  cases chan <;> cases pc <;> rfl

theorem wake_eq_wRet {chan : Chan} {pc : PC} {src r} (h : pc.wake chan = .wRet src r) :
    pc = .wRet src r := by
  cases chan <;> cases pc <;> first | exact h | cases h

end PC

namespace Pipe

variable {s s' : Pipe P} {p q : P} {pc : PC}

@[simp] theorem goto_self : (s.goto p pc).pc p = pc := by simp [goto]

theorem goto_of_ne (h : q ≠ p) : (s.goto p pc).pc q = s.pc q := by simp [goto, h]

@[simp] theorem release_self : (s.release p pc).pc p = pc := by simp [release]

theorem others_goto : s.Others (s.goto p pc) p := fun q hq => by
  rw [goto_of_ne hq]
  exact ⟨rfl, fun _ _ h => h⟩

theorem others_wakeup {s₀ : Pipe P} {chan : Chan} (h : s₀.pc = s.pc) :
    s.Others ((s₀.wakeup chan).goto p pc) p := fun q hq => by
  rw [goto_of_ne hq]
  show ((s₀.pc q).wake chan).written = _ ∧ ∀ src r, (s₀.pc q).wake chan = _ → _
  rw [h, PC.written_wake]
  exact ⟨rfl, fun _ _ he => PC.wake_eq_wRet he⟩

/-- How far process `p` is in a call of `pipewrite`, before a step and after. -/
theorem go_calls (h : s.go p = some s') : s'.calls = s.calls ∧ s.Others s' p ∧
    ((∃ src i ch, s.pc p = .wBody src i ∧ src.getD i none = some ch ∧
        s'.put = s.put ++ [((p, s.calls p), ch)] ∧ s'.pc p = .wLoop src (i + 1)) ∨
      (s'.put = s.put ∧
        (∀ src i, (s'.pc p).written = some (src, i) → (s.pc p).written = some (src, i)) ∧
        ∀ src r, s'.pc p = .wRet src r → r = -1 ∨
          ∃ i : Nat, r = i ∧ (s.pc p).written = some (src, i))) := by
  unfold go at h
  split at h
  case h_4 src i hpc =>
    split at h
    · obtain rfl := Option.some.inj h
      exact ⟨rfl, others_wakeup rfl, .inr ⟨rfl, by simp [PC.written, hpc], by simp⟩⟩
    · split at h
      · obtain rfl := Option.some.inj h
        exact ⟨rfl, others_goto, .inr ⟨rfl, by simp [PC.written, hpc], by simp⟩⟩
      · next ch hch =>
        obtain rfl := Option.some.inj h
        exact ⟨rfl, others_goto, .inl ⟨src, i, ch, hpc, hch, rfl, by simp⟩⟩
  all_goals next hpc =>
    repeat' split at h
    all_goals first
      | (obtain rfl := Option.some.inj h
         first
          | exact ⟨rfl, others_goto, .inr ⟨rfl, by simp [PC.written, hpc], by simp [PC.written, hpc]⟩⟩
          | exact ⟨rfl, others_wakeup rfl, .inr ⟨rfl, by simp [PC.written, hpc], by simp⟩⟩)
      | (obtain ⟨-, rfl⟩ := acquire_eq h
         exact ⟨rfl, others_goto, .inr ⟨rfl, by simp [PC.written, hpc], by simp⟩⟩)
      | cases h

end Pipe

namespace Calls

variable {s s' : Pipe P} {p : P}

theorem bytesOf_append (s : Pipe P) (x : (P × Nat) × UInt8) (c : P × Nat)
    (h : s'.put = s.put ++ [x]) : s'.bytesOf c = s.bytesOf c ++ if x.1 = c then [x.2] else [] := by
  unfold Pipe.bytesOf
  rw [h, List.filter_append, List.map_append]
  congr 1
  by_cases hx : x.1 = c <;> simp [hx]

theorem go (h : Calls s) (hg : s.go p = some s') : Calls s' := by
  obtain ⟨hc, ho, ⟨src, i, ch, hpc, hch, hp, hpc'⟩ | ⟨hp, hw, hr⟩⟩ := Pipe.go_calls hg
  · have hb := fun c => bytesOf_append s ((p, s.calls p), ch) c hp
    refine ⟨fun q k hk => ?_, fun q src' i' hq => ?_, fun q src' r hq => ?_⟩
    · rw [hc] at hk
      rw [hb, h.fresh q k hk, if_neg fun he => ?_]
      · rfl
      · obtain ⟨rfl, rfl⟩ := Prod.mk.inj he
        exact absurd hk (Nat.lt_irrefl _)
    · rw [hc, hb]
      by_cases hqp : q = p
      · subst hqp
        rw [hpc'] at hq
        obtain ⟨rfl, rfl⟩ := Prod.mk.inj (Option.some.inj hq)
        have hold := (h.writing q src i (by rw [hpc]; rfl)).2
        rw [List.getD_eq_getElem?_getD] at hch
        have hlt : i < src.length := by
          by_contra hn
          rw [List.getElem?_eq_none (by omega)] at hch
          cases hch
        refine ⟨hlt, ?_⟩
        rw [List.getElem?_eq_getElem hlt, Option.getD_some] at hch
        rw [if_pos rfl, List.map_append, hold, List.take_add_one, List.getElem?_eq_getElem hlt, hch]
        rfl
      · rw [if_neg fun he => hqp (Prod.mk.inj he).1.symm, List.append_nil]
        exact h.writing q src' i' (by rw [← (ho q hqp).1]; exact hq)
    · rw [hc, hb]
      by_cases hqp : q = p
      · subst hqp
        rw [hpc'] at hq
        cases hq
      · rw [if_neg fun he => hqp (Prod.mk.inj he).1.symm, List.append_nil]
        exact h.ret q src' r ((ho q hqp).2 src' r hq)
  · have hb : ∀ c, s'.bytesOf c = s.bytesOf c := fun c => by rw [Pipe.bytesOf, hp]; rfl
    refine ⟨fun q k hk => ?_, fun q src' i' hq => ?_, fun q src' r hq => ?_⟩
    · rw [hc] at hk
      rw [hb]
      exact h.fresh q k hk
    · rw [hc, hb]
      by_cases hqp : q = p
      · subst hqp
        exact h.writing q src' i' (hw src' i' hq)
      · exact h.writing q src' i' (by rw [← (ho q hqp).1]; exact hq)
    · rw [hc, hb]
      by_cases hqp : q = p
      · subst hqp
        rcases hr src' r hq with h₁ | ⟨i, hri, hi⟩
        · exact .inl h₁
        · exact .inr ⟨i, hri, h.writing q src' i hi⟩
      · exact h.ret q src' r ((ho q hqp).2 src' r hq)

/-- A call begins with a number that no byte has. -/
theorem call {pc : PC} (h : Calls s) (hpc : ∀ src i, pc.written = some (src, i) → i = 0)
    (hret : ∀ src r, pc ≠ .wRet src r) (hg : s.call p pc = some s') : Calls s' := by
  unfold Pipe.call at hg
  split at hg
  case isFalse => cases hg
  obtain rfl := Option.some.inj hg
  refine ⟨fun q k hk => ?_, fun q src i hq => ?_, fun q src r hq => ?_⟩
  · by_cases hqp : q = p
    · subst hqp
      have hk' : s.calls q + 1 < k := by simpa [Pipe.goto] using hk
      exact h.fresh q k (by omega)
    · exact h.fresh q k (by simpa [Pipe.goto, hqp] using hk)
  · by_cases hqp : q = p
    · subst hqp
      rw [Pipe.goto_self] at hq
      obtain rfl := hpc src i hq
      have := h.fresh q (s.calls q + 1) (Nat.lt_succ_self _)
      exact ⟨Nat.zero_le _, by simpa [Pipe.goto, Pipe.bytesOf] using this⟩
    · rw [Pipe.goto_of_ne hqp] at hq
      have := h.writing q src i hq
      simpa [Pipe.goto, Pipe.bytesOf, hqp] using this
  · by_cases hqp : q = p
    · subst hqp
      rw [Pipe.goto_self] at hq
      exact absurd hq (hret src r)
    · rw [Pipe.goto_of_ne hqp] at hq
      have := h.ret q src r hq
      simpa [Pipe.goto, Pipe.bytesOf, hqp] using this

theorem kill (h : Calls s) : Calls (s.kill p) := by
  have hpc : ∀ q, ((s.kill p).pc q).written = (s.pc q).written ∧
      ∀ src r, (s.kill p).pc q = .wRet src r → s.pc q = .wRet src r := fun q => by
    unfold Pipe.kill
    by_cases hqp : q = p
    · subst hqp
      rw [Pipe.goto_self, PC.written_wake, PC.written_wake]
      exact ⟨rfl, fun src r hq => PC.wake_eq_wRet (PC.wake_eq_wRet hq)⟩
    · rw [Pipe.goto_of_ne hqp]
      exact ⟨rfl, fun _ _ hq => hq⟩
  exact ⟨h.fresh, fun q src i hq => h.writing q src i (by rw [← (hpc q).1]; exact hq),
    fun q src r hq => h.ret q src r ((hpc q).2 src r hq)⟩

end Calls

theorem Fifo.init {s : Pipe P} (h : (machine P).init s) : Fifo s := by
  obtain ⟨hr, hw, -, -, -, -, hp, ht⟩ := h
  exact ⟨by simp [hw, hp], by simp [hr, ht], by simp [ht], by simp [hp], by simp [ht, hp],
    by simp [hp]⟩

theorem Calls.init {s : Pipe P} (h : (machine P).init s) : Calls s := by
  obtain ⟨-, -, -, -, -, hi, hp, -⟩ := h
  exact ⟨by simp [Pipe.bytesOf, hp], by simp [hi, PC.written], by simp [hi]⟩

theorem fifo_next {s s' : Pipe P} {e : Event P} (h : Fifo s) (he : (machine P).next s e = some s') :
    Fifo s' := by
  have hcall : ∀ {p pc}, s.call p pc = some s' → Fifo s' := fun hc => by
    unfold Pipe.call at hc
    split at hc
    · obtain rfl := Option.some.inj hc
      exact h.congr ⟨rfl, rfl, rfl, rfl, rfl⟩
    · cases hc
  cases e with
  | write p src => exact hcall he
  | read p dst => exact hcall he
  | close p writable => exact hcall he
  | go p => exact h.go he
  | kill p =>
    obtain rfl := Option.some.inj he
    exact h.congr ⟨rfl, rfl, rfl, rfl, rfl⟩

theorem calls_next {s s' : Pipe P} {e : Event P} (h : Calls s) (he : (machine P).next s e = some s') :
    Calls s' := by
  cases e with
  | write p src => exact h.call (by simp [PC.written]) (by simp) he
  | read p dst => exact h.call (by simp [PC.written]) (by simp) he
  | close p writable => exact h.call (by simp [PC.written]) (by simp) he
  | go p => exact h.go he
  | kill p =>
    obtain rfl := Option.some.inj he
    exact h.kill

/-- A pipe is first in, first out: at most `PIPESIZE` bytes are in it, each
where the next reads find it; the bytes taken out are the first of those put
in; and a call of `pipewrite` that returns `n` has put in the first `n` of its
bytes, in order. -/
theorem pipe_fifo {s : Pipe P} (h : (machine P).Reachable s) :
    (s.nwrite + 2 ^ 32 - s.nread) % 2 ^ 32 ≤ PIPESIZE ∧
    s.taken = (s.put.map Prod.snd).take s.taken.length ∧
    (∀ k x, s.taken.length ≤ k → s.put[k]? = some x → s.data (k % PIPESIZE) = x.2) ∧
    ∀ p src (n : Nat), s.pc p = .wRet src n →
      n ≤ src.length ∧ (s.bytesOf (p, s.calls p)).map some = src.take n := by
  have hf : Fifo s := h.invariant (fun _ hi => Fifo.init hi) fun _ _ _ hs he => fifo_next hs he
  have hc : Calls s := h.invariant (fun _ hi => Calls.init hi) fun _ _ _ hs he => calls_next hs he
  refine ⟨?_, hf.taken, hf.data, fun p src n hp => ?_⟩
  · have h₁ := hf.le
    have h₂ := hf.room
    rw [hf.nwrite, hf.nread]
    unfold PIPESIZE at h₂ ⊢
    omega
  · rcases hc.ret p src _ hp with hr | ⟨i, hi, hb⟩
    · omega
    · obtain rfl : n = i := by exact_mod_cast hi
      exact hb

/-- What `pipealloc` sets up. -/
def Pipe.alloc (P : Type) : Pipe P where
  data := fun _ => 0
  nread := 0
  nwrite := 0
  readopen := true
  writeopen := true
  lock := none
  killed := fun _ => false
  pc := fun _ => .idle
  put := []
  taken := []
  calls := fun _ => 0

theorem Pipe.alloc_init (P : Type) [DecidableEq P] : (machine P).init (Pipe.alloc P) :=
  ⟨rfl, rfl, rfl, rfl, rfl, fun _ => rfl, rfl, rfl⟩

/-- One process writes two bytes, the second of which it cannot read. -/
def writeOne : List (Event Unit) :=
  .write () [some 7, none] :: List.replicate 7 (.go ())

theorem pipe_fifo_writeOne : ∃ s, (machine Unit).exec (Pipe.alloc Unit) writeOne = some s ∧
    s.pc () = .wRet [some 7, none] 1 ∧ (s.bytesOf ((), s.calls ())).map some = [some 7] := by
  obtain ⟨s, hs, hpc⟩ : ∃ s, (machine Unit).exec (Pipe.alloc Unit) writeOne = some s ∧
      s.pc () = .wRet [some 7, none] (1 : Nat) := ⟨_, rfl, rfl⟩
  exact ⟨s, hs, hpc, ((pipe_fifo ⟨_, _, Pipe.alloc_init Unit, hs⟩).2.2.2 () _ 1 hpc).2⟩

end Xv6.PipeBuffer
