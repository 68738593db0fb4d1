/-
Thread pools: any number of threads, each idle or in the middle of a
program, taking atomic actions on one shared state in any order.

A `System` says which operations a thread may start (`start`, which also
sees the client state: what the outside of the modelled code remembers
between two operations), which program an operation runs, and what its
return leaves in the client state (`finish`).
-/
import Mathlib.Logic.Relation
import Mathlib.Logic.Function.Basic
import Xv6.Lib.Prog

namespace Conc

/-- The operations threads `T` run on states `σ` for clients `Λ`. -/
structure System (σ Λ T : Type) where
  Op : Type
  Ret : Type
  prog : T → Op → Prog σ Ret
  start : σ → Λ → T → Op → Option Λ
  finish : Λ → T → Op → Ret → Λ

variable {σ Λ T : Type} [DecidableEq T]

/-- A thread between operations, or with what is left of one. -/
inductive Thread (S : System σ Λ T) : Type 1 where
  | idle
  | run (op : S.Op) (p : Prog σ S.Ret)

/-- A state of the whole pool. -/
structure Config (S : System σ Λ T) : Type 1 where
  shared : σ
  client : Λ
  thread : T → Thread S

namespace System

variable (S : System σ Λ T)

/-- One step of thread `t`: it starts an operation, takes its next atomic
action, or returns. A thread whose next action waits or panics has no step. -/
inductive Step : Config S → T → Config S → Prop
  | start {c t op l} : c.thread t = .idle → S.start c.shared c.client t op = some l →
      Step c t { c with client := l, thread := Function.update c.thread t (.run op (S.prog t op)) }
  | act {c t op β} {f : σ → Outcome σ β} {k : β → Prog σ S.Ret} {b s} :
      c.thread t = .run op (.act f k) → f c.shared = .ok b s →
      Step c t { c with shared := s, thread := Function.update c.thread t (.run op (k b)) }
  | finish {c t op a} : c.thread t = .run op (.ret a) →
      Step c t { c with
        client := S.finish c.client t op a, thread := Function.update c.thread t .idle }

/-- Any number of steps by any threads in any order. -/
def Steps : Config S → Config S → Prop := Relation.ReflTransGen fun c c' => ∃ t, S.Step c t c'

/-- Thread `t`'s next action, inside operation `op`, panics with `msg`. -/
def Panics (c : Config S) (t : T) (op : S.Op) (msg : String) : Prop :=
  ∃ (β : Type) (f : σ → Outcome σ β) (k : β → Prog σ S.Ret),
    c.thread t = .run op (.act f k) ∧ f c.shared = .panic msg

/-- No operation is in progress. -/
def Quiet (c : Config S) : Prop := ∀ t, c.thread t = .idle

/-- The pool in shared state `s` with every thread idle. -/
def initial (s : σ) (l : Λ) : Config S := ⟨s, l, fun _ => .idle⟩

variable {S}

theorem Steps.refl (c : Config S) : S.Steps c c := Relation.ReflTransGen.refl

theorem Steps.trans {c₁ c₂ c₃ : Config S} (h₁ : S.Steps c₁ c₂) (h₂ : S.Steps c₂ c₃) :
    S.Steps c₁ c₃ := Relation.ReflTransGen.trans h₁ h₂

theorem Steps.tail {c₁ c₂ c₃ : Config S} {t} (h : S.Steps c₁ c₂) (hs : S.Step c₂ t c₃) :
    S.Steps c₁ c₃ := Relation.ReflTransGen.tail h ⟨t, hs⟩

theorem Steps.single {c₁ c₂ : Config S} {t} (hs : S.Step c₁ t c₂) : S.Steps c₁ c₂ :=
  (Steps.refl c₁).tail hs

theorem Steps.invariant {I : Config S → Prop} (hstep : ∀ c t c', I c → S.Step c t c' → I c')
    {c c'} (h : S.Steps c c') (hc : I c) : I c' := by
  induction h with
  | refl => exact hc
  | tail _ hs ih =>
    obtain ⟨t, hs⟩ := hs
    exact hstep _ t _ ih hs

/-! ## Running a schedule -/

/-- The configuration after thread `t`'s next step in the direction `op`: to
begin `op`, or (`none`) to go on with what it is doing. -/
def next (S : System σ Λ T) (c : Config S) (t : T) (op : Option S.Op) : Option (Config S) :=
  match c.thread t, op with
  | .idle, some op => (S.start c.shared c.client t op).map fun l =>
      { c with client := l, thread := Function.update c.thread t (.run op (S.prog t op)) }
  | .run op (.ret a), none => some
      { c with client := S.finish c.client t op a, thread := Function.update c.thread t .idle }
  | .run op (.act f k), none =>
    match f c.shared with
    | .ok b s => some { c with shared := s, thread := Function.update c.thread t (.run op (k b)) }
    | _ => none
  | _, _ => none

/-- The steps of `next`, for the threads and directions of a list. -/
def schedule (S : System σ Λ T) (c : Config S) (l : List (T × Option S.Op)) : Option (Config S) :=
  l.foldlM (fun c (t, op) => S.next c t op) c

theorem next_step {c c' : Config S} {t op} (h : S.next c t op = some c') : S.Step c t c' := by
  unfold next at h
  split at h
  case h_1 op hc =>
    obtain ⟨l, hl, rfl⟩ := Option.map_eq_some_iff.mp h
    exact .start hc hl
  case h_2 op a hc =>
    cases h
    exact .finish hc
  case h_3 op β f k hc =>
    split at h
    case h_1 b s hf =>
      cases h
      exact .act hc hf
    case h_2 => cases h
  case h_4 => cases h

theorem schedule_steps {l : List (T × Option S.Op)} {c c' : Config S}
    (h : S.schedule c l = some c') : S.Steps c c' := by
  induction l generalizing c with
  | nil => cases h; exact .refl _
  | cons x l ih =>
    obtain ⟨t, op⟩ := x
    simp only [schedule, List.foldlM_cons, Option.bind_eq_bind, Option.bind_eq_some_iff] at h
    obtain ⟨c₁, h₁, h₂⟩ := h
    exact (Steps.single (next_step h₁)).trans (ih h₂)

/-! ## One operation after another -/

/-- One operation after another, each run to its end alone. -/
inductive SeqRun (S : System σ Λ T) (s₀ : σ) (l₀ : Λ) : σ → Λ → Prop
  | init : SeqRun S s₀ l₀ s₀ l₀
  | op {s l l' t op a s'} : SeqRun S s₀ l₀ s l → S.start s l t op = some l' →
      (S.prog t op).run s = .ok a s' → SeqRun S s₀ l₀ s' (S.finish l' t op a)

end System

end Conc
