/-
Programs as trees of atomic actions on a shared state.

A `Prog σ α` either returns, or performs one atomic action and goes on with
its result. An action may also have to wait (it is not enabled in this
state) or panic. Loops of a modelled program are recursive functions that
return a `Prog`; what runs between two actions is invisible to everybody
else. `Prog.run` is the run of a program alone; `Conc.System` (in
`Lib/Pool`) interleaves the actions of many.
-/
import Mathlib.Logic.Basic

namespace Conc

/-- What one atomic action does in a state. -/
inductive Outcome (σ α : Type) where
  | ok (a : α) (s : σ)
  | wait
  | panic (msg : String)

namespace Outcome

variable {σ α : Type}

/-- The state an action leaves; `s₀` if it waits or panics. -/
def state (s₀ : σ) : Outcome σ α → σ
  | .ok _ s => s
  | _ => s₀

/-- What an action returns. -/
def value : Outcome σ α → Option α
  | .ok a _ => some a
  | _ => none

def isOk : Outcome σ α → Bool
  | .ok _ _ => true
  | _ => false

def isPanic (msg : String) : Outcome σ α → Bool
  | .panic m => m = msg
  | _ => false

theorem eq_ok {o : Outcome σ α} (h : o.isOk) (s₀ : σ) : ∃ a, o = .ok a (o.state s₀) := by
  cases o with
  | ok a s => exact ⟨a, rfl⟩
  | wait => cases h
  | panic m => cases h

theorem eq_panic {o : Outcome σ α} {msg : String} (h : o.isPanic msg) : o = .panic msg := by
  cases o with
  | ok a s => cases h
  | wait => cases h
  | panic m => simpa [isPanic] using h

end Outcome

/-- A program on states `σ` returning an `α`. -/
inductive Prog (σ α : Type) : Type 1 where
  | ret (a : α)
  | act {β : Type} (f : σ → Outcome σ β) (k : β → Prog σ α)

namespace Prog

variable {σ α β δ : Type}

def bind : Prog σ α → (α → Prog σ β) → Prog σ β
  | .ret a, k => k a
  | .act f j, k => .act f fun b => (j b).bind k

instance : Monad (Prog σ) where
  pure := .ret
  bind := bind

@[simp] theorem pure_eq (a : α) : (pure a : Prog σ α) = .ret a := rfl

@[simp] theorem ret_bind (a : α) (k : α → Prog σ β) : (.ret a >>= k) = k a := rfl

@[simp] theorem act_bind (f : σ → Outcome σ δ) (j : δ → Prog σ α) (k : α → Prog σ β) :
    (.act f j >>= k) = .act f fun b => j b >>= k := rfl

theorem bind_assoc (p : Prog σ α) (k : α → Prog σ β) (j : β → Prog σ δ) :
    (p >>= k >>= j) = p >>= fun a => k a >>= j := by
  induction p with
  | ret a => rfl
  | act f i ih =>
    simp only [act_bind]
    congr 1
    funext b
    exact ih b

/-! ## Single actions -/

/-- One atomic action. -/
def atom (f : σ → Outcome σ α) : Prog σ α := .act f .ret

/-- Read the state. -/
def read (f : σ → α) : Prog σ α := atom fun s => .ok (f s) s

/-- Change the state. -/
def modify (f : σ → σ) : Prog σ Unit := atom fun s => .ok () (f s)

/-- Stop with a message. -/
def fail (msg : String) : Prog σ α := atom fun _ => .panic msg

/-! ## A program alone -/

/-- The whole program without interference. -/
def run : Prog σ α → σ → Outcome σ α
  | .ret a, s => .ok a s
  | .act f k, s =>
    match f s with
    | .ok b s' => (k b).run s'
    | .wait => .wait
    | .panic m => .panic m

@[simp] theorem run_ret (a : α) (s : σ) : (Prog.ret a).run s = .ok a s := rfl

theorem run_act (f : σ → Outcome σ δ) (k : δ → Prog σ α) (s : σ) :
    (Prog.act f k).run s =
      match f s with
      | .ok b s' => (k b).run s'
      | .wait => .wait
      | .panic m => .panic m := by rw [run]

theorem run_bind (p : Prog σ α) (k : α → Prog σ β) (s : σ) :
    (p >>= k).run s =
      match p.run s with
      | .ok a s' => (k a).run s'
      | .wait => .wait
      | .panic m => .panic m := by
  induction p generalizing s with
  | ret a => rfl
  | act f j ih =>
    simp only [act_bind, run_act]
    cases f s with
    | ok b s' => exact ih b s'
    | wait => rfl
    | panic m => rfl

/-- A program that returns has returned at every step. -/
theorem bind_run_ok {p : Prog σ α} {k : α → Prog σ β} {s s' : σ} {b : β}
    (h : (p >>= k).run s = .ok b s') : ∃ a s₁, p.run s = .ok a s₁ ∧ (k a).run s₁ = .ok b s' := by
  rw [run_bind] at h
  cases hp : p.run s with
  | ok a s₁ =>
    rw [hp] at h
    exact ⟨a, s₁, rfl, h⟩
  | wait =>
    rw [hp] at h
    cases h
  | panic m =>
    rw [hp] at h
    cases h

@[simp] theorem run_atom (f : σ → Outcome σ α) (s : σ) : (atom f).run s = f s := by
  simp only [atom, run_act]
  cases f s <;> rfl

@[simp] theorem run_read (f : σ → α) (s : σ) : (read f).run s = .ok (f s) s := rfl

@[simp] theorem run_modify (f : σ → σ) (s : σ) : (modify f).run s = .ok () (f s) := rfl

@[simp] theorem run_fail (msg : String) (s : σ) : (fail msg : Prog σ α).run s = .panic msg := rfl

end Prog

end Conc
