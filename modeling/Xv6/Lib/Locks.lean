/-
Locks without memory: what a lock is for.
-/
import Mathlib.Logic.Function.Basic
import Xv6.Lib.Machine

namespace Conc

/-- Whoever takes a lock, when nobody has it, gives it back. -/
inductive LockEvent (C L : Type) where
  | take (c : C) (l : L)
  | give (c : C) (l : L)

def LockEvent.by {C L : Type} : LockEvent C L → C
  | .take c _ | .give c _ => c

/-- The owners of some locks. -/
def locks (C L : Type) [DecidableEq C] [DecidableEq L] :
    Machine (L → Option C) (LockEvent C L) where
  init o := ∀ l, o l = none
  next o e :=
    match e with
    | .take c l => if o l = none then some (Function.update o l (some c)) else none
    | .give c l => if o l = some c then some (Function.update o l none) else none

end Conc
