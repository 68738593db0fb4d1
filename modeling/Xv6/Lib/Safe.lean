/-
Reasoning about one thread of a pool at a time.

A `Spec` fixes an invariant of the shared state, the client state and one
ghost value for each thread, a guarantee that relates the states and ghost
values around every step, and the panics that may happen. `Safe P t p g Q` says that
thread `t`, with ghost value `g`, can run `p` and keep to the specification
whatever the other threads do meanwhile: they may change everything except
`t`'s ghost value, so what the invariant says of a state in terms of `g` is
what `t` knows of it. `Safe.bind` composes such facts along a program, and
`OpSpec.Kept.holds` turns one of them for each operation into a fact about
every reachable configuration.
-/
import Xv6.Lib.Pool

namespace Conc

/-- An invariant with ghost values, a guarantee of every action, and the
panics that are allowed. -/
structure Spec (σ Λ T G : Type) where
  inv : σ → Λ → (T → G) → Prop
  guar : T → σ → (T → G) → σ → (T → G) → Prop
  panicOk : T → σ → String → Prop

variable {σ Λ T G α β : Type} [DecidableEq T]

/-- Thread `t` runs the program within the specification and returns with
the postcondition. -/
def Safe (P : Spec σ Λ T G) (t : T) : Prog σ α → G → (α → G → Prop) → Prop
  | .ret a, g, Q => Q a g
  | .act f k, g, Q => ∀ s l γ, P.inv s l γ → γ t = g →
      (∀ b s', f s = .ok b s' →
        ∃ g', P.inv s' l (Function.update γ t g') ∧ P.guar t s γ s' (Function.update γ t g') ∧ Safe P t (k b) g' Q) ∧
      (∀ m, f s = .panic m → P.panicOk t s m)

namespace Safe

variable {P : Spec σ Λ T G} {t : T} {g : G}

theorem ret {a : α} {Q : α → G → Prop} (h : Q a g) : Safe P t (.ret a) g Q := h

theorem mono {p : Prog σ α} {g : G} {Q R : α → G → Prop} (h : Safe P t p g Q)
    (hQ : ∀ a g', Q a g' → R a g') : Safe P t p g R := by
  induction p generalizing g with
  | ret a => exact hQ a g h
  | act f k ih =>
    intro s l γ hi hg
    obtain ⟨hok, hp⟩ := h s l γ hi hg
    refine ⟨fun b s' hf => ?_, hp⟩
    obtain ⟨g', hi', hr, hk⟩ := hok b s' hf
    exact ⟨g', hi', hr, ih b hk⟩

theorem bind {p : Prog σ α} {k : α → Prog σ β} {g : G} {Q : α → G → Prop} {R : β → G → Prop}
    (hp : Safe P t p g Q) (hk : ∀ a g', Q a g' → Safe P t (k a) g' R) :
    Safe P t (p >>= k) g R := by
  induction p generalizing g with
  | ret a => exact hk a g hp
  | act f j ih =>
    intro s l γ hi hg
    obtain ⟨hok, hpan⟩ := hp s l γ hi hg
    refine ⟨fun b s' hf => ?_, hpan⟩
    obtain ⟨g', hi', hr, hj⟩ := hok b s' hf
    exact ⟨g', hi', hr, ih b hj⟩

/-- One atomic action. -/
theorem atom {f : σ → Outcome σ α} {Q : α → G → Prop}
    (hok : ∀ s l γ, P.inv s l γ → γ t = g → ∀ a s', f s = .ok a s' →
      ∃ g', P.inv s' l (Function.update γ t g') ∧ P.guar t s γ s' (Function.update γ t g') ∧ Q a g')
    (hpan : ∀ s l γ, P.inv s l γ → γ t = g → ∀ m, f s = .panic m → P.panicOk t s m) :
    Safe P t (Prog.atom f) g Q :=
  fun s l γ hi hg => ⟨fun a s' hf => hok s l γ hi hg a s' hf, hpan s l γ hi hg⟩

theorem modify {f : σ → σ} {Q : Unit → G → Prop}
    (h : ∀ s l γ, P.inv s l γ → γ t = g →
      ∃ g', P.inv (f s) l (Function.update γ t g') ∧ P.guar t s γ (f s) (Function.update γ t g') ∧ Q () g') :
    Safe P t (Prog.modify f) g Q := by
  refine atom (fun s l γ hi hg a s' hf => ?_) (fun s l γ _ _ m hm => by cases hm)
  obtain ⟨-, rfl⟩ := Outcome.ok.inj hf
  exact h s l γ hi hg

end Safe

/-! ## From threads to the pool -/

/-- A specification for each operation of a system, with one invariant. -/
structure OpSpec (S : System σ Λ T) (G : Type) where
  inv : σ → Λ → (T → G) → Prop
  guar : S.Op → T → σ → (T → G) → σ → (T → G) → Prop
  panicOk : S.Op → T → σ → String → Prop
  /-- The ghost value of a thread between operations. -/
  idle : G
  /-- What an operation ends with. -/
  post : T → S.Op → S.Ret → G → Prop

namespace OpSpec

variable {S : System σ Λ T}

/-- The specification one operation runs under. -/
def spec (O : OpSpec S G) (op : S.Op) : Spec σ Λ T G := ⟨O.inv, O.guar op, O.panicOk op⟩

/-- The operations of a system keep to a specification: from the invariant
with an idle thread, what the thread may start is safe, and what it leaves
lets it be idle again. -/
structure Kept (O : OpSpec S G) : Prop where
  start : ∀ s l γ t op l', O.inv s l γ → γ t = O.idle → S.start s l t op = some l' →
    ∃ g, O.inv s l' (Function.update γ t g) ∧ O.guar op t s γ s (Function.update γ t g) ∧
      Safe (O.spec op) t (S.prog t op) g (O.post t op)
  finish : ∀ s l γ t op a, O.inv s l γ → O.post t op a (γ t) →
    O.inv s (S.finish l t op a) (Function.update γ t O.idle) ∧
      O.guar op t s γ s (Function.update γ t O.idle)

/-- What is left of a thread's operation is safe with its ghost value. -/
def ThreadOk (O : OpSpec S G) (t : T) : Thread S → G → Prop
  | .idle, g => g = O.idle
  | .run op p, g => Safe (O.spec op) t p g (O.post t op)

/-- The specification holds in a configuration with these ghost values. -/
def HoldsWith (O : OpSpec S G) (c : Config S) (γ : T → G) : Prop :=
  O.inv c.shared c.client γ ∧ ∀ t, O.ThreadOk t (c.thread t) (γ t)

/-- The specification holds in a configuration, for some ghost values. -/
def Holds (O : OpSpec S G) (c : Config S) : Prop := ∃ γ, O.HoldsWith c γ

variable {O : OpSpec S G}

/-- Giving one thread a new program and a new ghost value leaves the others
as they were. -/
theorem threadOk_update {th : T → Thread S} {γ : T → G} {t : T} {x : Thread S} {g : G}
    (h : ∀ u, O.ThreadOk u (th u) (γ u)) (hx : O.ThreadOk t x g) (u : T) :
    O.ThreadOk u (Function.update th t x u) (Function.update γ t g u) := by
  by_cases hu : u = t
  · subst hu; simpa using hx
  · simpa [Function.update_of_ne hu] using h u

/-- The operation that a step starts, goes on with or ends. -/
def During (S : System σ Λ T) (c c' : Config S) (t : T) (op : S.Op) : Prop :=
  (∃ p, c.thread t = .run op p) ∨ (c.thread t = .idle ∧ ∃ p, c'.thread t = .run op p)

/-- A step keeps the specification, and its guarantee. -/
theorem HoldsWith.step {c c' : Config S} {t : T} {γ : T → G} (hk : O.Kept) (h : O.HoldsWith c γ)
    (hs : S.Step c t c') : ∃ γ' op, O.HoldsWith c' γ' ∧ During S c c' t op ∧
      O.guar op t c.shared γ c'.shared γ' := by
  obtain ⟨hi, ht⟩ := h
  cases hs with
  | @start op l hc hl =>
    have hγ : γ t = O.idle := by simpa [hc, ThreadOk] using ht t
    obtain ⟨g, hi', hr, hsafe⟩ := hk.start _ _ _ t _ _ hi hγ hl
    exact ⟨Function.update γ t g, op, ⟨hi', threadOk_update ht hsafe⟩,
      .inr ⟨hc, S.prog t op, by simp⟩, hr⟩
  | @act op β f k b s hc hf =>
    have hsafe : Safe (O.spec op) t (.act f k) (γ t) (O.post t op) := by
      simpa [hc, ThreadOk] using ht t
    obtain ⟨g', hi', hr, hk'⟩ := (hsafe _ _ γ hi rfl).1 _ _ hf
    exact ⟨Function.update γ t g', op, ⟨hi', threadOk_update ht hk'⟩, .inl ⟨_, hc⟩, hr⟩
  | @finish op a hc =>
    have hpost : O.post t op a (γ t) := by simpa [hc, ThreadOk, Safe] using ht t
    obtain ⟨hi', hr⟩ := hk.finish _ _ γ t op a hi hpost
    exact ⟨Function.update γ t O.idle, op, ⟨hi', threadOk_update ht rfl⟩, .inl ⟨_, hc⟩, hr⟩

theorem Holds.step {c c' : Config S} {t : T} (hk : O.Kept) (h : O.Holds c)
    (hs : S.Step c t c') : O.Holds c' := by
  obtain ⟨γ, hγ⟩ := h
  obtain ⟨γ', -, hγ', -, -⟩ := hγ.step hk hs
  exact ⟨γ', hγ'⟩

/-- Every configuration reached from an idle one that satisfies the
invariant satisfies the specification. -/
theorem Kept.holds (hk : O.Kept) {s₀ l₀} (h₀ : O.inv s₀ l₀ fun _ => O.idle) {c}
    (h : S.Steps (S.initial s₀ l₀) c) : O.Holds c :=
  System.Steps.invariant (fun _ _ _ hc hs => hc.step hk hs) h ⟨_, h₀, fun _ => rfl⟩

/-- In a quiet configuration the ghost values are the idle ones. -/
theorem Holds.quiet {c : Config S} (h : O.Holds c) (hq : S.Quiet c) :
    O.inv c.shared c.client fun _ => O.idle := by
  obtain ⟨γ, hi, ht⟩ := h
  have : γ = fun _ => O.idle := by
    funext t
    simpa [hq t, ThreadOk] using ht t
  exact this ▸ hi

/-- No reachable configuration panics in a way that is not allowed. -/
theorem Holds.panicOk {c : Config S} {t : T} {op msg} (h : O.Holds c)
    (hp : S.Panics c t op msg) : O.panicOk op t c.shared msg := by
  obtain ⟨γ, hi, ht⟩ := h
  obtain ⟨β, f, k, hc, hf⟩ := hp
  have hsafe : Safe (O.spec op) t (.act f k) (γ t) (O.post t op) := by
    simpa [hc, ThreadOk] using ht t
  exact (hsafe _ _ γ hi rfl).2 msg hf

end OpSpec

end Conc
