/-
spinlock.c, one load or store at a time.

A CPU goes through `acquire`, `release` and `holding` with its interrupts off,
so code of its own does not come in between; the other CPUs do what they like.
The fences keep the accesses in the order of the program.
-/
import Xv6.Lib.Locks
import Xv6.Lib.Simulation

namespace Xv6.Spinlock

open Conc

inductive Call where
  | acquire
  | release
  | holding

inductive PC (L : Type) where
  /-- Not in this code; what the last call of `holding` returned, if there was
  no other call since. -/
  | out (answer : Option (L × Bool))
  /-- `lk->locked` in `holding` -/
  | locked (k : Call) (l : L)
  /-- `lk->cpu == mycpu()` in `holding` -/
  | cpu (k : Call) (l : L)
  /-- `__sync_lock_test_and_set(&lk->locked, 1)` -/
  | swap (l : L)
  /-- `lk->cpu = mycpu()` -/
  | setCpu (l : L)
  /-- `lk->cpu = 0` -/
  | clearCpu (l : L)
  /-- `__sync_lock_release(&lk->locked)` -/
  | unlock (l : L)
  | panic (k : Call) (l : L)

/-- What comes after `holding`. -/
def Call.after {L : Type} (k : Call) (l : L) (r : Bool) : PC L :=
  match k with
  | .acquire => if r then .panic .acquire l else .swap l
  | .release => if r then .clearCpu l else .panic .release l
  | .holding => .out (some (l, r))

structure State (C L : Type) where
  locked : L → Bool
  cpu : L → Option C
  pc : C → PC L

inductive Event (C L : Type) where
  | call (c : C) (k : Call) (l : L)
  | go (c : C)

def Event.by {C L : Type} : Event C L → C
  | .call c _ _ | .go c => c

variable {C L : Type} [DecidableEq C] [DecidableEq L]

def State.goto (s : State C L) (c : C) (pc : PC L) : State C L :=
  { s with pc := Function.update s.pc c pc }

/-- The next load or store of a CPU. -/
def State.go (s : State C L) (c : C) : Option (State C L) :=
  match s.pc c with
  | .out _ | .panic .. => none
  | .locked k l => some (s.goto c (if s.locked l then .cpu k l else k.after l false))
  | .cpu k l => some (s.goto c (k.after l (s.cpu l = some c)))
  | .swap l =>
    some ({ s with locked := Function.update s.locked l true }.goto c
      (if s.locked l then .swap l else .setCpu l))
  | .setCpu l => some ({ s with cpu := Function.update s.cpu l (some c) }.goto c (.out none))
  | .clearCpu l => some ({ s with cpu := Function.update s.cpu l none }.goto c (.unlock l))
  | .unlock l => some ({ s with locked := Function.update s.locked l false }.goto c (.out none))

/-- After `initlock`, any CPU may call any function for any lock. -/
def machine (C L : Type) [DecidableEq C] [DecidableEq L] : Machine (State C L) (Event C L) where
  init s := (∀ l, s.locked l = false) ∧ (∀ l, s.cpu l = none) ∧ ∀ c, s.pc c = .out none
  next s e :=
    match e with
    | .call c k l =>
      match s.pc c with
      | .out _ => some (s.goto c (.locked k l))
      | _ => none
    | .go c => s.go c

/-! ## The owners -/

/-- Between the swap and `lk->cpu = mycpu()`, and from `lk->cpu = 0` on, the
lock has an owner that `lk->cpu` does not name. -/
def PC.marks {L : Type} (l : L) : PC L → Prop
  | .setCpu l' | .unlock l' => l' = l
  | _ => False

/-- What CPU `c` knows at `pc` of the owners. -/
def PC.Knows {C L : Type} (o cpu : L → Option C) (c : C) : PC L → Prop
  | .out (some (l, r)) => r = true ↔ o l = some c
  | .swap l => o l ≠ some c
  | .clearCpu l => cpu l = some c
  | .panic .acquire l => o l = some c
  | .panic .release l => o l ≠ some c
  | .panic .holding _ => False
  | _ => True

/-- The owners as CPU `c` sees them. -/
structure Fits {C L : Type} (o cpu : L → Option C) (c : C) (pc : PC L) : Prop where
  owns : ∀ l, o l = some c ↔ cpu l = some c ∨ pc.marks l
  blank : ∀ l, pc.marks l → cpu l = none
  knows : pc.Knows o cpu c

/-- The locks in memory belong to the owners `o`. -/
structure Inv {C L : Type} (s : State C L) (o : L → Option C) : Prop where
  locked : ∀ l, s.locked l = (o l).isSome
  fits : ∀ c, Fits o s.cpu c (s.pc c)

variable {s s' : State C L} {o o' : L → Option C} {c c' : C} {l l' : L} {pc : PC L} {k : Call}

omit [DecidableEq L] in
@[simp] theorem goto_self (s : State C L) (c : C) (pc : PC L) : (s.goto c pc).pc c = pc :=
  Function.update_self ..

omit [DecidableEq L] in
theorem goto_of_ne (h : c' ≠ c) : (s.goto c pc).pc c' = s.pc c' := Function.update_of_ne h ..

omit [DecidableEq C] [DecidableEq L] in
/-- What another CPU knows does not depend on who else owns a lock. -/
theorem Fits.other {cpu cpu' : L → Option C} (h : Fits o cpu c pc)
    (ho : ∀ l, o' l = some c ↔ o l = some c) (hcpu : ∀ l, cpu' l = some c ↔ cpu l = some c)
    (hblank : ∀ l, o l = some c → cpu l = none → cpu' l = none) : Fits o' cpu' c pc where
  owns l := by rw [ho, hcpu, h.owns]
  blank l hl := hblank l ((h.owns l).2 (.inr hl)) (h.blank l hl)
  knows := by
    have hk := h.knows
    cases pc with
    | out a =>
      cases a with
      | none => trivial
      | some a => exact hk.trans (ho a.1).symm
    | swap l => exact fun hl => hk ((ho l).1 hl)
    | clearCpu l => exact (hcpu l).2 hk
    | panic k l =>
      cases k with
      | acquire => exact (ho l).2 hk
      | release => exact fun hl => hk ((ho l).1 hl)
      | holding => exact hk
    | _ => trivial

omit [DecidableEq L] in
/-- A step of CPU `c`, which does not touch what belongs to the others. -/
theorem Inv.move {locked : L → Bool} {cpu : L → Option C} (h : Inv s o)
    (hlocked : ∀ l, locked l = (o' l).isSome)
    (hother : ∀ c', c' ≠ c → ∀ l, (o' l = some c' ↔ o l = some c') ∧
      (cpu l = some c' ↔ s.cpu l = some c') ∧ (o l = some c' → s.cpu l = none → cpu l = none))
    (hself : Fits o' cpu c pc) :
    Inv ({ s with locked := locked, cpu := cpu }.goto c pc) o' where
  locked := hlocked
  fits c' := by
    by_cases hc : c' = c
    · rw [hc, goto_self]
      exact hself
    · rw [goto_of_ne hc]
      have ho := hother c' hc
      exact (h.fits c').other (fun l => (ho l).1) (fun l => (ho l).2.1) fun l => (ho l).2.2

omit [DecidableEq L] in
/-- A step that only reads. -/
theorem Inv.stay (h : Inv s o) (hold : ∀ l, ¬ (s.pc c).marks l) (hnew : ∀ l, ¬ pc.marks l)
    (hk : pc.Knows o s.cpu c) : Inv (s.goto c pc) o := by
  refine h.move h.locked (fun c' _ l => ⟨.rfl, .rfl, fun _ => id⟩) ⟨fun l => ?_, fun l hl => ?_, hk⟩
  · rw [(h.fits c).owns]
    exact or_congr_right (iff_of_false (hold l) (hnew l))
  · exact absurd hl (hnew l)

omit [DecidableEq L] in
/-- `holding` is exact for the CPU that calls it. -/
theorem Inv.after (h : Inv s o) (hold : ∀ l, ¬ (s.pc c).marks l) {r : Bool}
    (hr : r = true ↔ o l = some c) : Inv (s.goto c (k.after l r)) o := by
  have hcpu : o l = some c → s.cpu l = some c := by
    intro ho
    exact (((h.fits c).owns l).1 ho).resolve_right (hold l)
  cases k with
  | acquire =>
    cases r with
    | true => exact h.stay hold (fun _ => id) (hr.1 rfl)
    | false => exact h.stay hold (fun _ => id) fun ho => by simpa using hr.2 ho
  | release =>
    cases r with
    | true => exact h.stay hold (fun _ => id) (hcpu (hr.1 rfl))
    | false => exact h.stay hold (fun _ => id) fun ho => by simpa using hr.2 ho
  | holding => exact h.stay hold (fun _ => id) hr

/-! ## Steps -/

/-- The swap, when the lock is free. -/
theorem Inv.take (h : Inv s o) (hpc : s.pc c = .swap l) (hfree : o l = none) :
    Inv ({ s with locked := Function.update s.locked l true }.goto c (.setCpu l))
      (Function.update o l (some c)) := by
  have hblank : s.cpu l = none := by
    cases hcpu : s.cpu l with
    | none => rfl
    | some c' =>
      have howns := ((h.fits c').owns l).2 (.inl hcpu)
      rw [hfree] at howns
      cases howns
  refine h.move (fun l' => ?_) (fun c' hc l' => ⟨?_, .rfl, fun _ => id⟩)
    ⟨fun l' => ?_, fun l' hl => ?_, trivial⟩
  · by_cases hl : l' = l
    · rw [hl, Function.update_self, Function.update_self]
      rfl
    · rw [Function.update_of_ne hl, Function.update_of_ne hl, h.locked]
  · by_cases hl : l' = l
    · rw [hl, Function.update_self, hfree]
      simp [Ne.symm hc]
    · rw [Function.update_of_ne hl]
  · by_cases hl : l' = l
    · rw [hl, Function.update_self]
      exact iff_of_true rfl (.inr rfl)
    · rw [Function.update_of_ne hl, (h.fits c).owns, hpc]
      exact or_congr_right (iff_of_false id fun he => hl he.symm)
  · obtain rfl : l = l' := hl
    exact hblank

/-- `lk->cpu = mycpu()` -/
theorem Inv.setCpu (h : Inv s o) (hpc : s.pc c = .setCpu l) :
    Inv ({ s with cpu := Function.update s.cpu l (some c) }.goto c (.out none)) o := by
  have howns : o l = some c := ((h.fits c).owns l).2 (.inr (by rw [hpc]; rfl))
  refine h.move h.locked (fun c' hc l' => ⟨.rfl, ?_, fun ho hn => ?_⟩)
    ⟨fun l' => ?_, fun l' hl => hl.elim, trivial⟩
  · by_cases hl : l' = l
    · rw [hl, Function.update_self, (h.fits c).blank l (by rw [hpc]; rfl)]
      simp [Ne.symm hc]
    · rw [Function.update_of_ne hl]
  · have hl : l' ≠ l := by
      intro he
      rw [he, howns] at ho
      exact hc (Option.some.inj ho).symm
    rwa [Function.update_of_ne hl]
  · by_cases hl : l' = l
    · rw [hl, Function.update_self]
      exact iff_of_true howns (.inl rfl)
    · rw [Function.update_of_ne hl, (h.fits c).owns, hpc]
      exact or_congr_right (iff_of_false (fun he => hl he.symm) id)

/-- `lk->cpu = 0` -/
theorem Inv.clearCpu (h : Inv s o) (hpc : s.pc c = .clearCpu l) :
    Inv ({ s with cpu := Function.update s.cpu l none }.goto c (.unlock l)) o := by
  have hcpu : s.cpu l = some c := by
    have hk := (h.fits c).knows
    rwa [hpc] at hk
  have howns : o l = some c := ((h.fits c).owns l).2 (.inl hcpu)
  refine h.move h.locked (fun c' hc l' => ⟨.rfl, ?_, fun ho hn => ?_⟩)
    ⟨fun l' => ?_, fun l' hl => ?_, trivial⟩
  · by_cases hl : l' = l
    · rw [hl, Function.update_self, hcpu]
      simp [Ne.symm hc]
    · rw [Function.update_of_ne hl]
  · by_cases hl : l' = l
    · rw [hl, Function.update_self]
    · rwa [Function.update_of_ne hl]
  · by_cases hl : l' = l
    · rw [hl, Function.update_self]
      exact iff_of_true howns (.inr rfl)
    · rw [Function.update_of_ne hl, (h.fits c).owns, hpc]
      exact or_congr_right (iff_of_false id fun he => hl he.symm)
  · obtain rfl : l = l' := hl
    exact Function.update_self ..

/-- `__sync_lock_release(&lk->locked)` -/
theorem Inv.unlock (h : Inv s o) (hpc : s.pc c = .unlock l) :
    o l = some c ∧ Inv ({ s with locked := Function.update s.locked l false }.goto c (.out none))
      (Function.update o l none) := by
  have howns : o l = some c := ((h.fits c).owns l).2 (.inr (by rw [hpc]; rfl))
  have hblank := (h.fits c).blank l (by rw [hpc]; rfl)
  refine ⟨howns, h.move (fun l' => ?_) (fun c' hc l' => ⟨?_, .rfl, fun _ => id⟩)
    ⟨fun l' => ?_, fun l' hl => hl.elim, trivial⟩⟩
  · by_cases hl : l' = l
    · rw [hl, Function.update_self, Function.update_self]
      rfl
    · rw [Function.update_of_ne hl, Function.update_of_ne hl, h.locked]
  · by_cases hl : l' = l
    · rw [hl, Function.update_self, howns]
      simp [Ne.symm hc]
    · rw [Function.update_of_ne hl]
  · by_cases hl : l' = l
    · rw [hl, Function.update_self, hblank]
      simp [PC.marks]
    · rw [Function.update_of_ne hl, (h.fits c).owns, hpc]
      exact or_congr_right (iff_of_false (fun he => hl he.symm) id)

/-- A step takes a lock, gives one back, or does neither. -/
theorem Inv.next {e : Event C L} (h : Inv s o) (hs : (machine C L).next s e = some s') :
    Inv s' o ∨ ∃ f o', (locks C L).next o f = some o' ∧ f.by = e.by ∧ Inv s' o' := by
  cases e with
  | call c k l =>
    simp only [machine] at hs
    split at hs
    next a hpc =>
      obtain rfl := Option.some.inj hs
      exact .inl (h.stay (by simp [hpc, PC.marks]) (fun _ => id) trivial)
    next => cases hs
  | go c =>
    simp only [machine, State.go] at hs
    split at hs
    next => cases hs
    next => cases hs
    next k l hpc =>
      have hold : ∀ l, ¬ (s.pc c).marks l := by simp [hpc, PC.marks]
      obtain rfl := Option.some.inj hs
      refine .inl ?_
      cases hl : s.locked l with
      | true => exact h.stay hold (fun _ => id) trivial
      | false =>
        have hno : o l = none := by
          rw [h.locked] at hl
          simpa using hl
        exact h.after hold (by simp [hno])
    next k l hpc =>
      have hold : ∀ l, ¬ (s.pc c).marks l := by simp [hpc, PC.marks]
      obtain rfl := Option.some.inj hs
      refine .inl (h.after hold ?_)
      rw [decide_eq_true_iff, (h.fits c).owns, or_iff_left (hold l)]
    next l hpc =>
      have hold : ∀ l, ¬ (s.pc c).marks l := by simp [hpc, PC.marks]
      obtain rfl := Option.some.inj hs
      cases hl : s.locked l with
      | true =>
        have hsame : Function.update s.locked l true = s.locked := by
          rw [← hl, Function.update_eq_self]
        have hk := (h.fits c).knows
        rw [hpc] at hk
        rw [hsame]
        exact .inl (h.stay hold (fun _ => id) hk)
      | false =>
        have hfree : o l = none := by
          rw [h.locked] at hl
          simpa using hl
        exact .inr ⟨.take c l, _, if_pos hfree, rfl, h.take hpc hfree⟩
    next l hpc =>
      obtain rfl := Option.some.inj hs
      exact .inl (h.setCpu hpc)
    next l hpc =>
      obtain rfl := Option.some.inj hs
      exact .inl (h.clearCpu hpc)
    next l hpc =>
      obtain rfl := Option.some.inj hs
      obtain ⟨howns, h'⟩ := h.unlock hpc
      exact .inr ⟨.give c l, _, if_pos howns, rfl, h'⟩

theorem simulation : Machine.Simulation (machine C L) (locks C L) Inv where
  init s hi := by
    obtain ⟨hlocked, hcpu, hpc⟩ := hi
    refine ⟨fun _ => none, fun _ => rfl, hlocked, fun c => ⟨fun l => ?_, fun l hl => ?_, ?_⟩⟩
    · rw [hcpu, hpc]
      simp [PC.marks]
    · exact hcpu l
    · rw [hpc]
      trivial
  step s e s' o h hs := by
    rcases h.next hs with h' | ⟨f, o', hf, -, h'⟩
    · exact ⟨[], o, rfl, h'⟩
    · exact ⟨[f], o', by rw [Machine.exec_cons, hf]; rfl, h'⟩

/-! ## Mutual exclusion -/

/-- The locks in memory refine the locks without memory: in any run there is
one owner at most, the CPU that `lk->cpu` names or that is about to set it or
has just cleared it; a step takes or gives back one lock, or none;
`acquire` panics at the owner only and `release` at anyone else; and `holding`
answers for the owner alone. -/
theorem spinlock_refines {s : State C L} (h : (machine C L).Reachable s) :
    ∃ o, (locks C L).Reachable o ∧
      (∀ l c, o l = some c ↔ s.cpu l = some c ∨ (s.pc c).marks l) ∧
      (∀ l, s.locked l = (o l).isSome) ∧
      (∀ c l, s.pc c = .panic .acquire l → o l = some c) ∧
      (∀ c l, s.pc c = .panic .release l → o l ≠ some c) ∧
      (∀ c l, s.pc c = .swap l → o l ≠ some c) ∧
      (∀ c l r, s.pc c = .out (some (l, r)) → (r = true ↔ o l = some c)) ∧
      ∀ e s', (machine C L).next s e = some s' →
        ∃ o', (o' = o ∨ ∃ f, f.by = e.by ∧ (locks C L).next o f = some o') ∧
          ∀ l c, o' l = some c ↔ s'.cpu l = some c ∨ (s'.pc c).marks l := by
  obtain ⟨o, ho, hinv⟩ := simulation.reachable h
  have hknows : ∀ c pc, s.pc c = pc → pc.Knows o s.cpu c := by
    intro c pc hpc
    rw [← hpc]
    exact (hinv.fits c).knows
  refine ⟨o, ho, fun l c => (hinv.fits c).owns l, hinv.locked, ?_, ?_, ?_, ?_, ?_⟩
  · intro c l hpc
    exact hknows c _ hpc
  · intro c l hpc
    exact hknows c _ hpc
  · intro c l hpc
    exact hknows c _ hpc
  · intro c l r hpc
    exact hknows c _ hpc
  · intro e s' hs
    rcases hinv.next hs with h' | ⟨f, o', hf, hby, h'⟩
    · exact ⟨o, .inl rfl, fun l c => (h'.fits c).owns l⟩
    · exact ⟨o', .inr ⟨f, hby, hf⟩, fun l c => (h'.fits c).owns l⟩

/-- Two CPUs go for one lock. -/
def race : List (Event Bool Unit) :=
  [.call true .acquire (), .call false .acquire (), .go true, .go false, .go true, .go false,
    .go true]

def atRest : State Bool Unit := ⟨fun _ => false, fun _ => none, fun _ => .out none⟩

theorem spinlock_refines_race :
    ∃ s, (machine Bool Unit).exec atRest race = some s ∧ s.cpu () = some true ∧
      ∃ o, (locks Bool Unit).Reachable o ∧
        ∀ l c, o l = some c ↔ s.cpu l = some c ∨ (s.pc c).marks l := by
  have hr : (machine Bool Unit).Reachable (((machine Bool Unit).exec atRest race).get rfl) :=
    ⟨atRest, race, ⟨fun _ => rfl, fun _ => rfl, fun _ => rfl⟩, (Option.some_get _).symm⟩
  obtain ⟨o, ho, howns, -⟩ := spinlock_refines hr
  exact ⟨_, (Option.some_get _).symm, rfl, o, ho, howns⟩

end Xv6.Spinlock
