/-
The buffer cache is transparent: as long as its users write or pin what they
have changed before they give it back, a buffer holds what was last written to
its block, whatever has been recycled in between.

The disk has one device, so the device number of every `bread` is the same.
-/
import Xv6.BufferRing

namespace Xv6.BufferCache

open Conc

/-- The device that `bread` was called with. -/
def PC.dev {n : Nat} : PC n → Option Nat
  | .lookup dev _ _ | .recycle dev _ _ | .acquire dev _ _ | .read dev _ _ => some dev
  | _ => none

/-- At the last step of `bread`. -/
def PC.reading {n : Nat} : PC n → Bool
  | .read .. => true
  | _ => false

variable {P : Type} {n : Nat} {B : Type} [DecidableEq P]

/-- All blocks are of device `d`, and a buffer that is given back is on the
disk or pinned. -/
def Tidy (d : Nat) (s : State P n B) : Event P n B → Prop
  | .bread _ dev _ => dev = d
  | .brelse _ b => s.data b = s.disk (s.blockno b) ∨ 0 < s.pins b
  | _ => True

instance [DecidableEq B] (d : Nat) (s : State P n B) (e : Event P n B) : Decidable (Tidy d s e) :=
  match e with
  | .bread _ dev _ => inferInstanceAs (Decidable (dev = d))
  | .brelse _ b => inferInstanceAs (Decidable (s.data b = s.disk (s.blockno b) ∨ 0 < s.pins b))
  | .go _ | .modify _ _ _ | .bwrite _ _ | .bpin _ _ | .bunpin _ _ => .isTrue trivial

/-- The contents of the blocks after an event. -/
def after (s : State P n B) (A : Nat → B) : Event P n B → Nat → B
  | .modify _ b data => Function.update A (s.blockno b) data
  | _ => A

/-- The contents of the blocks after a run: what was last written to them. -/
def contents (s : State P n B) (A : Nat → B) : List (Event P n B) → Nat → B
  | [] => A
  | e :: es =>
    match (machine P n B).next s e with
    | none => A
    | some s' => contents s' (after s A e) es

/-- The buffers and the disk show the contents `A`. -/
structure Shows (d : Nat) (A : Nat → B) (s : State P n B) : Prop where
  dev : ∀ b, s.valid b = true → s.dev b = d
  calls : ∀ p k, (s.pc p).dev = some k → k = d
  cached : ∀ b, s.valid b = true → s.data b = A (s.blockno b)
  home : ∀ k, (∀ b, s.valid b = true → s.blockno b ≠ k) → s.disk k = A k
  clean : ∀ b, s.valid b = true → 0 < s.pins b ∨ s.lock b ≠ none ∨
    s.data b = s.disk (s.blockno b)
  held : ∀ b p, s.lock b = some p → s.valid b = true ∨ ∃ k m, s.pc p = .read k m b

variable [Fintype P] {s s' : State P n B} {l : List (Fin n)} {p q : P} {b c : Fin n} {d : Nat}
  {A : Nat → B}

/-- Two valid buffers are of different blocks. -/
theorem Shows.blockno_ne (h : Shows d A s) (hI : Inv s l) (hd : 1 ≤ d) (hb : s.dev b = d)
    (hc : s.valid c = true) (hne : c ≠ b) : s.blockno c ≠ s.blockno b := by
  intro he
  have hcaches : s.Caches c (s.dev b) (s.blockno b) := ⟨(h.dev c hc).trans hb.symm, he⟩
  exact hne (hI.keys b c hcaches (hb ▸ hd)).symm

omit [DecidableEq P] [Fintype P] in
/-- Steps that change no buffer's block, contents or validity. -/
theorem Shows.keep (h : Shows d A s) (hvalid : s'.valid = s.valid) (hdev : s'.dev = s.dev)
    (hblockno : s'.blockno = s.blockno) (hdata : s'.data = s.data) (hdisk : s'.disk = s.disk)
    (hcalls : ∀ p k, (s'.pc p).dev = some k → k = d)
    (hclean : ∀ b, 0 < s.pins b ∨ s.lock b ≠ none →
      0 < s'.pins b ∨ s'.lock b ≠ none ∨ s.data b = s.disk (s.blockno b))
    (hheld : ∀ b p, s'.lock b = some p → s.valid b = true ∨ ∃ k m, s'.pc p = .read k m b) :
    Shows d A s' := by
  refine ⟨?_, hcalls, ?_, ?_, ?_, ?_⟩
  · rw [hvalid, hdev]
    exact h.dev
  · rw [hvalid, hdata, hblockno]
    exact h.cached
  · rw [hvalid, hblockno, hdisk]
    exact h.home
  · rw [hvalid, hdata, hblockno, hdisk]
    intro b hb
    rcases h.clean b hb with hpin | hlock | heq
    · exact hclean b (.inl hpin)
    · exact hclean b (.inr hlock)
    · exact .inr (.inr heq)
  · rw [hvalid]
    exact hheld

omit [Fintype P] in
/-- A process goes on to a place with the same device, or with none. -/
theorem Shows.calls_goto (h : Shows d A s) {k : PC n} (hk : ∀ j, k.dev = some j → j = d) (q : P)
    (j : Nat) (hj : (Function.update s.pc p k q).dev = some j) : j = d := by
  by_cases hq : q = p
  · rw [hq, Function.update_self] at hj
    exact hk j hj
  · rw [Function.update_of_ne hq] at hj
    exact h.calls q j hj

omit [Fintype P] in
/-- A process that is not in `bread`'s last step goes on. -/
theorem Shows.held_goto (h : Shows d A s) {k : PC n} (hp : (s.pc p).reading = false) (b : Fin n)
    (q : P) (hq : s.lock b = some q) :
    s.valid b = true ∨ ∃ j m, Function.update s.pc p k q = .read j m b := by
  rcases h.held b q hq with hv | ⟨j, m, hr⟩
  · exact .inl hv
  · have hne : q ≠ p := by
      intro he
      rw [he] at hr
      rw [hr] at hp
      cases hp
    exact .inr ⟨j, m, by rw [Function.update_of_ne hne, hr]⟩

omit [Fintype P] in
/-- A step that only moves the process. -/
theorem Shows.move (h : Shows d A s) {k : PC n} (hp : (s.pc p).reading = false)
    (hk : ∀ j, k.dev = some j → j = d) (hvalid : s'.valid = s.valid) (hdev : s'.dev = s.dev)
    (hblockno : s'.blockno = s.blockno) (hdata : s'.data = s.data) (hdisk : s'.disk = s.disk)
    (hpins : s'.pins = s.pins) (hlock : s'.lock = s.lock)
    (hpc : s'.pc = Function.update s.pc p k) : Shows d A s' := by
  refine h.keep hvalid hdev hblockno hdata hdisk ?_ ?_ ?_
  · rw [hpc]
    exact h.calls_goto hk
  · intro b hb
    rw [hpins, hlock]
    exact hb.imp id .inl
  · rw [hlock, hpc]
    exact h.held_goto hp

/-- `bget` takes an unused buffer, whose contents are on the disk. -/
theorem Shows.recycle (h : Shows d A s) (hI : Inv s l) {k m : Nat}
    (hp : s.pc p = .recycle k m (some b)) (hb : s.refcnt b = 0) :
    Shows d A ((s.assign b k m).unlock.goto p (.acquire k m b)) := by
  have hcount := hI.count b
  have hpins : s.pins b = 0 := by omega
  have hlock : s.lock b = none := by
    by_contra hne
    obtain ⟨q, hq⟩ := Option.ne_none_iff_exists'.1 hne
    exact hI.referenced (.inl (.inl hq)) hb
  have hk : k = d := h.calls p k (by rw [hp]; rfl)
  have hread : (s.pc p).reading = false := by
    rw [hp]
    rfl
  have hvalid : ∀ c, (s.assign b k m).valid c = true → c ≠ b ∧ s.valid c = true := by
    intro c hc
    by_cases hcb : c = b
    · have hnew : (s.assign b k m).valid b = false := Function.update_self ..
      rw [hcb, hnew] at hc
      cases hc
    · have hsame : (s.assign b k m).valid c = s.valid c := Function.update_of_ne hcb ..
      exact ⟨hcb, hsame ▸ hc⟩
  refine ⟨fun c hc => ?_, ?_, fun c hc => ?_, fun j hj => ?_, fun c hc => ?_, fun c q hq => ?_⟩
  · obtain ⟨hcb, hcv⟩ := hvalid c hc
    exact (Function.update_of_ne hcb ..).trans (h.dev c hcv)
  · exact h.calls_goto fun j hj => (Option.some.inj hj).symm.trans hk
  · obtain ⟨hcb, hcv⟩ := hvalid c hc
    have hno : (s.assign b k m).blockno c = s.blockno c := Function.update_of_ne hcb ..
    exact (h.cached c hcv).trans (congrArg A hno.symm)
  · by_cases hold : s.valid b = true ∧ s.blockno b = j
    · obtain ⟨hv, rfl⟩ := hold
      have hclean : s.data b = s.disk (s.blockno b) := by
        rcases h.clean b hv with hpin | hlk | heq
        · omega
        · exact absurd hlock hlk
        · exact heq
      exact hclean.symm.trans (h.cached b hv)
    · refine h.home j fun c hc he => ?_
      by_cases hcb : c = b
      · exact hold ⟨hcb ▸ hc, hcb ▸ he⟩
      · refine hj c ?_ ?_
        · exact (Function.update_of_ne hcb ..).trans hc
        · exact (Function.update_of_ne hcb ..).trans he
  · obtain ⟨hcb, hcv⟩ := hvalid c hc
    have hno : (s.assign b k m).blockno c = s.blockno c := Function.update_of_ne hcb ..
    rcases h.clean c hcv with hpin | hlk | heq
    · exact .inl hpin
    · exact .inr (.inl hlk)
    · exact .inr (.inr (heq.trans (congrArg s.disk hno.symm)))
  · have hcb : c ≠ b := by
      intro he
      have hq' : s.lock c = some q := hq
      rw [he, hlock] at hq'
      cases hq'
    rcases h.held_goto hread c q hq with hv | hr
    · exact .inl ((Function.update_of_ne hcb ..).trans hv)
    · exact .inr hr

/-- `bread` reads a buffer that is not valid from the disk. -/
theorem Shows.fill (h : Shows d A s) (hI : Inv s l) (hd : 1 ≤ d) {k m : Nat}
    (hp : s.pc p = .read k m b) (hb : s.valid b = false) :
    Shows d A ((s.fill b).goto p .user) := by
  obtain ⟨hcaches, hlock⟩ : s.At l p (.read k m b) := hp ▸ hI.at' p
  have hdev : s.dev b = d := hcaches.1.trans (h.calls p k (by rw [hp]; rfl))
  have hvalid : ∀ c, c ≠ b → (s.fill b).valid c = true → s.valid c = true := by
    intro c hcb hc
    have hsame : (s.fill b).valid c = s.valid c := Function.update_of_ne hcb ..
    exact hsame ▸ hc
  have hdisk : s.disk (s.blockno b) = A (s.blockno b) := by
    refine h.home _ fun c hc => h.blockno_ne hI hd hdev hc ?_
    intro he
    rw [he, hb] at hc
    cases hc
  have hself : (s.fill b).data b = s.disk (s.blockno b) := Function.update_self ..
  refine ⟨fun c hc => ?_, ?_, fun c hc => ?_, fun j hj => ?_, fun c hc => ?_, fun c q hq => ?_⟩
  · by_cases hcb : c = b
    · rw [hcb]
      exact hdev
    · exact h.dev c (hvalid c hcb hc)
  · exact h.calls_goto fun j hj => (by cases hj)
  · by_cases hcb : c = b
    · rw [hcb]
      exact hself.trans hdisk
    · have hdata : (s.fill b).data c = s.data c := Function.update_of_ne hcb ..
      exact hdata.trans (h.cached c (hvalid c hcb hc))
  · refine h.home j fun c hc => hj c ?_
    by_cases hcb : c = b
    · rw [hcb]
      exact Function.update_self ..
    · exact (Function.update_of_ne hcb ..).trans hc
  · by_cases hcb : c = b
    · rw [hcb]
      exact .inr (.inr hself)
    · have hdata : (s.fill b).data c = s.data c := Function.update_of_ne hcb ..
      rcases h.clean c (hvalid c hcb hc) with hpin | hlk | heq
      · exact .inl hpin
      · exact .inr (.inl hlk)
      · exact .inr (.inr (hdata.trans heq))
  · by_cases hcb : c = b
    · rw [hcb]
      exact .inl (Function.update_self ..)
    · rcases h.held c q hq with hv | ⟨j, m', hr⟩
      · exact .inl ((Function.update_of_ne hcb ..).trans hv)
      · have hqp : q ≠ p := by
          intro he
          rw [he, hp] at hr
          exact hcb (PC.read.inj hr).2.2.symm
        exact .inr ⟨j, m', (Function.update_of_ne hqp ..).trans hr⟩

omit [DecidableEq P] [Fintype P] in
/-- A buffer that a process holds after `bread` is valid. -/
theorem Shows.valid_held (h : Shows d A s) (hp : s.pc p = .user) (hb : s.lock b = some p) :
    s.valid b = true := by
  rcases h.held b p hb with hv | ⟨k, m, hr⟩
  · exact hv
  · rw [hp] at hr
    cases hr

/-- The holder of a buffer writes to its block. -/
theorem Shows.modify (h : Shows d A s) (hI : Inv s l) (hd : 1 ≤ d) (hp : s.pc p = .user)
    (hb : s.lock b = some p) (x : B) :
    Shows d (Function.update A (s.blockno b) x) { s with data := Function.update s.data b x } := by
  have hv := h.valid_held hp hb
  refine ⟨h.dev, h.calls, fun c hc => ?_, fun j hj => ?_, fun c hc => ?_, h.held⟩
  · by_cases hcb : c = b
    · rw [hcb]
      exact (Function.update_self b x s.data).trans (Function.update_self (s.blockno b) x A).symm
    · have hno := h.blockno_ne hI hd (h.dev b hv) hc hcb
      have hA : Function.update A (s.blockno b) x (s.blockno c) = A (s.blockno c) :=
        Function.update_of_ne hno ..
      exact (Function.update_of_ne hcb ..).trans ((h.cached c hc).trans hA.symm)
  · have hne : j ≠ s.blockno b := fun he => hj b hv he.symm
    exact (h.home j hj).trans (Function.update_of_ne hne ..).symm
  · by_cases hcb : c = b
    · refine .inr (.inl ?_)
      rw [hcb]
      exact fun hnone => Option.some_ne_none p (hb.symm.trans hnone)
    · have hdata : Function.update s.data b x c = s.data c := Function.update_of_ne hcb ..
      rcases h.clean c hc with hpin | hlk | heq
      · exact .inl hpin
      · exact .inr (.inl hlk)
      · exact .inr (.inr (hdata.trans heq))

/-- `bwrite` -/
theorem Shows.bwrite (h : Shows d A s) (hI : Inv s l) (hd : 1 ≤ d) (hp : s.pc p = .user)
    (hb : s.lock b = some p) :
    Shows d A { s with disk := Function.update s.disk (s.blockno b) (s.data b) } := by
  have hv := h.valid_held hp hb
  refine ⟨h.dev, h.calls, h.cached, fun j hj => ?_, fun c hc => ?_, h.held⟩
  · have hne : j ≠ s.blockno b := fun he => hj b hv he.symm
    exact (Function.update_of_ne hne ..).trans (h.home j hj)
  · by_cases hcb : c = b
    · refine .inr (.inr ?_)
      rw [hcb]
      exact (Function.update_self (s.blockno b) (s.data b) s.disk).symm
    · have hno := h.blockno_ne hI hd (h.dev b hv) hc hcb
      have hdisk : Function.update s.disk (s.blockno b) (s.data b) (s.blockno c) =
          s.disk (s.blockno c) := Function.update_of_ne hno ..
      rcases h.clean c hc with hpin | hlk | heq
      · exact .inl hpin
      · exact .inr (.inl hlk)
      · exact .inr (.inr (heq.trans hdisk.symm))

/-! ## Every step -/

theorem Shows.go (h : Shows d A s) (hI : Inv s l) (hd : 1 ≤ d) (hs : s.go p = some s') :
    Shows d A s' := by
  unfold State.go at hs
  split at hs
  next => cases hs
  next k m hp =>
    obtain rfl := Option.some.inj hs
    have hk := h.calls p k (by rw [hp]; rfl)
    exact h.move (p := p) (k := .recycle k m (s.links.prev none)) (by rw [hp]; rfl)
      (fun j hj => (Option.some.inj hj).symm.trans hk) rfl rfl rfl rfl rfl rfl rfl rfl
  next k m b hp =>
    have hk := h.calls p k (by rw [hp]; rfl)
    split at hs
    next hb =>
      obtain rfl := Option.some.inj hs
      exact h.move (p := p) (k := .acquire k m b) (by rw [hp]; rfl)
        (fun j hj => (Option.some.inj hj).symm.trans hk) rfl rfl rfl rfl rfl rfl rfl rfl
    next hb =>
      obtain rfl := Option.some.inj hs
      exact h.move (p := p) (k := .lookup k m (s.links.next (some b))) (by rw [hp]; rfl)
        (fun j hj => (Option.some.inj hj).symm.trans hk) rfl rfl rfl rfl rfl rfl rfl rfl
  next => cases hs
  next k m b hp =>
    have hk := h.calls p k (by rw [hp]; rfl)
    split at hs
    next hb =>
      obtain rfl := Option.some.inj hs
      exact h.recycle hI hp hb
    next hb =>
      obtain rfl := Option.some.inj hs
      exact h.move (p := p) (k := .recycle k m (s.links.prev (some b))) (by rw [hp]; rfl)
        (fun j hj => (Option.some.inj hj).symm.trans hk) rfl rfl rfl rfl rfl rfl rfl rfl
  next k m b hp =>
    have hk := h.calls p k (by rw [hp]; rfl)
    split at hs
    next hb =>
      obtain rfl := Option.some.inj hs
      refine h.keep rfl rfl rfl rfl rfl ?_ ?_ ?_
      · exact h.calls_goto fun j hj => (Option.some.inj hj).symm.trans hk
      · intro c hc
        rcases hc with hpin | hlk
        · exact .inl hpin
        · have hcb : c ≠ b := fun he => hlk (he ▸ hb)
          exact .inr (.inl fun hnone => hlk ((Function.update_of_ne hcb ..).symm.trans hnone))
      · intro c q hq
        by_cases hcb : c = b
        · rw [hcb] at hq ⊢
          have hown : ((s.acquiresleep p b).goto p (.read k m b)).lock b = some p :=
            Function.update_self ..
          rw [← Option.some.inj (hown.symm.trans hq)]
          exact .inr ⟨k, m, goto_self⟩
        · have hq' : s.lock c = some q := (Function.update_of_ne hcb ..).symm.trans hq
          exact h.held_goto (by rw [hp]; rfl) c q hq'
    next => cases hs
  next k m b hp =>
    obtain rfl := Option.some.inj hs
    split
    next hv =>
      refine h.keep rfl rfl rfl rfl rfl ?_ (fun c hc => hc.imp id .inl) ?_
      · exact h.calls_goto fun j hj => (by cases hj)
      · intro c q hq
        rcases h.held c q hq with hcv | ⟨j, m', hr⟩
        · exact .inl hcv
        · by_cases hqp : q = p
          · rw [hqp, hp] at hr
            obtain ⟨-, -, rfl⟩ := PC.read.inj hr
            exact .inl hv
          · exact .inr ⟨j, m', (Function.update_of_ne hqp ..).trans hr⟩
    next hv => exact h.fill hI hd hp (by simpa using hv)
  next b hp =>
    split at hs
    next hl =>
      obtain rfl := Option.some.inj hs
      have hread : (s.pc p).reading = false := by
        rw [hp]
        rfl
      unfold State.drop
      dsimp only
      split
      · exact h.move (p := p) (k := .user) hread (fun j hj => by cases hj)
          rfl rfl rfl rfl rfl rfl rfl rfl
      · exact h.move (p := p) (k := .user) hread (fun j hj => by cases hj)
          rfl rfl rfl rfl rfl rfl rfl rfl
    next => cases hs

theorem Shows.call {e : Event P n B} (h : Shows d A s) (hI : Inv s l) (hd : 1 ≤ d)
    (hp : s.pc p = .user) (he : e.process = p) (ht : Tidy d s e) (hs : s.call p e = some s') :
    Shows d (after s A e) s' := by
  have hread : (s.pc p).reading = false := by
    rw [hp]
    rfl
  cases e with
  | go => cases hs
  | bread _ k m =>
    simp only [State.call] at hs
    split at hs
    next hl =>
      obtain rfl := Option.some.inj hs
      exact h.move (p := p) (k := .lookup k m (s.links.next none)) hread
        (fun j hj => (Option.some.inj hj).symm.trans ht) rfl rfl rfl rfl rfl rfl rfl rfl
    next => cases hs
  | modify _ b x =>
    simp only [State.call] at hs
    split at hs
    next hb =>
      obtain rfl := Option.some.inj hs
      exact h.modify hI hd hp hb x
    next => cases hs
  | bwrite _ b =>
    simp only [State.call] at hs
    split at hs
    next hb =>
      obtain rfl := Option.some.inj hs
      exact h.bwrite hI hd hp hb
    next => cases hs
  | brelse _ b =>
    simp only [State.call] at hs
    split at hs
    next hb =>
      obtain rfl := Option.some.inj hs
      refine h.keep rfl rfl rfl rfl rfl ?_ ?_ ?_
      · exact h.calls_goto fun j hj => (by cases hj)
      · intro c hc
        by_cases hcb : c = b
        · rw [hcb]
          rcases ht with heq | hpin
          · exact .inr (.inr heq)
          · exact .inl hpin
        · refine hc.imp id fun hlk => .inl fun hnone => hlk ?_
          exact (Function.update_of_ne hcb ..).symm.trans hnone
      · intro c q hq
        by_cases hcb : c = b
        · rw [hcb] at hq
          cases (Function.update_self ..).symm.trans hq
        · exact h.held_goto hread c q ((Function.update_of_ne hcb ..).symm.trans hq)
    next => cases hs
  | bpin _ b =>
    simp only [State.call] at hs
    split at hs
    next hl =>
      obtain rfl := Option.some.inj hs
      refine h.keep rfl rfl rfl rfl rfl h.calls (fun c hc => ?_) h.held
      refine hc.imp (fun hpin => ?_) .inl
      by_cases hcb : c = b
      · rw [hcb]
        have hnew : Function.update s.pins b (s.pins b + 1) b = s.pins b + 1 :=
          Function.update_self ..
        exact Nat.lt_of_lt_of_eq (Nat.succ_pos (s.pins b)) hnew.symm
      · exact Nat.lt_of_lt_of_eq hpin (Function.update_of_ne hcb ..).symm
    next => cases hs
  | bunpin _ b =>
    simp only [State.call] at hs
    split at hs
    next hl =>
      obtain rfl := Option.some.inj hs
      refine h.keep rfl rfl rfl rfl rfl h.calls (fun c hc => ?_) h.held
      by_cases hcb : c = b
      · rw [hcb]
        exact .inr (.inl fun hnone => Option.some_ne_none p (hl.2.1.symm.trans hnone))
      · exact hc.imp (fun hpin => Nat.lt_of_lt_of_eq hpin (Function.update_of_ne hcb ..).symm) .inl
    next => cases hs

theorem Shows.next {e : Event P n B} (h : Shows d A s) (hI : Inv s l) (hd : 1 ≤ d)
    (ht : Tidy d s e) (hs : (machine P n B).next s e = some s') : Shows d (after s A e) s' := by
  have hcall : ∀ e : Event P n B, Tidy d s e →
      (if s.pc e.process = .user then s.call e.process e else none) = some s' →
      Shows d (after s A e) s' := by
    intro e ht he
    split at he
    next hp => exact h.call hI hd hp rfl ht he
    next => cases he
  cases e with
  | go p => exact h.go hI hd hs
  | _ => exact hcall _ ht hs

/-- A whole run. -/
theorem Shows.exec {es : List (Event P n B)} (h : Shows d A s) (hI : Inv s l) (hd : 1 ≤ d)
    (ht : (machine P n B).Meets (Tidy d) s es) (hs : (machine P n B).exec s es = some s') :
    Shows d (contents s A es) s' := by
  induction es generalizing s l A with
  | nil =>
    obtain rfl := Option.some.inj hs
    exact h
  | cons e es ih =>
    rw [Machine.exec_cons, Option.bind_eq_some_iff] at hs
    obtain ⟨s₁, hnext, hs⟩ := hs
    obtain ⟨hte, htes⟩ := (Machine.meets_cons hnext).1 ht
    obtain ⟨l₁, hI₁⟩ := hI.next hnext
    rw [contents, hnext]
    exact ih (h.next hI hd hte hnext) hI₁ htes hs

omit [Fintype P] in
theorem Shows.initial (h : (machine P n B).init s) (d : Nat) : Shows d s.disk s := by
  obtain ⟨-, hbuf, -, hpc⟩ := h
  have hinvalid : ∀ b, s.valid b ≠ true := by
    intro b hb
    rw [(hbuf b).1] at hb
    cases hb
  refine ⟨fun b hb => absurd hb (hinvalid b), fun p k hk => ?_, fun b hb => absurd hb (hinvalid b),
    fun k _ => rfl, fun b hb => absurd hb (hinvalid b), fun b p hb => ?_⟩
  · rw [hpc p] at hk
    cases hk
  · rw [(hbuf b).2.2.2.2.1] at hb
    cases hb

/-- In a run whose users write or pin what they have changed before `brelse`, a
buffer that `bread` has returned holds what was last written to its block, a
block that is in no buffer has it on the disk, and so has the block of every
buffer that is not in use. -/
theorem bcache_transparent {s₀ : State P n B} {es : List (Event P n B)} (hd : 1 ≤ d)
    (hi : (machine P n B).init s₀) (ht : (machine P n B).Meets (Tidy d) s₀ es)
    (hs : (machine P n B).exec s₀ es = some s) :
    (∀ b p, s.lock b = some p → s.pc p = .user → s.valid b = true ∧ s.dev b = d ∧
      s.data b = contents s₀ s₀.disk es (s.blockno b)) ∧
    (∀ k, (∀ b, s.valid b = true → s.blockno b ≠ k) → s.disk k = contents s₀ s₀.disk es k) ∧
    ∀ b, s.valid b = true → s.refcnt b = 0 →
      s.disk (s.blockno b) = contents s₀ s₀.disk es (s.blockno b) := by
  obtain ⟨l, hI⟩ := Inv.initial hi
  have h := (Shows.initial hi d).exec hI hd ht hs
  obtain ⟨l', hI'⟩ := Inv.reachable ⟨s₀, es, hi, hs⟩
  refine ⟨fun b p hb hp => ?_, h.home, fun b hv hr => ?_⟩
  · have hv := h.valid_held hp hb
    exact ⟨hv, h.dev b hv, h.cached b hv⟩
  · have hcount := hI'.count b
    rw [← h.cached b hv]
    rcases h.clean b hv with hpin | hlk | heq
    · omega
    · obtain ⟨q, hq⟩ := Option.ne_none_iff_exists'.1 hlk
      exact absurd hr (hI'.referenced (.inl (.inl hq)))
    · exact heq.symm

/-- Block 5 is changed and written, its buffer taken for block 7, and block 5
read again. -/
def rereads : List (Event Unit 2 Nat) :=
  List.flatten [.bread () 1 5 :: List.replicate 6 (.go ()),
    [.modify () buf0 42, .bwrite () buf0, .brelse () buf0, .go ()],
    .bread () 1 6 :: List.replicate 6 (.go ()), [.brelse () buf1, .go ()],
    .bread () 1 7 :: List.replicate 6 (.go ()), [.brelse () buf0, .go ()],
    .bread () 1 5 :: List.replicate 6 (.go ())]

theorem bcache_transparent_rereads : ∃ s, (machine Unit 2 Nat).exec booted rereads = some s ∧
    (s.lock buf1, s.pc (), s.blockno buf1, s.data buf1) = (some (), .user, 5, 42) ∧
    (∀ b p, s.lock b = some p → s.pc p = .user → s.valid b = true ∧ s.dev b = 1 ∧
      s.data b = contents booted booted.disk rereads (s.blockno b)) ∧
    (∀ k, (∀ b, s.valid b = true → s.blockno b ≠ k) →
      s.disk k = contents booted booted.disk rereads k) ∧
    ∀ b, s.valid b = true → s.refcnt b = 0 →
      s.disk (s.blockno b) = contents booted booted.disk rereads (s.blockno b) := by
  have hrun : ((machine Unit 2 Nat).exec booted rereads).map
      (fun s => (s.lock buf1, s.pc (), s.blockno buf1, s.data buf1)) =
        some (some (), .user, 5, 42) := by
    decide +kernel
  obtain ⟨s, hs, hr⟩ := Option.map_eq_some_iff.1 hrun
  exact ⟨s, hs, hr, bcache_transparent (d := 1) (Nat.le_refl 1)
    ⟨⟨_, rfl⟩, fun _ => ⟨rfl, rfl, rfl, rfl, rfl, rfl, rfl⟩, rfl, fun _ => rfl⟩
    (by decide +kernel) hs⟩

end Xv6.BufferCache
