/-
pipe.c: what `piperead` takes out of a pipe and what it delivers.

The loop takes a byte out before `copyout` tries to store it, so a byte that
cannot be stored is gone.
-/
import Xv6.PipeSleep

namespace Xv6.PipeBuffer

open Conc

variable {P : Type}

/-- The bytes that are in the pipe. -/
def Pipe.content (s : Pipe P) : List UInt8 := (s.put.map Prod.snd).drop s.taken.length

/-- What a call that takes out `bytes` has stored: those up to the first
place that is not writable. -/
def stored (dst : List Bool) (bytes : List UInt8) : List UInt8 :=
  ((bytes.zip dst).takeWhile Prod.snd).map Prod.fst

/-- From `s₀`, where it began to copy, to `s` a `piperead` that returns `r`
has delivered the first `r` bytes of the pipe, and taken out only these. -/
def ReadsExactly (s₀ s : Pipe P) (dst : List Bool) (r : Nat) : Prop :=
  ∃ bytes, s.taken = s₀.taken ++ bytes ∧ stored dst bytes = s₀.content.take r ∧
    bytes = s₀.content.take r

/-- The bytes that a `piperead` copies can all be stored. -/
def Writable (s₀ : Pipe P) (dst : List Bool) : Prop :=
  ∀ i, i < min dst.length s₀.content.length → dst[i]? = some true

theorem length_content {s : Pipe P} : s.content.length = s.put.length - s.taken.length := by
  simp [Pipe.content]

/-- What is stored of `k` bytes, when the first `i` places are writable and
the next one, if it was tried, is not. -/
theorem stored_eq {dst : List Bool} {bytes : List UInt8} {i : Nat} (hi : i ≤ bytes.length)
    (hw : ∀ j, j < i → dst[j]? = some true)
    (hend : bytes.length = i ∨ dst[i]? = some false) : stored dst bytes = bytes.take i := by
  unfold stored
  induction i generalizing dst bytes with
  | zero =>
    rcases hend with h0 | hno
    · rw [List.length_eq_zero_iff.1 h0]
      rfl
    · cases dst with
      | nil => cases hno
      | cons b dst =>
        obtain rfl : b = false := by simpa using hno
        cases bytes <;> rfl
  | succ i ih =>
    cases bytes with
    | nil => exact absurd hi (by simp)
    | cons a bytes =>
      cases dst with
      | nil => exact absurd (hw 0 (by omega)) (by simp)
      | cons b dst =>
        obtain rfl : b = true := by simpa using hw 0 (by omega)
        have hrest := @ih dst bytes (by simpa using hi)
          (fun j hj => by simpa using hw (j + 1) (by omega)) (by simpa using hend)
        simp only [List.zip_cons_cons, List.takeWhile_cons_of_pos, List.map_cons, hrest,
          List.take_succ_cons]

variable [DecidableEq P]

/-! ## Only the holder of the lock moves -/

/-- Who is inside holds the lock. -/
def Inside (s : Pipe P) : Prop := ∀ q, (s.pc q).holds → s.lock = some q

namespace Inside

variable {s s' : Pipe P} {p : P}

theorem goto {s₀ : Pipe P} {pc : PC} (h : Inside s) (hp : (s.pc p).holds) (hl : s₀.lock = s.lock)
    (hpc : ∀ q, (s₀.pc q).holds = (s.pc q).holds) : Inside (s₀.goto p pc) := by
  intro q hq
  show s₀.lock = some q
  rw [hl]
  by_cases hqp : q = p
  · rw [hqp]
    exact h p hp
  · rw [Pipe.goto_of_ne hqp, hpc q] at hq
    exact h q hq

theorem release {pc : PC} (h : Inside s) (hp : (s.pc p).holds) (hh : ¬ pc.holds) :
    Inside (s.release p pc) := by
  intro q hq
  exfalso
  by_cases hqp : q = p
  · subst hqp
    rw [Pipe.release_self] at hq
    exact hh hq
  · have hq' : (s.pc q).holds := by simpa [Pipe.release, Pipe.goto, hqp] using hq
    exact hqp (Option.some.inj ((h q hq').symm.trans (h p hp)))

theorem acquire {pc : PC} (h : Inside s) (ha : s.acquire p pc = some s') : Inside s' := by
  obtain ⟨hl, rfl⟩ := Pipe.acquire_eq ha
  intro q hq
  by_cases hqp : q = p
  · rw [hqp]
    rfl
  · rw [Pipe.goto_of_ne hqp] at hq
    exact absurd (hl.symm.trans (h q hq)) nofun

/-- A process outside stays there. -/
theorem outside {pc : PC} (h : Inside s) (hh : ¬ pc.holds) : Inside (s.goto p pc) := by
  intro q hq
  by_cases hqp : q = p
  · subst hqp
    rw [Pipe.goto_self] at hq
    exact absurd hq hh
  · rw [Pipe.goto_of_ne hqp] at hq
    exact h q hq

theorem go (h : Inside s) (hg : s.go p = some s') : Inside s' := by
  unfold Pipe.go at hg
  split at hg
  all_goals next hpc =>
    repeat' split at hg
    all_goals first
      | exact h.acquire hg
      | (obtain rfl := Option.some.inj hg
         first
          | exact h.release (by rw [hpc]; rfl) (by simp [PC.holds])
          | exact h.goto (by rw [hpc]; rfl) rfl (fun _ => by simp [Pipe.wakeup, Pipe.putByte, Pipe.takeByte])
          | exact h.outside (by simp [PC.holds]))
      | cases hg

theorem next {e : Event P} (h : Inside s) (hn : (machine P).next s e = some s') : Inside s' := by
  have hcall : ∀ {p pc}, ¬ pc.holds → s.call p pc = some s' → Inside s' := by
    intro p pc hh hc
    unfold Pipe.call at hc
    split at hc
    · obtain rfl := Option.some.inj hc
      exact @outside _ _ { s with calls := _ } p pc h hh
    · cases hc
  cases e with
  | write p src => exact hcall (by simp [PC.holds]) hn
  | read p dst => exact hcall (by simp [PC.holds]) hn
  | close p writable => exact hcall (by simp [PC.holds]) hn
  | go p => exact h.go hn
  | kill p =>
    obtain rfl := Option.some.inj hn
    intro q hq
    refine h q ?_
    by_cases hqp : q = p
    · subst hqp
      simpa [Pipe.kill] using hq
    · simpa [Pipe.kill, Pipe.goto_of_ne hqp] using hq

theorem init (hi : (machine P).init s) : Inside s := by
  intro q hq
  rw [hi.2.2.2.2.2.1 q] at hq
  cases hq

end Inside

/-- A step of a process outside, while another is inside, is a return. -/
theorem Inside.go_outside {s s' : Pipe P} {p q : P} (h : Inside s) (hl : s.lock = some p)
    (hqp : q ≠ p) (hg : s.go q = some s') : s' = s.goto q .idle := by
  have hnot : ¬ (s.pc q).holds := by
    intro hq
    exact hqp (Option.some.inj ((h q hq).symm.trans hl))
  have hacq : ∀ pc, s.acquire q pc = none := by
    intro pc
    unfold Pipe.acquire
    rw [hl, if_neg nofun]
  unfold Pipe.go at hg
  split at hg
  all_goals next hpc =>
    first
      | (rw [hpc] at hnot; exact absurd rfl hnot)
      | (rw [hacq] at hg; cases hg)
      | exact (Option.some.inj hg).symm
      | cases hg

/-! ## The loop of piperead -/

/-- Process `p`, which began to copy in `s₀`, is at the head of its loop, or
past it: it has delivered `i` bytes, and there it stopped. -/
inductive CopyPos (s₀ s : Pipe P) (p : P) (dst : List Bool) : Prop where
  | loop (i : Nat) (pc : s.pc p = .rCopy dst i) (taken : s.taken.length = s₀.taken.length + i)
      (writable : ∀ j, j < i → dst[j]? = some true)
  | full (i : Nat) (pc : s.pc p = .rDone i ∨ s.pc p = .rRelease i)
      (taken : s.taken.length = s₀.taken.length + i)
      (writable : ∀ j, j < i → dst[j]? = some true)
      (stop : i = dst.length ∨ s.taken.length = s₀.put.length)
  | lost (i : Nat) (pc : s.pc p = .rDone i ∨ s.pc p = .rRelease i)
      (taken : s.taken.length = s₀.taken.length + i + 1)
      (writable : ∀ j, j < i → dst[j]? = some true) (stop : dst[i]? = some false)

namespace CopyPos

variable {s₀ s s' : Pipe P} {p : P} {dst : List Bool}

omit [DecidableEq P] in
theorem congr (h : CopyPos s₀ s p dst) (hpc : s'.pc p = s.pc p)
    (ht : s'.taken = s.taken) : CopyPos s₀ s' p dst := by
  rcases h with ⟨i, h₁, h₂, h₃⟩ | ⟨i, h₁, h₂, h₃, h₄⟩ | ⟨i, h₁, h₂, h₃, h₄⟩
  · exact .loop i (hpc ▸ h₁) (ht ▸ h₂) h₃
  · exact .full i (hpc ▸ h₁) (ht ▸ h₂) h₃ (ht ▸ h₄)
  · exact .lost i (hpc ▸ h₁) (ht ▸ h₂) h₃ h₄

omit [DecidableEq P] in
theorem wake (h : CopyPos s₀ s p dst) (chan : Chan) : (s.pc p).wake chan = s.pc p := by
  rcases h with ⟨i, h₁, -, -⟩ | ⟨i, h₁ | h₁, -, -, -⟩ | ⟨i, h₁ | h₁, -, -, -⟩ <;>
  · rw [h₁]
    cases chan <;> rfl

omit [DecidableEq P] in
theorem not_idle (h : CopyPos s₀ s p dst) : s.pc p ≠ .idle := by
  rcases h with ⟨i, h₁, -, -⟩ | ⟨i, h₁ | h₁, -, -, -⟩ | ⟨i, h₁ | h₁, -, -, -⟩ <;>
  · rw [h₁]
    nofun

end CopyPos

/-- Process `p` is still in the `piperead` that began to copy in `s₀`, or has
returned from it. -/
inductive Copying (s₀ s : Pipe P) (p : P) (dst : List Bool) : Prop where
  | inside (calls : s.calls p = s₀.calls p) (lock : s.lock = some p) (put : s.put = s₀.put)
      (pos : CopyPos s₀ s p dst)
  | returned (calls : s₀.calls p ≤ s.calls p) (pc : (∃ r, s.pc p = .rRet r) ∨ s.pc p = .idle)
  | gone (calls : s₀.calls p < s.calls p)

namespace Copying

variable {s₀ s s' : Pipe P} {p : P} {dst : List Bool}

/-- A step of the loop. -/
theorem go (hf : Fifo s) (hc : s.calls p = s₀.calls p) (hl : s.lock = some p) (hput : s.put = s₀.put)
    (hpos : CopyPos s₀ s p dst) (hg : s.go p = some s') : Copying s₀ s' p dst := by
  unfold Pipe.go at hg
  rcases hpos with ⟨i, hpc, ht, hw⟩ | ⟨i, hpc | hpc, ht, hw, hs⟩ | ⟨i, hpc | hpc, ht, hw, hs⟩
  · rw [hpc] at hg
    dsimp only at hg
    split at hg
    next hi =>
      split at hg
      next he =>
        obtain rfl := Option.some.inj hg
        refine .inside hc hl hput (.full i (.inl (Pipe.goto_self ..)) ht hw (.inr ?_))
        rw [← hput]
        exact hf.empty_iff.1 he
      next hne =>
        have htaken : s.takeByte.taken.length = s₀.taken.length + i + 1 := by
          show (s.taken ++ _).length = _
          rw [List.length_append, ht]
          rfl
        split at hg
        next hd =>
          obtain rfl := Option.some.inj hg
          refine .inside hc hl hput (.loop (i + 1) (Pipe.goto_self ..) htaken fun j hj => ?_)
          rcases Nat.lt_succ_iff_lt_or_eq.1 hj with hj | rfl
          · exact hw j hj
          · rw [List.getD_eq_getElem?_getD, List.getElem?_eq_getElem hi, Option.getD_some] at hd
            rw [List.getElem?_eq_getElem hi, hd]
        next hd =>
          obtain rfl := Option.some.inj hg
          refine .inside hc hl hput (.lost i (.inl (Pipe.goto_self ..)) htaken hw ?_)
          rw [List.getD_eq_getElem?_getD, List.getElem?_eq_getElem hi, Option.getD_some,
            Bool.not_eq_true] at hd
          rw [List.getElem?_eq_getElem hi, hd]
    next hi =>
      obtain rfl := Option.some.inj hg
      refine .inside hc hl hput (.full i (.inl (Pipe.goto_self ..)) ht hw (.inl ?_))
      by_contra hne
      have hlast := hw (i - 1) (by omega)
      rw [List.getElem?_eq_none (by omega)] at hlast
      cases hlast
  · rw [hpc] at hg
    obtain rfl := Option.some.inj hg
    exact .inside hc hl hput (.full i (.inr (Pipe.goto_self ..)) ht hw hs)
  · rw [hpc] at hg
    obtain rfl := Option.some.inj hg
    exact .returned (Nat.le_of_eq hc.symm) (.inl ⟨_, Pipe.release_self ..⟩)
  · rw [hpc] at hg
    obtain rfl := Option.some.inj hg
    exact .inside hc hl hput (.lost i (.inr (Pipe.goto_self ..)) ht hw hs)
  · rw [hpc] at hg
    obtain rfl := Option.some.inj hg
    exact .returned (Nat.le_of_eq hc.symm) (.inl ⟨_, Pipe.release_self ..⟩)

/-- What another process's step does to this one: it may wake it. -/
theorem go_other {q : P} (hqp : q ≠ p) (hg : s.go q = some s') :
    s'.pc p = s.pc p ∨ ∃ chan, s'.pc p = (s.pc p).wake chan := by
  have hpq : p ≠ q := Ne.symm hqp
  unfold Pipe.go at hg
  split at hg
  all_goals
    repeat' split at hg
    all_goals first
      | (obtain ⟨-, rfl⟩ := Pipe.acquire_eq hg
         exact .inl (Pipe.goto_of_ne hpq))
      | (obtain rfl := Option.some.inj hg
         first
          | exact .inl (Pipe.goto_of_ne hpq)
          | exact .inr ⟨_, Pipe.goto_of_ne hpq⟩)
      | cases hg

/-- A new call of a process, or of another one. -/
theorem call {q : P} {pc : PC} (h : Copying s₀ s p dst) (hc : s.call q pc = some s') :
    Copying s₀ s' p dst := by
  unfold Pipe.call at hc
  split at hc
  case isFalse => cases hc
  next hidle =>
    obtain rfl := Option.some.inj hc
    by_cases hqp : q = p
    · subst hqp
      rcases h with ⟨-, -, -, hpos⟩ | ⟨hle, -⟩ | hlt
      · exact absurd hidle hpos.not_idle
      · refine .gone ?_
        simp only [Pipe.goto, Function.update_self]
        omega
      · refine .gone ?_
        simp only [Pipe.goto, Function.update_self]
        omega
    · have hpq : p ≠ q := Ne.symm hqp
      have hpc : ∀ s₁ : Pipe P, (s₁.goto q pc).pc p = s₁.pc p := fun s₁ => Pipe.goto_of_ne hpq
      have hcalls : Function.update s.calls q (s.calls q + 1) p = s.calls p :=
        Function.update_of_ne hpq ..
      rcases h with ⟨hc, hl, hput, hpos⟩ | ⟨hle, hret⟩ | hlt
      · exact .inside (hcalls.trans hc) hl hput (hpos.congr (hpc _) rfl)
      · refine .returned (Nat.le_trans hle (Nat.le_of_eq hcalls.symm)) ?_
        rw [hpc]
        exact hret
      · exact .gone (Nat.lt_of_lt_of_eq hlt hcalls.symm)

theorem kill (h : Copying s₀ s p dst) (q : P) : Copying s₀ (s.kill q) p dst := by
  have hpc : (∀ chan, (s.pc p).wake chan = s.pc p) → (s.kill q).pc p = s.pc p := by
    intro hw
    unfold Pipe.kill
    by_cases hqp : q = p
    · subst hqp
      rw [Pipe.goto_self, hw, hw]
    · exact Pipe.goto_of_ne (Ne.symm hqp)
  rcases h with ⟨hc, hl, hput, hpos⟩ | ⟨hle, hret⟩ | hlt
  · exact .inside hc hl hput (hpos.congr (hpc hpos.wake) rfl)
  · refine .returned hle ?_
    rw [hpc fun chan => ?_]
    · exact hret
    · rcases hret with ⟨r, hr⟩ | hr <;>
      · rw [hr]
        cases chan <;> rfl
  · exact .gone hlt

theorem next {e : Event P} (hin : Inside s) (hf : Fifo s) (h : Copying s₀ s p dst)
    (hn : (machine P).next s e = some s') : Copying s₀ s' p dst := by
  cases e with
  | write q src => exact h.call hn
  | read q dst => exact h.call hn
  | close q writable => exact h.call hn
  | kill q =>
    obtain rfl := Option.some.inj hn
    exact h.kill q
  | go q =>
    have hg : s.go q = some s' := hn
    rcases h with ⟨hc, hl, hput, hpos⟩ | ⟨hle, hret⟩ | hlt
    · by_cases hqp : q = p
      · subst hqp
        exact Copying.go hf hc hl hput hpos hg
      · obtain rfl := hin.go_outside hl hqp hg
        exact .inside hc hl hput (hpos.congr (Pipe.goto_of_ne (Ne.symm hqp)) rfl)
    · have hcalls := (Pipe.go_calls hg).1
      refine .returned (hcalls.symm ▸ hle) ?_
      by_cases hqp : q = p
      · subst hqp
        unfold Pipe.go at hg
        rcases hret with ⟨r, hr⟩ | hr
        · rw [hr] at hg
          obtain rfl := Option.some.inj hg
          exact .inr (Pipe.goto_self ..)
        · rw [hr] at hg
          cases hg
      · rcases go_other hqp hg with hpc | ⟨chan, hpc⟩
        · rwa [hpc]
        · rw [hpc]
          rcases hret with ⟨r, hr⟩ | hr
          · rw [hr]
            exact .inl ⟨r, by cases chan <;> rfl⟩
          · rw [hr]
            exact .inr (by cases chan <;> rfl)
    · exact .gone ((Pipe.go_calls hg).1.symm ▸ hlt)

end Copying

/-- A `piperead`, whatever others do meanwhile, delivers the first bytes of the
pipe; it takes out exactly these if and only if none of the bytes that it
copies meets a place that is not writable. -/
theorem piperead_exact {s₀ s : Pipe P} {p : P} {dst : List Bool} {r : Nat} {es : List (Event P)}
    (h₀ : (machine P).Reachable s₀) (hpc : s₀.pc p = .rCopy dst 0)
    (hr : (machine P).exec s₀ es = some s) (hcall : s.calls p = s₀.calls p)
    (hret : s.pc p = .rRelease r) : ReadsExactly s₀ s dst r ↔ Writable s₀ dst := by
  have hin₀ : Inside s₀ := h₀.invariant (fun _ => Inside.init) fun _ _ _ hs hn => hs.next hn
  have hf₀ : Fifo s₀ := h₀.invariant (fun _ => Fifo.init) fun _ _ _ hs hn => fifo_next hs hn
  have hstart : Copying s₀ s₀ p dst :=
    .inside rfl (hin₀ p (by rw [hpc]; rfl)) rfl (.loop 0 hpc rfl nofun)
  obtain ⟨-, hf, hcopy⟩ : Inside s ∧ Fifo s ∧ Copying s₀ s p dst :=
    Machine.exec_invariant (I := fun s => Inside s ∧ Fifo s ∧ Copying s₀ s p dst)
      ⟨hin₀, hf₀, hstart⟩
      (fun _ e _ s₁ s₂ _ _ hn hs => ⟨hs.1.next hn, fifo_next hs.2.1 hn, hs.2.2.next hs.1 hs.2.1 hn⟩) hr
  rcases hcopy with ⟨-, hl, hput, hpos⟩ | ⟨-, ⟨i, hi⟩ | hi⟩ | hlt
  · have hlen := @length_content P s₀
    -- what was taken out, from the lengths
    have htaken : ∀ k, s.taken.length = s₀.taken.length + k →
        s.taken = s₀.taken ++ s₀.content.take k := by
      intro k hk
      rw [hf.taken, hput, hk, List.take_add, ← hf₀.taken]
      rfl
    have hle := hf.le
    rw [hput] at hle
    rcases hpos with ⟨i, hi, -, -⟩ | ⟨i, hi | hi, ht, hw, hs⟩ | ⟨i, hi | hi, ht, hw, hs⟩
    · rw [hret] at hi
      cases hi
    · rw [hret] at hi
      cases hi
    · rw [hret] at hi
      cases hi
      refine iff_of_true ⟨s₀.content.take r, htaken r ht, ?_, rfl⟩ fun j hj => hw j (by omega)
      have hbytes : (s₀.content.take r).length = r := by
        rw [List.length_take]
        omega
      rw [stored_eq (Nat.le_of_eq hbytes.symm) hw (.inl hbytes), List.take_take, Nat.min_self]
    · rw [hret] at hi
      cases hi
    · rw [hret] at hi
      cases hi
      have hlt : r < dst.length := (List.getElem?_eq_some_iff.1 hs).1
      refine iff_of_false ?_ fun hall => ?_
      · rintro ⟨bytes, hb, -, rfl⟩
        have hlenb := congrArg List.length hb
        rw [ht, List.length_append, List.length_take] at hlenb
        omega
      · have hr' := hall r (by omega)
        rw [hs] at hr'
        cases hr'
  · rw [hret] at hi
    cases hi
  · rw [hret] at hi
    cases hi
  · omega

/-- One byte is written; a reader asks for it and cannot store it. -/
def readOne : List (Event Unit) :=
  .write () [some 7] :: List.replicate 7 (.go ()) ++ .read () [false] :: List.replicate 2 (.go ())

theorem readOne_exec : ∃ s₀ s, (machine Unit).exec (Pipe.alloc Unit) readOne = some s₀ ∧
    s₀.pc () = .rCopy [false] 0 ∧ (machine Unit).exec s₀ [.go (), .go ()] = some s ∧
    s.calls () = s₀.calls () ∧ s.pc () = .rRelease 0 ∧ s₀.content = [7] ∧ s₀.taken = [] ∧
    s.taken = [7] :=
  ⟨_, _, rfl, rfl, rfl, rfl, rfl, rfl, rfl, rfl⟩

/-- Two bytes are written, and a reader stores them. -/
def readTwo : List (Event Unit) :=
  .write () [some 7, some 8] :: List.replicate 9 (.go ()) ++ .read () [true, true] ::
    List.replicate 2 (.go ())

theorem piperead_exact_readTwo : ∃ s₀ s, (machine Unit).Reachable s₀ ∧ s₀.content = [7, 8] ∧
    s.pc () = .rRelease 2 ∧ ReadsExactly s₀ s [true, true] 2 := by
  obtain ⟨s₀, s, h₀, hpc, hr, hcall, hret, hcontent⟩ : ∃ s₀ s,
      (machine Unit).exec (Pipe.alloc Unit) readTwo = some s₀ ∧ s₀.pc () = .rCopy [true, true] 0 ∧
      (machine Unit).exec s₀ [.go (), .go (), .go (), .go ()] = some s ∧
      s.calls () = s₀.calls () ∧ s.pc () = .rRelease 2 ∧ s₀.content = [7, 8] :=
    ⟨_, _, rfl, rfl, rfl, rfl, rfl, rfl⟩
  have hreach : (machine Unit).Reachable s₀ := ⟨_, _, Pipe.alloc_init Unit, h₀⟩
  refine ⟨s₀, s, hreach, hcontent, hret, (piperead_exact hreach hpc hr hcall hret).2 ?_⟩
  intro i hi
  rw [hcontent] at hi
  change i < min 2 2 at hi
  obtain rfl | rfl : i = 0 ∨ i = 1 := by omega
  all_goals rfl

/-- `piperead` returns 0, and the pipe is empty. -/
theorem piperead_loses_byte : ∃ s₀ s, (machine Unit).Reachable s₀ ∧
    s₀.pc () = .rCopy [false] 0 ∧ (machine Unit).exec s₀ [.go (), .go ()] = some s ∧
    s.pc () = .rRelease 0 ∧ s₀.content = [7] ∧ ¬ ReadsExactly s₀ s [false] 0 := by
  obtain ⟨s₀, s, h₀, hpc, hr, -, hret, hcontent, ht₀, ht⟩ := readOne_exec
  refine ⟨s₀, s, ⟨_, _, Pipe.alloc_init Unit, h₀⟩, hpc, hr, hret, hcontent, ?_⟩
  rintro ⟨bytes, hb, -, rfl⟩
  rw [ht, ht₀] at hb
  exact absurd hb (by simp)

end Xv6.PipeBuffer
