/-
sh.c: what `runcmd` waits for.

A process waits for every child that it forks, but for that of `&`; so when it
exits, or goes on with the second part of a list, all that ran in the
foreground before is over.
-/
import Xv6.ShellRun

namespace Xv6.Shell

open Conc

variable {α : Type} {cmd : Cmd α} {f : Fds α} {s s' : Procs α} {p q : Nat} {pr pr' : Proc α}
  {k : List (Call α)} {π : Place}

/-- A part of the command that runs in the background. -/
def Back (π : Place) : Bool := π.getLast? = some .back

/-- A child that has not been waited for, and is to be. -/
def Proc.awaited (pr : Proc α) (p : Nat) : Bool :=
  pr.parent = some p && !Back pr.born && pr.phase.unreaped

def Procs.awaited (s : Procs α) (p : Nat) : Nat := s.procs.countP (·.awaited p)

/-- How many children will be forked in the foreground, up to the next
`runcmd`. -/
def forks : List (Call α) → Nat
  | [] => 0
  | .fork _ _ π :: k => (if Back π then 0 else 1) + forks k
  | _ :: k => forks k

def waits : List (Call α) → Nat
  | [] => 0
  | .wait :: k => 1 + waits k
  | _ :: k => waits k

/-- The order of calls in `runcmd`. -/
def Tidy : List (Call α) → Prop
  | [] => True
  | .fork _ _ π :: k => (Back π → k = []) ∧ Tidy k
  | .wait :: k => forks k = 0 ∧ Tidy k
  | .pipe .. :: k | .exec .. :: k | .runcmd .. :: k => k = []
  | .fd _ :: k | .openFile .. :: k => Tidy k

/-- The children of `p` to wait for. -/
def Proc.Balanced (pr : Proc α) (n : Nat) : Prop :=
  match pr.phase with
  | .calls k => Tidy k ∧ n + forks k = waits k
  | _ => n = 0

/-- A process in the background, and its parent. -/
def Proc.Left (pr : Proc α) : Prop := ∀ k, pr.phase = .calls k → k = []

/-- Every process waits for as many children as it has and will have. -/
structure Waits (s : Procs α) : Prop where
  balanced : ∀ (p : Nat) (pr : Proc α), s.procs[p]? = some pr → pr.Balanced (s.awaited p)
  left : ∀ (q p : Nat) (pr pr' : Proc α), s.procs[q]? = some pr → Back pr.born →
    pr.parent = some p →
    s.procs[p]? = some pr' → pr'.Left
  parent : ∀ (q : Nat) (pr : Proc α) (p : Nat), s.procs[q]? = some pr → pr.parent = some p → p < q

/-! ## Steps -/

theorem awaited_set (hp : s.procs[p]? = some pr) (pr' : Proc α) (x : Nat) :
    (s.set p pr').awaited x + (if pr.awaited x then 1 else 0) =
      s.awaited x + if pr'.awaited x then 1 else 0 := by
  obtain ⟨hlt, hpr⟩ := List.getElem?_eq_some_iff.1 hp
  have hset : ∀ pr', (s.procs.set p pr').countP (·.awaited x) =
      (s.procs.take p).countP (·.awaited x) + ((s.procs.drop (p + 1)).countP (·.awaited x) +
        if pr'.awaited x then 1 else 0) := by
    intro pr'
    rw [List.set_eq_take_append_cons_drop, if_pos hlt, List.countP_append, List.countP_cons]
  have hself := hset s.procs[p]
  rw [List.set_getElem_self, hpr] at hself
  rw [Procs.awaited, Procs.awaited, Procs.set, hset, hself]
  omega

theorem awaited_append (s : Procs α) (c : Proc α) (x : Nat) :
    Procs.awaited { s with procs := s.procs ++ [c] } x =
      s.awaited x + if c.awaited x then 1 else 0 := by
  rw [Procs.awaited, Procs.awaited, List.countP_append, List.countP_singleton]

/-- A process has changed, but not whose child it is. -/
structure Same (pr pr' : Proc α) : Prop where
  parent : pr'.parent = pr.parent
  born : pr'.born = pr.born
  awaited : ∀ x, pr'.awaited x = pr.awaited x

theorem get_set (hp : s.procs[p]? = some pr) {x : Nat} {pr₁ : Proc α}
    (h : (s.set p pr').procs[x]? = some pr₁) :
    x = p ∧ pr₁ = pr' ∨ x ≠ p ∧ s.procs[x]? = some pr₁ := by
  obtain ⟨hlt, -⟩ := List.getElem?_eq_some_iff.1 hp
  by_cases hx : x = p
  · refine .inl ⟨hx, ?_⟩
    rw [hx, Procs.set, List.getElem?_set_self hlt] at h
    exact (Option.some.inj h).symm
  · refine .inr ⟨hx, ?_⟩
    rwa [Procs.set, List.getElem?_set_ne (Ne.symm hx)] at h

/-- A process takes a step of its own. -/
theorem Waits.set (h : Waits s) (hp : s.procs[p]? = some pr) (hsame : Same pr pr')
    (hbal : pr'.Balanced (s.awaited p)) (hleft : pr.Left → pr'.Left) : Waits (s.set p pr') := by
  have hcount : ∀ x, (s.set p pr').awaited x = s.awaited x := by
    intro x
    have hset := awaited_set hp pr' x
    rw [hsame.awaited x] at hset
    omega
  refine ⟨fun x pr₁ hx => ?_, fun q x pr₁ pr₂ hq hback hpar hx => ?_, fun q pr₁ x hq hpar => ?_⟩
  · rw [hcount]
    rcases get_set hp hx with ⟨rfl, rfl⟩ | ⟨-, hx⟩
    · exact hbal
    · exact h.balanced x pr₁ hx
  · have hold : ∃ pr₀, s.procs[q]? = some pr₀ ∧ Back pr₀.born ∧ pr₀.parent = some x := by
      rcases get_set hp hq with ⟨rfl, rfl⟩ | ⟨-, hq⟩
      · exact ⟨pr, hp, by rw [← hsame.born]; exact hback, by rw [← hsame.parent]; exact hpar⟩
      · exact ⟨pr₁, hq, hback, hpar⟩
    obtain ⟨pr₀, hq₀, hback₀, hpar₀⟩ := hold
    rcases get_set hp hx with ⟨hxp, rfl⟩ | ⟨-, hx⟩
    · rw [hxp] at hpar₀
      exact hleft (h.left q p pr₀ pr hq₀ hback₀ hpar₀ hp)
    · exact h.left q x pr₀ pr₂ hq₀ hback₀ hpar₀ hx
  · rcases get_set hp hq with ⟨rfl, rfl⟩ | ⟨-, hq⟩
    · rw [hsame.parent] at hpar
      exact h.parent q pr x hp hpar
    · exact h.parent q pr₁ x hq hpar

theorem Same.of_unreaped {fds : Fds α} {ph : Phase α} (hk : pr.phase.unreaped)
    (hph : ph.unreaped) : Same pr { pr with fds := fds, phase := ph } := by
  refine ⟨rfl, rfl, fun x => ?_⟩
  simp only [Proc.awaited, hk, hph]

theorem Waits.exit (h : Waits s) (hp : s.procs[p]? = some pr) (hk : pr.phase.unreaped)
    (hn : s.awaited p = 0) : Waits (s.exit p pr) := by
  refine h.set hp ?_ hn fun _ k hk => by cases hk
  exact Same.of_unreaped hk rfl

/-- A process goes on with calls that balance as before. -/
theorem Waits.go {fds : Fds α} {k' : List (Call α)} (h : Waits s) (hp : s.procs[p]? = some pr)
    (hk : pr.phase = .calls k) (hne : k ≠ []) (htidy : Tidy k')
    (hbal : s.awaited p + forks k = waits k → s.awaited p + forks k' = waits k') :
    Waits (s.set p { pr with fds := fds, phase := .calls k' }) := by
  have hb := h.balanced p pr hp
  rw [Proc.Balanced, hk] at hb
  refine h.set hp (Same.of_unreaped (by rw [hk]; rfl) rfl) ⟨htidy, hbal hb.2⟩ fun hl => ?_
  exact absurd (hl k hk) hne

theorem tidy_map {calls : List FdCall} : Tidy (calls.map Call.fd ++ k) ↔ Tidy k := by
  induction calls with
  | nil => rfl
  | cons c calls ih => exact ih

theorem forks_map {calls : List FdCall} : forks (calls.map Call.fd ++ k) = forks k := by
  induction calls with
  | nil => rfl
  | cons c calls ih => exact ih

theorem waits_map {calls : List FdCall} : waits (calls.map Call.fd ++ k) = waits k := by
  induction calls with
  | nil => rfl
  | cons c calls ih => exact ih

theorem back_append (π : Place) (d : Dir) : Back (π ++ [d]) = decide (d = .back) := by
  simp [Back]

theorem runcmd_tidy (cmd : Cmd α) (π : Place) :
    Tidy (runcmd cmd π) ∧ forks (runcmd cmd π) = waits (runcmd cmd π) := by
  cases cmd with
  | exec argv =>
    rw [runcmd]
    split
    · exact ⟨trivial, rfl⟩
    · exact ⟨rfl, rfl⟩
  | redir cmd file mode fd => exact ⟨rfl, rfl⟩
  | pipe left right => exact ⟨rfl, rfl⟩
  | list left right =>
    refine ⟨⟨fun hb => ?_, rfl, rfl⟩, ?_⟩
    · simp [back_append] at hb
    · simp [runcmd, forks, waits, back_append]
  | back cmd =>
    refine ⟨⟨fun _ => rfl, trivial⟩, ?_⟩
    simp [runcmd, forks, waits, back_append]

theorem pipeCalls_tidy (left right : Cmd α) (π : Place) (p₀ p₁ : Nat) :
    Tidy (pipeCalls left right π p₀ p₁) ∧
      forks (pipeCalls left right π p₀ p₁) = waits (pipeCalls left right π p₀ p₁) := by
  simp [pipeCalls, Tidy, forks, waits, back_append]

/-- A child is forked. -/
theorem Waits.fork {sub : Cmd α} {calls : List FdCall} (h : Waits s)
    (hp : s.procs[p]? = some pr) (hk : pr.phase = .calls (.fork calls sub π :: k)) :
    Waits { s.set p { pr with phase := .calls k } with
      procs := (s.set p { pr with phase := .calls k }).procs ++
        [⟨some p, π, pr.fds, .calls (calls.map Call.fd ++ [.runcmd sub π])⟩] } := by
  obtain ⟨hlt, -⟩ := List.getElem?_eq_some_iff.1 hp
  have hbal := h.balanced p pr hp
  rw [Proc.Balanced, hk] at hbal
  obtain ⟨⟨hback, htidy⟩, hbal⟩ := hbal
  have hsame : Same pr { pr with phase := .calls k } := Same.of_unreaped (by rw [hk]; rfl) rfl
  have hcount : ∀ x, Procs.awaited { s.set p { pr with phase := .calls k } with
      procs := (s.set p { pr with phase := .calls k }).procs ++
        [⟨some p, π, pr.fds, .calls (calls.map Call.fd ++ [.runcmd sub π])⟩] } x =
      s.awaited x + if p = x ∧ ¬ Back π then 1 else 0 := by
    intro x
    have hset := awaited_set hp { pr with phase := .calls k } x
    rw [hsame.awaited x] at hset
    rw [awaited_append]
    have hchild : Proc.awaited
        ⟨some p, π, pr.fds, .calls (calls.map Call.fd ++ [.runcmd sub π])⟩ x =
          decide (p = x ∧ ¬ Back π) := by
      simp [Proc.awaited, Phase.unreaped]
    rw [hchild]
    simp only [decide_eq_true_eq]
    omega
  have hnew : ∀ x pr₁, ((s.set p { pr with phase := .calls k }).procs ++
      [⟨some p, π, pr.fds, .calls (calls.map Call.fd ++ [.runcmd sub π])⟩])[x]? = some pr₁ →
      (x = s.procs.length ∧
        pr₁ = ⟨some p, π, pr.fds, .calls (calls.map Call.fd ++ [.runcmd sub π])⟩) ∨
      (x = p ∧ pr₁ = { pr with phase := .calls k }) ∨ x ≠ p ∧ s.procs[x]? = some pr₁ := by
    intro x pr₁ hx
    have hlen : (s.set p { pr with phase := .calls k }).procs.length = s.procs.length :=
      List.length_set
    rw [List.getElem?_append, hlen] at hx
    split at hx
    next => exact .inr (get_set hp hx)
    next hge =>
      obtain ⟨hlt', heq⟩ := List.getElem?_eq_some_iff.1 hx
      have hzero : x - s.procs.length = 0 := by simpa using hlt'
      refine .inl ⟨by omega, ?_⟩
      simp only [hzero] at heq
      exact heq.symm
  refine ⟨fun x pr₁ hx => ?_, fun q x pr₁ pr₂ hq hb hpar hx => ?_, fun q pr₁ x hq hpar => ?_⟩
  · rw [hcount]
    rcases hnew x pr₁ hx with ⟨hx, rfl⟩ | ⟨rfl, rfl⟩ | ⟨hne, hx⟩
    · have hnone : s.awaited x = 0 := by
        refine List.countP_eq_zero.2 fun c hc => ?_
        obtain ⟨j, hj⟩ := List.mem_iff_getElem?.1 hc
        intro haw
        have hpar : c.parent = some x := by
          rw [Proc.awaited, Bool.and_eq_true, Bool.and_eq_true] at haw
          exact of_decide_eq_true haw.1.1
        have hjx := h.parent j c x hj hpar
        obtain ⟨hjlt, -⟩ := List.getElem?_eq_some_iff.1 hj
        omega
      have hxp : ¬ (p = x ∧ ¬ Back π) := fun hc => by omega
      rw [hnone, if_neg hxp]
      refine ⟨tidy_map.2 rfl, ?_⟩
      rw [forks_map, waits_map]
      rfl
    · refine ⟨htidy, ?_⟩
      have hbal' : s.awaited x + ((if Back π then 0 else 1) + forks k) = waits k := hbal
      by_cases hb : Back π
      · rw [if_pos hb] at hbal'
        rw [if_neg (fun hc => hc.2 hb)]
        omega
      · rw [if_neg hb] at hbal'
        rw [if_pos ⟨rfl, hb⟩]
        omega
    · rw [if_neg (fun hc => hne hc.1.symm)]
      exact h.balanced x pr₁ hx
  · intro k' hk'
    rcases hnew q pr₁ hq with ⟨-, rfl⟩ | ⟨rfl, rfl⟩ | ⟨-, hq₀⟩
    · have hx' : p = x := by simpa using hpar
      rcases hnew x pr₂ hx with ⟨he, -⟩ | ⟨-, rfl⟩ | ⟨hne, -⟩
      · omega
      · obtain rfl : k = k' := by simpa using hk'
        exact hback hb
      · exact absurd hx'.symm hne
    · have hlt' := h.parent q pr x hp hpar
      rcases hnew x pr₂ hx with ⟨he, -⟩ | ⟨he, -⟩ | ⟨-, hx⟩
      · omega
      · omega
      · exact h.left q x pr pr₂ hp hb hpar hx k' hk'
    · have hlt' := h.parent q pr₁ x hq₀ hpar
      obtain ⟨hqlt, -⟩ := List.getElem?_eq_some_iff.1 hq₀
      rcases hnew x pr₂ hx with ⟨he, -⟩ | ⟨he, -⟩ | ⟨-, hx₀⟩
      · omega
      · rw [he] at hpar
        cases h.left q p pr₁ pr hq₀ hb hpar hp _ hk
      · exact h.left q x pr₁ pr₂ hq₀ hb hpar hx₀ k' hk'
  · rcases hnew q pr₁ hq with ⟨he, rfl⟩ | ⟨rfl, rfl⟩ | ⟨-, hq⟩
    · have hx' : p = x := by simpa using hpar
      omega
    · exact h.parent q pr x hp hpar
    · exact h.parent q pr₁ x hq hpar

/-- A child is waited for. -/
theorem Waits.reap {child : Proc α} (h : Waits s) (hp : s.procs[p]? = some pr)
    (hq : s.procs[q]? = some child) (hk : pr.phase = .calls (.wait :: k))
    (hchild : child.phase = .zombie) (hpar : child.parent = some p) :
    Waits ((s.set q { child with phase := .reaped }).set p { pr with phase := .calls k }) := by
  have hback : ¬ Back child.born := by
    intro hb
    cases h.left q p child pr hq hb hpar hp _ hk
  have hne : p ≠ q := by
    intro he
    rw [he, hq] at hp
    rw [Option.some.inj hp, hk] at hchild
    cases hchild
  have hp' : (s.set q { child with phase := .reaped }).procs[p]? = some pr := by
    rw [Procs.set, List.getElem?_set_ne hne.symm]
    exact hp
  have hbal := h.balanced p pr hp
  rw [Proc.Balanced, hk] at hbal
  obtain ⟨⟨hforks, htidy⟩, hbal⟩ := hbal
  have hcount : ∀ x, ((s.set q { child with phase := .reaped }).set p
      { pr with phase := .calls k }).awaited x + (if p = x then 1 else 0) = s.awaited x := by
    intro x
    have hset := awaited_set hp' { pr with phase := .calls k } x
    have hset' := awaited_set hq { child with phase := .reaped } x
    have hsame : Same pr { pr with phase := .calls k } := Same.of_unreaped (by rw [hk]; rfl) rfl
    rw [hsame.awaited x] at hset
    have haw : child.awaited x = decide (p = x) := by
      simp [Proc.awaited, hchild, hpar, hback, Phase.unreaped]
    have haw' : Proc.awaited { child with phase := .reaped } x = false := by
      simp [Proc.awaited, Phase.unreaped]
    rw [haw, haw'] at hset'
    simp only [decide_eq_true_eq] at hset'
    simp only [Bool.false_eq_true, if_false] at hset'
    omega
  have hnew : ∀ x pr₁, ((s.set q { child with phase := .reaped }).set p
      { pr with phase := .calls k }).procs[x]? = some pr₁ →
      (x = p ∧ pr₁ = { pr with phase := .calls k }) ∨
      (x = q ∧ x ≠ p ∧ pr₁ = { child with phase := .reaped }) ∨
      x ≠ p ∧ x ≠ q ∧ s.procs[x]? = some pr₁ := by
    intro x pr₁ hx
    rcases get_set hp' hx with hx | ⟨hxp, hx⟩
    · exact .inl hx
    · rcases get_set hq hx with ⟨hxq, he⟩ | ⟨hxq, hx⟩
      · exact .inr (.inl ⟨hxq, hxp, he⟩)
      · exact .inr (.inr ⟨hxp, hxq, hx⟩)
  refine ⟨fun x pr₁ hx => ?_, fun y x pr₁ pr₂ hy hb hpar' hx => ?_, fun y pr₁ x hy hpar' => ?_⟩
  · have hc := hcount x
    rcases hnew x pr₁ hx with ⟨rfl, rfl⟩ | ⟨rfl, hxp, rfl⟩ | ⟨hxp, -, hx⟩
    · refine ⟨htidy, ?_⟩
      have hbal' : s.awaited x + forks k = 1 + waits k := hbal
      rw [if_pos rfl] at hc
      omega
    · rw [if_neg (Ne.symm hxp)] at hc
      have hzero := h.balanced x child hq
      rw [Proc.Balanced, hchild] at hzero
      change _ = 0
      omega
    · rw [if_neg (Ne.symm hxp), Nat.add_zero] at hc
      rw [hc]
      exact h.balanced x pr₁ hx
  · have hold : ∃ pr₀, s.procs[y]? = some pr₀ ∧ Back pr₀.born ∧ pr₀.parent = some x := by
      rcases hnew y pr₁ hy with ⟨rfl, rfl⟩ | ⟨rfl, -, rfl⟩ | ⟨-, -, hy⟩
      · exact ⟨pr, hp, hb, hpar'⟩
      · exact ⟨child, hq, hb, hpar'⟩
      · exact ⟨pr₁, hy, hb, hpar'⟩
    obtain ⟨pr₀, hy₀, hb₀, hpar₀⟩ := hold
    rcases hnew x pr₂ hx with ⟨rfl, -⟩ | ⟨rfl, -, rfl⟩ | ⟨-, -, hx⟩
    · cases h.left y x pr₀ pr hy₀ hb₀ hpar₀ hp _ hk
    · intro k' hk'
      cases hk'
    · exact h.left y x pr₀ pr₂ hy₀ hb₀ hpar₀ hx
  · rcases hnew y pr₁ hy with ⟨rfl, rfl⟩ | ⟨rfl, -, rfl⟩ | ⟨-, -, hy⟩
    · exact h.parent y pr x hp hpar'
    · exact h.parent y child x hq hpar'
    · exact h.parent y pr₁ x hy hpar'

theorem failed_call (hs : s.call p pr k = some s') (hf : s'.failed = false) : s.failed = false := by
  cases k with
  | nil =>
    obtain rfl := Option.some.inj hs
    exact hf
  | cons c k =>
    cases c with
    | openFile file mode π =>
      simp only [Procs.call] at hs
      split at hs
      all_goals
        obtain rfl := Option.some.inj hs
        first | exact hf | cases hf
    | wait =>
      simp only [Procs.call] at hs
      split at hs
      next => cases hs
      next =>
        obtain rfl := Option.some.inj hs
        exact hf
    | pipe left right π =>
      simp only [Procs.call] at hs
      split at hs
      next =>
        obtain rfl := Option.some.inj hs
        cases hf
      next =>
        split at hs
        all_goals
          obtain rfl := Option.some.inj hs
          first | exact hf | cases hf
    | _ =>
      obtain rfl := Option.some.inj hs
      exact hf

/-- A process that waits has a child to wait for. -/
theorem Waits.hasKids (h : Waits s) (hp : s.procs[p]? = some pr)
    (hk : pr.phase = .calls (.wait :: k)) : s.hasKids p := by
  have hbal := h.balanced p pr hp
  rw [Proc.Balanced, hk] at hbal
  obtain ⟨⟨hforks, -⟩, hbal⟩ := hbal
  have hbal' : s.awaited p + forks k = 1 + waits k := hbal
  have hpos : 0 < s.procs.countP (·.awaited p) := by
    change 0 < s.awaited p
    omega
  obtain ⟨c, hc, haw⟩ := List.countP_pos_iff.1 hpos
  refine List.any_eq_true.2 ⟨c, hc, ?_⟩
  rw [Proc.awaited, Bool.and_eq_true, Bool.and_eq_true] at haw
  rw [Bool.and_eq_true]
  exact ⟨haw.1.1, haw.2⟩

theorem Waits.call (h : Waits s) (hp : s.procs[p]? = some pr) (hk : pr.phase = .calls k)
    (hs : s.call p pr k = some s') (hf : s'.failed = false) : Waits s' := by
  have hbal := h.balanced p pr hp
  rw [Proc.Balanced, hk] at hbal
  obtain ⟨htidy, hbal⟩ := hbal
  have hlive : pr.phase.unreaped := by
    rw [hk]
    rfl
  cases k with
  | nil =>
    obtain rfl := Option.some.inj hs
    exact h.exit hp hlive hbal
  | cons c k =>
    cases c with
    | fd c =>
      obtain rfl := Option.some.inj hs
      exact h.go hp hk (List.cons_ne_nil _ _) htidy id
    | openFile file mode π =>
      simp only [Procs.call] at hs
      split at hs
      next =>
        obtain rfl := Option.some.inj hs
        cases hf
      next =>
        obtain rfl := Option.some.inj hs
        exact h.go hp hk (List.cons_ne_nil _ _) htidy id
    | fork calls sub π =>
      obtain rfl := Option.some.inj hs
      exact h.fork hp hk
    | wait =>
      simp only [Procs.call] at hs
      rw [if_pos (h.hasKids hp hk)] at hs
      cases hs
    | pipe left right π =>
      simp only [Procs.call] at hs
      obtain rfl : k = [] := htidy
      split at hs
      next =>
        obtain rfl := Option.some.inj hs
        cases hf
      next p₀ _ =>
        split at hs
        next =>
          obtain rfl := Option.some.inj hs
          cases hf
        next p₁ _ =>
          obtain rfl := Option.some.inj hs
          obtain ⟨htidy', hbal'⟩ := pipeCalls_tidy left right π p₀ p₁
          have hzero : s.awaited p = 0 := hbal
          rw [List.append_nil]
          exact h.go hp hk (List.cons_ne_nil _ _) htidy' fun _ => by omega
    | exec argv π =>
      obtain rfl := Option.some.inj hs
      obtain rfl : k = [] := htidy
      have hsame : Same pr { pr with phase := .program argv } := Same.of_unreaped hlive rfl
      have hzero : Proc.Balanced { pr with phase := .program argv } (s.awaited p) := hbal
      have h' := h.set hp hsame hzero fun _ k' hk' => by cases hk'
      exact ⟨h'.balanced, h'.left, h'.parent⟩
    | runcmd sub π =>
      obtain rfl := Option.some.inj hs
      obtain rfl : k = [] := htidy
      obtain ⟨htidy', hbal'⟩ := runcmd_tidy sub π
      have hzero : s.awaited p = 0 := hbal
      exact h.go hp hk (List.cons_ne_nil _ _) htidy' fun _ => by omega

theorem Waits.next {e : Event} (h : s.failed = false → Waits s) (hs : s.next e = some s')
    (hf : s'.failed = false) : Waits s' := by
  cases e with
  | go p =>
    simp only [Procs.next] at hs
    split at hs
    next pr hp =>
      split at hs
      next k hk => exact (h (failed_call hs hf)).call hp hk hs hf
      next => cases hs
    next => cases hs
  | fail p =>
    simp only [Procs.next] at hs
    split at hs
    next pr hp =>
      split at hs
      all_goals first
        | (obtain rfl := Option.some.inj hs
           cases hf)
        | cases hs
    next => cases hs
  | reap p q =>
    simp only [Procs.next] at hs
    split at hs
    next pr child hp hq =>
      split at hs
      next k hk hchild =>
        split at hs
        next hpar =>
          obtain rfl := Option.some.inj hs
          exact (h hf).reap hp hq hk hchild hpar
        next => cases hs
      next => cases hs
    next => cases hs
  | finish p =>
    simp only [Procs.next] at hs
    split at hs
    next pr hp =>
      split at hs
      next argv hk =>
        obtain rfl := Option.some.inj hs
        have hbal := (h hf).balanced p pr hp
        rw [Proc.Balanced, hk] at hbal
        exact (h hf).exit hp (by rw [hk]; rfl) hbal
      next => cases hs
    next => cases hs

theorem Waits.init (hi : (machine cmd f).init s) : Waits s := by
  obtain rfl : s = _ := hi
  have hone : ∀ (x : Nat) (pr : Proc α), [(⟨none, [], f, .calls [.runcmd cmd []]⟩ : Proc α)][x]? =
      some pr → pr = ⟨none, [], f, .calls [.runcmd cmd []]⟩ := fun x pr hx =>
    List.mem_singleton.1 (List.mem_of_getElem? hx)
  refine ⟨fun x pr hx => ?_, fun y x pr pr' hy _ hpar => ?_, fun y pr x hy hpar => ?_⟩
  · rw [hone x pr hx]
    refine ⟨rfl, ?_⟩
    simp [Procs.awaited, Proc.awaited, forks, waits]
  · rw [hone y pr hy] at hpar
    cases hpar
  · rw [hone y pr hy] at hpar
    cases hpar

theorem Waits.ofReachable (h : (machine cmd f).Reachable s) (hf : s.failed = false) : Waits s := by
  refine h.invariant (I := fun s => s.failed = false → Waits s) ?_ ?_ hf
  · intro s hi _
    exact .init hi
  · intro s e s' hs he hf
    exact Waits.next hs he hf

/-! ## What is over -/

/-- Process `q` was forked by `p`, or by a process in the foreground of `p`,
and not with `&`. -/
inductive Foreground (s : Procs α) (p : Nat) : Nat → Prop where
  | child {q : Nat} {pr : Proc α} (h : s.procs[q]? = some pr) (hpar : pr.parent = some p)
    (hback : Back pr.born = false) : Foreground s p q
  | trans {q r : Nat} {pr : Proc α} (h : Foreground s p q) (hr : s.procs[r]? = some pr)
    (hpar : pr.parent = some q) (hback : Back pr.born = false) : Foreground s p r

/-- A process has nothing more to wait for: it comes to `runcmd` or runs a
program, or has exited. -/
def Phase.Over : Phase α → Prop
  | .calls k => waits k = 0
  | _ => True

theorem Waits.child_reaped (h : Waits s) (hp : s.procs[p]? = some pr) (hover : pr.phase.Over)
    (hq : s.procs[q]? = some pr') (hpar : pr'.parent = some p) (hback : Back pr'.born = false) :
    pr'.phase = .reaped := by
  have hzero : s.awaited p = 0 := by
    have hbal := h.balanced p pr hp
    rw [Proc.Balanced] at hbal
    split at hbal
    next k hk =>
      rw [hk] at hover
      have hw : waits k = 0 := hover
      omega
    next => exact hbal
  have hnot := List.countP_eq_zero.1 hzero pr' (List.mem_of_getElem? hq)
  cases hph : pr'.phase with
  | reaped => rfl
  | _ => simp [Proc.awaited, hpar, hback, hph, Phase.unreaped] at hnot

/-- While no call has failed, a process that waits has a child to wait for; and
once a process is done waiting (it goes on with a part of its command, such as
the second of a list, runs a program or has exited) everything that it ran in
the foreground has exited and was waited for, however deep in the command and
in whatever order the processes took their steps. -/
theorem runcmd_waits_for_the_foreground (h : (machine cmd f).Reachable s)
    (hf : s.failed = false) :
    (∀ p (pr : Proc α) k, s.procs[p]? = some pr → pr.phase = .calls (.wait :: k) → s.hasKids p) ∧
      ∀ p (pr : Proc α) q, s.procs[p]? = some pr → pr.phase.Over → Foreground s p q →
        ∃ pr', s.procs[q]? = some pr' ∧ pr'.phase = .reaped := by
  have hw := Waits.ofReachable h hf
  refine ⟨fun p pr k hp hk => hw.hasKids hp hk, fun p pr q hp hover hq => ?_⟩
  induction hq with
  | child hq hpar hback => exact ⟨_, hq, hw.child_reaped hp hover hq hpar hback⟩
  | trans _ hr hpar hback ih =>
    obtain ⟨pr', hq, hreaped⟩ := ih
    refine ⟨_, hr, hw.child_reaped hq ?_ hr hpar hback⟩
    rw [hreaped]
    trivial

/-- `a ; b`, up to where `b` is to run. -/
def sequence : List Event :=
  [.go 0, .go 0, .go 1, .go 1, .finish 1, .reap 0 1]

def sequenceStart : Procs Nat :=
  ⟨[⟨none, [], fun fd => some (.given fd), .calls [.runcmd (.list (.exec [0]) (.exec [1])) []]⟩],
    [], false⟩

theorem runcmd_waits_for_the_foreground_sequence :
    ∃ s, (machine (.list (.exec [0]) (.exec [1])) fun fd => some (.given fd)).exec
        sequenceStart sequence = some s ∧
      s.ran.map Job.argv = [[0]] ∧ ∃ pr', s.procs[1]? = some pr' ∧ pr'.phase = .reaped := by
  have hr : (machine (.list (.exec [0]) (.exec [1])) fun fd => some (.given fd)).Reachable
      (((machine (.list (.exec [0]) (.exec [1])) fun fd => some (.given fd)).exec
        sequenceStart sequence).get rfl) :=
    ⟨sequenceStart, sequence, rfl, (Option.some_get _).symm⟩
  refine ⟨_, (Option.some_get rfl).symm, rfl, ?_⟩
  refine (runcmd_waits_for_the_foreground hr rfl).2 0 _ 1 rfl ?_ ?_
  · exact rfl
  · exact .child rfl rfl rfl

end Xv6.Shell
