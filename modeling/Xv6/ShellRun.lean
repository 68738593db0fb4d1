/-
sh.c: runcmd, and the processes that it makes.

What a process has still to do of `runcmd` is a list of calls. An event is the
next call of a process, or the end of a program that it runs; calls may fail
where they can. A part of the command is named by its place in it, and what a
descriptor refers to by the place that opened it.

`ran` and `failed` are auxiliary: the programs that were started, each with
its descriptors, and whether a call has failed.
-/
import Mathlib.Algebra.Order.Group.Multiset
import Mathlib.Data.List.Perm.Subperm
import Mathlib.Logic.Function.Basic
import Xv6.Kernel.State
import Xv6.Lib.Machine
import Xv6.Shell

namespace Xv6.Shell

open Conc

/-- The way from a command to one of its parts. -/
inductive Dir where
  | redir
  | left
  | right
  | first
  | second
  | back
  deriving DecidableEq

abbrev Place := List Dir

/-- What a descriptor refers to. -/
inductive Obj (α : Type) where
  /-- What the shell has at descriptor `fd`. -/
  | given (fd : Nat)
  | file (name : α) (mode : Nat) (at_ : Place)
  | pipe (at_ : Place) (writable : Bool)

/-- The descriptors of a process. -/
abbrev Fds (α : Type) := Nat → Option (Obj α)

/-- A program that runs with these descriptors. -/
structure Job (α : Type) where
  argv : List α
  fds : Fds α
  at_ : Place

/-- `close(fd)` and `dup(fd)` -/
inductive FdCall where
  | close (fd : Nat)
  | dup (fd : Nat)

inductive Call (α : Type) where
  | fd (call : FdCall)
  | openFile (file : α) (mode : Nat) (at_ : Place)
  /-- `if(fork1() == 0)`, and what the child does before it runs its part. -/
  | fork (calls : List FdCall) (cmd : Cmd α) (at_ : Place)
  | wait
  | pipe (left right : Cmd α) (at_ : Place)
  | exec (argv : List α) (at_ : Place)
  | runcmd (cmd : Cmd α) (at_ : Place)

variable {α : Type}

/-- `runcmd`, up to the next `runcmd`. After the last call comes `exit`. -/
def runcmd : Cmd α → Place → List (Call α)
  | .exec argv, π => if argv.isEmpty then [] else [.exec argv π]
  | .redir cmd file mode fd, π =>
    [.fd (.close fd), .openFile file mode π, .runcmd cmd (π ++ [.redir])]
  | .list left right, π =>
    [.fork [] left (π ++ [.first]), .wait, .runcmd right (π ++ [.second])]
  | .pipe left right, π => [.pipe left right π]
  | .back cmd, π => [.fork [] cmd (π ++ [.back])]

/-- What follows `pipe(p)` in `runcmd`. -/
def pipeCalls (left right : Cmd α) (π : Place) (p₀ p₁ : Nat) : List (Call α) :=
  [.fork [.close 1, .dup p₁, .close p₀, .close p₁] left (π ++ [.left]),
    .fork [.close 0, .dup p₀, .close p₀, .close p₁] right (π ++ [.right]),
    .fd (.close p₀), .fd (.close p₁), .wait, .wait]

namespace Fds

/-- `fdalloc` -/
def lowest (f : Fds α) : Option Nat := (List.range NOFILE).find? fun fd => (f fd).isNone

def alloc (f : Fds α) (x : Obj α) : Fds α :=
  match f.lowest with
  | some fd => Function.update f fd (some x)
  | none => f

end Fds

def FdCall.apply (f : Fds α) : FdCall → Fds α
  | .close fd => Function.update f fd none
  | .dup fd =>
    match f fd with
    | some x => f.alloc x
    | none => f

/-- A process is in `runcmd`, runs a program, or has exited. -/
inductive Phase (α : Type) where
  | calls (k : List (Call α))
  | program (argv : List α)
  | zombie
  /-- Its parent has waited for it. -/
  | reaped

def Phase.unreaped {α : Type} : Phase α → Bool
  | .reaped => false
  | _ => true

structure Proc (α : Type) where
  parent : Option Nat
  /-- What it was forked for. -/
  born : Place
  fds : Fds α
  phase : Phase α

structure Procs (α : Type) where
  procs : List (Proc α)
  ran : List (Job α)
  failed : Bool

inductive Event where
  | go (p : Nat)
  /-- The next call of the process fails. -/
  | fail (p : Nat)
  /-- Process `p` waits for its child `q`. -/
  | reap (p q : Nat)
  /-- A program exits. -/
  | finish (p : Nat)

namespace Procs

def set (s : Procs α) (p : Nat) (pr : Proc α) : Procs α := { s with procs := s.procs.set p pr }

/-- `exit` closes the descriptors. -/
def exit (s : Procs α) (p : Nat) (pr : Proc α) : Procs α :=
  s.set p ⟨pr.parent, pr.born, fun _ => none, .zombie⟩

def fail (s : Procs α) (p : Nat) (pr : Proc α) : Procs α := { s.exit p pr with failed := true }

/-- Process `p` has children. -/
def hasKids (s : Procs α) (p : Nat) : Bool :=
  s.procs.any fun pr => pr.parent = some p && pr.phase.unreaped

def call (s : Procs α) (p : Nat) (pr : Proc α) : List (Call α) → Option (Procs α)
  | [] => some (s.exit p pr)
  | .fd c :: k => some (s.set p { pr with fds := c.apply pr.fds, phase := .calls k })
  | .openFile file mode π :: k =>
    match pr.fds.lowest with
    | none => some (s.fail p pr)
    | some fd =>
      some (s.set p { pr with
        fds := Function.update pr.fds fd (some (.file file mode π))
        phase := .calls k })
  | .fork calls cmd π :: k =>
    let s := s.set p { pr with phase := .calls k }
    let child := calls.map Call.fd ++ [.runcmd cmd π]
    some { s with procs := s.procs ++ [⟨some p, π, pr.fds, .calls child⟩] }
  | .wait :: k =>
    -- without a child `wait` returns at once
    if s.hasKids p then none else some (s.set p { pr with phase := .calls k })
  | .pipe left right π :: k =>
    match pr.fds.lowest with
    | none => some (s.fail p pr)
    | some p₀ =>
      let fds : Fds α := Function.update pr.fds p₀ (some (.pipe π false))
      match fds.lowest with
      | none => some (s.fail p pr)
      | some p₁ =>
        some (s.set p { pr with
          fds := Function.update fds p₁ (some (.pipe π true))
          phase := .calls (pipeCalls left right π p₀ p₁ ++ k) })
  | .exec argv π :: _ =>
    let s := s.set p { pr with phase := .program argv }
    some { s with ran := s.ran ++ [⟨argv, pr.fds, π⟩] }
  | .runcmd cmd π :: _ => some (s.set p { pr with phase := .calls (runcmd cmd π) })

def next (s : Procs α) : Event → Option (Procs α)
  | .go p =>
    match s.procs[p]? with
    | some pr =>
      match pr.phase with
      | .calls k => s.call p pr k
      | _ => none
    | none => none
  | .fail p =>
    match s.procs[p]? with
    | some pr =>
      match pr.phase with
      | .calls (.openFile .. :: _) | .calls (.fork .. :: _) | .calls (.pipe .. :: _)
      | .calls (.exec .. :: _) => some (s.fail p pr)
      | _ => none
    | none => none
  | .reap p q =>
    match s.procs[p]?, s.procs[q]? with
    | some pr, some child =>
      match pr.phase, child.phase with
      | .calls (.wait :: k), .zombie =>
        if child.parent = some p then
          some ((s.set q { child with phase := .reaped }).set p { pr with phase := .calls k })
        else none
      | _, _ => none
    | _, _ => none
  | .finish p =>
    match s.procs[p]? with
    | some pr =>
      match pr.phase with
      | .program _ => some (s.exit p pr)
      | _ => none
    | none => none

end Procs

/-- The child of the shell that runs a command with descriptors `f`. -/
def machine (cmd : Cmd α) (f : Fds α) : Machine (Procs α) Event where
  init s := s = ⟨[⟨none, [], f, .calls [.runcmd cmd []]⟩], [], false⟩
  next := Procs.next

/-! ## What a command is for -/

/-- The programs of a command, each with its descriptors. -/
def jobs : Cmd α → Fds α → Place → List (Job α)
  | .exec argv, f, π => if argv.isEmpty then [] else [⟨argv, f, π⟩]
  | .redir cmd file mode fd, f, π =>
    jobs cmd (Function.update f fd (some (.file file mode π))) (π ++ [.redir])
  | .list left right, f, π => jobs left f (π ++ [.first]) ++ jobs right f (π ++ [.second])
  | .pipe left right, f, π =>
    jobs left (Function.update f 1 (some (.pipe π true))) (π ++ [.left]) ++
      jobs right (Function.update f 0 (some (.pipe π false))) (π ++ [.right])
  | .back cmd, f, π => jobs cmd f (π ++ [.back])

/-- The redirections are of the standard input and output. -/
def Cmd.Wired : Cmd α → Prop
  | .exec _ => True
  | .redir cmd _ _ fd => fd ≤ 1 ∧ cmd.Wired
  | .list left right | .pipe left right => left.Wired ∧ right.Wired
  | .back cmd => cmd.Wired

/-- The standard descriptors are open. -/
def Std (f : Fds α) : Prop := ∀ fd ≤ 2, f fd ≠ none

/-- The programs that a process has still to start. -/
def plan : Fds α → List (Call α) → List (Job α)
  | _, [] => []
  | f, .fd c :: k => plan (c.apply f) k
  | f, .openFile file mode π :: k => plan (f.alloc (.file file mode π)) k
  | f, .fork calls cmd π :: k => jobs cmd (calls.foldl FdCall.apply f) π ++ plan f k
  | f, .wait :: k => plan f k
  | f, .pipe left right π :: _ => jobs (.pipe left right) f π
  | f, .exec argv π :: _ => [⟨argv, f, π⟩]
  | f, .runcmd cmd π :: _ => jobs cmd f π

/-- Whenever the process comes to `runcmd`, the standard descriptors are open. -/
def Fit : Fds α → List (Call α) → Prop
  | _, [] => True
  | f, .fd c :: k => Fit (c.apply f) k
  | f, .openFile file mode π :: k => Fit (f.alloc (.file file mode π)) k
  | f, .fork calls cmd _ :: k => Std (calls.foldl FdCall.apply f) ∧ cmd.Wired ∧ Fit f k
  | f, .wait :: k => Fit f k
  | f, .pipe left right _ :: k => Std f ∧ left.Wired ∧ right.Wired ∧ k = []
  | _, .exec .. :: _ => True
  | f, .runcmd cmd _ :: _ => Std f ∧ cmd.Wired

/-! ## Descriptors -/

variable {f : Fds α} {fd : Nat} {x : Obj α}

theorem Std.update (h : Std f) (fd : Nat) (x : Obj α) : Std (Function.update f fd (some x)) := by
  intro i hi
  by_cases he : i = fd
  · rw [he, Function.update_self]
    simp
  · rw [Function.update_of_ne he]
    exact h i hi

/-- A descriptor is allocated when all below it are in use. -/
theorem Fds.lowest_eq (hfree : f fd = none) (hlt : fd < NOFILE) (h : ∀ i < fd, f i ≠ none) :
    f.lowest = some fd := by
  rw [Fds.lowest, List.find?_range_eq_some]
  refine ⟨by simp [hfree], List.mem_range.2 hlt, fun i hi => ?_⟩
  cases hf : f i with
  | none => exact absurd hf (h i hi)
  | some x => rfl

theorem Fds.lowest_free (h : f.lowest = some fd) : f fd = none := by
  have hp := List.find?_some h
  simpa using hp

/-- `close` of a standard descriptor, followed by something that takes the
lowest one. -/
theorem Std.alloc_close (h : Std f) (hfd : fd ≤ 1) (x : Obj α) :
    Fds.alloc (Function.update f fd none) x = Function.update f fd (some x) := by
  have hlow : Fds.lowest (Function.update f fd none) = some fd := by
    refine Fds.lowest_eq (Function.update_self ..) (by simp only [NOFILE]; omega) fun i hi => ?_
    rw [Function.update_of_ne (Nat.ne_of_lt hi)]
    exact h i (by omega)
  rw [Fds.alloc, hlow]
  exact Function.update_idem ..

/-- What the children of a pipe do to their descriptors. -/
theorem foldl_pipe {p₀ p₁ : Nat} {g : Fds α} {y : Obj α} (h : Std f) (h₀ : f p₀ = none)
    (h₁ : f p₁ = none) (hg : ∀ i, i ≠ p₀ → i ≠ p₁ → g i = f i) (hfd : fd ≤ 1) {p : Nat}
    (hp : p = p₀ ∨ p = p₁) (hy : g p = some y) :
    [.close fd, .dup p, .close p₀, .close p₁].foldl FdCall.apply g =
      Function.update f fd (some y) := by
  have hlow : ∀ i ≤ 2, i ≠ p₀ ∧ i ≠ p₁ := by
    intro i hi
    refine ⟨fun he => h i hi ?_, fun he => h i hi ?_⟩
    · rw [he, h₀]
    · rw [he, h₁]
  have hstd : Std g := by
    intro i hi
    rw [hg i (hlow i hi).1 (hlow i hi).2]
    exact h i hi
  have hpfd : p ≠ fd := by
    have hl := hlow fd (by omega)
    rcases hp with rfl | rfl
    · exact hl.1.symm
    · exact hl.2.symm
  have hy' : Function.update g fd none p = some y := by
    rw [Function.update_of_ne hpfd, hy]
  simp only [List.foldl_cons, List.foldl_nil, FdCall.apply, hy']
  rw [hstd.alloc_close hfd]
  funext i
  have hl := hlow fd (by omega)
  by_cases hi₁ : i = p₁
  · rw [hi₁, Function.update_self, Function.update_of_ne hl.2.symm, h₁]
  · rw [Function.update_of_ne hi₁]
    by_cases hi₀ : i = p₀
    · rw [hi₀, Function.update_self, Function.update_of_ne hl.1.symm, h₀]
    · rw [Function.update_of_ne hi₀]
      by_cases hi : i = fd
      · rw [hi, Function.update_self, Function.update_self]
      · rw [Function.update_of_ne hi, Function.update_of_ne hi, hg i hi₀ hi₁]

/-! ## Plans -/

variable {cmd left right : Cmd α} {π : Place} {k : List (Call α)}

/-- `runcmd` is for the programs of its command. -/
theorem runcmd_plan (h : Std f) (hw : cmd.Wired) :
    Fit f (runcmd cmd π) ∧ plan f (runcmd cmd π) = jobs cmd f π := by
  cases cmd with
  | exec argv =>
    rw [runcmd, jobs]
    split
    · exact ⟨trivial, rfl⟩
    · exact ⟨trivial, rfl⟩
  | redir cmd file mode fd =>
    obtain ⟨hfd, hw⟩ := hw
    have he : Fds.alloc (FdCall.apply f (.close fd)) (.file file mode π) = _ :=
      h.alloc_close hfd (.file file mode π)
    simp only [runcmd, Fit, plan, jobs, he]
    exact ⟨⟨h.update fd _, hw⟩, trivial⟩
  | pipe left right => exact ⟨⟨h, hw.1, hw.2, rfl⟩, rfl⟩
  | list left right => exact ⟨⟨h, hw.1, h, hw.2⟩, rfl⟩
  | back cmd => exact ⟨⟨h, hw, trivial⟩, List.append_nil _⟩

/-- What follows `pipe(p)` is for both sides of the pipe. -/
theorem pipeCalls_plan {p₀ p₁ : Nat} (h : Std f) (hl : left.Wired) (hr : right.Wired)
    (h₀ : f.lowest = some p₀)
    (h₁ : Fds.lowest (Function.update f p₀ (some (.pipe π false))) = some p₁) :
    Fit (Function.update (Function.update f p₀ (some (.pipe π false))) p₁ (some (.pipe π true)))
        (pipeCalls left right π p₀ p₁) ∧
      plan (Function.update (Function.update f p₀ (some (.pipe π false))) p₁ (some (.pipe π true)))
        (pipeCalls left right π p₀ p₁) = jobs (.pipe left right) f π := by
  have hf₀ := Fds.lowest_free h₀
  have hf₁ := Fds.lowest_free h₁
  have hne : p₁ ≠ p₀ := by
    intro he
    rw [he, Function.update_self] at hf₁
    cases hf₁
  rw [Function.update_of_ne hne] at hf₁
  have hg : ∀ i, i ≠ p₀ → i ≠ p₁ → Function.update (Function.update f p₀ (some (.pipe π false))) p₁
      (some (.pipe π true)) i = f i := by
    intro i hi₀ hi₁
    rw [Function.update_of_ne hi₁, Function.update_of_ne hi₀]
  have hleft := foldl_pipe h hf₀ hf₁ hg (Nat.le_refl 1) (.inr rfl)
    (Function.update_self ..)
  have hright := foldl_pipe h hf₀ hf₁ hg (Nat.zero_le 1) (.inl rfl)
    (by rw [Function.update_of_ne hne.symm, Function.update_self])
  simp only [pipeCalls, Fit, plan, jobs, hleft, hright]
  exact ⟨⟨h.update 1 _, hl, h.update 0 _, hr, trivial⟩, by rw [List.append_nil]⟩

theorem fit_map {calls : List FdCall} :
    Fit f (calls.map Call.fd ++ k) ↔ Fit (calls.foldl FdCall.apply f) k := by
  induction calls generalizing f with
  | nil => rfl
  | cons c calls ih => exact ih

theorem plan_map {calls : List FdCall} :
    plan f (calls.map Call.fd ++ k) = plan (calls.foldl FdCall.apply f) k := by
  induction calls generalizing f with
  | nil => rfl
  | cons c calls ih => exact ih

/-- The programs that a process has still to start. -/
def Proc.plan (pr : Proc α) : List (Job α) :=
  match pr.phase with
  | .calls k => Shell.plan pr.fds k
  | _ => []

def Proc.Fit (pr : Proc α) : Prop := ∀ k, pr.phase = .calls k → Shell.Fit pr.fds k

/-! ## Runs -/

/-- The programs started and those still to start are the command's, but for
those that a failure has cost. -/
structure Inv (cmd : Cmd α) (f : Fds α) (s : Procs α) : Prop where
  fit : ∀ pr ∈ s.procs, pr.Fit
  perm : ∃ lost, (s.ran ++ (s.procs.flatMap Proc.plan ++ lost)).Perm (jobs cmd f []) ∧
    (s.failed = false → lost = [])

variable {s s' : Procs α} {p q : Nat} {pr pr' : Proc α}

/-- The plans of the processes, one of which is replaced. -/
theorem plans_set {l : List (Proc α)} (h : l[p]? = some pr) : ∃ rest,
    (l.flatMap Proc.plan).Perm (pr.plan ++ rest) ∧
      ∀ pr', ((l.set p pr').flatMap Proc.plan).Perm (pr'.plan ++ rest) := by
  obtain ⟨hp, hpr⟩ := List.getElem?_eq_some_iff.1 h
  have hset : ∀ pr', ((l.set p pr').flatMap Proc.plan).Perm
      (pr'.plan ++ ((l.take p).flatMap Proc.plan ++ (l.drop (p + 1)).flatMap Proc.plan)) := by
    intro pr'
    rw [List.set_eq_take_append_cons_drop, if_pos hp, List.flatMap_append, List.flatMap_cons]
    exact List.perm_append_comm_assoc ..
  refine ⟨_, ?_, hset⟩
  have hself := hset l[p]
  rwa [List.set_getElem_self, hpr] at hself

/-- A step of process `p`, which may start a program, make children, and lose
some of its plan when a call fails. -/
theorem Inv.step (h : Inv cmd f s) (pr' : Proc α) (kids : List (Proc α))
    (started lost : List (Job α)) (failed : Bool) (hp : s.procs[p]? = some pr) (hfit : pr'.Fit)
    (hkids : ∀ c ∈ kids, c.Fit)
    (hplan : pr.plan.Perm (started ++ (pr'.plan ++ (kids.flatMap Proc.plan ++ lost))))
    (hfailed : failed = false → s.failed = false ∧ lost = []) :
    Inv cmd f ⟨s.procs.set p pr' ++ kids, s.ran ++ started, failed⟩ where
  fit c hc := by
    rcases List.mem_append.1 hc with hc | hc
    · rcases List.mem_or_eq_of_mem_set hc with hc | rfl
      · exact h.fit c hc
      · exact hfit
    · exact hkids c hc
  perm := by
    obtain ⟨lost₀, hperm, hlost⟩ := h.perm
    obtain ⟨rest, hold, hnew⟩ := plans_set hp
    refine ⟨lost ++ lost₀, ?_, fun hf => ?_⟩
    · refine List.Perm.trans ?_ hperm
      rw [← Multiset.coe_eq_coe] at hold hplan ⊢
      have hnew' := Multiset.coe_eq_coe.2 (hnew pr')
      simp only [← Multiset.coe_add, List.flatMap_append] at hold hplan hnew' ⊢
      rw [hold, hplan, hnew']
      ac_rfl
    · rw [(hfailed hf).2, hlost (hfailed hf).1]
      rfl

theorem Proc.fit_zombie (par : Option Nat) (π : Place) (g : Fds α) :
    Proc.Fit ⟨par, π, g, .zombie⟩ := by
  intro k hk
  cases hk

/-- A process exits that has nothing more to start. -/
theorem Inv.exit (h : Inv cmd f s) (hp : s.procs[p]? = some pr) (hplan : pr.plan = []) :
    Inv cmd f (s.exit p pr) := by
  have h' := h.step ⟨pr.parent, pr.born, fun _ => none, .zombie⟩ [] [] [] s.failed hp
    (Proc.fit_zombie _ _ _) (by simp) (by rw [hplan]; exact .nil) fun hf => ⟨hf, rfl⟩
  rwa [List.append_nil, List.append_nil] at h'

theorem Inv.fail (h : Inv cmd f s) (hp : s.procs[p]? = some pr) : Inv cmd f (s.fail p pr) := by
  have h' := h.step ⟨pr.parent, pr.born, fun _ => none, .zombie⟩ [] [] pr.plan true hp
    (Proc.fit_zombie _ _ _) (by simp) (.refl _) (by simp)
  rwa [List.append_nil, List.append_nil] at h'

/-- A process goes on with the same plan. -/
theorem Inv.go {fds : Fds α} (h : Inv cmd f s) (hp : s.procs[p]? = some pr)
    (hfit : Shell.Fit fds k) (hplan : pr.plan = Shell.plan fds k) :
    Inv cmd f (s.set p { pr with fds := fds, phase := .calls k }) := by
  have h' := h.step { pr with fds := fds, phase := .calls k } [] [] [] s.failed hp ?_ (by simp) ?_
    fun hf => ⟨hf, rfl⟩
  · rwa [List.append_nil, List.append_nil] at h'
  · intro k' hk
    obtain rfl : k = k' := by simpa using hk
    exact hfit
  · rw [hplan]
    simp [Proc.plan]

theorem Inv.call (h : Inv cmd f s) (hp : s.procs[p]? = some pr) (hk : pr.phase = .calls k)
    (hs : s.call p pr k = some s') : Inv cmd f s' := by
  have hfit := h.fit pr (List.mem_of_getElem? hp) k hk
  have hplan : pr.plan = Shell.plan pr.fds k := by
    rw [Proc.plan, hk]
  cases k with
  | nil =>
    obtain rfl := Option.some.inj hs
    exact h.exit hp hplan
  | cons c k =>
    cases c with
    | fd c =>
      obtain rfl := Option.some.inj hs
      exact h.go hp hfit hplan
    | openFile file mode π =>
      simp only [Procs.call] at hs
      simp only [Shell.Fit, Shell.plan, Fds.alloc] at hfit hplan
      split at hs
      next =>
        obtain rfl := Option.some.inj hs
        exact h.fail hp
      next fd hlow =>
        obtain rfl := Option.some.inj hs
        rw [hlow] at hfit hplan
        exact h.go hp hfit hplan
    | fork calls sub π =>
      obtain rfl := Option.some.inj hs
      obtain ⟨hstd, hw, hfit⟩ := hfit
      have h' := h.step { pr with phase := .calls k }
        [⟨some p, π, pr.fds, .calls (calls.map Call.fd ++ [.runcmd sub π])⟩] [] [] s.failed hp
        ?_ ?_ ?_
        fun hf => ⟨hf, rfl⟩
      · rwa [List.append_nil] at h'
      · intro k' hk'
        obtain rfl : k = k' := by simpa using hk'
        exact hfit
      · intro c hc k' hk'
        obtain rfl := List.mem_singleton.1 hc
        obtain rfl : _ = k' := by simpa using hk'
        exact fit_map.2 ⟨hstd, hw⟩
      · rw [hplan, List.flatMap_singleton, List.append_nil, List.nil_append]
        simp only [Proc.plan, plan_map, Shell.plan]
        exact List.perm_append_comm
    | wait =>
      simp only [Procs.call] at hs
      split at hs
      next => cases hs
      next =>
        obtain rfl := Option.some.inj hs
        exact h.go hp hfit hplan
    | pipe left right π =>
      simp only [Procs.call] at hs
      obtain ⟨hstd, hl, hr, rfl⟩ := hfit
      split at hs
      next =>
        obtain rfl := Option.some.inj hs
        exact h.fail hp
      next p₀ h₀ =>
        split at hs
        next =>
          obtain rfl := Option.some.inj hs
          exact h.fail hp
        next p₁ h₁ =>
          obtain rfl := Option.some.inj hs
          obtain ⟨hfit', hplan'⟩ := pipeCalls_plan (π := π) hstd hl hr h₀ h₁
          rw [List.append_nil]
          exact h.go hp hfit' (hplan.trans hplan'.symm)
    | exec argv π =>
      obtain rfl := Option.some.inj hs
      have h' := h.step { pr with phase := .program argv } [] [⟨argv, pr.fds, π⟩] [] s.failed hp ?_
        (by simp) ?_ fun hf => ⟨hf, rfl⟩
      · rwa [List.append_nil] at h'
      · intro k' hk'
        cases hk'
      · rw [hplan]
        exact .refl _
    | runcmd sub π =>
      obtain rfl := Option.some.inj hs
      obtain ⟨hstd, hw⟩ := hfit
      obtain ⟨hfit', hplan'⟩ := runcmd_plan (π := π) hstd hw
      exact h.go hp hfit' (hplan.trans hplan'.symm)

theorem Inv.next {e : Event} (h : Inv cmd f s) (hs : s.next e = some s') : Inv cmd f s' := by
  cases e with
  | go p =>
    simp only [Procs.next] at hs
    split at hs
    next pr hp =>
      split at hs
      next k hk => exact h.call hp hk hs
      next => cases hs
    next => cases hs
  | fail p =>
    simp only [Procs.next] at hs
    split at hs
    next pr hp =>
      split at hs
      all_goals first
        | (obtain rfl := Option.some.inj hs
           exact h.fail hp)
        | cases hs
    next => cases hs
  | reap p q =>
    simp only [Procs.next] at hs
    split at hs
    next pr child hp hq =>
      split at hs
      next k hpr hchild =>
        split at hs
        next =>
          obtain rfl := Option.some.inj hs
          have hne : q ≠ p := by
            intro he
            rw [he, hp] at hq
            rw [Option.some.inj hq, hchild] at hpr
            cases hpr
          have h' := h.step { child with phase := .reaped } [] [] [] s.failed hq
            (by intro k hk; cases hk) (by simp) (by simp [Proc.plan, hchild]) fun hf => ⟨hf, rfl⟩
          rw [List.append_nil, List.append_nil] at h'
          refine h'.go ?_ (h.fit pr (List.mem_of_getElem? hp) (.wait :: k) hpr) ?_
          · rw [List.getElem?_set_ne hne]
            exact hp
          · rw [Proc.plan, hpr]
            rfl
        next => cases hs
      next => cases hs
    next => cases hs
  | finish p =>
    simp only [Procs.next] at hs
    split at hs
    next pr hp =>
      split at hs
      next argv hk =>
        obtain rfl := Option.some.inj hs
        refine h.exit hp ?_
        rw [Proc.plan, hk]
      next => cases hs
    next => cases hs

theorem Inv.init (hstd : Std f) (hw : cmd.Wired) (hi : (machine cmd f).init s) : Inv cmd f s := by
  obtain rfl : s = _ := hi
  refine ⟨fun pr hpr k hk => ?_, [], ?_, fun _ => rfl⟩
  · obtain rfl := List.mem_singleton.1 hpr
    obtain rfl : _ = k := by simpa using hk
    exact ⟨hstd, hw⟩
  · rw [List.flatMap_singleton, List.append_nil]
    exact .refl _

theorem Inv.ofReachable (hstd : Std f) (hw : cmd.Wired) (h : (machine cmd f).Reachable s) :
    Inv cmd f s :=
  h.invariant (I := Inv cmd f) (fun _ hi => .init hstd hw hi) fun _ _ _ hs he => hs.next he

/-! ## What the parser gives -/

theorem Token.mode_le {t : Token} {mode fd : Nat} (h : t.mode = some (mode, fd)) : fd ≤ 1 := by
  cases t with
  | less =>
    obtain ⟨-, rfl⟩ := Prod.mk.inj (Option.some.inj h)
    exact Nat.zero_le 1
  | greater =>
    obtain ⟨-, rfl⟩ := Prod.mk.inj (Option.some.inj h)
    exact Nat.le_refl 1
  | append =>
    obtain ⟨-, rfl⟩ := Prod.mk.inj (Option.some.inj h)
    exact Nat.le_refl 1
  | _ => cases h

theorem Items.redirs_le {ts : List Token} {ws : List (List UInt8)} {rs : List Redir}
    (h : Items ts ws rs) : ∀ r ∈ rs, r.2.2 ≤ 1 := by
  induction h with
  | nil => simp
  | word h ih => exact ih
  | redir hop h ih =>
    intro r hr
    rcases List.mem_cons.1 hr with rfl | hr
    · exact Token.mode_le hop
    · exact ih r hr

theorem Cmd.Wired.wrap {c : Cmd (List UInt8)} {rs : List Redir} (h : c.Wired)
    (hrs : ∀ r ∈ rs, r.2.2 ≤ 1) : (c.wrap rs).Wired := by
  induction rs generalizing c with
  | nil => exact h
  | cons r rs ih =>
    exact ih (c := .redir c r.1 r.2.1 r.2.2) ⟨hrs r List.mem_cons_self, h⟩ fun r' hr' =>
      hrs r' (List.mem_cons_of_mem _ hr')

theorem Cmd.Wired.iterate_back {c : Cmd α} (h : c.Wired) (n : Nat) : (Cmd.back^[n] c).Wired := by
  induction n with
  | zero => exact h
  | succ n ih =>
    rw [Function.iterate_succ_apply']
    exact ih

/-- The parser redirects the standard input and output only. -/
theorem Derives.wired {X : Symbol} {ts : List Token} {c : Cmd (List UInt8)} (h : Derives X ts c) :
    c.Wired := by
  induction h with
  | words h hlt => exact Cmd.Wired.wrap trivial h.redirs_le
  | block h hr ih => exact ih.wrap hr.redirs_le
  | single h ih => exact ih
  | pipe h h' ih ih' => exact ⟨ih, ih'⟩
  | line n h ih => exact ih.iterate_back n
  | list n h h' ih ih' => exact ⟨ih.iterate_back n, ih'⟩

/-! ## The programs of a command -/

/-- Every process is through with `runcmd`. -/
def Procs.Done (s : Procs α) : Prop := ∀ pr ∈ s.procs, ∀ k, pr.phase ≠ .calls k

/-- A command line is run as it reads. In any order of the steps of the
processes, and whatever calls fail, the programs started so far are those of
the command, none of them twice, and each with the descriptors that its
redirections and pipes give it and no other; when every process is through and
no call has failed, all of them have been started. -/
theorem runcmd_runs_the_command {ts : List Token} {cmd : Cmd (List UInt8)}
    {f : Fds (List UInt8)} {s : Procs (List UInt8)} (hd : Derives .line ts cmd) (hstd : Std f)
    (h : (machine cmd f).Reachable s) :
    s.ran.Subperm (jobs cmd f []) ∧
      (s.failed = false → s.Done → s.ran.Perm (jobs cmd f [])) := by
  obtain ⟨lost, hperm, hlost⟩ := (Inv.ofReachable hstd hd.wired h).perm
  refine ⟨?_, fun hf hdone => ?_⟩
  · exact (List.sublist_append_left ..).subperm.trans hperm.subperm
  · have hnil : s.procs.flatMap Proc.plan = [] := by
      rw [List.flatMap_eq_nil_iff]
      intro pr hpr
      cases hk : pr.phase with
      | calls k => exact absurd hk (hdone pr hpr k)
      | _ => simp [Proc.plan, hk]
    rwa [hnil, hlost hf, List.append_nil, List.append_nil] at hperm

/-- `a | b > c` -/
def pipeline : List Token := [.word [97], .bar, .word [98], .greater, .word [99]]

def pipelineCmd : Cmd (List UInt8) :=
  .pipe (.exec [[97]]) (.redir (.exec [[98]]) [99] (O_WRONLY ||| O_CREATE ||| O_TRUNC) 1)

def standard : Fds (List UInt8) := fun fd => if fd ≤ 2 then some (.given fd) else none

/-- The shell's child, then its children on the left and on the right. -/
def pipelineRun : List Event :=
  List.replicate 4 (.go 0) ++ List.replicate 6 (.go 1) ++ List.replicate 9 (.go 2)

theorem derives_pipeline : Derives .line pipeline pipelineCmd := by
  have hleft : Derives .exec [.word [97]] (.exec [[97]]) := .words (.word .nil) (by decide)
  have hright : Derives .exec [.word [98], .greater, .word [99]]
      (.redir (.exec [[98]]) [99] (O_WRONLY ||| O_CREATE ||| O_TRUNC) 1) :=
    .words (.word (.redir rfl .nil)) (by decide)
  exact .line 0 (.pipe hleft (.single hright))

theorem runcmd_runs_the_command_pipeline :
    ∃ s, (machine pipelineCmd standard).exec
        ⟨[⟨none, [], standard, .calls [.runcmd pipelineCmd []]⟩], [], false⟩ pipelineRun = some s ∧
      s.ran.length = 2 ∧ s.ran.Subperm (jobs pipelineCmd standard []) := by
  have hstd : Std standard := by
    intro fd hfd
    simp [standard, hfd]
  have hr : (machine pipelineCmd standard).Reachable (((machine pipelineCmd standard).exec
      ⟨[⟨none, [], standard, .calls [.runcmd pipelineCmd []]⟩], [], false⟩ pipelineRun).get rfl) :=
    ⟨_, pipelineRun, rfl, (Option.some_get _).symm⟩
  exact ⟨_, (Option.some_get rfl).symm, rfl,
    (runcmd_runs_the_command derives_pipeline hstd hr).1⟩

end Xv6.Shell
