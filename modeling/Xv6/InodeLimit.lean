/-
When the inode table runs out: `iget` finds every entry in use, and the kernel
stops.
-/
import Xv6.FileCounts

namespace Xv6.OpenFiles

open Conc

variable {n m k l : Nat} {G : Type} {s s' : State n m k l G} {p : Fin n}

/-- The inode that the next step of a process asks `iget` for. -/
def State.igets (s : State n m k l G) (p : Fin n) (c : Choice G) : Option Nat :=
  match s.drops p, s.pc p, c with
  | [], .lookup _, .inode _ => some 1
  | [], .namex _ _, .inode inum | [], .dirlink _ _ _, .inode inum => some inum
  | [], .found _ (.create _), .inode inum | [], .found _ (.create _), .new inum => some inum
  | [], .found _ (.linkTo _), .inode inum | [], .found _ .unlink, .inode inum => some inum
  | _, _, _ => none

/-- How many inodes a process has in hand. -/
def Goal.inHand : Goal l → Nat
  | .linkTo _ => 1
  | _ => 0

def PC.inHand : PC n m k l → Nat
  | .lookup goal => goal.inHand
  | .namex _ goal | .found _ goal => 1 + goal.inHand
  | .openAlloc _ | .openFd _ _ | .setCwd _ _ => 1
  | .dirlink _ _ _ => 2
  | _ => 0

def Drop.inHand : Drop m l G → Nat
  | .iput _ => 1
  | _ => 0

def State.inHand (s : State n m k l G) (p : Fin n) : Nat :=
  ((s.drops p).map Drop.inHand).sum + (s.pc p).inHand

variable [DecidableEq G]

/-- The open files of type inode and device, the current directories and the
inodes in hand. -/
def State.inodeRefs (s : State n m k l G) : Nat :=
  (Finset.univ.filter fun f => ∃ ip, s.kind f = .FD_INODE ip ∨ s.kind f = .FD_DEVICE ip).card +
    (Finset.univ.filter fun p => s.cwd p ≠ none).card + ∑ p, s.inHand p

/-! ## Counting references -/

theorem sum_one (ip : Fin l) : ∑ jp, one ip jp = 1 := by
  simp [one]

omit [DecidableEq G] in
theorem sum_total (ds : List (Drop m l G)) :
    ∑ ip, total (Drop.inodes ip) ds = ((ds.map Drop.inHand).sum : Nat) := by
  induction ds with
  | nil => simp
  | cons d ds ih =>
    simp only [total_cons, List.map_cons, List.sum_cons, Finset.sum_add_distrib, ih]
    cases d with
    | iput ip =>
      simp only [Drop.inodes, Drop.inHand, sum_one]
      push_cast
      omega
    | _ => simp [Drop.inodes, Drop.inHand]

theorem sum_goal (goal : Goal l) : ∑ ip, goal.inodes ip = goal.inHand := by
  cases goal <;> simp [Goal.inodes, Goal.inHand, sum_one]

theorem sum_pc (pc : PC n m k l) : ∑ ip, pc.inodes ip ≤ pc.inHand := by
  cases pc <;> simp [PC.inodes, PC.inHand, sum_one, sum_goal, Finset.sum_add_distrib]

omit [DecidableEq G] in
theorem sum_inodesOf (p : Fin n) :
    ∑ ip, s.inodesOf ip p ≤ (if s.cwd p ≠ none then 1 else 0) + (s.inHand p : Int) := by
  have hcwd : ∑ ip, one (s.cwd p) (some ip) = if s.cwd p ≠ none then 1 else 0 := by
    cases s.cwd p with
    | none => simp
    | some ip => simp [sum_one]
  have hpc := sum_pc (s.pc p)
  simp only [State.inodesOf, Finset.sum_add_distrib, hcwd, sum_total, State.inHand]
  push_cast
  omega

/-- The references to all inodes. -/
theorem Inv.sum_iref (h : Inv s) : ∑ ip, s.iref ip ≤ s.inodeRefs := by
  have hkinds : ∑ ip, ∑ f, (s.kind f).inode ip =
      ((Finset.univ.filter fun f =>
        ∃ ip, s.kind f = .FD_INODE ip ∨ s.kind f = .FD_DEVICE ip).card : Nat) := by
    rw [Finset.sum_comm, Finset.card_filter]
    push_cast
    refine Finset.sum_congr rfl fun f _ => ?_
    cases s.kind f <;> simp [Kind.inode, sum_one]
  have hprocs : ∑ ip, ∑ p, s.inodesOf ip p ≤
      ((Finset.univ.filter fun p => s.cwd p ≠ none).card : Nat) +
        ((∑ p, s.inHand p : Nat) : Int) := by
    rw [Finset.sum_comm, Finset.card_filter]
    push_cast
    rw [← Finset.sum_add_distrib]
    exact Finset.sum_le_sum fun p _ => sum_inodesOf p
  simp only [h.books.inodes, Finset.sum_add_distrib, hkinds, State.inodeRefs]
  push_cast at hprocs ⊢
  omega

/-- No count of the inode table is negative. -/
theorem Inv.iref_nonneg (h : Inv s) (ip : Fin l) : 0 ≤ s.iref ip := by
  rw [h.books.inodes ip]
  refine Int.add_nonneg (Finset.sum_nonneg fun f _ => ?_) (Finset.sum_nonneg fun p _ => ?_)
  · cases s.kind f <;> first | exact one_nonneg | exact Int.le_refl _
  · have hdrops := total_nonneg (s.drops p) (w := Drop.inodes ip) fun d => by
      cases d <;> first | exact one_nonneg | exact Int.le_refl _
    have hone := fun jp : Fin l => one_nonneg (a := jp) (b := ip)
    have hcwd := one_nonneg (a := s.cwd p) (b := some ip)
    have hgoal : ∀ goal : Goal l, 0 ≤ goal.inodes ip := fun goal => by
      cases goal <;> first | exact one_nonneg | exact Int.le_refl _
    have hloc := h.loc p
    unfold State.Local at hloc
    unfold State.inodesOf
    cases hpc : s.pc p <;> rw [hpc] at hloc <;> simp only [PC.inodes]
    case clearCwd jp =>
      rw [hloc.1, one_some]
      omega
    case setCwd old jp =>
      have hold : s.cwd p = some old := hloc
      have hjp := hone jp
      rw [hold, one_some]
      omega
    case lookup goal | namex jp goal | found jp goal =>
      have hg := hgoal goal
      grind
    all_goals grind

/-! ## The panic of `iget` -/

omit [DecidableEq G] in
theorem iget_none {inum : Nat} : s.iget inum = none ↔
    (∀ ip, s.iref ip ≠ 0) ∧ ∀ ip, 0 < s.iref ip → s.inum ip ≠ inum := by
  unfold State.iget
  split
  next ip hfind =>
    refine iff_of_false nofun fun hall => ?_
    have hip : 0 < s.iref ip ∧ s.inum ip = inum := by simpa using List.find?_some hfind
    exact hall.2 ip hip.1 hip.2
  next hfind =>
    have hno : ∀ ip, 0 < s.iref ip → s.inum ip ≠ inum := by
      simpa using hfind
    rw [Option.map_eq_none_iff]
    simp only [List.find?_eq_none, List.mem_finRange, decide_eq_true_eq, true_imp_iff]
    exact ⟨fun hall => ⟨hall, hno⟩, fun hall => hall.1⟩

/-- A step that asks `iget` panics if and only if `iget` finds nothing. -/
theorem igets_step {c : Choice G} {inum : Nat} (hi : s.igets p c = some inum) :
    s.drops p = [] ∧ ∃ next : Fin l → State n m k l G → State n m k l G,
      s.step p c = some (s.withInode inum next) ∧ ∀ x t, (next x t).panic = t.panic := by
  unfold State.igets at hi
  split at hi
  next goal _ hdrops hpc =>
    cases hi
    refine ⟨hdrops, fun ip s => s.goto p [] (.namex ip goal), ?_, fun _ _ => rfl⟩
    rw [State.step, hpc]
  next ip goal _ hdrops hpc =>
    cases hi
    refine ⟨hdrops, fun x s => s.goto p [.iput ip] (.namex x goal), ?_, fun _ _ => rfl⟩
    rw [State.step, hpc]
  next dp ip keep _ hdrops hpc =>
    cases hi
    refine ⟨hdrops, fun x s => s.goto p [.iput x, .iput ip, .iput dp] .user, ?_, fun _ _ => rfl⟩
    rw [State.step, hpc]
  next ip keep _ hdrops hpc =>
    cases hi
    refine ⟨hdrops, fun x s => s.goto p [.iput ip] (.found x (if keep then .open else .taken)), ?_,
      fun _ _ => rfl⟩
    rw [State.step, hpc]
  next ip keep _ hdrops hpc =>
    cases hi
    refine ⟨hdrops, fun x s => s.goto p [] (.dirlink ip x keep), ?_, fun _ _ => rfl⟩
    rw [State.step, hpc]
  next ip old _ hdrops hpc =>
    cases hi
    refine ⟨hdrops, fun x s => s.goto p [.iput x, .iput ip, .iput old] .user, ?_, fun _ _ => rfl⟩
    rw [State.step, hpc]
  next ip _ hdrops hpc =>
    cases hi
    refine ⟨hdrops, fun x s => s.goto p [.iput ip, .iput x] .user, ?_, fun _ _ => rfl⟩
    rw [State.step, hpc]
  next => cases hi

omit [DecidableEq G] in
theorem withInode_panic {next : Fin l → State n m k l G → State n m k l G}
    (hnext : ∀ x t, (next x t).panic = t.panic) (inum : Nat) :
    (s.iget inum ≠ none ∧ (s.withInode inum next).panic = s.panic) ∨
    (s.iget inum = none ∧ s.withInode inum next = { s with panic := some "iget: no inodes" }) := by
  unfold State.withInode
  split
  next ip s' hget =>
    obtain ⟨inum', rfl⟩ := iget_eq hget
    exact .inl ⟨by rw [hget]; nofun, hnext ..⟩
  next hget => exact .inr ⟨hget, rfl⟩

omit [DecidableEq G] in
theorem filedup_panic {f : Fin m} {next : State n m k l G → State n m k l G}
    (hnext : ∀ t, (next t).panic = t.panic) : (s.filedup f next).panic = s.panic ∨
    (s.filedup f next).panic = some "filedup" := by
  unfold State.filedup
  split
  next => exact .inr rfl
  next => exact .inl (hnext _)

/-- No other step of a call panics with that message. -/
theorem step_panic {c : Choice G} (hdrops : s.drops p = []) (hi : s.igets p c = none)
    (hs : s.step p c = some s') : s'.panic = s.panic ∨ s'.panic = some "filedup" ∨
      s'.panic = some "ilock: no type" := by
  unfold State.step at hs
  unfold State.igets at hi
  rw [hdrops] at hi
  cases hpc : s.pc p <;> rw [hpc] at hs hi <;> dsimp only at hs
  case filedup f =>
    obtain rfl := Option.some.inj hs
    refine Or.imp_right Or.inl ?_
    exact filedup_panic fun _ => rfl
  case forkLoop np i =>
    split at hs
    next =>
      split at hs
      next =>
        obtain rfl := Option.some.inj hs
        refine Or.imp_right Or.inl ?_
        exact filedup_panic fun _ => rfl
      next =>
        obtain rfl := Option.some.inj hs
        exact .inl rfl
    next =>
      obtain rfl := Option.some.inj hs
      exact .inl rfl
  all_goals
    repeat' split at hs
  all_goals first
    | cases hs
      done
    | cases hi
      done
    | obtain rfl := Option.some.inj hs
      exact .inl rfl
    | obtain rfl := Option.some.inj hs
      exact .inr (.inr rfl)
    | obtain ⟨_, _, rfl⟩ := Option.map_eq_some_iff.1 hs
      exact .inl rfl

/-- Every event that asks for no inode leaves that panic out. -/
theorem next_panic {e : Event n k l G} (hpan : s.panic = none) (hs : s.next e = some s')
    (hi : ∀ p c, e = .go p c → s.igets p c = none) : s'.panic ≠ some "iget: no inodes" := by
  have hkeep : ∀ {t : State n m k l G}, t.panic = s.panic → t.panic ≠ some "iget: no inodes" := by
    intro t ht
    rw [ht, hpan]
    nofun
  unfold State.next at hs
  rw [if_neg (not_not_intro hpan)] at hs
  split at hs
  next p c =>
    split at hs
    next d ds hdrops =>
      obtain rfl := Option.some.inj hs
      cases d with
      | fileclose f =>
        simp only [State.drop]
        split
        next => simp
        next => split <;> exact hkeep rfl
      | pipeclose pi w => exact hkeep rfl
      | iput ip => exact hkeep rfl
    next hdrops =>
      rcases step_panic hdrops (hi p c rfl) hs with hp | hp | hp
      · exact hkeep hp
      · rw [hp]
        simp
      · rw [hp]
        simp
  all_goals
    repeat' split at hs
  all_goals first
    | cases hs
      done
    | obtain rfl := Option.some.inj hs
      exact hkeep rfl
    | obtain ⟨_, _, rfl⟩ := Option.map_eq_some_iff.1 hs
      exact hkeep rfl

/-- A step of a reachable state panics with "iget: no inodes" if and only if it
asks for an inode that is not in the table while every entry has a reference;
it changes nothing then. While the open files of type inode and device, the
current directories and the inodes in hand are fewer than the entries, no step
does. -/
theorem iget_panics {initproc : Fin n} {root : Fin l} {e : Event n k l G}
    (h : (machine initproc root).Reachable s) (hs : s.next e = some s') :
    (s'.panic = some "iget: no inodes" ↔ ∃ p c inum, e = .go p c ∧ s.igets p c = some inum ∧
      ∀ ip, 0 < s.iref ip ∧ s.inum ip ≠ inum) ∧
    (s'.panic = some "iget: no inodes" → s' = { s with panic := some "iget: no inodes" }) ∧
    (s.inodeRefs < l → s'.panic ≠ some "iget: no inodes") := by
  have hinv := Inv.reachable h
  have hpan : s.panic = none := by
    by_contra hne
    unfold State.next at hs
    rw [if_pos hne] at hs
    cases hs
  by_cases hig : ∃ p c inum, e = .go p c ∧ s.igets p c = some inum
  · obtain ⟨p, c, inum, rfl, hig⟩ := hig
    obtain ⟨hdrops, next, hstep, hnext⟩ := igets_step hig
    have hs' : s' = s.withInode inum next := by
      unfold State.next at hs
      rw [if_neg (not_not_intro hpan)] at hs
      dsimp only at hs
      rw [hdrops] at hs
      exact Option.some.inj (hs.symm.trans hstep)
    rcases withInode_panic (s := s) hnext inum with ⟨hget, hno⟩ | ⟨hget, heq⟩
    · have hne : s'.panic ≠ some "iget: no inodes" := by
        rw [hs', hno, hpan]
        nofun
      refine ⟨iff_of_false hne ?_, fun hp => absurd hp hne, fun _ => hne⟩
      rintro ⟨p', c', inum', he, hig', hall⟩
      cases he
      rw [hig] at hig'
      cases hig'
      exact hget (iget_none.2 ⟨fun ip => (hall ip).1.ne', fun ip _ => (hall ip).2⟩)
    · rw [← hs'] at heq
      obtain ⟨hzero, hother⟩ := iget_none.1 hget
      have hpos : ∀ ip, 0 < s.iref ip := fun ip =>
        lt_of_le_of_ne (hinv.iref_nonneg ip) (Ne.symm (hzero ip))
      have hsome : s'.panic = some "iget: no inodes" := by rw [heq]
      refine ⟨iff_of_true hsome ⟨p, c, inum, rfl, hig, fun ip => ⟨hpos ip, hother ip (hpos ip)⟩⟩,
        fun _ => heq, fun hlt => absurd hlt ?_⟩
      have hsum : ∑ _ip : Fin l, (1 : Int) ≤ ∑ ip, s.iref ip :=
        Finset.sum_le_sum fun ip _ => hpos ip
      have hle := hinv.sum_iref
      simp at hsum
      omega
  · have hne : s'.panic ≠ some "iget: no inodes" :=
      next_panic hpan hs fun p c he => Option.eq_none_iff_forall_ne_some.2 fun inum hi =>
        hig ⟨p, c, inum, he, hi⟩
    refine ⟨iff_of_false hne ?_, fun hp => absurd hp hne, fun _ => hne⟩
    rintro ⟨p, c, inum, he, hi, -⟩
    exact hig ⟨p, c, inum, he, hi⟩

/-- With one entry, held by the current directory, `open` of a name in it. -/
theorem iget_panics_one : ∃ s s' : State 1 1 1 1 Unit,
    (machine 0 0).Reachable s ∧ s.next (.go 0 (.inode 2)) = some s' ∧
    s'.panic = some "iget: no inodes" ∧ s'.iref = s.iref := by
  obtain ⟨s, hs, s', hs', hig, hfull⟩ : ∃ s : State 1 1 1 1 Unit,
      (machine 0 0).exec (start 0 0) [.path 0 .open, .go 0 .ok] = some s ∧
      ∃ s', s.next (.go 0 (.inode 2)) = some s' ∧ s.igets 0 (.inode 2) = some 2 ∧
      ∀ ip, 0 < s.iref ip ∧ s.inum ip ≠ 2 := ⟨_, rfl, _, rfl, rfl, by decide⟩
  have hr : (machine 0 0).Reachable s := ⟨start 0 0, _, rfl, hs⟩
  have hp := (iget_panics hr hs').1.2 ⟨0, _, 2, rfl, hig, hfull⟩
  refine ⟨s, s', hr, hs', hp, ?_⟩
  rw [(iget_panics hr hs').2.1 hp]

/-! ## Four processes are enough -/

/-- `open` of a name in the current directory. -/
def opens {n k l : Nat} (p : Fin n) (inum : Nat) : List (Event n k l Unit) :=
  [.path p .open, .go p .ok, .go p (.inode inum)] ++ List.replicate 5 (.go p .ok)

def forks {n k l : Nat} (p np : Fin n) : List (Event n k l Unit) :=
  .fork p np :: List.replicate (k + 3) (.go p .ok)

theorem proc_pos : 0 < 64 := by decide

/-- Process `i` of the 64. -/
def proc (i : Nat) : Fin 64 := ⟨i % 64, Nat.mod_lt i proc_pos⟩

/-- Four processes have 49 of the 100 open files between them, and one of
them opens a fiftieth name. -/
def manyFiles : List (Event 64 16 50 Unit) :=
  forks (proc 0) (proc 1) ++ forks (proc 0) (proc 2) ++ forks (proc 0) (proc 3) ++
    ((List.range 16).map fun i => opens (proc 0) (i + 2)).flatten ++
    ((List.range 16).map fun i => opens (proc 1) (i + 18)).flatten ++
    ((List.range 16).map fun i => opens (proc 2) (i + 34)).flatten ++ opens (proc 3) 50 ++
    [.path (proc 3) .open, .go (proc 3) .ok, .go (proc 3) (.inode 51)]

set_option maxRecDepth 100000 in
/-- NPROC = 64, NFILE = 100, NOFILE = 16 and NINODE = 50. -/
theorem manyFiles_panics : ∃ s : State 64 100 16 50 Unit,
    (machine 0 0).Reachable s ∧ s.panic = some "iget: no inodes" := by
  have hrun : (((machine 0 0).exec (start 0 0 : State 64 100 16 50 Unit) manyFiles).map
      fun s => s.panic) = some (some "iget: no inodes") := by decide +kernel
  obtain ⟨s, hs, hp⟩ := Option.map_eq_some_iff.1 hrun
  exact ⟨s, ⟨start 0 0, manyFiles, rfl, hs⟩, hp⟩

end Xv6.OpenFiles
