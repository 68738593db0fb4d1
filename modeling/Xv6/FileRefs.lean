/-
Who holds the references: each process by its descriptors and its current
directory, and by what it has in hand in a system call.
-/
import Mathlib.Algebra.BigOperators.Group.Finset.Basic
import Mathlib.Algebra.BigOperators.Group.Finset.Piecewise
import Mathlib.Algebra.BigOperators.Ring.Finset
import Mathlib.Algebra.Order.BigOperators.Group.Finset
import Mathlib.Data.Fintype.BigOperators
import Xv6.Lib.Count
import Xv6.OpenFiles

namespace Xv6.OpenFiles

open Conc

/-- Whether two things are the same, as a number. -/
def one {α : Type} [DecidableEq α] (a b : α) : Int := if a = b then 1 else 0

section One

variable {α : Type} [DecidableEq α] {a b : α}

@[simp] theorem one_self : one a a = 1 := if_pos rfl

theorem one_of_ne (h : a ≠ b) : one a b = 0 := if_neg h

theorem one_nonneg : 0 ≤ one a b := by
  unfold one
  split <;> decide

@[simp] theorem one_some : one (some a) (some b) = one a b := by
  simp only [one, Option.some.injEq]

@[simp] theorem one_none : one none (some b) = 0 := if_neg nofun

theorem update_inc {r : α → Int} {x : Int} (hx : x = r a + 1) :
    Function.update r a x b = r b + one a b := by
  by_cases hab : a = b
  · subst hab
    rw [Function.update_self, one_self, hx]
  · rw [Function.update_of_ne (Ne.symm hab), one_of_ne hab, Int.add_zero]

theorem update_dec {r : α → Int} {x : Int} (hx : x = r a - 1) :
    Function.update r a x b = r b - one a b := by
  by_cases hab : a = b
  · subst hab
    rw [Function.update_self, one_self, hx]
  · rw [Function.update_of_ne (Ne.symm hab), one_of_ne hab, Int.sub_zero]

end One

variable {n m k l : Nat} {G : Type}

/-- The descriptors that refer to a file. -/
def slots (o : Fin k → Option (Fin m)) (f : Fin m) : Int :=
  ((Finset.univ.filter fun fd => o fd = some f).card : Nat)

/-- What is in hand in a list. -/
def total {α : Type} (w : α → Int) (ds : List α) : Int := (ds.map w).sum

@[simp] theorem total_nil {α : Type} (w : α → Int) : total w [] = 0 := rfl

@[simp] theorem total_cons {α : Type} (w : α → Int) (d : α) (ds : List α) :
    total w (d :: ds) = w d + total w ds := by
  simp only [total, List.map_cons, List.sum_cons]

namespace Drop

def files (g : Fin m) : Drop m l G → Int
  | .fileclose f => one f g
  | _ => 0

def inodes (jp : Fin l) : Drop m l G → Int
  | .iput ip => one ip jp
  | _ => 0

def ends [DecidableEq G] (pi : G) (writable : Bool) : Drop m l G → Int
  | .pipeclose pj w => one (pj, w) (pi, writable)
  | _ => 0

end Drop

namespace Kind

def inode (jp : Fin l) : Kind l G → Int
  | .FD_INODE ip | .FD_DEVICE ip => one ip jp
  | _ => 0

def ends [DecidableEq G] (pi : G) (writable : Bool) : Kind l G → Int
  | .FD_PIPE pj w => one (pj, w) (pi, writable)
  | _ => 0

end Kind

/-- The inode in hand during a lookup. -/
def Goal.inodes (jp : Fin l) : Goal l → Int
  | .linkTo ip => one ip jp
  | _ => 0

namespace PC

/-- The references to files that a process has in hand, beyond those it is
dropping. Where a descriptor is already set or still set, it is the other
way round. -/
def files (g : Fin m) : PC n m k l → Int
  | .filedup f | .clearFd _ f => - one f g
  | .openFd _ f | .pipe1 f | .pipeFd1 _ _ f => one f g
  | .pipePage rf wf | .pipeFd0 rf wf => one rf g + one wf g
  | _ => 0

def inodes (jp : Fin l) : PC n m k l → Int
  | .clearCwd ip => - one ip jp
  | .lookup goal => goal.inodes jp
  | .namex ip goal | .found ip goal => one ip jp + goal.inodes jp
  | .openAlloc ip | .openFd ip _ => one ip jp
  | .dirlink dp ip _ => one dp jp + one ip jp
  | .setCwd old ip => one ip jp - one old jp
  | _ => 0

/-- The process that `fork` is making. -/
def child : PC n m k l → Option (Fin n)
  | .forkMem np | .forkLoop np _ | .forkCwd np => some np
  | _ => none

end PC

namespace State

/-- The references that a process has, to a file, to an inode and to an end
of a pipe. -/
def filesOf (s : State n m k l G) (f : Fin m) (p : Fin n) : Int :=
  slots (s.ofile p) f + total (Drop.files f) (s.drops p) + (s.pc p).files f

def inodesOf (s : State n m k l G) (ip : Fin l) (p : Fin n) : Int :=
  one (s.cwd p) (some ip) + total (Drop.inodes ip) (s.drops p) + (s.pc p).inodes ip

/-- A file that only the process that allocated it knows. -/
def Fresh (s : State n m k l G) (f : Fin m) : Prop := s.ref f = 1 ∧ s.kind f = .FD_NONE

/-- `fork` has copied the descriptors below `i`. -/
def Making (s : State n m k l G) (np : Fin n) (i : Nat) : Prop :=
  s.status np = .USED ∧ s.cwd np = none ∧ ∀ fd : Fin k, i ≤ fd → s.ofile np fd = none

/-- What process `p` knows at a point of a system call. -/
def Knows (s : State n m k l G) (p : Fin n) : PC n m k l → Prop
  | .filedup f => 2 ≤ slots (s.ofile p) f
  | .clearFd fd f => s.ofile p fd = some f ∧ ∀ fd' < fd, s.ofile p fd' = none
  | .closeAll i => ∀ fd : Fin k, fd < i → s.ofile p fd = none
  | .clearCwd ip => s.cwd p = some ip ∧ ∀ fd, s.ofile p fd = none
  | .exited => s.cwd p = none ∧ ∀ fd, s.ofile p fd = none
  | .setCwd old _ => s.cwd p = some old
  | .openFd _ f | .pipe1 f => s.Fresh f
  | .pipePage rf wf => rf ≠ wf ∧ s.Fresh rf ∧ s.Fresh wf
  | .pipeFd1 fd0 rf _ => s.ofile p fd0 = some rf
  | .pipeOut fd0 fd1 rf wf => fd0 ≠ fd1 ∧ s.ofile p fd0 = some rf ∧ s.ofile p fd1 = some wf
  | .forkMem np => s.Making np 0
  | .forkLoop np i => s.Making np i
  | .forkCwd np => s.Making np k
  | _ => True

/-- What a process knows where it is. -/
def Local (s : State n m k l G) (p : Fin n) : Prop := s.Knows p (s.pc p)

variable [DecidableEq G]

def endsOf (s : State n m k l G) (pi : G) (writable : Bool) (p : Fin n) : Int :=
  total (Drop.ends pi writable) (s.drops p)

end State

variable [DecidableEq G]

/-- Each count is the number of the references there are. -/
structure Books (s : State n m k l G) : Prop where
  files : ∀ f, s.ref f = ∑ p, s.filesOf f p
  inodes : ∀ ip, s.iref ip = ∑ f, (s.kind f).inode ip + ∑ p, s.inodesOf ip p
  ends : ∀ pi w, one ((s.pipe pi).isOpen w) true =
    ∑ f, (s.kind f).ends pi w + ∑ p, s.endsOf pi w p

/-- What holds in every state. -/
structure Inv (s : State n m k l G) : Prop where
  books : Books s
  free : ∀ f, s.ref f = 0 → s.kind f = .FD_NONE
  pages : ∀ pi, (s.pipe pi).Paged
  loc : ∀ p, s.Local p
  idle : ∀ p, s.status p ≠ .live → s.pc p = .user ∧ s.drops p = []
  empty : ∀ p, s.status p = .UNUSED ∨ s.status p = .ZOMBIE →
    s.cwd p = none ∧ ∀ fd, s.ofile p fd = none
  child : ∀ p q np, (s.pc p).child = some np → (s.pc q).child = some np → p = q
  panic : s.panic = none ∨ s.panic = some "iget: no inodes" ∨ s.panic = some "ilock: no type"

variable {s s' : State n m k l G} {p q : Fin n} {f : Fin m}

/-! ## Counting -/

theorem sum_change {T : Type} [Fintype T] [DecidableEq T] (c c' : T → Int) (t : T)
    (h : ∀ u, u ≠ t → c' u = c u) : ∑ u, c' u = ∑ u, c u + (c' t - c t) := by
  have h₁ := Finset.add_sum_erase Finset.univ c' (Finset.mem_univ t)
  have h₂ := Finset.add_sum_erase Finset.univ c (Finset.mem_univ t)
  have h₃ : ∑ u ∈ Finset.univ.erase t, c' u = ∑ u ∈ Finset.univ.erase t, c u :=
    Finset.sum_congr rfl fun u hu => h u (Finset.ne_of_mem_erase hu)
  omega

theorem slots_nonneg {o : Fin k → Option (Fin m)} : 0 ≤ slots o f := Int.natCast_nonneg _

theorem slots_update (o : Fin k → Option (Fin m)) (fd : Fin k) (x : Option (Fin m)) (f : Fin m) :
    slots (Function.update o fd x) f = slots o f - one (o fd) (some f) + one x (some f) := by
  have hsame : ∀ j, j ≠ fd → (Function.update o fd x j = some f ↔ o j = some f) :=
    fun j hj => by rw [Function.update_of_ne hj]
  have h := card_filter_change hsame
  rw [Function.update_self] at h
  unfold slots one
  split at h <;> split at h <;> simp_all
  all_goals omega

theorem slots_pos {o : Fin k → Option (Fin m)} {fd : Fin k} (h : o fd = some f) :
    1 ≤ slots o f := by
  have hpos : 0 < (Finset.univ.filter fun fd => o fd = some f).card :=
    Finset.card_pos.2 ⟨fd, Finset.mem_filter.2 ⟨Finset.mem_univ _, h⟩⟩
  unfold slots
  omega

theorem total_nonneg {α : Type} {w : α → Int} (ds : List α) (h : ∀ d, 0 ≤ w d) :
    0 ≤ total w ds := by
  induction ds with
  | nil => exact Int.le_refl _
  | cons d ds ih =>
    rw [total_cons]
    exact Int.add_nonneg (h d) ih

omit [DecidableEq G] in
theorem Drop.files_nonneg (d : Drop m l G) : 0 ≤ d.files f := by
  cases d <;> first | exact one_nonneg | exact Int.le_refl _

omit [DecidableEq G] in
theorem State.Local.files_nonneg (h : s.Local p) : 0 ≤ slots (s.ofile p) f + (s.pc p).files f := by
  have hslots := slots_nonneg (o := s.ofile p) (f := f)
  unfold State.Local at h
  cases hpc : s.pc p <;> rw [hpc] at h <;> unfold State.Knows at h <;> simp only [PC.files]
  case filedup g =>
    by_cases hg : g = f
    · subst hg
      rw [one_self]
      have h' : 2 ≤ slots (s.ofile p) g := h
      omega
    · rw [one_of_ne hg]
      omega
  case clearFd fd g =>
    by_cases hg : g = f
    · subst hg
      rw [one_self]
      have h' := slots_pos h.1
      omega
    · rw [one_of_ne hg]
      omega
  all_goals
    have h1 := fun g : Fin m => one_nonneg (a := g) (b := f)
    grind

/-! ## Files in use -/

omit [DecidableEq G] in
theorem State.Local.filesOf_nonneg (h : s.Local p) : 0 ≤ s.filesOf f p := by
  have hlocal := h.files_nonneg (f := f)
  have hdrops := total_nonneg (s.drops p) (w := Drop.files f) Drop.files_nonneg
  unfold State.filesOf
  omega

/-- A process has at most all references to a file. -/
theorem Inv.le_ref (h : Inv s) (p : Fin n) (f : Fin m) : s.filesOf f p ≤ s.ref f := by
  rw [h.books.files f]
  exact Finset.single_le_sum (f := s.filesOf f) (fun q _ => (h.loc q).filesOf_nonneg)
    (Finset.mem_univ p)

/-- Two processes that refer to a file hold a reference each. -/
theorem Inv.two_le (h : Inv s) (hpq : p ≠ q) (hp : 1 ≤ s.filesOf f p) (hq : 1 ≤ s.filesOf f q) :
    2 ≤ s.ref f := by
  have hle := Finset.add_le_sum (f := s.filesOf f) (fun q _ => (h.loc q).filesOf_nonneg)
    (Finset.mem_univ p) (Finset.mem_univ q) hpq
  rw [h.books.files f]
  omega

omit [DecidableEq G] in
theorem filesOf_pos (hp : 1 ≤ (s.pc p).files f) : 1 ≤ s.filesOf f p := by
  have hslots := slots_nonneg (o := s.ofile p) (f := f)
  have hdrops := total_nonneg (s.drops p) (w := Drop.files f) Drop.files_nonneg
  unfold State.filesOf
  omega

/-! ## One step -/

/-- The other processes stay where they are. -/
structure Others (p : Fin n) (s s' : State n m k l G) : Prop where
  ofile : ∀ q, q ≠ p → s'.ofile q = s.ofile q
  cwd : ∀ q, q ≠ p → s'.cwd q = s.cwd q
  drops : ∀ q, q ≠ p → s'.drops q = s.drops q
  pc : ∀ q, q ≠ p → s'.pc q = s.pc q

/-- The counts are right after a step in which one process takes or gives up
as many references as the counts go up or down. -/
theorem Books.change (h : Books s) (ho : Others p s s')
    (hfiles : ∀ f, s'.ref f - s.ref f = s'.filesOf f p - s.filesOf f p)
    (hinodes : ∀ ip, s'.iref ip - s.iref ip =
      (∑ f, (s'.kind f).inode ip - ∑ f, (s.kind f).inode ip) +
        (s'.inodesOf ip p - s.inodesOf ip p))
    (hends : ∀ pi w, one ((s'.pipe pi).isOpen w) true - one ((s.pipe pi).isOpen w) true =
      (∑ f, (s'.kind f).ends pi w - ∑ f, (s.kind f).ends pi w) +
        (s'.endsOf pi w p - s.endsOf pi w p)) : Books s' := by
  refine ⟨fun f => ?_, fun ip => ?_, fun pi w => ?_⟩
  · have hsum := sum_change (s.filesOf f) (s'.filesOf f) p fun q hq => by
      unfold State.filesOf
      rw [ho.ofile q hq, ho.drops q hq, ho.pc q hq]
    have hold := h.files f
    have hdiff := hfiles f
    omega
  · have hsum := sum_change (s.inodesOf ip) (s'.inodesOf ip) p fun q hq => by
      unfold State.inodesOf
      rw [ho.cwd q hq, ho.drops q hq, ho.pc q hq]
    have hold := h.inodes ip
    have hdiff := hinodes ip
    omega
  · have hsum := sum_change (s.endsOf pi w) (s'.endsOf pi w) p fun q hq => by
      unfold State.endsOf
      rw [ho.drops q hq]
    have hold := h.ends pi w
    have hdiff := hends pi w
    omega

omit [DecidableEq G] in
/-- What a process knows stays true while others run. -/
theorem State.Local.other (h : s.Local q) (hpc : s'.pc q = s.pc q) (hofile : s'.ofile q = s.ofile q)
    (hcwd : s'.cwd q = s.cwd q)
    (hfresh : ∀ f, 1 ≤ (s.pc q).files f → s.Fresh f → s'.Fresh f)
    (hmaking : ∀ np i, (s.pc q).child = some np → s.Making np i → s'.Making np i) :
    s'.Local q := by
  unfold State.Local at h ⊢
  rw [hpc]
  cases hq : s.pc q <;> rw [hq] at h hfresh hmaking <;> unfold State.Knows at h ⊢ <;>
    simp only [hofile, hcwd]
  case openFd | pipe1 => exact hfresh _ (Int.le_of_eq one_self.symm) h
  case pipePage rf wf =>
    refine ⟨h.1, hfresh _ ?_ h.2.1, hfresh _ ?_ h.2.2⟩
    · simp [PC.files, one_of_ne h.1.symm]
    · simp [PC.files, one_of_ne h.1]
  case forkMem np | forkLoop np _ | forkCwd np => exact hmaking np _ rfl h
  all_goals exact h

/-- A step of a process in a system call that touches no other process. -/
theorem Inv.own (h : Inv s) (hlive : s.status p = .live) (ho : Others p s s')
    (hstatus : s'.status = s.status) (hbooks : Books s')
    (hfree : ∀ f, s'.ref f = 0 → s'.kind f = .FD_NONE)
    (hpages : ∀ pi, (s'.pipe pi).Paged)
    (hloc : s'.Local p)
    (hchild : ∀ np, (s'.pc p).child = some np → (s.pc p).child = some np)
    (hfresh : ∀ f, s.Fresh f → s'.Fresh f ∨ 1 ≤ s.filesOf f p)
    (hpanic : s'.panic = s.panic) : Inv s' := by
  have hne : ∀ q, s.status q ≠ .live → q ≠ p := by
    rintro q hq rfl
    exact hq hlive
  refine ⟨hbooks, hfree, hpages, fun q => ?_, fun q hq => ?_, fun q hq => ?_,
    fun q r np hq hr => ?_, hpanic ▸ h.panic⟩
  · by_cases hqp : q = p
    · subst hqp
      exact hloc
    · refine (h.loc q).other (ho.pc q hqp) (ho.ofile q hqp) (ho.cwd q hqp) (fun f hf hfr => ?_)
        fun np i _ hm => ?_
      · refine (hfresh f hfr).resolve_right fun hp => ?_
        have htwo := h.two_le hqp (filesOf_pos hf) hp
        rw [hfr.1] at htwo
        exact absurd htwo (by decide)
      · obtain ⟨hst, hcwd, hofile⟩ := hm
        have hnp := hne np (by rw [hst]; nofun)
        refine ⟨hstatus ▸ hst, (ho.cwd np hnp).trans hcwd, ?_⟩
        rw [ho.ofile np hnp]
        exact hofile
  · rw [hstatus] at hq
    rw [ho.pc q (hne q hq), ho.drops q (hne q hq)]
    exact h.idle q hq
  · rw [hstatus] at hq
    have hqp := hne q (by rcases hq with hq | hq <;> rw [hq] <;> nofun)
    rw [ho.cwd q hqp, ho.ofile q hqp]
    exact h.empty q hq
  · refine h.child q r np ?_ ?_
    · by_cases hqp : q = p
      · subst hqp
        exact hchild np hq
      · rwa [ho.pc q hqp] at hq
    · by_cases hrp : r = p
      · subst hrp
        exact hchild np hr
      · rwa [ho.pc r hrp] at hr

end Xv6.OpenFiles
