/-
The counts of the file table, of the inode table and of the pipes, over whole
runs of any number of processes.
-/
import Xv6.FileSteps

namespace Xv6.OpenFiles

open Conc

variable {n m k l : Nat} {G : Type} [DecidableEq G] {s s' : State n m k l G} {p : Fin n}

/-- The loop of `exit`. -/
theorem Inv.closeAll {i : Nat} {c : Choice G} (h : Inv s) (hlive : s.status p = .live)
    (hdrops : s.drops p = []) (hpc : s.pc p = .closeAll i) (hs : s.step p c = some s') :
    Inv s' := by
  have hloc := h.loc p
  unfold State.Local at hloc
  rw [hpc] at hloc
  have hclosed : ∀ fd : Fin k, fd < i → s.ofile p fd = none := hloc
  unfold State.step at hs
  rw [hpc] at hs
  dsimp only at hs
  split at hs
  next hi =>
    split at hs
    next f hf =>
      obtain rfl := Option.some.inj hs
      refine h.stay hlive hdrops (fun g => ?_) (fun ip => ?_) (fun _ _ => rfl)
        ⟨hf, fun fd hfd => hclosed fd hfd⟩ childless
      · rw [hpc]
        simp only [PC.files, Drop.files, total_cons, total_nil]
        omega
      · rw [hpc]
        rfl
    next hf =>
      obtain rfl := Option.some.inj hs
      refine h.stay hlive hdrops (fun g => ?_) (fun ip => ?_) (fun _ _ => rfl) (fun fd hfd => ?_)
        childless
      · rw [hpc]
        rfl
      · rw [hpc]
        rfl
      · by_cases hfd' : fd.val < i
        · exact hclosed fd hfd'
        · obtain rfl : fd = ⟨i, hi⟩ := Fin.ext (by have := fd.2; dsimp only; omega)
          exact hf
  next hi =>
    obtain ⟨ip, hcwd, rfl⟩ := Option.map_eq_some_iff.1 hs
    refine h.stay hlive hdrops (fun g => ?_) (fun jp => ?_) (fun _ _ => rfl)
      ⟨hcwd, fun fd => hclosed fd (by omega)⟩ childless
    · rw [hpc]
      rfl
    · rw [hpc]
      simp only [PC.inodes, Drop.inodes, total_cons, total_nil]
      omega

/-- `filealloc` in `open` -/
theorem Inv.openAlloc {ip : Fin l} {c : Choice G} (h : Inv s) (hlive : s.status p = .live)
    (hdrops : s.drops p = []) (hpc : s.pc p = .openAlloc ip) (hs : s.step p c = some s') :
    Inv s' := by
  unfold State.step at hs
  rw [hpc] at hs
  dsimp only at hs
  split at hs
  next f hf =>
    obtain rfl := Option.some.inj hs
    have hzero := freeFile_eq hf
    refine h.filealloc hlive hdrops hzero (fun g => ?_) (fun jp => ?_) (h.fresh hzero) rfl
    · rw [hpc]
      simp only [PC.files]
      omega
    · rw [hpc]
      rfl
  next =>
    obtain rfl := Option.some.inj hs
    refine h.stay hlive hdrops (fun g => ?_) (fun jp => ?_) (fun _ _ => rfl) trivial childless
    · rw [hpc]
      rfl
    · rw [hpc]
      simp only [PC.inodes, Drop.inodes, total_cons, total_nil]
      omega

/-- `fdalloc` in `open` -/
theorem Inv.openFd_step {ip : Fin l} {f : Fin m} {c : Choice G} (h : Inv s)
    (hlive : s.status p = .live) (hdrops : s.drops p = []) (hpc : s.pc p = .openFd ip f)
    (hs : s.step p c = some s') : Inv s' := by
  unfold State.step at hs
  rw [hpc] at hs
  dsimp only at hs
  split at hs
  next fd hfd =>
    obtain rfl := Option.some.inj hs
    cases c <;> exact h.openFd hlive hdrops hpc hfd (fun _ => rfl) fun _ _ => rfl
  next =>
    obtain rfl := Option.some.inj hs
    refine h.stay hlive hdrops (fun g => ?_) (fun jp => ?_) (fun _ _ => rfl) trivial childless
    · rw [hpc]
      simp only [PC.files, Drop.files, total_cons, total_nil]
      omega
    · rw [hpc]
      simp only [PC.inodes, Drop.inodes, total_cons, total_nil]
      omega

/-- The two calls of `filealloc` in `pipealloc` -/
theorem Inv.pipe0 {c : Choice G} (h : Inv s) (hlive : s.status p = .live)
    (hdrops : s.drops p = []) (hpc : s.pc p = .pipe0) (hs : s.step p c = some s') : Inv s' := by
  unfold State.step at hs
  rw [hpc] at hs
  dsimp only at hs
  split at hs
  next f hf =>
    obtain rfl := Option.some.inj hs
    have hzero := freeFile_eq hf
    refine h.filealloc hlive hdrops hzero (fun g => ?_) (fun jp => ?_) (h.fresh hzero) rfl
    · rw [hpc]
      simp only [PC.files]
      omega
    · rw [hpc]
      rfl
  next =>
    obtain rfl := Option.some.inj hs
    refine h.stay hlive hdrops (fun g => ?_) (fun jp => ?_) (fun _ _ => rfl) trivial childless
    · rw [hpc]
      rfl
    · rw [hpc]
      rfl

theorem Inv.pipe1 {rf : Fin m} {c : Choice G} (h : Inv s) (hlive : s.status p = .live)
    (hdrops : s.drops p = []) (hpc : s.pc p = .pipe1 rf) (hs : s.step p c = some s') : Inv s' := by
  have hloc := h.loc p
  unfold State.Local at hloc
  rw [hpc] at hloc
  unfold State.step at hs
  rw [hpc] at hs
  dsimp only at hs
  split at hs
  next f hf =>
    obtain rfl := Option.some.inj hs
    have hzero := freeFile_eq hf
    have hfresh : s.Fresh rf := hloc
    have hne : rf ≠ f := by
      rintro rfl
      rw [hfresh.1] at hzero
      cases hzero
    refine h.filealloc hlive hdrops hzero (fun g => ?_) (fun jp => ?_)
      ⟨hne, (fresh_setRef hne).2 hfresh, h.fresh hzero⟩ rfl
    · rw [hpc]
      simp only [PC.files]
    · rw [hpc]
      rfl
  next =>
    obtain rfl := Option.some.inj hs
    refine h.stay hlive hdrops (fun g => ?_) (fun jp => ?_) (fun _ _ => rfl) trivial childless
    · rw [hpc]
      simp only [PC.files, Drop.files, total_cons, total_nil]
      omega
    · rw [hpc]
      rfl

/-- `kalloc` in `pipealloc` -/
theorem Inv.pipePage_step {rf wf : Fin m} {c : Choice G} (h : Inv s) (hlive : s.status p = .live)
    (hdrops : s.drops p = []) (hpc : s.pc p = .pipePage rf wf) (hs : s.step p c = some s') :
    Inv s' := by
  unfold State.step at hs
  rw [hpc] at hs
  dsimp only at hs
  split at hs
  next pi =>
    split at hs
    next => cases hs
    next hused =>
      obtain rfl := Option.some.inj hs
      exact h.pipePage hlive hdrops hpc (by simpa using hused)
  next =>
    obtain rfl := Option.some.inj hs
    refine h.stay hlive hdrops (fun g => ?_) (fun jp => ?_) (fun _ _ => rfl) trivial childless
    · rw [hpc]
      simp only [PC.files, Drop.files, total_cons, total_nil]
      omega
    · rw [hpc]
      rfl

/-- The first `fdalloc` in `pipe` -/
theorem Inv.pipeFd0_step {rf wf : Fin m} {c : Choice G} (h : Inv s) (hlive : s.status p = .live)
    (hdrops : s.drops p = []) (hpc : s.pc p = .pipeFd0 rf wf) (hs : s.step p c = some s') :
    Inv s' := by
  unfold State.step at hs
  rw [hpc] at hs
  dsimp only at hs
  split at hs
  next fd0 hfd =>
    obtain rfl := Option.some.inj hs
    exact h.pipeFd0 hlive hdrops hpc hfd
  next =>
    obtain rfl := Option.some.inj hs
    refine h.stay hlive hdrops (fun g => ?_) (fun jp => ?_) (fun _ _ => rfl) trivial childless
    · rw [hpc]
      simp only [PC.files, Drop.files, total_cons, total_nil]
      omega
    · rw [hpc]
      rfl

/-- `copyout` in `pipe` -/
theorem Inv.pipeOut {rf wf : Fin m} {fd0 fd1 : Fin k} {c : Choice G} (h : Inv s)
    (hlive : s.status p = .live) (hdrops : s.drops p = []) (hpc : s.pc p = .pipeOut fd0 fd1 rf wf)
    (hs : s.step p c = some s') : Inv s' := by
  unfold State.step at hs
  rw [hpc] at hs
  dsimp only at hs
  split at hs
  next =>
    obtain rfl := Option.some.inj hs
    refine h.stay hlive hdrops (fun g => ?_) (fun jp => ?_) (fun _ _ => rfl) trivial childless
    · rw [hpc]
      rfl
    · rw [hpc]
      rfl
  next =>
    obtain rfl := Option.some.inj hs
    exact h.pipeFails hlive hdrops hpc

/-- `uvmcopy` in `fork` -/
theorem Inv.forkMem {np : Fin n} {c : Choice G} (h : Inv s) (hlive : s.status p = .live)
    (hdrops : s.drops p = []) (hpc : s.pc p = .forkMem np) (hs : s.step p c = some s') :
    Inv s' := by
  have hloc := h.loc p
  unfold State.Local at hloc
  rw [hpc] at hloc
  unfold State.step at hs
  rw [hpc] at hs
  dsimp only at hs
  split at hs
  next =>
    obtain rfl := Option.some.inj hs
    refine h.stay hlive hdrops (fun g => ?_) (fun jp => ?_) (fun _ _ => rfl) hloc fun np' hnp => ?_
    · rw [hpc]
      rfl
    · rw [hpc]
      rfl
    · rw [hpc]
      exact hnp
  next =>
    obtain rfl := Option.some.inj hs
    exact h.forkFails hlive hdrops hpc

/-- The loop of `fork` -/
theorem Inv.forkLoop {np : Fin n} {i : Nat} {c : Choice G} (h : Inv s) (hlive : s.status p = .live)
    (hdrops : s.drops p = []) (hpc : s.pc p = .forkLoop np i) (hs : s.step p c = some s') :
    Inv s' := by
  have hloc := h.loc p
  unfold State.Local at hloc
  rw [hpc] at hloc
  unfold State.step at hs
  rw [hpc] at hs
  dsimp only at hs
  have hmaking : s.Making np i := hloc
  split at hs
  next hi =>
    split at hs
    next f hf =>
      obtain rfl := Option.some.inj hs
      exact h.forkFd hlive hdrops hpc hf
    next =>
      obtain rfl := Option.some.inj hs
      refine h.stay hlive hdrops (fun g => ?_) (fun jp => ?_) (fun _ _ => rfl)
        ⟨hmaking.1, hmaking.2.1, fun fd hfd => hmaking.2.2 fd (by omega)⟩ fun np' hnp => ?_
      · rw [hpc]
        rfl
      · rw [hpc]
        rfl
      · rw [hpc]
        exact hnp
  next hi =>
    obtain rfl := Option.some.inj hs
    refine h.stay hlive hdrops (fun g => ?_) (fun jp => ?_) (fun _ _ => rfl)
      ⟨hmaking.1, hmaking.2.1, fun fd hfd => absurd fd.2 (by omega)⟩ fun np' hnp => ?_
    · rw [hpc]
      rfl
    · rw [hpc]
      rfl
    · rw [hpc]
      exact hnp

/-- A step of a system call. -/
theorem Inv.step {c : Choice G} (h : Inv s) (hlive : s.status p = .live) (hdrops : s.drops p = [])
    (hs : s.step p c = some s') : Inv s' := by
  have hs₀ := hs
  unfold State.step at hs
  cases hpc : s.pc p <;> rw [hpc] at hs <;> dsimp only at hs
  case user => cases hs
  case filedup f =>
    obtain rfl := Option.some.inj hs
    exact h.filedup hlive hdrops hpc
  case closeAll i => exact h.closeAll hlive hdrops hpc hs₀
  case clearFd fd f =>
    obtain rfl := Option.some.inj hs
    exact h.clearFd hlive hdrops hpc
  case clearCwd ip =>
    obtain rfl := Option.some.inj hs
    exact h.clearCwd hlive hdrops hpc
  case exited =>
    obtain rfl := Option.some.inj hs
    exact h.exited hlive hdrops hpc
  case lookup goal => exact h.lookup hlive hdrops hpc hs₀
  case namex ip goal => exact h.namex hlive hdrops hpc hs₀
  case found ip goal => exact h.found hlive hdrops hpc hs₀
  case dirlink dp ip keep => exact h.dirlink hlive hdrops hpc hs₀
  case setCwd old ip =>
    obtain rfl := Option.some.inj hs
    exact h.setCwd hlive hdrops hpc
  case openAlloc ip => exact h.openAlloc hlive hdrops hpc hs₀
  case openFd ip f => exact h.openFd_step hlive hdrops hpc hs₀
  case pipe0 => exact h.pipe0 hlive hdrops hpc hs₀
  case pipe1 rf => exact h.pipe1 hlive hdrops hpc hs₀
  case pipePage rf wf => exact h.pipePage_step hlive hdrops hpc hs₀
  case pipeFd0 rf wf => exact h.pipeFd0_step hlive hdrops hpc hs₀
  case pipeFd1 fd0 rf wf => exact h.pipeFd1 hlive hdrops hpc hs₀
  case pipeOut fd0 fd1 rf wf => exact h.pipeOut hlive hdrops hpc hs₀
  case forkMem np => exact h.forkMem hlive hdrops hpc hs₀
  case forkLoop np i => exact h.forkLoop hlive hdrops hpc hs₀
  case forkCwd np =>
    obtain ⟨ip, hcwd, rfl⟩ := Option.map_eq_some_iff.1 hs
    exact h.forkCwd hlive hdrops hpc

omit [DecidableEq G] in
theorem idle_iff : s.Idle p ↔ s.status p = .live ∧ s.drops p = [] ∧ s.pc p = .user := by
  unfold State.Idle
  rw [List.isEmpty_iff]
  cases s.pc p <;> simp

theorem Inv.begin {pc : PC n m k l} (h : Inv s) (hi : s.Idle p)
    (hfiles : ∀ f, pc.files f = 0) (hinodes : ∀ ip, pc.inodes ip = 0) (hloc : s.Knows p pc)
    (hchild : pc.child = none) : Inv (s.goto p [] pc) := by
  obtain ⟨hlive, hdrops, hpc⟩ := idle_iff.1 hi
  refine h.stay hlive hdrops (fun f => ?_) (fun ip => ?_) (fun _ _ => rfl) hloc fun np hnp => ?_
  · rw [hpc, hfiles]
    rfl
  · rw [hpc, hinodes]
    rfl
  · rw [hchild] at hnp
    cases hnp

/-- Every event keeps the counts. -/
theorem Inv.next {e : Event n k l G} (h : Inv s) (hs : s.next e = some s') : Inv s' := by
  unfold State.next at hs
  split at hs
  next => cases hs
  split at hs
  next p c =>
    have hlive : s.drops p ≠ [] ∨ s.pc p ≠ .user → s.status p = .live := fun hor =>
      Classical.byContradiction fun hst =>
        hor.elim (fun hd => hd (h.idle p hst).2) fun hp => hp (h.idle p hst).1
    split at hs
    next d ds hdrops =>
      obtain rfl := Option.some.inj hs
      exact h.drop (hlive (.inl (by rw [hdrops]; simp))) hdrops
    next hdrops =>
      refine h.step (hlive (.inr fun hpc => ?_)) hdrops hs
      unfold State.step at hs
      rw [hpc] at hs
      cases hs
  next p fd =>
    split at hs
    next hi =>
      obtain ⟨hlive, hdrops, hpc⟩ := idle_iff.1 hi
      split at hs
      next f fd' hf hfree =>
        obtain rfl := Option.some.inj hs
        exact h.dup hlive hdrops hpc hf hfree
      next => cases hs
    next => cases hs
  next p fd =>
    split at hs
    next hi =>
      obtain ⟨hlive, hdrops, hpc⟩ := idle_iff.1 hi
      obtain ⟨f, hf, rfl⟩ := Option.map_eq_some_iff.1 hs
      exact h.close hlive hdrops hpc hf
    next => cases hs
  next p goal =>
    split at hs
    next => cases hs
    next => cases hs
    next hgoal htaken =>
      split at hs
      next hi =>
        obtain rfl := Option.some.inj hs
        refine h.begin hi (fun _ => rfl) (fun ip => ?_) trivial rfl
        cases goal with
        | linkTo ip => exact absurd rfl (hgoal ip)
        | taken => exact absurd rfl htaken
        | _ => rfl
      next => cases hs
  next p =>
    split at hs
    next hi =>
      obtain rfl := Option.some.inj hs
      exact h.begin hi (fun _ => rfl) (fun _ => rfl) trivial rfl
    next => cases hs
  next p np =>
    split at hs
    next hc =>
      obtain ⟨hlive, hdrops, hpc⟩ := idle_iff.1 hc.1
      obtain rfl := Option.some.inj hs
      exact h.fork hlive hdrops hpc hc.2
    next => cases hs
  next p =>
    split at hs
    next hi =>
      obtain rfl := Option.some.inj hs
      exact h.begin hi (fun _ => rfl) (fun _ => rfl) (fun fd hfd => absurd hfd (Nat.not_lt_zero _))
        rfl
    next => cases hs
  next p =>
    split at hs
    next hz =>
      obtain rfl := Option.some.inj hs
      exact h.reap hz
    next => cases hs

/-! ## Runs -/

omit [DecidableEq G] in
theorem slots_empty (f : Fin m) : slots (fun _ : Fin k => none) f = 0 := by
  simp [slots]

theorem Inv.init (initproc : Fin n) (root : Fin l) :
    Inv (start initproc root : State n m k l G) := by
  refine ⟨⟨fun f => ?_, fun ip => ?_, fun pi w => ?_⟩, fun _ _ => rfl, fun _ => rfl,
    fun _ => trivial, fun _ _ => ⟨rfl, rfl⟩, fun p hp => ⟨?_, fun _ => rfl⟩, fun _ _ => childless,
    .inl rfl⟩
  · exact (Finset.sum_eq_zero fun p _ => by
      simp only [State.filesOf, start, slots_empty, total_nil, PC.files]
      rfl).symm
  · have hkinds : ∑ f : Fin m, ((start initproc root : State n m k l G).kind f).inode ip = 0 :=
      Finset.sum_eq_zero fun _ _ => rfl
    have hprocs := sum_change (fun _ => 0)
      ((start initproc root : State n m k l G).inodesOf ip) initproc fun p hp => by
        simp only [State.inodesOf, start, total_nil, PC.inodes]
        rw [Function.update_of_ne hp, one_none]
        rfl
    rw [hkinds, hprocs]
    simp only [State.inodesOf, start, total_nil, PC.inodes, Function.update_self, one_some,
      Finset.sum_const_zero]
    rw [update_inc (r := fun _ => 0) (x := 1) (Int.zero_add 1).symm]
    omega
  · have hkinds : ∑ f : Fin m, ((start initproc root : State n m k l G).kind f).ends pi w = 0 :=
      Finset.sum_eq_zero fun _ _ => rfl
    have hprocs : ∑ p, (start initproc root : State n m k l G).endsOf pi w p = 0 :=
      Finset.sum_eq_zero fun _ _ => rfl
    rw [hkinds, hprocs]
    cases w <;> exact one_of_ne Bool.false_ne_true
  · change Function.update (fun _ => none) initproc (some root) p = none
    refine Function.update_of_ne ?_ ..
    rintro rfl
    have hlive : (start p root : State n m k l G).status p = .live := by
      simp only [start, Function.update_self]
    rw [hlive] at hp
    rcases hp with hp | hp <;> cases hp

theorem Inv.reachable {initproc : Fin n} {root : Fin l}
    (h : (machine initproc root).Reachable s) : Inv s :=
  h.invariant (I := Inv) (fun _ hs => hs ▸ .init initproc root) fun _ _ _ hi hn => hi.next hn

/-- No process is in a system call. -/
def Quiet (s : State n m k l G) : Prop := ∀ p, s.drops p = [] ∧ s.pc p = .user

/-- A file refers to an inode. -/
theorem inode_eq (x : Kind l G) (ip : Fin l) :
    x.inode ip = if x = .FD_INODE ip ∨ x = .FD_DEVICE ip then 1 else 0 := by
  cases x <;> simp [Kind.inode, one]

theorem ends_eq (x : Kind l G) (pi : G) (w : Bool) :
    x.ends pi w = if x = .FD_PIPE pi w then 1 else 0 := by
  cases x <;> simp [Kind.ends, one]

omit [DecidableEq G] in
/-- The descriptors of all processes that refer to a file. -/
theorem sum_slots (s : State n m k l G) (f : Fin m) : ∑ p, slots (s.ofile p) f =
    ((Finset.univ.filter fun x : Fin n × Fin k => s.ofile x.1 x.2 = some f).card : Nat) := by
  simp only [slots, Finset.card_filter]
  rw [Fintype.sum_prod_type]
  push_cast
  rfl

/-- In every reachable state no use of a closed file panics, and each pipe has
been freed as often as it has been allocated, but once less while one of its
ends is open. While no system call is in progress, the reference count of a
file is the number of descriptors that refer to it, that of an inode the
number of open files on it and of processes in it, and an end of a pipe is
open if and only if its one file is. -/
theorem file_counts {initproc : Fin n} {root : Fin l} (h : (machine initproc root).Reachable s) :
    (s.panic ≠ some "filedup" ∧ s.panic ≠ some "fileclose") ∧
    (∀ pi, (s.pipe pi).allocs =
      (s.pipe pi).frees + if (s.pipe pi).readopen || (s.pipe pi).writeopen then 1 else 0) ∧
    (Quiet s →
      (∀ f, s.ref f =
        ((Finset.univ.filter fun x : Fin n × Fin k => s.ofile x.1 x.2 = some f).card : Nat)) ∧
      (∀ f, s.ref f = 0 → s.kind f = .FD_NONE) ∧
      (∀ p fd f, s.ofile p fd = some f → 0 < s.ref f) ∧
      (∀ ip, s.iref ip =
        ((Finset.univ.filter fun f => 0 < s.ref f ∧
          (s.kind f = .FD_INODE ip ∨ s.kind f = .FD_DEVICE ip)).card : Nat) +
        ((Finset.univ.filter fun p => s.cwd p = some ip).card : Nat)) ∧
      (∀ pi w, (s.pipe pi).isOpen w = true ↔ ∃ f, 0 < s.ref f ∧ s.kind f = .FD_PIPE pi w) ∧
      ∀ pi w f g, s.kind f = .FD_PIPE pi w → s.kind g = .FD_PIPE pi w → f = g) := by
  have hi := Inv.reachable h
  refine ⟨⟨fun hp => ?_, fun hp => ?_⟩, hi.pages, fun hq => ?_⟩
  · rcases hi.panic with hn | hn | hn <;> rw [hn] at hp <;> simp at hp
  · rcases hi.panic with hn | hn | hn <;> rw [hn] at hp <;> simp at hp
  have hslots : ∀ f, s.ref f = ∑ p, slots (s.ofile p) f := fun f => by
    rw [hi.books.files f]
    refine Finset.sum_congr rfl fun p _ => ?_
    rw [State.filesOf, (hq p).1, (hq p).2]
    simp only [total_nil, PC.files]
    omega
  have hnonneg : ∀ f, 0 ≤ s.ref f := fun f => by
    rw [hslots f]
    exact Finset.sum_nonneg fun _ _ => slots_nonneg
  have hopen : ∀ f, s.kind f ≠ .FD_NONE → 0 < s.ref f := fun f hk =>
    lt_of_le_of_ne (hnonneg f) fun hz => hk (hi.free f hz.symm)
  have hends : ∀ pi w, one ((s.pipe pi).isOpen w) true =
      ((Finset.univ.filter fun f => s.kind f = .FD_PIPE pi w).card : Nat) := fun pi w => by
    have hprocs : ∑ p, s.endsOf pi w p = 0 := Finset.sum_eq_zero fun p _ => by
      rw [State.endsOf, (hq p).1, total_nil]
    rw [hi.books.ends pi w, hprocs, Int.add_zero, Finset.card_filter]
    push_cast
    exact Finset.sum_congr rfl fun f _ => ends_eq ..
  refine ⟨fun f => (hslots f).trans (sum_slots s f), hi.free, fun p fd f hf => ?_, fun ip => ?_,
    fun pi w => ⟨fun ho => ?_, fun hw => ?_⟩, fun pi w f g hf hg => ?_⟩
  · have hle := Finset.single_le_sum (f := fun p => slots (s.ofile p) f)
      (fun _ _ => slots_nonneg) (Finset.mem_univ p)
    have hpos := slots_pos hf
    rw [hslots f]
    exact Int.lt_of_lt_of_le (Int.lt_of_lt_of_le Int.zero_lt_one hpos) hle
  · have hfiles : ∑ f, (s.kind f).inode ip = ((Finset.univ.filter fun f => 0 < s.ref f ∧
        (s.kind f = .FD_INODE ip ∨ s.kind f = .FD_DEVICE ip)).card : Nat) := by
      rw [Finset.card_filter]
      push_cast
      refine Finset.sum_congr rfl fun f _ => ?_
      rw [inode_eq]
      refine if_congr ⟨fun hk => ⟨hopen f ?_, hk⟩, fun hk => hk.2⟩ rfl rfl
      rcases hk with hk | hk <;> rw [hk] <;> simp
    have hprocs : ∑ p, s.inodesOf ip p =
        ((Finset.univ.filter fun p => s.cwd p = some ip).card : Nat) := by
      rw [Finset.card_filter]
      push_cast
      refine Finset.sum_congr rfl fun p _ => ?_
      rw [State.inodesOf, (hq p).1, (hq p).2]
      simp only [total_nil, PC.inodes, one]
      omega
    rw [hi.books.inodes ip, hfiles, hprocs]
  · have hcard := hends pi w
    rw [ho, one_self] at hcard
    obtain ⟨f, hf⟩ := Finset.card_pos.1 (by omega :
      0 < (Finset.univ.filter fun f => s.kind f = .FD_PIPE pi w).card)
    have hk := (Finset.mem_filter.1 hf).2
    exact ⟨f, hopen f (by rw [hk]; simp), hk⟩
  · obtain ⟨f, -, hf⟩ := hw
    have hpos : 0 < (Finset.univ.filter fun f => s.kind f = .FD_PIPE pi w).card :=
      Finset.card_pos.2 ⟨f, Finset.mem_filter.2 ⟨Finset.mem_univ _, hf⟩⟩
    by_contra hclosed
    have hcard := hends pi w
    rw [one_of_ne hclosed] at hcard
    omega
  · have hcard : (Finset.univ.filter fun f => s.kind f = .FD_PIPE pi w).card ≤ 1 := by
      have hle : one ((s.pipe pi).isOpen w) true ≤ 1 := by
        unfold one
        split <;> decide
      rw [hends pi w] at hle
      omega
    exact Finset.card_le_one.1 hcard f (Finset.mem_filter.2 ⟨Finset.mem_univ _, hf⟩) g
      (Finset.mem_filter.2 ⟨Finset.mem_univ _, hg⟩)

/-- A pipe is made, the process forks, and the child closes its read end. -/
theorem file_counts_pipe : ∃ s : State 2 2 3 1 Unit, (machine 0 0).Reachable s ∧ Quiet s ∧
    s.ref 0 = 1 ∧ s.ref 1 = 2 ∧
    (Finset.univ.filter fun x : Fin 2 × Fin 3 => s.ofile x.1 x.2 = some 1).card = 2 := by
  let es : List (Event 2 3 1 Unit) := [.pipe 0, .go 0 .ok, .go 0 .ok, .go 0 (.page ()), .go 0 .ok,
    .go 0 .ok, .go 0 .ok, .fork 0 1, .go 0 .ok, .go 0 .ok, .go 0 .ok, .go 0 .ok, .go 0 .ok,
    .go 0 .ok, .close 1 0, .go 1 .ok]
  obtain ⟨s, hs, hidle, href⟩ : ∃ s : State 2 2 3 1 Unit,
      (machine 0 0).exec (start 0 0) es = some s ∧ (∀ p, s.Idle p) ∧ s.ref 0 = 1 ∧ s.ref 1 = 2 :=
    ⟨_, rfl, by decide⟩
  have hr : (machine 0 0).Reachable s := ⟨start 0 0, es, rfl, hs⟩
  have hq : Quiet s := fun p => (idle_iff.1 (hidle p)).2
  refine ⟨s, hr, hq, href.1, href.2, ?_⟩
  have hcount := ((file_counts hr).2.2 hq).1 1
  omega

end Xv6.OpenFiles
