/-
sysfile.c and pipe.c: `sys_pipe` by a process that runs alone, with an
allocator that may return 0.

It takes two files, a page, two descriptors and two writes to user memory, in
this order. `Opened` is the state from the page on; closing the two files leads
back from there.
-/
import Xv6.PsCall
import Xv6.Lend

namespace Xv6

open Conc Prog

section

variable [KernelImage]

/-- No pipe has been opened: the descriptors of process `t`, the reference
counts and types of the files and the free pages are those of `b`. -/
structure Kernel.Unopened (b s : Kernel) (t : Slot) : Prop where
  ofile : (s.proc t).ofile = (b.proc t).ofile
  ref : ∀ i, (s.file i).ref = (b.file i).ref
  type : ∀ i, (s.file i).type = (b.file i).type
  free : s.freelist = b.freelist

/-- Files `rf` and `wf`, free in `b`, are the two ends of an open pipe in page
`pi`, free in `b`. -/
structure Kernel.Opened (b s : Kernel) (rf wf : Nat) (pi : Frame) : Prop where
  alloc : s.Allocator
  free : b.freelist = pi :: s.freelist
  ne : rf ≠ wf
  lt : rf < NFILE ∧ wf < NFILE
  unused : (b.file rf).ref = 0 ∧ (b.file wf).ref = 0
  reads : s.file rf = { type := .FD_PIPE, ref := 1, readable := true, writable := false, pipe := pi }
  writes : s.file wf = { type := .FD_PIPE, ref := 1, readable := false, writable := true, pipe := pi }
  others : ∀ i, i ≠ rf → i ≠ wf → s.file i = b.file i
  pipe : s.pipe pi = { readopen := true, writeopen := true }

variable {b s s' : Kernel} {ka : Kalloc} {t : Slot} {r pi : Frame} {rf wf : Nat}
  {lbl : Frame → Option (Frame × Node)}

theorem Kernel.Opened.congr (h : b.Opened s rf wf pi) (ha : s'.Allocator)
    (hfree : s'.freelist = s.freelist) (hfile : s'.file = s.file) (hpipe : s'.pipe = s.pipe) :
    b.Opened s' rf wf pi where
  alloc := ha
  free := hfree ▸ h.free
  ne := h.ne
  lt := h.lt
  unused := h.unused
  reads := hfile ▸ h.reads
  writes := hfile ▸ h.writes
  others := hfile ▸ h.others
  pipe := hpipe ▸ h.pipe

/-! ## Closing -/

/-- A file that `filealloc` has just taken is given back. -/
theorem fileclose_fresh {i : Nat} (href : (s.file i).ref = 1) (htype : (s.file i).type = .FD_NONE) :
    (fileclose i).run s =
      .ok () (s.updFile i fun f => { f with ref := 0, type := .FD_NONE }) := by
  have hclose : s.closeFile i =
      .ok (some (s.file i)) (s.updFile i fun f => { f with ref := 0, type := .FD_NONE }) := by
    simp [Kernel.closeFile, href]
  simp only [fileclose, run_bind, run_atom, hclose, htype]
  rfl

/-- The end of a pipe is closed. -/
theorem fileclose_end {i : Nat} (href : (s.file i).ref = 1) (htype : (s.file i).type = .FD_PIPE) :
    (fileclose i).run s = (pipeclose (s.file i).pipe (s.file i).writable).run
      (s.updFile i fun f => { f with ref := 0, type := .FD_NONE }) := by
  have hclose : s.closeFile i =
      .ok (some (s.file i)) (s.updFile i fun f => { f with ref := 0, type := .FD_NONE }) := by
    simp [Kernel.closeFile, href]
  simp only [fileclose, run_bind, run_atom, hclose, htype, if_true]

/-- Both ends are closed, and the page of the pipe is free again. -/
theorem Kernel.Opened.close (h : b.Opened s rf wf pi) (hb : b.Allocator)
    (hnone : ∀ i, (b.file i).ref = 0 → (b.file i).type = .FD_NONE) :
    ∃ u v, (fileclose rf).run s = .ok () u ∧ (fileclose wf).run u = .ok () v ∧
      v.proc = s.proc ∧ (∀ i, (v.file i).ref = (b.file i).ref) ∧
      (∀ i, (v.file i).type = (b.file i).type) ∧ v.freelist = b.freelist := by
  have hnodup := hb.nodup
  rw [h.free] at hnodup
  have hmanaged : managed pi := hb.managed pi (by rw [h.free]; exact List.mem_cons_self)
  have hfirst : (fileclose rf).run s = .ok ()
      (((s.updFile rf fun f => { f with ref := 0, type := .FD_NONE }).closeEnd pi false).2) := by
    rw [fileclose_end (by rw [h.reads]) (by rw [h.reads]), h.reads]
    simp only [pipeclose, run_bind, run_atom]
    have hlast : ((s.updFile rf fun f => { f with ref := 0, type := .FD_NONE }).closeEnd pi
        false).1 = false := by
      simp [Kernel.closeEnd, Kernel.updFile, h.pipe]
    rw [hlast]
    rfl
  obtain ⟨u, hu⟩ : ∃ u, u = ((s.updFile rf fun f =>
    { f with ref := 0, type := .FD_NONE }).closeEnd pi false).2 := ⟨_, rfl⟩
  have hwf : u.file wf = s.file wf := by
    rw [hu]
    exact Function.update_of_ne h.ne.symm ..
  have hpipe : u.pipe pi = { readopen := false, writeopen := true } := by
    rw [hu]
    simp [Kernel.closeEnd, Kernel.updFile, h.pipe]
  obtain ⟨w, hw⟩ : ∃ w, w = ((u.updFile wf fun f =>
    { f with ref := 0, type := .FD_NONE }).closeEnd pi true).2 := ⟨_, rfl⟩
  have hwfree : w.freelist = s.freelist := by rw [hw, hu]; rfl
  have hwa : w.Allocator := h.alloc.congr hwfree (by rw [hw, hu]; rfl) (by rw [hw, hu]; rfl)
  have hkfree := (hwa.kfree hmanaged (by rw [hwfree]; exact (List.nodup_cons.1 hnodup).1)).1
  have hsecond : (fileclose wf).run u = .ok () ((w.fill pi 1).push pi) := by
    rw [fileclose_end (by rw [hwf, h.writes]) (by rw [hwf, h.writes]), hwf, h.writes]
    simp only [pipeclose, run_bind, run_atom]
    have hlast : ((u.updFile wf fun f => { f with ref := 0, type := .FD_NONE }).closeEnd pi
        true).1 = true := by
      simp [Kernel.closeEnd, Kernel.updFile, hpipe]
    rw [hlast, if_pos rfl, ← hw]
    exact hkfree
  have hfile : ∀ i, w.file i = if i = wf ∨ i = rf then
      { s.file i with ref := 0, type := .FD_NONE } else s.file i := by
    intro i
    rw [hw]
    show Function.update u.file wf _ i = _
    by_cases hi : i = wf
    · subst hi
      rw [Function.update_self, hwf, if_pos (.inl rfl)]
    · rw [Function.update_of_ne hi, hu]
      show Function.update s.file rf _ i = _
      by_cases hi' : i = rf
      · subst hi'
        rw [Function.update_self, if_pos (.inr rfl)]
      · rw [Function.update_of_ne hi', if_neg (not_or.2 ⟨hi, hi'⟩)]
  refine ⟨u, (w.fill pi 1).push pi, hu ▸ hfirst, hsecond, by rw [hw, hu]; rfl, fun i => ?_,
    fun i => ?_, ?_⟩
  · show (w.file i).ref = _
    rw [hfile]
    split
    next hi => rcases hi with rfl | rfl <;> simp [h.unused]
    next hi => rw [h.others i (not_or.1 hi).2 (not_or.1 hi).1]
  · show (w.file i).type = _
    rw [hfile]
    split
    next hi => rcases hi with rfl | rfl <;> simp [hnone _ h.unused.1, hnone _ h.unused.2]
    next hi => rw [h.others i (not_or.1 hi).2 (not_or.1 hi).1]
  · show pi :: w.freelist = _
    rw [hwfree, h.free]

/-! ## pipealloc -/

omit [KernelImage] in
theorem filealloc_run (s : Kernel) :
    ((filealloc.run s = .ok none s) ∨ ∃ i < NFILE, (s.file i).ref = 0 ∧
      filealloc.run s = .ok (some i) (s.updFile i fun f => { f with ref := 1 })) := by
  rw [filealloc, run_atom]
  cases hf : (List.range NFILE).find? fun i => (s.file i).ref = 0 with
  | none => exact .inl rfl
  | some i =>
    refine .inr ⟨i, ?_, ?_, rfl⟩
    · simpa using List.mem_of_find?_eq_some hf
    · simpa using List.find?_some hf

/-- Files `rf` and `wf`, free in `b`, have been taken, and nothing else. -/
structure Kernel.Took (b s : Kernel) (rf wf : Nat) : Prop where
  alloc : s.Allocator
  ne : rf ≠ wf
  lt : rf < NFILE ∧ wf < NFILE
  unused : (b.file rf).ref = 0 ∧ (b.file wf).ref = 0
  first : s.file rf = { b.file rf with ref := 1 }
  second : s.file wf = { b.file wf with ref := 1 }
  others : ∀ i, i ≠ rf → i ≠ wf → s.file i = b.file i
  free : s.freelist = b.freelist
  proc : s.proc = b.proc
  pte : s.pte = b.pte

/-- Two calls of `filealloc` that find a file each. -/
theorem Kernel.Took.of_alloc (ha : s.Allocator) (hlt : rf < NFILE ∧ wf < NFILE)
    (hz : (s.file rf).ref = 0)
    (hz' : ((s.updFile rf fun f => { f with ref := 1 }).file wf).ref = 0) :
    s.Took ((s.updFile rf fun f => { f with ref := 1 }).updFile wf fun f => { f with ref := 1 })
      rf wf := by
  change (Function.update s.file rf { s.file rf with ref := 1 } wf).ref = 0 at hz'
  have hne : wf ≠ rf := by
    intro he
    rw [he, Function.update_self] at hz'
    cases hz'
  have hfile : ((s.updFile rf fun f => { f with ref := 1 }).updFile wf fun f =>
      { f with ref := 1 }).file = Function.update (Function.update s.file rf
        { s.file rf with ref := 1 }) wf { s.file wf with ref := 1 } := by
    have hsame : Function.update s.file rf { s.file rf with ref := 1 } wf = s.file wf :=
      Function.update_of_ne hne ..
    rw [← hsame]
    rfl
  rw [Function.update_of_ne hne] at hz'
  refine ⟨ha.congr rfl rfl rfl, hne.symm, hlt, ⟨hz, hz'⟩, ?_, ?_, fun i hi hi' => ?_, rfl, rfl, rfl⟩
  · rw [hfile, Function.update_of_ne hne.symm, Function.update_self]
  · rw [hfile, Function.update_self]
  · rw [hfile, Function.update_of_ne hi', Function.update_of_ne hi]

omit [KernelImage] in
/-- A file that was free is free again: its count and type are as before. -/
theorem freed_file (hz : (b.file rf).ref = 0) (htype : (b.file rf).type = .FD_NONE)
    (hothers : ∀ i, i ≠ rf → (s.file i).ref = (b.file i).ref ∧ (s.file i).type = (b.file i).type)
    (i : Nat) :
    ((s.updFile rf fun f => { f with ref := 0, type := .FD_NONE }).file i).ref = (b.file i).ref ∧
      ((s.updFile rf fun f => { f with ref := 0, type := .FD_NONE }).file i).type =
        (b.file i).type := by
  show (Function.update s.file rf _ i).ref = _ ∧ (Function.update s.file rf _ i).type = _
  by_cases hi : i = rf
  · rw [hi, Function.update_self]
    exact ⟨hz.symm, htype.symm⟩
  · rw [Function.update_of_ne hi]
    exact hothers i hi

/-- The files are given back when there is no page for the pipe. -/
theorem Kernel.Took.giveBack (h : b.Took s rf wf)
    (hnone : ∀ i, (b.file i).ref = 0 → (b.file i).type = .FD_NONE) (t : Slot) :
    ∃ v, (do fileclose rf; fileclose wf; return none : Prog Kernel (Option (Nat × Nat))).run s =
      .ok none v ∧ v.proc = b.proc ∧ b.Unopened v t := by
  have htype := hnone rf h.unused.1
  have htype' := hnone wf h.unused.2
  have hfirst := fileclose_fresh (s := s) (i := rf) (by rw [h.first]) (by rw [h.first, htype])
  obtain ⟨s₁, hs₁⟩ : ∃ s₁, s₁ = s.updFile rf fun f => { f with ref := 0, type := .FD_NONE } :=
    ⟨_, rfl⟩
  rw [← hs₁] at hfirst
  have hwf : s₁.file wf = { b.file wf with ref := 1 } := by
    rw [hs₁, ← h.second]
    exact Function.update_of_ne h.ne.symm ..
  have hsecond := fileclose_fresh (s := s₁) (i := wf) (by rw [hwf]) (by rw [hwf, htype'])
  have hfile := @freed_file b s₁ wf h.unused.2 htype' fun i hi => by
    by_cases hi' : i = rf
    · subst hi'
      rw [hs₁]
      simp [Kernel.updFile, h.unused.1, htype]
    · rw [hs₁, ← h.others i hi' hi]
      simp [Kernel.updFile, hi']
  refine ⟨_, ?_, ?_, ?_, fun i => (hfile i).1, fun i => (hfile i).2, ?_⟩
  · simp only [run_bind, hfirst, hsecond]
    rfl
  · rw [← h.proc, hs₁]
    rfl
  · rw [← h.proc, hs₁]
    rfl
  · rw [← h.free, hs₁]
    rfl

/-- With a page, the files become the two ends of a pipe in it. -/
theorem Kernel.Took.opens (h : b.Took s rf wf) {rest : List Frame}
    (hl : s.freelist = pi :: rest) : b.Opened ((s.alloc pi rest).initPipe pi rf wf) rf wf pi := by
  have hfile : ((s.alloc pi rest).initPipe pi rf wf).file = Function.update
      (Function.update s.file rf { s.file rf with
        type := .FD_PIPE, readable := true, writable := false, pipe := pi }) wf
      { s.file wf with type := .FD_PIPE, readable := false, writable := true, pipe := pi } := by
    have hsame : Function.update s.file rf { s.file rf with
        type := .FD_PIPE, readable := true, writable := false, pipe := pi } wf =
        s.file wf := Function.update_of_ne h.ne.symm ..
    rw [← hsame]
    rfl
  refine ⟨(h.alloc.kalloc hl).2.congr rfl rfl rfl, h.free ▸ hl, h.ne, h.lt, h.unused,
    ?_, ?_, fun i hi hi' => ?_, ?_⟩
  · rw [hfile, Function.update_of_ne h.ne, Function.update_self, h.first]
  · rw [hfile, Function.update_self, h.second]
  · rw [hfile, Function.update_of_ne hi', Function.update_of_ne hi, h.others i hi hi']
  · show Function.update (s.alloc pi rest).pipe pi _ pi = _
    rw [Function.update_self]

/-- `pipealloc` opens a pipe, or does nothing. -/
theorem pipealloc_run (ha : s.Allocator) (hka : Promised ka)
    (hnone : ∀ i, (s.file i).ref = 0 → (s.file i).type = .FD_NONE) (t : Slot) :
    ∃ res s', (pipealloc ka).run s = .ok res s' ∧ s'.proc = s.proc ∧
      ((res = none ∧ s.Unopened s' t) ∨ ∃ rf wf pi, res = some (rf, wf) ∧
        s.Opened s' rf wf pi ∧ s'.pte = Function.update s.pte pi (fun _ => Pte.ofFill 5)) := by
  unfold pipealloc
  rcases filealloc_run s with hf | ⟨rf, hrf, hz, hf⟩
  · refine ⟨none, s, ?_, rfl, .inl ⟨rfl, rfl, fun _ => rfl, fun _ => rfl, rfl⟩⟩
    simp only [run_bind, hf]
    rfl
  rcases filealloc_run (s.updFile rf fun f => { f with ref := 1 }) with hf' | ⟨wf, hwf, hz', hf'⟩
  · -- only one file is free
    obtain ⟨s₁, hs₁⟩ : ∃ s₁, s₁ = s.updFile rf fun f => { f with ref := 1 } := ⟨_, rfl⟩
    rw [← hs₁] at hf hf'
    have hrf₁ : s₁.file rf = { s.file rf with ref := 1 } := by
      rw [hs₁]
      exact Function.update_self ..
    have hclose := fileclose_fresh (i := rf) (by rw [hrf₁]) (by rw [hrf₁]; exact hnone rf hz)
    have hfile := @freed_file s s₁ rf hz (hnone rf hz) fun i hi => by
      rw [hs₁]
      simp [Kernel.updFile, hi]
    refine ⟨none, s₁.updFile rf fun f => { f with ref := 0, type := .FD_NONE }, ?_,
      by rw [hs₁]; rfl, .inl ⟨rfl, by rw [hs₁]; rfl, fun i => (hfile i).1, fun i => (hfile i).2,
        by rw [hs₁]; rfl⟩⟩
    simp only [run_bind, hf, hf', hclose]
    rfl
  have htook := Kernel.Took.of_alloc ha ⟨hrf, hwf⟩ hz hz'
  obtain ⟨s₂, hs₂⟩ : ∃ s₂, s₂ = (s.updFile rf fun f => { f with ref := 1 }).updFile wf fun f =>
    { f with ref := 1 } := ⟨_, rfl⟩
  rw [← hs₂] at hf' htook
  rcases hka s₂ htook.alloc with hk | ⟨pi, rest, hl, hk⟩
  · have htook₃ : s.Took { s₂ with nulls := s₂.nulls + 1 } rf wf :=
      { htook with alloc := htook.alloc.congr rfl rfl rfl }
    obtain ⟨v, hv, hproc, hun⟩ := htook₃.giveBack hnone t
    refine ⟨none, v, ?_, hproc, .inl ⟨rfl, hun⟩⟩
    simp only [run_bind, hf, hf', hk] at hv ⊢
    exact hv
  · refine ⟨some (rf, wf), (s₂.alloc pi rest).initPipe pi rf wf, ?_, ?_,
      .inr ⟨rf, wf, pi, rfl, htook.opens hl, ?_⟩⟩
    · simp only [run_bind, hf, hf', hk]
      rfl
    · rw [← htook.proc]
      rfl
    · rw [← htook.pte]
      rfl

/-! ## sys_pipe -/

/-- The call has made two descriptors, the read and the write end of one fresh
open pipe, and stored their numbers. -/
structure Kernel.Piped (b s : Kernel) (t : Slot) (r : Frame) (fdarray : Nat) (fd0 fd1 : Fin NOFILE)
    (rf wf : Nat) (pi : Frame) : Prop where
  opened : b.Opened s rf wf pi
  ne : fd0 ≠ fd1
  unused : (b.proc t).ofile fd0 = none ∧ (b.proc t).ofile fd1 = none
  ofile : (s.proc t).ofile =
    Function.update (Function.update (b.proc t).ofile fd0 (some rf)) fd1 (some wf)
  stored : s.Holds r fdarray (intBytes fd0.val ++ intBytes fd1.val)

omit [KernelImage] in
theorem updProc_ofile (s : Kernel) (t : Slot) (fd : Fin NOFILE) (x : Option Nat) :
    ((s.updProc t fun p => { p with ofile := Function.update p.ofile fd x }).proc t).ofile =
      Function.update (s.proc t).ofile fd x := by
  simp [Kernel.updProc]

omit [KernelImage] in
theorem fdalloc_run (s : Kernel) (t : Slot) (f : Nat) :
    (fdalloc t f).run s = .ok none s ∨ ∃ fd, (s.proc t).ofile fd = none ∧
      (fdalloc t f).run s = .ok (some fd)
        (s.updProc t fun p => { p with ofile := Function.update p.ofile fd (some f) }) := by
  rw [fdalloc, run_atom]
  cases hf : (List.finRange NOFILE).find? fun fd => (s.proc t).ofile fd = none with
  | none => exact .inl rfl
  | some fd => exact .inr ⟨fd, by simpa using List.find?_some hf, rfl⟩

/-- The end of every path that fails after `pipealloc`. -/
theorem Kernel.Opened.undo (h : b.Opened s rf wf pi) (hb : b.Allocator)
    (hnone : ∀ i, (b.file i).ref = 0 → (b.file i).type = .FD_NONE)
    (hofile : (s.proc t).ofile = (b.proc t).ofile) :
    ∃ v, (do fileclose rf; fileclose wf; return (-1 : Int) : Prog Kernel Int).run s =
      .ok (-1) v ∧ b.Unopened v t := by
  obtain ⟨u, v, hu, hv, hproc, href, htype, hfree⟩ := h.close hb hnone
  refine ⟨v, ?_, by rw [hproc, hofile], href, htype, hfree⟩
  simp only [run_bind, hu, hv]
  rfl

omit [KernelImage] in
theorem length_intBytes (x : Int) : (intBytes x).length = 4 := by simp [intBytes]

theorem Kernel.Opened.updProc (h : b.Opened s rf wf pi) (t : Slot) (f : Proc → Proc) :
    b.Opened (s.updProc t f) rf wf pi :=
  h.congr (h.alloc.congr rfl rfl rfl) rfl rfl rfl

omit [KernelImage] in
/-- The two writes of the descriptors to user memory. -/
theorem store_run (hpt : (s.proc t).pagetable = some r) (hun : s.Unshared r) (fdarray : Nat)
    (x y : Int) : ∃ res mem, (do
      let res ← copyoutSelf ka t fdarray (intBytes x)
      if res < 0 then return res
      else copyoutSelf ka t ((fdarray + 4) % 2 ^ 64) (intBytes y) : Prog Kernel Int).run s =
        .ok res { s with mem := mem } ∧
      (res = -1 ∨ res = 0 ∧
        ({ s with mem := mem } : Kernel).Holds r fdarray (intBytes x ++ intBytes y)) := by
  have hself : ∀ (u : Kernel) dst src, (u.proc t).pagetable = some r →
      (copyoutSelf ka t dst src).run u = (copyout ka r dst src).run u := by
    intro u dst src hu
    simp only [copyoutSelf, run_bind, run_read, hu]
  obtain ⟨res, mem, hrun, hres, hbytes⟩ := @copyout_run ka r fdarray (intBytes x) s
  simp only [run_bind, hself s _ _ hpt, hrun]
  rcases hres with ⟨rfl, hmapped⟩ | ⟨rfl, -⟩
  · have hlt : fdarray + 3 < MAXVA := by
      by_contra hge
      exact hmapped 3 (by rw [length_intBytes]; decide) (if_neg hge)
    have hwrap : (fdarray + 4) % 2 ^ 64 = fdarray + 4 := by
      unfold MAXVA at hlt
      omega
    obtain ⟨res', mem', hrun', hres', hbytes'⟩ := @copyout_run ka r (fdarray + 4)
      (intBytes y) { s with mem := mem }
    refine ⟨res', mem', ?_, ?_⟩
    · rw [if_neg (by decide), hwrap]
      exact (hself { s with mem := mem } _ _ hpt).trans hrun'
    · rcases hres' with ⟨rfl, -⟩ | ⟨rfl, -⟩
      · refine .inr ⟨rfl, .append (fun i hi => ?_) fun i hi => ?_⟩
        · rw [length_intBytes] at hi
          have h₁ := hbytes' hun rfl (fdarray + i)
          rw [if_neg (by omega)] at h₁
          have h₂ := hbytes hun rfl (fdarray + i)
          rw [length_intBytes, if_pos (by omega), Nat.add_sub_cancel_left] at h₂
          exact h₁.trans h₂
        · have h₁ := hbytes' hun rfl (fdarray + 4 + i)
          rw [if_pos (by omega), Nat.add_sub_cancel_left] at h₁
          rw [length_intBytes]
          exact h₁
      · exact .inl rfl
  · refine ⟨-1, mem, ?_, .inl rfl⟩
    rw [if_pos (by decide)]
    rfl

/-- `sys_pipe` opens a pipe, or leaves the descriptors, the files and the free
pages as they are. -/
theorem sys_pipe_all_or_nothing (h : s.Caller t r lbl) (hka : Promised ka)
    (hnone : ∀ i, (s.file i).ref = 0 → (s.file i).type = .FD_NONE) (fdarray : Nat) :
    ∃ res s', (sys_pipe ka t fdarray).run s = .ok res s' ∧
      ((res = 0 ∧ ∃ fd0 fd1 rf wf pi, s.Piped s' t r fdarray fd0 fd1 rf wf pi) ∨
        (res = -1 ∧ s.Unopened s' t)) := by
  have ha := h.table.alloc
  obtain ⟨res, s₁, hrun₁, hproc₁, ⟨rfl, hun⟩ | ⟨rf, wf, pi, rfl, hopen₁, hpte₁⟩⟩ :=
    pipealloc_run ha hka hnone t
  · refine ⟨-1, s₁, ?_, .inr ⟨rfl, hun⟩⟩
    simp only [sys_pipe, run_bind, hrun₁]
    rfl
  rw [sys_pipe, run_bind, hrun₁]
  simp only
  rcases fdalloc_run s₁ t rf with hfd₀ | ⟨fd0, hfree₀, hfd₀⟩
  · obtain ⟨v, hv, hun⟩ := hopen₁.undo (t := t) ha hnone (by rw [hproc₁])
    refine ⟨-1, v, ?_, .inr ⟨rfl, hun⟩⟩
    rw [run_bind, hfd₀]
    exact hv
  rw [run_bind, hfd₀]
  simp only
  rw [hproc₁] at hfree₀
  obtain ⟨s₂, hs₂⟩ : ∃ s₂, s₂ = s₁.updProc t fun p =>
    { p with ofile := Function.update p.ofile fd0 (some rf) } := ⟨_, rfl⟩
  have hproc₂ : s₂.proc t = { s₁.proc t with
      ofile := Function.update (s₁.proc t).ofile fd0 (some rf) } := by
    rw [hs₂]
    exact Function.update_self ..
  have hofile₂ : (s₂.proc t).ofile = Function.update (s.proc t).ofile fd0 (some rf) := by
    rw [hproc₂, ← hproc₁]
  have hpt₂ : (s₂.proc t).pagetable = some r := by
    rw [hproc₂]
    exact hproc₁ ▸ h.pagetable
  have hopen₂ : s.Opened s₂ rf wf pi := hs₂ ▸ hopen₁.updProc t _
  rw [← hs₂]
  rcases fdalloc_run s₂ t wf with hfd₁ | ⟨fd1, hfree₁, hfd₁⟩
  · obtain ⟨v, hv, hun⟩ := (hopen₂.updProc t fun p =>
      { p with ofile := Function.update p.ofile fd0 none }).undo (t := t) ha hnone (by
        rw [updProc_ofile, hofile₂, Function.update_idem, ← hfree₀, Function.update_eq_self])
    refine ⟨-1, v, ?_, .inr ⟨rfl, hun⟩⟩
    rw [run_bind, hfd₁]
    exact hv
  rw [run_bind, hfd₁]
  rw [hofile₂] at hfree₁
  have hne : fd0 ≠ fd1 := by
    intro he
    subst he
    rw [Function.update_self] at hfree₁
    cases hfree₁
  rw [Function.update_of_ne hne.symm] at hfree₁
  obtain ⟨s₃, hs₃⟩ : ∃ s₃, s₃ = s₂.updProc t fun p =>
    { p with ofile := Function.update p.ofile fd1 (some wf) } := ⟨_, rfl⟩
  have hproc₃ : s₃.proc t = { s₂.proc t with
      ofile := Function.update (s₂.proc t).ofile fd1 (some wf) } := by
    rw [hs₃]
    exact Function.update_self ..
  have hofile₃ : (s₃.proc t).ofile =
      Function.update (Function.update (s.proc t).ofile fd0 (some rf)) fd1 (some wf) := by
    rw [hproc₃, hofile₂]
  have hpt₃ : (s₃.proc t).pagetable = some r := by
    rw [hproc₃]
    exact hpt₂
  have hopen₃ : s.Opened s₃ rf wf pi := hs₃ ▸ hopen₂.updProc t _
  have hpte₃ : s₃.pte = Function.update s.pte pi fun _ => Pte.ofFill 5 := by
    rw [hs₃, hs₂]
    exact hpte₁
  rw [← hs₃]
  have hpi : lbl pi = none := h.table.free pi (by rw [hopen₃.free]; exact List.mem_cons_self)
  have hpage : ∀ v, s₃.userPage r v = s.userPage r v := by
    intro v
    unfold Kernel.userPage
    rw [h.table.tree.mapping_congr h.table.root fun f n hf => ?_]
    rw [hpte₃, Function.update_of_ne]
    rintro rfl
    rw [hpi] at hf
    cases hf
  have hun₃ : s₃.Unshared r := fun u v f hu hv hfu hfv =>
    h.unshared u v f hu hv (hpage u ▸ hfu) (hpage v ▸ hfv)
  obtain ⟨res, mem, hrun, hres⟩ := @store_run s₃ ka t r hpt₃ hun₃ fdarray
    fd0.val fd1.val
  have hopen₄ : s.Opened { s₃ with mem := mem } rf wf pi :=
    hopen₃.congr (hopen₃.alloc.congr rfl rfl rfl) rfl rfl rfl
  have hassoc := bind_assoc (copyoutSelf ka t fdarray (intBytes fd0.val))
    (fun r => if r < 0 then pure r
      else copyoutSelf ka t ((fdarray + 4) % 2 ^ 64) (intBytes fd1.val))
    (fun r => if r < 0 then do
        clearFd t fd0
        clearFd t fd1
        fileclose rf
        fileclose wf
        return (-1 : Int)
      else return 0)
  have hgo := congrArg (fun p => p.run s₃) hassoc.symm
  rw [run_bind (copyoutSelf ka t fdarray (intBytes fd0.val) >>= _), hrun] at hgo
  rcases hres with rfl | ⟨rfl, hstored⟩
  · obtain ⟨v, hv, hun⟩ := ((hopen₄.updProc t fun p =>
      { p with ofile := Function.update p.ofile fd0 none }).updProc t fun p =>
      { p with ofile := Function.update p.ofile fd1 none }).undo (t := t) ha hnone (by
        rw [updProc_ofile, updProc_ofile]
        show Function.update (Function.update (s₃.proc t).ofile fd0 none) fd1 none = _
        rw [hofile₃]
        funext fd
        by_cases h₁ : fd = fd1
        · rw [h₁, Function.update_self, hfree₁]
        · rw [Function.update_of_ne h₁]
          by_cases h₀ : fd = fd0
          · rw [h₀, Function.update_self, hfree₀]
          · rw [Function.update_of_ne h₀, Function.update_of_ne h₁, Function.update_of_ne h₀])
    exact ⟨-1, v, hgo.trans hv, .inr ⟨rfl, hun⟩⟩
  · refine ⟨0, { s₃ with mem := mem }, hgo, .inl ⟨rfl, fd0, fd1, rf, wf, pi, hopen₄, hne,
      ⟨hfree₀, hfree₁⟩, ?_, hstored⟩⟩
    exact hofile₃

end

attribute [local instance] image

/-- Once the process has a page. -/
def withMemory : Outcome Kernel Int := (growproc kalloc initproc PGSIZE).run oneProcess

/-- Without memory the numbers cannot be stored; with a page they can. -/
theorem sys_pipe_withMemory :
    (∃ s', (sys_pipe kallocDoc initproc 0).run oneProcess = .ok (-1) s' ∧
      oneProcess.Unopened s' initproc) ∧
    ∃ k s' fd0 fd1 rf wf pi, withMemory = .ok 0 k ∧
      (sys_pipe kallocDoc initproc PGSIZE).run k = .ok 0 s' ∧
      k.Piped s' initproc image.endPage PGSIZE fd0 fd1 rf wf pi := by
  obtain ⟨lbl, h⟩ := oneProcess_caller
  constructor
  · obtain ⟨res, s', hrun, hres⟩ := sys_pipe_all_or_nothing h kallocDoc_promised
      (fun _ _ => rfl) 0
    have hneg : ((sys_pipe kallocDoc initproc 0).run oneProcess).value = some (-1) := by
      decide +kernel
    rw [hrun] at hneg
    have hneg := Option.some.inj hneg
    rcases hres with ⟨h0, -⟩ | ⟨rfl, hun⟩
    · exact absurd (h0.symm.trans hneg) (by decide)
    · exact ⟨s', hrun, hun⟩
  · obtain ⟨res, hgrow⟩ := Outcome.eq_ok (o := withMemory) (by decide +kernel) oneProcess
    obtain ⟨rfl, -, hfile, lbl', hk⟩ := h.growproc (n := PGSIZE) (by decide) (by decide) hgrow
    obtain ⟨res, s', hrun, hres⟩ := sys_pipe_all_or_nothing hk kallocDoc_promised
      (fun i _ => by rw [hfile]; rfl) PGSIZE
    have hzero : ((sys_pipe kallocDoc initproc PGSIZE).run (withMemory.state oneProcess)).value =
        some 0 := by decide +kernel
    rw [hrun] at hzero
    have hzero := Option.some.inj hzero
    rcases hres with ⟨rfl, fd0, fd1, rf, wf, pi, hpiped⟩ | ⟨hneg, -⟩
    · exact ⟨_, s', fd0, fd1, rf, wf, pi, hgrow, hrun, hpiped⟩
    · exact absurd (hneg.symm.trans hzero) (by decide)

end Xv6
