/-
Each critical section of `open`, `dup`, `pipe`, `fork`, `close`, `exit` and
`chdir` keeps the counts right.
-/
import Xv6.FileRefs

namespace Xv6.OpenFiles

open Conc

variable {n m k l : Nat} {G : Type} [DecidableEq G] {s s' : State n m k l G} {p q : Fin n}
  {f : Fin m} {ds : List (Drop m l G)} {pc : PC n m k l}

omit [DecidableEq G] in
theorem local_goto : State.Local (s.goto p ds pc) p ↔ s.Knows p pc := by
  unfold State.Local
  rw [show (s.goto p ds pc).pc p = pc from Function.update_self ..]
  cases pc <;> exact Iff.rfl

omit [DecidableEq G] in
theorem others_goto : Others p s (s.goto p ds pc) :=
  ⟨fun _ _ => rfl, fun _ _ => rfl, fun _ hq => Function.update_of_ne hq ..,
    fun _ hq => Function.update_of_ne hq ..⟩

/-- A step with the tables first and the process after. -/
theorem Inv.act (h : Inv s) (hlive : s.status p = .live) (hdrops : s.drops p = [])
    (ho : Others p s s') (hstatus : s'.status = s.status) (hpanic : s'.panic = s.panic)
    (hfiles : ∀ f, s'.ref f - s.ref f = slots (s'.ofile p) f + total (Drop.files f) ds +
      pc.files f - (slots (s.ofile p) f + (s.pc p).files f))
    (hinodes : ∀ ip, s'.iref ip - s.iref ip =
      (∑ f, (s'.kind f).inode ip - ∑ f, (s.kind f).inode ip) +
        (one (s'.cwd p) (some ip) + total (Drop.inodes ip) ds + pc.inodes ip -
          (one (s.cwd p) (some ip) + (s.pc p).inodes ip)))
    (hends : ∀ pi w, one ((s'.pipe pi).isOpen w) true - one ((s.pipe pi).isOpen w) true =
      ∑ f, (s'.kind f).ends pi w - ∑ f, (s.kind f).ends pi w + total (Drop.ends pi w) ds)
    (hfree : ∀ f, s'.ref f = 0 → s'.kind f = .FD_NONE) (hpages : ∀ pi, (s'.pipe pi).Paged)
    (hloc : s'.Knows p pc) (hchild : ∀ np, pc.child = some np → (s.pc p).child = some np)
    (hfresh : ∀ f, s.Fresh f → s'.Fresh f ∨ 1 ≤ s.filesOf f p) : Inv (s'.goto p ds pc) := by
  have ho' : Others p s (s'.goto p ds pc) :=
    ⟨ho.ofile, ho.cwd, fun q hq => (Function.update_of_ne hq ..).trans (ho.drops q hq),
      fun q hq => (Function.update_of_ne hq ..).trans (ho.pc q hq)⟩
  refine h.own hlive ho' hstatus (h.books.change ho' (fun f => ?_) (fun ip => ?_) fun pi w => ?_)
    hfree hpages (local_goto.2 hloc) (fun np hnp => hchild np ?_) hfresh hpanic
  · simp only [State.filesOf, State.goto, Function.update_self, hdrops, total_nil]
    have hf := hfiles f
    omega
  · simp only [State.inodesOf, State.goto, Function.update_self, hdrops, total_nil]
    have hi := hinodes ip
    omega
  · simp only [State.endsOf, State.goto, Function.update_self, hdrops, total_nil]
    have he := hends pi w
    omega
  · rwa [show (s'.goto p ds pc).pc p = pc from Function.update_self ..] at hnp

/-- A step that moves inodes only, or nothing. -/
theorem Inv.goto {iref : Fin l → Int} {inum : Fin l → Nat} (h : Inv s)
    (hlive : s.status p = .live) (hdrops : s.drops p = [])
    (hfiles : ∀ f, total (Drop.files f) ds + pc.files f = (s.pc p).files f)
    (hinodes : ∀ ip, iref ip = s.iref ip +
      (total (Drop.inodes ip) ds + pc.inodes ip - (s.pc p).inodes ip))
    (hends : ∀ pi w, total (Drop.ends pi w) ds = 0) (hloc : s.Knows p pc)
    (hchild : ∀ np, pc.child = some np → (s.pc p).child = some np) :
    Inv ({ s with iref := iref, inum := inum }.goto p ds pc) := by
  refine h.act hlive hdrops
    ⟨fun _ _ => rfl, fun _ _ => rfl, fun _ _ => rfl, fun _ _ => rfl⟩ rfl rfl (fun f => ?_)
    (fun ip => ?_) (fun pi w => ?_) h.free h.pages ?_ hchild fun f hf => .inl hf
  · have hf := hfiles f
    dsimp only
    omega
  · have hi := hinodes ip
    dsimp only
    omega
  · have he := hends pi w
    dsimp only
    omega
  · cases pc <;> exact hloc

/-- A step that moves nothing between the tables. -/
theorem Inv.stay (h : Inv s) (hlive : s.status p = .live) (hdrops : s.drops p = [])
    (hfiles : ∀ f, total (Drop.files f) ds + pc.files f = (s.pc p).files f)
    (hinodes : ∀ ip, total (Drop.inodes ip) ds + pc.inodes ip = (s.pc p).inodes ip)
    (hends : ∀ pi w, total (Drop.ends pi w) ds = 0) (hloc : s.Knows p pc)
    (hchild : ∀ np, pc.child = some np → (s.pc p).child = some np) : Inv (s.goto p ds pc) :=
  h.goto hlive hdrops hfiles (fun ip => by
    have hi := hinodes ip
    omega) hends hloc hchild

omit [DecidableEq G] in
/-- `iget` takes a reference. -/
theorem iget_eq {inum : Nat} {ip : Fin l} (hs : s.iget inum = some (ip, s')) :
    ∃ inum', s' = { s with iref := Function.update s.iref ip (s.iref ip + 1), inum := inum' } := by
  unfold State.iget at hs
  split at hs
  next ip' hfind =>
    obtain ⟨rfl, rfl⟩ := Prod.mk.inj (Option.some.inj hs)
    exact ⟨s.inum, rfl⟩
  next =>
    obtain ⟨ip', hfind, he⟩ := Option.map_eq_some_iff.1 hs
    obtain ⟨rfl, rfl⟩ := Prod.mk.inj he
    have hfree : s.iref ip' = 0 := by simpa using List.find?_some hfind
    refine ⟨Function.update s.inum ip' inum, ?_⟩
    rw [hfree]
    rfl

/-- A step that takes an inode from `iget`. -/
theorem Inv.stop {msg : String} (h : Inv s)
    (hmsg : msg = "iget: no inodes" ∨ msg = "ilock: no type") : Inv { s with panic := some msg } :=
  ⟨⟨h.books.files, h.books.inodes, h.books.ends⟩, h.free, h.pages, h.loc, h.idle, h.empty,
    h.child, .inr (hmsg.imp (congrArg some) (congrArg some))⟩

theorem Inv.withInode {inum : Nat} {ds : Fin l → List (Drop m l G)} {pc : Fin l → PC n m k l}
    (h : Inv s) (hlive : s.status p = .live) (hdrops : s.drops p = [])
    (hfiles : ∀ x f, total (Drop.files f) (ds x) + (pc x).files f = (s.pc p).files f)
    (hinodes : ∀ x ip, total (Drop.inodes ip) (ds x) + (pc x).inodes ip =
      (s.pc p).inodes ip + one x ip)
    (hends : ∀ x pi w, total (Drop.ends pi w) (ds x) = 0) (hloc : ∀ x, s.Knows p (pc x))
    (hchild : ∀ x np, (pc x).child = some np → (s.pc p).child = some np) :
    Inv (s.withInode inum fun x s => s.goto p (ds x) (pc x)) := by
  unfold State.withInode
  split
  next ip s' hget =>
    obtain ⟨inum', rfl⟩ := iget_eq hget
    refine h.goto hlive hdrops (hfiles ip) (fun jp => ?_) (hends ip) (hloc ip) (hchild ip)
    have hi := hinodes ip jp
    rw [update_inc rfl]
    omega
  next => exact h.stop (.inl rfl)

/-! ## Giving references up -/

theorem total_append {α : Type} (w : α → Int) (ds ds' : List α) :
    total w (ds ++ ds') = total w ds + total w ds' := by
  simp only [total, List.map_append, List.sum_append]

omit [DecidableEq G] in
theorem total_close_files (x : Kind l G) :
    total (Drop.files f) (x.close : List (Drop m l G)) = 0 := by
  cases x <;> rfl

omit [DecidableEq G] in
theorem total_close_inodes (x : Kind l G) (ip : Fin l) :
    total (Drop.inodes ip) (x.close : List (Drop m l G)) = x.inode ip := by
  cases x <;> simp [Kind.close, Kind.inode, Drop.inodes]

theorem total_close_ends (x : Kind l G) (pi : G) (w : Bool) :
    total (Drop.ends pi w) (x.close : List (Drop m l G)) = x.ends pi w := by
  cases x <;> simp [Kind.close, Kind.ends, Drop.ends]

omit [DecidableEq G] in
/-- A sum over the files after one has changed. -/
theorem sum_kind (w : Kind l G → Int) (kind : Fin m → Kind l G) (f : Fin m) (x : Kind l G) :
    ∑ g, w (Function.update kind f x g) = ∑ g, w (kind g) + (w x - w (kind f)) := by
  have h : ∑ g, w (Function.update kind f x g) = ∑ g, w (kind g) +
      (w (Function.update kind f x f) - w (kind f)) :=
    sum_change (fun g => w (kind g)) _ f fun g hg => by rw [Function.update_of_ne hg]
  rwa [Function.update_self] at h

theorem Kind.ends_nonneg (x : Kind l G) (pi : G) (w : Bool) : 0 ≤ x.ends pi w := by
  cases x <;> first | exact one_nonneg | exact Int.le_refl _

theorem Drop.ends_nonneg (pi : G) (w : Bool) (d : Drop m l G) : 0 ≤ d.ends pi w := by
  cases d <;> first | exact one_nonneg | exact Int.le_refl _

theorem close_isOpen (x : Pipe) (w w' : Bool) :
    (x.close w).isOpen w' = if w = w' then false else x.isOpen w' := by
  obtain ⟨r, wr, a, fr⟩ := x
  cases w <;> cases w' <;> cases r <;> cases wr <;> rfl

theorem close_paged {x : Pipe} {w : Bool} (hx : x.Paged) (ho : x.isOpen w = true) :
    (x.close w).Paged := by
  obtain ⟨r, wr, a, fr⟩ := x
  cases w <;> cases r <;> cases wr <;> first | exact hx | cases ho

omit [DecidableEq G] in
theorem fresh_setRef {x : Int} {kind : Kind l G} {g : Fin m} (hg : g ≠ f) :
    (s.setRef f x kind).Fresh g ↔ s.Fresh g := by
  unfold State.Fresh
  rw [show (s.setRef f x kind).ref g = s.ref g from Function.update_of_ne hg ..,
    show (s.setRef f x kind).kind g = s.kind g from Function.update_of_ne hg ..]

omit [DecidableEq G] in
theorem filesOf_fileclose (h : s.Local p) (hdrops : s.drops p = .fileclose f :: ds) :
    1 ≤ s.filesOf f p ∧ (1 ≤ (s.pc p).files f → 2 ≤ s.filesOf f p) := by
  have hlocal := h.files_nonneg (f := f)
  have hslots := slots_nonneg (o := s.ofile p) (f := f)
  have hds := total_nonneg ds (w := Drop.files f) Drop.files_nonneg
  unfold State.filesOf
  rw [hdrops, total_cons, Drop.files, one_self]
  exact ⟨by omega, fun hpc => by omega⟩

/-- A step of `fileclose` on the file table. -/
theorem Inv.closeRef {x : Int} {kind : Kind l G} {es : List (Drop m l G)} (h : Inv s)
    (hlive : s.status p = .live) (hdrops : s.drops p = .fileclose f :: ds) (hx : x = s.ref f - 1)
    (hkind : x = 0 → kind = .FD_NONE)
    (hfiles : ∀ g, total (Drop.files g) es = total (Drop.files g) ds)
    (hinodes : ∀ ip, total (Drop.inodes ip) es =
      total (Drop.inodes ip) ds + ((s.kind f).inode ip - kind.inode ip))
    (hends : ∀ pi w, total (Drop.ends pi w) es =
      total (Drop.ends pi w) ds + ((s.kind f).ends pi w - kind.ends pi w)) :
    Inv ((s.setRef f x kind).goto p es (s.pc p)) := by
  have howns := filesOf_fileclose (h.loc p) hdrops
  have ho : Others p s ((s.setRef f x kind).goto p es (s.pc p)) :=
    ⟨fun _ _ => rfl, fun _ _ => rfl, fun _ hq => Function.update_of_ne hq ..,
      fun _ hq => Function.update_of_ne hq ..⟩
  refine h.own hlive ho rfl (h.books.change ho (fun g => ?_) (fun ip => ?_) fun pi w => ?_)
    (fun g hg => ?_) h.pages ?_ (fun np hnp => ?_) (fun g hg => ?_) rfl
  · simp only [State.filesOf, State.goto, State.setRef, Function.update_self, hdrops, total_cons,
      hfiles, Drop.files]
    rw [update_dec hx]
    omega
  · simp only [State.inodesOf, State.goto, State.setRef, Function.update_self, hdrops, total_cons,
      hinodes, Drop.inodes]
    rw [sum_kind (fun kind => kind.inode ip)]
    omega
  · simp only [State.endsOf, State.goto, State.setRef, Function.update_self, hdrops, total_cons,
      hends, Drop.ends]
    rw [sum_kind (fun kind => kind.ends pi w)]
    omega
  · by_cases hgf : g = f
    · subst hgf
      change Function.update s.ref g x g = 0 at hg
      change Function.update s.kind g kind g = .FD_NONE
      rw [Function.update_self] at hg ⊢
      exact hkind hg
    · change Function.update s.ref f x g = 0 at hg
      change Function.update s.kind f kind g = .FD_NONE
      rw [Function.update_of_ne hgf] at hg ⊢
      exact h.free g hg
  · refine (h.loc p).other (Function.update_self ..) rfl rfl (fun g hg hfr => ?_) fun _ _ _ hm => hm
    by_cases hgf : g = f
    · subst hgf
      have hle := h.le_ref p g
      have htwo := howns.2 hg
      rw [hfr.1] at hle
      omega
    · exact (fresh_setRef hgf).2 hfr
  · rwa [show ((s.setRef f x kind).goto p es (s.pc p)).pc p = s.pc p from
      Function.update_self ..] at hnp
  · by_cases hgf : g = f
    · subst hgf
      exact .inr howns.1
    · exact .inl ((fresh_setRef hgf).2 hg)

/-- Each way a reference is given up. -/
theorem Inv.drop {d : Drop m l G} (h : Inv s) (hlive : s.status p = .live)
    (hdrops : s.drops p = d :: ds) : Inv (s.drop p ds d) := by
  cases d with
  | fileclose f =>
    have hpos := (filesOf_fileclose (h.loc p) hdrops).1
    have hle := h.le_ref p f
    simp only [State.drop]
    rw [if_neg (by omega)]
    split
    next hone =>
      refine h.closeRef hlive hdrops (by omega) (fun _ => rfl) (fun g => ?_) (fun ip => ?_)
        fun pi w => ?_
      · rw [total_append, total_close_files, Int.zero_add]
      · rw [total_append, total_close_inodes]
        simp only [Kind.inode]
        omega
      · rw [total_append, total_close_ends]
        simp only [Kind.ends]
        omega
    next hone =>
      exact h.closeRef hlive hdrops rfl (fun hz => absurd hz (by omega)) (fun _ => rfl)
        (fun ip => by omega) fun pi w => by omega
  | pipeclose pi w =>
    have hopen : (s.pipe pi).isOpen w = true := by
      have hends := h.books.ends pi w
      have hkinds : 0 ≤ ∑ f, (s.kind f).ends pi w :=
        Finset.sum_nonneg fun f _ => (s.kind f).ends_nonneg pi w
      have hle := Finset.single_le_sum (f := s.endsOf pi w)
        (fun q _ => total_nonneg (s.drops q) (Drop.ends_nonneg pi w)) (Finset.mem_univ p)
      have hds := total_nonneg ds (w := Drop.ends pi w) (Drop.ends_nonneg pi w)
      unfold State.endsOf at hle hends
      rw [hdrops, total_cons, Drop.ends, one_self] at hle
      by_contra hne
      rw [one_of_ne hne] at hends
      omega
    have ho : Others p s (s.drop p ds (.pipeclose pi w)) :=
      ⟨fun _ _ => rfl, fun _ _ => rfl, fun _ hq => Function.update_of_ne hq ..,
        fun _ hq => Function.update_of_ne hq ..⟩
    refine h.own hlive ho rfl (h.books.change ho (fun g => ?_) (fun ip => ?_) fun pj w' => ?_)
      h.free (fun pj => ?_) ?_ (fun np hnp => ?_) (fun g hg => .inl hg) rfl
    · simp only [State.filesOf, State.drop, State.goto, Function.update_self, hdrops, total_cons,
        Drop.files]
      omega
    · simp only [State.inodesOf, State.drop, State.goto, Function.update_self, hdrops, total_cons,
        Drop.inodes]
      omega
    · simp only [State.endsOf, State.drop, State.goto, Function.update_self, hdrops, total_cons,
        Drop.ends]
      by_cases hpj : pj = pi
      · subst hpj
        rw [Function.update_self, close_isOpen]
        split
        next hw =>
          subst hw
          rw [hopen, one_self, one_self, one_of_ne (by decide)]
          omega
        next hw =>
          rw [one_of_ne (a := (pj, w)) fun heq => hw (Prod.mk.inj heq).2]
          omega
      · rw [Function.update_of_ne hpj,
          one_of_ne (a := (pi, w)) fun heq => hpj (Prod.mk.inj heq).1.symm]
        omega
    · change Pipe.Paged (Function.update s.pipe pi ((s.pipe pi).close w) pj)
      by_cases hpj : pj = pi
      · subst hpj
        rw [Function.update_self]
        exact close_paged (h.pages pj) hopen
      · rw [Function.update_of_ne hpj]
        exact h.pages pj
    · exact (h.loc p).other (Function.update_self ..) rfl rfl (fun _ _ hf => hf) fun _ _ _ hm => hm
    · rwa [show (s.drop p ds (.pipeclose pi w)).pc p = s.pc p from Function.update_self ..] at hnp
  | iput ip =>
    have ho : Others p s (s.drop p ds (.iput ip)) :=
      ⟨fun _ _ => rfl, fun _ _ => rfl, fun _ hq => Function.update_of_ne hq ..,
        fun _ hq => Function.update_of_ne hq ..⟩
    refine h.own hlive ho rfl (h.books.change ho (fun g => ?_) (fun jp => ?_) fun pi w => ?_)
      h.free h.pages ?_ (fun np hnp => ?_) (fun g hg => .inl hg) rfl
    · simp only [State.filesOf, State.drop, State.goto, State.addIref, Function.update_self, hdrops,
        total_cons, Drop.files]
      omega
    · simp only [State.inodesOf, State.drop, State.goto, State.addIref, Function.update_self,
        hdrops, total_cons, Drop.inodes]
      rw [update_dec (Int.sub_eq_add_neg).symm]
      omega
    · simp only [State.endsOf, State.drop, State.goto, State.addIref, Function.update_self, hdrops,
        total_cons, Drop.ends]
      omega
    · exact (h.loc p).other (Function.update_self ..) rfl rfl (fun _ _ hf => hf) fun _ _ _ hm => hm
    · rwa [show (s.drop p ds (.iput ip)).pc p = s.pc p from Function.update_self ..] at hnp

/-- What holds of the child of a process that makes none. -/
theorem childless {α : Type} {P : α → Prop} (a : α) (h : none = some a) : P a := by
  cases h

/-! ## Paths -/

omit [DecidableEq G] in
@[simp] theorem held_files (goal : Goal l) :
    total (Drop.files f) (goal.held : List (Drop m l G)) = 0 := by
  cases goal <;> rfl

omit [DecidableEq G] in
@[simp] theorem held_inodes (goal : Goal l) (ip : Fin l) :
    total (Drop.inodes ip) (goal.held : List (Drop m l G)) = goal.inodes ip := by
  cases goal <;> simp [Goal.held, Goal.inodes, Drop.inodes]

@[simp] theorem held_ends (goal : Goal l) (pi : G) (w : Bool) :
    total (Drop.ends pi w) (goal.held : List (Drop m l G)) = 0 := by
  cases goal <;> rfl

/-- `namex` begins. -/
theorem Inv.lookup {goal : Goal l} {c : Choice G} (h : Inv s) (hlive : s.status p = .live)
    (hdrops : s.drops p = []) (hpc : s.pc p = .lookup goal) (hs : s.step p c = some s') :
    Inv s' := by
  unfold State.step at hs
  rw [hpc] at hs
  dsimp only at hs
  split at hs
  next =>
    obtain rfl := Option.some.inj hs
    refine h.withInode hlive hdrops (fun x f => ?_) (fun x ip => ?_) (fun _ _ _ => rfl)
      (fun _ => trivial) fun _ => childless
    · rw [hpc]
      rfl
    · rw [hpc]
      simp only [PC.inodes, total_nil]
      omega
  next =>
    obtain ⟨ip, hcwd, rfl⟩ := Option.map_eq_some_iff.1 hs
    refine h.goto hlive hdrops (fun f => ?_) (fun jp => ?_) (fun _ _ => rfl) trivial
      childless
    · rw [hpc]
      rfl
    · rw [hpc, update_inc rfl]
      simp only [PC.inodes, total_nil]
      omega
  next =>
    obtain rfl := Option.some.inj hs
    refine h.stay hlive hdrops (fun f => ?_) (fun ip => ?_) (fun _ _ => held_ends ..) trivial childless
    · rw [hpc, held_files]
      rfl
    · rw [hpc, held_inodes]
      exact Int.add_zero _

/-- A step of `namex`. -/
theorem Inv.namex {ip : Fin l} {goal : Goal l} {c : Choice G} (h : Inv s)
    (hlive : s.status p = .live) (hdrops : s.drops p = []) (hpc : s.pc p = .namex ip goal)
    (hs : s.step p c = some s') : Inv s' := by
  unfold State.step at hs
  rw [hpc] at hs
  dsimp only at hs
  split at hs
  next =>
    obtain rfl := Option.some.inj hs
    refine h.stay hlive hdrops (fun f => ?_) (fun jp => ?_) (fun _ _ => rfl) trivial childless
    · rw [hpc]
      rfl
    · rw [hpc]
      exact Int.zero_add _
  next =>
    obtain rfl := Option.some.inj hs
    refine h.withInode hlive hdrops (fun x f => ?_) (fun x jp => ?_) (fun _ _ _ => rfl)
      (fun _ => trivial) fun _ => childless
    · rw [hpc]
      rfl
    · rw [hpc]
      simp only [PC.inodes, total_cons, total_nil, Drop.inodes]
      omega
  next =>
    obtain rfl := Option.some.inj hs
    exact h.stop (.inr rfl)
  next =>
    obtain rfl := Option.some.inj hs
    refine h.stay hlive hdrops (fun f => ?_) (fun jp => ?_) (fun _ _ => ?_) trivial childless
    · rw [hpc, total_cons, held_files]
      rfl
    · rw [hpc, total_cons, held_inodes]
      exact Int.add_zero _
    · rw [total_cons, held_ends]
      rfl

/-- What a call does with the inode that its path leads to. -/
theorem Inv.found {ip : Fin l} {goal : Goal l} {c : Choice G} (h : Inv s)
    (hlive : s.status p = .live) (hdrops : s.drops p = []) (hpc : s.pc p = .found ip goal)
    (hs : s.step p c = some s') : Inv s' := by
  unfold State.step at hs
  rw [hpc] at hs
  dsimp only at hs
  split at hs
  next =>
    obtain rfl := Option.some.inj hs
    exact h.stop (.inr rfl)
  next =>
    obtain ⟨old, hcwd, rfl⟩ := Option.map_eq_some_iff.1 hs
    refine h.stay hlive hdrops (fun f => ?_) (fun jp => ?_) (fun _ _ => rfl) hcwd childless
    · rw [hpc]
      rfl
    · rw [hpc]
      simp only [PC.inodes, Goal.inodes, total_cons, total_nil, Drop.inodes]
      omega
  next =>
    obtain rfl := Option.some.inj hs
    refine h.stay hlive hdrops (fun f => ?_) (fun jp => ?_) (fun _ _ => rfl) trivial childless
    · rw [hpc]
      rfl
    · rw [hpc]
      simp only [PC.inodes, Goal.inodes, total_nil]
      omega
  next =>
    obtain rfl := Option.some.inj hs
    refine h.stay hlive hdrops (fun f => ?_) (fun jp => ?_) (fun _ _ => rfl) trivial childless
    · rw [hpc]
      rfl
    · rw [hpc]
      simp only [PC.inodes, Goal.inodes, total_nil]
      omega
  next keep inum =>
    obtain rfl := Option.some.inj hs
    refine h.withInode hlive hdrops (fun x f => ?_) (fun x jp => ?_) (fun _ _ _ => rfl)
      (fun _ => trivial) fun _ => childless
    · rw [hpc]
      rfl
    · have hgoal : (if keep then Goal.open else .taken : Goal l).inodes jp = 0 := by
        cases keep <;> rfl
      rw [hpc]
      simp only [PC.inodes, total_cons, total_nil, Drop.inodes, hgoal]
      simp only [Goal.inodes]
      omega
  next keep inum =>
    obtain rfl := Option.some.inj hs
    refine h.withInode hlive hdrops (fun x f => ?_) (fun x jp => ?_) (fun _ _ _ => rfl)
      (fun _ => trivial) fun _ => childless
    · rw [hpc]
      rfl
    · rw [hpc]
      simp only [PC.inodes, Goal.inodes, total_nil]
      omega
  next old inum =>
    obtain rfl := Option.some.inj hs
    refine h.withInode hlive hdrops (fun x f => ?_) (fun x jp => ?_) (fun _ _ _ => rfl)
      (fun _ => trivial) fun _ => childless
    · rw [hpc]
      rfl
    · rw [hpc]
      simp only [PC.inodes, Goal.inodes, total_cons, total_nil, Drop.inodes]
      omega
  next inum =>
    obtain rfl := Option.some.inj hs
    refine h.withInode hlive hdrops (fun x f => ?_) (fun x jp => ?_) (fun _ _ _ => rfl)
      (fun _ => trivial) fun _ => childless
    · rw [hpc]
      rfl
    · rw [hpc]
      simp only [PC.inodes, Goal.inodes, total_cons, total_nil, Drop.inodes]
      omega
  next =>
    obtain rfl := Option.some.inj hs
    refine h.stay hlive hdrops (fun f => ?_) (fun jp => ?_) (fun _ _ => ?_) trivial childless
    · rw [hpc, total_cons, held_files]
      rfl
    · rw [hpc, total_cons, held_inodes]
      exact Int.add_zero _
    · rw [total_cons, held_ends]
      rfl

/-- `create` enters the new inode in its directory. -/
theorem Inv.dirlink {dp ip : Fin l} {keep : Bool} {c : Choice G} (h : Inv s)
    (hlive : s.status p = .live) (hdrops : s.drops p = []) (hpc : s.pc p = .dirlink dp ip keep)
    (hs : s.step p c = some s') : Inv s' := by
  unfold State.step at hs
  rw [hpc] at hs
  dsimp only at hs
  split at hs
  next =>
    split at hs
    next =>
      obtain rfl := Option.some.inj hs
      refine h.stay hlive hdrops (fun f => ?_) (fun jp => ?_) (fun _ _ => rfl) trivial childless
      · rw [hpc]
        rfl
      · rw [hpc]
        simp only [PC.inodes, total_cons, total_nil, Drop.inodes]
        omega
    next =>
      obtain rfl := Option.some.inj hs
      refine h.stay hlive hdrops (fun f => ?_) (fun jp => ?_) (fun _ _ => rfl) trivial childless
      · rw [hpc]
        rfl
      · rw [hpc]
        simp only [PC.inodes, total_cons, total_nil, Drop.inodes]
        omega
  next =>
    obtain rfl := Option.some.inj hs
    refine h.withInode hlive hdrops (fun x f => ?_) (fun x jp => ?_) (fun _ _ _ => rfl)
      (fun _ => trivial) fun _ => childless
    · rw [hpc]
      rfl
    · rw [hpc]
      simp only [PC.inodes, total_cons, total_nil, Drop.inodes]
      omega
  next =>
    obtain rfl := Option.some.inj hs
    refine h.stay hlive hdrops (fun f => ?_) (fun jp => ?_) (fun _ _ => rfl) trivial childless
    · rw [hpc]
      rfl
    · rw [hpc]
      simp only [PC.inodes, total_cons, total_nil, Drop.inodes]
      omega

/-! ## Descriptors and current directories -/

/-- A step that changes the descriptors and the directory of the process, and
no table. -/
theorem Inv.place (h : Inv s) (o : Fin k → Option (Fin m)) (d : Option (Fin l))
    (ds : List (Drop m l G)) (pc : PC n m k l) (hlive : s.status p = .live) (hdrops : s.drops p = [])
    (hfiles : ∀ f, slots o f + total (Drop.files f) ds + pc.files f =
      slots (s.ofile p) f + (s.pc p).files f)
    (hinodes : ∀ ip, one d (some ip) + total (Drop.inodes ip) ds + pc.inodes ip =
      one (s.cwd p) (some ip) + (s.pc p).inodes ip)
    (hends : ∀ pi w, total (Drop.ends pi w) ds = 0)
    (hloc : State.Knows { s with
      ofile := Function.update s.ofile p o, cwd := Function.update s.cwd p d } p pc)
    (hchild : ∀ np, pc.child = some np → (s.pc p).child = some np) :
    Inv (State.goto { s with
      ofile := Function.update s.ofile p o, cwd := Function.update s.cwd p d } p ds pc) := by
  refine h.act hlive hdrops
    ⟨fun _ hq => Function.update_of_ne hq .., fun _ hq => Function.update_of_ne hq ..,
      fun _ _ => rfl, fun _ _ => rfl⟩ rfl rfl (fun f => ?_) (fun ip => ?_) (fun pi w => ?_) h.free
    h.pages hloc hchild fun f hf => .inl hf
  · have hf := hfiles f
    dsimp only
    rw [Function.update_self]
    omega
  · have hi := hinodes ip
    dsimp only
    rw [Function.update_self]
    omega
  · have he := hends pi w
    dsimp only
    omega

/-- The descriptors alone. -/
theorem Inv.setFds {o : Fin k → Option (Fin m)} (h : Inv s)
    (hlive : s.status p = .live) (hdrops : s.drops p = [])
    (hfiles : ∀ f, slots o f + total (Drop.files f) ds + pc.files f =
      slots (s.ofile p) f + (s.pc p).files f)
    (hinodes : ∀ ip, total (Drop.inodes ip) ds + pc.inodes ip = (s.pc p).inodes ip)
    (hends : ∀ pi w, total (Drop.ends pi w) ds = 0)
    (hloc : State.Knows { s with ofile := Function.update s.ofile p o } p pc)
    (hchild : ∀ np, pc.child = some np → (s.pc p).child = some np) :
    Inv (State.goto { s with ofile := Function.update s.ofile p o } p ds pc) := by
  have hcwd : Function.update s.cwd p (s.cwd p) = s.cwd := Function.update_eq_self ..
  have hplace := h.place o (s.cwd p) ds pc hlive hdrops hfiles
    (fun ip => by
      have hi := hinodes ip
      omega) hends
  rw [hcwd] at hplace
  exact hplace hloc hchild

/-- `exit` has closed a file, and clears the descriptor. -/
theorem Inv.clearFd {fd : Fin k} (h : Inv s) (hlive : s.status p = .live)
    (hdrops : s.drops p = []) (hpc : s.pc p = .clearFd fd f) :
    Inv ((s.setFd p fd none).goto p [] (.closeAll (fd + 1))) := by
  have hloc := h.loc p
  unfold State.Local at hloc
  rw [hpc] at hloc
  refine h.setFds hlive hdrops (fun g => ?_) (fun ip => ?_) (fun _ _ => rfl) (fun fd' hfd' => ?_)
    childless
  · rw [hpc, slots_update, hloc.1]
    simp only [PC.files, total_nil, one_some, one_none]
    omega
  · rw [hpc]
    rfl
  · change Function.update s.ofile p _ p fd' = none
    rw [Function.update_self]
    by_cases hne : fd' = fd
    · subst hne
      exact Function.update_self ..
    · rw [Function.update_of_ne hne]
      exact hloc.2 fd' (by omega)

/-- `exit` has put its directory. -/
theorem Inv.clearCwd {ip : Fin l} (h : Inv s) (hlive : s.status p = .live)
    (hdrops : s.drops p = []) (hpc : s.pc p = .clearCwd ip) :
    Inv ((s.setCwd p none).goto p [] .exited) := by
  have hloc := h.loc p
  unfold State.Local at hloc
  rw [hpc] at hloc
  have ho : Function.update s.ofile p (s.ofile p) = s.ofile := Function.update_eq_self ..
  have hplace := h.place (s.ofile p) none [] .exited hlive hdrops
    (fun g => by
      rw [hpc]
      simp only [PC.files, total_nil]
      omega) (fun jp => by
      rw [hpc, hloc.1]
      simp only [PC.inodes, total_nil, one_some, one_none]
      omega) fun _ _ => rfl
  rw [ho] at hplace
  exact hplace ⟨Function.update_self .., hloc.2⟩ childless

/-- `chdir` has put the old directory. -/
theorem Inv.setCwd {old ip : Fin l} (h : Inv s) (hlive : s.status p = .live)
    (hdrops : s.drops p = []) (hpc : s.pc p = .setCwd old ip) :
    Inv ((s.setCwd p (some ip)).goto p [] .user) := by
  have hloc := h.loc p
  unfold State.Local at hloc
  rw [hpc] at hloc
  have hcwd : s.cwd p = some old := hloc
  have ho : Function.update s.ofile p (s.ofile p) = s.ofile := Function.update_eq_self ..
  have hplace := h.place (s.ofile p) (some ip) [] .user hlive hdrops
    (fun g => by
      rw [hpc]
      rfl) (fun jp => by
      rw [hpc, hcwd]
      simp only [PC.inodes, total_nil, one_some]
      omega) fun _ _ => rfl
  rw [ho] at hplace
  exact hplace trivial childless

omit [DecidableEq G] in
theorem freeFd_eq {fd : Fin k} (hs : s.freeFd p = some fd) : s.ofile p fd = none := by
  simpa using List.find?_some hs

omit [DecidableEq G] in
theorem freeFile_eq (hs : s.freeFile = some f) : s.ref f = 0 := by
  simpa using List.find?_some hs

/-- `dup` fills a descriptor. -/
theorem Inv.dup {fd fd' : Fin k} (h : Inv s) (hlive : s.status p = .live)
    (hdrops : s.drops p = []) (hpc : s.pc p = .user) (hfd : s.ofile p fd = some f)
    (hfree : s.freeFd p = some fd') :
    Inv ((s.setFd p fd' (some f)).goto p [] (.filedup f)) := by
  have hnone := freeFd_eq hfree
  refine h.setFds hlive hdrops (fun g => ?_) (fun ip => ?_) (fun _ _ => rfl) ?_ childless
  · rw [hpc, slots_update, hnone]
    simp only [PC.files, total_nil, one_some, one_none]
    omega
  · rw [hpc]
    rfl
  · change 2 ≤ slots (Function.update s.ofile p _ p) f
    have hpos := slots_pos hfd
    rw [Function.update_self, slots_update, hnone]
    simp only [one_none, one_self]
    omega

/-- `close` clears a descriptor. -/
theorem Inv.close {fd : Fin k} (h : Inv s) (hlive : s.status p = .live)
    (hdrops : s.drops p = []) (hpc : s.pc p = .user) (hfd : s.ofile p fd = some f) :
    Inv ((s.setFd p fd none).goto p [.fileclose f] .user) := by
  refine h.setFds hlive hdrops (fun g => ?_) (fun ip => ?_) (fun _ _ => rfl) trivial childless
  · rw [hpc, slots_update, hfd]
    simp only [PC.files, Drop.files, total_cons, total_nil, one_some, one_none]
    omega
  · rw [hpc]
    rfl

/-! ## The file table -/

/-- `dup` counts its new reference. -/
theorem Inv.filedup (h : Inv s) (hlive : s.status p = .live) (hdrops : s.drops p = [])
    (hpc : s.pc p = .filedup f) : Inv (s.filedup f fun s => s.goto p [] .user) := by
  have hloc := h.loc p
  unfold State.Local at hloc
  rw [hpc] at hloc
  have htwo : 2 ≤ slots (s.ofile p) f := hloc
  have hown : 1 ≤ s.filesOf f p := by
    simp only [State.filesOf, hdrops, hpc, total_nil, PC.files, one_self]
    omega
  have hle := h.le_ref p f
  unfold State.filedup
  rw [if_neg (by omega)]
  have hkind : Function.update s.kind f (s.kind f) = s.kind := Function.update_eq_self ..
  refine h.act hlive hdrops
    ⟨fun _ _ => rfl, fun _ _ => rfl, fun _ _ => rfl, fun _ _ => rfl⟩ rfl rfl (fun g => ?_)
    (fun ip => ?_) (fun pi w => ?_) (fun g hg => ?_) h.pages trivial childless fun g hg => ?_
  · change Function.update s.ref f (s.ref f + 1) g - s.ref g = _
    rw [update_inc rfl, hpc]
    simp only [PC.files, total_nil, State.setRef]
    omega
  · simp only [State.setRef, hkind, hpc, PC.inodes, total_nil]
    omega
  · simp only [State.setRef, hkind, total_nil]
    omega
  · change Function.update s.ref f (s.ref f + 1) g = 0 at hg
    change Function.update s.kind f (s.kind f) g = .FD_NONE
    rw [hkind]
    by_cases hgf : g = f
    · subst hgf
      rw [Function.update_self] at hg
      omega
    · rw [Function.update_of_ne hgf] at hg
      exact h.free g hg
  · by_cases hgf : g = f
    · subst hgf
      exact .inr hown
    · exact .inl ((fresh_setRef hgf).2 hg)

/-- `filealloc` finds a file. -/
theorem Inv.filealloc (h : Inv s) (hlive : s.status p = .live) (hdrops : s.drops p = [])
    (hf : s.ref f = 0) (hfiles : ∀ g, pc.files g = (s.pc p).files g + one f g)
    (hinodes : ∀ ip, pc.inodes ip = (s.pc p).inodes ip)
    (hloc : (s.setRef f 1 (s.kind f)).Knows p pc) (hchild : pc.child = none) :
    Inv ((s.setRef f 1 (s.kind f)).goto p [] pc) := by
  have hkind : Function.update s.kind f (s.kind f) = s.kind := Function.update_eq_self ..
  refine h.act hlive hdrops
    ⟨fun _ _ => rfl, fun _ _ => rfl, fun _ _ => rfl, fun _ _ => rfl⟩ rfl rfl (fun g => ?_)
    (fun ip => ?_) (fun pi w => ?_) (fun g hg => ?_) h.pages hloc (fun np hnp => ?_)
    fun g hg => .inl ?_
  · change Function.update s.ref f 1 g - s.ref g = _
    rw [update_inc (by rw [hf]; rfl), hfiles g]
    simp only [total_nil, State.setRef]
    omega
  · have hi := hinodes ip
    simp only [State.setRef, hkind, total_nil]
    omega
  · simp only [State.setRef, hkind, total_nil]
    omega
  · change Function.update s.ref f 1 g = 0 at hg
    change Function.update s.kind f (s.kind f) g = .FD_NONE
    rw [hkind]
    by_cases hgf : g = f
    · subst hgf
      rw [Function.update_self] at hg
      cases hg
    · rw [Function.update_of_ne hgf] at hg
      exact h.free g hg
  · rw [hchild] at hnp
    cases hnp
  · refine (fresh_setRef ?_).2 hg
    rintro rfl
    rw [hg.1] at hf
    cases hf

/-- The file that `filealloc` returns is fresh. -/
theorem Inv.fresh (h : Inv s) (hf : s.ref f = 0) : (s.setRef f 1 (s.kind f)).Fresh f := by
  refine ⟨Function.update_self .., ?_⟩
  rw [show (s.setRef f 1 (s.kind f)).kind f = s.kind f from Function.update_self ..]
  exact h.free f hf

/-- `open` makes its file refer to the inode. -/
theorem Inv.openFd {ip : Fin l} {fd : Fin k} {kind : Kind l G} (h : Inv s)
    (hlive : s.status p = .live) (hdrops : s.drops p = []) (hpc : s.pc p = .openFd ip f)
    (hfree : s.freeFd p = some fd) (hinode : ∀ jp, kind.inode jp = one ip jp)
    (hends : ∀ pi w, kind.ends pi w = 0) :
    Inv (((s.setRef f (s.ref f) kind).setFd p fd (some f)).goto p [] .user) := by
  have hnone := freeFd_eq hfree
  have hloc := h.loc p
  unfold State.Local at hloc
  rw [hpc] at hloc
  obtain ⟨hone, hkind⟩ := hloc
  have href : Function.update s.ref f (s.ref f) = s.ref := Function.update_eq_self ..
  refine h.act hlive hdrops
    ⟨fun _ hq => Function.update_of_ne hq .., fun _ _ => rfl, fun _ _ => rfl, fun _ _ => rfl⟩ rfl rfl
    (fun g => ?_) (fun jp => ?_) (fun pi w => ?_) (fun g hg => ?_) h.pages trivial childless
    fun g hg => ?_
  · simp only [State.setFd, State.setRef, href, Function.update_self, slots_update, hnone, hpc,
      PC.files, total_nil, one_some, one_none]
    omega
  · simp only [State.setFd, State.setRef, hpc, PC.inodes, total_nil]
    rw [sum_kind (fun kind => kind.inode jp), hinode, hkind]
    simp only [Kind.inode]
    omega
  · simp only [State.setFd, State.setRef, total_nil]
    rw [sum_kind (fun kind => kind.ends pi w), hends, hkind]
    simp only [Kind.ends]
    omega
  · change Function.update s.ref f (s.ref f) g = 0 at hg
    change Function.update s.kind f kind g = .FD_NONE
    rw [href] at hg
    have hgf : g ≠ f := by
      rintro rfl
      rw [hone] at hg
      cases hg
    rw [Function.update_of_ne hgf]
    exact h.free g hg
  · by_cases hgf : g = f
    · subst hgf
      refine .inr (filesOf_pos ?_)
      rw [hpc]
      exact Int.le_of_eq one_self.symm
    · exact .inl ((fresh_setRef hgf).2 hg)

/-- `pipealloc` gets a page and makes the two files its ends. -/
theorem Inv.pipePage {rf wf : Fin m} {pi : G} (h : Inv s) (hlive : s.status p = .live)
    (hdrops : s.drops p = []) (hpc : s.pc p = .pipePage rf wf) (hused : (s.pipe pi).used = false) :
    Inv ((((s.initPipe pi).setRef rf (s.ref rf) (.FD_PIPE pi false)).setRef wf (s.ref wf)
      (.FD_PIPE pi true)).goto p [] (.pipeFd0 rf wf)) := by
  have hloc := h.loc p
  unfold State.Local at hloc
  rw [hpc] at hloc
  obtain ⟨hne, ⟨hrone, hrkind⟩, hwone, hwkind⟩ := hloc
  have hclosed : ∀ w, (s.pipe pi).isOpen w = false := by
    intro w
    have hor := Bool.or_eq_false_iff.1 hused
    cases w
    · exact hor.1
    · exact hor.2
  have href : Function.update (Function.update s.ref rf (s.ref rf)) wf (s.ref wf) = s.ref := by
    rw [Function.update_eq_self, Function.update_eq_self]
  have hwf : Function.update s.kind rf (Kind.FD_PIPE pi false) wf = .FD_NONE := by
    rw [Function.update_of_ne hne.symm]
    exact hwkind
  have hrpos : 1 ≤ s.filesOf rf p := filesOf_pos (by
    rw [hpc]
    simp [PC.files, one_of_ne hne.symm])
  have hwpos : 1 ≤ s.filesOf wf p := filesOf_pos (by
    rw [hpc]
    simp [PC.files, one_of_ne hne])
  refine h.act hlive hdrops
    ⟨fun _ _ => rfl, fun _ _ => rfl, fun _ _ => rfl, fun _ _ => rfl⟩ rfl rfl (fun g => ?_)
    (fun jp => ?_) (fun pj w => ?_) (fun g hg => ?_) (fun pj => ?_) trivial childless fun g hg => ?_
  · simp only [State.setRef, State.initPipe, href, hpc, PC.files, total_nil]
    omega
  · simp only [State.setRef, State.initPipe, hpc, PC.inodes, total_nil]
    rw [sum_kind (fun kind => kind.inode jp), sum_kind (fun kind => kind.inode jp), hwf, hrkind]
    simp only [Kind.inode]
    omega
  · simp only [State.setRef, State.initPipe, total_nil]
    rw [sum_kind (fun kind => kind.ends pj w), sum_kind (fun kind => kind.ends pj w), hwf, hrkind]
    simp only [Kind.ends]
    by_cases hpj : pj = pi
    · subst hpj
      rw [Function.update_self, hclosed w]
      cases w
      · rw [one_self, one_of_ne (a := (pj, true)) (by simp)]
        simp [Pipe.isOpen, one]
      · rw [one_self, one_of_ne (a := (pj, false)) (by simp)]
        simp [Pipe.isOpen, one]
    · rw [Function.update_of_ne hpj, one_of_ne (a := (pi, false)) (by simp [Ne.symm hpj]),
        one_of_ne (a := (pi, true)) (by simp [Ne.symm hpj])]
      omega
  · simp only [State.setRef, State.initPipe, href] at hg ⊢
    have hgr : g ≠ rf := by
      rintro rfl
      rw [hrone] at hg
      cases hg
    have hgw : g ≠ wf := by
      rintro rfl
      rw [hwone] at hg
      cases hg
    rw [Function.update_of_ne hgw, Function.update_of_ne hgr]
    exact h.free g hg
  · change Pipe.Paged (Function.update s.pipe pi _ pj)
    by_cases hpj : pj = pi
    · subst hpj
      have hpaged := h.pages pj
      rw [Function.update_self]
      unfold Pipe.Paged at hpaged ⊢
      rw [if_neg (by rw [hused]; simp)] at hpaged
      change (s.pipe pj).allocs + 1 = (s.pipe pj).frees + 1
      omega
    · rw [Function.update_of_ne hpj]
      exact h.pages pj
  · by_cases hgr : g = rf
    · subst hgr
      exact .inr hrpos
    · by_cases hgw : g = wf
      · subst hgw
        exact .inr hwpos
      · exact .inl ((fresh_setRef hgw).2 ((fresh_setRef hgr).2 hg))

/-- `sys_pipe` fills its first descriptor. -/
theorem Inv.pipeFd0 {rf wf : Fin m} {fd0 : Fin k} (h : Inv s) (hlive : s.status p = .live)
    (hdrops : s.drops p = []) (hpc : s.pc p = .pipeFd0 rf wf) (hfree : s.freeFd p = some fd0) :
    Inv ((s.setFd p fd0 (some rf)).goto p [] (.pipeFd1 fd0 rf wf)) := by
  have hnone := freeFd_eq hfree
  refine h.setFds hlive hdrops (fun g => ?_) (fun ip => ?_) (fun _ _ => rfl) ?_ childless
  · rw [hpc, slots_update, hnone]
    simp only [PC.files, total_nil, one_some, one_none]
    omega
  · rw [hpc]
    rfl
  · change Function.update s.ofile p _ p fd0 = some rf
    rw [Function.update_self, Function.update_self]

/-- `sys_pipe` fills its second descriptor, or gives the first one up. -/
theorem Inv.pipeFd1 {rf wf : Fin m} {fd0 : Fin k} {c : Choice G} (h : Inv s)
    (hlive : s.status p = .live) (hdrops : s.drops p = []) (hpc : s.pc p = .pipeFd1 fd0 rf wf)
    (hs : s.step p c = some s') : Inv s' := by
  have hloc := h.loc p
  unfold State.Local at hloc
  rw [hpc] at hloc
  have hfd0 : s.ofile p fd0 = some rf := hloc
  unfold State.step at hs
  rw [hpc] at hs
  dsimp only at hs
  split at hs
  next fd1 hfree =>
    obtain rfl := Option.some.inj hs
    have hnone := freeFd_eq hfree
    have hne : fd0 ≠ fd1 := by
      rintro rfl
      rw [hfd0] at hnone
      cases hnone
    refine h.setFds hlive hdrops (fun g => ?_) (fun ip => ?_) (fun _ _ => rfl) ?_ childless
    · rw [hpc, slots_update, hnone]
      simp only [PC.files, total_nil, one_some, one_none]
      omega
    · rw [hpc]
      rfl
    · change fd0 ≠ fd1 ∧ Function.update s.ofile p _ p fd0 = some rf ∧
        Function.update s.ofile p _ p fd1 = some wf
      rw [Function.update_self, Function.update_of_ne hne, Function.update_self]
      exact ⟨hne, hfd0, rfl⟩
  next =>
    obtain rfl := Option.some.inj hs
    refine h.setFds hlive hdrops (fun g => ?_) (fun ip => ?_) (fun _ _ => rfl) trivial childless
    · rw [hpc, slots_update, hfd0]
      simp only [PC.files, Drop.files, total_cons, total_nil, one_some, one_none]
      omega
    · rw [hpc]
      rfl

/-- `sys_pipe` cannot tell the descriptors. -/
theorem Inv.pipeFails {rf wf : Fin m} {fd0 fd1 : Fin k} (h : Inv s) (hlive : s.status p = .live)
    (hdrops : s.drops p = []) (hpc : s.pc p = .pipeOut fd0 fd1 rf wf) :
    Inv (((s.setFd p fd0 none).setFd p fd1 none).goto p [.fileclose rf, .fileclose wf] .user) := by
  have hloc := h.loc p
  unfold State.Local at hloc
  rw [hpc] at hloc
  obtain ⟨hne, hfd0, hfd1⟩ := hloc
  have hset : (s.setFd p fd0 none).setFd p fd1 none = { s with
      ofile := Function.update s.ofile p
        (Function.update (Function.update (s.ofile p) fd0 none) fd1 none) } := by
    simp only [State.setFd, Function.update_self, Function.update_idem]
  rw [hset]
  refine h.setFds hlive hdrops (fun g => ?_) (fun ip => ?_) (fun _ _ => rfl) trivial childless
  · rw [hpc, slots_update, slots_update, hfd0, Function.update_of_ne hne.symm, hfd1]
    simp only [PC.files, Drop.files, total_cons, total_nil, one_some, one_none]
    omega
  · rw [hpc]
    rfl

/-! ## Processes -/

/-- A process that is in no system call, and whose slot may be reused, has
nothing. -/
theorem Inv.exited (h : Inv s) (hlive : s.status p = .live) (hdrops : s.drops p = [])
    (hpc : s.pc p = .exited) : Inv ((s.setStatus p .ZOMBIE).goto p [] .user) := by
  have hloc := h.loc p
  unfold State.Local at hloc
  rw [hpc] at hloc
  have hstay : Inv (s.goto p [] .user) := h.stay hlive hdrops (fun f => by
    rw [hpc]
    rfl) (fun ip => by
    rw [hpc]
    rfl) (fun _ _ => rfl) trivial childless
  have hother : ∀ q, q ≠ p → (s.setStatus p .ZOMBIE).status q = s.status q := fun q hq =>
    Function.update_of_ne hq ..
  refine ⟨⟨hstay.books.files, hstay.books.inodes, hstay.books.ends⟩, h.free, h.pages, fun q => ?_,
    fun q hq => ?_, fun q hq => ?_, hstay.child, h.panic⟩
  · refine (hstay.loc q).other rfl rfl rfl (fun _ _ hf => hf) fun np i _ hm => ?_
    refine ⟨?_, hm.2⟩
    have hst : s.status np = .USED := hm.1
    refine (hother np ?_).trans hst
    rintro rfl
    rw [hlive] at hst
    cases hst
  · by_cases hqp : q = p
    · subst hqp
      exact ⟨Function.update_self .., Function.update_self ..⟩
    · exact hstay.idle q (hother q hqp ▸ hq)
  · by_cases hqp : q = p
    · subst hqp
      exact hloc
    · rw [show ((s.setStatus p .ZOMBIE).goto p [] .user).status q = s.status q from
        hother q hqp] at hq
      exact h.empty q hq

/-- `wait` frees the slot of a zombie. -/
theorem Inv.reap (h : Inv s) (hz : s.status p = .ZOMBIE) : Inv (s.setStatus p .UNUSED) := by
  have hother : ∀ q, q ≠ p → (s.setStatus p .UNUSED).status q = s.status q := fun q hq =>
    Function.update_of_ne hq ..
  refine ⟨⟨h.books.files, h.books.inodes, h.books.ends⟩, h.free, h.pages, fun q => ?_,
    fun q hq => ?_, fun q hq => ?_, h.child, h.panic⟩
  · refine (h.loc q).other rfl rfl rfl (fun _ _ hf => hf) fun np i _ hm => ?_
    refine ⟨(hother np ?_).trans hm.1, hm.2⟩
    rintro rfl
    exact absurd (hz.symm.trans hm.1) (by simp)
  · by_cases hqp : q = p
    · subst hqp
      exact h.idle q (by rw [hz]; simp)
    · exact h.idle q (hother q hqp ▸ hq)
  · by_cases hqp : q = p
    · subst hqp
      exact h.empty q (.inr hz)
    · exact h.empty q (hother q hqp ▸ hq)

/-- `allocproc` finds a slot for `fork`. -/
theorem Inv.fork {np : Fin n} (h : Inv s) (hlive : s.status p = .live) (hdrops : s.drops p = [])
    (hpc : s.pc p = .user) (hnp : s.status np = .UNUSED) :
    Inv ((s.setStatus np .USED).goto p [] (.forkMem np)) := by
  have hne : p ≠ np := by
    rintro rfl
    rw [hlive] at hnp
    cases hnp
  have hidle := h.idle np (by rw [hnp]; simp)
  have hempty := h.empty np (.inl hnp)
  have hother : ∀ q, q ≠ np → (s.setStatus np .USED).status q = s.status q := fun q hq =>
    Function.update_of_ne hq ..
  have hbooks : Books (s.goto p [] (.forkMem np)) :=
    h.books.change (p := p) others_goto
      (fun f => by simp only [State.filesOf, State.goto, Function.update_self, hdrops, hpc, PC.files,
        total_nil]; omega)
      (fun ip => by simp only [State.inodesOf, State.goto, Function.update_self, hdrops, hpc,
        PC.inodes, total_nil]; omega)
      (fun pi w => by simp only [State.endsOf, State.goto, Function.update_self, hdrops]; omega)
  have hpcs : ∀ q, q ≠ p → (s.goto p [] (.forkMem np)).pc q = s.pc q := fun q hq =>
    Function.update_of_ne hq ..
  refine ⟨⟨hbooks.files, hbooks.inodes, hbooks.ends⟩, h.free, h.pages, fun q => ?_,
    fun q hq => ?_, fun q hq => ?_, fun q r np' hq hr => ?_, h.panic⟩
  · by_cases hqp : q = p
    · subst hqp
      exact local_goto.2 ⟨Function.update_self .., hempty.1, fun fd _ => hempty.2 fd⟩
    · refine (h.loc q).other (hpcs q hqp) rfl rfl (fun _ _ hf => hf) fun np' i _ hm => ?_
      refine ⟨(hother np' ?_).trans hm.1, hm.2⟩
      rintro rfl
      exact absurd (hnp.symm.trans hm.1) (by simp)
  · by_cases hqn : q = np
    · subst hqn
      have hq' : q ≠ p := hne.symm
      rw [show ((s.setStatus q .USED).goto p [] (.forkMem q)).pc q = s.pc q from hpcs q hq',
        show ((s.setStatus q .USED).goto p [] (.forkMem q)).drops q = s.drops q from
          Function.update_of_ne hq' ..]
      exact hidle
    · have hst : s.status q ≠ .live := hother q hqn ▸ hq
      have hqp : q ≠ p := by
        rintro rfl
        exact hst hlive
      rw [show ((s.setStatus np .USED).goto p [] (.forkMem np)).pc q = s.pc q from hpcs q hqp,
        show ((s.setStatus np .USED).goto p [] (.forkMem np)).drops q = s.drops q from
          Function.update_of_ne hqp ..]
      exact h.idle q hst
  · by_cases hqn : q = np
    · subst hqn
      exact hempty
    · rw [show ((s.setStatus np .USED).goto p [] (.forkMem np)).status q = s.status q from
        hother q hqn] at hq
      exact h.empty q hq
  · have hchild : ∀ q, q ≠ p → (s.pc q).child ≠ some np := by
      intro q hqp hc
      have hloc := h.loc q
      unfold State.Local at hloc
      cases hq : s.pc q <;> rw [hq] at hloc hc <;> cases hc <;>
        exact absurd (hnp.symm.trans hloc.1) (by simp)
    by_cases hqp : q = p
    · by_cases hrp : r = p
      · rw [hqp, hrp]
      · subst hqp
        rw [show ((s.setStatus np .USED).goto q [] (.forkMem np)).pc q = .forkMem np from
          Function.update_self ..] at hq
        cases hq
        rw [show ((s.setStatus np .USED).goto q [] (.forkMem np)).pc r = s.pc r from
          hpcs r hrp] at hr
        exact absurd hr (hchild r hrp)
    · rw [show ((s.setStatus np .USED).goto p [] (.forkMem np)).pc q = s.pc q from
        hpcs q hqp] at hq
      by_cases hrp : r = p
      · subst hrp
        rw [show ((s.setStatus np .USED).goto r [] (.forkMem np)).pc r = .forkMem np from
          Function.update_self ..] at hr
        cases hr
        exact absurd hq (hchild q hqp)
      · rw [show ((s.setStatus np .USED).goto p [] (.forkMem np)).pc r = s.pc r from
          hpcs r hrp] at hr
        exact h.child q r np' hq hr

/-- A step of `fork` that works on the new process. -/
theorem Inv.child_step {np : Fin n} (h : Inv s) (hlive : s.status p = .live)
    (hdrops : s.drops p = []) (hchild : (s.pc p).child = some np) (hnp : s.status np = .USED)
    (ho : Others np s s') (hpcs : s'.pc = s.pc) (hds : s'.drops = s.drops)
    (hstatus : ∀ q, q ≠ np → s'.status q = s.status q) (hbooks : Books s')
    (hfree : ∀ f, s'.ref f = 0 → s'.kind f = .FD_NONE) (hpipe : s'.pipe = s.pipe)
    (hpanic : s'.panic = s.panic) (hfiles : ∀ f, pc.files f = (s.pc p).files f)
    (hinodes : ∀ ip, pc.inodes ip = (s.pc p).inodes ip) (hloc : s'.Knows p pc)
    (hpc : ∀ np', pc.child = some np' → np' = np)
    (hempty : s'.status np = .UNUSED ∨ s'.status np = .ZOMBIE →
      s'.cwd np = none ∧ ∀ fd, s'.ofile np fd = none)
    (hfresh : ∀ f, s.Fresh f → s'.Fresh f ∨ 1 ≤ s.filesOf f p) : Inv (s'.goto p [] pc) := by
  have hne : p ≠ np := by
    rintro rfl
    rw [hlive] at hnp
    cases hnp
  have hidle := h.idle np (by rw [hnp]; simp)
  have hpcq : ∀ q, q ≠ p → (s'.goto p [] pc).pc q = s.pc q := fun q hq =>
    (Function.update_of_ne hq ..).trans (congrFun hpcs q)
  have hdsq : ∀ q, q ≠ p → (s'.goto p [] pc).drops q = s.drops q := fun q hq =>
    (Function.update_of_ne hq ..).trans (congrFun hds q)
  refine ⟨hbooks.change (p := p) others_goto (fun f => ?_) (fun ip => ?_) (fun pi w => ?_), hfree,
    fun pi => ?_, fun q => ?_, fun q hq => ?_, fun q hq => ?_, fun q r np' hq hr => ?_,
    hpanic ▸ h.panic⟩
  · simp only [State.filesOf, State.goto, Function.update_self, hds, hpcs, hdrops, hfiles]
    omega
  · simp only [State.inodesOf, State.goto, Function.update_self, hds, hpcs, hdrops, hinodes]
    omega
  · simp only [State.endsOf, State.goto, Function.update_self, hds, hdrops]
    omega
  · change (s'.pipe pi).Paged
    rw [hpipe]
    exact h.pages pi
  · by_cases hqp : q = p
    · subst hqp
      exact local_goto.2 hloc
    · by_cases hqn : q = np
      · subst hqn
        unfold State.Local
        rw [hpcq q hqp, hidle.1]
        trivial
      · refine (h.loc q).other (hpcq q hqp) (ho.ofile q hqn) (ho.cwd q hqn) (fun f hf hfr => ?_)
          fun np' i hc hm => ?_
        · refine (hfresh f hfr).resolve_right fun hp => ?_
          have htwo := h.two_le hqp (filesOf_pos hf) hp
          rw [hfr.1] at htwo
          exact absurd htwo (by decide)
        · have hnp' : np' ≠ np := by
            rintro rfl
            exact hqp (h.child q p np' hc hchild)
          refine ⟨(hstatus np' hnp').trans hm.1, (ho.cwd np' hnp').trans hm.2.1, ?_⟩
          rw [show (s'.goto p [] pc).ofile np' = s.ofile np' from ho.ofile np' hnp']
          exact hm.2.2
  · by_cases hqn : q = np
    · subst hqn
      rw [hpcq q hne.symm, hdsq q hne.symm]
      exact hidle
    · have hst : s.status q ≠ .live := hstatus q hqn ▸ hq
      have hqp : q ≠ p := by
        rintro rfl
        exact hst hlive
      rw [hpcq q hqp, hdsq q hqp]
      exact h.idle q hst
  · by_cases hqn : q = np
    · subst hqn
      exact hempty hq
    · rw [show (s'.goto p [] pc).status q = s.status q from hstatus q hqn] at hq
      rw [show (s'.goto p [] pc).cwd q = s.cwd q from ho.cwd q hqn,
        show (s'.goto p [] pc).ofile q = s.ofile q from ho.ofile q hqn]
      exact h.empty q hq
  · have hkept : ∀ q, ((s'.goto p [] pc).pc q).child = some np' → (s.pc q).child = some np' := by
      intro q hc
      by_cases hqp : q = p
      · subst hqp
        rw [show (s'.goto q [] pc).pc q = pc from Function.update_self ..] at hc
        rw [hpc np' hc]
        exact hchild
      · rwa [hpcq q hqp] at hc
    exact h.child q r np' (hkept q hq) (hkept r hr)

/-- `fork` gives the slot back when there is no memory. -/
theorem Inv.forkFails {np : Fin n} (h : Inv s) (hlive : s.status p = .live)
    (hdrops : s.drops p = []) (hpc : s.pc p = .forkMem np) :
    Inv ((s.setStatus np .UNUSED).goto p [] .user) := by
  have hloc := h.loc p
  unfold State.Local at hloc
  rw [hpc] at hloc
  obtain ⟨hnp, hcwd, hofile⟩ := hloc
  exact h.child_step hlive hdrops (by rw [hpc]; rfl) hnp
    ⟨fun _ _ => rfl, fun _ _ => rfl, fun _ _ => rfl, fun _ _ => rfl⟩ rfl rfl
    (fun q hq => Function.update_of_ne hq ..) ⟨h.books.files, h.books.inodes, h.books.ends⟩ h.free
    rfl rfl (fun f => by rw [hpc]; rfl) (fun ip => by rw [hpc]; rfl) trivial childless
    (fun _ => ⟨hcwd, fun fd => hofile fd (Nat.zero_le _)⟩) fun f hf => .inl hf

/-- `fork` copies a descriptor. -/
theorem Inv.forkFd {np : Fin n} {i : Nat} {hi : i < k} (h : Inv s) (hlive : s.status p = .live)
    (hdrops : s.drops p = []) (hpc : s.pc p = .forkLoop np i) (hfd : s.ofile p ⟨i, hi⟩ = some f) :
    Inv (s.filedup f fun s =>
      (s.setFd np ⟨i, hi⟩ (some f)).goto p [] (.forkLoop np (i + 1))) := by
  have hloc := h.loc p
  unfold State.Local at hloc
  rw [hpc] at hloc
  obtain ⟨hnp, hcwd, hofile⟩ := hloc
  have hown : 1 ≤ s.filesOf f p := by
    have hpos := slots_pos hfd
    simp only [State.filesOf, hdrops, hpc, total_nil, PC.files]
    omega
  have hle := h.le_ref p f
  unfold State.filedup
  rw [if_neg (by omega)]
  have hkind : Function.update s.kind f (s.kind f) = s.kind := Function.update_eq_self ..
  have ho : Others np s ((s.setRef f (s.ref f + 1) (s.kind f)).setFd np ⟨i, hi⟩ (some f)) :=
    ⟨fun _ hq => Function.update_of_ne hq .., fun _ _ => rfl, fun _ _ => rfl, fun _ _ => rfl⟩
  refine h.child_step hlive hdrops (by rw [hpc]; rfl) hnp ho rfl rfl (fun _ _ => rfl)
    (h.books.change ho (fun g => ?_) (fun ip => ?_) fun pi w => ?_) (fun g hg => ?_) rfl rfl
    (fun f => by rw [hpc]; rfl) (fun ip => by rw [hpc]; rfl) ⟨hnp, hcwd, fun fd hfd => ?_⟩
    (fun np' hnp' => (Option.some.inj hnp').symm) (fun hst => ?_) fun g hg => ?_
  · simp only [State.filesOf, State.setFd, State.setRef, Function.update_self, slots_update]
    rw [update_inc rfl, hofile ⟨i, hi⟩ (Nat.le_refl _)]
    simp only [one_some, one_none]
    omega
  · simp only [State.inodesOf, State.setFd, State.setRef, hkind]
    omega
  · simp only [State.endsOf, State.setFd, State.setRef, hkind]
    omega
  · change Function.update s.ref f (s.ref f + 1) g = 0 at hg
    change Function.update s.kind f (s.kind f) g = .FD_NONE
    rw [hkind]
    by_cases hgf : g = f
    · subst hgf
      rw [Function.update_self] at hg
      omega
    · rw [Function.update_of_ne hgf] at hg
      exact h.free g hg
  · change Function.update s.ofile np _ np fd = none
    rw [Function.update_self, Function.update_of_ne]
    · exact hofile fd (by omega)
    · rintro rfl
      exact absurd hfd (Nat.not_succ_le_self i)
  · rw [show ((s.setRef f (s.ref f + 1) (s.kind f)).setFd np ⟨i, hi⟩ (some f)).status np =
      .USED from hnp] at hst
    rcases hst with hst | hst <;> cases hst
  · by_cases hgf : g = f
    · subst hgf
      exact .inr hown
    · exact .inl ((fresh_setRef hgf).2 hg)

/-- `fork` copies the directory, and lets the new process go. -/
theorem Inv.forkCwd {np : Fin n} {ip : Fin l} (h : Inv s) (hlive : s.status p = .live)
    (hdrops : s.drops p = []) (hpc : s.pc p = .forkCwd np) :
    Inv ((((s.addIref ip 1).setCwd np (some ip)).setStatus np .live).goto p [] .user) := by
  have hloc := h.loc p
  unfold State.Local at hloc
  rw [hpc] at hloc
  obtain ⟨hnp, hcwd, hofile⟩ := hloc
  have ho : Others np s (((s.addIref ip 1).setCwd np (some ip)).setStatus np .live) :=
    ⟨fun _ _ => rfl, fun _ hq => Function.update_of_ne hq .., fun _ _ => rfl, fun _ _ => rfl⟩
  refine h.child_step hlive hdrops (by rw [hpc]; rfl) hnp ho rfl rfl
    (fun q hq => Function.update_of_ne hq ..)
    (h.books.change ho (fun g => ?_) (fun jp => ?_) fun pi w => ?_) h.free rfl rfl
    (fun f => by rw [hpc]; rfl) (fun ip => by rw [hpc]; rfl) trivial childless (fun hst => ?_)
    fun f hf => .inl hf
  · simp only [State.filesOf, State.setStatus, State.setCwd, State.addIref]
    omega
  · simp only [State.inodesOf, State.setStatus, State.setCwd, State.addIref, Function.update_self]
    rw [update_inc rfl, hcwd]
    simp only [one_some, one_none]
    omega
  · simp only [State.endsOf, State.setStatus, State.setCwd, State.addIref]
    omega
  · rw [show (((s.addIref ip 1).setCwd np (some ip)).setStatus np .live).status np = .live from
      Function.update_self ..] at hst
    rcases hst with hst | hst <;> cases hst

end Xv6.OpenFiles
