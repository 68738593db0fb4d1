/-
exec.c: the call from the fetched strings to the registers of the new program.
What the old table held is given back while the new one is in use.
-/
import Xv6.ExecStack
import Xv6.FailedFork
import Xv6.OutOfMemory
import Xv6.UserTable

namespace Xv6

open Conc Prog

/-- A register in a trapframe. -/
def Kernel.reg (s : Kernel) (trapframe : Frame) (off : Nat) : Nat :=
  le (s.readBytes trapframe off 8) 0 8

/-- The image of the file loads into a new table, up to the stack. -/
def Kernel.Loads [KernelImage] (s : Kernel) (t : Slot) (file : Option (List UInt8)) : Prop :=
  ∃ content elf trapframe pagetable sz s₁ s₂, file = some content ∧
    readElfHdr content = some elf ∧ elf.magic = ELF_MAGIC ∧
    (s.proc t).trapframe = some trapframe ∧
    (proc_pagetable kalloc t trapframe).run s = .ok (some pagetable) s₁ ∧
    (loadPhdrs kalloc t pagetable content elf.phnum (elf.phoff % 2 ^ 32) 0).run s₁ =
      .ok (sz, true) s₂

variable {s s' : Kernel} {r g f : Frame} {ka : Kalloc}

/-! ## The trapframe -/

theorem le_u64Bytes {x : Nat} (hx : x < 2 ^ 64) : le (u64Bytes x) 0 8 = x := by
  simp only [le, u64Bytes, List.range, List.range.loop, List.map_cons, List.map_nil, List.drop_zero,
    List.take_succ_cons, List.take_zero, List.foldr_cons, List.foldr_nil, UInt8.toNat_ofNat']
  omega

theorem length_u64Bytes (x : Nat) : (u64Bytes x).length = 8 := by
  rw [u64Bytes, List.length_map, List.length_range]

theorem reg_congr (hmem : s'.mem f = s.mem f) (off : Nat) : s'.reg f off = s.reg f off := by
  rw [Kernel.reg, Kernel.reg, Kernel.readBytes, Kernel.readBytes, hmem]

theorem reg_writeBytes {x off : Nat} (hx : x < 2 ^ 64) :
    (s.writeBytes f off (u64Bytes x)).reg f off = x := by
  refine Eq.trans (congrArg (le · 0 8) ?_) (le_u64Bytes hx)
  refine List.ext_getElem (by rw [length_readBytes, length_u64Bytes]) fun i hi hi' => ?_
  rw [length_u64Bytes] at hi'
  simp only [Kernel.readBytes, List.getElem_map, List.getElem_range, Kernel.writeBytes]
  rw [Function.update_self, length_u64Bytes, if_pos (by omega), Nat.add_sub_cancel_left,
    List.getD_eq_getElem?_getD, List.getElem?_eq_getElem, Option.getD_some]

theorem reg_writeBytes_of_ne {x off off' : Nat} (h : off + 8 ≤ off' ∨ off' + 8 ≤ off) :
    (s.writeBytes f off (u64Bytes x)).reg f off' = s.reg f off' := by
  rw [Kernel.reg, Kernel.reg]
  congr 1
  refine List.map_congr_left fun i hi => ?_
  have hlt := List.mem_range.1 hi
  rw [Kernel.writeBytes]
  dsimp only
  rw [Function.update_self, length_u64Bytes, if_neg (by omega)]

/-! ## The image -/

theorem loadsegLoop_mem {va offset sz n i : Nat} {content : List UInt8} {res : Int}
    (hr : (loadsegLoop ka r va content offset sz n i).run s = .ok res s') :
    ∃ m, s' = { s with mem := m } := by
  induction n generalizing s i with
  | zero =>
    obtain ⟨-, rfl⟩ := Outcome.ok.inj hr
    exact ⟨_, rfl⟩
  | succ n ih =>
    unfold loadsegLoop at hr
    rw [run_bind, walkaddr_run] at hr
    dsimp only at hr
    split at hr
    next => cases hr
    next =>
      generalize (if sz - i < PGSIZE then sz - i else PGSIZE) = n' at hr
      simp only [run_bind, run_modify] at hr
      split at hr
      next =>
        obtain ⟨-, rfl⟩ := Outcome.ok.inj hr
        exact ⟨_, rfl⟩
      next =>
        obtain ⟨m, hm⟩ := ih hr
        exact ⟨m, hm⟩

section

variable [KernelImage] {lbl lbl' : Frame → Option (Frame × Node)} {t : Slot}

theorem Table.mem (h : Table s r lbl) (m : Frame → Nat → UInt8) :
    Table { s with mem := m } r lbl :=
  h.congr (h.alloc.congr rfl rfl rfl) (fun _ _ _ => rfl) h.free

omit [KernelImage] in
theorem Kernel.Extends.mem (h : s.Extends s' lbl lbl') (m : Frame → Nat → UInt8) :
    s.Extends { s' with mem := m } lbl lbl' := ⟨h.free, h.label, h.pte, h.proc⟩

theorem Table.uvmalloc (h : Table s r lbl) {oldsz newsz sz : Nat} {xperm : Flags}
    (hr : (Xv6.uvmalloc Xv6.kalloc t r oldsz newsz xperm).run s = .ok sz s') :
    ∃ lbl', Table s' r lbl' ∧ s.Extends s' lbl lbl' := by
  rw [Xv6.uvmalloc] at hr
  split at hr
  · obtain ⟨-, rfl⟩ := Outcome.ok.inj hr
    exact ⟨lbl, h, .refl s lbl⟩
  · obtain ⟨v, hv⟩ : ∃ v, PGROUNDUP oldsz = v * PGSIZE := ⟨_, rfl⟩
    dsimp only at hr
    rw [hv] at hr
    obtain ⟨res, s₁, hloop, hr⟩ := bind_run_ok hr
    obtain ⟨rfl, -, -, lbl', -, hT, hext, -⟩ := h.uvmallocLoop hloop
    obtain ⟨-, rfl⟩ := Outcome.ok.inj hr
    exact ⟨lbl', hT, hext⟩

theorem Table.loadPhdrs (h : Table s r lbl) {content : List UInt8} {n off sz : Nat}
    {x : Nat × Bool} (hr : (Xv6.loadPhdrs Xv6.kalloc t r content n off sz).run s = .ok x s') :
    ∃ lbl', Table s' r lbl' ∧ s.Extends s' lbl lbl' := by
  induction n generalizing s lbl off sz with
  | zero =>
    obtain ⟨-, rfl⟩ := Outcome.ok.inj hr
    exact ⟨lbl, h, .refl s lbl⟩
  | succ n ih =>
    have hstop : ∀ {y : Nat × Bool} {s₁ : Kernel},
        (return y : Prog Kernel (Nat × Bool)).run s₁ = .ok x s' → s' = s₁ := fun he =>
      (Outcome.ok.inj he).2.symm
    unfold Xv6.loadPhdrs at hr
    split at hr
    · rw [hstop hr]
      exact ⟨lbl, h, .refl s lbl⟩
    dsimp only at hr
    split at hr
    · exact ih h hr
    iterate 3
      split at hr
      · rw [hstop hr]
        exact ⟨lbl, h, .refl s lbl⟩
    obtain ⟨sz1, s₁, hgrow, hr⟩ := bind_run_ok hr
    obtain ⟨lbl₁, hT₁, hext₁⟩ := h.uvmalloc hgrow
    split at hr
    · rw [hstop hr]
      exact ⟨lbl₁, hT₁, hext₁⟩
    obtain ⟨res, s₂, hseg, hr⟩ := bind_run_ok hr
    obtain ⟨m, rfl⟩ := loadsegLoop_mem hseg
    split at hr
    · rw [hstop hr]
      exact ⟨lbl₁, hT₁.mem m, hext₁.mem m⟩
    · obtain ⟨lbl', hT', hext'⟩ := ih (hT₁.mem m) hr
      exact ⟨lbl', hT', (hext₁.mem m).trans hext'⟩

theorem Kernel.Allocator.exact (h : s.Allocator) : Exact s := by
  have hlen := h.length_lt List.nodup_nil nofun nofun
  have hmax := h.max_lt
  have hpos : 0 < totalPages := Nat.sub_pos_of_lt KernelImage.end_lt
  refine ⟨h.count, hlen, by rw [h.max]; omega, ?_⟩
  unfold UINT64_MAX at hmax
  omega

/-- `proc_pagetable` takes free pages for the table, and that is all. -/
theorem Kernel.Allocator.proc_pagetable (h : s.Allocator) {trapframe : Frame} {res : Option Frame}
    (hr : (Xv6.proc_pagetable Xv6.kalloc t trapframe).run s = .ok res s') :
    s'.proc = s.proc ∧ ∀ r, res = some r → ∃ lbl, Table s' r lbl ∧
      s.Extends s' (fun _ => none) lbl := by
  have hdoc : (Xv6.proc_pagetable kallocDoc t trapframe).run s = .ok res s' := by
    rcases proc_pagetable_agree t trapframe s h.exact with he | ⟨he, -⟩
    · rw [he] at hr
      cases hr
    · rw [he, hr]
  obtain ⟨res', s₁, hrun, hproc, hres⟩ :=
    (Kernel.Lends.refl h t).proc_pagetable kallocDoc_promised t trapframe
  obtain ⟨rfl, rfl⟩ := Outcome.ok.inj (hdoc.symm.trans hrun)
  refine ⟨hproc, fun r hsome => ?_⟩
  rcases hres with ⟨hnone, -⟩ | ⟨r', lbl, hr', -, hB, -⟩
  · rw [hnone] at hsome
    cases hsome
  · obtain rfl := Option.some.inj (hr'.symm.trans hsome)
    refine ⟨lbl, hB.table, fun f hf => (hB.lends.free f).2 (.inl hf), fun f hf => ?_,
      fun f hf _ => hB.lends.pte f hf, hproc⟩
    by_contra hne
    exact hf ((hB.lends.free f).2 (.inr (.inl hne)))

omit [KernelImage] in
/-- The stack is on one page. -/
theorem Kernel.ArgStack.congr {sz sp : Nat} {argv : List (List UInt8)}
    (h : s.ArgStack r sz sp argv) (hpage : StackPage s r (sz - PGSIZE) g)
    (hmap : ∀ v, mapping s'.pte r v = mapping s.pte r v) (hmem : s'.mem g = s.mem g) :
    s'.ArgStack r sz sp argv := by
  obtain ⟨h16, hal, hle, hguard, ptrs, lo, hptrs, hheld, hlo, hlaid⟩ := h
  have hpg := hpage.guard
  have hbase : PGSIZE = 4096 := rfl
  have huser : ∀ v, s'.userPage r v = s.userPage r v := fun v => by
    rw [Kernel.userPage, Kernel.userPage, hmap]
  have hpage' : StackPage s' r (sz - PGSIZE) g :=
    ⟨hpage.aligned, hpage.guard, hpage.lt, (huser _).trans hpage.page⟩
  have hkeep : ∀ va bs, sp ≤ va → va + bs.length ≤ sz → s.Holds r va bs → s'.Holds r va bs := by
    intro va bs hva hbs hs i hi
    rw [← hs i hi, hpage.userByte (by omega) (by omega), hpage'.userByte (by omega) (by omega),
      hmem]
  have hlen : ((ptrs ++ [0]).flatMap u64Bytes).length = 8 * (argv.length + 1) := by
    rw [length_flatMap_u64Bytes, List.length_append, List.length_singleton, hptrs]
  have hlosz := hlaid.le
  refine ⟨h16, hal, hle, (huser _).trans hguard, ptrs, lo, hptrs,
    hkeep sp _ (Nat.le_refl _) (by omega) hheld, hlo, ?_⟩
  exact hlaid.mono (Nat.le_refl _) fun va bs hva hbs hs => hkeep va bs (by omega) hbs hs

variable {old tf : Frame} {k : Kernel}

/-- What `exec` has changed when it frees the old table. -/
def Kernel.commit (k : Kernel) (t : Slot) (tf r : Frame) (sz sp entry : Nat) : Kernel :=
  (((k.writeBytes tf Trapframe.a1 (u64Bytes sp)).updProc t fun p =>
    { p with pagetable := some r, sz := sz }).writeBytes tf Trapframe.epc
      (u64Bytes entry)).writeBytes tf Trapframe.sp (u64Bytes sp)

omit [KernelImage] in
theorem commit_reg (k : Kernel) (t : Slot) (tf r : Frame) (sz entry : Nat) {sp : Nat}
    (hsp : sp < 2 ^ 64) :
    (k.commit t tf r sz sp entry).reg tf Trapframe.sp = sp ∧
      (k.commit t tf r sz sp entry).reg tf Trapframe.a1 = sp := by
  refine ⟨reg_writeBytes hsp, ?_⟩
  rw [Kernel.commit, reg_writeBytes_of_ne (by decide), reg_writeBytes_of_ne (by decide)]
  exact reg_writeBytes hsp

/-- From `s` process `t` has come to `s'` with a new table, of pages that were
free, and its arguments on a stack page that was free. -/
structure Kernel.Started (s s' : Kernel) (t : Slot) (tf r : Frame) (sp : Nat)
    (argv : List (List UInt8)) : Prop where
  pagetable : (s'.proc t).pagetable = some r
  trapframe : (s'.proc t).trapframe = some tf
  reg_sp : s'.reg tf Trapframe.sp = sp
  reg_a1 : s'.reg tf Trapframe.a1 = sp
  stack : s'.ArgStack r (s'.proc t).sz sp argv
  page : ∃ g ∈ s.freelist, StackPage s' r ((s'.proc t).sz - PGSIZE) g
  tree : ∃ lbl, TreeOf Mapped s'.pte lbl ∧ lbl r = some (r, .root) ∧
    ∀ f x, lbl f = some x → f ∈ s.freelist

/-- The old table is freed, and what `exec` has made stays. -/
theorem Kernel.InCall.commit (h : s.InCall t old tf lbl) (hT : Table k r lbl')
    (hext : s.Extends k (fun _ => none) lbl') {sz sp : Nat} {argv : List (List UInt8)} (entry : Nat)
    (hstack : k.ArgStack r sz sp argv) (hsp : sp < 2 ^ 64)
    (hpage : StackPage k r (sz - PGSIZE) g) (hfree : g ∈ s.freelist) (htaken : g ∉ k.freelist) :
    ∃ s', (proc_freepagetable kalloc t old (s.proc t).sz).run (k.commit t tf r sz sp entry) =
        .ok () s' ∧ s.Started s' t tf r sp argv := by
  obtain ⟨c, hc⟩ : ∃ c, c = k.commit t tf r sz sp entry := ⟨_, rfl⟩
  have hpte : c.pte = k.pte := by rw [hc]; rfl
  have hlist : c.freelist = k.freelist := by rw [hc]; rfl
  have hproc : c.proc =
      Function.update s.proc t { s.proc t with pagetable := some r, sz := sz } := by
    rw [← hext.proc, hc]
    rfl
  have htable := h.user.table
  have hback : ∀ f, f ∈ c.freelist → f ∈ s.freelist := fun f hf => hext.free f (hlist ▸ hf)
  have ha : c.Allocator := hT.alloc.congr hlist (by rw [hc]; rfl) (by rw [hc]; rfl)
  obtain ⟨hU, hold⟩ := h.user.congr ha (fun f x hf => by
    rw [hpte]
    refine hext.pte f (fun hmem => ?_) rfl
    rw [htable.free f hmem] at hf
    cases hf) hback
  obtain ⟨s', hrun, hproc', hspare⟩ := hU.proc_freepagetable kalloc t
  -- what was free before is no page of the old table
  have hnew : ∀ f, f ∈ s.freelist → f ∉ k.freelist → c.Spares s' f := fun f hf hf' => by
    refine hspare f (hlist ▸ hf') (htable.free f hf) fun u p hu hp he => ?_
    rw [hold] at hp
    exact (h.user.page u p hu hp).2.1 (he ▸ hf)
  have htf : c.Spares s' tf := by
    refine hspare tf (fun hmem => h.taken (hback tf hmem)) h.node fun u p hu hp => ?_
    rw [hold] at hp
    exact h.page u p hu hp
  have hnode : ∀ f x, lbl' f = some x → f ∈ s.freelist := fun f x hf => by
    by_contra hmem
    rw [hext.label f hmem] at hf
    cases hf
  have hkept : ∀ f x, lbl' f = some x → s'.pte f = k.pte f := fun f x hf => by
    have hf' : f ∉ k.freelist := fun hmem => by
      rw [hT.free f hmem] at hf
      cases hf
    rw [← hpte]
    exact (hnew f (hnode f x hf) hf').pte
  have hmap := hT.tree.mapping_congr hT.root fun f n hf => hkept f (r, n) hf
  have hmem : s'.mem g = k.mem g := by
    have hne : g ≠ tf := fun he => h.taken (he ▸ hfree)
    rw [(hnew g hfree htaken).mem, hc]
    exact (Function.update_of_ne hne ..).trans
      ((Function.update_of_ne hne ..).trans (Function.update_of_ne hne ..))
  obtain ⟨hreg, hreg'⟩ := commit_reg k t tf r sz entry hsp
  rw [← hc] at hreg hreg' ⊢
  rw [← reg_congr htf.mem] at hreg hreg'
  have hdone : s'.proc t = { s.proc t with pagetable := some r, sz := sz } := by
    rw [hproc', hproc, Function.update_self]
  have hsz : (s'.proc t).sz = sz := by rw [hdone]
  refine ⟨s', hrun, by rw [hdone], by rw [hdone]; exact h.trapframe, hreg, hreg', ?_,
    ⟨g, hfree, ?_⟩, lbl', hT.tree.congr fun f q n hf => hkept f (q, n) hf, hT.root, hnode⟩
  · rw [hsz]
    exact hstack.congr hpage hmap hmem
  · rw [hsz]
    exact ⟨hpage.aligned, hpage.guard, hpage.lt, by
      rw [Kernel.userPage, hmap]
      exact hpage.page⟩

/-- With the header read, the rest of it is two calls. -/
theorem Kernel.loads_iff {content : List UInt8} {elf : ElfHdr}
    (helf : readElfHdr content = some elf) (hmagic : elf.magic = ELF_MAGIC)
    (htf : (s.proc t).trapframe = some tf) :
    s.Loads t (some content) ↔ ∃ pagetable sz s₁ s₂,
      (proc_pagetable kalloc t tf).run s = .ok (some pagetable) s₁ ∧
      (loadPhdrs kalloc t pagetable content elf.phnum (elf.phoff % 2 ^ 32) 0).run s₁ =
        .ok (sz, true) s₂ := by
  constructor
  · rintro ⟨_, _, _, pagetable, sz, s₁, s₂, hfile, helf', -, htf', hrun⟩
    obtain rfl := Option.some.inj hfile
    obtain rfl := Option.some.inj (helf.symm.trans helf')
    obtain rfl := Option.some.inj (htf.symm.trans htf')
    exact ⟨pagetable, sz, s₁, s₂, hrun⟩
  · rintro ⟨pagetable, sz, s₁, s₂, hrun⟩
    exact ⟨content, elf, tf, pagetable, sz, s₁, s₂, rfl, helf, hmagic, htf, hrun⟩

/-- `exec` fails if the image does not load, or exactly if the arguments do not
fit in the stack page. Otherwise it returns their number, with sp and a1 at the
array of pointers. -/
theorem Kernel.InCall.exec (h : s.InCall t old tf lbl) {file : Option (List UInt8)}
    {argv : List (List UInt8)} {res : Int} (hargc : argv.length < MAXARG)
    (hargs : ∀ arg ∈ argv, arg.length + 1 ≤ PGSIZE)
    (hr : (Xv6.exec kalloc t file argv).run s = .ok res s') :
    (res = -1 ↔ (s.Loads t file → PGSIZE < argSpace argv)) ∧
    (res = -1 ∧ s'.proc = s.proc ∨
      res = argv.length ∧ ∃ r sp, s.Started s' t tf r sp argv) := by
  have hbad : ∀ {s₁ : Kernel}, s₁.proc = s.proc →
      (return -1 : Prog Kernel Int).run s₁ = .ok res s' → res = -1 ∧ s'.proc = s.proc :=
    fun hproc he => ⟨(Outcome.ok.inj he).1.symm, (Outcome.ok.inj he).2 ▸ hproc⟩
  unfold Xv6.exec at hr
  split at hr
  · obtain ⟨rfl, hproc⟩ := hbad rfl hr
    refine ⟨iff_of_true rfl ?_, .inl ⟨rfl, hproc⟩⟩
    rintro ⟨_, _, _, _, _, _, _, hfile, -⟩
    cases hfile
  next content =>
  split at hr
  next helf =>
    obtain ⟨rfl, hproc⟩ := hbad rfl hr
    refine ⟨iff_of_true rfl ?_, .inl ⟨rfl, hproc⟩⟩
    rintro ⟨_, _, _, _, _, _, _, hfile, helf', -⟩
    obtain rfl := Option.some.inj hfile
    rw [helf] at helf'
    cases helf'
  next elf helf =>
  split at hr
  next hmagic =>
    obtain ⟨rfl, hproc⟩ := hbad rfl hr
    refine ⟨iff_of_true rfl ?_, .inl ⟨rfl, hproc⟩⟩
    rintro ⟨_, _, _, _, _, _, _, hfile, helf', hmagic', -⟩
    obtain rfl := Option.some.inj hfile
    obtain rfl := Option.some.inj (helf.symm.trans helf')
    exact absurd hmagic' hmagic
  next hmagic =>
  rw [Kernel.loads_iff helf (not_not.1 hmagic) h.trapframe]
  rw [run_bind, run_read, h.trapframe] at hr
  dsimp only at hr
  obtain ⟨pagetable, s₁, hcreate, hr⟩ := bind_run_ok hr
  obtain ⟨hproc₁, htable⟩ := h.user.table.alloc.proc_pagetable hcreate
  cases pagetable with
  | none =>
    obtain ⟨rfl, hproc⟩ := hbad hproc₁ hr
    refine ⟨iff_of_true rfl ?_, .inl ⟨rfl, hproc⟩⟩
    rintro ⟨_, _, _, _, hcreate', -⟩
    cases hcreate.symm.trans hcreate'
  | some r =>
    obtain ⟨lbl₁, hT₁, hext₁⟩ := htable r rfl
    dsimp only at hr
    obtain ⟨⟨sz, ok⟩, s₂, hload, hr⟩ := bind_run_ok hr
    obtain ⟨lbl₂, hT₂, hext₂⟩ := hT₁.loadPhdrs hload
    dsimp only at hr
    cases ok with
    | false =>
      rw [if_pos (by decide)] at hr
      obtain ⟨_, s₃, hfree, hr⟩ := bind_run_ok hr
      obtain ⟨rfl, hproc⟩ := hbad ((proc_freepagetable_proc hfree).trans
        (hext₂.proc.trans hproc₁)) hr
      refine ⟨iff_of_true rfl ?_, .inl ⟨rfl, hproc⟩⟩
      rintro ⟨_, _, _, _, hcreate', hload'⟩
      obtain ⟨hsome, rfl⟩ := Outcome.ok.inj (hcreate.symm.trans hcreate')
      obtain rfl := Option.some.inj hsome
      cases hload.symm.trans hload'
    | true =>
      rw [if_neg (by decide)] at hr
      obtain ⟨⟨sz', out⟩, s₃, hstack, hr⟩ := bind_run_ok hr
      obtain ⟨hfit, lbl₃, hT₃, hext₃, hsome⟩ := hT₂.buildStack hargc hargs hstack
      have himage : ∃ pagetable sz s₁ s₂,
          (proc_pagetable kalloc t tf).run s = .ok (some pagetable) s₁ ∧
          (loadPhdrs kalloc t pagetable content elf.phnum (elf.phoff % 2 ^ 32) 0).run s₁ =
            .ok (sz, true) s₂ := ⟨r, sz, s₁, s₂, hcreate, hload⟩
      cases out with
      | none =>
        dsimp only at hr
        obtain ⟨_, s₄, hfree, hr⟩ := bind_run_ok hr
        obtain ⟨rfl, hproc⟩ := hbad ((proc_freepagetable_proc hfree).trans
          (hext₃.proc.trans (hext₂.proc.trans hproc₁))) hr
        exact ⟨iff_of_true rfl fun _ => hfit.1 rfl, .inl ⟨rfl, hproc⟩⟩
      | some sp =>
        obtain ⟨hargstack, hsp, g, hfree, htaken, hpage⟩ := hsome sp rfl
        have hext : s.Extends s₃ (fun _ => none) lbl₃ := (hext₁.trans hext₂).trans hext₃
        have hgfree : g ∈ s.freelist := hext₁.free g (hext₂.free g hfree)
        obtain ⟨s₄, hrun, hstarted⟩ :=
          h.commit hT₃ hext elf.entry hargstack hsp hpage hgfree htaken
        have hproc₃ : (s₃.writeBytes tf Trapframe.a1 (u64Bytes sp)).proc = s.proc := hext.proc
        dsimp only at hr
        simp only [setReg, run_bind, run_modify, run_read, hproc₃, h.pagetable] at hr
        rw [← Kernel.commit, hrun] at hr
        obtain ⟨rfl, rfl⟩ := Outcome.ok.inj hr
        exact ⟨iff_of_false (by omega) fun hn => absurd (hfit.2 (hn himage)) nofun,
          .inr ⟨rfl, r, sp, hstarted⟩⟩

/-! ## The call -/

/-- The strings are fetched into free pages. -/
theorem fetchArgs_run {argv : List (List UInt8)} {i : Nat} {pages : List Frame}
    {out : Option (List (List UInt8))} (h : s.Allocator) (hargc : i + argv.length < MAXARG)
    (hr : (fetchArgs kalloc (argv.map .str) i).run s = .ok (pages, out) s') :
    out = some argv ∧ s'.Allocator ∧ s.Extends s' (fun _ => none) (fun _ => none) ∧
      ∀ f ∈ pages, f ∈ s.freelist ∧ f ∉ s'.freelist := by
  induction argv generalizing s i pages out with
  | nil =>
    rw [List.map_nil, fetchArgs, if_neg (by omega)] at hr
    obtain ⟨he, rfl⟩ := Outcome.ok.inj hr
    obtain ⟨rfl, rfl⟩ := Prod.mk.inj he
    exact ⟨rfl, h, .refl s _, fun _ hf => absurd hf List.not_mem_nil⟩
  | cons arg argv ih =>
    rw [List.length_cons] at hargc
    rw [List.map_cons] at hr
    unfold fetchArgs at hr
    rw [if_neg (by omega)] at hr
    dsimp only at hr
    obtain ⟨p, s₁, hk, hr⟩ := bind_run_ok hr
    obtain ⟨f, rest, hf, rfl, rfl⟩ := h.kalloc_ok hk
    dsimp only at hr
    rw [run_bind, run_modify] at hr
    dsimp only at hr
    obtain ⟨⟨pages', out'⟩, s₂, hfetch, hr⟩ := bind_run_ok hr
    obtain ⟨he, rfl⟩ := Outcome.ok.inj hr
    obtain ⟨rfl, rfl⟩ := Prod.mk.inj he
    have ha : ((s.alloc f rest).writeBytes f 0 (arg ++ [0])).Allocator :=
      (h.kalloc hf).2.congr rfl rfl rfl
    obtain ⟨rfl, ha', hext, hpages⟩ := ih (i := i + 1) ha (by omega) hfetch
    have hmem : f ∈ s.freelist := by rw [hf]; exact List.mem_cons_self
    have hrest : ∀ g, g ∈ rest → g ∈ s.freelist := fun g hg => by
      rw [hf]
      exact List.mem_cons_of_mem f hg
    have hnodup := h.nodup
    rw [hf] at hnodup
    refine ⟨rfl, ha', ⟨fun g hg => hrest g (hext.free g hg), fun _ _ => rfl, fun g hg _ => ?_,
      hext.proc⟩, fun g hg => ?_⟩
    · have hne : g ≠ f := fun he => hg (he ▸ hmem)
      exact (hext.pte g (fun hmem' => hg (hrest g hmem')) rfl).trans (Function.update_of_ne hne ..)
    · rcases List.mem_cons.1 hg with rfl | hg
      · exact ⟨hmem, fun hmem' => (List.nodup_cons.1 hnodup).1 (hext.free g hmem')⟩
      · exact ⟨hrest g (hpages g hg).1, (hpages g hg).2⟩

theorem kfree_spares {f : Frame} (hr : (kfree g).run s = .ok () s') (hne : f ≠ g) :
    s'.mem f = s.mem f ∧ s'.pte f = s.pte f := by
  unfold kfree kassert at hr
  obtain ⟨_, s₁, hassert, hr⟩ := bind_run_ok hr
  rw [run_atom] at hassert
  split at hassert
  · obtain ⟨-, rfl⟩ := Outcome.ok.inj hassert
    split at hr
    · cases hr
    · obtain ⟨-, rfl⟩ := Outcome.ok.inj hr
      exact ⟨Function.update_of_ne hne .., Function.update_of_ne hne ..⟩
  · cases hassert

/-- And the pages go back. -/
theorem freeArgs_spares {pages : List Frame} (hr : (freeArgs pages).run s = .ok () s') :
    s'.proc = s.proc ∧ ∀ f, f ∉ pages → s'.mem f = s.mem f ∧ s'.pte f = s.pte f := by
  induction pages generalizing s with
  | nil =>
    obtain ⟨-, rfl⟩ := Outcome.ok.inj hr
    exact ⟨rfl, fun _ _ => ⟨rfl, rfl⟩⟩
  | cons page pages ih =>
    obtain ⟨_, s₁, hfree, hr⟩ := bind_run_ok hr
    obtain ⟨hproc, hkeep⟩ := ih hr
    refine ⟨hproc.trans (kfree_onlyFrees hfree).proc, fun f hf => ?_⟩
    rw [List.mem_cons, not_or] at hf
    obtain ⟨hmem, hpte⟩ := hkeep f hf.2
    obtain ⟨hmem₁, hpte₁⟩ := kfree_spares hfree hf.1
    exact ⟨hmem.trans hmem₁, hpte.trans hpte₁⟩

omit [KernelImage] in
theorem Kernel.Started.congr {sp : Nat} {argv : List (List UInt8)} {s₁ : Kernel}
    (h : s.Started s₁ t tf r sp argv) (hproc : s'.proc = s₁.proc)
    (hregs : s'.reg tf Trapframe.sp = s₁.reg tf Trapframe.sp ∧
      s'.reg tf Trapframe.a1 = s₁.reg tf Trapframe.a1)
    (hkeep : ∀ f ∈ s.freelist, s'.mem f = s₁.mem f ∧ s'.pte f = s₁.pte f) :
    s.Started s' t tf r sp argv := by
  obtain ⟨g, hg, hpage⟩ := h.page
  obtain ⟨lbl, htree, hroot, hnode⟩ := h.tree
  have hpte : ∀ f q n, lbl f = some (q, n) → s'.pte f = s₁.pte f := fun f q n hf =>
    (hkeep f (hnode f _ hf)).2
  have hmap := htree.mapping_congr hroot fun f n hf => hpte f r n hf
  refine ⟨by rw [hproc]; exact h.pagetable, by rw [hproc]; exact h.trapframe,
    hregs.1.trans h.reg_sp, hregs.2.trans h.reg_a1, ?_, ⟨g, hg, ?_⟩,
    lbl, htree.congr hpte, hroot, hnode⟩
  · rw [hproc]
    exact h.stack.congr hpage hmap (hkeep g hg).1
  · rw [hproc]
    exact ⟨hpage.aligned, hpage.guard, hpage.lt, by
      rw [Kernel.userPage, hmap]
      exact hpage.page⟩

/-- The arguments of a new program. With the pages of the arguments taken,
the call fails if the image of the file does not load, or exactly if the
arguments, rounded, do not fit in the stack page. Otherwise a0 is their number,
and sp and a1 are where they begin in the new memory. -/
theorem exec_stack (h : s.InCall t old tf lbl) {file : Option (List UInt8)}
    (argv : List (List UInt8)) (hargc : argv.length < MAXARG)
    (hargs : ∀ arg ∈ argv, arg.length + 1 ≤ PGSIZE)
    (hr : (syscallExec kalloc t file (argv.map .str)).run s = .ok () s') :
    ∃ pages s₁, (fetchArgs kalloc (argv.map .str) 0).run s = .ok (pages, some argv) s₁ ∧
      (s'.reg tf Trapframe.a0 = u64 (-1) ↔ (s₁.Loads t file → PGSIZE < argSpace argv)) ∧
      (s'.reg tf Trapframe.a0 ≠ u64 (-1) → s'.reg tf Trapframe.a0 = argv.length ∧ ∃ r sp,
        (s'.proc t).pagetable = some r ∧ (s'.proc t).trapframe = some tf ∧
        s'.reg tf Trapframe.sp = sp ∧ s'.reg tf Trapframe.a1 = sp ∧
        s'.ArgStack r (s'.proc t).sz sp argv) := by
  obtain ⟨ret, s₄, hsys, hr⟩ := bind_run_ok hr
  obtain ⟨⟨pages, out⟩, s₁, hfetch, hsys⟩ := bind_run_ok hsys
  obtain ⟨rfl, ha, hext, hpages⟩ := fetchArgs_run h.user.table.alloc (by omega) hfetch
  dsimp only at hsys
  obtain ⟨res, s₂, hexec, hsys⟩ := bind_run_ok hsys
  obtain ⟨_, s₃, hfree, hsys⟩ := bind_run_ok hsys
  obtain ⟨rfl, rfl⟩ := Outcome.ok.inj hsys
  obtain ⟨hiff, hres⟩ := (h.congr ha hext).exec hargc hargs hexec
  obtain ⟨hproc, hkeep⟩ := freeArgs_spares hfree
  have htf : (s₃.proc t).trapframe = some tf := by
    rw [hproc]
    rcases hres with ⟨-, hproc₂⟩ | ⟨-, r, sp, hstarted⟩
    · rw [hproc₂, hext.proc]
      exact h.trapframe
    · exact hstarted.trapframe
  rw [run_bind, run_read, htf] at hr
  obtain ⟨-, rfl⟩ := Outcome.ok.inj hr
  have ha0 : (s₃.writeBytes tf Trapframe.a0 (u64Bytes (u64 res))).reg tf Trapframe.a0 = u64 res :=
    reg_writeBytes (by unfold u64; omega)
  have hlen : argv.length < 2 ^ 31 := by
    unfold MAXARG at hargc
    omega
  refine ⟨pages, s₁, hfetch, ?_, fun hne => ?_⟩
  · rw [ha0, ← hiff]
    rcases hres with ⟨rfl, -⟩ | ⟨rfl, -⟩
    · exact iff_of_true rfl rfl
    · refine iff_of_false ?_ (by omega)
      unfold u64
      omega
  · rw [ha0] at hne ⊢
    rcases hres with ⟨rfl, -⟩ | ⟨rfl, r, sp, hstarted⟩
    · exact absurd rfl hne
    have hnot : ∀ f, f ∈ s₁.freelist → f ∉ pages := fun f hf hmem => (hpages f hmem).2 hf
    have htf' : tf ∉ pages := fun hmem => h.taken (hpages tf hmem).1
    have hne' : ∀ f ∈ s₁.freelist, f ≠ tf := fun f hf he => h.taken (hext.free tf (he ▸ hf))
    have hdone : s₁.Started (s₃.writeBytes tf Trapframe.a0 (u64Bytes (u64 argv.length))) t tf r sp
        argv := by
      refine hstarted.congr hproc ⟨?_, ?_⟩ fun f hf => ?_
      · rw [reg_writeBytes_of_ne (by decide)]
        exact reg_congr (hkeep tf htf').1 _
      · rw [reg_writeBytes_of_ne (by decide)]
        exact reg_congr (hkeep tf htf').1 _
      · obtain ⟨hmem, hpte⟩ := hkeep f (hnot f hf)
        exact ⟨(Function.update_of_ne (hne' f hf) ..).trans hmem, hpte⟩
    refine ⟨by unfold u64; omega, r, sp, hdone.pagetable, hdone.trapframe, hdone.reg_sp,
      hdone.reg_a1, hdone.stack⟩

/-- What `allocproc` makes is a process with no memory yet. -/
theorem allocproc_inCall {np : Slot} (ha : s.Allocator)
    (hidle : ∀ q, (s.proc q).state = .UNUSED → (s.proc q).Idle)
    (hr : (allocproc kalloc t).run s = .ok (some np) k) : ∃ r tf lbl, k.InCall np r tf lbl := by
  have hdoc : (allocproc kallocDoc t).run s = .ok (some np) k := by
    rcases allocproc_agree t s ha.exact with he | ⟨he, -⟩
    · rw [he] at hr
      cases hr
    · rw [he, hr]
  obtain ⟨res, k', hrun, hres⟩ := allocproc_run ha hidle kallocDoc_promised t
  obtain ⟨rfl, rfl⟩ := Outcome.ok.inj (hdoc.symm.trans hrun)
  rcases hres with ⟨hnone, -⟩ | ⟨np', r, lbl, tf, pid, hnp, hstate, -, hB, hfix, hno, hproc⟩
  · cases hnone
  obtain rfl := Option.some.inj hnp
  have hp : k.proc np = { s.proc np with
      pid := pid, state := .USED, trapframe := some tf, pagetable := some r } := by
    rw [hproc, Function.update_self]
  have hsz : (k.proc np).sz = 0 := by
    rw [hp, ← (hidle np hstate).2]
    rfl
  refine ⟨r, tf, lbl, by rw [hp], by rw [hp], ⟨hB.table, by rw [hsz]; exact Nat.zero_le _,
    fun u hu => ?_, fun u p hu he => ?_, fun u w p q hu hw he => ?_⟩, hB.lends.taken tf (.inr rfl),
    hB.other tf rfl, fun u p hu he => ?_⟩
  · rw [hsz]
    by_cases hlt : u < userPages
    · exact iff_of_false (not_not_intro (hno u hlt)) (by omega)
    · rw [hfix u hu (by omega)]
      exact ⟨.inr, fun h => h.resolve_left (Nat.not_lt_zero _)⟩
  · rw [hno u hu] at he
    cases he
  · rw [hno u hu] at he
    cases he
  · rw [hno u hu] at he
    cases he

end

/-! ## A program with one argument -/

attribute [local instance] image

/-- A process of one page. -/
def newProcess : Outcome Kernel (Option Slot) := (allocproc kalloc initproc).run (Kernel.boot 24)

def onePageProcess : Outcome Kernel Int :=
  (growproc kalloc initproc PGSIZE).run (newProcess.state (Kernel.boot 24))

/-- An executable with a segment of four bytes. -/
def smallFile : List UInt8 :=
  [0x7f, 0x45, 0x4c, 0x46] ++ List.replicate 28 0 ++ [64] ++ List.replicate 23 0 ++ [1] ++
    List.replicate 7 0 ++ [1, 0, 0, 0, 5, 0, 0, 0, 120] ++ List.replicate 23 0 ++ [4] ++
    List.replicate 7 0 ++ [4] ++ List.replicate 15 0 ++ [0x13, 0, 0, 0]

def execOnce : Outcome Kernel Unit :=
  (syscallExec kalloc initproc (some smallFile) [.str [97, 98]]).run
    (onePageProcess.state (Kernel.boot 24))

theorem onePageProcess_inCall : ∃ r tf lbl,
    (onePageProcess.state (Kernel.boot 24)).InCall initproc r tf lbl := by
  have hboot := Kernel.boot_atBoot (n := 24) (by decide)
  obtain ⟨np, hnew⟩ := Outcome.eq_ok (o := newProcess) (by decide +kernel) (Kernel.boot 24)
  have hnp : np = some initproc := by
    have hval : newProcess.value = some (some initproc) := by decide +kernel
    rw [hnew] at hval
    exact Option.some.inj hval
  subst hnp
  obtain ⟨r, tf, lbl, h⟩ := allocproc_inCall ⟨hboot.nodup, hboot.managed, hboot.free, hboot.max⟩
    (fun q _ => by rw [hboot.proc]; exact ⟨rfl, rfl⟩) hnew
  obtain ⟨res, hgrow⟩ := Outcome.eq_ok (o := onePageProcess) (by decide +kernel) (Kernel.boot 24)
  obtain ⟨lbl', h'⟩ := h.growproc (n := PGSIZE) (by decide) (by decide +kernel) hgrow
  exact ⟨r, tf, lbl', h'⟩

/-- Its a0 is then 1, and its stack is laid out. -/
theorem exec_stack_one : ∃ tf s' r sp, execOnce = .ok () s' ∧ s'.reg tf Trapframe.a0 = 1 ∧
    (s'.proc initproc).pagetable = some r ∧ s'.reg tf Trapframe.sp = sp ∧
    s'.reg tf Trapframe.a1 = sp ∧ s'.ArgStack r (s'.proc initproc).sz sp [[97, 98]] := by
  obtain ⟨r, tf, lbl, h⟩ := onePageProcess_inCall
  have hall : (execOnce.isOk && ((onePageProcess.state (Kernel.boot 24)).proc initproc).trapframe.all
      fun tf => (execOnce.state (Kernel.boot 24)).reg tf Trapframe.a0 == 1) = true := by
    decide +kernel
  rw [Bool.and_eq_true, h.trapframe, Option.all_some, beq_iff_eq] at hall
  obtain ⟨⟨⟩, hrun⟩ := Outcome.eq_ok hall.1 (Kernel.boot 24)
  obtain ⟨pages, s₁, -, -, hsome⟩ := exec_stack h [[97, 98]] (by decide) (by decide) hrun
  have ha0 : (execOnce.state (Kernel.boot 24)).reg tf Trapframe.a0 = 1 := hall.2
  obtain ⟨-, r', sp, hr, -, hsp, ha1, hstack⟩ := hsome (by rw [ha0]; decide)
  exact ⟨tf, _, r', sp, hrun, ha0, hr, hsp, ha1, hstack⟩

end Xv6
