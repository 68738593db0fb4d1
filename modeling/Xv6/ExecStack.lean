/-
exec.c: the argument strings and the array of pointers to them, on the one
page of the new user stack.
-/
import Xv6.Kernel.Exec
import Xv6.FreeWalk
import Xv6.Growth

namespace Xv6

open Conc Prog

/-- `sp -= n; sp -= sp % 16` takes this much. -/
def round16 (n : Nat) : Nat := (n + 15) / 16 * 16

/-- The space for argument strings. -/
def strSpace (args : List (List UInt8)) : Nat := (args.map fun arg => round16 (arg.length + 1)).sum

/-- The space for all that `exec` pushes. -/
def argSpace (argv : List (List UInt8)) : Nat := strSpace argv + round16 (8 * (argv.length + 1))

/-- The strings lie one below the other, from `hi` down to `lo`, each with its
NUL at its pointer. -/
def Laid (s : Kernel) (r : Frame) : (args : List (List UInt8)) → (ptrs : List Nat) →
    (lo hi : Nat) → Prop
  | [], [], lo, hi => lo = hi
  | arg :: args, p :: ptrs, lo, hi =>
    p + (arg.length + 1) ≤ hi ∧ s.Holds r p (arg ++ [0]) ∧ Laid s r args ptrs lo p
  | _, _, _, _ => False

/-- In the page below `sz`, above a page out of the user's reach, are at `sp`
the array of pointers, ended by a null pointer, and above it the strings that
they point to. -/
def Kernel.ArgStack (s : Kernel) (r : Frame) (sz sp : Nat) (argv : List (List UInt8)) : Prop :=
  sp % 16 = 0 ∧ sz % PGSIZE = 0 ∧ sz ≤ sp + PGSIZE ∧ s.userPage r (sz / PGSIZE - 2) = none ∧
  ∃ ptrs lo, ptrs.length = argv.length ∧ s.Holds r sp ((ptrs ++ [0]).flatMap u64Bytes) ∧
    sp + 8 * (argv.length + 1) ≤ lo ∧ Laid s r argv ptrs lo sz

variable {s s' : Kernel} {r g : Frame} {ka : Kalloc}

/-- The stack page. -/
structure StackPage (s : Kernel) (r : Frame) (stackbase : Nat) (g : Frame) : Prop where
  aligned : stackbase % PGSIZE = 0
  guard : PGSIZE ≤ stackbase
  lt : stackbase < MAXVA
  page : s.userPage r (stackbase / PGSIZE) = some g

variable {stackbase : Nat}

theorem StackPage.congr (h : StackPage s r stackbase g) (hpte : s'.pte = s.pte) :
    StackPage s' r stackbase g :=
  ⟨h.aligned, h.guard, h.lt, by rw [Kernel.userPage, hpte]; exact h.page⟩

theorem StackPage.pageOf (h : StackPage s r stackbase g) {va : Nat} (hlo : stackbase ≤ va)
    (hhi : va < stackbase + PGSIZE) : s.pageOf r va = some g ∧ va % PGSIZE = va - stackbase := by
  have hmax : MAXVA = 2 ^ 26 * PGSIZE := rfl
  have hal := h.aligned
  have hlt := h.lt
  have hdiv : va / PGSIZE = stackbase / PGSIZE := by
    unfold PGSIZE at *
    omega
  have hva : va < MAXVA := by
    unfold PGSIZE at *
    omega
  refine ⟨by rw [Kernel.pageOf, if_pos hva, hdiv, h.page], ?_⟩
  unfold PGSIZE at *
  omega

theorem StackPage.userByte (h : StackPage s r stackbase g) {va : Nat} (hlo : stackbase ≤ va)
    (hhi : va < stackbase + PGSIZE) : s.userByte r va = some (s.mem g (va - stackbase)) := by
  obtain ⟨hpage, hmod⟩ := h.pageOf hlo hhi
  have hbyte := userByte_page (i := 0) hpage (by rw [hmod]; omega)
  rwa [Nat.add_zero, Nat.add_zero, hmod] at hbyte

/-- A write in the stack page, and what it leaves there. -/
theorem StackPage.write (h : StackPage s r stackbase g) {dst : Nat} (src : List UInt8)
    (hlo : stackbase ≤ dst) (hhi : dst + src.length ≤ stackbase + PGSIZE) :
    (s.writeBytes g (dst - stackbase) src).Holds r dst src ∧
      ∀ va bs, dst + src.length ≤ va → va + bs.length ≤ stackbase + PGSIZE → s.Holds r va bs →
        (s.writeBytes g (dst - stackbase) src).Holds r va bs := by
  have h' : StackPage (s.writeBytes g (dst - stackbase) src) r stackbase g := h.congr rfl
  refine ⟨fun i hi => ?_, fun va bs hva hbs hs i hi => ?_⟩
  · rw [h'.userByte (by omega) (by omega), Kernel.writeBytes]
    dsimp only
    rw [Function.update_self, if_pos (by omega),
      show dst + i - stackbase - (dst - stackbase) = i by omega, List.getD_eq_getElem?_getD,
      List.getElem?_eq_getElem hi, Option.getD_some]
  · rw [h'.userByte (by omega) (by omega), ← hs i hi, h.userByte (by omega) (by omega),
      Kernel.writeBytes]
    dsimp only
    rw [Function.update_self, if_neg (by omega)]

variable (ka) in
/-- `copyout` within the stack page. -/
theorem StackPage.copyout (h : StackPage s r stackbase g) {dst : Nat} {src : List UInt8}
    (hlo : stackbase ≤ dst) (hhi : dst + src.length ≤ stackbase + PGSIZE) (hsrc : src ≠ []) :
    (Xv6.copyout ka r dst src).run s = .ok 0 (s.writeBytes g (dst - stackbase) src) := by
  have hpos : 0 < src.length := List.length_pos_iff.2 hsrc
  obtain ⟨hpage, hmod⟩ := h.pageOf hlo (by omega)
  have hmin : min (PGSIZE - (dst - stackbase)) src.length = src.length := by omega
  have hne : ¬ src.length = 0 := by omega
  obtain ⟨k, hk⟩ : ∃ k, src.length = k + 1 := ⟨src.length - 1, by omega⟩
  rw [Xv6.copyout, copyoutLoop, if_neg hne]
  simp only [run_bind, walkaddr_down, hpage, run_modify, sub_PGROUNDDOWN, hmod, hmin,
    List.take_length, List.drop_length]
  rw [hk, copyoutLoop, if_pos List.length_nil]
  rfl

/-! ## The strings -/

theorem u64_sub {sp n : Nat} (h : n ≤ sp) (hsp : sp < 2 ^ 64) : u64 ((sp : Int) - n) = sp - n := by
  unfold u64
  omega

/-- `sp -= n; sp -= sp % 16` from an aligned `sp`. -/
theorem sub_round16 {sp n : Nat} (h16 : sp % 16 = 0) (h : n ≤ sp) :
    sp - n - (sp - n) % 16 = sp - round16 n ∧ (sp - round16 n) % 16 = 0 ∧ n ≤ round16 n := by
  unfold round16
  omega

theorem strSpace_cons (arg : List UInt8) (args : List (List UInt8)) :
    strSpace (arg :: args) = round16 (arg.length + 1) + strSpace args := rfl

variable (ka) in
theorem pushArgs_run {args : List (List UInt8)} {sp : Nat} (ustack : List Nat)
    (h : StackPage s r stackbase g) (hlo : stackbase ≤ sp) (hhi : sp ≤ stackbase + PGSIZE)
    (h16 : sp % 16 = 0) (hargs : ∀ arg ∈ args, arg.length + 1 ≤ PGSIZE)
    (hcount : ustack.length + args.length < MAXARG) :
    ∃ res s', (pushArgs ka r stackbase args sp ustack).run s = .ok res s' ∧
      (∃ m, s' = { s with mem := m }) ∧
      (∀ va bs, sp ≤ va → va + bs.length ≤ stackbase + PGSIZE → s.Holds r va bs →
        s'.Holds r va bs) ∧
      ((res = none ∧ sp < stackbase + strSpace args) ∨
        (∃ ptrs, res = some (sp - strSpace args, ustack ++ ptrs) ∧ ptrs.length = args.length ∧
          stackbase + strSpace args ≤ sp ∧ (sp - strSpace args) % 16 = 0 ∧
          Laid s' r args ptrs (sp - strSpace args) sp)) := by
  induction args generalizing s sp ustack with
  | nil =>
    refine ⟨_, s, rfl, ⟨_, rfl⟩, fun _ _ _ _ hs => hs, .inr ⟨[], ?_, rfl, hlo, h16, rfl⟩⟩
    rw [List.append_nil]
    rfl
  | cons arg args ih =>
    have hlen := hargs arg List.mem_cons_self
    have hguard := h.guard
    have hmax : MAXVA = 2 ^ 26 * PGSIZE := rfl
    have hlt := h.lt
    have hbig : sp < 2 ^ 64 := by
      unfold PGSIZE at *
      omega
    have hu : u64 ((sp : Int) - (arg.length + 1)) = sp - (arg.length + 1) := by
      have h64 := u64_sub (by omega : arg.length + 1 ≤ sp) hbig
      push_cast at h64
      exact h64
    obtain ⟨hsub, h16', hround⟩ := sub_round16 h16 (by omega : arg.length + 1 ≤ sp)
    have hargc : ¬ ustack.length ≥ MAXARG := by
      rw [List.length_cons] at hcount
      omega
    unfold pushArgs
    rw [if_neg hargc]
    dsimp only
    rw [hu, hsub, strSpace_cons]
    by_cases hfit : sp - round16 (arg.length + 1) < stackbase
    · rw [if_pos hfit]
      exact ⟨none, s, rfl, ⟨_, rfl⟩, fun _ _ _ _ hs => hs, .inl ⟨rfl, by omega⟩⟩
    · rw [if_neg hfit]
      have hstr : (arg ++ [(0 : UInt8)]).length = arg.length + 1 := by simp
      have hround' : round16 (arg.length + 1) ≤ sp := by omega
      obtain ⟨hnew, hkeep⟩ := h.write (arg ++ [0])
        (by omega : stackbase ≤ sp - round16 (arg.length + 1)) (by omega)
      have hcopy := h.copyout ka (by omega : stackbase ≤ sp - round16 (arg.length + 1))
        (by omega) (by simp : arg ++ [0] ≠ [])
      have hpage : StackPage (s.writeBytes g (sp - round16 (arg.length + 1) - stackbase)
          (arg ++ [0])) r stackbase g := h.congr rfl
      obtain ⟨res, s', hrun, ⟨m, hm⟩, hframe, hres⟩ := ih
        (ustack ++ [sp - round16 (arg.length + 1)]) hpage (by omega) (by omega) h16'
        (fun a ha => hargs a (List.mem_cons_of_mem _ ha)) (by
          rw [List.length_append, List.length_singleton]
          rw [List.length_cons] at hcount
          omega)
      refine ⟨res, s', ?_, ⟨m, hm⟩, fun va bs hva hbs hs => ?_, ?_⟩
      · simp only [run_bind, hcopy, Int.lt_irrefl, if_false]
        exact hrun
      · exact hframe va bs (by omega) hbs (hkeep va bs (by omega) hbs hs)
      · rcases hres with ⟨hnone, hlow⟩ | ⟨ptrs, hsome, hptrs, hlow, h16'', hlaid⟩
        · exact .inl ⟨hnone, by omega⟩
        · refine .inr ⟨(sp - round16 (arg.length + 1)) :: ptrs, ?_, ?_, by omega, ?_, by omega,
            ?_, ?_⟩
          · rw [hsome, List.append_assoc, Nat.sub_sub]
            rfl
          · rw [List.length_cons, hptrs, List.length_cons]
          · rwa [Nat.sub_sub] at h16''
          · exact hframe _ _ (Nat.le_refl _) (by omega) hnew
          · rwa [Nat.sub_sub] at hlaid

theorem Laid.le {args : List (List UInt8)} {ptrs : List Nat} {lo hi : Nat}
    (h : Laid s r args ptrs lo hi) : lo ≤ hi := by
  induction args generalizing ptrs hi with
  | nil =>
    cases ptrs with
    | nil => exact Nat.le_of_eq h
    | cons => cases h
  | cons arg args ih =>
    cases ptrs with
    | nil => cases h
    | cons p ptrs =>
      have hp := ih h.2.2
      have hle := h.1
      omega

theorem Laid.mono {args : List (List UInt8)} {ptrs : List Nat} {lo hi top : Nat}
    (h : Laid s r args ptrs lo hi) (htop : hi ≤ top)
    (hkeep : ∀ va bs, lo ≤ va → va + bs.length ≤ top → s.Holds r va bs → s'.Holds r va bs) :
    Laid s' r args ptrs lo hi := by
  induction args generalizing ptrs hi with
  | nil =>
    cases ptrs with
    | nil => exact h
    | cons => cases h
  | cons arg args ih =>
    cases ptrs with
    | nil => cases h
    | cons p ptrs =>
      obtain ⟨hp, hs, hrest⟩ := h
      refine ⟨hp, hkeep p _ hrest.le ?_ hs, ih hrest (by omega)⟩
      rw [List.length_append, List.length_singleton]
      omega

/-! ## The stack itself -/

section

variable [KernelImage] {lbl : Frame → Option (Frame × Node)} {t : Slot}

/-- The two pages of the stack are there, the lower one out of the user's
reach. -/
theorem Table.stackPages (h : Table s r lbl) {sz : Nat} {k : Nat → Prog Kernel (Nat × Option Nat)}
    {x : Nat × Option Nat}
    (hr : (do
      let sz1 ← uvmalloc Xv6.kalloc t r (PGROUNDUP sz) (PGROUNDUP sz + 2 * PGSIZE) { W := true }
      if sz1 = 0 then return (PGROUNDUP sz, none)
      else
        uvmclear Xv6.kalloc r (sz1 - 2 * PGSIZE)
        k sz1).run s = .ok x s') :
    ∃ s₁ lbl₁ g, (k (PGROUNDUP sz + 2 * PGSIZE)).run s₁ = .ok x s' ∧ Table s₁ r lbl₁ ∧
      s.Extends s₁ lbl lbl₁ ∧ (g ∈ s.freelist ∧ g ∉ s₁.freelist) ∧
      StackPage s₁ r (PGROUNDUP sz + PGSIZE) g ∧
      s₁.userPage r (PGROUNDUP sz / PGSIZE) = none := by
  obtain ⟨v, hv⟩ : ∃ v, PGROUNDUP sz = v * PGSIZE := ⟨_, rfl⟩
  have hmax : MAXVA = 2 ^ 26 * PGSIZE := rfl
  have hvlt : v < 2 ^ 52 := by
    have hlt := Nat.mod_lt (sz + PGSIZE - 1) (by decide : 0 < 2 ^ 64)
    have hdiv : v = (sz + PGSIZE - 1) % 2 ^ 64 / PGSIZE := Nat.eq_of_mul_eq_mul_right
      (by decide : 0 < PGSIZE) hv.symm
    unfold PGSIZE at *
    omega
  have hup : PGROUNDUP (v * PGSIZE) = v * PGSIZE := by
    unfold PGROUNDUP PGSIZE
    omega
  have hpages : (v * PGSIZE + 2 * PGSIZE - v * PGSIZE + PGSIZE - 1) / PGSIZE = 2 := by
    unfold PGSIZE
    omega
  have hsub : v * PGSIZE + 2 * PGSIZE - 2 * PGSIZE = v * PGSIZE := Nat.add_sub_cancel ..
  have hne : ¬ v * PGSIZE + 2 * PGSIZE = 0 := by
    unfold PGSIZE
    omega
  rw [hv] at hr ⊢
  simp only [uvmalloc, run_bind] at hr
  rw [if_neg (by omega)] at hr
  simp only [hup, hpages, run_bind] at hr
  cases hl : (Xv6.uvmallocLoop Xv6.kalloc t r (v * PGSIZE) { W := true } 2 (v * PGSIZE)).run s with
  | wait => rw [hl] at hr; cases hr
  | panic m => rw [hl] at hr; cases hr
  | ok res s₁ =>
    obtain ⟨rfl, hle, -, lbl₁, g, hT, hext, hfresh, -, hmap⟩ := h.uvmallocLoop hl
    have hle := hle (by omega)
    rw [hl] at hr
    simp only [pure_eq, run_ret, hne, if_false, hsub, run_bind, uvmclear,
      walk_run (page_lt.2 (by omega : v < 2 ^ 26)), page_div, PX_eq] at hr
    have hguard := hmap v (by omega)
    rw [if_pos (by omega)] at hguard
    have hstack := hmap (v + 1) (by omega)
    rw [if_pos (by omega)] at hstack
    obtain ⟨f, hf, hpte, -⟩ := hT.tree.mapping_some hT.root hguard
    have hleaf := (hT.tree.leafTable_iff hT.root).2 hf
    rw [hleaf] at hr
    simp only [Option.map_some, readPte, writePte, run_bind, run_read, run_modify, ← hpte] at hr
    obtain ⟨hT₂, hmap₂⟩ := hT.setPte (v := v)
      (p := { V := true, R := true, W := true, U := false, pa := g v })
      (by omega) hleaf fun _ => rfl
    refine ⟨_, lbl₁, g (v + 1), hr, hT₂, hext.trans (.setPte hf _ _),
      ⟨hfresh.free _ (by omega) (by omega), hfresh.taken _ (by omega) (by omega)⟩,
      ⟨?_, ?_, ?_, ?_⟩, ?_⟩
    · unfold PGSIZE
      omega
    · omega
    · unfold PGSIZE at *
      omega
    · have hpage : (v * PGSIZE + PGSIZE) / PGSIZE = v + 1 := by
        unfold PGSIZE
        omega
      rw [hpage, Kernel.userPage, hmap₂ (v + 1) (by omega), if_neg (by omega), hstack]
      rfl
    · rw [page_div, Kernel.userPage, hmap₂ v (by omega), if_pos rfl]
      rfl

omit [KernelImage] in
theorem length_flatMap_u64Bytes (l : List Nat) : (l.flatMap u64Bytes).length = 8 * l.length := by
  induction l with
  | nil => rfl
  | cons x l ih =>
    rw [List.flatMap_cons, List.length_append, ih, List.length_cons]
    simp only [u64Bytes, List.length_map, List.length_range]
    omega

/-- The last part of `exec` fails exactly if the arguments, rounded, do not
fit in the stack page. -/
theorem Table.buildStack (h : Table s r lbl) {sz sz' : Nat} {argv : List (List UInt8)}
    {res : Option Nat} (hargc : argv.length < MAXARG)
    (hargs : ∀ arg ∈ argv, arg.length + 1 ≤ PGSIZE)
    (hr : (Xv6.buildStack Xv6.kalloc t r sz argv).run s = .ok (sz', res) s') :
    (res = none ↔ PGSIZE < argSpace argv) ∧ ∃ lbl', Table s' r lbl' ∧ s.Extends s' lbl lbl' ∧
    ∀ sp, res = some sp → s'.ArgStack r sz' sp argv ∧ sp < 2 ^ 64 ∧
      ∃ g, g ∈ s.freelist ∧ g ∉ s'.freelist ∧ StackPage s' r (sz' - PGSIZE) g := by
  rw [Xv6.buildStack] at hr
  obtain ⟨s₁, lbl₁, g, hr, hT₁, hext, ⟨hfree, htaken⟩, hpage, hguard⟩ := h.stackPages hr
  obtain ⟨base, hbase⟩ : ∃ base, base = PGROUNDUP sz + PGSIZE := ⟨_, rfl⟩
  have htop : PGROUNDUP sz + 2 * PGSIZE = base + PGSIZE := by
    unfold PGSIZE at *
    omega
  have hal := hpage.aligned
  have hbig := hpage.lt
  have hpg := hpage.guard
  have hmax : MAXVA = 2 ^ 26 * PGSIZE := rfl
  have hsub : base + PGSIZE - PGSIZE = base := Nat.add_sub_cancel ..
  rw [htop] at hr
  rw [← hbase] at hpage hal hbig hpg
  have h16 : (base + PGSIZE) % 16 = 0 := by
    unfold PGSIZE at *
    omega
  have htopal : (base + PGSIZE) % PGSIZE = 0 := by
    unfold PGSIZE at *
    omega
  have hbelow : PGROUNDUP sz / PGSIZE = (base + PGSIZE) / PGSIZE - 2 := by
    unfold PGSIZE at *
    omega
  have hu64 : base + PGSIZE < 2 ^ 64 := by
    unfold PGSIZE at *
    omega
  simp only [hsub, run_bind] at hr
  obtain ⟨out, s₂, hrun, ⟨m, hm⟩, -, hout⟩ := pushArgs_run Xv6.kalloc [] hpage
    (Nat.le_add_right ..) (Nat.le_refl _) h16 hargs (by simpa using hargc)
  have hpte : s₂.pte = s₁.pte := by rw [hm]
  have hT₂ : Table s₂ r lbl₁ := hT₁.congr (hT₁.alloc.congr (by rw [hm]) (by rw [hm]) (by rw [hm]))
    (fun _ _ _ => by rw [hm]) (by rw [hm]; exact hT₁.free)
  have hext₂ : s.Extends s₂ lbl lbl₁ := by
    rw [hm]
    exact ⟨hext.free, hext.label, hext.pte, hext.proc⟩
  rw [hrun] at hr
  rcases hout with ⟨rfl, hlow⟩ | ⟨ptrs, rfl, hptrs, hlow, hlo16, hlaid⟩
  · obtain ⟨he, rfl⟩ := Outcome.ok.inj hr
    obtain ⟨rfl, rfl⟩ := Prod.mk.inj he
    exact ⟨iff_of_true rfl (by unfold argSpace; omega), lbl₁, hT₂, hext₂, nofun⟩
  -- the array, below the last string
  obtain ⟨lo, hlo⟩ : ∃ lo, lo = base + PGSIZE - strSpace argv := ⟨_, rfl⟩
  rw [← hlo] at hr hlo16 hlaid
  have hcount : (ptrs.length + 1) * 8 = 8 * (argv.length + 1) := by omega
  have hsmall : 8 * (argv.length + 1) ≤ lo := by
    unfold MAXARG at hargc
    unfold PGSIZE at *
    omega
  have hu : u64 ((lo : Int) - (ptrs.length + 1) * 8) = lo - 8 * (argv.length + 1) := by
    have h64 := u64_sub hsmall (by omega : lo < 2 ^ 64)
    rw [← h64, ← hcount]
    push_cast
    rfl
  obtain ⟨hsp, hsp16, hround⟩ := sub_round16 hlo16 hsmall
  simp only [List.nil_append, hu, hsp] at hr
  have hspace : argSpace argv = strSpace argv + round16 (8 * (argv.length + 1)) := rfl
  have hpage₂ := hpage.congr hpte
  by_cases hfit : lo - round16 (8 * (argv.length + 1)) < base
  · rw [if_pos hfit] at hr
    obtain ⟨he, rfl⟩ := Outcome.ok.inj hr
    obtain ⟨rfl, rfl⟩ := Prod.mk.inj he
    exact ⟨iff_of_true rfl (by omega), lbl₁, hT₂, hext₂, nofun⟩
  · rw [if_neg hfit] at hr
    have hlen : ((ptrs ++ [0]).flatMap u64Bytes).length = 8 * (argv.length + 1) := by
      rw [length_flatMap_u64Bytes, List.length_append, List.length_singleton, hptrs]
    have hend : lo - round16 (8 * (argv.length + 1)) + ((ptrs ++ [0]).flatMap u64Bytes).length ≤
        base + PGSIZE := by omega
    have hnil : (ptrs ++ [0]).flatMap u64Bytes ≠ [] := fun he => by
      rw [he] at hlen
      cases hlen
    obtain ⟨hnew, hkeep⟩ := hpage₂.write ((ptrs ++ [0]).flatMap u64Bytes)
      (by omega : base ≤ lo - round16 (8 * (argv.length + 1))) hend
    simp only [run_bind, hpage₂.copyout Xv6.kalloc
      (by omega : base ≤ lo - round16 (8 * (argv.length + 1))) hend hnil, Int.lt_irrefl,
      if_false] at hr
    obtain ⟨he, rfl⟩ := Outcome.ok.inj hr
    obtain ⟨rfl, rfl⟩ := Prod.mk.inj he
    refine ⟨iff_of_false nofun (by omega), lbl₁, ?_, ?_, fun sp hsome => ?_⟩
    · exact hT₂.congr (hT₂.alloc.congr rfl rfl rfl) (fun _ _ _ => rfl) hT₂.free
    · exact ⟨hext₂.free, hext₂.label, hext₂.pte, hext₂.proc⟩
    obtain rfl := Option.some.inj hsome
    refine ⟨⟨hsp16, htopal, by omega, ?_, ptrs, lo, hptrs, hnew, by omega, ?_⟩, by omega, g, hfree,
      ?_, ?_⟩
    · rw [← hbelow, Kernel.userPage]
      show (mapping s₂.pte r _).bind _ = none
      rw [hpte]
      exact hguard
    · exact hlaid.mono (Nat.le_refl _) fun va bs hva hbs hs => hkeep va bs (by omega) hbs hs
    · show g ∉ s₂.freelist
      rw [hm]
      exact htaken
    · rw [hsub]
      exact hpage₂.congr rfl

end

end Xv6
