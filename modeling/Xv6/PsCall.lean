/-
proc.c: `ps`, which grows the caller's memory and copies records of the
process table into it.

The records are made in an array on the kernel stack, which starts out as
whatever the stack held. That the stack has one page, and the array does not
fit in it with more than about 100 records, is left out. `p->name`, which
the model's process table does not have, comes with the call. The section
under `wait_lock` is one action.
-/
import Xv6.FreeWalk
import Xv6.Growth
import Xv6.Kernel.Trap

namespace Xv6

open Conc Prog

/-- `enum procstate`. -/
def ProcState.code : ProcState → Int
  | .UNUSED => 0
  | .USED => 1
  | .SLEEPING => 2
  | .RUNNABLE => 3
  | .RUNNING => 4
  | .ZOMBIE => 5

structure UserProc where
  state : Int
  killed : Int
  xstate : Int
  pid : Int
  parent_id : Int
  name : Fin 16 → UInt8

/-- `sizeof(struct user_proc)`. -/
def userProcSize : Nat := 36

def UserProc.bytes (u : UserProc) : List UInt8 :=
  intBytes u.state ++ intBytes u.killed ++ intBytes u.xstate ++ intBytes u.pid ++
    intBytes u.parent_id ++ (List.finRange 16).map u.name

section

variable (proc : Slot → Proc) (name : Slot → Fin 16 → UInt8)

/-- The assignments for process `p`. One without a parent leaves `parent_id`
as it was. -/
def UserProc.fill (p : Slot) (old : UserProc) : UserProc where
  state := (proc p).state.code
  killed := if (proc p).killed then 1 else 0
  xstate := (proc p).xstate
  pid := (proc p).pid
  parent_id :=
    match (proc p).parent with
    | some q => (proc q).pid
    | none => old.parent_id
  name := name p

/-- The loop of `ps`, over the slots that are left. -/
def psLoop (count : Nat) : List Slot → (localCount : Nat) → (loc_result : Nat → UserProc) →
    Nat × (Nat → UserProc)
  | [], n, loc => (n, loc)
  | p :: ps, n, loc =>
    if n = count then (n, loc)
    else if (proc p).state = .UNUSED then
      -- TODO: set zero block at current pos
      (n, Function.update loc n { loc n with state := 0 })
    else psLoop count ps (n + 1) (Function.update loc n (UserProc.fill proc name p (loc n)))

/-- The array that `ps` copies out. -/
def psRecords (loc_result : Nat → UserProc) (start count : Nat) : List UserProc :=
  let (n, loc) := psLoop proc name count ((List.finRange NPROC).drop start) 0 loc_result
  let loc := if n < count then Function.update loc n { loc n with state := 0 } else loc
  (List.range count).map loc

end

/-- Called by process `t`; a pointer into its memory, or 0. -/
def ps [KernelImage] (ka : Kalloc) (t : Slot) (name : Slot → Fin 16 → UInt8)
    (loc_result : Nat → UserProc) (start count : UInt8) : Prog Kernel Nat := do
  let result ← read fun s => (s.proc t).sz
  if count.toNat = 0 then return 0
  else
    let r ← growproc ka t (count.toNat * userProcSize : Nat)
    if r < 0 then return 0
    else if start.toNat ≥ NPROC then return 0
    else
      let recs ← read fun s => psRecords s.proc name loc_result start.toNat count.toNat
      let _ ← copyoutSelf ka t result (recs.flatMap UserProc.bytes)
      return result

/-! ## What the loop reads -/

/-- The part of a process that `ps` reports. -/
def Proc.Reported (p p' : Proc) : Prop :=
  p'.state = p.state ∧ p'.killed = p.killed ∧ p'.xstate = p.xstate ∧ p'.pid = p.pid ∧
    p'.parent = p.parent

variable {proc proc' : Slot → Proc} {name : Slot → Fin 16 → UInt8} {loc : Nat → UserProc}

theorem UserProc.fill_congr (h : ∀ p, (proc p).Reported (proc' p)) (p : Slot) (old : UserProc) :
    UserProc.fill proc' name p old = UserProc.fill proc name p old := by
  obtain ⟨hstate, hkilled, hxstate, hpid, hparent⟩ := h p
  unfold UserProc.fill
  rw [hstate, hkilled, hxstate, hpid, hparent]
  cases (proc p).parent with
  | none => rfl
  | some q => simp only [(h q).2.2.2.1]

theorem psLoop_congr (h : ∀ p, (proc p).Reported (proc' p)) (count : Nat) (ps : List Slot) (n : Nat)
    (loc : Nat → UserProc) : psLoop proc' name count ps n loc = psLoop proc name count ps n loc := by
  induction ps generalizing n loc with
  | nil => rfl
  | cons p ps ih => simp only [psLoop, (h p).1, UserProc.fill_congr h, ih]

theorem psRecords_congr (h : ∀ p, (proc p).Reported (proc' p)) (start count : Nat) :
    psRecords proc' name loc start count = psRecords proc name loc start count := by
  unfold psRecords
  rw [psLoop_congr h]

theorem UserProc.length_bytes (u : UserProc) : u.bytes.length = userProcSize := by
  simp [UserProc.bytes, intBytes, userProcSize]

theorem length_psRecords (start count : Nat) :
    ((psRecords proc name loc start count).flatMap UserProc.bytes).length =
      count * userProcSize := by
  rw [List.length_flatMap, List.map_congr_left fun u _ => UserProc.length_bytes u,
    List.map_const', List.sum_replicate]
  simp [psRecords]

/-! ## The call -/

section

variable [KernelImage] {s s' : Kernel} {t : Slot} {r : Frame}
  {lbl : Frame → Option (Frame × Node)} {start count : UInt8} {ptr : Nat}

omit [KernelImage] in
theorem count_pos (hcount : count ≠ 0) : 0 < count.toNat := by
  rw [Nat.pos_iff_ne_zero]
  intro h0
  exact hcount (UInt8.toNat_inj.1 h0)

/-- A call that copies records has grown the caller's memory first, and so has
one that fails. -/
theorem Kernel.Caller.ps (h : s.Caller t r lbl) (hcount : count ≠ 0)
    (hr : (Xv6.ps Xv6.kalloc t name loc start count).run s = .ok ptr s') :
    ∃ s₁ lbl', (Xv6.growproc Xv6.kalloc t (count.toNat * userProcSize : Nat)).run s = .ok 0 s₁ ∧
      s.Grown s₁ t r (count.toNat * userProcSize) ∧ s₁.Caller t r lbl' ∧
      ((NPROC ≤ start.toNat ∧ ptr = 0 ∧ s' = s₁) ∨
        (start.toNat < NPROC ∧ ptr = (s.proc t).sz ∧ ∃ res,
          (copyout Xv6.kalloc r ptr
            ((psRecords s.proc name loc start.toNat count.toNat).flatMap UserProc.bytes)).run s₁ =
              .ok res s')) := by
  have hpos := count_pos hcount
  have hlt := count.toNat_lt
  unfold Xv6.ps at hr
  simp only [run_bind, run_read] at hr
  rw [if_neg (by omega)] at hr
  obtain ⟨res, s₁, hgrow, hr⟩ := bind_run_ok hr
  obtain ⟨rfl, hg, -, lbl', h₁⟩ := h.growproc (by unfold userProcSize; omega)
    (by unfold userProcSize; omega) hgrow
  refine ⟨s₁, lbl', hgrow, hg, h₁, ?_⟩
  rw [if_neg (by omega)] at hr
  split at hr
  next hge =>
    obtain ⟨rfl, rfl⟩ := Outcome.ok.inj hr
    exact .inl ⟨hge, rfl, rfl⟩
  next hge =>
    obtain ⟨_, _, hread, hr⟩ := bind_run_ok hr
    obtain ⟨rfl, rfl⟩ := Outcome.ok.inj hread
    obtain ⟨res, s₂, hcopy, hr⟩ := bind_run_ok hr
    obtain ⟨rfl, rfl⟩ := Outcome.ok.inj hr
    simp only [copyoutSelf, run_bind, run_read, h₁.pagetable] at hcopy
    have hsame : ∀ p, (s.proc p).Reported (s₁.proc p) := by
      intro p
      rw [hg.proc]
      by_cases hp : p = t
      · rw [hp, Function.update_self]
        exact ⟨rfl, rfl, rfl, rfl, rfl⟩
      · rw [Function.update_of_ne hp]
        exact ⟨rfl, rfl, rfl, rfl, rfl⟩
    rw [psRecords_congr hsame] at hcopy
    exact .inr ⟨by omega, rfl, res, hcopy⟩

end

attribute [local instance] image

/-- A process with a table in which nothing is mapped yet, and five free pages. -/
def oneProcess : Kernel :=
  (created 6).updProc initproc fun p =>
    { p with state := .RUNNING, pid := 1, sz := PGSIZE, pagetable := some image.endPage }

theorem oneProcess_caller : ∃ lbl, oneProcess.Caller initproc image.endPage lbl := by
  obtain ⟨lbl, hT, hmap, -⟩ := (created_built (n := 5) (by decide)).table
  have hnone : ∀ v, v < MAXVA / PGSIZE → oneProcess.userPage image.endPage v = none := by
    intro v hv
    have hmax : MAXVA / PGSIZE = 2 ^ 26 := rfl
    have hv' : mapping (created 6).pte image.endPage v = none := hmap v (by omega)
    show (mapping (created 6).pte image.endPage v).bind _ = none
    rw [hv']
    rfl
  refine ⟨lbl, rfl, hT.congr (hT.alloc.congr rfl rfl rfl) (fun _ _ _ => rfl) hT.free, by decide,
    fun v f hv hf => ?_, fun u v f hu hv hf _ => ?_⟩
  · rw [hnone v hv] at hf
    cases hf
  · rw [hnone u hu] at hf
    cases hf

end Xv6
