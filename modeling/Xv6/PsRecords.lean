/-
proc.c and user/ps.c: what the records say that `ps` copies to its caller.

The loop of `ps` stops at the first unused slot, and fills in no more of that
record than its state, so the records are those of the used slots from `start`
on, up to the first that is not used.
-/
import Mathlib.Data.List.TakeWhile
import Xv6.PsCall

namespace Xv6

open Conc Prog

variable {proc proc' : Slot → Proc} {name : Slot → Fin 16 → UInt8} {loc loc' : Nat → UserProc}

/-! ## The records -/

/-- A slot that is in use. -/
def Used (proc : Slot → Proc) (p : Slot) : Prop := (proc p).state ≠ .UNUSED

instance : DecidablePred (Used proc) := fun _ => by unfold Used; infer_instance

/-- The slots from `start` on, up to the first that is not used. -/
def usedFrom (proc : Slot → Proc) (start : Nat) : List Slot :=
  ((List.finRange NPROC).drop start).takeWhile fun p => Used proc p

/-- Record `j` of a call, when the used slots from its start on are `ps`. -/
def psRecord (proc : Slot → Proc) (name : Slot → Fin 16 → UInt8) (loc : Nat → UserProc)
    (ps : List Slot) (j : Nat) : UserProc :=
  match ps[j]? with
  | some p => UserProc.fill proc name p (loc j)
  | none => if j = ps.length then { loc j with state := 0 } else loc j

theorem psLoop_eq (count : Nat) (l : List Slot) (n : Nat) (loc : Nat → UserProc) (hn : n ≤ count) :
    (psLoop proc name count l n loc).1 =
      min count (n + (l.takeWhile fun p => Used proc p).length) ∧
    ∀ j, (psLoop proc name count l n loc).2 j =
      if n ≤ j ∧ j < min count (n + (l.takeWhile fun p => Used proc p).length) then
        match (l.takeWhile fun p => Used proc p)[j - n]? with
        | some p => UserProc.fill proc name p (loc j)
        | none => loc j
      else if j = n + (l.takeWhile fun p => Used proc p).length ∧ j < count ∧
        (l.takeWhile fun p => Used proc p).length < l.length then { loc j with state := 0 }
      else loc j := by
  induction l generalizing n loc with
  | nil =>
    refine ⟨?_, fun j => ?_⟩
    · simp only [psLoop, List.takeWhile_nil, List.length_nil]
      omega
    · simp [psLoop]
  | cons p l ih =>
    unfold psLoop
    by_cases hfull : n = count
    · rw [if_pos hfull]
      refine ⟨by dsimp only; omega, fun j => ?_⟩
      rw [if_neg (by omega), if_neg (by omega)]
    · rw [if_neg hfull]
      by_cases hp : (proc p).state = .UNUSED
      · have htw : (p :: l).takeWhile (fun p => Used proc p) = [] :=
          List.takeWhile_cons_of_neg (by simp [Used, hp])
        rw [if_pos hp, htw]
        refine ⟨by simp only [List.length_nil]; omega, fun j => ?_⟩
        simp only [List.length_nil, Nat.add_zero, List.length_cons]
        rw [if_neg (by omega)]
        by_cases hj : j = n
        · rw [if_pos (by omega), hj, Function.update_self]
        · rw [if_neg (by omega), Function.update_of_ne hj]
      · have htw : (p :: l).takeWhile (fun p => Used proc p) =
            p :: l.takeWhile fun p => Used proc p :=
          List.takeWhile_cons_of_pos (by simp [Used, hp])
        obtain ⟨hlen, hloc⟩ := ih (n + 1)
          (Function.update loc n (UserProc.fill proc name p (loc n))) (by omega)
        rw [if_neg hp, htw]
        simp only [List.length_cons]
        refine ⟨by rw [hlen]; omega, fun j => ?_⟩
        rw [hloc j]
        by_cases hj : j = n
        · subst hj
          rw [if_neg (by omega), if_neg (by omega), if_pos (by omega), Nat.sub_self,
            Function.update_self]
          rfl
        · rw [Function.update_of_ne hj]
          by_cases hin : n + 1 ≤ j ∧
              j < min count (n + 1 + (l.takeWhile fun p => Used proc p).length)
          · rw [if_pos hin, if_pos (by omega), show j - n = j - (n + 1) + 1 by omega,
              List.getElem?_cons_succ]
          · by_cases hend : j = n + 1 + (l.takeWhile fun p => Used proc p).length ∧ j < count ∧
                (l.takeWhile fun p => Used proc p).length < l.length
            · rw [if_neg hin, if_pos hend, if_neg (by omega), if_pos (by omega)]
            · rw [if_neg hin, if_neg hend, if_neg (by omega), if_neg (by omega)]

/-- Each used slot up to the first unused one fills a record; of the next one
only the state is set, and of those behind it nothing. -/
theorem psRecords_eq (start count : Nat) : psRecords proc name loc start count =
    (List.range count).map (psRecord proc name loc (usedFrom proc start)) := by
  obtain ⟨hn, hloc⟩ := @psLoop_eq proc name count ((List.finRange NPROC).drop start) 0 loc
    (Nat.zero_le _)
  rw [Nat.zero_add] at hn
  simp only [Nat.zero_add, Nat.sub_zero, Nat.zero_le, true_and] at hloc
  unfold psRecords psRecord usedFrom
  obtain ⟨l, hl⟩ : ∃ l, l = (List.finRange NPROC).drop start := ⟨_, rfl⟩
  obtain ⟨ps, hps⟩ : ∃ ps, ps = l.takeWhile fun p => Used proc p := ⟨_, rfl⟩
  rw [← hl, ← hps] at hn hloc ⊢
  refine List.map_congr_left fun j hj => ?_
  rw [List.mem_range] at hj
  dsimp only
  rw [hn]
  by_cases hjl : j < ps.length
  · have hold : (psLoop proc name count l 0 loc).2 j = UserProc.fill proc name ps[j] (loc j) := by
      rw [hloc j, if_pos (by omega), List.getElem?_eq_getElem hjl]
    rw [List.getElem?_eq_getElem hjl]
    split
    next => rw [Function.update_of_ne (by omega), hold]
    next => exact hold
  · rw [List.getElem?_eq_none (by omega), if_pos (by omega)]
    dsimp only
    rw [show min count ps.length = ps.length by omega]
    by_cases hend : j = ps.length
    · subst hend
      rw [Function.update_self, if_pos rfl, hloc, if_neg (by omega)]
      split <;> rfl
    · rw [Function.update_of_ne hend, if_neg hend, hloc j, if_neg (by omega),
        if_neg fun h => hend h.1]

/-! ## Which slots they are -/

theorem lt_length_takeWhile {α : Type} (q : α → Bool) (l : List α) (i : Nat) :
    i < (l.takeWhile q).length ↔ ∀ j, j ≤ i → ∃ a, l[j]? = some a ∧ q a = true := by
  induction l generalizing i with
  | nil => simpa using ⟨0, Nat.zero_le i⟩
  | cons a l ih =>
    by_cases ha : q a = true
    · rw [List.takeWhile_cons_of_pos ha, List.length_cons]
      cases i with
      | zero =>
        refine iff_of_true (by omega) fun j hj => ?_
        obtain rfl : j = 0 := by omega
        exact ⟨a, rfl, ha⟩
      | succ i =>
        rw [Nat.add_lt_add_iff_right, ih]
        constructor
        · intro h j hj
          cases j with
          | zero => exact ⟨a, rfl, ha⟩
          | succ j => exact h j (by omega)
        · intro h j hj
          exact h (j + 1) (by omega)
    · rw [List.takeWhile_cons_of_neg ha]
      refine iff_of_false (by simp) fun h => ?_
      obtain ⟨b, hb, hq⟩ := h 0 (Nat.zero_le i)
      obtain rfl := Option.some.inj hb
      exact ha hq

theorem getElem?_slots (start j : Nat) :
    ((List.finRange NPROC).drop start)[j]? =
      if h : start + j < NPROC then some ⟨start + j, h⟩ else none := by
  rw [List.getElem?_drop]
  split
  next h => rw [List.getElem?_eq_getElem (by simpa using h), List.getElem_finRange]; rfl
  next h => exact List.getElem?_eq_none (by simpa using h)

theorem lt_usedFrom (proc : Slot → Proc) (start i : Nat) :
    i < (usedFrom proc start).length ↔ ∀ j, j ≤ i → ∃ p : Slot, p.val = start + j ∧ Used proc p := by
  rw [usedFrom, lt_length_takeWhile]
  refine forall_congr' fun j => forall_congr' fun _ => ?_
  rw [getElem?_slots]
  constructor
  · rintro ⟨p, hp, hu⟩
    split at hp
    next hlt =>
      obtain rfl := Option.some.inj hp
      exact ⟨_, rfl, of_decide_eq_true hu⟩
    next => cases hp
  · rintro ⟨p, hp, hu⟩
    rw [dif_pos (hp ▸ p.isLt)]
    exact ⟨p, congrArg some (Fin.ext hp.symm), decide_eq_true hu⟩

theorem getElem?_usedFrom {start i : Nat} {p : Slot} (h : (usedFrom proc start)[i]? = some p) :
    p.val = start + i ∧ Used proc p := by
  have hpre : usedFrom proc start <+: (List.finRange NPROC).drop start := List.takeWhile_prefix _
  obtain ⟨hlt, hget⟩ := List.getElem?_eq_some_iff.1 h
  have hslot : ((List.finRange NPROC).drop start)[i]? = some p := by
    rw [List.getElem?_eq_getElem (hlt.trans_le hpre.length_le), ← hpre.getElem hlt, hget]
  rw [getElem?_slots] at hslot
  split at hslot
  next =>
    have hmem : p ∈ usedFrom proc start := List.mem_of_getElem? h
    have hu : Used proc p := of_decide_eq_true
      (@List.mem_takeWhile_imp _ (fun p => decide (Used proc p)) _ p hmem)
    obtain rfl := Option.some.inj hslot
    exact ⟨rfl, hu⟩
  next => cases hslot

/-! ## Their bytes -/

theorem getElem?_flatMap_const {α β : Type} {f : α → List β} {n : Nat} (hf : ∀ a, (f a).length = n)
    (l : List α) (k : Nat) {m : Nat} (hm : m < n) :
    (l.flatMap f)[n * k + m]? = (l[k]?).bind fun a => (f a)[m]? := by
  induction l generalizing k with
  | nil => rfl
  | cons a l ih =>
    rw [List.flatMap_cons]
    cases k with
    | zero =>
      rw [Nat.mul_zero, Nat.zero_add, List.getElem?_append_left (by rw [hf]; exact hm)]
      rfl
    | succ k =>
      rw [List.getElem?_append_right (by rw [hf, Nat.mul_succ]; omega), hf, Nat.mul_succ,
        show n * k + n + m - n = n * k + m by omega, ih k]
      rfl

section

variable [KernelImage] {s s₁ s' : Kernel} {t : Slot} {r : Frame}
  {lbl : Frame → Option (Frame × Node)} {start count : UInt8} {ptr : Nat}

/-- The caller's memory goes on where it ended: that page, if it is begun, is
user memory. -/
def Kernel.Continues (s : Kernel) (t : Slot) (r : Frame) : Prop :=
  (s.proc t).sz % PGSIZE = 0 ∨ s.pageOf r (s.proc t).sz ≠ none

omit [KernelImage] in
theorem Kernel.Grown.continues {n : Nat} (hg : s.Grown s₁ t r n) (hn : 0 < n)
    (hsz : (s.proc t).sz ≤ MAXVA) : s₁.userByte r (s.proc t).sz ≠ none ↔ s.Continues t r := by
  obtain ⟨hup, hup'⟩ := le_PGROUNDUP hsz
  unfold Kernel.Continues
  by_cases hend : PGROUNDUP (s.proc t).sz = (s.proc t).sz
  · refine iff_of_true (hg.mapped _ (by omega) (by omega)) (.inl ?_)
    unfold PGROUNDUP PGSIZE MAXVA at *
    omega
  · have hmod : ¬ (s.proc t).sz % PGSIZE = 0 := by
      unfold PGROUNDUP PGSIZE MAXVA at *
      omega
    rw [ne_eq, userByte_eq_none, hg.page _ (by omega)]
    simp [hmod]

omit [KernelImage] in
/-- If the first byte of the new memory is user memory, all of it is. -/
theorem Kernel.Grown.all {n : Nat} (hg : s.Grown s₁ t r n) (hsz : (s.proc t).sz ≤ MAXVA)
    (hfirst : s₁.userByte r (s.proc t).sz ≠ none) {i : Nat} (hi : i < n) :
    s₁.userByte r ((s.proc t).sz + i) ≠ none := by
  obtain ⟨hup, hup'⟩ := le_PGROUNDUP hsz
  by_cases hend : PGROUNDUP (s.proc t).sz ≤ (s.proc t).sz + i
  · exact hg.mapped _ hend (by omega)
  · cases hpage : s₁.pageOf r (s.proc t).sz with
    | none => exact absurd (userByte_eq_none.2 hpage) hfirst
    | some f =>
      rw [userByte_page hpage (by unfold PGROUNDUP PGSIZE MAXVA at *; omega)]
      nofun

/-- A call inside the table leaves its records at the old end of memory, if
they can be there. -/
theorem Kernel.Caller.ps_bytes (h : s.Caller t r lbl) (hcount : count ≠ 0)
    (hstart : start.toNat < NPROC)
    (hr : (Xv6.ps Xv6.kalloc t name loc start count).run s = .ok ptr s') :
    ptr = (s.proc t).sz ∧
    ∃ s₁, (Xv6.growproc Xv6.kalloc t (count.toNat * userProcSize : Nat)).run s = .ok 0 s₁ ∧
      (s.Continues t r → ∀ x, s'.userByte r x =
        if ptr ≤ x ∧ x < ptr + count.toNat * userProcSize then
          ((psRecords s.proc name loc start.toNat count.toNat).flatMap UserProc.bytes)[x - ptr]?
        else s₁.userByte r x) ∧
      (¬ s.Continues t r → s' = s₁) := by
  obtain ⟨s₁, lbl', hgrow, hg, h₁, hend⟩ := h.ps hcount hr
  have hpos : 0 < count.toNat * userProcSize := by
    have h0 := count_pos hcount
    unfold userProcSize
    omega
  rcases hend with ⟨hge, -⟩ | ⟨-, rfl, res, hcopy⟩
  · omega
  have hlen := @length_psRecords s.proc name loc start.toNat count.toNat
  refine ⟨rfl, s₁, hgrow, fun hcont => ?_, fun hcont => ?_⟩
  · have hfirst := (hg.continues hpos h.size).2 hcont
    obtain ⟨res', mem, hrun, hres, hmem⟩ := @copyout_run Xv6.kalloc r (s.proc t).sz
      ((psRecords s.proc name loc start.toNat count.toNat).flatMap UserProc.bytes) s₁
    obtain ⟨rfl, rfl⟩ := Outcome.ok.inj (hrun.symm.trans hcopy)
    have h0 : res' = 0 := by
      rcases hres with ⟨h0, -⟩ | ⟨-, i, hi, hnone⟩
      · exact h0
      · exact absurd hnone (hg.all h.size hfirst (by omega))
    intro x
    rw [hmem h₁.unshared h0 x, hlen]
  · have hfirst := mt (hg.continues hpos h.size).1 hcont
    have hne : (psRecords s.proc name loc start.toNat count.toNat).flatMap UserProc.bytes ≠ [] := by
      rw [ne_eq, ← List.length_eq_zero_iff, hlen]
      omega
    have hfail := @copyout_unmapped s₁ Xv6.kalloc r _ _ hne (not_not.1 hfirst)
    exact (Outcome.ok.inj (hcopy.symm.trans hfail)).2

/-! ## What was on the stack -/

/-- The bytes that the caller can see do not depend on what the kernel stack
held. -/
def PsDetermined (s : Kernel) (t : Slot) (r : Frame) (name : Slot → Fin 16 → UInt8)
    (start count : UInt8) : Prop :=
  ∀ loc loc' ptr ptr' s₁ s₂, (Xv6.ps Xv6.kalloc t name loc start count).run s = .ok ptr s₁ →
    (Xv6.ps Xv6.kalloc t name loc' start count).run s = .ok ptr' s₂ →
    ∀ x, s₁.userByte r x = s₂.userByte r x

/-- Whether a call returns does not depend on the stack either. -/
theorem Kernel.Caller.ps_returns (h : s.Caller t r lbl)
    (hr : (Xv6.ps Xv6.kalloc t name loc start count).run s = .ok ptr s')
    (loc' : Nat → UserProc) :
    ∃ s'', (Xv6.ps Xv6.kalloc t name loc' start count).run s = .ok ptr s'' := by
  by_cases hcount : count = 0
  · unfold Xv6.ps at hr ⊢
    simp only [run_bind, run_read, hcount, UInt8.toNat_zero, if_true] at hr ⊢
    exact ⟨s', hr⟩
  obtain ⟨s₁, lbl', hgrow, -, h₁, hend⟩ := h.ps hcount hr
  have h0 : count.toNat ≠ 0 := fun h0 => hcount (UInt8.toNat_inj.1 h0)
  unfold Xv6.ps
  simp only [run_bind, run_read, if_neg h0, hgrow, Int.reduceLT, if_false]
  rcases hend with ⟨hge, rfl, -⟩ | ⟨hlt, rfl, -⟩
  · rw [if_pos hge]
    exact ⟨s₁, rfl⟩
  · rw [if_neg (by omega)]
    obtain ⟨res, mem, hrun, -⟩ := @copyout_frame Xv6.kalloc r (s.proc t).sz
      ((psRecords s₁.proc name loc' start.toNat count.toNat).flatMap UserProc.bytes) s₁
    simp only [run_bind, run_read, copyoutSelf, h₁.pagetable, hrun]
    exact ⟨_, rfl⟩

/-- All slots that a call asks for are used, by processes that have a parent. -/
def AllHaveParents (proc : Slot → Proc) (start count : Nat) : Prop :=
  ∀ i, i < count → ∃ p : Slot, p.val = start + i ∧ Used proc p ∧ (proc p).parent ≠ none

omit [KernelImage] in
/-- Such records say nothing of the stack. -/
theorem psRecords_determined {start count : Nat} (hall : AllHaveParents proc start count) :
    psRecords proc name loc start count = psRecords proc name loc' start count := by
  rw [psRecords_eq, psRecords_eq]
  refine List.map_congr_left fun j hj => ?_
  rw [List.mem_range] at hj
  have hlt : j < (usedFrom proc start).length := (lt_usedFrom proc start j).2 fun i hi => by
    obtain ⟨p, hp, hu, -⟩ := hall i (by omega)
    exact ⟨p, hp, hu⟩
  obtain ⟨p, hp⟩ : ∃ p, (usedFrom proc start)[j]? = some p := ⟨_, List.getElem?_eq_getElem hlt⟩
  obtain ⟨q, hq, -, hparent⟩ := hall j hj
  obtain rfl : p = q := Fin.ext ((getElem?_usedFrom hp).1.trans hq.symm)
  unfold psRecord UserProc.fill
  simp only [hp]
  cases hpar : (proc p).parent with
  | none => exact absurd hpar hparent
  | some q => rfl

omit [KernelImage] in
/-- Any other call has a record with the stack's `parent_id`. -/
theorem psRecord_undetermined {start count : Nat} (hnot : ¬ AllHaveParents proc start count) :
    ∃ j, j < count ∧ ∀ loc, (psRecord proc name loc (usedFrom proc start) j).parent_id =
      (loc j).parent_id := by
  simp only [AllHaveParents, not_forall] at hnot
  obtain ⟨j, hj, hno⟩ := hnot
  refine ⟨j, hj, fun loc => ?_⟩
  unfold psRecord
  cases hp : (usedFrom proc start)[j]? with
  | none =>
    dsimp only
    split <;> rfl
  | some p =>
    obtain ⟨hval, hu⟩ := getElem?_usedFrom hp
    have hparent : (proc p).parent = none := by
      by_contra hpar
      exact hno ⟨p, hval, hu, hpar⟩
    simp only [UserProc.fill, hparent]

omit [KernelImage] in
/-- The first byte of `parent_id` in record `j`. -/
theorem psRecords_parent_byte {start count j : Nat} (hj : j < count)
    (hpar : ∀ loc, (psRecord proc name loc (usedFrom proc start) j).parent_id =
      (loc j).parent_id) (loc : Nat → UserProc) :
    ((psRecords proc name loc start count).flatMap UserProc.bytes)[userProcSize * j + 16]? =
      some (UInt8.ofNat ((loc j).parent_id % 2 ^ 32).toNat) := by
  rw [getElem?_flatMap_const UserProc.length_bytes _ _ (by decide), psRecords_eq,
    List.getElem?_map, List.getElem?_range hj, ← hpar loc]
  simp [UserProc.bytes, intBytes]

/-- The caller sees process-table data only if and only if nothing is copied,
or all the slots that the call asks for are used by processes with a parent. -/
theorem ps_leaks_stack (h : s.Caller t r lbl)
    (hr : (Xv6.ps Xv6.kalloc t name loc start count).run s = .ok ptr s') :
    PsDetermined s t r name start count ↔ count = 0 ∨ NPROC ≤ start.toNat ∨ ¬ s.Continues t r ∨
      AllHaveParents s.proc start.toNat count.toNat := by
  by_cases hcount : count = 0
  · refine iff_of_true (fun loc₁ loc₂ ptr₁ ptr₂ s₁ s₂ hr₁ hr₂ x => ?_) (.inl hcount)
    unfold Xv6.ps at hr₁ hr₂
    simp only [run_bind, run_read, hcount, UInt8.toNat_zero, if_true] at hr₁ hr₂
    rw [(Outcome.ok.inj (hr₁.symm.trans hr₂)).2]
  by_cases hstart : NPROC ≤ start.toNat
  · refine iff_of_true (fun loc₁ loc₂ ptr₁ ptr₂ s₁ s₂ hr₁ hr₂ x => ?_) (.inr (.inl hstart))
    obtain ⟨k₁, _, hg₁, -, -, ⟨-, -, rfl⟩ | ⟨hlt, -⟩⟩ := h.ps hcount hr₁
    · obtain ⟨k₂, _, hg₂, -, -, ⟨-, -, rfl⟩ | ⟨hlt, -⟩⟩ := h.ps hcount hr₂
      · rw [(Outcome.ok.inj (hg₁.symm.trans hg₂)).2]
      · omega
    · omega
  have hlt : start.toNat < NPROC := by omega
  constructor
  · intro hdet
    by_contra hno
    simp only [not_or, not_not] at hno
    obtain ⟨-, -, hcont, hnot⟩ := hno
    obtain ⟨j, hj, hpar⟩ := @psRecord_undetermined s.proc name _ _ hnot
    -- two stacks, with 0 and with 1 for the parent of that record
    obtain ⟨s₀, hr₀⟩ := h.ps_returns hr fun _ => ⟨0, 0, 0, 0, 0, fun _ => 0⟩
    obtain ⟨s₁, hr₁⟩ := h.ps_returns hr fun _ => ⟨0, 0, 0, 0, 1, fun _ => 0⟩
    obtain ⟨-, k₀, -, hb₀, -⟩ := h.ps_bytes hcount hlt hr₀
    obtain ⟨-, k₁, -, hb₁, -⟩ := h.ps_bytes hcount hlt hr₁
    have heq := hdet _ _ _ _ _ _ hr₀ hr₁ (ptr + (userProcSize * j + 16))
    have hin : userProcSize * j + 16 < count.toNat * userProcSize := by
      unfold userProcSize
      omega
    rw [hb₀ hcont, hb₁ hcont, if_pos (by omega), if_pos (by omega), Nat.add_sub_cancel_left,
      psRecords_parent_byte hj hpar, psRecords_parent_byte hj hpar] at heq
    exact absurd heq (by decide)
  · rintro (h0 | hge | hcont | hall)
    · exact absurd h0 hcount
    · omega
    · intro loc₁ loc₂ ptr₁ ptr₂ s₁ s₂ hr₁ hr₂ x
      obtain ⟨-, k₁, hg₁, -, hs₁⟩ := h.ps_bytes hcount hlt hr₁
      obtain ⟨-, k₂, hg₂, -, hs₂⟩ := h.ps_bytes hcount hlt hr₂
      rw [hs₁ hcont, hs₂ hcont, (Outcome.ok.inj (hg₁.symm.trans hg₂)).2]
    · intro loc₁ loc₂ ptr₁ ptr₂ s₁ s₂ hr₁ hr₂ x
      obtain ⟨k₁, _, hg₁, -, -, ⟨hge, -⟩ | ⟨-, rfl, res₁, hc₁⟩⟩ := h.ps hcount hr₁
      · omega
      obtain ⟨k₂, _, hg₂, -, -, ⟨hge, -⟩ | ⟨-, rfl, res₂, hc₂⟩⟩ := h.ps hcount hr₂
      · omega
      rw [(Outcome.ok.inj (hg₁.symm.trans hg₂)).2, psRecords_determined hall] at hc₁
      rw [(Outcome.ok.inj (hc₁.symm.trans hc₂)).2]

/-! ## user/ps.c -/

/-- The `int` at a user address. -/
def Kernel.userInt (s : Kernel) (r : Frame) (va : Nat) : Option Int := do
  let b₀ ← s.userByte r va
  let b₁ ← s.userByte r (va + 1)
  let b₂ ← s.userByte r (va + 2)
  let b₃ ← s.userByte r (va + 3)
  return i32 (b₀.toNat + 256 * (b₁.toNat + 256 * (b₂.toNat + 256 * b₃.toNat)) : Nat)

/-- What is read of a record. -/
structure Report where
  state : Int
  pid : Int
  parent_id : Int
  deriving DecidableEq

/-- The inner loop of `main`: the records at `procs` up to one that is
UNUSED, and whether there is one; `none` is a page fault. -/
def readProcs (s : Kernel) (r : Frame) : (n procs : Nat) → Option (List Report × Bool)
  | 0, _ => some ([], false)
  | n + 1, procs => do
    let state ← s.userInt r procs
    if state = 0 then return ([], true)
    else
      let pid ← s.userInt r (procs + 12)
      let parent_id ← s.userInt r (procs + 16)
      let (rest, unused) ← readProcs s r n (procs + userProcSize)
      return (⟨state, pid, parent_id⟩ :: rest, unused)

/-- Some process calls `ps`, in any state with the process table `proc`, and
gets `ptr` into memory `s'`. -/
def PsCall (proc : Slot → Proc) (start count : UInt8) (r : Frame) (ptr : Nat) (s' : Kernel) : Prop :=
  ∃ s t lbl name loc, (∀ p, (proc p).Reported (s.proc p)) ∧ s.Caller t r lbl ∧ 0 < (s.proc t).sz ∧
    (Xv6.ps Xv6.kalloc t name loc start count).run s = .ok ptr s'

/-- What the outer loop of `main`, with `c` in place of 2, reads from
`proc_idx` on. -/
inductive Listing (proc : Slot → Proc) (c : UInt8) : (proc_idx : UInt16) → List Report → Prop
  | failed {i r s'} : PsCall proc i.toUInt8 c r 0 s' → Listing proc c i []
  | last {i r ptr s' reps} : PsCall proc i.toUInt8 c r ptr s' → ptr ≠ 0 →
      readProcs s' r c.toNat ptr = some (reps, true) → Listing proc c i reps
  | next {i r ptr s' reps rest} : PsCall proc i.toUInt8 c r ptr s' → ptr ≠ 0 →
      readProcs s' r c.toNat ptr = some (reps, false) → Listing proc c (i + c.toUInt16) rest →
      Listing proc c i (reps ++ rest)

/-- A report of process `p`. -/
def Reports (proc : Slot → Proc) (p : Slot) (rep : Report) : Prop :=
  rep.state = (proc p).state.code ∧ rep.pid = i32 (proc p).pid ∧
    ∀ q, (proc p).parent = some q → rep.parent_id = i32 (proc q).pid

omit [KernelImage] in
theorem userInt_eq {va : Nat} {x : Int}
    (h : ∀ i, i < 4 → s.userByte r (va + i) = (intBytes x)[i]?) :
    s.userInt r va = some (i32 x) := by
  obtain ⟨m, hm⟩ : ∃ m, m = (x % 2 ^ 32).toNat := ⟨_, rfl⟩
  have hb : ∀ i, i < 4 → s.userByte r (va + i) = some (UInt8.ofNat (m / 2 ^ (8 * i))) := by
    intro i hi
    rw [h i hi, intBytes, List.getElem?_map, List.getElem?_range hi, ← hm]
    rfl
  have hval : m % 2 ^ 8 + 256 * (m / 2 ^ 8 % 2 ^ 8 + 256 * (m / 2 ^ 16 % 2 ^ 8 +
      256 * (m / 2 ^ 24 % 2 ^ 8))) = m := by omega
  have hx : i32 (m : Int) = i32 x := by
    unfold i32
    omega
  have h₀ := hb 0 (by omega)
  rw [Nat.add_zero, Nat.mul_zero, Nat.pow_zero, Nat.div_one] at h₀
  unfold Kernel.userInt
  rw [h₀, hb 1 (by omega), hb 2 (by omega), hb 3 (by omega), ← hx]
  simp only [Option.pure_def, Option.bind_eq_bind, Option.bind_some, UInt8.toNat_ofNat',
    Nat.reduceMul, hval]

omit [KernelImage] in
theorem code_eq_zero (state : ProcState) : i32 state.code = 0 ↔ state = .UNUSED := by
  cases state <;> decide

omit [KernelImage] in
theorem i32_code (state : ProcState) : i32 state.code = state.code := by
  cases state <;> decide

omit [KernelImage] in
/-- Records in memory are read as the used slots, up to the first that is not
used. -/
theorem readProcs_records {c ptr start : Nat} {reps : List Report} {unused : Bool}
    (hbytes : ∀ k m, k < c → m < userProcSize → s.userByte r (ptr + (userProcSize * k + m)) =
      (psRecord proc name loc (usedFrom proc start) k).bytes[m]?)
    (n j : Nat) (hj : j + n = c) (hle : j ≤ (usedFrom proc start).length)
    (hr : readProcs s r n (ptr + userProcSize * j) = some (reps, unused)) :
    List.Forall₂ (Reports proc) (((usedFrom proc start).drop j).take n) reps ∧
      (unused = true ↔ (usedFrom proc start).length < c) := by
  induction n generalizing j reps unused with
  | zero =>
    obtain ⟨rfl, rfl⟩ := Prod.mk.inj (Option.some.inj hr)
    refine ⟨.nil, ?_⟩
    simp only [Bool.false_eq_true, false_iff]
    omega
  | succ n ih =>
    obtain ⟨u, hu⟩ : ∃ u, u = psRecord proc name loc (usedFrom proc start) j := ⟨_, rfl⟩
    -- the three fields that are read
    have hint : ∀ off x, off + 4 ≤ userProcSize → (∀ i, i < 4 → u.bytes[off + i]? =
        (intBytes x)[i]?) → s.userInt r (ptr + userProcSize * j + off) = some (i32 x) := by
      intro off x hoff hx
      refine userInt_eq fun i hi => ?_
      rw [← hx i hi, hu, ← hbytes j (off + i) (by omega) (by omega)]
      congr 1
      omega
    have hlen : ∀ x, (intBytes x).length = 4 := fun x => by simp [intBytes]
    have hstate := hint 0 u.state (by decide) fun i hi => by
      simp only [UserProc.bytes, List.append_assoc, Nat.zero_add]
      rw [List.getElem?_append_left (by rw [hlen]; exact hi)]
    have hpid := hint 12 u.pid (by decide) fun i hi => by
      simp only [UserProc.bytes, List.append_assoc]
      rw [List.getElem?_append_right (by rw [hlen]; omega), hlen,
        List.getElem?_append_right (by rw [hlen]; omega), hlen,
        List.getElem?_append_right (by rw [hlen]; omega), hlen,
        List.getElem?_append_left (by rw [hlen]; omega)]
      congr 1
      omega
    have hpar := hint 16 u.parent_id (by decide) fun i hi => by
      simp only [UserProc.bytes, List.append_assoc]
      rw [List.getElem?_append_right (by rw [hlen]; omega), hlen,
        List.getElem?_append_right (by rw [hlen]; omega), hlen,
        List.getElem?_append_right (by rw [hlen]; omega), hlen,
        List.getElem?_append_right (by rw [hlen]; omega), hlen,
        List.getElem?_append_left (by rw [hlen]; omega)]
      congr 1
      omega
    unfold readProcs at hr
    rw [Nat.add_zero] at hstate
    simp only [Option.bind_eq_bind, hstate, Option.bind_some, hpid, hpar] at hr
    unfold psRecord at hu
    cases hp : (usedFrom proc start)[j]? with
    | none =>
      have hend := List.getElem?_eq_none_iff.1 hp
      rw [hp] at hu
      dsimp only at hu
      rw [if_pos (by omega)] at hu
      rw [hu] at hr
      obtain ⟨rfl, rfl⟩ := Prod.mk.inj (Option.some.inj hr)
      rw [List.drop_eq_nil_of_le hend]
      refine ⟨by simp, ?_⟩
      simp only [true_iff]
      omega
    | some p =>
      obtain ⟨hlt, hget⟩ := List.getElem?_eq_some_iff.1 hp
      obtain ⟨-, hused⟩ := getElem?_usedFrom hp
      rw [hp] at hu
      dsimp only at hu
      have hne : ¬ i32 u.state = 0 := by
        rw [hu]
        exact mt (code_eq_zero _).1 hused
      rw [if_neg hne] at hr
      obtain ⟨⟨rest, b⟩, hrest, hr⟩ := Option.bind_eq_some_iff.1 hr
      obtain ⟨rfl, rfl⟩ := Prod.mk.inj (Option.some.inj hr)
      rw [show ptr + userProcSize * j + userProcSize = ptr + userProcSize * (j + 1) by
        rw [Nat.mul_succ, Nat.add_assoc]] at hrest
      obtain ⟨hall, hiff⟩ := ih (j + 1) (by omega) (by omega) hrest
      refine ⟨?_, hiff⟩
      rw [List.drop_eq_getElem_cons hlt, hget, List.take_succ_cons]
      refine .cons ⟨?_, ?_, fun q hq => ?_⟩ hall
      · rw [hu]
        exact i32_code _
      · rw [hu]
        rfl
      · rw [hu]
        simp only [UserProc.fill, hq]

omit [KernelImage] in
theorem drop_takeWhile {α : Type} (q : α → Bool) (l : List α) {k : Nat}
    (hk : k ≤ (l.takeWhile q).length) : (l.drop k).takeWhile q = (l.takeWhile q).drop k := by
  induction l generalizing k with
  | nil => simp
  | cons a l ih =>
    cases k with
    | zero => rfl
    | succ k =>
      by_cases ha : q a = true
      · rw [List.takeWhile_cons_of_pos ha, List.length_cons] at hk
        rw [List.takeWhile_cons_of_pos ha, List.drop_succ_cons, List.drop_succ_cons]
        exact ih (by omega)
      · rw [List.takeWhile_cons_of_neg ha] at hk
        exact absurd hk (by simp)

omit [KernelImage] in
theorem usedFrom_add {start k : Nat} (hk : k ≤ (usedFrom proc start).length) :
    usedFrom proc (start + k) = (usedFrom proc start).drop k := by
  unfold usedFrom at hk ⊢
  rw [← List.drop_drop]
  exact drop_takeWhile _ _ hk

omit [KernelImage] in
theorem userInt_isSome {va : Nat} (h : ∀ i, i < 4 → s.userByte r (va + i) ≠ none) :
    ∃ x, s.userInt r va = some x := by
  obtain ⟨b₀, h₀⟩ := Option.ne_none_iff_exists'.1 (h 0 (by omega))
  obtain ⟨b₁, h₁⟩ := Option.ne_none_iff_exists'.1 (h 1 (by omega))
  obtain ⟨b₂, h₂⟩ := Option.ne_none_iff_exists'.1 (h 2 (by omega))
  obtain ⟨b₃, h₃⟩ := Option.ne_none_iff_exists'.1 (h 3 (by omega))
  rw [Nat.add_zero] at h₀
  unfold Kernel.userInt
  rw [h₀, h₁, h₂, h₃]
  exact ⟨_, rfl⟩

omit [KernelImage] in
theorem readProcs_isSome {n procs : Nat}
    (h : ∀ x, procs ≤ x → x < procs + userProcSize * n → s.userByte r x ≠ none) :
    ∃ x, readProcs s r n procs = some x := by
  induction n generalizing procs with
  | zero => exact ⟨_, rfl⟩
  | succ n ih =>
    have hin : ∀ off, off + 4 ≤ userProcSize → ∃ x, s.userInt r (procs + off) = some x :=
      fun off hoff => userInt_isSome fun i hi => h _ (by omega) (by
        rw [Nat.mul_succ]
        omega)
    obtain ⟨state, hstate⟩ := hin 0 (by decide)
    obtain ⟨pid, hpid⟩ := hin 12 (by decide)
    obtain ⟨parent_id, hparent⟩ := hin 16 (by decide)
    obtain ⟨x, hrest⟩ := @ih (procs + userProcSize) fun x hle hlt => h x (by omega) (by
      rw [Nat.mul_succ]
      omega)
    unfold readProcs
    rw [Nat.add_zero] at hstate
    simp only [Option.bind_eq_bind, hstate, hpid, hparent, hrest, Option.bind_some]
    split
    · exact ⟨_, rfl⟩
    · exact ⟨_, rfl⟩

/-- One call and what the program reads of its records. -/
theorem PsCall.reads (hcall : PsCall proc start count r ptr s') (hcount : count ≠ 0)
    {reps : List Report} {unused : Bool} (hptr : ptr ≠ 0)
    (hread : readProcs s' r count.toNat ptr = some (reps, unused)) :
    List.Forall₂ (Reports proc) ((usedFrom proc start.toNat).take count.toNat) reps ∧
      (unused = true ↔ (usedFrom proc start.toNat).length < count.toNat) := by
  obtain ⟨s, t, lbl, name, loc, hsame, h, hsz, hr⟩ := hcall
  obtain ⟨s₁, lbl', hgrow, hg, h₁, hend⟩ := h.ps hcount hr
  have hpos := count_pos hcount
  rcases hend with ⟨-, h0, -⟩ | ⟨hlt, -, -⟩
  · exact absurd h0 hptr
  obtain ⟨rfl, k, hgrow', hmem, hstay⟩ := h.ps_bytes hcount hlt hr
  obtain ⟨-, rfl⟩ := Outcome.ok.inj (hgrow.symm.trans hgrow')
  have hcont : s.Continues t r := by
    by_contra hcont
    have hnone := not_not.1 (mt (hg.continues (by unfold userProcSize; omega) h.size).1 hcont)
    obtain ⟨n, hn⟩ : ∃ n, count.toNat = n + 1 := ⟨count.toNat - 1, by omega⟩
    rw [hstay hcont, hn, readProcs, Kernel.userInt, hnone] at hread
    cases hread
  refine @readProcs_records proc name loc s' r count.toNat (s.proc t).sz start.toNat reps unused
    (fun k m hk hm => ?_) count.toNat 0 (Nat.zero_add _) (Nat.zero_le _) hread
  have hin : userProcSize * k + m < count.toNat * userProcSize := by
    unfold userProcSize at *
    omega
  rw [hmem hcont, if_pos (by omega), Nat.add_sub_cancel_left,
    getElem?_flatMap_const UserProc.length_bytes _ _ hm, psRecords_congr hsame, psRecords_eq,
    List.getElem?_map, List.getElem?_range hk]
  rfl

omit [KernelImage] in
theorem toNat_toUInt8 {start : UInt16} (hle : start.toNat ≤ NPROC) :
    start.toUInt8.toNat = start.toNat := by
  rw [UInt16.toNat_toUInt8]
  unfold NPROC at *
  omega

omit [KernelImage] in
theorem length_usedFrom (start : Nat) : (usedFrom proc start).length ≤ NPROC - start :=
  (List.takeWhile_prefix _).length_le.trans (by simp)

omit [KernelImage] in
theorem toNat_next {start : UInt16} {c : UInt8} (hstart : start.toNat ≤ NPROC)
    (hge : c.toNat ≤ (usedFrom proc start.toNat).length) :
    (start + c.toUInt16).toNat = start.toNat + c.toNat := by
  have hle := hge.trans (length_usedFrom start.toNat)
  rw [UInt16.toNat_add, UInt8.toNat_toUInt16]
  unfold NPROC at *
  omega

/-- The program's list is that of the used slots, up to the first unused one. -/
theorem Listing.usedFrom {c : UInt8} (hc : c ≠ 0) {start : UInt16} {reps : List Report}
    (h : Listing proc c start reps) (hstart : start.toNat ≤ NPROC) :
    List.Forall₂ (Reports proc) (Xv6.usedFrom proc start.toNat) reps := by
  induction h with
  | @failed start r s' hcall =>
    obtain ⟨s, t, lbl, name, loc, -, h, hsz, hr⟩ := hcall
    obtain ⟨s₁, lbl', -, -, -, ⟨hge, -⟩ | ⟨-, h0, -⟩⟩ := h.ps hc hr
    · have hnil : Xv6.usedFrom proc start.toNat = [] := by
        rw [← List.length_eq_zero_iff]
        have hle := @length_usedFrom proc start.toNat
        rw [toNat_toUInt8 hstart] at hge
        omega
      rw [hnil]
      exact .nil
    · omega
  | @last start r ptr s' reps hcall hptr hread =>
    obtain ⟨hall, hiff⟩ := hcall.reads hc hptr hread
    rw [toNat_toUInt8 hstart] at hall hiff
    rwa [List.take_of_length_le (Nat.le_of_lt (hiff.1 rfl))] at hall
  | @next start r ptr s' reps rest hcall hptr hread _ ih =>
    obtain ⟨hall, hiff⟩ := hcall.reads hc hptr hread
    rw [toNat_toUInt8 hstart] at hall hiff
    have hge : c.toNat ≤ (Xv6.usedFrom proc start.toNat).length := by
      by_contra hlt
      exact absurd (hiff.2 (by omega)) (by decide)
    have hle := @length_usedFrom proc start.toNat
    have hsum := toNat_next hstart hge
    have hrest := ih (by omega)
    rw [hsum, usedFrom_add hge] at hrest
    rw [← List.take_append_drop c.toNat (Xv6.usedFrom proc start.toNat)]
    exact List.rel_append hall hrest

/-- If every call returns, with records that can be read, the program has a
list in the end. -/
theorem exists_listing {c : UInt8} (hc : c ≠ 0)
    (hcall : ∀ start : UInt8, start.toNat ≤ NPROC → ∃ r ptr s', PsCall proc start c r ptr s' ∧
      (ptr ≠ 0 → ∀ x, ptr ≤ x → x < ptr + userProcSize * c.toNat → s'.userByte r x ≠ none))
    {start : UInt16} (hstart : start.toNat ≤ NPROC) : ∃ reps, Listing proc c start reps := by
  -- a call that does not end the loop leaves fewer slots
  induction hn : NPROC - start.toNat using Nat.strong_induction_on generalizing start with
  | _ n ih =>
    obtain ⟨r, ptr, s', hcall', hread⟩ := hcall start.toUInt8
      ((toNat_toUInt8 hstart).le.trans hstart)
    by_cases hptr : ptr = 0
    · rw [hptr] at hcall'
      exact ⟨[], .failed hcall'⟩
    obtain ⟨⟨reps, unused⟩, hreps⟩ := readProcs_isSome (hread hptr)
    cases unused with
    | true => exact ⟨reps, .last hcall' hptr hreps⟩
    | false =>
      obtain ⟨-, hiff⟩ := hcall'.reads hc hptr hreps
      rw [toNat_toUInt8 hstart] at hiff
      have hge : c.toNat ≤ (usedFrom proc start.toNat).length := by
        by_contra hlt
        exact absurd (hiff.2 (by omega)) (by decide)
      have hle := @length_usedFrom proc start.toNat
      have hsum := toNat_next hstart hge
      have hpos := count_pos hc
      obtain ⟨rest, hrest⟩ := @ih _ (by omega) (start + c.toUInt16) (by omega) rfl
      exact ⟨reps ++ rest, .next hcall' hptr hreps hrest⟩

/-- Every used slot is reported once. -/
def ListsAll (proc : Slot → Proc) (reps : List Report) : Prop :=
  ∃ l : List Slot, l.Perm ((List.finRange NPROC).filter fun p => Used proc p) ∧
    List.Forall₂ (Reports proc) l reps

/-- The list is complete if and only if no process is behind an unused slot. -/
theorem ps_stops_at_hole {c : UInt8} (hc : c ≠ 0) {reps : List Report}
    (h : Listing proc c 0 reps) :
    ListsAll proc reps ↔ ∀ p q : Slot, p < q → Used proc q → Used proc p := by
  have hreps : List.Forall₂ (Reports proc) (usedFrom proc 0) reps := h.usedFrom hc (Nat.zero_le _)
  have hnodup : (usedFrom proc 0).Nodup :=
    (List.nodup_finRange NPROC).sublist ((List.takeWhile_prefix _).sublist.trans (List.drop_sublist ..))
  have hnodup' : ((List.finRange NPROC).filter fun p => Used proc p).Nodup :=
    (List.nodup_finRange NPROC).filter _
  have hsub : ∀ p, p ∈ usedFrom proc 0 →
      p ∈ (List.finRange NPROC).filter fun p => Used proc p := by
    intro p hp
    obtain ⟨i, hi⟩ := List.mem_iff_getElem?.1 hp
    exact List.mem_filter.2 ⟨List.mem_finRange p, decide_eq_true (getElem?_usedFrom hi).2⟩
  constructor
  · rintro ⟨l, hl, hall⟩ p q hpq hq
    have hlen : ((List.finRange NPROC).filter fun p => Used proc p).length =
        (usedFrom proc 0).length := by
      rw [← hl.length_eq, hall.length_eq, hreps.length_eq]
    have hperm := (List.subperm_of_subset hnodup hsub).perm_of_length_le (Nat.le_of_eq hlen)
    have hmem : q ∈ usedFrom proc 0 :=
      hperm.mem_iff.2 (List.mem_filter.2 ⟨List.mem_finRange q, decide_eq_true hq⟩)
    obtain ⟨i, hi⟩ := List.mem_iff_getElem?.1 hmem
    obtain ⟨hval, -⟩ := getElem?_usedFrom hi
    have hpq : p.val < q.val := hpq
    obtain ⟨p', hp', hu⟩ := (lt_usedFrom proc 0 i).1 (List.getElem?_eq_some_iff.1 hi).1 p.val
      (by omega)
    obtain rfl : p' = p := Fin.ext (by omega)
    exact hu
  · intro hclosed
    refine ⟨usedFrom proc 0, (List.perm_ext_iff_of_nodup hnodup hnodup').2 fun p => ⟨hsub p, ?_⟩,
      hreps⟩
    intro hp
    have hused : Used proc p := of_decide_eq_true (List.mem_filter.1 hp).2
    have hlt : p.val < (usedFrom proc 0).length := (lt_usedFrom proc 0 p.val).2 fun j hj => by
      refine ⟨⟨j, by omega⟩, by simp, ?_⟩
      rcases Nat.lt_or_eq_of_le hj with hj | rfl
      · exact hclosed _ p hj hused
      · exact hused
    have hget := List.getElem?_eq_getElem hlt
    obtain ⟨hval, -⟩ := getElem?_usedFrom hget
    have hp' : (usedFrom proc 0)[p.val] = p := Fin.ext (by omega)
    exact hp' ▸ List.getElem_mem hlt

end

attribute [local instance] image

/-- A second process, a zombie, with an unused slot before it. -/
def holeAt1 : Kernel :=
  oneProcess.updProc ⟨2, by decide⟩ fun p =>
    { p with state := .ZOMBIE, pid := 2, parent := some initproc }

theorem holeAt1_caller : ∃ lbl, holeAt1.Caller initproc image.endPage lbl := by
  obtain ⟨lbl, h⟩ := oneProcess_caller
  exact ⟨lbl, h.pagetable, h.table.congr (h.table.alloc.congr rfl rfl rfl) (fun _ _ _ => rfl)
    h.table.free, h.size, h.held, h.unshared⟩

/-- The first call of user/ps.c, with `x` in every `int` of the stack. -/
def psHole (x : Int) : Outcome Kernel Nat :=
  (ps kalloc initproc (fun _ _ => 0) (fun _ => ⟨x, x, x, x, x, fun _ => 0⟩) 0 2).run holeAt1

theorem psHole_eq (x : Int) (h : (psHole x).isOk) :
    psHole x = .ok PGSIZE ((psHole x).state holeAt1) := by
  obtain ⟨ptr, hr⟩ := Outcome.eq_ok h holeAt1
  obtain ⟨lbl, hc⟩ := holeAt1_caller
  have hptr : ptr = PGSIZE := (hc.ps_bytes (by decide) (by decide) hr).1
  exact hptr ▸ hr

theorem psHole_listing : Listing holeAt1.proc 2 0 [⟨4, 1, 0⟩] := by
  obtain ⟨lbl, hc⟩ := holeAt1_caller
  have hr := psHole_eq 0 (by decide +kernel)
  have hcall : PsCall holeAt1.proc 0 2 image.endPage PGSIZE ((psHole 0).state holeAt1) :=
    ⟨holeAt1, initproc, lbl, _, _, fun _ => ⟨rfl, rfl, rfl, rfl, rfl⟩, hc, by decide, hr⟩
  refine .last hcall (by decide) ?_
  decide +kernel

/-- The same call where the first process is alone. -/
def psAlone : Outcome Kernel Nat :=
  (ps kalloc initproc (fun _ _ => 0) (fun _ => ⟨0, 0, 0, 0, 0, fun _ => 0⟩) 0 2).run oneProcess

theorem psAlone_listing : Listing oneProcess.proc 2 0 [⟨4, 1, 0⟩] := by
  obtain ⟨lbl, hc⟩ := oneProcess_caller
  obtain ⟨ptr, hr⟩ := Outcome.eq_ok (o := psAlone) (by decide +kernel) oneProcess
  obtain rfl : ptr = PGSIZE := (hc.ps_bytes (by decide) (by decide) hr).1
  have hcall : PsCall oneProcess.proc 0 2 image.endPage PGSIZE (psAlone.state oneProcess) :=
    ⟨oneProcess, initproc, lbl, _, _, fun _ => ⟨rfl, rfl, rfl, rfl, rfl⟩, hc, by decide, hr⟩
  refine .last hcall (by decide) ?_
  decide +kernel

theorem ps_stops_at_hole_one :
    (∃ reps, Listing holeAt1.proc 2 0 reps ∧ ¬ ListsAll holeAt1.proc reps) ∧
    ∃ reps, Listing oneProcess.proc 2 0 reps ∧ ListsAll oneProcess.proc reps := by
  constructor
  · refine ⟨_, psHole_listing, fun hall => ?_⟩
    have hused := (ps_stops_at_hole (by decide) psHole_listing).1 hall ⟨1, by decide⟩
      ⟨2, by decide⟩ (by decide) (by decide)
    exact absurd hused (by decide)
  · refine ⟨_, psAlone_listing, (ps_stops_at_hole (by decide) psAlone_listing).2 ?_⟩
    decide

/-- The zombie is not on the list. -/
theorem ps_misses_zombie : ∃ reps, Listing holeAt1.proc 2 0 reps ∧
    ((List.finRange NPROC).filter fun p => Used holeAt1.proc p).length = 2 ∧
    reps.length = 1 :=
  ⟨_, psHole_listing, by decide +kernel, rfl⟩

theorem ps_leaks_stack_hole : ∃ ptr s', psHole 0 = .ok ptr s' ∧
    ¬ PsDetermined holeAt1 initproc image.endPage (fun _ _ => 0) 0 2 := by
  obtain ⟨lbl, hc⟩ := holeAt1_caller
  have hr := psHole_eq 0 (by decide +kernel)
  refine ⟨_, _, hr, fun hdet => ?_⟩
  rcases (ps_leaks_stack hc hr).1 hdet with h0 | hge | hcont | hall
  · exact absurd h0 (by decide)
  · exact absurd hge (by decide)
  · exact hcont (.inl (by decide))
  · obtain ⟨p, hp, hu, -⟩ := hall 1 (by decide)
    obtain rfl : p = ⟨1, by decide⟩ := Fin.ext hp
    exact absurd hu (by decide)

/-- Two stacks, and the caller sees which: in `parent_id` of the first
process. -/
theorem ps_shows_stack : ∃ ptr s₁ s₂, psHole 0 = .ok ptr s₁ ∧ psHole 1 = .ok ptr s₂ ∧
    s₁.userByte image.endPage (ptr + 16) = some 0 ∧
    s₂.userByte image.endPage (ptr + 16) = some 1 :=
  ⟨PGSIZE, _, _, psHole_eq 0 (by decide +kernel), psHole_eq 1 (by decide +kernel),
    by decide +kernel, by decide +kernel⟩

end Xv6
