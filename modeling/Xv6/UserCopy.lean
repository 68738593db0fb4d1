/-
vm.c: `copyin`, `copyinstr` and `copyout`, which split a user address range
at page boundaries, with 64-bit arithmetic on addresses and lengths that the
user chose. `walkaddr` gives no frame for its 0: physical memory is from
KERNBASE on.
-/
import Xv6.Kernel.Alone

namespace Xv6

open Conc Prog

/-- `memmove(dst, page + off, n)`, within one page. -/
def Kernel.readBytes (s : Kernel) (f : Frame) (off n : Nat) : List UInt8 :=
  (List.range n).map fun i => s.mem f (off + i)

/-- The loop of `copyin`, with what it has written to `dst`; an iteration
copies at least one byte. -/
def copyinLoop (ka : Kalloc) (pagetable : Frame) :
    (fuel srcva len : Nat) → (dst : List UInt8) → Prog Kernel (Int × List UInt8)
  | 0, _, _, dst => return (0, dst)
  | fuel + 1, srcva, len, dst =>
    if len = 0 then return (0, dst)
    else do
      let va0 := PGROUNDDOWN srcva
      match ← walkaddr ka pagetable va0 with
      | none => return (-1, dst)
      | some pa0 =>
        let n := min (PGSIZE - (srcva - va0)) len
        let bytes ← read fun s => s.readBytes pa0 (srcva - va0) n
        copyinLoop ka pagetable fuel ((va0 + PGSIZE) % 2 ^ 64) (len - n) (dst ++ bytes)

/-- What `copyin` returns and the bytes it writes to `dst`. -/
def copyin (ka : Kalloc) (pagetable : Frame) (srcva len : Nat) : Prog Kernel (Int × List UInt8) :=
  copyinLoop ka pagetable (len + 1) srcva len []

/-- The inner loop of `copyinstr`: the bytes of a page from `p` on, `n` at
most, up to a NUL; is there one? -/
def copyBytes (page : Nat → UInt8) : (n p : Nat) → List UInt8 × Bool
  | 0, _ => ([], false)
  | n + 1, p =>
    if page p = 0 then ([0], true)
    else
      let rest := copyBytes page n (p + 1)
      (page p :: rest.1, rest.2)

def copyinstrLoop (ka : Kalloc) (pagetable : Frame) :
    (fuel srcva max : Nat) → (dst : List UInt8) → Prog Kernel (Int × List UInt8)
  | 0, _, _, dst => return (-1, dst)
  | fuel + 1, srcva, max, dst =>
    if max = 0 then return (-1, dst)
    else do
      let va0 := PGROUNDDOWN srcva
      match ← walkaddr ka pagetable va0 with
      | none => return (-1, dst)
      | some pa0 =>
        let n := min (PGSIZE - (srcva - va0)) max
        let (bytes, got_null) ← read fun s => copyBytes (s.mem pa0) n (srcva - va0)
        if got_null then return (0, dst ++ bytes)
        else copyinstrLoop ka pagetable fuel ((va0 + PGSIZE) % 2 ^ 64) (max - n) (dst ++ bytes)

/-- What `copyinstr` returns and the bytes it writes to `dst`. -/
def copyinstr (ka : Kalloc) (pagetable : Frame) (srcva max : Nat) :
    Prog Kernel (Int × List UInt8) :=
  copyinstrLoop ka pagetable (max + 1) srcva max []

/-! ## User memory -/

namespace Kernel

/-- The frame of a user page. -/
def userPage (s : Kernel) (r : Frame) (vpn : Nat) : Option Frame :=
  (mapping s.pte r vpn).bind fun p => if p.U then some p.pa else none

/-- The byte at a user address. -/
def userByte (s : Kernel) (r : Frame) (va : Nat) : Option UInt8 :=
  if va < MAXVA then (s.userPage r (va / PGSIZE)).map fun f => s.mem f (va % PGSIZE) else none

/-- No two user pages of a table are one frame. -/
def Unshared (s : Kernel) (r : Frame) : Prop :=
  ∀ u v f, u < MAXVA / PGSIZE → v < MAXVA / PGSIZE → s.userPage r u = some f →
    s.userPage r v = some f → u = v

end Kernel

variable {s s' : Kernel} {ka : Kalloc} {r : Frame}

/-- `walkaddr` finds the user page, and changes nothing. -/
theorem walkaddr_run (va : Nat) :
    (walkaddr ka r va).run s =
      .ok (if va < MAXVA then s.userPage r (va / PGSIZE) else none) s := by
  unfold walkaddr
  by_cases hva : va < MAXVA
  · rw [if_neg (by omega), if_pos hva]
    simp only [run_bind, walk_run hva, Kernel.userPage, mapping]
    cases leafTable s.pte r (va / PGSIZE) with
    | none => rfl
    | some f =>
      simp only [Option.map_some, Option.bind_some, readPte, run_bind, run_read, PX_eq]
      split
      next => simp
      next => split <;> simp_all
  · rw [if_pos (by omega), if_neg hva]
    rfl

/-! ## One page of a range -/

theorem PGROUNDDOWN_add (va : Nat) : PGROUNDDOWN va + va % PGSIZE = va :=
  Nat.div_add_mod' va PGSIZE

theorem PGROUNDDOWN_div (va : Nat) : PGROUNDDOWN va / PGSIZE = va / PGSIZE :=
  Nat.mul_div_cancel _ (by decide)

theorem PGROUNDDOWN_lt (va : Nat) : PGROUNDDOWN va < MAXVA ↔ va < MAXVA := by
  have hmax : MAXVA = 2 ^ 26 * PGSIZE := rfl
  unfold PGROUNDDOWN PGSIZE at *
  omega

/-- The page that `va` is in, as `walkaddr` finds it. -/
def Kernel.pageOf (s : Kernel) (r : Frame) (va : Nat) : Option Frame :=
  if va < MAXVA then s.userPage r (va / PGSIZE) else none

theorem walkaddr_down (va : Nat) :
    (walkaddr ka r (PGROUNDDOWN va)).run s = .ok (s.pageOf r va) s := by
  rw [walkaddr_run, PGROUNDDOWN_div, Kernel.pageOf]
  simp only [PGROUNDDOWN_lt]

theorem userByte_eq_none {va : Nat} : s.userByte r va = none ↔ s.pageOf r va = none := by
  unfold Kernel.pageOf Kernel.userByte
  split
  next => exact Option.map_eq_none_iff
  next => exact iff_of_true rfl rfl

/-- The rest of the page that `va` is in. -/
theorem userByte_page {va i : Nat} {f : Frame} (h : s.pageOf r va = some f)
    (hi : va % PGSIZE + i < PGSIZE) : s.userByte r (va + i) = some (s.mem f (va % PGSIZE + i)) := by
  have hmax : MAXVA = 2 ^ 26 * PGSIZE := rfl
  unfold Kernel.pageOf at h
  split at h
  next hlt =>
    have hdiv : (va + i) / PGSIZE = va / PGSIZE := by
      unfold PGSIZE at *
      omega
    have hmod : (va + i) % PGSIZE = va % PGSIZE + i := by
      unfold PGSIZE at *
      omega
    have hlt' : va + i < MAXVA := by
      unfold PGSIZE at *
      omega
    rw [Kernel.userByte, if_pos hlt', hdiv, hmod, h, Option.map_some]
  next => cases h

/-- Where an iteration goes on, on the next page. -/
theorem next_page {va : Nat} {f : Frame} (h : s.pageOf r va = some f) :
    (PGROUNDDOWN va + PGSIZE) % 2 ^ 64 = va + (PGSIZE - va % PGSIZE) := by
  have hmax : MAXVA = 2 ^ 26 * PGSIZE := rfl
  have hlt : va < MAXVA := by
    unfold Kernel.pageOf at h
    split at h
    next hlt => exact hlt
    next => cases h
  have hadd := PGROUNDDOWN_add va
  have hmod : va % PGSIZE < PGSIZE := Nat.mod_lt _ (by decide)
  unfold PGSIZE at *
  omega

theorem sub_PGROUNDDOWN (va : Nat) : va - PGROUNDDOWN va = va % PGSIZE := by
  have hadd := PGROUNDDOWN_add va
  omega

/-! ## copyin -/

/-- A range of user addresses holds the bytes `got`. -/
def Kernel.Holds (s : Kernel) (r : Frame) (va : Nat) (got : List UInt8) : Prop :=
  ∀ i, i < got.length → s.userByte r (va + i) = got[i]?

theorem Kernel.Holds.nil (s : Kernel) (r : Frame) (va : Nat) : s.Holds r va [] := nofun

theorem Kernel.Holds.append {va : Nat} {got rest : List UInt8} (h : s.Holds r va got)
    (h' : s.Holds r (va + got.length) rest) : s.Holds r va (got ++ rest) := by
  intro i hi
  by_cases hlt : i < got.length
  · rw [List.getElem?_append_left hlt]
    exact h i hlt
  · have hrest := h' (i - got.length) (by
      rw [List.length_append] at hi
      omega)
    rw [List.getElem?_append_right (by omega), ← hrest]
    congr 1
    omega

/-- The bytes of a page that an iteration reads. -/
theorem Kernel.Holds.readBytes {va n : Nat} {f : Frame} (h : s.pageOf r va = some f)
    (hn : n ≤ PGSIZE - va % PGSIZE) : s.Holds r va (s.readBytes f (va % PGSIZE) n) := by
  intro i hi
  have hin : i < n := by simpa [Kernel.readBytes] using hi
  rw [userByte_page h (by omega)]
  simp [Kernel.readBytes, hin]

theorem length_readBytes (s : Kernel) (f : Frame) (off n : Nat) :
    (s.readBytes f off n).length = n := by simp [Kernel.readBytes]

theorem copyinLoop_run {fuel : Nat} (srcva len : Nat) (dst : List UInt8) (hfuel : len < fuel) :
    ∃ res got, (copyinLoop ka r fuel srcva len dst).run s = .ok (res, dst ++ got) s ∧
      got.length ≤ len ∧ ((res = 0 ∧ got.length = len ∧ s.Holds r srcva got) ∨
        (res = -1 ∧ ∃ i < len, s.userByte r (srcva + i) = none)) := by
  induction fuel generalizing srcva len dst with
  | zero => omega
  | succ fuel ih =>
    unfold copyinLoop
    split
    next hlen => exact ⟨0, [], by simp, by simp, .inl ⟨rfl, hlen.symm, Kernel.Holds.nil s r srcva⟩⟩
    next hlen =>
      simp only [run_bind, walkaddr_down]
      cases hpage : s.pageOf r srcva with
      | none =>
        exact ⟨-1, [], by simp, by simp, .inr ⟨rfl, 0, by omega, userByte_eq_none.2 hpage⟩⟩
      | some f =>
        have hmod : srcva % PGSIZE < PGSIZE := Nat.mod_lt _ (by decide)
        simp only [run_bind, run_read, sub_PGROUNDDOWN]
        obtain ⟨n, hn⟩ : ∃ n, n = min (PGSIZE - srcva % PGSIZE) len := ⟨_, rfl⟩
        rw [← hn]
        have hread := Kernel.Holds.readBytes hpage (by omega : n ≤ PGSIZE - srcva % PGSIZE)
        have hlength := length_readBytes s f (srcva % PGSIZE) n
        obtain ⟨res, got, hrun, hle, hres⟩ := ih ((PGROUNDDOWN srcva + PGSIZE) % 2 ^ 64) (len - n)
          (dst ++ s.readBytes f (srcva % PGSIZE) n) (by omega)
        rw [List.append_assoc] at hrun
        refine ⟨res, _, hrun, by rw [List.length_append]; omega, ?_⟩
        rw [next_page hpage] at hres
        rcases hres with ⟨hres, hlen', hgot⟩ | ⟨hres, i, hi, hnone⟩
        · refine .inl ⟨hres, by rw [List.length_append]; omega, hread.append fun i hi => ?_⟩
          have hnext : PGSIZE - srcva % PGSIZE = n := by omega
          rw [hlength, ← hnext]
          exact hgot i hi
        · have hnext : PGSIZE - srcva % PGSIZE = n := by omega
          rw [hnext, Nat.add_assoc] at hnone
          exact .inr ⟨hres, n + i, by omega, hnone⟩

/-- `copyin` returns the bytes of the range if they are all user memory. -/
theorem copyin_run (srcva len : Nat) :
    ∃ res got, (copyin ka r srcva len).run s = .ok (res, got) s ∧ got.length ≤ len ∧
      ((res = 0 ∧ got.length = len ∧ s.Holds r srcva got) ∨
        (res = -1 ∧ ∃ i < len, s.userByte r (srcva + i) = none)) :=
  copyinLoop_run srcva len [] (by omega)

/-! ## copyinstr -/

theorem copyBytes_eq (page : Nat → UInt8) (n p : Nat) :
    (∀ i, i < (copyBytes page n p).1.length → (copyBytes page n p).1[i]? = some (page (p + i))) ∧
    (copyBytes page n p).1.length ≤ n ∧
    if (copyBytes page n p).2 then ∃ str, (copyBytes page n p).1 = str ++ [0] ∧ 0 ∉ str
    else (copyBytes page n p).1.length = n ∧ 0 ∉ (copyBytes page n p).1 := by
  induction n generalizing p with
  | zero => exact ⟨nofun, Nat.le_refl _, rfl, nofun⟩
  | succ n ih =>
    obtain ⟨hget, hle, hend⟩ := ih (p + 1)
    unfold copyBytes
    split
    next hnul =>
      refine ⟨fun i hi => ?_, by simp, [], rfl, nofun⟩
      obtain rfl : i = 0 := by simpa using hi
      simp [hnul]
    next hnul =>
      refine ⟨fun i hi => ?_, by simpa using hle, ?_⟩
      · cases i with
        | zero => rfl
        | succ i =>
          have hi' : i < (copyBytes page n (p + 1)).1.length := by simpa using hi
          rw [List.getElem?_cons_succ, hget i hi', Nat.add_right_comm, Nat.add_assoc]
      · dsimp only
        split
        next hgot =>
          rw [if_pos hgot] at hend
          obtain ⟨str, hstr, hno⟩ := hend
          refine ⟨page p :: str, by rw [hstr]; rfl, ?_⟩
          exact List.mem_cons.not.2 (not_or.2 ⟨Ne.symm hnul, hno⟩)
        next hgot =>
          rw [if_neg hgot] at hend
          exact ⟨by rw [List.length_cons, hend.1],
            List.mem_cons.not.2 (not_or.2 ⟨Ne.symm hnul, hend.2⟩)⟩

/-- The bytes of a page that an iteration reads. -/
theorem Kernel.Holds.copyBytes {va n : Nat} {f : Frame} (h : s.pageOf r va = some f)
    (hn : n ≤ PGSIZE - va % PGSIZE) : s.Holds r va (copyBytes (s.mem f) n (va % PGSIZE)).1 := by
  obtain ⟨hget, hle, -⟩ := copyBytes_eq (s.mem f) n (va % PGSIZE)
  intro i hi
  rw [userByte_page h (by omega), hget i hi]

theorem copyinstrLoop_run {fuel : Nat} (srcva max : Nat) (dst : List UInt8) (hfuel : max < fuel) :
    ∃ res got, (copyinstrLoop ka r fuel srcva max dst).run s = .ok (res, dst ++ got) s ∧
      got.length ≤ max ∧ s.Holds r srcva got ∧ ((res = 0 ∧ ∃ str, got = str ++ [0] ∧ 0 ∉ str) ∨
        (res = -1 ∧ 0 ∉ got ∧ (got.length = max ∨ s.userByte r (srcva + got.length) = none))) := by
  induction fuel generalizing srcva max dst with
  | zero => omega
  | succ fuel ih =>
    unfold copyinstrLoop
    split
    next hmax =>
      exact ⟨-1, [], by simp, by simp, Kernel.Holds.nil s r srcva, .inr ⟨rfl, nofun, .inl hmax.symm⟩⟩
    next hmax =>
      simp only [run_bind, walkaddr_down]
      cases hpage : s.pageOf r srcva with
      | none =>
        exact ⟨-1, [], by simp, by simp, Kernel.Holds.nil s r srcva,
          .inr ⟨rfl, nofun, .inr (userByte_eq_none.2 hpage)⟩⟩
      | some f =>
        have hmod : srcva % PGSIZE < PGSIZE := Nat.mod_lt _ (by decide)
        simp only [run_bind, run_read, sub_PGROUNDDOWN]
        obtain ⟨n, hn⟩ : ∃ n, n = min (PGSIZE - srcva % PGSIZE) max := ⟨_, rfl⟩
        rw [← hn]
        have hread := Kernel.Holds.copyBytes hpage (by omega : n ≤ PGSIZE - srcva % PGSIZE)
        obtain ⟨-, hle, hend⟩ := copyBytes_eq (s.mem f) n (srcva % PGSIZE)
        split
        next hgot =>
          rw [if_pos hgot] at hend
          exact ⟨0, _, rfl, by omega, hread, .inl ⟨rfl, hend⟩⟩
        next hgot =>
          rw [if_neg hgot] at hend
          obtain ⟨hlength, hno⟩ := hend
          obtain ⟨res, got, hrun, hle', hgot', hres⟩ :=
            ih ((PGROUNDDOWN srcva + PGSIZE) % 2 ^ 64) (max - n)
              (dst ++ (copyBytes (s.mem f) n (srcva % PGSIZE)).1) (by omega)
          rw [List.append_assoc] at hrun
          rw [next_page hpage] at hgot' hres
          have hnext : 0 < got.length ∨ got.length ≠ max - n →
              PGSIZE - srcva % PGSIZE = n := by omega
          refine ⟨res, _, hrun, by rw [List.length_append]; omega, hread.append fun i hi => ?_, ?_⟩
          · rw [hlength, ← hnext (by omega)]
            exact hgot' i hi
          · rcases hres with ⟨hres, str, rfl, hstr⟩ | ⟨hres, hno', hstop⟩
            · refine .inl ⟨hres, _ ++ str, (List.append_assoc ..).symm, ?_⟩
              rw [List.mem_append]
              exact not_or.2 ⟨hno, hstr⟩
            · refine .inr ⟨hres, ?_, ?_⟩
              · rw [List.mem_append]
                exact not_or.2 ⟨hno, hno'⟩
              · rw [List.length_append, hlength]
                rcases hstop with hstop | hstop
                · exact .inl (by omega)
                · by_cases hall : got.length = max - n
                  · exact .inl (by omega)
                  · rw [hnext (.inr hall), Nat.add_assoc] at hstop
                    exact .inr hstop

/-- `copyinstr` returns 0 if and only if it has found a NUL, with all bytes
up to it in user memory. -/
theorem copyinstr_run (srcva max : Nat) :
    ∃ res got, (copyinstr ka r srcva max).run s = .ok (res, got) s ∧ got.length ≤ max ∧
      s.Holds r srcva got ∧ (res = 0 ∨ res = -1) ∧
      (res = 0 → ∃ str, got = str ++ [0] ∧ 0 ∉ str) ∧
      (res = 0 ↔ ∃ k < max, s.userByte r (srcva + k) = some 0 ∧
        ∀ i < k, s.userByte r (srcva + i) ≠ none) := by
  obtain ⟨res, got, hrun, hle, hgot, hres⟩ :=
    @copyinstrLoop_run s ka r _ srcva max [] (by omega : max < max + 1)
  refine ⟨res, got, hrun, hle, hgot, hres.imp And.left And.left, fun h0 => ?_, fun h0 => ?_, ?_⟩
  · rcases hres with ⟨-, hstr⟩ | ⟨hneg, -⟩
    · exact hstr
    · omega
  · rcases hres with ⟨-, str, rfl, -⟩ | ⟨hneg, -⟩
    · rw [List.length_append, List.length_singleton] at hle
      refine ⟨str.length, hle, ?_, fun i hi => ?_⟩
      · rw [hgot str.length (by simp)]
        simp
      · rw [hgot i (by simp; omega), List.getElem?_append_left hi, List.getElem?_eq_getElem hi]
        nofun
    · omega
  · rintro ⟨k, hk, hnul, hmapped⟩
    rcases hres with ⟨h0, -⟩ | ⟨-, hno, hstop⟩
    · exact h0
    · exfalso
      by_cases hkl : k < got.length
      · have hgk := (hgot k hkl).symm.trans hnul
        exact hno (List.mem_of_getElem? hgk)
      · rcases hstop with hall | hnone
        · omega
        · by_cases hlt : got.length < k
          · exact hmapped got.length hlt hnone
          · rw [show got.length = k by omega, hnul] at hnone
            cases hnone

/-! ## copyout -/

/-- A write within the page that `va` is in. -/
theorem userByte_writeBytes {va : Nat} {f : Frame} {bytes : List UInt8} (hs : s.Unshared r)
    (h : s.pageOf r va = some f) (hn : va % PGSIZE + bytes.length ≤ PGSIZE) (x : Nat) :
    (s.writeBytes f (va % PGSIZE) bytes).userByte r x =
      if va ≤ x ∧ x < va + bytes.length then bytes[x - va]? else s.userByte r x := by
  have hmax : MAXVA = 2 ^ 26 * PGSIZE := rfl
  have hva : va < MAXVA := by
    unfold Kernel.pageOf at h
    split at h
    next hlt => exact hlt
    next => cases h
  have hf : s.userPage r (va / PGSIZE) = some f := by rwa [Kernel.pageOf, if_pos hva] at h
  have hdiv : va ≤ x ∧ x < va + bytes.length → x / PGSIZE = va / PGSIZE := by
    unfold PGSIZE at *
    omega
  show (if x < MAXVA then (s.userPage r (x / PGSIZE)).map fun g =>
    (s.writeBytes f (va % PGSIZE) bytes).mem g (x % PGSIZE) else none) = _
  by_cases hx : x < MAXVA
  · rw [if_pos hx, Kernel.userByte, if_pos hx]
    cases hg : s.userPage r (x / PGSIZE) with
    | none =>
      rw [if_neg fun hin => ?_]
      · rfl
      · rw [hdiv hin, hf] at hg
        cases hg
    | some g =>
      simp only [Option.map_some, Kernel.writeBytes]
      by_cases hgf : g = f
      · subst hgf
        have hpage : x / PGSIZE = va / PGSIZE := by
          refine hs _ _ g ?_ ?_ hg hf <;>
          · unfold PGSIZE at *
            omega
        have hin : (va % PGSIZE ≤ x % PGSIZE ∧ x % PGSIZE < va % PGSIZE + bytes.length) ↔
            va ≤ x ∧ x < va + bytes.length := by
          unfold PGSIZE at *
          omega
        rw [Function.update_self]
        simp only [hin]
        split
        next hin' =>
          have hsub : x % PGSIZE - va % PGSIZE = x - va := by
            unfold PGSIZE at *
            omega
          have hlt : x - va < bytes.length := by omega
          rw [hsub, List.getD_eq_getElem?_getD, List.getElem?_eq_getElem hlt, Option.getD_some]
        next => rfl
      · rw [Function.update_of_ne hgf, if_neg fun hin => ?_]
        rw [hdiv hin, hf] at hg
        exact hgf (Option.some.inj hg).symm
  · rw [if_neg hx, Kernel.userByte, if_neg hx, if_neg fun hin => ?_]
    have hdiv := hdiv hin
    unfold PGSIZE at *
    omega

theorem copyoutLoop_run {fuel : Nat} (dstva : Nat) (src : List UInt8) (hfuel : src.length < fuel)
    (s : Kernel) : ∃ res mem, (copyoutLoop ka r fuel dstva src).run s =
      .ok res { s with mem := mem } ∧
      ((res = 0 ∧ ∀ i < src.length, s.userByte r (dstva + i) ≠ none) ∨
        (res = -1 ∧ ∃ i < src.length, s.userByte r (dstva + i) = none)) ∧
      (s.Unshared r → res = 0 → ∀ x, ({ s with mem := mem } : Kernel).userByte r x =
        if dstva ≤ x ∧ x < dstva + src.length then src[x - dstva]? else s.userByte r x) := by
  induction fuel generalizing dstva src s with
  | zero => omega
  | succ fuel ih =>
    unfold copyoutLoop
    split
    next hlen =>
      refine ⟨0, s.mem, rfl, .inl ⟨rfl, fun i hi => by omega⟩, fun _ _ x => ?_⟩
      rw [if_neg (by omega)]
    next hlen =>
      simp only [run_bind, walkaddr_down]
      cases hpage : s.pageOf r dstva with
      | none => exact ⟨-1, s.mem, rfl, .inr ⟨rfl, 0, by omega, userByte_eq_none.2 hpage⟩, by simp⟩
      | some f =>
        have hmod : dstva % PGSIZE < PGSIZE := Nat.mod_lt _ (by decide)
        simp only [run_bind, run_modify, sub_PGROUNDDOWN]
        obtain ⟨n, hn⟩ : ∃ n, n = min (PGSIZE - dstva % PGSIZE) src.length := ⟨_, rfl⟩
        rw [← hn]
        have htake : (src.take n).length = n := by
          rw [List.length_take]
          omega
        have hdrop : (src.drop n).length = src.length - n := List.length_drop
        obtain ⟨res, mem, hrun, hres, hmem⟩ := ih ((PGROUNDDOWN dstva + PGSIZE) % 2 ^ 64)
          (src.drop n) (by omega) (s.writeBytes f (dstva % PGSIZE) (src.take n))
        rw [next_page hpage] at hres hmem
        have hnone : ∀ x, (s.writeBytes f (dstva % PGSIZE) (src.take n)).userByte r x = none ↔
            s.userByte r x = none := fun x => by
          rw [userByte_eq_none, userByte_eq_none]
          exact .rfl
        refine ⟨res, mem, hrun, ?_, fun hs h0 x => ?_⟩
        · rcases hres with ⟨h0, hall⟩ | ⟨hneg, i, hi, hno⟩
          · refine .inl ⟨h0, fun i hi => ?_⟩
            by_cases hin : i < n
            · rw [userByte_page hpage (by omega)]
              nofun
            · have hi' := mt (hnone _).2 (hall (i - n) (by omega))
              rwa [show dstva + (PGSIZE - dstva % PGSIZE) + (i - n) = dstva + i by omega] at hi'
          · have hi' := (hnone _).1 hno
            rw [show dstva + (PGSIZE - dstva % PGSIZE) + i = dstva + (n + i) by omega] at hi'
            exact .inr ⟨hneg, n + i, by omega, hi'⟩
        · refine (hmem hs h0 x).trans ?_
          rw [userByte_writeBytes hs hpage (by omega), htake, hdrop]
          by_cases hrest : dstva + n ≤ x ∧ x < dstva + src.length
          · rw [if_pos (by omega), if_pos (by omega), List.getElem?_drop]
            congr 1
            omega
          · rw [if_neg (by omega)]
            split
            next hin => rw [if_pos (by omega), List.getElem?_take_of_lt (by omega)]
            next hin => rw [if_neg (by omega)]

/-- `copyout` changes the bytes of the range, if they are all user memory, and
no other byte of the address space. -/
theorem copyout_run (dstva : Nat) (src : List UInt8) (s : Kernel) :
    ∃ res mem, (copyout ka r dstva src).run s = .ok res { s with mem := mem } ∧
      ((res = 0 ∧ ∀ i < src.length, s.userByte r (dstva + i) ≠ none) ∨
        (res = -1 ∧ ∃ i < src.length, s.userByte r (dstva + i) = none)) ∧
      (s.Unshared r → res = 0 → ∀ x, ({ s with mem := mem } : Kernel).userByte r x =
        if dstva ≤ x ∧ x < dstva + src.length then src[x - dstva]? else s.userByte r x) :=
  copyoutLoop_run dstva src (by omega) s

theorem copyoutLoop_frame {fuel : Nat} (dstva : Nat) (src : List UInt8) (s : Kernel) :
    ∃ res mem, (copyoutLoop ka r fuel dstva src).run s = .ok res { s with mem := mem } ∧
      (s.Unshared r → ∀ x, ¬ (dstva ≤ x ∧ x < dstva + src.length) →
        ({ s with mem := mem } : Kernel).userByte r x = s.userByte r x) := by
  induction fuel generalizing dstva src s with
  | zero => exact ⟨0, s.mem, rfl, fun _ _ _ => rfl⟩
  | succ fuel ih =>
    unfold copyoutLoop
    split
    next => exact ⟨0, s.mem, rfl, fun _ _ _ => rfl⟩
    next hlen =>
      simp only [run_bind, walkaddr_down]
      cases hpage : s.pageOf r dstva with
      | none => exact ⟨-1, s.mem, rfl, fun _ _ _ => rfl⟩
      | some f =>
        have hmod : dstva % PGSIZE < PGSIZE := Nat.mod_lt _ (by decide)
        simp only [run_bind, run_modify, sub_PGROUNDDOWN]
        obtain ⟨n, hn⟩ : ∃ n, n = min (PGSIZE - dstva % PGSIZE) src.length := ⟨_, rfl⟩
        rw [← hn]
        have htake : (src.take n).length = n := by
          rw [List.length_take]
          omega
        have hdrop : (src.drop n).length = src.length - n := List.length_drop
        obtain ⟨res, mem, hrun, hframe⟩ := ih ((PGROUNDDOWN dstva + PGSIZE) % 2 ^ 64)
          (src.drop n) (s.writeBytes f (dstva % PGSIZE) (src.take n))
        rw [next_page hpage] at hframe
        refine ⟨res, mem, hrun, fun hs x hx => (hframe hs x (by omega)).trans ?_⟩
        rw [userByte_writeBytes hs hpage (by omega), if_neg (by omega)]

/-- Whatever `copyout` returns, the bytes outside the range stay. -/
theorem copyout_frame (dstva : Nat) (src : List UInt8) (s : Kernel) :
    ∃ res mem, (copyout ka r dstva src).run s = .ok res { s with mem := mem } ∧
      (s.Unshared r → ∀ x, ¬ (dstva ≤ x ∧ x < dstva + src.length) →
        ({ s with mem := mem } : Kernel).userByte r x = s.userByte r x) :=
  copyoutLoop_frame dstva src s

/-- `copyout` stops at a first byte that is not user memory. -/
theorem copyout_unmapped {dstva : Nat} {src : List UInt8} (hsrc : src ≠ [])
    (hnone : s.userByte r dstva = none) : (copyout ka r dstva src).run s = .ok (-1) s := by
  have hlen : src.length ≠ 0 := mt List.length_eq_zero_iff.1 hsrc
  unfold copyout copyoutLoop
  rw [if_neg hlen]
  simp only [run_bind, walkaddr_down, userByte_eq_none.1 hnone]
  rfl

/-- `copyin` and `copyinstr` deliver the bytes of user memory exactly when
they are there, `copyout` writes them, and what it has written `copyin` reads
back. None of them panics, whatever the address. -/
theorem user_copies (hs : s.Unshared r) :
    (∀ srcva len, ∃ res dst, (copyin ka r srcva len).run s = .ok (res, dst) s ∧
      (res = 0 ∨ res = -1) ∧ (res = 0 ↔ ∀ i < len, s.userByte r (srcva + i) ≠ none) ∧
      (res = 0 → dst.length = len ∧ s.Holds r srcva dst)) ∧
    (∀ srcva max, ∃ res dst, (copyinstr ka r srcva max).run s = .ok (res, dst) s ∧
      (res = 0 ∨ res = -1) ∧ dst.length ≤ max ∧ s.Holds r srcva dst ∧
      (res = 0 ↔ ∃ k < max, s.userByte r (srcva + k) = some 0 ∧
        ∀ i < k, s.userByte r (srcva + i) ≠ none) ∧
      (res = 0 → ∃ str, dst = str ++ [0] ∧ 0 ∉ str)) ∧
    ∀ dstva src, ∃ res mem, (copyout ka r dstva src).run s = .ok res { s with mem := mem } ∧
      (res = 0 ∨ res = -1) ∧ (res = 0 ↔ ∀ i < src.length, s.userByte r (dstva + i) ≠ none) ∧
      (res = 0 → (copyin ka r dstva src.length).run { s with mem := mem } =
          .ok (0, src) { s with mem := mem } ∧
        ∀ x, ¬ (dstva ≤ x ∧ x < dstva + src.length) →
          ({ s with mem := mem } : Kernel).userByte r x = s.userByte r x) := by
  refine ⟨fun srcva len => ?_, fun srcva max => ?_, fun dstva src => ?_⟩
  · obtain ⟨res, dst, hrun, -, hres⟩ := @copyin_run s ka r srcva len
    refine ⟨res, dst, hrun, hres.imp And.left And.left, ?_, fun h0 => ?_⟩
    · rcases hres with ⟨h0, hlen, hgot⟩ | ⟨hneg, i, hi, hnone⟩
      · refine iff_of_true h0 fun i hi => ?_
        rw [hgot i (by omega), List.getElem?_eq_getElem (by omega)]
        nofun
      · exact iff_of_false (by omega) fun hall => hall i hi hnone
    · rcases hres with ⟨-, hgot⟩ | ⟨hneg, -⟩
      · exact hgot
      · omega
  · obtain ⟨res, dst, hrun, hle, hgot, hres, hstr, hiff⟩ :=
      @copyinstr_run s ka r srcva max
    exact ⟨res, dst, hrun, hres, hle, hgot, hiff, hstr⟩
  · obtain ⟨res, mem, hrun, hres, hmem⟩ := @copyout_run ka r dstva src s
    refine ⟨res, mem, hrun, hres.imp And.left And.left, ?_, fun h0 => ⟨?_, fun x hx => ?_⟩⟩
    · rcases hres with ⟨h0, hall⟩ | ⟨hneg, i, hi, hnone⟩
      · exact iff_of_true h0 hall
      · exact iff_of_false (by omega) fun hall => hall i hi hnone
    · obtain ⟨res', got, hrun', -, hres'⟩ :=
        @copyin_run { s with mem := mem } ka r dstva src.length
      have hread : ∀ i, i < src.length →
          ({ s with mem := mem } : Kernel).userByte r (dstva + i) = src[i]? := fun i hi => by
        rw [hmem hs h0, if_pos (by omega), Nat.add_sub_cancel_left]
      rcases hres' with ⟨rfl, hlen, hgot⟩ | ⟨-, i, hi, hnone⟩
      · obtain rfl : got = src := by
          refine List.ext_getElem? fun i => ?_
          by_cases hi : i < src.length
          · exact (hgot i (by omega)).symm.trans (hread i hi)
          · rw [List.getElem?_eq_none (by omega), List.getElem?_eq_none (by omega)]
        exact hrun'
      · rw [hread i hi, List.getElem?_eq_getElem hi] at hnone
        cases hnone
    · rw [hmem hs h0, if_neg hx]

/-- A table at frame 0x80001 with two user pages, the fifth and the sixth, in
frames 0x80008 and 0x80007. -/
def twoUserPages : Kernel where
  freelist := []
  FREE_PAGES := 0
  MAX_PAGES := 0
  refcounts _ := 0
  mem _ i := UInt8.ofNat i
  pte f i :=
    if f = 0x80001 ∧ i = 0 then link 0x80002
    else if f = 0x80002 ∧ i = 0 then link 0x80003
    else if f = 0x80003 ∧ i = 5 then { V := true, R := true, W := true, U := true, pa := 0x80008 }
    else if f = 0x80003 ∧ i = 6 then { V := true, R := true, W := true, U := true, pa := 0x80007 }
    else {}
  pipe _ := {}
  proc _ := {}
  nextpid := 1
  file _ := {}
  busy _ := none
  upts := {0x80001}
  nulls := 0

theorem twoUserPages_userPage {u f : Nat} (hu : u < 2 ^ 27)
    (h : twoUserPages.userPage 0x80001 u = some f) :
    (u = 5 ∧ f = 0x80008) ∨ (u = 6 ∧ f = 0x80007) := by
  have hp : twoUserPages.pte 0x80001 0 = link 0x80002 := rfl
  have hq : twoUserPages.pte 0x80002 0 = link 0x80003 := rfl
  have h₂ : index u 2 = 0 := by
    by_contra hne
    have hv : (twoUserPages.pte 0x80001 (index u 2)).V = false := by simp [twoUserPages, hne]
    simp [Kernel.userPage, mapping, leafTable, hv] at h
  have h₁ : index u 1 = 0 := by
    by_contra hne
    have hv : (twoUserPages.pte 0x80002 (index u 1)).V = false := by simp [twoUserPages, hne]
    simp [Kernel.userPage, mapping, leafTable, h₂, hp, link, hv] at h
  have h₀ : index u 0 = 5 ∨ index u 0 = 6 := by
    by_contra hne
    rw [not_or] at hne
    have hv : (twoUserPages.pte 0x80003 (index u 0)).V = false := by
      simp [twoUserPages, hne.1, hne.2]
    simp [Kernel.userPage, mapping, leafTable, h₂, h₁, hp, hq, link, hv] at h
  have hsplit := vpnOf_split hu
  rw [h₂, h₁] at hsplit
  rcases h₀ with h₀ | h₀
  · rw [h₀] at hsplit
    obtain rfl : u = 5 := hsplit.symm
    exact .inl ⟨rfl, (Option.some.inj h).symm⟩
  · rw [h₀] at hsplit
    obtain rfl : u = 6 := hsplit.symm
    exact .inr ⟨rfl, (Option.some.inj h).symm⟩

/-- The last two bytes of a page and the first two of the next. -/
theorem user_copies_twoUserPages : twoUserPages.Unshared 0x80001 ∧
    ∃ dst, (copyin kalloc 0x80001 (6 * PGSIZE - 2) 4).run twoUserPages = .ok (0, dst) twoUserPages ∧
      dst.length = 4 := by
  have hlt : MAXVA / PGSIZE < 2 ^ 27 := by decide
  have hs : twoUserPages.Unshared 0x80001 := by
    intro u v f hu hv hfu hfv
    rcases twoUserPages_userPage (hu.trans hlt) hfu with ⟨rfl, rfl⟩ | ⟨rfl, rfl⟩
    · rcases twoUserPages_userPage (hv.trans hlt) hfv with ⟨rfl, -⟩ | ⟨-, hf⟩
      · rfl
      · cases hf
    · rcases twoUserPages_userPage (hv.trans hlt) hfv with ⟨-, hf⟩ | ⟨rfl, -⟩
      · cases hf
      · rfl
  obtain ⟨res, dst, hrun, -, hiff, hdst⟩ :=
    (@user_copies twoUserPages kalloc 0x80001 hs).1 (6 * PGSIZE - 2) 4
  have h0 : res = 0 := hiff.2 (by decide +kernel)
  exact ⟨hs, dst, h0 ▸ hrun, (hdst h0).1⟩

end Xv6
