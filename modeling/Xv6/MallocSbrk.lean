/-
umalloc.c on the kernel's `sbrk`, whose argument is an `int`.

The bytes that `malloc` asks for need not fit in an `int`: `sbrk` may be told
to shrink the process, or to leave it, and still gives its old end.
-/
import Xv6.Malloc

namespace Xv6.Umalloc

open Conc FreeList

/-! ## vm.c, proc.c and sysproc.c -/

/-- `frames` is whether `kalloc` has frames for the pages that it takes;
otherwise its assertion fails, which is `none`. -/
def uvmalloc (frames : Bool) (oldsz newsz : Nat) : Option Nat :=
  if newsz < oldsz then some oldsz
  else if PGROUNDUP oldsz < newsz ∧ frames = false then none
  else some newsz

def uvmdealloc (oldsz newsz : Nat) : Nat := if newsz ≥ oldsz then oldsz else newsz

/-- The new size of the process, with `growproc`'s result. -/
def growproc (frames : Bool) (n : Int) (sz : Nat) : Option (Int × Nat) :=
  if n > 0 then
    (uvmalloc frames sz (u64 (sz + n))).map fun sz' => if sz' = 0 then (-1, sz) else (0, sz')
  else if n < 0 then some (0, uvmdealloc sz (u64 (sz + n)))
  else some (0, sz)

/-- The address is the old size. -/
def sbrkAnswer (addr : Nat) : Option (Int × Nat) → Answer
  | none => .panics
  | some (r, sz) => if r < 0 then .fails else .gives addr sz

theorem sbrkAnswer_zero (addr sz : Nat) : sbrkAnswer addr (some (0, sz)) = .gives addr sz := rfl

def sys_sbrk (frames : Bool) : Sbrk := fun n sz => sbrkAnswer sz (growproc frames (i32 n) sz)

/-- `malloc` gives 0, or a block of `n` bytes that is all below the end of the
process. -/
def Serves (frames : Bool) (base : Nat) (nbytes : UInt32) (h : Heap) : Prop :=
  ∃ ap h', Ends (fun fuel => malloc (sys_sbrk frames) base nbytes fuel h) (.returns ap h') ∧
    (ap = 0 ∨ ∃ n, nbytes.toNat ≤ n ∧ n + HSIZE = HSIZE * h'.hdr.size (ap - HSIZE) ∧
      ap + n ≤ h'.brk)

/-- The request fits in a free block; or its bytes fit in an `int` and the
kernel has the frames for them. -/
def Fits (frames : Bool) (nbytes : UInt32) (l : List Block) : Prop :=
  (∃ d ∈ l, units nbytes ≤ d.2) ∨ (units nbytes < 2 ^ 27 ∧ frames = true)

variable {base : Nat} {h : Heap} {used : List Alloc} {l : List Block} {frames : Bool}
  {nbytes : UInt32} {n x sz sz' : Nat}

theorem units_le (nbytes : UInt32) : units nbytes ≤ 2 ^ 28 + 1 := by
  have hlt := nbytes.toNat_lt
  unfold units HSIZE
  omega

theorem atLeast_of_le (hn : 4096 ≤ n) : atLeast n = n := if_neg (Nat.not_lt.2 hn)

theorem i32_of_lt (hlt : n < 2 ^ 31) : i32 n = n := by
  unfold i32
  omega

/-- A positive `int` is added to the size, if there are frames for it. -/
theorem growproc_pos (hpos : 0 < n) (hlt : n < 2 ^ 31) (hsz : sz ≤ PHYSTOP - KERNBASE) :
    growproc frames n sz =
      if PGROUNDUP sz < sz + n ∧ frames = false then none else some (0, sz + n) := by
  unfold PHYSTOP KERNBASE at hsz
  have hu : u64 ((sz : Int) + n) = sz + n := by
    unfold u64
    omega
  have hne : sz + n ≠ 0 := by omega
  rw [growproc, if_pos (by omega), hu, uvmalloc, if_neg (by omega)]
  split
  · rfl
  · rw [Option.map_some, if_neg hne]

/-- A negative `int`, or zero, does not make the process larger. -/
theorem growproc_nonpos (frames : Bool) (sz : Nat) {n : Int} (hn : n ≤ 0) :
    ∃ sz' ≤ sz, growproc frames n sz = some (0, sz') := by
  rw [growproc, if_neg (by omega)]
  split
  · refine ⟨_, ?_, rfl⟩
    unfold uvmdealloc
    split <;> omega
  · exact ⟨sz, Nat.le_refl _, rfl⟩

theorem sys_sbrk_pos (frames : Bool) (hlo : PGSIZE ≤ n) (hlt : n < 2 ^ 31)
    (hsz : sz ≤ PHYSTOP - KERNBASE) :
    sys_sbrk frames n sz = if frames = true then .gives sz (sz + n) else .panics := by
  have hup : PGROUNDUP sz < sz + n := by
    unfold PHYSTOP KERNBASE at hsz
    unfold PGROUNDUP PGSIZE at *
    omega
  have hpos : 0 < n := by
    unfold PGSIZE at hlo
    omega
  rw [sys_sbrk, i32_of_lt hlt, growproc_pos hpos hlt hsz]
  cases frames with
  | true => rw [if_neg (by simp), if_pos rfl, sbrkAnswer_zero]
  | false => rw [if_pos ⟨hup, rfl⟩, if_neg nofun, sbrkAnswer]

/-- What `sbrk` does with more bytes than an `int` can hold: if it returns, the
process has grown by 16 bytes at most. -/
theorem sys_sbrk_large (frames : Bool) (hlo : 2 ^ 27 ≤ n) (hhi : n ≤ 2 ^ 28 + 1)
    (hsz : sz ≤ PHYSTOP - KERNBASE) :
    sys_sbrk frames (n * HSIZE) sz = .panics ∨
      ∃ sz' ≤ sz + HSIZE, sys_sbrk frames (n * HSIZE) sz = .gives sz sz' := by
  by_cases hn : n = 2 ^ 28 + 1
  · have hi : i32 ((n * HSIZE : Nat) : Int) = (HSIZE : Nat) := by
      unfold i32 HSIZE
      omega
    rw [sys_sbrk, hi, growproc_pos (by decide) (by decide) hsz]
    split
    · exact .inl rfl
    · exact .inr ⟨_, Nat.le_refl _, sbrkAnswer_zero ..⟩
  · have hi : i32 ((n * HSIZE : Nat) : Int) ≤ 0 := by
      unfold i32 HSIZE
      omega
    obtain ⟨sz', hle, hg⟩ := growproc_nonpos frames sz hi
    rw [sys_sbrk, hg]
    exact .inr ⟨sz', Nat.le_trans hle (Nat.le_add_right ..), sbrkAnswer_zero ..⟩

theorem start_brk (base : Nat) (h : Heap) : (start base h).brk = h.brk := by
  unfold start
  split <;> rfl

/-- A request for more bytes than an `int` can hold gets memory that the
process has not, or the process or the kernel is stopped. -/
theorem not_serves_large (hok : Ok base (start base h) used l) (hbrk : h.brk ≤ PHYSTOP - KERNBASE)
    (hsmall : ∀ d ∈ l, d.2 < units nbytes) (hlarge : 2 ^ 27 ≤ units nbytes) :
    ¬ Serves frames base nbytes h := by
  rintro ⟨ap, h', hends, hserves⟩
  have hnu : atLeast (units nbytes) = units nbytes := atLeast_of_le (by omega)
  have hask : ∀ {x}, sys_sbrk frames (units nbytes * HSIZE) h.brk = x →
      sys_sbrk frames (atLeast (units nbytes) * HSIZE) (start base h).brk = x := fun hx => by
    rw [hnu, start_brk]
    exact hx
  rcases sys_sbrk_large frames hlarge (units_le nbytes) hbrk with hpan | ⟨sz', hsz', hsb⟩
  · cases hends.unique (hok.loop_panics (Nat.succ_pos _) hsmall (hask hpan))
  by_cases hfault : PGROUNDUP sz' < h.brk + HFIELDS
  · cases hends.unique (hok.loop_fault (Nat.succ_pos _) hsmall (hask hsb) hfault)
  · have hmax := units_le nbytes
    obtain ⟨b, h₁, l', hret, hb, hend, W, -, hbrk₁, -⟩ := hok.loop_grows (units_room nbytes) hsmall
      (hask hsb) (Nat.not_lt.1 hfault) (Nat.le_of_eq (start_brk base h)) (by
        unfold HSIZE PHYSTOP KERNBASE at *
        omega)
    obtain ⟨rfl, rfl⟩ := Result.returns.inj (hends.unique hret)
    rcases hserves with hzero | ⟨n, -, hn, hbelow⟩
    · unfold HSIZE at hzero
      omega
    · rw [Nat.add_sub_cancel, W.header _ List.mem_cons_self] at hn
      simp only at hn
      rw [hnu] at hend
      unfold HSIZE at *
      omega

/-- With the `sbrk` of the kernel, `malloc` gives 0 or memory of the process
just where the request fits. -/
theorem malloc_serves_iff (hok : Ok base (start base h) used l)
    (hbrk : h.brk ≤ PHYSTOP - KERNBASE) :
    Serves frames base nbytes h ↔ Fits frames nbytes l := by
  have hroom := units_room nbytes
  have hpos : 0 < units nbytes := Nat.succ_pos _
  by_cases hbig : ∃ d ∈ l, units nbytes ≤ d.2
  · refine iff_of_true ?_ (.inl hbig)
    obtain ⟨d, hd, -, b, h', l', hends, hb, hend, W, -, hbrk', -⟩ :=
      hok.loop_fits (sys_sbrk frames) hroom hbig
    have hin := hok.within d (.inl hd)
    refine ⟨b.1 + HSIZE, h', hends, .inr ⟨HSIZE * b.2 - HSIZE, ?_, ?_, ?_⟩⟩
    · rw [hb]
      omega
    · rw [Nat.add_sub_cancel, W.header _ List.mem_cons_self, Nat.sub_add_cancel]
      rw [hb]
      omega
    · rw [hbrk']
      rw [← hb] at hroom
      omega
  have hsmall : ∀ d ∈ l, d.2 < units nbytes := by
    intro d hd
    by_contra hlt
    exact hbig ⟨d, hd, Nat.not_lt.1 hlt⟩
  by_cases hlt : units nbytes < 2 ^ 27
  · have hnu : atLeast (units nbytes) < 2 ^ 27 ∧ 4096 ≤ atLeast (units nbytes) := by
      unfold atLeast
      split <;> omega
    have hn : atLeast (units nbytes) * HSIZE < 2 ^ 31 := by
      unfold HSIZE
      omega
    have hsb := sys_sbrk_pos frames (by unfold HSIZE PGSIZE; omega) hn hbrk
    rw [← start_brk base h] at hsb
    cases frames with
    | false =>
      refine iff_of_false ?_ ?_
      · rintro ⟨ap, h', hends, -⟩
        cases hends.unique (hok.loop_panics hpos hsmall hsb)
      · rintro (hd | ⟨-, hf⟩)
        · exact hbig hd
        · cases hf
    | true =>
      refine iff_of_true ?_ (.inr ⟨hlt, rfl⟩)
      have hbrk' : h.brk + atLeast (units nbytes) * HSIZE < HSIZE * 2 ^ 32 := by
        unfold HSIZE PHYSTOP KERNBASE at *
        omega
      have hup := le_pgroundup hbrk'
      rw [start_brk] at hsb
      obtain ⟨b, h', l', hends, hb, hend, W, -, hbrk₁, -⟩ := hok.loop_grows hroom hsmall
        (by rw [start_brk]; exact hsb) (by unfold HFIELDS HSIZE at *; omega)
        (Nat.le_of_eq (start_brk base h)) (by unfold HSIZE at *; omega)
      refine ⟨b.1 + HSIZE, h', hends, .inr ⟨HSIZE * b.2 - HSIZE, ?_, ?_, ?_⟩⟩
      · rw [hb]
        omega
      · rw [Nat.add_sub_cancel, W.header _ List.mem_cons_self, Nat.sub_add_cancel]
        rw [hb]
        omega
      · rw [hbrk₁]
        unfold HSIZE at *
        omega
  · refine iff_of_false (not_serves_large hok hbrk hsmall (Nat.not_lt.1 hlt)) ?_
    rintro (hd | ⟨hlt', -⟩)
    · exact hbig hd
    · exact hlt hlt'

theorem malloc_serves_iff_twoPages : Serves true 4096 1 twoPages.heap :=
  (malloc_serves_iff twoPages_boot.start (by decide)).2 (.inr ⟨by decide, rfl⟩)

/-- As `twoPages`, with 8 bytes more. -/
def unaligned : Program := { twoPages with heap := { twoPages.heap with brk := 8200 } }

theorem unaligned_boot : Boot 4096 unaligned :=
  ⟨by decide, by decide, rfl, rfl, rfl⟩

/-- `malloc(0x80000000)` asks `sbrk` to shrink the process by more than it has,
which succeeds and changes nothing. -/
theorem malloc_no_memory : ¬ ∀ (base : Nat) (nbytes : UInt32) (h : Heap) (used : List Alloc)
    (l : List Block), Ok base (start base h) used l → h.brk ≤ PHYSTOP - KERNBASE →
    Serves true base nbytes h := by
  intro hall
  exact not_serves_large unaligned_boot.start (by decide) nofun (by decide)
    (hall 4096 0x80000000 unaligned.heap [] [] unaligned_boot.start (by decide))

end Xv6.Umalloc
