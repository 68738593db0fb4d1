/-
umalloc.c: the allocator of user programs.

Memory is seen as headers, by their addresses; the program's own bytes are
those of the blocks that it has been given. Loops take the number of their
iterations as an argument.
-/
import Xv6.Kernel.State
import Xv6.Lib.Ends
import Xv6.Lib.FreeList

namespace Xv6.Umalloc

open Conc FreeList

/-- `sizeof(Header)` -/
def HSIZE : Nat := 16

/-- The end of the fields `ptr` and `size` in a header. -/
def HFIELDS : Nat := 12

structure Heap where
  hdr : Headers
  freep : Nat
  /-- The process size. -/
  brk : Nat
  /-- The units that `morecore` has obtained, which is auxiliary. -/
  obtained : Nat

/-- What becomes of a call; the last stands for loops that go on for longer. -/
inductive Result (α : Type) where
  | returns (a : α) (s : Heap)
  | fault
  /-- The kernel panics. -/
  | panic
  | running

def setPtr (s : Headers) (x v : Nat) : Headers := { s with ptr := Function.update s.ptr x v }

def setSize (s : Headers) (x v : Nat) : Headers := { s with size := Function.update s.size x v }

/-- The loop of `free`. -/
def search (s : Headers) (bp : Nat) : (fuel p : Nat) → Option Nat
  | 0, _ => none
  | fuel + 1, p => if Stops s bp p then some p else search s bp fuel (s.ptr p)

/-- What `free` does to the headers at `p` and `bp`. -/
def link (p bp : Nat) (s : Headers) : Headers :=
  let s :=
    if bp + HSIZE * s.size bp = s.ptr p then
      setPtr (setSize s bp ((s.size bp + s.size (s.ptr p)) % 2 ^ 32)) bp (s.ptr (s.ptr p))
    else setPtr s bp (s.ptr p)
  if p + HSIZE * s.size p = bp then
    setPtr (setSize s p ((s.size p + s.size bp) % 2 ^ 32)) p (s.ptr bp)
  else setPtr s p bp

def free (fuel ap : Nat) (s : Heap) : Result Unit :=
  let bp := ap - HSIZE
  match search s.hdr bp fuel s.freep with
  | none => .running
  | some p => .returns () { s with hdr := link p bp s.hdr, freep := p }

/-- What comes of `sbrk`. -/
inductive Answer where
  /-- It returns -1. -/
  | fails
  /-- It returns an address, and `brk` is the new process size. -/
  | gives (p brk : Nat)
  | panics

/-- `sbrk` takes the number of bytes and the process size. -/
abbrev Sbrk := Nat → Nat → Answer

/-- The units that `morecore` asks for. -/
def atLeast (nu : Nat) : Nat := if nu < 4096 then 4096 else nu

def morecore (sbrk : Sbrk) (fuel nu : Nat) (s : Heap) : Result Nat :=
  let nu := atLeast nu
  match sbrk (nu * HSIZE) s.brk with
  | .fails => .returns 0 s
  | .panics => .panic
  | .gives p brk =>
    -- the store to the new header
    if PGROUNDUP brk < p + HFIELDS then .fault
    else
      match free fuel (p + HSIZE)
        { s with hdr := setSize s.hdr p nu, brk, obtained := s.obtained + nu } with
      | .returns () s => .returns s.freep s
      | .fault => .fault
      | .panic => .panic
      | .running => .running

/-- Take a block from `p`, the successor of `prevp`. -/
def take (nunits prevp p : Nat) (s : Heap) : Result Nat :=
  if s.hdr.size p = nunits then
    .returns (p + HSIZE) { s with hdr := setPtr s.hdr prevp (s.hdr.ptr p), freep := prevp }
  else
    let hdr := setSize s.hdr p (s.hdr.size p - nunits)
    let p := p + HSIZE * hdr.size p
    .returns (p + HSIZE) { s with hdr := setSize hdr p nunits, freep := prevp }

/-- The loop of `malloc`. -/
def mallocLoop (sbrk : Sbrk) (nunits : Nat) : (fuel prevp p : Nat) → Heap → Result Nat
  | 0, _, _, _ => .running
  | fuel + 1, prevp, p, s =>
    if s.hdr.size p ≥ nunits then take nunits prevp p s
    else if p = s.freep then
      match morecore sbrk fuel nunits s with
      | .returns q s =>
        if q = 0 then .returns 0 s else mallocLoop sbrk nunits fuel q (s.hdr.ptr q) s
      | .fault => .fault
      | .panic => .panic
      | .running => .running
    else mallocLoop sbrk nunits fuel p (s.hdr.ptr p) s

def units (nbytes : UInt32) : Nat := (nbytes.toNat + HSIZE - 1) / HSIZE + 1

/-- The list of `base` alone, with which `malloc` begins. -/
def start (base : Nat) (s : Heap) : Heap :=
  if s.freep = 0 then { s with hdr := setSize (setPtr s.hdr base base) base 0, freep := base }
  else s

def malloc (sbrk : Sbrk) (base : Nat) (nbytes : UInt32) (fuel : Nat) (s : Heap) : Result Nat :=
  let nunits := units nbytes
  let s := start base s
  mallocLoop sbrk nunits fuel s.freep (s.hdr.ptr s.freep) s

/-! ## The list through freep -/

/-- Bytes that the program has been given, in a block with its header. -/
structure Alloc where
  block : Block
  nbytes : UInt32

/-- The blocks of `l` are the free ones besides `base`, those of `used` are
allocated, and all are below `top`. -/
structure WellFormed (base top : Nat) (s : Heap) (used : List Alloc) (l : List Block) : Prop where
  base_ne : base ≠ 0 ∧ base + HSIZE ≤ top
  seg : Seg s.hdr ((base, 0) :: l) base
  /-- Addresses increase, and no two neighbours touch. -/
  order : ((base, 0) :: l).Pairwise (Before HSIZE)
  freep : s.freep ∈ ((base, 0) :: l).map (·.1)
  nonempty : ∀ b ∈ l, 0 < b.2
  header : ∀ a ∈ used, s.hdr.size a.block.1 = a.block.2
  /-- A block has room for its header and the bytes requested. -/
  room : ∀ a ∈ used, a.nbytes.toNat + HSIZE ≤ HSIZE * a.block.2
  within : ∀ b, b ∈ l ∨ b ∈ used.map (·.block) → base + HSIZE ≤ b.1 ∧ b.1 + HSIZE * b.2 ≤ top
  apart : (used.map (·.block)).Pairwise (Apart HSIZE)
  disjoint : ∀ a ∈ used, ∀ b ∈ l, Apart HSIZE a.block b
  /-- A `uint` counts the units of all of memory. -/
  small : top < HSIZE * 2 ^ 32

/-- All units come from `morecore` and are on the list or allocated. -/
structure Ok (base : Nat) (s : Heap) (used : List Alloc) (l : List Block) : Prop extends
    WellFormed base s.brk s used l where
  total : (l.map (·.2)).sum + (used.map (·.block.2)).sum = s.obtained

/-! ## free -/

variable {s s' : Headers} {p b : Block} {u v B : List Block} {x y z : Nat}

/-- The links of a list after a change to some headers in it. -/
theorem seg_replace {w : List Block} (h : Seg s (u ++ B) z) (hw : Seg s' w z)
    (hhead : head w z = head B z)
    (hsame : ∀ c ∈ u, s'.ptr c.1 = s.ptr c.1 ∧ s'.size c.1 = s.size c.1) :
    Seg s' (u ++ w) z := by
  rw [seg_append] at h ⊢
  rw [hhead]
  exact ⟨h.1.congr hsame, hw⟩

theorem link_ne (hy : y ≠ x) (hb : y ≠ b.1) :
    (link x b.1 s).ptr y = s.ptr y ∧ (link x b.1 s).size y = s.size y := by
  unfold link setPtr setSize
  dsimp only
  split <;> split <;> simp [hy, hb]

/-- A block that does not touch the next one touches none of those after it. -/
theorem before_all (hup : b.1 + HSIZE * b.2 ≠ head v z)
    (hord : (u ++ p :: v).Pairwise (Before HSIZE))
    (hv : ∀ c ∈ v, b.1 + HSIZE * b.2 ≤ c.1 ∧ b.1 < c.1 ∧ c.1 + HSIZE * c.2 < HSIZE * 2 ^ 32) :
    ∀ c ∈ v, Before HSIZE b c := by
  cases v with
  | nil => nofun
  | cons q v =>
    change b.1 + HSIZE * b.2 ≠ q.1 at hup
    have hq := hv q List.mem_cons_self
    have hqv := (lt_of_pairwise (u := u ++ [p]) (by simpa using hord)).2
    intro c hc
    unfold Before
    rcases List.mem_cons.1 hc with rfl | hc
    · omega
    · have hqc := hqv c hc
      omega

/-- A block that ends where the next one begins is not the last. -/
theorem exists_above (hup : b.1 + HSIZE * b.2 = head v z) (hz : z < b.1) :
    ∃ q w, v = q :: w := by
  cases v with
  | nil =>
    change b.1 + HSIZE * b.2 = z at hup
    omega
  | cons q w => exact ⟨q, w, rfl⟩

/-- `free` inserts a block after the one that its search has found. -/
theorem link_spec (hseg : Seg s (u ++ p :: v) z) (hord : (u ++ p :: v).Pairwise (Before HSIZE))
    (hsize : s.size b.1 = b.2) (hz : z < b.1) (hpb : p.1 < b.1) (hp : p.1 + HSIZE * p.2 ≤ b.1)
    (hv : ∀ c ∈ v, b.1 + HSIZE * b.2 ≤ c.1 ∧ b.1 < c.1 ∧ c.1 + HSIZE * c.2 < HSIZE * 2 ^ 32)
    (hb : b.1 + HSIZE * b.2 < HSIZE * 2 ^ 32) :
    ∃ B, Inserted HSIZE u p b v B ∧ Seg (link p.1 b.1 s) B z := by
  have hlt := lt_of_pairwise hord
  have hu : ∀ c ∈ u, (link p.1 b.1 s).ptr c.1 = s.ptr c.1 ∧
      (link p.1 b.1 s).size c.1 = s.size c.1 := by
    intro c hc
    have hcp := hlt.1 c hc
    exact link_ne (by omega) (by omega)
  have hafter : ∀ c ∈ v, (link p.1 b.1 s).ptr c.1 = s.ptr c.1 ∧
      (link p.1 b.1 s).size c.1 = s.size c.1 := by
    intro c hc
    have hcp := hlt.2 c hc
    have hcb := hv c hc
    exact link_ne (by omega) (by omega)
  have hps := (seg_append.1 hseg).2
  obtain ⟨hpsize, hpptr, hvseg⟩ := hps
  have hne : b.1 ≠ p.1 := by omega
  have hne' : p.1 ≠ b.1 := by omega
  by_cases hdown : p.1 + HSIZE * p.2 = b.1
  · by_cases hup : b.1 + HSIZE * b.2 = s.ptr p.1
    · -- it closes the gap between two blocks
      obtain ⟨q, v, rfl⟩ := exists_above (hup.trans hpptr) hz
      change s.ptr p.1 = q.1 at hpptr
      have hq := hv q List.mem_cons_self
      refine ⟨_, .both hdown (by omega), seg_replace hseg ⟨?_, ?_, ?_⟩ rfl hu⟩
      · have hmod : (b.2 + q.2) % 2 ^ 32 = b.2 + q.2 := by
          unfold HSIZE at *
          omega
        have hmod' : (p.2 + (b.2 + q.2)) % 2 ^ 32 = p.2 + (b.2 + q.2) := by
          unfold HSIZE at *
          omega
        simp only [link, setPtr, setSize, hsize, hpsize, hup, hpptr, hvseg.1, hdown, hmod, hmod',
          if_true, Function.update_self, Function.update_of_ne hne']
      · simp [link, setPtr, setSize, hsize, hpsize, hup, hpptr, hvseg.1, hne', hdown, hvseg.2.1]
      · exact hvseg.2.2.congr fun c hc => hafter c (List.mem_cons_of_mem q hc)
    · have hmod : (p.2 + b.2) % 2 ^ 32 = p.2 + b.2 := by
        unfold HSIZE at *
        omega
      rw [hpptr] at hup
      refine ⟨_, .down hdown (before_all hup hord hv), seg_replace hseg ⟨?_, ?_, ?_⟩ rfl hu⟩
      · simp only [link, setPtr, setSize, hsize, hpsize, hpptr, hup, hdown, hmod, if_true, if_false,
          Function.update_self]
      · simp [link, setPtr, setSize, hsize, hpsize, hpptr, hup, hdown]
      · exact hvseg.congr hafter
  · have hbefore : Before HSIZE p b := by
      unfold Before
      omega
    by_cases hup : b.1 + HSIZE * b.2 = s.ptr p.1
    · obtain ⟨q, v, rfl⟩ := exists_above (hup.trans hpptr) hz
      change s.ptr p.1 = q.1 at hpptr
      have hq := hv q List.mem_cons_self
      have hmod : (b.2 + q.2) % 2 ^ 32 = b.2 + q.2 := by
        unfold HSIZE at *
        omega
      refine ⟨_, .up hbefore (by omega),
        seg_replace hseg ⟨?_, ?_, ?_, ?_, ?_⟩ rfl hu⟩
      · simp [link, setPtr, setSize, hsize, hpsize, hup, hpptr, hne', hdown]
      · simp [link, setPtr, setSize, hsize, hpsize, hup, hpptr, hne', hdown]
      · simp only [link, setPtr, setSize, hsize, hpsize, hup, hpptr, hvseg.1, hdown, hmod,
          if_true, if_false, Function.update_self, Function.update_of_ne hne']
      · simp [link, setPtr, setSize, hsize, hpsize, hup, hpptr, hne', hne, hdown, hvseg.2.1]
      · exact hvseg.2.2.congr fun c hc => hafter c (List.mem_cons_of_mem q hc)
    · rw [hpptr] at hup
      refine ⟨_, .apart hbefore (before_all hup hord hv),
        seg_replace hseg ⟨?_, ?_, ?_, ?_, ?_⟩ rfl hu⟩
      · simp [link, setPtr, hsize, hpsize, hpptr, hup, hdown]
      · simp [link, setPtr, hsize, hpsize, hpptr, hup, hdown]
      · simp [link, setPtr, hsize, hpsize, hpptr, hup, hdown]
      · simp [link, setPtr, hsize, hpsize, hpptr, hup, hne, hdown]
      · exact hvseg.congr hafter

/-- `search` finds the only block at which it stops. -/
theorem search_finds {C : List Block} {fuel : Nat} (hseg : Seg s C z)
    (hstop : ∀ c ∈ C, Stops s x c.1 ↔ c.1 = y) (hy : y ∈ C.map (·.1)) (hfuel : C.length ≤ fuel) :
    search s x fuel (head C z) = some y := by
  induction C generalizing fuel with
  | nil => cases hy
  | cons c C ih =>
    cases fuel with
    | zero => cases hfuel
    | succ fuel =>
      obtain ⟨-, hptr, hrest⟩ := hseg
      have hc := hstop c List.mem_cons_self
      rw [head_cons, search]
      by_cases hcy : c.1 = y
      · rw [if_pos (hc.2 hcy), hcy]
      · rw [if_neg fun h => hcy (hc.1 h), hptr]
        have hy' : y ∈ C.map (·.1) := by
          rcases List.mem_cons.1 hy with rfl | hy
          · exact absurd rfl hcy
          · exact hy
        exact ih hrest (fun d hd => hstop d (List.mem_cons_of_mem c hd)) hy'
          (Nat.le_of_succ_le_succ hfuel)

namespace WellFormed

variable {base top : Nat} {h : Heap} {used : List Alloc} {l : List Block} {a c d prev : Block}

theorem addr_pos (W : WellFormed base top h used l) (hc : c ∈ (base, 0) :: l) :
    base ≤ c.1 ∧ c.1 + HSIZE * c.2 ≤ top := by
  rcases List.mem_cons.1 hc with rfl | hc
  · have hbase := W.base_ne.2
    unfold HSIZE at *
    omega
  · have hin := W.within c (.inl hc)
    omega

/-- The header of a block that is not on the list may be written. -/
theorem setSize_other (W : WellFormed base top h used l) {n : Nat}
    (hx : ∀ c ∈ (base, 0) :: l, c.1 ≠ x) : Seg (setSize h.hdr x n) ((base, 0) :: l) base := by
  refine W.seg.congr fun c hc => ⟨rfl, ?_⟩
  exact Function.update_of_ne (hx c hc) ..

/-- The block before a new one on the list, and those after it. -/
theorem exists_place (W : WellFormed base top h used l) (hbase : base < b.1)
    (hfree : ∀ c ∈ l, Apart HSIZE b c) (hpos : 0 < b.2) :
    ∃ u p v, (base, 0) :: l = u ++ p :: v ∧ p.1 < b.1 ∧ (∀ c ∈ v, b.1 < c.1) ∧
      p.1 + HSIZE * p.2 ≤ b.1 ∧
      ∀ c ∈ v, b.1 + HSIZE * b.2 ≤ c.1 ∧ b.1 < c.1 ∧ c.1 + HSIZE * c.2 < HSIZE * 2 ^ 32 := by
  have hne : ∀ c ∈ l, c.1 ≠ b.1 := by
    intro c hc heq
    have hcb := hfree c hc
    have hcpos := W.nonempty c hc
    unfold Apart HSIZE at hcb
    omega
  obtain ⟨u, p, v, hsplit, hp, hv⟩ := exists_split W.order hbase hne
  have hmem : ∀ {c : Block}, c ∈ u ++ p :: v → c = (base, 0) ∨ c ∈ l := fun hc =>
    List.mem_cons.1 (hsplit ▸ hc)
  refine ⟨u, p, v, hsplit, hp, hv, ?_, fun c hc => ?_⟩
  · rcases hmem (c := p) (by simp) with rfl | hpl
    · exact Nat.le_of_lt hbase
    · have hdis := hfree p hpl
      unfold Apart HSIZE at *
      omega
  · have hbc := hv c hc
    have hend := (W.addr_pos (c := c) (by rw [hsplit]; simp [hc])).2
    have hsmall := W.small
    refine ⟨?_, hbc, by omega⟩
    rcases hmem (c := c) (by simp [hc]) with rfl | hcl
    · exact absurd hbc (Nat.not_lt.2 (Nat.le_of_lt hbase))
    · have hdis := hfree c hcl
      have hcpos := W.nonempty c hcl
      unfold Apart HSIZE at *
      omega

/-- The list still begins with `base`, which is nobody's neighbour. -/
theorem begins (hsplit : (base, 0) :: l = u ++ p :: v) (hins : Inserted HSIZE u p b v B)
    (hbase : base < b.1) : ∃ l', B = (base, 0) :: l' := by
  cases u with
  | nil =>
    obtain ⟨rfl, rfl⟩ := List.cons.inj hsplit
    cases hins with
    | apart | up => exact ⟨_, rfl⟩
    | down hdown | both hdown =>
      change base + HSIZE * 0 = b.1 at hdown
      omega
  | cons e u =>
    obtain ⟨rfl, -⟩ := List.cons.inj hsplit
    cases hins with
    | apart | up | down | both => exact ⟨_, rfl⟩

/-- The search of `free` comes to the place of the block. -/
theorem free_ends (W : WellFormed base top h used l) (hsplit : (base, 0) :: l = u ++ p :: v)
    (hp : p.1 < b.1) (hv : ∀ c ∈ v, b.1 < c.1) :
    Ends (fun fuel => free fuel (b.1 + HSIZE) h)
      (.returns () { h with hdr := link p.1 b.1 h.hdr, freep := p.1 }) := by
  have hseg := W.seg
  have hord := W.order
  have hfreep := W.freep
  have hfirst : head ((base, 0) :: l) 0 = base := rfl
  rw [hsplit] at hseg hord hfreep hfirst
  obtain ⟨c, C, hc, hC, hperm⟩ := exists_rotation (z := 0) (hfirst ▸ hseg) hfreep
  refine ⟨(c :: C).length, fun fuel hfuel => ?_⟩
  have hfound : search h.hdr b.1 fuel h.freep = some p.1 := by
    rw [← hc]
    refine search_finds hC (fun d hd => ?_) ?_ hfuel
    · exact stops_iff hseg hord (z := 0) hfirst hp hv (hperm.mem_iff.1 hd)
    · exact (hperm.map _).mem_iff.2 (List.mem_map_of_mem (by simp))
  simp [free, hfound]

/-- The blocks of the new list are old ones, or have the new one as a part. -/
theorem inserted_within (W : WellFormed base top h used l) {l' : List Block}
    (hsplit : (base, 0) :: l = u ++ p :: v) (hins : Inserted HSIZE u p b v ((base, 0) :: l'))
    (hb : base + HSIZE ≤ b.1 ∧ b.1 + HSIZE * b.2 ≤ top) (hc : c ∈ l') :
    c ∈ l ∨ b.2 ≤ c.2 ∧ base + HSIZE ≤ c.1 ∧ c.1 + HSIZE * c.2 ≤ top := by
  have hmem : ∀ {c : Block}, c ∈ u ++ p :: v → c = (base, 0) ∨ c ∈ l := fun hc =>
    List.mem_cons.1 (hsplit ▸ hc)
  have hord := hins.pairwise (hsplit ▸ W.order)
  have hcbase : base < c.1 := ((List.pairwise_cons.1 hord).1 c hc).lt
  rcases hins.mem (List.mem_cons_of_mem _ hc) with hold | ⟨hstart, hle, hend⟩
  · rcases hmem hold with rfl | hcl
    · exact absurd hcbase (Nat.lt_irrefl base)
    · exact .inl hcl
  · refine .inr ⟨hle, ?_, ?_⟩
    · rcases hstart with hstart | ⟨hstart, -⟩
      · omega
      · rcases hmem (c := p) (by simp) with rfl | hpl
        · rw [hstart] at hcbase
          exact absurd hcbase (Nat.lt_irrefl base)
        · have hin := W.within p (.inl hpl)
          omega
    · rcases hend with hend | ⟨q, hq, -, hend⟩
      · omega
      · have hqtop := (W.addr_pos (c := q) (by rw [hsplit]; simp [hq])).2
        omega

/-- `free` of a block that has no byte of any other. -/
theorem insert (W : WellFormed base top h used l) (hsize : h.hdr.size b.1 = b.2) (hpos : 0 < b.2)
    (hb : base + HSIZE ≤ b.1 ∧ b.1 + HSIZE * b.2 ≤ top) (hfree : ∀ c ∈ l, Apart HSIZE b c)
    (hused : ∀ a ∈ used, Apart HSIZE a.block b) :
    ∃ u p v l', (base, 0) :: l = u ++ p :: v ∧ p.1 < b.1 ∧ (∀ c ∈ v, b.1 < c.1) ∧
      Inserted HSIZE u p b v ((base, 0) :: l') ∧
      Ends (fun fuel => free fuel (b.1 + HSIZE) h)
        (.returns () { h with hdr := link p.1 b.1 h.hdr, freep := p.1 }) ∧
      WellFormed base top { h with hdr := link p.1 b.1 h.hdr, freep := p.1 } used l' := by
  have hbase : base < b.1 := by
    unfold HSIZE at *
    omega
  obtain ⟨u, p, v, hsplit, hp, hv, hpb, hvb⟩ := W.exists_place hbase hfree hpos
  have hmem : ∀ {c : Block}, c ∈ u ++ p :: v → c = (base, 0) ∨ c ∈ l := fun hc =>
    List.mem_cons.1 (hsplit ▸ hc)
  have hsmall := W.small
  obtain ⟨B, hins, hB⟩ := link_spec (hsplit ▸ W.seg) (hsplit ▸ W.order) hsize hbase hp hpb hvb
    (by omega)
  obtain ⟨l', rfl⟩ := begins hsplit hins hbase
  have hnew : ∀ c ∈ l', c ∈ l ∨ b.2 ≤ c.2 ∧ base + HSIZE ≤ c.1 ∧ c.1 + HSIZE * c.2 ≤ top :=
    fun c hc => W.inserted_within hsplit hins hb hc
  refine ⟨u, p, v, l', hsplit, hp, hv, hins, W.free_ends hsplit hp hv, W.base_ne, hB,
    hins.pairwise (hsplit ▸ W.order), hins.mem_addr, fun c hc => ?_, fun a ha => ?_, W.room,
    fun c hc => ?_, W.apart, fun a ha c hc => ?_, W.small⟩
  · rcases hnew c hc with hc | ⟨hle, -⟩
    · exact W.nonempty c hc
    · omega
  · have haroom := W.room a ha
    have hab := hused a ha
    have hain := W.within a.block (.inr (List.mem_map_of_mem ha))
    refine (link_ne ?_ ?_).2.trans (W.header a ha)
    · rcases hmem (c := p) (by simp) with rfl | hpl
      · change a.block.1 ≠ base
        unfold HSIZE at *
        omega
      · have hap := W.disjoint a ha p hpl
        have hppos := W.nonempty p hpl
        unfold Apart HSIZE at *
        omega
    · unfold Apart HSIZE at *
      omega
  · rcases hc with hc | hc
    · rcases hnew c hc with hc | ⟨-, hin⟩
      · exact W.within c (.inl hc)
      · exact hin
    · exact W.within c (.inr hc)
  · have haroom := W.room a ha
    refine hins.apart_all (by omega) (hused a ha) (fun d hd => ?_) c (List.mem_cons_of_mem _ hc)
    rcases hmem hd with rfl | hdl
    · have hain := W.within a.block (.inr (List.mem_map_of_mem ha))
      refine .inr ?_
      change base + HSIZE * 0 ≤ a.block.1
      omega
    · exact W.disjoint a ha d hdl

end WellFormed

end Xv6.Umalloc
