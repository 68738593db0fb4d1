/-
umalloc.c: `malloc`, and the runs of a program that uses the allocator.

`malloc` goes once around the list; when no block is large enough `morecore`
inserts one that is, which it then finds.
-/
import Xv6.Umalloc
import Mathlib.Data.List.Pairwise
import Mathlib.Logic.Relation
import Mathlib.Tactic.Tauto

namespace Xv6.Umalloc

open Conc FreeList

variable {base top : Nat} {h h' : Heap} {used : List Alloc} {l : List Block} {b c d p prev : Block}
  {u v : List Block} {nunits z : Nat} {sbrk : Sbrk}

/-! ## The loop -/

/-- The loop goes past blocks that are too small. -/
theorem loop_skip (sbrk : Sbrk) {w : List Block} (hseg : Seg h.hdr (b :: w) z)
    (hw : ∀ c ∈ w, c.2 < nunits ∧ c.1 ≠ h.freep) :
    ∃ c ∈ b :: w, h.hdr.ptr c.1 = z ∧ ∀ fuel,
      mallocLoop sbrk nunits (fuel + w.length) b.1 (h.hdr.ptr b.1) h =
        mallocLoop sbrk nunits fuel c.1 z h := by
  induction w generalizing b with
  | nil =>
    have hptr : h.hdr.ptr b.1 = z := hseg.2.1
    exact ⟨b, List.mem_cons_self, hptr, fun fuel => by rw [hptr]; rfl⟩
  | cons d w ih =>
    obtain ⟨-, hptr, hrest⟩ := hseg
    obtain ⟨c, hc, hcz, hloop⟩ := ih hrest fun e he => hw e (List.mem_cons_of_mem d he)
    obtain ⟨hsmall, hne⟩ := hw d List.mem_cons_self
    refine ⟨c, List.mem_cons_of_mem b hc, hcz, fun fuel => ?_⟩
    rw [head_cons] at hptr
    rw [hptr, List.length_cons, ← Nat.add_assoc, mallocLoop, hrest.1,
      if_neg (Nat.not_le.2 hsmall), if_neg hne]
    exact hloop fuel

namespace WellFormed

/-- The list is split where a link leads. -/
theorem split_of_next (W : WellFormed base top h used l) (hprev : prev ∈ (base, 0) :: l)
    (hd : d ∈ l) (hnext : h.hdr.ptr prev.1 = d.1) :
    ∃ u v, (base, 0) :: l = u ++ prev :: d :: v := by
  obtain ⟨u, v, hsplit⟩ := List.append_of_mem hprev
  have hseg := W.seg
  rw [hsplit, seg_append] at hseg
  obtain ⟨-, -, hptr, hv⟩ := hseg
  rw [hnext] at hptr
  cases v with
  | nil =>
    have hlt := ((List.pairwise_cons.1 W.order).1 d hd).lt
    change d.1 = base at hptr
    change base < d.1 at hlt
    omega
  | cons e v =>
    have heq : d = e := by
      refine Prod.ext hptr ?_
      rw [head_cons] at hptr
      have hsize := hv.1
      rw [← hptr] at hsize
      rw [← hsize]
      exact (W.seg.size (List.mem_cons_of_mem _ hd)).symm
    exact ⟨u, v, heq ▸ hsplit⟩

/-- The loop comes to the first block that is large enough, or else back to
where it started. -/
theorem reaches (W : WellFormed base top h used l) (sbrk : Sbrk) (nunits : Nat) :
    ∃ prev ∈ (base, 0) :: l, ∃ d ∈ (base, 0) :: l, h.hdr.ptr prev.1 = d.1 ∧
      (nunits ≤ d.2 ∨ d.1 = h.freep ∧ ∀ c ∈ (base, 0) :: l, c.2 < nunits) ∧
      ∃ k, ∀ fuel, mallocLoop sbrk nunits (fuel + k) h.freep (h.hdr.ptr h.freep) h =
        mallocLoop sbrk nunits fuel prev.1 d.1 h := by
  obtain ⟨b, C, hb, hseg, hperm⟩ := exists_rotation (z := 0) W.seg W.freep
  have hdistinct : (b :: C).Pairwise fun c e => c.1 ≠ e.1 := by
    refine (hperm.pairwise_iff fun hne => Ne.symm hne).2 (W.order.imp fun hlt => ?_)
    exact Nat.ne_of_lt hlt.lt
  have hne : ∀ c ∈ C, c.1 ≠ h.freep := by
    intro c hc
    rw [← hb]
    exact ((List.pairwise_cons.1 hdistinct).1 c hc).symm
  rw [← hb]
  have hcycle : Seg h.hdr (b :: (C ++ [b])) (h.hdr.ptr b.1) := by
    rw [← hb] at hseg
    exact (seg_append (B := b :: C)).2 ⟨hseg, hseg.1, rfl, trivial⟩
  -- the walk up to some block of the cycle
  have hwalk : ∀ w d r, C ++ [b] = w ++ d :: r → (∀ c ∈ w, c.2 < nunits) →
      ∃ prev ∈ (base, 0) :: l, h.hdr.ptr prev.1 = d.1 ∧
        ∃ k, ∀ fuel, mallocLoop sbrk nunits (fuel + k) b.1 (h.hdr.ptr b.1) h =
          mallocLoop sbrk nunits fuel prev.1 d.1 h := by
    intro w d r hsplit hsmall
    have hpre : ∀ c ∈ w, c ∈ C := by
      intro c hc
      obtain ⟨r', hC⟩ : ∃ r', C = w ++ r' := by
        rcases List.eq_nil_or_concat r with rfl | ⟨r', e, rfl⟩
        · exact ⟨[], by simpa using (List.append_inj' hsplit rfl).1⟩
        · refine ⟨d :: r', ?_⟩
          have hsplit' : C ++ [b] = (w ++ d :: r') ++ [e] := by simpa using hsplit
          exact (List.append_inj' hsplit' rfl).1
      rw [hC]
      exact List.mem_append_left r' hc
    rw [hsplit, ← List.cons_append] at hcycle
    obtain ⟨prev, hprev, hnext, hloop⟩ := loop_skip sbrk
      (seg_append.1 hcycle).1 fun c hc => ⟨hsmall c hc, hne c (hpre c hc)⟩
    refine ⟨prev, hperm.mem_iff.1 ?_, hnext, _, hloop⟩
    rcases List.mem_cons.1 hprev with rfl | hprev
    · exact List.mem_cons_self
    · exact List.mem_cons_of_mem b (hpre prev hprev)
  have hmem : ∀ c ∈ C ++ [b], c ∈ (base, 0) :: l := by
    intro c hc
    refine hperm.mem_iff.1 ?_
    rcases List.mem_append.1 hc with hc | hc
    · exact List.mem_cons_of_mem b hc
    · rw [List.mem_singleton.1 hc]
      exact List.mem_cons_self
  cases hfind : (C ++ [b]).find? fun c => decide (nunits ≤ c.2) with
  | none =>
    have hsmall : ∀ c ∈ C ++ [b], c.2 < nunits := by
      simpa using List.find?_eq_none.1 hfind
    obtain ⟨prev, hprev, hnext, hloop⟩ := hwalk C b [] rfl fun c hc =>
      hsmall c (List.mem_append_left [b] hc)
    refine ⟨prev, hprev, b, hmem b (by simp), hnext, .inr ⟨rfl, fun c hc => hsmall c ?_⟩, hloop⟩
    rcases List.mem_cons.1 (hperm.mem_iff.2 hc) with rfl | hc
    · simp
    · simp [hc]
  | some d =>
    obtain ⟨hfits, w, r, hsplit, hsmall⟩ := List.find?_eq_some_iff_append.1 hfind
    obtain ⟨prev, hprev, hnext, hloop⟩ := hwalk w d r hsplit fun c hc => by
      simpa using hsmall c hc
    exact ⟨prev, hprev, d, hmem d (by rw [hsplit]; simp), hnext, .inl (by simpa using hfits), hloop⟩

/-! ## Taking a block -/

/-- A block `b` is taken from the end of the free block `d`. -/
theorem carve (W : WellFormed base top h used l) {l' : List Block} {nbytes : UInt32} (hd : d ∈ l)
    (hb : d.1 ≤ b.1 ∧ b.1 + HSIZE * b.2 = d.1 + HSIZE * d.2)
    (hroom : nbytes.toNat + HSIZE ≤ HSIZE * b.2) (hseg : Seg h'.hdr ((base, 0) :: l') base)
    (hord : ((base, 0) :: l').Pairwise (Before HSIZE))
    (hfreep : h'.freep ∈ ((base, 0) :: l').map (·.1))
    (hl' : ∀ c ∈ l', (c ∈ l ∨ c.1 = d.1 ∧ c.2 ≤ d.2) ∧ 0 < c.2 ∧ Apart HSIZE b c)
    (hsize : h'.hdr.size b.1 = b.2)
    (hsame : ∀ x, x ≠ d.1 → x ≠ b.1 → h'.hdr.size x = h.hdr.size x) :
    WellFormed base top h' (⟨b, nbytes⟩ :: used) l' := by
  have hdin := W.within d (.inl hd)
  have hdpos := W.nonempty d hd
  have hused : ∀ a ∈ used, Apart HSIZE b a.block := by
    intro a ha
    have had := W.disjoint a ha d hd
    unfold Apart HSIZE at *
    omega
  refine ⟨W.base_ne, hseg, hord, hfreep, fun c hc => (hl' c hc).2.1, fun a ha => ?_,
    fun a ha => ?_, fun c hc => ?_, ?_, fun a ha c hc => ?_, W.small⟩
  · rcases List.mem_cons.1 ha with rfl | ha
    · exact hsize
    · have had := W.disjoint a ha d hd
      have haroom := W.room a ha
      have hab := hused a ha
      rw [hsame _ ?_ ?_]
      · exact W.header a ha
      · unfold Apart HSIZE at *
        omega
      · unfold Apart HSIZE at *
        omega
  · rcases List.mem_cons.1 ha with rfl | ha
    · exact hroom
    · exact W.room a ha
  · rcases hc with hc | hc
    · rcases (hl' c hc).1 with hc | ⟨hstart, hle⟩
      · exact W.within c (.inl hc)
      · unfold HSIZE at *
        omega
    · rcases List.mem_cons.1 hc with hc | hc
      · rw [hc]
        change base + HSIZE ≤ b.1 ∧ b.1 + HSIZE * b.2 ≤ top
        omega
      · exact W.within c (.inr hc)
  · refine List.pairwise_cons.2 ⟨fun e he => ?_, W.apart⟩
    obtain ⟨a, ha, rfl⟩ := List.mem_map.1 he
    exact hused a ha
  · rcases List.mem_cons.1 ha with rfl | ha
    · exact (hl' c hc).2.2
    · rcases (hl' c hc).1 with hc | ⟨hstart, hle⟩
      · exact W.disjoint a ha c hc
      · have had := W.disjoint a ha d hd
        unfold Apart HSIZE at *
        omega

/-- The list before and after a block of it. -/
theorem around {w : List Block} (hord : ((base, 0) :: (w ++ d :: v)).Pairwise (Before HSIZE)) :
    (∀ c ∈ (base, 0) :: w, Before HSIZE c d) ∧ ∀ c ∈ v, Before HSIZE d c := by
  rw [← List.cons_append, List.pairwise_append] at hord
  obtain ⟨-, hd, hcross⟩ := hord
  exact ⟨fun c hc => hcross c hc d List.mem_cons_self, (List.pairwise_cons.1 hd).1⟩

/-- The list is linked once its part before `d` leads on to what now comes. -/
theorem seg_take {w r : List Block} (hw : u ++ [prev] = (base, 0) :: w)
    (hseg : Seg h.hdr ((base, 0) :: (w ++ d :: v)) base)
    (hsize : ∀ c ∈ (base, 0) :: w, h'.hdr.size c.1 = h.hdr.size c.1)
    (hptr : ∀ c ∈ u, h'.hdr.ptr c.1 = h.hdr.ptr c.1) (hprev : h'.hdr.ptr prev.1 = head r base)
    (hr : Seg h'.hdr r base) : Seg h'.hdr ((base, 0) :: (w ++ r)) base := by
  rw [← List.cons_append, ← hw, List.append_assoc] at hseg ⊢
  rw [← hw] at hsize
  have hpsize := (seg_append.1 hseg).2.1
  refine seg_replace hseg ⟨?_, hprev, hr⟩ rfl fun c hc => ⟨hptr c hc, ?_⟩
  · rw [hsize prev (by simp)]
    exact hpsize
  · exact hsize c (by simp [hc])

/-- The whole of the block `d` is taken. -/
theorem take_whole {w : List Block} {nbytes : UInt32}
    (W : WellFormed base top h used (w ++ d :: v)) (hw : u ++ [prev] = (base, 0) :: w)
    (hroom : nbytes.toNat + HSIZE ≤ HSIZE * d.2) :
    WellFormed base top
      { h with hdr := setPtr h.hdr prev.1 (h.hdr.ptr d.1), freep := prev.1 }
      (⟨d, nbytes⟩ :: used) (w ++ v) := by
  obtain ⟨hbefore, hafter⟩ := around W.order
  have hseg := W.seg
  have hdseg := (seg_append.1 (List.cons_append ▸ hseg)).2
  have hprev : prev ∈ (base, 0) :: w := by
    rw [← hw]
    simp
  have hpd := (hbefore prev hprev).lt
  have hlt : ∀ c ∈ u, c.1 < prev.1 := by
    have hord := W.order
    rw [← List.cons_append, ← hw, List.append_assoc] at hord
    exact (lt_of_pairwise hord).1
  refine W.carve (d := d) (by simp) ⟨Nat.le_refl _, rfl⟩ hroom ?_ ?_ ?_ (fun c hc => ?_)
    (W.seg.size (List.mem_cons_of_mem _ (by simp))) fun x _ _ => rfl
  · refine seg_take hw hseg (fun c _ => rfl) (fun c hc => ?_) ?_ ?_
    · exact Function.update_of_ne (Nat.ne_of_lt (hlt c hc)) ..
    · exact (Function.update_self ..).trans hdseg.2.1
    · refine hdseg.2.2.congr fun c hc => ⟨?_, rfl⟩
      have hdc := (hafter c hc).lt
      exact Function.update_of_ne (by omega) ..
  · refine W.order.sublist (List.Sublist.cons_cons _ ?_)
    exact List.Sublist.append_left (List.sublist_cons_self d v) w
  · rw [← List.cons_append]
    exact List.mem_map_of_mem (List.mem_append_left v hprev)
  · have hc' : c ∈ w ++ d :: v := by
      simp only [List.mem_append, List.mem_cons] at hc ⊢
      tauto
    refine ⟨.inl hc', W.nonempty c hc', ?_⟩
    rcases List.mem_append.1 hc with hc | hc
    · exact (hbefore c (List.mem_cons_of_mem _ hc)).apart.symm
    · exact (hafter c hc).apart

/-- The last units of the block `d` are taken. -/
theorem take_end {w : List Block} {nbytes : UInt32} (W : WellFormed base top h used (w ++ d :: v))
    (hw : u ++ [prev] = (base, 0) :: w) (hroom : nbytes.toNat + HSIZE ≤ HSIZE * nunits)
    (hlt : nunits < d.2) :
    WellFormed base top
      { h with
        hdr := setSize (setSize h.hdr d.1 (d.2 - nunits)) (d.1 + HSIZE * (d.2 - nunits)) nunits
        freep := prev.1 }
      (⟨(d.1 + HSIZE * (d.2 - nunits), nunits), nbytes⟩ :: used)
      (w ++ (d.1, d.2 - nunits) :: v) := by
  obtain ⟨hbefore, hafter⟩ := around W.order
  have hseg := W.seg
  have hdseg := (seg_append.1 (List.cons_append ▸ hseg)).2
  have hprev : prev ∈ (base, 0) :: w := by
    rw [← hw]
    simp
  have hsplit : HSIZE * d.2 = HSIZE * (d.2 - nunits) + HSIZE * nunits := by
    rw [← Nat.mul_add]
    congr 1
    omega
  have hdb : d.1 < d.1 + HSIZE * (d.2 - nunits) := by
    unfold HSIZE
    omega
  have hbv : ∀ c ∈ v, d.1 + HSIZE * (d.2 - nunits) < c.1 := by
    intro c hc
    have hdc := hafter c hc
    unfold Before at hdc
    omega
  -- the headers that change are not those of other blocks
  have hsame : ∀ c : Block, c.1 < d.1 ∨ d.1 + HSIZE * (d.2 - nunits) < c.1 →
      (setSize (setSize h.hdr d.1 (d.2 - nunits)) (d.1 + HSIZE * (d.2 - nunits)) nunits).size c.1 =
        h.hdr.size c.1 := by
    intro c hc
    exact (Function.update_of_ne (by omega) ..).trans (Function.update_of_ne (by omega) ..)
  refine W.carve (d := d) (by simp) ⟨Nat.le_of_lt hdb, by simp only; omega⟩ hroom ?_ ?_ ?_
    (fun c hc => ?_) (Function.update_self ..) fun x hxd hxb =>
      (Function.update_of_ne hxb ..).trans (Function.update_of_ne hxd ..)
  · refine seg_take hw hseg (fun c hc => hsame c (.inl (hbefore c hc).lt)) (fun _ _ => rfl) ?_
      ⟨?_, hdseg.2.1, hdseg.2.2.congr fun c hc => ⟨rfl, hsame c (.inr (hbv c hc))⟩⟩
    · have hlink := (seg_append.1 (List.cons_append ▸ hseg)).1
      rw [← hw] at hlink
      exact (seg_append.1 hlink).2.2.1
    · exact (Function.update_of_ne (Nat.ne_of_lt hdb) ..).trans (Function.update_self ..)
  · have horder := W.order
    simp only [List.pairwise_cons, List.pairwise_append, List.mem_append, List.mem_cons]
      at horder ⊢
    obtain ⟨hbase, hw', ⟨-, hv'⟩, hcross⟩ := horder
    refine ⟨fun c hc => ?_, hw', ⟨hbv, hv'⟩, fun c hc e he => ?_⟩
    · rcases hc with hc | rfl | hc
      · exact hbase c (.inl hc)
      · exact hbase d (.inr (.inl rfl))
      · exact hbase c (.inr (.inr hc))
    · rcases he with rfl | he
      · exact hbefore c (List.mem_cons_of_mem _ hc)
      · exact hcross c hc e (.inr he)
  · rw [← List.cons_append]
    exact List.mem_map_of_mem (List.mem_append_left _ hprev)
  · simp only [List.mem_append, List.mem_cons] at hc
    rcases hc with hc | rfl | hc
    · refine ⟨.inl (by simp [hc]), W.nonempty c (by simp [hc]), .inr ?_⟩
      have hcd := hbefore c (List.mem_cons_of_mem _ hc)
      unfold Before at hcd
      simp only
      omega
    · exact ⟨.inr ⟨rfl, Nat.sub_le ..⟩, by simp only; omega, .inr (Nat.le_refl _)⟩
    · refine ⟨.inl (by simp [hc]), W.nonempty c (by simp [hc]), .inl ?_⟩
      have hdc := hafter c hc
      unfold Before at hdc
      simp only
      omega

theorem take_spec (W : WellFormed base top h used l) {nbytes : UInt32}
    (hsplit : (base, 0) :: l = u ++ prev :: d :: v) (hfits : nunits ≤ d.2)
    (hroom : nbytes.toNat + HSIZE ≤ HSIZE * nunits) :
    ∃ b h' l', take nunits prev.1 d.1 h = .returns (b.1 + HSIZE) h' ∧ b.2 = nunits ∧
      b.1 + HSIZE * b.2 = d.1 + HSIZE * d.2 ∧ WellFormed base top h' (⟨b, nbytes⟩ :: used) l' ∧
      (l'.map (·.2)).sum + b.2 = (l.map (·.2)).sum ∧ h'.brk = h.brk ∧
      h'.obtained = h.obtained := by
  obtain ⟨w, hw, rfl⟩ : ∃ w, u ++ [prev] = (base, 0) :: w ∧ l = w ++ d :: v := by
    cases u with
    | nil =>
      obtain ⟨rfl, rfl⟩ := List.cons.inj hsplit
      exact ⟨[], rfl, rfl⟩
    | cons e u =>
      obtain ⟨rfl, rfl⟩ := List.cons.inj hsplit
      exact ⟨u ++ [prev], rfl, by simp⟩
  have hdsize := W.seg.size (b := d) (List.mem_cons_of_mem _ (by simp))
  unfold take
  rw [hdsize]
  by_cases heq : d.2 = nunits
  · refine ⟨d, _, w ++ v, by rw [if_pos heq], heq, rfl, W.take_whole hw (heq ▸ hroom), ?_, rfl, rfl⟩
    simp only [List.map_append, List.map_cons, List.sum_append, List.sum_cons]
    omega
  · have hlt : nunits < d.2 := by omega
    have hmul : HSIZE * d.2 = HSIZE * (d.2 - nunits) + HSIZE * nunits := by
      rw [← Nat.mul_add]
      congr 1
      omega
    refine ⟨_, _, w ++ (d.1, d.2 - nunits) :: v, ?_, rfl, ?_, W.take_end hw hroom hlt, ?_, rfl, rfl⟩
    · rw [if_neg heq]
      simp only [setSize, Function.update_self]
    · simp only
      omega
    · simp only [List.map_append, List.map_cons, List.sum_append, List.sum_cons]
      omega

end WellFormed

/-! ## How malloc ends -/

/-- The loop from `freep` on. -/
def loop (sbrk : Sbrk) (nunits : Nat) (h : Heap) (fuel : Nat) : Result Nat :=
  mallocLoop sbrk nunits fuel h.freep (h.hdr.ptr h.freep) h

namespace WellFormed

variable {nbytes : UInt32} {brk : Nat}

/-- A block of the list is large enough. -/
theorem loop_fits (W : WellFormed base top h used l) (sbrk : Sbrk)
    (hroom : nbytes.toNat + HSIZE ≤ HSIZE * nunits) (hfits : ∃ d ∈ l, nunits ≤ d.2) :
    ∃ d ∈ l, nunits ≤ d.2 ∧ ∃ b h' l', Ends (loop sbrk nunits h) (.returns (b.1 + HSIZE) h') ∧
      b.2 = nunits ∧ b.1 + HSIZE * b.2 = d.1 + HSIZE * d.2 ∧
      WellFormed base top h' (⟨b, nbytes⟩ :: used) l' ∧
      (l'.map (·.2)).sum + b.2 = (l.map (·.2)).sum ∧ h'.brk = h.brk ∧
      h'.obtained = h.obtained := by
  obtain ⟨prev, hprev, d, hd, hnext, hwhich, k, hloop⟩ := W.reaches sbrk nunits
  have hd' : nunits ≤ d.2 := by
    rcases hwhich with hd' | ⟨-, hsmall⟩
    · exact hd'
    · obtain ⟨e, he, hle⟩ := hfits
      have hlt := hsmall e (List.mem_cons_of_mem _ he)
      omega
  have hdl : d ∈ l := by
    rcases List.mem_cons.1 hd with rfl | hd
    · unfold HSIZE at hroom
      change nunits ≤ 0 at hd'
      omega
    · exact hd
  obtain ⟨u, v, hsplit⟩ := W.split_of_next hprev hdl hnext
  obtain ⟨b, h', l', htake, hrest⟩ := W.take_spec hsplit hd' hroom
  refine ⟨d, hdl, hd', b, h', l', Ends.of_shift hloop ⟨1, fun fuel hfuel => ?_⟩, hrest⟩
  cases fuel with
  | zero => cases hfuel
  | succ fuel =>
    change mallocLoop sbrk nunits (fuel + 1) prev.1 d.1 h = _
    rw [mallocLoop, W.seg.size hd, if_pos hd', htake]

/-- No block of the list is large enough, and the loop calls `morecore`. -/
theorem loop_asks (W : WellFormed base top h used l) (sbrk : Sbrk) (hpos : 0 < nunits)
    (hsmall : ∀ d ∈ l, d.2 < nunits) :
    ∃ k prev, h.hdr.size h.freep < nunits ∧
      ∀ fuel, loop sbrk nunits h (fuel + k) = mallocLoop sbrk nunits fuel prev h.freep h := by
  have hall : ∀ d ∈ (base, 0) :: l, d.2 < nunits := by
    intro d hd
    rcases List.mem_cons.1 hd with rfl | hd
    · exact hpos
    · exact hsmall d hd
  obtain ⟨prev, -, d, hd, -, hwhich, k, hloop⟩ := W.reaches sbrk nunits
  have hlt := hall d hd
  rcases hwhich with hle | ⟨hfreep, -⟩
  · omega
  · refine ⟨k, prev.1, ?_, fun fuel => ?_⟩
    · rw [← hfreep, W.seg.size hd]
      exact hlt
    · rw [← hfreep]
      exact hfreep ▸ hloop fuel

/-- `sbrk` fails. -/
theorem loop_none (W : WellFormed base top h used l) (hpos : 0 < nunits)
    (hsmall : ∀ d ∈ l, d.2 < nunits) (hsbrk : sbrk (atLeast nunits * HSIZE) h.brk = .fails) :
    Ends (loop sbrk nunits h) (.returns 0 h) := by
  obtain ⟨k, prev, hsize, hloop⟩ := W.loop_asks sbrk hpos hsmall
  refine Ends.of_shift hloop ⟨1, fun fuel hfuel => ?_⟩
  cases fuel with
  | zero => cases hfuel
  | succ fuel =>
    change mallocLoop sbrk nunits (fuel + 1) prev h.freep h = _
    rw [mallocLoop, if_neg (Nat.not_le.2 hsize), if_pos rfl]
    simp [morecore, hsbrk]

theorem loop_panics (W : WellFormed base top h used l) (hpos : 0 < nunits)
    (hsmall : ∀ d ∈ l, d.2 < nunits) (hsbrk : sbrk (atLeast nunits * HSIZE) h.brk = .panics) :
    Ends (loop sbrk nunits h) .panic := by
  obtain ⟨k, prev, hsize, hloop⟩ := W.loop_asks sbrk hpos hsmall
  refine Ends.of_shift hloop ⟨1, fun fuel hfuel => ?_⟩
  cases fuel with
  | zero => cases hfuel
  | succ fuel =>
    change mallocLoop sbrk nunits (fuel + 1) prev h.freep h = _
    rw [mallocLoop, if_neg (Nat.not_le.2 hsize), if_pos rfl]
    simp [morecore, hsbrk]

/-- The new header is not in memory. -/
theorem loop_fault (W : WellFormed base top h used l) (hpos : 0 < nunits)
    (hsmall : ∀ d ∈ l, d.2 < nunits) {x : Nat}
    (hsbrk : sbrk (atLeast nunits * HSIZE) h.brk = .gives x brk)
    (hfault : PGROUNDUP brk < x + HFIELDS) : Ends (loop sbrk nunits h) .fault := by
  obtain ⟨k, prev, hsize, hloop⟩ := W.loop_asks sbrk hpos hsmall
  refine Ends.of_shift hloop ⟨1, fun fuel hfuel => ?_⟩
  cases fuel with
  | zero => cases hfuel
  | succ fuel =>
    change mallocLoop sbrk nunits (fuel + 1) prev h.freep h = _
    rw [mallocLoop, if_neg (Nat.not_le.2 hsize), if_pos rfl]
    simp [morecore, hsbrk, hfault]

/-- `morecore` inserts a block, from the end of which the loop then takes. -/
theorem loop_grows (W : WellFormed base top h used l)
    (hroom : nbytes.toNat + HSIZE ≤ HSIZE * nunits) (hsmall : ∀ d ∈ l, d.2 < nunits) {x : Nat}
    (hsbrk : sbrk (atLeast nunits * HSIZE) h.brk = .gives x brk)
    (hok : x + HFIELDS ≤ PGROUNDUP brk) (htop : top ≤ x)
    (hend : x + HSIZE * atLeast nunits < HSIZE * 2 ^ 32) :
    ∃ b h' l', Ends (loop sbrk nunits h) (.returns (b.1 + HSIZE) h') ∧ b.2 = nunits ∧
      b.1 + HSIZE * b.2 = x + HSIZE * atLeast nunits ∧
      WellFormed base (x + HSIZE * atLeast nunits) h' (⟨b, nbytes⟩ :: used) l' ∧
      (l'.map (·.2)).sum + b.2 = (l.map (·.2)).sum + atLeast nunits ∧ h'.brk = brk ∧
      h'.obtained = h.obtained + atLeast nunits := by
  have hpos : 0 < nunits := by
    unfold HSIZE at hroom
    omega
  have hle : nunits ≤ atLeast nunits := by
    unfold atLeast
    split <;> omega
  obtain ⟨k, prev, hsize, hloop⟩ := W.loop_asks sbrk hpos hsmall
  have hbelow : ∀ c ∈ (base, 0) :: l, c.1 < x := by
    intro c hc
    rcases List.mem_cons.1 hc with rfl | hc
    · have hbase := W.base_ne.2
      unfold HSIZE at hbase
      omega
    · have hin := W.within c (.inl hc)
      have hcpos := W.nonempty c hc
      unfold HSIZE at hin
      omega
  -- the list with the new header written
  have W₁ : WellFormed base (x + HSIZE * atLeast nunits)
      { h with hdr := setSize h.hdr x (atLeast nunits), brk := brk,
               obtained := h.obtained + atLeast nunits } used l := by
    refine ⟨⟨W.base_ne.1, Nat.le_trans W.base_ne.2 (by omega)⟩,
      W.setSize_other fun c hc => Nat.ne_of_lt (hbelow c hc), W.order, W.freep, W.nonempty,
      fun a ha => ?_, W.room, fun c hc => ?_, W.apart, W.disjoint, hend⟩
    · have hin := W.within a.block (.inr (List.mem_map_of_mem ha))
      have hra := W.room a ha
      refine (Function.update_of_ne ?_ ..).trans (W.header a ha)
      unfold HSIZE at hin hra
      omega
    · have hin := W.within c hc
      omega
  obtain ⟨u, p, v, l₁, hsplit, hp, hv, hins, ⟨m, hfree⟩, W₂⟩ := W₁.insert (b := (x, atLeast nunits))
    (Function.update_self ..) (Nat.lt_of_lt_of_le hpos hle)
    ⟨Nat.le_trans W.base_ne.2 htop, Nat.le_refl _⟩
    (fun c hc => .inr (by have hin := W.within c (.inl hc); simp only; omega))
    (fun a ha => .inl (by
      have hin := W.within a.block (.inr (List.mem_map_of_mem ha))
      simp only
      omega))
  have hv' : v = [] := by
    cases v with
    | nil => rfl
    | cons q v =>
      have hq := hv q List.mem_cons_self
      have hq' := hbelow q (by rw [hsplit]; simp)
      simp only at hq
      omega
  subst hv'
  have hfits : ∃ d ∈ l₁, nunits ≤ d.2 := by
    obtain ⟨d, hd, hbig⟩ := hins.exists_mem
    simp only at hbig
    rcases List.mem_cons.1 hd with rfl | hd
    · change atLeast nunits ≤ 0 at hbig
      omega
    · exact ⟨d, hd, Nat.le_trans hle hbig⟩
  obtain ⟨d, hd, hdfits, b, h', l', hends, hb, hbend, W₃, hsum, hbrk, hobt⟩ :=
    W₂.loop_fits sbrk hroom hfits
  have hdend : d.1 + HSIZE * d.2 = x + HSIZE * atLeast nunits := by
    rcases hins.mem (List.mem_cons_of_mem _ hd) with hold | ⟨-, -, hdend | ⟨q, hq, -⟩⟩
    · rw [← hsplit] at hold
      rcases List.mem_cons.1 hold with rfl | hold
      · change nunits ≤ 0 at hdfits
        omega
      · have hlt := hsmall d hold
        omega
    · exact hdend
    · cases hq
  have hins' := hins.sum
  rw [← hsplit] at hins'
  simp only [List.map_cons, List.sum_cons, Nat.zero_add] at hins'
  refine ⟨b, h', l', ?_, hb, hbend.trans hdend, W₃, by omega, hbrk, hobt⟩
  obtain ⟨m', hm'⟩ := hends
  refine Ends.of_shift hloop ⟨max m m' + 1, fun fuel hfuel => ?_⟩
  cases fuel with
  | zero => cases hfuel
  | succ fuel =>
    have hq : p.1 ≠ 0 := by
      have hge := (W.addr_pos (c := p) (by rw [hsplit]; simp)).1
      have hbase := W.base_ne.1
      omega
    have hfree' := hfree fuel (by omega)
    simp only at hfree'
    change mallocLoop sbrk nunits (fuel + 1) prev h.freep h = _
    rw [mallocLoop, if_neg (Nat.not_le.2 hsize), if_pos rfl]
    simp only [morecore, hsbrk, if_neg (Nat.not_lt.2 hok), hfree', if_neg hq]
    exact hm' fuel (by omega)

end WellFormed

/-! ## Runs -/

/-- `sbrk` returns, and when it succeeds, gives the bytes asked for, above all
earlier memory. A `uint` counts the units of all of memory, which ends at
`PHYSTOP`. -/
def Fresh (sbrk : Sbrk) : Prop :=
  ∀ n brk, sbrk n brk ≠ .panics ∧ ∀ p brk', sbrk n brk = .gives p brk' →
    brk ≤ p ∧ brk' = p + n ∧ brk' < HSIZE * 2 ^ 32

/-- The memory of a program, and the blocks that it has. -/
structure Program where
  heap : Heap
  used : List Alloc

/-- No call yet. -/
structure Boot (base : Nat) (s : Program) : Prop where
  base_ne : base ≠ 0 ∧ base + HSIZE ≤ s.heap.brk
  small : s.heap.brk < HSIZE * 2 ^ 32
  freep : s.heap.freep = 0
  obtained : s.heap.obtained = 0
  used : s.used = []

inductive Step (base : Nat) : Program → Program → Prop
  | malloc {s : Program} {sbrk : Sbrk} {nbytes : UInt32} {ap : Nat} {h' : Heap} (hsbrk : Fresh sbrk)
      (h : Ends (fun fuel => malloc sbrk base nbytes fuel s.heap) (.returns ap h')) (hap : ap ≠ 0) :
      Step base s ⟨h', ⟨(ap - HSIZE, h'.hdr.size (ap - HSIZE)), nbytes⟩ :: s.used⟩
  | malloc_fails {s : Program} {sbrk : Sbrk} {nbytes : UInt32} {h' : Heap} (hsbrk : Fresh sbrk)
      (h : Ends (fun fuel => malloc sbrk base nbytes fuel s.heap) (.returns 0 h')) :
      Step base s ⟨h', s.used⟩
  | free {h h' : Heap} {A C : List Alloc} {a : Alloc}
      (hfree : Ends (fun fuel => free fuel (a.block.1 + HSIZE) h) (.returns () h')) :
      Step base ⟨h, A ++ a :: C⟩ ⟨h', A ++ C⟩
  /-- The program calls `sbrk` itself. -/
  | grow {s : Program} {brk : Nat} (hbrk : s.heap.brk ≤ brk) (hsmall : brk < HSIZE * 2 ^ 32) :
      Step base s ⟨{ s.heap with brk }, s.used⟩
  /-- The program writes to the blocks that it has. -/
  | store {s : Program} {hdr : Headers}
      (hsame : ∀ x, (∀ a ∈ s.used, x ≤ a.block.1 ∨ a.block.1 + HSIZE * a.block.2 ≤ x) →
        hdr.ptr x = s.heap.hdr.ptr x ∧ hdr.size x = s.heap.hdr.size x) :
      Step base s ⟨{ s.heap with hdr }, s.used⟩

def Reachable (base : Nat) (s : Program) : Prop :=
  ∃ s₀, Boot base s₀ ∧ Relation.ReflTransGen (Step base) s₀ s

def Inv (base : Nat) (s : Program) : Prop := Boot base s ∨ ∃ l, Ok base s.heap s.used l

variable {s s' : Program} {a : Alloc} {A C : List Alloc} {nbytes : UInt32}

theorem units_room (nbytes : UInt32) : nbytes.toNat + HSIZE ≤ HSIZE * units nbytes := by
  unfold units HSIZE
  omega

theorem le_pgroundup {n : Nat} (hn : n < HSIZE * 2 ^ 32) : n ≤ PGROUNDUP n := by
  unfold HSIZE at hn
  unfold PGROUNDUP PGSIZE
  omega

theorem Boot.start (hb : Boot base s) : Ok base (start base s.heap) s.used [] := by
  have hstart : Umalloc.start base s.heap = { s.heap with
      hdr := setSize (setPtr s.heap.hdr base base) base 0, freep := base } := if_pos hb.freep
  rw [hstart, hb.used]
  refine ⟨⟨hb.base_ne, ⟨?_, ?_, trivial⟩, List.pairwise_singleton .., List.mem_cons_self, nofun,
    nofun, nofun, by simp, .nil, nofun, hb.small⟩, hb.obtained.symm⟩
  · exact Function.update_self ..
  · exact Function.update_self ..

theorem Ok.start_eq (hok : Ok base h used l) : start base h = h := by
  obtain ⟨c, hc, heq⟩ := List.mem_map.1 hok.freep
  have hge := (hok.addr_pos hc).1
  have hbase := hok.base_ne.1
  exact if_neg (by omega)

/-- `malloc` begins with a list. -/
theorem Inv.start (hi : Inv base s) : ∃ l, Ok base (start base s.heap) s.used l := by
  rcases hi with hb | ⟨l, hok⟩
  · exact ⟨[], hb.start⟩
  · refine ⟨l, ?_⟩
    rw [hok.start_eq]
    exact hok

theorem Ok.malloc (hok : Ok base h used l) (hsbrk : Fresh sbrk) :
    Ends (loop sbrk (units nbytes) h) (.returns 0 h) ∨
      ∃ b h' l', Ends (loop sbrk (units nbytes) h) (.returns (b.1 + HSIZE) h') ∧
        Ok base h' (⟨b, nbytes⟩ :: used) l' := by
  have hroom := units_room nbytes
  have hpos : 0 < units nbytes := Nat.succ_pos _
  have htotal := hok.total
  by_cases hfits : ∃ d ∈ l, units nbytes ≤ d.2
  · obtain ⟨-, -, -, b, h', l', hends, -, -, W, hsum, hbrk, hobt⟩ :=
      hok.loop_fits sbrk hroom hfits
    refine .inr ⟨b, h', l', hends, hbrk ▸ W, ?_⟩
    simp only [List.map_cons, List.sum_cons]
    omega
  · have hsmall : ∀ d ∈ l, d.2 < units nbytes := by
      intro d hd
      by_contra hlt
      exact hfits ⟨d, hd, Nat.not_lt.1 hlt⟩
    cases hs : sbrk (atLeast (units nbytes) * HSIZE) h.brk with
    | fails => exact .inl (hok.loop_none hpos hsmall hs)
    | panics => exact absurd hs (hsbrk _ _).1
    | gives x brk =>
      obtain ⟨hx, hbrk, hlt⟩ := (hsbrk _ _).2 _ _ hs
      have hle := le_pgroundup hlt
      have hnu : 4096 ≤ atLeast (units nbytes) := by
        unfold atLeast
        split <;> omega
      obtain ⟨b, h', l', hends, -, -, W, hsum, hbrk', hobt⟩ := hok.loop_grows hroom hsmall hs
        (by unfold HSIZE HFIELDS at *; omega) hx (by unfold HSIZE at *; omega)
      refine .inr ⟨b, h', l', hends, ?_, ?_⟩
      · have heq : x + HSIZE * atLeast (units nbytes) = h'.brk := by
          rw [hbrk', hbrk, Nat.mul_comm]
        rw [← heq]
        exact W
      · simp only [List.map_cons, List.sum_cons]
        omega

theorem Ok.free (hok : Ok base h (A ++ a :: C) l) :
    ∃ h' l', Ends (fun fuel => free fuel (a.block.1 + HSIZE) h) (.returns () h') ∧
      Ok base h' (A ++ C) l' := by
  have hmem : ∀ e ∈ A ++ C, e ∈ A ++ a :: C := by
    intro e he
    simp only [List.mem_append, List.mem_cons] at he ⊢
    tauto
  have ha : a ∈ A ++ a :: C := by simp
  have hin := hok.within a.block (.inr (List.mem_map_of_mem ha))
  have hroom := hok.room a ha
  have hapart := hok.apart
  rw [List.map_append, List.map_cons, List.pairwise_append, List.pairwise_cons] at hapart
  obtain ⟨hA, ⟨haC, hC⟩, hcross⟩ := hapart
  have W : WellFormed base h.brk h (A ++ C) l := by
    refine ⟨hok.base_ne, hok.seg, hok.order, hok.freep, hok.nonempty,
      fun e he => hok.header e (hmem e he), fun e he => hok.room e (hmem e he), fun c hc => ?_, ?_,
      fun e he => hok.disjoint e (hmem e he), hok.small⟩
    · refine hok.within c (hc.imp id fun hc => ?_)
      obtain ⟨e, he, rfl⟩ := List.mem_map.1 hc
      exact List.mem_map_of_mem (hmem e he)
    · rw [List.map_append, List.pairwise_append]
      exact ⟨hA, hC, fun e he f hf => hcross e he f (List.mem_cons_of_mem _ hf)⟩
  obtain ⟨u, p, v, l', hsplit, -, -, hins, hends, W'⟩ := W.insert (hok.header a ha)
    (by unfold HSIZE at hroom; omega) hin (hok.disjoint a ha) fun e he => by
      rcases List.mem_append.1 he with he | he
      · exact hcross e.block (List.mem_map_of_mem he) a.block List.mem_cons_self
      · exact (haC e.block (List.mem_map_of_mem he)).symm
  refine ⟨_, l', hends, W', ?_⟩
  have hsum := hins.sum
  have htotal := hok.total
  rw [← hsplit] at hsum
  simp only [List.map_cons, List.map_append, List.sum_cons, List.sum_append] at hsum htotal ⊢
  omega

/-- Every step keeps the list. -/
theorem Inv.step (hi : Inv base s) (hstep : Step base s s') : Inv base s' := by
  cases hstep with
  | malloc hsbrk h hap =>
    obtain ⟨l, hok⟩ := hi.start
    rcases hok.malloc hsbrk with hends | ⟨b, h₁, l₁, hends, hok₁⟩
    · obtain ⟨rfl, rfl⟩ := Result.returns.inj (h.unique hends)
      exact absurd rfl hap
    · obtain ⟨rfl, rfl⟩ := Result.returns.inj (h.unique hends)
      refine .inr ⟨l₁, ?_⟩
      rw [Nat.add_sub_cancel, hok₁.header _ List.mem_cons_self]
      exact hok₁
  | malloc_fails hsbrk h =>
    obtain ⟨l, hok⟩ := hi.start
    rcases hok.malloc hsbrk with hends | ⟨b, h₁, l₁, hends, hok₁⟩
    · obtain ⟨-, rfl⟩ := Result.returns.inj (h.unique hends)
      exact .inr ⟨l, hok⟩
    · obtain ⟨heq, -⟩ := Result.returns.inj (h.unique hends)
      unfold HSIZE at heq
      omega
  | free h =>
    rcases hi with hb | ⟨l, hok⟩
    · have hnil := hb.used
      simp at hnil
    · obtain ⟨h₁, l₁, hends, hok₁⟩ := hok.free
      obtain ⟨-, rfl⟩ := Result.returns.inj (h.unique hends)
      exact .inr ⟨l₁, hok₁⟩
  | grow hbrk hsmall =>
    rcases hi with hb | ⟨l, hok⟩
    · exact .inl ⟨⟨hb.base_ne.1, Nat.le_trans hb.base_ne.2 hbrk⟩, hsmall, hb.freep, hb.obtained,
        hb.used⟩
    · refine .inr ⟨l, ⟨⟨hok.base_ne.1, Nat.le_trans hok.base_ne.2 hbrk⟩, hok.seg, hok.order,
        hok.freep, hok.nonempty, hok.header, hok.room, fun c hc => ?_, hok.apart, hok.disjoint,
        hsmall⟩, hok.total⟩
      have hin := hok.within c hc
      exact ⟨hin.1, Nat.le_trans hin.2 hbrk⟩
  | @store _ hdr hsame =>
    rcases hi with hb | ⟨l, hok⟩
    · exact .inl ⟨hb.base_ne, hb.small, hb.freep, hb.obtained, hb.used⟩
    · have hfree : ∀ c ∈ (base, 0) :: l, hdr.ptr c.1 = s.heap.hdr.ptr c.1 ∧
          hdr.size c.1 = s.heap.hdr.size c.1 := by
        intro c hc
        refine hsame c.1 fun a ha => ?_
        rcases List.mem_cons.1 hc with rfl | hc
        · have hin := hok.within a.block (.inr (List.mem_map_of_mem ha))
          exact .inl (Nat.le_trans (Nat.le_add_right base HSIZE) hin.1)
        · have hac := hok.disjoint a ha c hc
          unfold Apart at hac
          omega
      have hused : ∀ a ∈ s.used, hdr.size a.block.1 = s.heap.hdr.size a.block.1 := by
        intro a ha
        refine (hsame a.block.1 fun e he => ?_).2
        by_cases hae : e.block = a.block
        · exact .inl (Nat.le_of_eq (by rw [hae]))
        · have hap := hok.apart.forall (List.mem_map_of_mem he) (List.mem_map_of_mem ha) hae
          unfold Apart at hap
          omega
      refine .inr ⟨l, ⟨hok.base_ne, hok.seg.congr hfree, hok.order, hok.freep, hok.nonempty,
        fun a ha => (hused a ha).trans (hok.header a ha), hok.room, hok.within, hok.apart,
        hok.disjoint, hok.small⟩, hok.total⟩

theorem Reachable.inv (hr : Reachable base s) : Inv base s := by
  obtain ⟨s₀, hb, hrun⟩ := hr
  induction hrun with
  | refl => exact .inl hb
  | tail _ hstep ih => exact ih.step hstep

/-- Whatever calls a program makes of `malloc` and `free`, the list through
`freep` is one cycle from `base`, in the order of addresses and without
neighbours that touch; no block has a byte of another, each has room for the
request, and the units are those of `morecore`; and the calls end. -/
theorem allocator_ok (hr : Reachable base s) :
    (Boot base s ∨ ∃ l, Ok base s.heap s.used l) ∧
      (∀ sbrk nbytes, Fresh sbrk → ∃ ap h',
        Ends (fun fuel => malloc sbrk base nbytes fuel s.heap) (.returns ap h')) ∧
      ∀ a ∈ s.used, ∃ h',
        Ends (fun fuel => free fuel (a.block.1 + HSIZE) s.heap) (.returns () h') := by
  have hi := hr.inv
  refine ⟨hi, fun sbrk nbytes hsbrk => ?_, fun a ha => ?_⟩
  · obtain ⟨l, hok⟩ := hi.start
    rcases hok.malloc hsbrk with hends | ⟨b, h', -, hends, -⟩
    · exact ⟨0, _, hends⟩
    · exact ⟨b.1 + HSIZE, h', hends⟩
  · rcases hi with hb | ⟨l, hok⟩
    · rw [hb.used] at ha
      cases ha
    · obtain ⟨A, C, hused⟩ := List.append_of_mem ha
      rw [hused] at hok
      obtain ⟨h', -, hends, -⟩ := hok.free
      exact ⟨h', hends⟩

/-- A program of two pages, whose `base` is in the second. -/
def twoPages : Program where
  heap := { hdr := ⟨fun _ => 0, fun _ => 0⟩, freep := 0, brk := 8192, obtained := 0 }
  used := []

theorem twoPages_boot : Boot 4096 twoPages :=
  ⟨by decide, by decide, rfl, rfl, rfl⟩

/-- An `sbrk` that has 2^27 bytes. -/
def plenty : Sbrk := fun n brk => if brk + n < 2 ^ 27 then .gives brk (brk + n) else .fails

theorem plenty_fresh : Fresh plenty := by
  intro n brk
  unfold plenty
  split
  · refine ⟨nofun, fun p brk' h => ?_⟩
    obtain ⟨rfl, rfl⟩ := Answer.gives.inj h
    unfold HSIZE
    omega
  · exact ⟨nofun, nofun⟩

/-- The heap that a call leaves. -/
def Result.heap {α : Type} (h : Heap) : Result α → Heap
  | .returns _ h' => h'
  | _ => h

/-- The heap after `malloc(1)`. -/
def firstHeap : Heap := (malloc plenty 4096 1 4 twoPages.heap).heap twoPages.heap

/-- The heap after `malloc(100)` too. -/
def secondHeap : Heap := (malloc plenty 4096 100 4 firstHeap).heap firstHeap

def firstBlock : Alloc := ⟨(73696, firstHeap.hdr.size 73696), 1⟩

def secondBlock : Alloc := ⟨(73568, secondHeap.hdr.size 73568), 100⟩

/-- The first block has been given back. -/
def afterFree : Program := ⟨(free 4 73712 secondHeap).heap secondHeap, [secondBlock]⟩

/-- Four iterations are enough for each loop. -/
theorem ends_of_four {α : Type} {f : Nat → Result α} {r : Result α} (h : ∀ k, f (k + 4) = r) :
    Ends f r := ⟨4, fun fuel hfuel => by
  obtain ⟨k, rfl⟩ := Nat.exists_eq_add_of_le' hfuel
  exact h k⟩

theorem firstHeap_ends :
    Ends (fun fuel => malloc plenty 4096 1 fuel twoPages.heap) (.returns 73712 firstHeap) :=
  ends_of_four fun _ => rfl

theorem secondHeap_ends :
    Ends (fun fuel => malloc plenty 4096 100 fuel firstHeap) (.returns 73584 secondHeap) :=
  ends_of_four fun _ => rfl

theorem afterFree_ends :
    Ends (fun fuel => free fuel 73712 secondHeap) (.returns () afterFree.heap) :=
  ends_of_four fun _ => rfl

theorem afterFree_reachable : Reachable 4096 afterFree := by
  refine ⟨twoPages, twoPages_boot, ?_⟩
  have hfirst : Step 4096 twoPages ⟨firstHeap, [firstBlock]⟩ :=
    .malloc plenty_fresh firstHeap_ends (Nat.succ_ne_zero 73711)
  have hsecond : Step 4096 ⟨firstHeap, [firstBlock]⟩ ⟨secondHeap, [secondBlock, firstBlock]⟩ :=
    .malloc plenty_fresh secondHeap_ends (Nat.succ_ne_zero 73583)
  have hfree : Step 4096 ⟨secondHeap, [secondBlock] ++ firstBlock :: []⟩ afterFree :=
    .free afterFree_ends
  exact ((Relation.ReflTransGen.single hfirst).tail hsecond).tail hfree

theorem allocator_ok_afterFree : Reachable 4096 afterFree ∧ afterFree.used.length = 1 ∧
    ∃ ap h', Ends (fun fuel => malloc plenty 4096 1 fuel afterFree.heap) (.returns ap h') :=
  ⟨afterFree_reachable, rfl, (allocator_ok afterFree_reachable).2.1 plenty 1 plenty_fresh⟩

end Xv6.Umalloc
