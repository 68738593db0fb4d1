/-
The buffer cache is one ring, in the order of the last releases, with one
buffer for a block and exact reference counts.
-/
import Xv6.BufferCache
import Xv6.Lib.Count

namespace Xv6.BufferCache

open Conc

/-- Between `acquire(&bcache.lock)` and its release in `bget`. -/
def PC.locked {n : Nat} : PC n → Bool
  | .lookup .. | .recycle .. => true
  | _ => false

/-- Waiting for a buffer's lock. -/
def PC.waits {n : Nat} (b : Fin n) : PC n → Bool
  | .acquire _ _ b' => b' = b
  | _ => false

namespace State

variable {P : Type} {n : Nat} {B : Type} [DecidableEq P]

/-- The process has the buffer from `bread`, and has not finished its
`brelse`. -/
def Holds (s : State P n B) (p : P) (b : Fin n) : Prop := s.lock b = some p ∨ s.pc p = .release b

instance (s : State P n B) (p : P) (b : Fin n) : Decidable (s.Holds p b) := by
  unfold Holds
  infer_instance

section

variable [Fintype P]

def holders (s : State P n B) (b : Fin n) : Nat := (Finset.univ.filter fun p => s.Holds p b).card

def waiters (s : State P n B) (b : Fin n) : Nat :=
  (Finset.univ.filter fun p => (s.pc p).waits b).card

end

/-- How often a process counts in `refcnt`. -/
def uses (s : State P n B) (p : P) (b : Fin n) : Nat :=
  (if s.Holds p b then 1 else 0) + if (s.pc p).waits b then 1 else 0

/-- If `c` was ever released, `b` was released after it. -/
def Later (s : State P n B) (b c : Fin n) : Prop :=
  ∀ t, s.last c = some t → ∃ t', s.last b = some t' ∧ t < t'

/-- Buffer `b` is assigned to a block. -/
def Caches (s : State P n B) (b : Fin n) (dev blockno : Nat) : Prop :=
  s.dev b = dev ∧ s.blockno b = blockno

/-- What a process knows of the ring `l`. -/
def At (s : State P n B) (l : List (Fin n)) (p : P) : PC n → Prop
  | .user => True
  | .lookup dev blockno b =>
    ∃ l₁ l₂, l = l₁ ++ l₂ ∧ b = l₂.head? ∧ ∀ c ∈ l₁, ¬ s.Caches c dev blockno
  | .recycle dev blockno b => (∀ c, ¬ s.Caches c dev blockno) ∧
    ∃ l₁ l₂, l = l₁ ++ l₂ ∧ b = l₁.getLast? ∧ ∀ c ∈ l₂, s.refcnt c ≠ 0
  | .acquire dev blockno b => s.Caches b dev blockno
  | .read dev blockno b => s.Caches b dev blockno ∧ s.lock b = some p
  | .release b => s.lock b ≠ some p

end State

variable {P : Type} {n : Nat} {B : Type} [DecidableEq P] [Fintype P] {s s' : State P n B}
  {l : List (Fin n)} {p q : P} {b c : Fin n}

/-- The cache, with the buffers in the order of `l`. -/
structure Inv (s : State P n B) (l : List (Fin n)) : Prop where
  ring : s.links.Ring l
  all : ∀ b, b ∈ l
  keys : ∀ b c, s.Caches c (s.dev b) (s.blockno b) → 1 ≤ s.dev b → b = c
  count : ∀ b, s.refcnt b = s.holders b + s.waiters b + s.pins b
  order : l.Pairwise fun b c => s.refcnt b = 0 → s.refcnt c = 0 → s.Later b c
  clock : ∀ b t, s.last b = some t → t < s.clock
  lock : ∀ p, s.bcacheLock = some p ↔ (s.pc p).locked
  at' : ∀ p, s.At l p (s.pc p)

/-! ## Counting -/

/-- A count in a step of process `p`. -/
theorem recount (hc : s.refcnt b = s.holders b + s.waiters b + s.pins b)
    (hpc : ∀ q, q ≠ p → s'.pc q = s.pc q)
    (hl : ∀ q, q ≠ p → (s'.lock b = some q ↔ s.lock b = some q))
    (hu : s'.refcnt b + s.uses p b + s.pins b = s.refcnt b + s'.uses p b + s'.pins b) :
    s'.refcnt b = s'.holders b + s'.waiters b + s'.pins b := by
  have hh : s'.holders b + (if s.Holds p b then 1 else 0) =
      s.holders b + if s'.Holds p b then 1 else 0 := by
    have hq : ∀ q, q ≠ p → (s'.Holds q b ↔ s.Holds q b) := fun q hq => by
      rw [State.Holds, State.Holds, hpc q hq]
      exact or_congr (hl q hq) .rfl
    exact card_filter_change hq
  have hq : ∀ q, q ≠ p → ((s'.pc q).waits b = true ↔ (s.pc q).waits b = true) := fun q hq => by
    rw [hpc q hq]
  have hw : s'.waiters b + (if (s.pc p).waits b then 1 else 0) =
      s.waiters b + if (s'.pc p).waits b then 1 else 0 := card_filter_change hq
  simp only [State.uses] at hu
  omega

omit [Fintype P] in
/-- In `bget`'s section a process counts where it holds the lock. -/
theorem uses_locked (hp : (s.pc p).locked) : s.uses p b = if s.lock b = some p then 1 else 0 := by
  have hr : s.pc p ≠ .release b := fun he => nomatch (he ▸ hp : (PC.release b).locked = true)
  have hw : (s.pc p).waits b = false := by
    cases hs : s.pc p <;> first | rfl | exact nomatch (hs ▸ hp)
  simp [State.uses, State.Holds, hr, hw]

omit [Fintype P] in
theorem goto_of_ne {k : PC n} (h : q ≠ p) : (s.goto p k).pc q = s.pc q := by simp [State.goto, h]

omit [Fintype P] in
@[simp] theorem goto_self {k : PC n} : (s.goto p k).pc p = k := by simp [State.goto]

/-- A buffer that a process holds or waits for has a reference. -/
theorem Inv.referenced (h : Inv s l) (hp : s.Holds p b ∨ (s.pc p).waits b) : s.refcnt b ≠ 0 := by
  rw [h.count b]
  rcases hp with hp | hp
  · have hpos : 0 < s.holders b := Finset.card_pos.2 ⟨p, by simpa using hp⟩
    omega
  · have hpos : 0 < s.waiters b := Finset.card_pos.2 ⟨p, by simpa using hp⟩
    omega

/-! ## Steps that keep the counts -/

theorem Inv.data {data : Fin n → B} {valid : Fin n → Bool} {disk : Nat → B} (h : Inv s l) :
    Inv { s with data := data, valid := valid, disk := disk } l where
  ring := h.ring
  all := h.all
  keys := h.keys
  count := h.count
  order := h.order
  clock := h.clock
  lock := h.lock
  at' p := by
    have hp := h.at' p
    dsimp only
    cases hk : s.pc p <;> rw [hk] at hp <;> exact hp

/-- Process `p` goes to `k`, and `lock` says who holds `bcache.lock` then. -/
theorem Inv.move {lock : Option P} {k : PC n} (h : Inv s l) (hl : lock = some p ↔ k.locked)
    (ho : ∀ q, q ≠ p → (lock = some q ↔ s.bcacheLock = some q)) (hk : s.At l p k)
    (hw : ∀ b, k.waits b = (s.pc p).waits b) (hr : ∀ b, k = .release b ↔ s.pc p = .release b) :
    Inv ({ s with bcacheLock := lock }.goto p k) l where
  ring := h.ring
  all := h.all
  keys := h.keys
  count b := by
    refine recount (h.count b) (fun q hq => goto_of_ne hq) (fun _ _ => .rfl) ?_
    have hu : ({ s with bcacheLock := lock }.goto p k).uses p b = s.uses p b := by
      simp only [State.uses, State.Holds, goto_self, hr, hw]
      rfl
    rw [hu]
    rfl
  order := h.order
  clock := h.clock
  lock q := by
    by_cases hq : q = p
    · rw [hq, goto_self]
      exact hl
    · rw [goto_of_ne hq]
      exact (ho q hq).trans (h.lock q)
  at' q := by
    by_cases hq : q = p
    · rw [hq, goto_self]
      cases k <;> exact hk
    · rw [goto_of_ne hq]
      have hat := h.at' q
      dsimp only
      cases hk : s.pc q <;> rw [hk] at hat <;> exact hat

/-- While `p` is in `bget`, with `bcache.lock`. -/
theorem Inv.goto {k : PC n} (h : Inv s l) (hp : (s.pc p).locked) (hk : k.locked)
    (hat : s.At l p k) : Inv (s.goto p k) l := by
  show Inv ({ s with bcacheLock := s.bcacheLock }.goto p k) l
  refine h.move ((h.lock p).trans (iff_of_true hp hk)) (fun _ _ => .rfl) hat (fun b => ?_)
    fun b => ?_
  · cases hs : s.pc p <;> cases k <;> simp_all [PC.locked, PC.waits]
  · cases hs : s.pc p <;> cases k <;> simp_all [PC.locked]

theorem Inv.bread {dev blockno : Nat} (h : Inv s l) (hp : s.pc p = .user)
    (hl : s.bcacheLock = none) :
    Inv ({ s with bcacheLock := some p }.goto p (.lookup dev blockno (s.links.next none))) l := by
  refine h.move (by simp [PC.locked]) (fun q hq => by simp [hl, Ne.symm hq])
    ⟨[], l, rfl, h.ring.next_none, nofun⟩ (fun b => by rw [hp]; rfl) fun b => by simp [hp]

theorem Inv.lookupNext {dev blockno : Nat} (h : Inv s l)
    (hp : s.pc p = .lookup dev blockno (some b)) (hb : ¬ s.Caches b dev blockno) :
    Inv (s.goto p (.lookup dev blockno (s.links.next (some b)))) l := by
  refine h.goto (by rw [hp]; rfl) rfl ?_
  obtain ⟨l₁, l₂, hl, hhead, hl₁⟩ : s.At l p (.lookup dev blockno (some b)) := hp ▸ h.at' p
  obtain ⟨l₂, rfl⟩ : ∃ l', l₂ = b :: l' := by
    cases l₂ with
    | nil => cases hhead
    | cons a l' => exact ⟨l', by rw [Option.some.inj hhead]⟩
  refine ⟨l₁ ++ [b], l₂, by simpa using hl, h.ring.next_some l₁ b l₂ hl, fun c hc => ?_⟩
  rcases List.mem_append.1 hc with hc | hc
  · exact hl₁ c hc
  · rwa [List.mem_singleton.1 hc]

theorem Inv.lookupDone {dev blockno : Nat} (h : Inv s l)
    (hp : s.pc p = .lookup dev blockno none) :
    Inv (s.goto p (.recycle dev blockno (s.links.prev none))) l := by
  refine h.goto (by rw [hp]; rfl) rfl ⟨fun c => ?_, l, [], by simp, h.ring.prev_none, nofun⟩
  obtain ⟨l₁, l₂, hl, hhead, hl₁⟩ : s.At l p (.lookup dev blockno none) := hp ▸ h.at' p
  obtain rfl := List.head?_eq_none_iff.1 hhead.symm
  have hc : c ∈ l₁ ++ [] := hl ▸ h.all c
  exact hl₁ c (by simpa using hc)

theorem Inv.recycleNext {dev blockno : Nat} (h : Inv s l)
    (hp : s.pc p = .recycle dev blockno (some b)) (hb : s.refcnt b ≠ 0) :
    Inv (s.goto p (.recycle dev blockno (s.links.prev (some b)))) l := by
  refine h.goto (by rw [hp]; rfl) rfl ?_
  obtain ⟨hno, l₁, l₂, hl, hlast, hl₂⟩ : s.At l p (.recycle dev blockno (some b)) := hp ▸ h.at' p
  obtain ⟨l₁, rfl⟩ : ∃ l', l₁ = l' ++ [b] := by
    rcases List.eq_nil_or_concat l₁ with rfl | ⟨l', a, rfl⟩
    · cases hlast
    · refine ⟨l', ?_⟩
      have hab : b = a := by simpa using hlast
      rw [hab, List.concat_eq_append]
  rw [List.append_assoc] at hl
  refine ⟨hno, l₁, b :: l₂, hl, h.ring.prev_some l₁ b l₂ hl, fun c hc => ?_⟩
  rcases List.mem_cons.1 hc with rfl | hc
  · exact hb
  · exact hl₂ c hc

/-- `bread` returns. -/
theorem Inv.filled {dev blockno : Nat} (h : Inv s l) (hp : s.pc p = .read dev blockno b) :
    Inv ((if s.valid b then s else s.fill b).goto p .user) l := by
  have hgo : ∀ {s' : State P n B}, Inv s' l → s'.pc p = .read dev blockno b →
      Inv (s'.goto p .user) l := fun {s'} h' hp' => by
    show Inv ({ s' with bcacheLock := s'.bcacheLock }.goto p .user) l
    refine h'.move ((h'.lock p).trans (by rw [hp']; exact ⟨nofun, nofun⟩)) (fun _ _ => .rfl) trivial
      (fun b => by rw [hp']; rfl) fun b => by rw [hp']; exact ⟨nofun, nofun⟩
  split
  · exact hgo h hp
  · exact hgo h.data hp

/-! ## Steps that change a count -/

omit [DecidableEq P] [Fintype P] in
/-- What a process outside `bget` knows does not depend on the ring. -/
theorem State.At.congr {l' : List (Fin n)} {k : PC n} (h : s.At l q k) (hk : k.locked = false)
    (hd : ∀ b, k.waits b ∨ s.Holds q b → ∀ d m, s.Caches b d m → s'.Caches b d m)
    (hl : ∀ b, s'.lock b = some q ↔ s.lock b = some q) : s'.At l' q k := by
  cases k with
  | user => trivial
  | lookup | recycle => cases hk
  | acquire d m b => exact hd b (.inl (by simp [PC.waits])) d m h
  | read d m b => exact ⟨hd b (.inr (.inl h.2)) d m h.1, (hl b).2 h.2⟩
  | release b => exact fun hb => h ((hl b).1 hb)

omit [DecidableEq P] [Fintype P] in
/-- Nor does what it knows depend on locks that it neither takes nor gives
up. -/
theorem State.At.lock {k : PC n} (h : s.At l q k) (hd : s'.dev = s.dev)
    (hb : s'.blockno = s.blockno) (hr : s'.refcnt = s.refcnt)
    (hl : ∀ b, s'.lock b = some q ↔ s.lock b = some q) : s'.At l q k := by
  cases k with
  | user => trivial
  | lookup | recycle | acquire =>
    simp only [State.At, State.Caches, hd, hb, hr]
    exact h
  | read d m b =>
    simp only [State.At, State.Caches, hd, hb, hl]
    exact h
  | release b => exact fun hb => h ((hl b).1 hb)

theorem Inv.unlocked (h : Inv s l) (hl : s.bcacheLock = none) (q : P) :
    (s.pc q).locked = false := by
  by_contra hn
  exact nomatch hl.symm.trans ((h.lock q).2 (by simpa using hn))

theorem Inv.alone (h : Inv s l) (hp : (s.pc p).locked) (hq : q ≠ p) :
    (s.pc q).locked = false := by
  by_contra hn
  have hl := ((h.lock p).2 hp).symm.trans ((h.lock q).2 (by simpa using hn))
  exact hq (Option.some.inj hl).symm

/-- A step that keeps the ring, and takes no reference to zero. -/
theorem Inv.change (h : Inv s l) (hlinks : s'.links = s.links) (hlast : s'.last = s.last)
    (hclock : s'.clock = s.clock) (h0 : ∀ b, s'.refcnt b = 0 → s.refcnt b = 0)
    (hkeys : ∀ b c, s'.Caches c (s'.dev b) (s'.blockno b) → 1 ≤ s'.dev b → b = c)
    (hcount : ∀ b, s'.refcnt b = s'.holders b + s'.waiters b + s'.pins b)
    (hlock : ∀ p, s'.bcacheLock = some p ↔ (s'.pc p).locked) (hat : ∀ p, s'.At l p (s'.pc p)) :
    Inv s' l where
  ring := hlinks ▸ h.ring
  all := h.all
  keys := hkeys
  count := hcount
  order := h.order.imp fun {b c} hbc hb hc => by
    rw [State.Later, hlast]
    exact hbc (h0 b hb) (h0 c hc)
  clock b t := by
    rw [hlast, hclock]
    exact h.clock b t
  lock := hlock
  at' := hat

/-- Process `p` leaves `bget`'s section and waits for buffer `b`, which has got
a reference. -/
theorem Inv.wait {dev blockno : Nat} (h : Inv s l) (hp : (s.pc p).locked)
    (hlinks : s'.links = s.links) (hlast : s'.last = s.last) (hclock : s'.clock = s.clock)
    (hkeys : ∀ b c, s'.Caches c (s'.dev b) (s'.blockno b) → 1 ≤ s'.dev b → b = c)
    (hkept : ∀ c, s.refcnt c ≠ 0 → ∀ d m, s.Caches c d m → s'.Caches c d m)
    (href : s'.refcnt = Function.update s.refcnt b (s.refcnt b + 1)) (hpins : s'.pins = s.pins)
    (hl : s'.lock = s.lock) (hnone : s'.bcacheLock = none)
    (hpc : s'.pc = Function.update s.pc p (.acquire dev blockno b))
    (hb : s'.Caches b dev blockno) : Inv s' l := by
  have hpp : s'.pc p = .acquire dev blockno b := by rw [hpc, Function.update_self]
  have hpq : ∀ q, q ≠ p → s'.pc q = s.pc q := fun q hq => by rw [hpc, Function.update_of_ne hq]
  refine h.change hlinks hlast hclock (fun c hc => ?_) hkeys (fun c => ?_) (fun q => ?_) fun q => ?_
  · by_cases hcb : c = b
    · rw [hcb, href, Function.update_self] at hc
      cases hc
    · rwa [href, Function.update_of_ne hcb] at hc
  · refine recount (h.count c) hpq (fun q _ => by rw [hl]) ?_
    have hold : s.uses p c + (if b = c then 1 else 0) = s'.uses p c := by
      rw [uses_locked hp]
      simp [State.uses, State.Holds, hl, hpp, PC.waits]
    rw [hpins, ← hold, href]
    by_cases hcb : c = b
    · subst hcb
      rw [Function.update_self, if_pos rfl]
      omega
    · rw [Function.update_of_ne hcb, if_neg (Ne.symm hcb)]
      omega
  · rw [hnone]
    by_cases hq : q = p
    · rw [hq, hpp]
      exact ⟨nofun, nofun⟩
    · rw [hpq q hq, h.alone hp hq]
      exact ⟨nofun, nofun⟩
  · by_cases hq : q = p
    · rw [hq, hpp]
      exact hb
    · rw [hpq q hq]
      exact (h.at' q).congr (h.alone hp hq)
        (fun c hc => hkept c (h.referenced (hc.symm))) fun c => by rw [hl]

/-- `b->refcnt++` and `release(&bcache.lock)` in `bget` -/
theorem Inv.lookupFound {dev blockno : Nat} (h : Inv s l)
    (hp : s.pc p = .lookup dev blockno (some b)) (hb : s.Caches b dev blockno) :
    Inv ((s.ref b).unlock.goto p (.acquire dev blockno b)) l :=
  h.wait (by rw [hp]; rfl) rfl rfl rfl h.keys (fun _ _ _ _ hc => hc) rfl rfl rfl rfl rfl hb

/-- `bget` takes an unused buffer. -/
theorem Inv.recycleFound {dev blockno : Nat} (h : Inv s l)
    (hp : s.pc p = .recycle dev blockno (some b)) (hb : s.refcnt b = 0) :
    Inv ((s.assign b dev blockno).unlock.goto p (.acquire dev blockno b)) l := by
  have hno : ∀ c, ¬ s.Caches c dev blockno := (hp ▸ h.at' p : s.At l p (.recycle ..)).1
  have hother : ∀ c, c ≠ b → ∀ d m, s.Caches c d m ↔ (s.assign b dev blockno).Caches c d m := by
    intro c hc d m
    simp [State.Caches, State.assign, hc]
  have hself : (s.assign b dev blockno).Caches b dev blockno := by
    simp [State.Caches, State.assign]
  refine h.wait (by rw [hp]; rfl) rfl rfl rfl ?_ (fun c hc d m => (hother c ?_ d m).1)
    (by rw [hb]; rfl) rfl rfl rfl rfl hself
  · show ∀ c c', (s.assign b dev blockno).Caches c' ((s.assign b dev blockno).dev c)
      ((s.assign b dev blockno).blockno c) → 1 ≤ (s.assign b dev blockno).dev c → c = c'
    intro c c' hc h1
    by_cases hcb : c = b
    · rw [hcb, hself.1, hself.2] at hc
      by_contra hne
      exact hno c' ((hother c' (fun he => hne (hcb.trans he.symm)) dev blockno).2 hc)
    · have hcd : (s.assign b dev blockno).dev c = s.dev c := Function.update_of_ne hcb ..
      have hcn : (s.assign b dev blockno).blockno c = s.blockno c := Function.update_of_ne hcb ..
      rw [hcd, hcn] at hc
      rw [hcd] at h1
      by_cases hcb' : c' = b
      · rw [hcb'] at hc
        exact absurd ⟨hc.1.symm.trans hself.1, hc.2.symm.trans hself.2⟩ (hno c)
      · exact h.keys c c' ((hother c' hcb' _ _).2 hc) h1
  · rintro rfl
    exact hc hb

/-- `acquiresleep(&b->lock)` -/
theorem Inv.acquire {dev blockno : Nat} (h : Inv s l) (hp : s.pc p = .acquire dev blockno b)
    (hb : s.lock b = none) : Inv ((s.acquiresleep p b).goto p (.read dev blockno b)) l := by
  have hlb : (s.acquiresleep p b).lock b = some p := Function.update_self ..
  have hlc : ∀ c, c ≠ b → (s.acquiresleep p b).lock c = s.lock c := fun c hc =>
    Function.update_of_ne hc ..
  have hlq : ∀ q, q ≠ p → ∀ c, (s.acquiresleep p b).lock c = some q ↔ s.lock c = some q := by
    intro q hq c
    by_cases hc : c = b
    · rw [hc, hlb, hb]
      simp [Ne.symm hq]
    · rw [hlc c hc]
  refine h.change rfl rfl rfl (fun c hc => hc) h.keys (fun c => ?_) (fun q => ?_) fun q => ?_
  · refine recount (h.count c) (fun q hq => goto_of_ne hq) (fun q hq => hlq q hq c) ?_
    have hu : s.uses p c = ((s.acquiresleep p b).goto p (.read dev blockno b)).uses p c := by
      by_cases hc : c = b
      · subst hc
        simp [State.uses, State.Holds, hp, PC.waits, hb, State.goto, hlb]
      · simp [State.uses, State.Holds, hp, PC.waits, State.goto, hlc c hc, Ne.symm hc]
    rw [hu]
    rfl
  · by_cases hq : q = p
    · have hl := h.lock p
      rw [hp] at hl
      rw [hq, goto_self]
      exact hl
    · rw [goto_of_ne hq]
      exact h.lock q
  · by_cases hq : q = p
    · rw [hq, goto_self]
      exact ⟨(hp ▸ h.at' p : s.At l p (.acquire ..)), hlb⟩
    · rw [goto_of_ne hq]
      exact (h.at' q).lock rfl rfl rfl (hlq q hq)

/-- `releasesleep(&b->lock)` in `brelse` -/
theorem Inv.brelse (h : Inv s l) (hp : s.pc p = .user) (hb : s.lock b = some p) :
    Inv ((s.releasesleep b).goto p (.release b)) l := by
  have hlb : (s.releasesleep b).lock b = none := Function.update_self ..
  have hlc : ∀ c, c ≠ b → (s.releasesleep b).lock c = s.lock c := fun c hc =>
    Function.update_of_ne hc ..
  have hlq : ∀ q, q ≠ p → ∀ c, (s.releasesleep b).lock c = some q ↔ s.lock c = some q := by
    intro q hq c
    by_cases hc : c = b
    · rw [hc, hlb, hb]
      simp [Ne.symm hq]
    · rw [hlc c hc]
  refine h.change rfl rfl rfl (fun c hc => hc) h.keys (fun c => ?_) (fun q => ?_) fun q => ?_
  · refine recount (h.count c) (fun q hq => goto_of_ne hq) (fun q hq => hlq q hq c) ?_
    have hu : s.uses p c = ((s.releasesleep b).goto p (.release b)).uses p c := by
      by_cases hc : c = b
      · subst hc
        simp [State.uses, State.Holds, hp, PC.waits, hb, State.goto]
      · simp [State.uses, State.Holds, hp, PC.waits, State.goto, hlc c hc, Ne.symm hc]
    rw [hu]
    rfl
  · by_cases hq : q = p
    · have hl := h.lock p
      rw [hp] at hl
      rw [hq, goto_self]
      exact hl
    · rw [goto_of_ne hq]
      exact h.lock q
  · by_cases hq : q = p
    · rw [hq, goto_self]
      exact fun he => nomatch hlb.symm.trans he
    · rw [goto_of_ne hq]
      exact (h.at' q).lock rfl rfl rfl (hlq q hq)

/-- `bpin`, and `bunpin` by the holder. -/
theorem Inv.pin {r k : Nat} (h : Inv s l) (hl : s.bcacheLock = none)
    (hr : r + s.pins b = s.refcnt b + k) (h0 : r = 0 → s.refcnt b = 0) :
    Inv { s with
      refcnt := Function.update s.refcnt b r
      pins := Function.update s.pins b k } l := by
  refine h.change rfl rfl rfl (fun c hc => ?_) h.keys (fun c => ?_) h.lock fun q => ?_
  · by_cases hcb : c = b
    · subst hcb
      simp only [Function.update_self] at hc
      exact h0 hc
    · simpa only [Function.update_of_ne hcb] using hc
  · have hc := h.count c
    show Function.update s.refcnt b r c = s.holders c + s.waiters c + Function.update s.pins b k c
    by_cases hcb : c = b
    · subst hcb
      simp only [Function.update_self]
      omega
    · simp only [Function.update_of_ne hcb]
      exact hc
  · exact (h.at' q).congr (h.unlocked hl q) (fun _ _ _ _ hc => hc) fun _ => .rfl

/-! ## brelse -/

/-- The process has given up its reference. -/
theorem Inv.unref_count (h : Inv s l) (hp : s.pc p = .release b) (c : Fin n) :
    (s.unref b).refcnt c = ((s.unref b).goto p .user).holders c +
      ((s.unref b).goto p .user).waiters c + s.pins c := by
  have hlock : s.lock b ≠ some p := (hp ▸ h.at' p : s.At l p (.release b))
  have hone : s.refcnt b ≠ 0 := h.referenced (p := p) (.inl (.inr hp))
  have hc : (s.unref b).refcnt c + s.uses p c + s.pins c =
      s.refcnt c + ((s.unref b).goto p .user).uses p c + s.pins c := by
    by_cases hcb : c = b
    · subst hcb
      have h1 : s.uses p c = 1 := by simp [State.uses, State.Holds, hp, PC.waits]
      have h0 : ((s.unref c).goto p .user).uses p c = 0 := by
        simp [State.uses, State.Holds, PC.waits, State.goto, State.unref, hlock]
      rw [h1, h0, show (s.unref c).refcnt c = s.refcnt c - 1 from Function.update_self ..]
      omega
    · have hu : s.uses p c = ((s.unref b).goto p .user).uses p c := by
        simp [State.uses, State.Holds, hp, PC.waits, State.goto, State.unref, Ne.symm hcb]
      rw [hu, show (s.unref b).refcnt c = s.refcnt c from Function.update_of_ne hcb ..]
  have hpc : ∀ q, q ≠ p → ((s.unref b).goto p .user).pc q = s.pc q := fun q hq => goto_of_ne hq
  exact recount (h.count c) hpc (fun _ _ => .rfl) hc

/-- A buffer that was released last goes to the front. -/
theorem Inv.released {l₁ l₂ : List (Fin n)} (h : Inv s (l₁ ++ b :: l₂)) :
    (b :: (l₁ ++ l₂)).Pairwise fun c c' => (s.unref b).refcnt c = 0 → (s.unref b).refcnt c' = 0 →
      (s.unref b).Later c c' := by
  have hnd : b ∉ l₁ ++ l₂ := fun hb => by
    have hn := h.ring.nodup
    rw [List.nodup_middle] at hn
    exact (List.nodup_cons.1 hn).1 hb
  have hne : ∀ c ∈ l₁ ++ l₂, c ≠ b := by
    rintro c hc rfl
    exact hnd hc
  refine List.pairwise_cons.2 ⟨fun c hc _ _ t ht => ⟨s.clock, Function.update_self .., ?_⟩, ?_⟩
  · rw [show (s.unref b).last c = s.last c from Function.update_of_ne (hne c hc) ..] at ht
    exact h.clock c t ht
  · refine (h.order.sublist (by simp)).imp_of_mem fun {c c'} hc hc' hcc h0 h0' => ?_
    rw [show (s.unref b).refcnt c = s.refcnt c from Function.update_of_ne (hne c hc) ..] at h0
    rw [show (s.unref b).refcnt c' = s.refcnt c' from Function.update_of_ne (hne c' hc') ..] at h0'
    rw [State.Later, show (s.unref b).last c = s.last c from Function.update_of_ne (hne c hc) ..,
      show (s.unref b).last c' = s.last c' from Function.update_of_ne (hne c' hc') ..]
    exact hcc h0 h0'

/-- A buffer that still has a reference stays where it is. -/
theorem Inv.order_unref (h : Inv s l) (hb : (s.unref b).refcnt b ≠ 0) :
    l.Pairwise fun c c' => (s.unref b).refcnt c = 0 → (s.unref b).refcnt c' = 0 →
      (s.unref b).Later c c' := by
  refine h.order.imp fun {c c'} hcc h0 h0' => ?_
  have hne : ∀ {c}, (s.unref b).refcnt c = 0 → c ≠ b := by
    rintro c hc rfl
    exact hb hc
  have hc := hne h0
  have hc' := hne h0'
  rw [show (s.unref b).refcnt c = s.refcnt c from Function.update_of_ne hc ..] at h0
  rw [show (s.unref b).refcnt c' = s.refcnt c' from Function.update_of_ne hc' ..] at h0'
  rw [State.Later, show (s.unref b).last c = s.last c from Function.update_of_ne hc ..,
    show (s.unref b).last c' = s.last c' from Function.update_of_ne hc' ..]
  exact hcc h0 h0'

theorem Inv.clock_unref (h : Inv s l) (c : Fin n) (t : Nat) (ht : (s.unref b).last c = some t) :
    t < s.clock + 1 := by
  by_cases hc : c = b
  · rw [hc, show (s.unref b).last b = some s.clock from Function.update_self ..] at ht
    obtain rfl := Option.some.inj ht
    omega
  · rw [show (s.unref b).last c = s.last c from Function.update_of_ne hc ..] at ht
    have hlt := h.clock c t ht
    omega

/-- The section of `brelse` under `bcache.lock`. -/
theorem Inv.drop (h : Inv s l) (hp : s.pc p = .release b) (hl : s.bcacheLock = none) :
    ∃ l', Inv ((s.drop b).goto p .user) l' := by
  have hlock : ∀ q, s.bcacheLock = some q ↔ (((s.unref b).goto p .user).pc q).locked := fun q => by
    by_cases hq : q = p
    · rw [hq, goto_self, hl]
      exact ⟨nofun, nofun⟩
    · rw [goto_of_ne hq]
      exact h.lock q
  have hat : ∀ l' q, ((s.unref b).goto p .user).At l' q (((s.unref b).goto p .user).pc q) :=
    fun l' q => by
      by_cases hq : q = p
      · rw [hq, goto_self]
        trivial
      · rw [goto_of_ne hq]
        exact (h.at' q).congr (h.unlocked hl q) (fun _ _ _ _ hc => hc) fun _ => .rfl
  unfold State.drop
  dsimp only
  split
  next hb =>
    obtain ⟨l₁, l₂, rfl⟩ := List.append_of_mem (h.all b)
    have hnd : b ∉ l₁ ++ l₂ := fun hb => by
      have hn := h.ring.nodup
      rw [List.nodup_middle] at hn
      exact (List.nodup_cons.1 hn).1 hb
    refine ⟨b :: (l₁ ++ l₂), h.ring.unlink.insertFront hnd, fun c => ?_, h.keys, h.unref_count hp,
      h.released, h.clock_unref, hlock, fun q => (hat _ q).lock rfl rfl rfl fun _ => .rfl⟩
    simpa [or_left_comm] using h.all c
  next hb =>
    exact ⟨l, h.ring, h.all, h.keys, h.unref_count hp, h.order_unref hb, h.clock_unref, hlock,
      hat l⟩

/-! ## Every step -/

theorem binit_ring (L : Links (Fin n)) : (binit L).Ring (List.finRange n).reverse := by
  have hfold : ∀ (bs l : List (Fin n)) (L : Links (Fin n)), L.Ring l → (bs ++ l).Nodup →
      (bs.foldl Links.insertFront L).Ring (bs.reverse ++ l) := by
    intro bs
    induction bs with
    | nil => exact fun l L hL _ => hL
    | cons b bs ih =>
      intro l L hL hnd
      obtain ⟨hb, hnd⟩ := List.nodup_cons.1 hnd
      have hbl : b ∉ l := fun hm => hb (List.mem_append_right _ hm)
      have hmid : (bs ++ b :: l).Nodup := List.nodup_middle.2 (List.nodup_cons.2 ⟨hb, hnd⟩)
      simpa using ih (b :: l) (L.insertFront b) (hL.insertFront hbl) hmid
  simpa [binit] using hfold (List.finRange n) [] L.empty .empty (by simpa using List.nodup_finRange n)

theorem Inv.initial (h : (machine P n B).init s) : ∃ l, Inv s l := by
  obtain ⟨⟨L, hL⟩, hb, hlock, hpc⟩ := h
  refine ⟨(List.finRange n).reverse, hL ▸ binit_ring L, by simp, fun b c _ h1 => ?_, fun b => ?_,
    List.pairwise_of_forall fun b c _ _ t ht => ?_, fun b t ht => ?_, fun p => ?_, fun p => ?_⟩
  · rw [(hb b).2.1] at h1
    omega
  · have hh : s.holders b = 0 := Finset.card_eq_zero.2 (by simp [State.Holds, hb, hpc])
    have hw : s.waiters b = 0 := Finset.card_eq_zero.2 (by simp [hpc, PC.waits])
    rw [hh, hw, (hb b).2.2.2.1, (hb b).2.2.2.2.2.1]
  · rw [(hb c).2.2.2.2.2.2] at ht
    cases ht
  · rw [(hb b).2.2.2.2.2.2] at ht
    cases ht
  · rw [hlock, hpc]
    exact ⟨nofun, nofun⟩
  · rw [hpc]
    trivial

theorem Inv.go (h : Inv s l) (hs : s.go p = some s') : ∃ l', Inv s' l' := by
  unfold State.go at hs
  split at hs
  next => cases hs
  next d m hp =>
    obtain rfl := Option.some.inj hs
    exact ⟨l, h.lookupDone hp⟩
  next d m b hp =>
    split at hs
    next hb =>
      obtain rfl := Option.some.inj hs
      exact ⟨l, h.lookupFound hp hb⟩
    next hb =>
      obtain rfl := Option.some.inj hs
      exact ⟨l, h.lookupNext hp hb⟩
  next => cases hs
  next d m b hp =>
    split at hs
    next hb =>
      obtain rfl := Option.some.inj hs
      exact ⟨l, h.recycleFound hp hb⟩
    next hb =>
      obtain rfl := Option.some.inj hs
      exact ⟨l, h.recycleNext hp hb⟩
  next d m b hp =>
    split at hs
    next hb =>
      obtain rfl := Option.some.inj hs
      exact ⟨l, h.acquire hp hb⟩
    next => cases hs
  next d m b hp =>
    obtain rfl := Option.some.inj hs
    exact ⟨l, h.filled hp⟩
  next b hp =>
    split at hs
    next hl =>
      obtain rfl := Option.some.inj hs
      exact h.drop hp hl
    next => cases hs

theorem Inv.call {e : Event P n B} (h : Inv s l) (hp : s.pc p = .user)
    (hs : s.call p e = some s') : Inv s' l := by
  cases e with
  | go => cases hs
  | bread _ d m =>
    simp only [State.call] at hs
    split at hs
    next hl =>
      obtain rfl := Option.some.inj hs
      exact h.bread hp hl
    next => cases hs
  | modify | bwrite =>
    simp only [State.call] at hs
    split at hs
    next =>
      obtain rfl := Option.some.inj hs
      exact h.data
    next => cases hs
  | brelse _ b =>
    simp only [State.call] at hs
    split at hs
    next hb =>
      obtain rfl := Option.some.inj hs
      exact h.brelse hp hb
    next => cases hs
  | bpin _ b =>
    simp only [State.call] at hs
    split at hs
    next hl =>
      obtain rfl := Option.some.inj hs
      exact h.pin hl (by omega) nofun
    next => cases hs
  | bunpin _ b =>
    simp only [State.call] at hs
    split at hs
    next hl =>
      obtain rfl := Option.some.inj hs
      obtain ⟨hl, hb, hpin⟩ := hl
      have hcount := h.count b
      have hpos : 0 < s.holders b := Finset.card_pos.2 ⟨p, by simp [State.Holds, hb]⟩
      exact h.pin hl (by omega) (by omega)
    next => cases hs

theorem Inv.next {e : Event P n B} (h : Inv s l) (hs : (machine P n B).next s e = some s') :
    ∃ l', Inv s' l' := by
  have hcall : ∀ e : Event P n B, (if s.pc e.process = .user then s.call e.process e else none) =
      some s' → ∃ l', Inv s' l' := fun e he => by
    split at he
    next hp => exact ⟨l, h.call hp he⟩
    next => cases he
  cases e with
  | go p => exact h.go hs
  | _ => exact hcall _ hs

theorem Inv.reachable (h : (machine P n B).Reachable s) : ∃ l, Inv s l :=
  h.invariant (I := fun s => ∃ l, Inv s l) (fun _ hi => Inv.initial hi)
    fun _ _ _ ⟨_, hi⟩ hn => hi.next hn

/-! ## The buffer that bget takes -/

/-- `bget` takes the unused buffer that was released first, or was never
released. -/
theorem Inv.leastRecent {dev blockno : Nat} (h : Inv s l)
    (hp : s.pc p = .recycle dev blockno (some b)) (hc : s.refcnt c = 0) (hcb : c ≠ b)
    (hb : s.refcnt b = 0) : s.Later c b := by
  obtain ⟨-, l₁, l₂, hl, hlast, hl₂⟩ : s.At l p (.recycle dev blockno (some b)) := hp ▸ h.at' p
  obtain ⟨l₁, rfl⟩ : ∃ l', l₁ = l' ++ [b] := by
    rcases List.eq_nil_or_concat l₁ with rfl | ⟨l', a, rfl⟩
    · cases hlast
    · refine ⟨l', ?_⟩
      have hab : b = a := by simpa using hlast
      rw [hab, List.concat_eq_append]
  rw [List.append_assoc] at hl
  have hmem : c ∈ l₁ := by
    have hall := hl ▸ h.all c
    rcases List.mem_append.1 hall with hm | hm
    · exact hm
    · rcases List.mem_cons.1 hm with rfl | hm
      · exact absurd rfl hcb
      · exact absurd hc (hl₂ c hm)
  have horder := hl ▸ h.order
  exact (List.pairwise_append.1 horder).2.2 c hmem b (by simp) hc hb

omit [Fintype P] in
/-- Only `bget` takes a buffer from its block. -/
theorem caches_next {e : Event P n B} (hs : (machine P n B).next s e = some s') (b : Fin n) :
    s'.Caches b (s.dev b) (s.blockno b) ∨
      ∃ p d m, s.pc p = .recycle d m (some b) ∧ s.refcnt b = 0 := by
  have hcall : ∀ e : Event P n B, (if s.pc e.process = .user then s.call e.process e else none) =
      some s' → s'.Caches b (s.dev b) (s.blockno b) := fun e he => by
    split at he
    next =>
      cases e <;> simp only [State.call] at he
      case go => cases he
      all_goals
        split at he
        next =>
          obtain rfl := Option.some.inj he
          exact ⟨rfl, rfl⟩
        next => cases he
    next => cases he
  cases e with
  | go p =>
    have hgo : s.go p = some s' := hs
    unfold State.go at hgo
    split at hgo
    next => cases hgo
    next =>
      obtain rfl := Option.some.inj hgo
      exact .inl ⟨rfl, rfl⟩
    next =>
      split at hgo <;> obtain rfl := Option.some.inj hgo <;> exact .inl ⟨rfl, rfl⟩
    next => cases hgo
    next d m b' hp =>
      split at hgo
      next hb =>
        obtain rfl := Option.some.inj hgo
        by_cases hbb : b = b'
        · subst hbb
          exact .inr ⟨p, d, m, hp, hb⟩
        · exact .inl ⟨Function.update_of_ne hbb .., Function.update_of_ne hbb ..⟩
      next =>
        obtain rfl := Option.some.inj hgo
        exact .inl ⟨rfl, rfl⟩
    next =>
      split at hgo
      next =>
        obtain rfl := Option.some.inj hgo
        exact .inl ⟨rfl, rfl⟩
      next => cases hgo
    next =>
      obtain rfl := Option.some.inj hgo
      split <;> exact .inl ⟨rfl, rfl⟩
    next b' hp =>
      split at hgo
      next =>
        obtain rfl := Option.some.inj hgo
        unfold State.drop
        dsimp only
        split <;> exact .inl ⟨rfl, rfl⟩
      next => cases hgo
  | _ => exact .inl (hcall _ hs)

/-- In every run, the links form one ring of all buffers, in which the unused
ones are in the order of their last releases; no block but those of device 0
has two buffers; a buffer's `refcnt` is the number of its holders, waiters and
pins; a buffer changes its block only when it is unused, and was released
before every other unused one; and `bread` returns the block's only copy,
locked. -/
theorem bcache_ring (h : (machine P n B).Reachable s) :
    (∃ l, s.links.Ring l ∧ (∀ b, b ∈ l) ∧
      l.Pairwise fun b c => s.refcnt b = 0 → s.refcnt c = 0 → s.Later b c) ∧
    (∀ b c, s.Caches c (s.dev b) (s.blockno b) → 1 ≤ s.dev b → b = c) ∧
    (∀ b, s.refcnt b = s.holders b + s.waiters b + s.pins b) ∧
    (∀ e s' b, (machine P n B).next s e = some s' → ¬ s'.Caches b (s.dev b) (s.blockno b) →
      s.refcnt b = 0 ∧ ∀ c, c ≠ b → s.refcnt c = 0 → s.Later c b) ∧
    (∀ p d m b, s.pc p = .read d m b → s.lock b = some p ∧ s.Caches b d m) ∧
    ∀ p q b c, s.Holds p b → s.Holds q c → s.Caches c (s.dev b) (s.blockno b) → 1 ≤ s.dev b →
      b = c := by
  obtain ⟨l, hI⟩ := Inv.reachable h
  refine ⟨⟨l, hI.ring, hI.all, hI.order⟩, hI.keys, hI.count, fun e s' b hn hc => ?_,
    fun p d m b hp => ?_, fun _ _ b c _ _ => hI.keys b c⟩
  · obtain ⟨p, d, m, hp, hb⟩ := (caches_next hn b).resolve_left hc
    exact ⟨hb, fun c hcb hc => hI.leastRecent hp hc hcb hb⟩
  · have hat : s.At l p (.read d m b) := hp ▸ hI.at' p
    exact ⟨hat.2, hat.1⟩

/-- Two buffers, after `binit`. -/
def booted : State Unit 2 Nat where
  links := binit ⟨fun _ => none, fun _ => none⟩
  valid _ := false
  dev _ := 0
  blockno _ := 0
  refcnt _ := 0
  data _ := 0
  lock _ := none
  bcacheLock := none
  disk b := b
  pc _ := .user
  pins _ := 0
  clock := 0
  last _ := none

/-- The two buffers. -/
def buf0 : Fin 2 := ⟨0, Nat.two_pos⟩

def buf1 : Fin 2 := ⟨1, Nat.one_lt_two⟩

/-- Block 5 is read and released, then 6, then 7, which takes block 5's
buffer. -/
def threeBlocks : List (Event Unit 2 Nat) :=
  [.bread () 1 5] ++ List.replicate 6 (.go ()) ++ [.brelse () buf0, .go ()] ++
    [.bread () 1 6] ++ List.replicate 6 (.go ()) ++ [.brelse () buf1, .go ()] ++
    [.bread () 1 7] ++ List.replicate 6 (.go ())

theorem bcache_ring_threeBlocks : ∃ s, (machine Unit 2 Nat).exec booted threeBlocks = some s ∧
    (s.blockno 0, s.blockno 1, s.refcnt 0, s.refcnt 1) = (7, 6, 1, 0) ∧
    (∃ l, s.links.Ring l ∧ (∀ b, b ∈ l) ∧
      l.Pairwise fun b c => s.refcnt b = 0 → s.refcnt c = 0 → s.Later b c) ∧
    (∀ b c, s.Caches c (s.dev b) (s.blockno b) → 1 ≤ s.dev b → b = c) ∧
    (∀ b, s.refcnt b = s.holders b + s.waiters b + s.pins b) ∧
    (∀ e s' b, (machine Unit 2 Nat).next s e = some s' → ¬ s'.Caches b (s.dev b) (s.blockno b) →
      s.refcnt b = 0 ∧ ∀ c, c ≠ b → s.refcnt c = 0 → s.Later c b) ∧
    (∀ p d m b, s.pc p = .read d m b → s.lock b = some p ∧ s.Caches b d m) ∧
    ∀ p q b c, s.Holds p b → s.Holds q c → s.Caches c (s.dev b) (s.blockno b) → 1 ≤ s.dev b →
      b = c := by
  have hrun : ((machine Unit 2 Nat).exec booted threeBlocks).map
      (fun s => (s.blockno 0, s.blockno 1, s.refcnt 0, s.refcnt 1)) = some (7, 6, 1, 0) := by
    decide +kernel
  obtain ⟨s, hs, hr⟩ := Option.map_eq_some_iff.1 hrun
  exact ⟨s, hs, hr, bcache_ring ⟨booted, threeBlocks,
    ⟨⟨_, rfl⟩, fun _ => ⟨rfl, rfl, rfl, rfl, rfl, rfl, rfl⟩, rfl, fun _ => rfl⟩, hs⟩⟩

end Xv6.BufferCache
