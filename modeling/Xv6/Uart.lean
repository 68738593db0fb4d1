/-
uart.c: what the kernel writes to the UART.

An event is one step of a CPU, a byte that the UART has sent, or something
that happens elsewhere: a process calls `uartputc`, the kernel calls
`uartputc_sync`, the UART interrupts, a sleeping process is killed, the kernel
panics. The UART has a transmit FIFO, is idle when that is empty, and
interrupts when it has sent the last byte of it. Interrupts are off on a CPU
that is in one of these functions.

`put` is auxiliary: the bytes that `uartputc` stored.
-/
import Mathlib.Algebra.GroupWithZero.Nat
import Mathlib.Data.Fintype.Card
import Xv6.Lib.Machine
import Xv6.Lib.RingQueue

namespace Xv6.Uart

open Conc

def UART_TX_BUF_SIZE : Nat := 32

/-- `x + k` of a `uint64`. -/
def add (x k : Nat) : Nat := (x + k) % 2 ^ 64

/-- Where a CPU is. `uartstart` returns to `uartputc` for the process `who`, or
to `uartintr`. -/
inductive PC (P : Type) where
  /-- In none of these functions. -/
  | out
  /-- `acquire(&uart_tx_lock)` in `uartputc` -/
  | putc (p : P) (b : UInt8)
  /-- `if(panicked)` -/
  | test (p : P) (b : UInt8)
  /-- `acquire(lk)` in `sleep`, after the process was woken -/
  | woken (p : P) (b : UInt8)
  /-- `uart_tx_w == uart_tx_r + UART_TX_BUF_SIZE` -/
  | full (p : P) (b : UInt8)
  /-- `uart_tx_buf[uart_tx_w % UART_TX_BUF_SIZE] = c; uart_tx_w += 1` -/
  | put (p : P) (b : UInt8)
  /-- `uart_tx_w == uart_tx_r` -/
  | start (who : Option P)
  /-- `ReadReg(LSR) & LSR_TX_IDLE` -/
  | idle (who : Option P)
  /-- `c = uart_tx_buf[uart_tx_r % UART_TX_BUF_SIZE]; uart_tx_r += 1` -/
  | take (who : Option P)
  /-- `wakeup(&uart_tx_r)` -/
  | wakeup (who : Option P) (b : UInt8)
  /-- `WriteReg(THR, c)` -/
  | thr (who : Option P) (b : UInt8)
  | release (who : Option P)
  /-- In the loop of `uartintr` that reads the input. -/
  | input
  /-- `acquire(&uart_tx_lock)` in `uartintr` -/
  | intr
  /-- `if(panicked)` in `uartputc_sync`, which `consoleintr` calls to echo -/
  | syncTest (b : UInt8) (echo : Bool)
  | syncIdle (b : UInt8) (echo : Bool)
  | syncThr (b : UInt8) (echo : Bool)
  /-- `for(;;);` -/
  | hang (locked : Bool)

inductive Proc where
  /-- Not in `uartputc`. -/
  | free
  /-- In `uartputc`, on a CPU. -/
  | busy
  /-- Sleeping on `&uart_tx_r`. -/
  | asleep (b : UInt8)
  | runnable (b : UInt8)
  deriving DecidableEq

/-- A byte written to `THR`: by which CPU, and in `uartputc_sync` or from the
buffer. -/
structure Sent (C : Type) where
  cpu : C
  sync : Bool
  byte : UInt8

structure State (C P : Type) where
  buf : Nat → UInt8
  w : Nat
  r : Nat
  lock : Option C
  panicked : Bool
  fifo : List (Sent C)
  line : List (Sent C)
  irq : Bool
  cpu : C → PC P
  proc : P → Proc
  put : List UInt8

inductive Event (C P : Type) where
  | putc (c : C) (p : P) (b : UInt8)
  /-- The scheduler runs a process that was woken. -/
  | resume (c : C) (p : P)
  | sync (c : C) (b : UInt8)
  | intr (c : C)
  | go (c : C)
  /-- The UART has sent a byte. -/
  | send
  | kill (p : P)
  | panic

def Proc.wake : Proc → Proc
  | .asleep b => .runnable b
  | pr => pr

namespace State

variable {C P : Type} [DecidableEq C] [DecidableEq P]

def goto (s : State C P) (c : C) (pc : PC P) : State C P :=
  { s with cpu := Function.update s.cpu c pc }

def setProc (s : State C P) (p : P) (pr : Proc) : State C P :=
  { s with proc := Function.update s.proc p pr }

def acquire (s : State C P) (c : C) (pc : PC P) : Option (State C P) :=
  if s.lock = none then some ({ s with lock := some c }.goto c pc) else none

/-- `WriteReg(THR, c)`, which also takes back the interrupt. -/
def write (s : State C P) (x : Sent C) : State C P :=
  { s with fifo := s.fifo ++ [x], irq := false }

/-- The process is out of `uartputc`. -/
def leave (s : State C P) : Option P → State C P
  | none => s
  | some p => s.setProc p .free

/-- The next step of a CPU. -/
def go (s : State C P) (c : C) : Option (State C P) :=
  match s.cpu c with
  | .out => none
  | .putc p b => s.acquire c (.test p b)
  | .test p b => some (s.goto c (if s.panicked then .hang true else .full p b))
  | .woken p b => s.acquire c (.full p b)
  | .full p b =>
    if s.w = add s.r UART_TX_BUF_SIZE then
      some (({ s with lock := none }.setProc p (.asleep b)).goto c .out)
    else some (s.goto c (.put p b))
  | .put p b =>
    some ({ s with
      buf := Function.update s.buf (s.w % UART_TX_BUF_SIZE) b
      w := add s.w 1
      put := s.put ++ [b] }.goto c (.start (some p)))
  | .start who => some (s.goto c (if s.w = s.r then .release who else .idle who))
  | .idle who => some (s.goto c (if s.fifo.isEmpty then .take who else .release who))
  | .take who =>
    some ({ s with r := add s.r 1 }.goto c (.wakeup who (s.buf (s.r % UART_TX_BUF_SIZE))))
  | .wakeup who b => some ({ s with proc := fun p => (s.proc p).wake }.goto c (.thr who b))
  | .thr who b => some ((s.write ⟨c, false, b⟩).goto c (.start who))
  | .release who => some (({ s with lock := none }.leave who).goto c .out)
  | .input => some (s.goto c .intr)
  | .intr => s.acquire c (.start none)
  | .syncTest b echo => some (s.goto c (if s.panicked then .hang false else .syncIdle b echo))
  | .syncIdle b echo =>
    some (s.goto c (if s.fifo.isEmpty then .syncThr b echo else .syncIdle b echo))
  | .syncThr b echo => some ((s.write ⟨c, true, b⟩).goto c (if echo then .input else .out))
  | .hang _ => none

/-- The UART sends the oldest byte of the FIFO. -/
def send (s : State C P) : Option (State C P) :=
  match s.fifo with
  | [] => none
  | x :: rest =>
    some { s with fifo := rest, line := s.line ++ [x], irq := s.irq || rest.isEmpty }

end State

def State.next {C P : Type} [DecidableEq C] [DecidableEq P] (s : State C P) :
    Event C P → Option (State C P)
  | .putc c p b =>
    match s.cpu c, s.proc p with
    | .out, .free => some ((s.setProc p .busy).goto c (.putc p b))
    | _, _ => none
  | .resume c p =>
    match s.cpu c, s.proc p with
    | .out, .runnable b => some ((s.setProc p .busy).goto c (.woken p b))
    | _, _ => none
  | .sync c b =>
    match s.cpu c with
    | .out => some (s.goto c (.syncTest b false))
    | .input => some (s.goto c (.syncTest b true))
    | _ => none
  | .intr c =>
    match s.cpu c with
    | .out => some ({ s with irq := false }.goto c .input)
    | _ => none
  | .go c => s.go c
  | .send => s.send
  | .kill p => some (s.setProc p (s.proc p).wake)
  | .panic => some { s with panicked := true }

/-- The CPUs and processes after `uartinit`. -/
def machine (C P : Type) [DecidableEq C] [DecidableEq P] : Machine (State C P) (Event C P) where
  init s := s.w = 0 ∧ s.r = 0 ∧ s.lock = none ∧ s.fifo = [] ∧ s.line = [] ∧ s.put = [] ∧
    (∀ c, s.cpu c = .out) ∧ ∀ p, s.proc p = .free
  next := State.next

/-! ## The bytes -/

variable {C P : Type}

namespace PC

/-- The CPU holds `uart_tx_lock`. -/
def holds : PC P → Bool
  | .test .. | .full .. | .put .. | .start _ | .idle _ | .take _ | .wakeup .. | .thr ..
  | .release _ | .hang true => true
  | _ => false

/-- The byte that is out of the buffer and not yet in the FIFO. -/
def hand : PC P → List UInt8
  | .wakeup _ b | .thr _ b => [b]
  | _ => []

/-- The CPU has made space in the buffer that it has not told of yet. -/
def wakes : PC P → Bool
  | .wakeup .. => true
  | _ => false

/-- The CPU will look at the buffer and the UART. -/
def starts : PC P → Bool
  | .start _ | .idle _ | .take _ | .wakeup .. | .thr .. | .input | .intr => true
  | .syncTest _ echo | .syncIdle _ echo | .syncThr _ echo => echo
  | _ => false

/-- What a CPU knows of the buffer, and of the bytes in the FIFO, which are
from the CPUs `tags`. -/
def Knows (tags : List C) (q : List UInt8) (c : C) : PC P → Prop
  | .put .. => q.length < UART_TX_BUF_SIZE
  | .idle _ => q ≠ []
  | .take _ => q ≠ [] ∧ c ∉ tags
  | .wakeup .. | .thr .. | .syncThr .. => c ∉ tags
  | _ => True

end PC

/-- The byte, if it comes from the buffer. -/
def Sent.buffered (x : Sent C) : Option UInt8 := if x.sync then none else some x.byte

/-- The buffer holds `q`, and the CPU with the lock has `hd` in its hand. -/
structure Inv (s : State C P) (q hd : List UInt8) : Prop where
  ring : RingQueue UART_TX_BUF_SIZE (2 ^ 64) s.buf s.r s.w q
  lock : ∀ c, s.lock = some c ↔ (s.cpu c).holds
  hand : ∀ c, (s.cpu c).holds → (s.cpu c).hand = hd
  nohand : s.lock = none → hd = []
  order : (s.line ++ s.fifo).filterMap Sent.buffered ++ hd ++ q = s.put
  once : (s.fifo.map Sent.cpu).Nodup
  knows : ∀ c, (s.cpu c).Knows (s.fifo.map Sent.cpu) q c
  full : ∀ p b, s.proc p = .asleep b → q.length = UART_TX_BUF_SIZE ∨ ∃ c, (s.cpu c).wakes
  busy : q ≠ [] → s.panicked ∨ s.fifo ≠ [] ∨ s.irq ∨ ∃ c, (s.cpu c).starts

/-! ## Steps -/

variable [DecidableEq C] {s s' s₁ : State C P} {q q' hd hd' : List UInt8} {c c' : C} {pc : PC P}

omit [DecidableEq C] in
/-- What a CPU without the lock knows does not depend on the buffer. -/
theorem PC.Knows.other {tags tags' : List C} (h : pc.Knows tags q c) (hq : pc.holds → q' = q)
    (ht : c ∈ tags' → c ∈ tags) : pc.Knows tags' q' c := by
  cases pc with
  | put p b =>
    rw [hq rfl]
    exact h
  | idle who =>
    rw [hq rfl]
    exact h
  | take who =>
    rw [hq rfl]
    exact ⟨h.1, fun hc => h.2 (ht hc)⟩
  | wakeup who b => exact fun hc => h (ht hc)
  | thr who b => exact fun hc => h (ht hc)
  | syncThr b echo => exact fun hc => h (ht hc)
  | _ => trivial

omit [DecidableEq C] in
theorem PC.hand_of_not_holds (h : ¬ pc.holds) : pc.hand = [] := by
  cases pc with
  | wakeup who b => exact absurd rfl h
  | thr who b => exact absurd rfl h
  | _ => rfl

omit [DecidableEq C] in
theorem exists_other {f : PC P → Bool} (hf : f (s.cpu c) = false) (h : ∃ c, f (s.cpu c)) :
    ∃ c', c' ≠ c ∧ f (s.cpu c') := by
  obtain ⟨c', hc'⟩ := h
  refine ⟨c', fun he => ?_, hc'⟩
  rw [he, hf] at hc'
  cases hc'

@[simp] theorem goto_self (s : State C P) (c : C) (pc : PC P) : (s.goto c pc).cpu c = pc :=
  Function.update_self ..

theorem goto_of_ne (hc : c' ≠ c) : (s.goto c pc).cpu c' = s.cpu c' := Function.update_of_ne hc ..

theorem exists_goto {f : PC P → Bool} (hcpu : s₁.cpu = s.cpu)
    (h : f pc ∨ ∃ c', c' ≠ c ∧ f (s.cpu c')) : ∃ c', f ((s₁.goto c pc).cpu c') := by
  rcases h with h | ⟨c', hne, h⟩
  · refine ⟨c, ?_⟩
    rw [goto_self]
    exact h
  · refine ⟨c', ?_⟩
    rw [goto_of_ne hne, hcpu]
    exact h

namespace Inv

/-- A step of CPU `c`, which touches the buffer only with the lock. -/
theorem move (h : Inv s q hd) (hcpu : s₁.cpu = s.cpu)
    (hring : RingQueue UART_TX_BUF_SIZE (2 ^ 64) s₁.buf s₁.r s₁.w q')
    (hlock : s₁.lock = if pc.holds then some c else if (s.cpu c).holds then none else s.lock)
    (hfree : pc.holds → (s.cpu c).holds ∨ s.lock = none)
    (hhd : hd' = if pc.holds || (s.cpu c).holds then pc.hand else hd)
    (hown : q' = q ∨ (s.cpu c).holds)
    (horder : (s₁.line ++ s₁.fifo).filterMap Sent.buffered ++ hd' ++ q' = s₁.put)
    (honce : (s₁.fifo.map Sent.cpu).Nodup)
    (htags : ∀ c', c' ≠ c → c' ∈ s₁.fifo.map Sent.cpu → c' ∈ s.fifo.map Sent.cpu)
    (hknows : pc.Knows (s₁.fifo.map Sent.cpu) q' c)
    (hfull : ∀ p b, s₁.proc p = .asleep b →
      q'.length = UART_TX_BUF_SIZE ∨ pc.wakes ∨ ∃ c', c' ≠ c ∧ (s.cpu c').wakes)
    (hbusy : q' ≠ [] → s₁.panicked ∨ s₁.fifo ≠ [] ∨ s₁.irq ∨
      (pc.starts ∨ ∃ c', c' ≠ c ∧ (s.cpu c').starts)) :
    Inv (s₁.goto c pc) q' hd' := by
  have hself : (s₁.goto c pc).cpu c = pc := goto_self s₁ c pc
  have hother : ∀ c', c' ≠ c → (s₁.goto c pc).cpu c' = s.cpu c' := by
    intro c' hc
    rw [goto_of_ne hc, hcpu]
  -- while `c` has the lock, before or after the step, nobody else does
  have hnot : pc.holds ∨ (s.cpu c).holds → ∀ c', c' ≠ c → ¬ (s.cpu c').holds := by
    intro hc c' hne hc'
    have hl' := (h.lock c').2 hc'
    rcases hc with hc | hc
    · rcases hfree hc with hc | hn
      · rw [(h.lock c).2 hc] at hl'
        exact hne (Option.some.inj hl').symm
      · rw [hn] at hl'
        cases hl'
    · rw [(h.lock c).2 hc] at hl'
      exact hne (Option.some.inj hl').symm
  refine ⟨hring, fun c' => ?_, fun c' hc' => ?_, fun hl => ?_, horder, honce, fun c' => ?_,
    fun p b hp => (hfull p b hp).imp_right fun hw => exists_goto hcpu hw,
    fun hq => (hbusy hq).imp_right fun hr => hr.imp_right fun hi => hi.imp_right fun hw =>
      exists_goto hcpu hw⟩
  · change s₁.lock = some c' ↔ _
    rw [hlock]
    by_cases hc : c' = c
    · rw [hc, hself]
      by_cases hp : pc.holds
      · rw [if_pos hp]
        exact iff_of_true rfl hp
      · rw [if_neg hp]
        by_cases ho : (s.cpu c).holds
        · rw [if_pos ho]
          exact iff_of_false (by simp) hp
        · rw [if_neg ho, h.lock]
          exact iff_of_false ho hp
    · rw [hother c' hc]
      by_cases hp : pc.holds
      · rw [if_pos hp]
        exact iff_of_false (fun he => hc (Option.some.inj he).symm) (hnot (.inl hp) c' hc)
      · rw [if_neg hp]
        by_cases ho : (s.cpu c).holds
        · rw [if_pos ho]
          exact iff_of_false (by simp) (hnot (.inr ho) c' hc)
        · rw [if_neg ho, h.lock]
  · by_cases hc : c' = c
    · rw [hc, hself] at hc' ⊢
      rw [hhd, hc', Bool.true_or, if_pos rfl]
    · rw [hother c' hc] at hc' ⊢
      have hp : pc.holds = false := by
        cases hp : pc.holds with
        | true => exact absurd hc' (hnot (.inl hp) c' hc)
        | false => rfl
      have ho : (s.cpu c).holds = false := by
        cases ho : (s.cpu c).holds with
        | true => exact absurd hc' (hnot (.inr ho) c' hc)
        | false => rfl
      rw [hhd, hp, ho, h.hand c' hc']
      rfl
  · change s₁.lock = none at hl
    rw [hlock] at hl
    have hp : ¬ pc.holds := by
      intro hp
      rw [if_pos hp] at hl
      cases hl
    rw [if_neg hp] at hl
    rw [hhd, PC.hand_of_not_holds hp]
    by_cases ho : (s.cpu c).holds
    · rw [ho, Bool.or_true, if_pos rfl]
    · rw [if_neg ho] at hl
      rw [h.nohand hl, ite_self]
  · by_cases hc : c' = c
    · rw [hc, hself]
      exact hknows
    · rw [hother c' hc]
      refine (h.knows c').other (fun hh => ?_) (htags c' hc)
      exact hown.resolve_right fun ho => hnot (.inr ho) c' hc hh

omit [DecidableEq C] in
/-- The sleepers, after a step of a CPU that wakes nobody. -/
theorem asleep (h : Inv s q hd) (hw : (s.cpu c).wakes = false) {p : P} {b : UInt8}
    (hp : s.proc p = .asleep b) :
    q.length = UART_TX_BUF_SIZE ∨ pc.wakes ∨ ∃ c', c' ≠ c ∧ (s.cpu c').wakes :=
  (h.full p b hp).imp_right fun hc => .inr (exists_other hw hc)

omit [DecidableEq C] in
theorem awaits (h : Inv s q hd)
    (hs : (s.cpu c).starts → pc.starts ∨ q = [] ∨ s.fifo ≠ [] ∨ s.panicked) (hq : q ≠ []) :
    s.panicked ∨ s.fifo ≠ [] ∨ s.irq ∨ (pc.starts ∨ ∃ c', c' ≠ c ∧ (s.cpu c').starts) := by
  rcases h.busy hq with hp | hf | hi | hc
  · exact .inl hp
  · exact .inr (.inl hf)
  · exact .inr (.inr (.inl hi))
  · cases hc' : (s.cpu c).starts with
    | false => exact .inr (.inr (.inr (.inr (exists_other hc' hc))))
    | true =>
      rcases hs hc' with hp | hp | hp | hp
      · exact .inr (.inr (.inr (.inl hp)))
      · exact absurd hp hq
      · exact .inr (.inl hp)
      · exact .inl hp

/-- A step that only moves the CPU. -/
theorem quiet (h : Inv s q hd) (hold : pc.holds = (s.cpu c).holds)
    (hhand : pc.hand = (s.cpu c).hand) (hw : (s.cpu c).wakes = false)
    (hknows : pc.Knows (s.fifo.map Sent.cpu) q c)
    (hs : (s.cpu c).starts → pc.starts ∨ q = [] ∨ s.fifo ≠ [] ∨ s.panicked) :
    Inv (s.goto c pc) q hd := by
  refine h.move rfl h.ring ?_ (fun hp => .inl (hold ▸ hp)) ?_ (.inl rfl) h.order h.once
    (fun _ _ => id) hknows (fun p b hp => h.asleep hw hp) (h.awaits hs)
  · rw [hold]
    by_cases ho : (s.cpu c).holds
    · rw [if_pos ho, (h.lock c).2 ho]
    · rw [if_neg ho, if_neg ho]
  · rw [hold, Bool.or_self]
    by_cases ho : (s.cpu c).holds
    · rw [if_pos ho, hhand, h.hand c ho]
    · rw [if_neg ho]

theorem acquire (h : Inv s q hd) (ha : s.acquire c pc = some s') (hp : pc.holds)
    (hhand : pc.hand = []) (hw : (s.cpu c).wakes = false)
    (hknows : pc.Knows (s.fifo.map Sent.cpu) q c) (hs : (s.cpu c).starts → pc.starts) :
    Inv s' q hd := by
  rw [State.acquire] at ha
  split at ha
  next hl =>
    obtain rfl := Option.some.inj ha
    refine h.move rfl h.ring ?_ (fun _ => .inr hl) ?_ (.inl rfl) h.order h.once
      (fun _ _ => id) hknows (fun p b hp => h.asleep hw hp) (h.awaits fun hc => .inl (hs hc))
    · rw [if_pos hp]
    · rw [hp, Bool.true_or, if_pos rfl, hhand, h.nohand hl]
  next => cases ha

omit [DecidableEq C] in
/-- `uart_tx_w == uart_tx_r + UART_TX_BUF_SIZE` -/
theorem full_iff (h : Inv s q hd) :
    s.w = add s.r UART_TX_BUF_SIZE ↔ q.length = UART_TX_BUF_SIZE := by
  have hlen := h.ring.length_le
  have hr := h.ring.head_lt
  rw [h.ring.tail_eq, add]
  simp only [UART_TX_BUF_SIZE] at hlen ⊢
  omega

end Inv

namespace Inv

/-- A byte from CPU `c`, which saw the FIFO empty after its last one, is the
only one there from `c`. -/
theorem write (h : Inv s q hd) (hc : c ∉ s.fifo.map Sent.cpu) {x : Sent C} (hx : x.cpu = c)
    (hold : pc.holds = (s.cpu c).holds) (hhand : pc.hand = [])
    (hw : (s.cpu c).wakes = false) (hknows : ∀ tags, pc.Knows tags q c)
    (hsync : x.buffered.toList = (s.cpu c).hand) :
    Inv ((s.write x).goto c pc) q (if (s.cpu c).holds then [] else hd) := by
  have hmap : (s.write x).fifo.map Sent.cpu = s.fifo.map Sent.cpu ++ [c] := by
    rw [State.write, List.map_append, List.map_singleton, hx]
  have hlast : (s.cpu c).hand ++ (if (s.cpu c).holds then [] else hd) = hd := by
    by_cases ho : (s.cpu c).holds
    · rw [if_pos ho, List.append_nil, h.hand c ho]
    · rw [if_neg ho, PC.hand_of_not_holds ho, List.nil_append]
  refine h.move rfl h.ring ?_ (fun hp => .inl (hold ▸ hp)) ?_ (.inl rfl) ?_ ?_ ?_ (hknows _)
    (fun p b hp => h.asleep hw hp) fun _ => .inr (.inl (by simp [State.write]))
  · rw [hold]
    by_cases ho : (s.cpu c).holds
    · rw [if_pos ho]
      exact (h.lock c).2 ho
    · rw [if_neg ho, if_neg ho]
      rfl
  · rw [hold, Bool.or_self, hhand]
  · have hlist : [x].filterMap Sent.buffered = (s.cpu c).hand := by
      rw [← hsync]
      cases hb : x.buffered with
      | none => simp [hb]
      | some b => simp [hb]
    change List.filterMap _ (s.line ++ (s.fifo ++ [x])) ++ _ ++ q = s.put
    rw [← List.append_assoc s.line, List.filterMap_append, hlist,
      List.append_assoc _ (s.cpu c).hand,
      hlast]
    exact h.order
  · rw [hmap]
    exact List.nodup_append.2 ⟨h.once, List.nodup_singleton c, by
      intro a ha b hb he
      rw [he, List.mem_singleton.1 hb] at ha
      exact hc ha⟩
  · intro c' hne hm
    rw [hmap, List.mem_append, List.mem_singleton] at hm
    exact hm.resolve_right hne

/-- The lock is given up, and the process leaves the CPU or `uartputc`. -/
theorem release (h : Inv s q hd) (ho : (s.cpu c).holds) (hhand : (s.cpu c).hand = [])
    (hw : (s.cpu c).wakes = false) {proc : P → Proc}
    (hfull : ∀ p b, proc p = .asleep b → s.proc p = .asleep b ∨ q.length = UART_TX_BUF_SIZE)
    (hs : (s.cpu c).starts = false) :
    Inv ({ s with lock := none, proc := proc }.goto c .out) q hd := by
  refine h.move rfl h.ring ?_ (fun hp => by cases hp) ?_ (.inl rfl) h.order h.once
    (fun _ _ => id) trivial (fun p b hp => ?_) (h.awaits fun hc => by simp [hs] at hc)
  · rw [if_neg (by simp [PC.holds]), if_pos ho]
  · rw [ho, Bool.or_true, if_pos rfl, ← h.hand c ho, hhand]
    rfl
  · rcases hfull p b hp with hp | hq
    · exact h.asleep hw hp
    · exact .inl hq

theorem go [DecidableEq P] (h : Inv s q hd) (hg : s.go c = some s') : ∃ q' hd', Inv s' q' hd' := by
  rw [State.go] at hg
  split at hg
  next => cases hg
  next p b hpc =>
    exact ⟨q, hd, h.acquire hg rfl rfl (by rw [hpc]; rfl) trivial (by simp [hpc, PC.starts])⟩
  next p b hpc =>
    obtain rfl := Option.some.inj hg
    refine ⟨q, hd, h.quiet ?_ ?_ (by rw [hpc]; rfl) ?_ (by simp [hpc, PC.starts])⟩
    · rw [hpc]
      split <;> rfl
    · rw [hpc]
      split <;> rfl
    · split <;> trivial
  next p b hpc =>
    exact ⟨q, hd, h.acquire hg rfl rfl (by rw [hpc]; rfl) trivial (by simp [hpc, PC.starts])⟩
  next p b hpc =>
    split at hg
    next hw =>
      obtain rfl := Option.some.inj hg
      refine ⟨q, hd, h.release (by rw [hpc]; rfl) (by rw [hpc]; rfl) (by rw [hpc]; rfl)
        (fun p' b' hp' => ?_) (by rw [hpc]; rfl)⟩
      exact .inr (h.full_iff.1 hw)
    next hw =>
      obtain rfl := Option.some.inj hg
      refine ⟨q, hd, h.quiet (by rw [hpc]; rfl) (by rw [hpc]; rfl) (by rw [hpc]; rfl) ?_
        (by simp [hpc, PC.starts])⟩
      exact Nat.lt_of_le_of_ne h.ring.length_le fun he => hw (h.full_iff.2 he)
  next p b hpc =>
    obtain rfl := Option.some.inj hg
    have hq := h.knows c
    rw [hpc] at hq
    have hhd := h.hand c (by rw [hpc]; rfl)
    rw [hpc] at hhd
    refine ⟨q ++ [b], hd, h.move rfl ((h.ring.write (by decide) hq).push hq ?_) ?_
      (fun _ => .inl (by rw [hpc]; rfl)) hhd.symm (.inr (by rw [hpc]; rfl)) ?_ h.once
      (fun _ _ => id) trivial (fun p' b' hp' => ?_) fun _ => .inr (.inr (.inr (.inl rfl)))⟩
    · exact Function.update_self ..
    · exact (h.lock c).2 (by rw [hpc]; rfl)
    · rw [← List.append_assoc, h.order]
    · rcases h.full p' b' hp' with hf | hf
      · exact absurd hf (Nat.ne_of_lt hq)
      · exact .inr (.inr (exists_other (by rw [hpc]; rfl) hf))
  next who hpc =>
    obtain rfl := Option.some.inj hg
    refine ⟨q, hd, h.quiet ?_ ?_ (by rw [hpc]; rfl) ?_ fun _ => ?_⟩
    · rw [hpc]
      split <;> rfl
    · rw [hpc]
      split <;> rfl
    · split
      next => trivial
      next hw =>
        intro hq
        exact hw ((h.ring.eq_iff (by decide)).2 hq).symm
    · by_cases hw : s.w = s.r
      · exact .inr (.inl ((h.ring.eq_iff (by decide)).1 hw.symm))
      · rw [if_neg hw]
        exact .inl rfl
  next who hpc =>
    obtain rfl := Option.some.inj hg
    have hq := h.knows c
    rw [hpc] at hq
    refine ⟨q, hd, h.quiet ?_ ?_ (by rw [hpc]; rfl) ?_ fun _ => ?_⟩
    · rw [hpc]
      split <;> rfl
    · rw [hpc]
      split <;> rfl
    · split
      next hf =>
        rw [List.isEmpty_iff] at hf
        exact ⟨hq, by simp [hf]⟩
      next => trivial
    · cases hf : s.fifo with
      | nil => exact .inl rfl
      | cons x rest => exact .inr (.inr (.inl (by simp)))
  next who hpc =>
    obtain rfl := Option.some.inj hg
    have hk := h.knows c
    rw [hpc] at hk
    have hhd := h.hand c (by rw [hpc]; rfl)
    rw [hpc] at hhd
    obtain ⟨hq, ht⟩ := hk
    cases q with
    | nil => exact absurd rfl hq
    | cons b q =>
      obtain ⟨hb, hring⟩ := h.ring.pop
      rw [hb]
      refine ⟨q, [b], h.move rfl hring ?_ (fun _ => .inl (by rw [hpc]; rfl)) rfl
        (.inr (by rw [hpc]; rfl)) ?_ h.once (fun _ _ => id) ht (fun _ _ _ => .inr (.inl rfl))
        fun _ => .inr (.inr (.inr (.inl rfl)))⟩
      · exact (h.lock c).2 (by rw [hpc]; rfl)
      · rw [← h.order, ← hhd]
        simp [PC.hand]
  next who b hpc =>
    obtain rfl := Option.some.inj hg
    have hk := h.knows c
    rw [hpc] at hk
    have hhd := h.hand c (by rw [hpc]; rfl)
    rw [hpc] at hhd
    refine ⟨q, hd, h.move rfl h.ring ?_ (fun _ => .inl (by rw [hpc]; rfl)) hhd.symm (.inl rfl)
      h.order h.once (fun _ _ => id) hk (fun p' b' hp' => ?_)
      fun _ => .inr (.inr (.inr (.inl rfl)))⟩
    · exact (h.lock c).2 (by rw [hpc]; rfl)
    · change (s.proc p').wake = .asleep b' at hp'
      cases hs : s.proc p' with
      | asleep b => simp [hs, Proc.wake] at hp'
      | _ => simp [hs, Proc.wake] at hp'
  next who b hpc =>
    obtain rfl := Option.some.inj hg
    have hk := h.knows c
    rw [hpc] at hk
    exact ⟨q, _, h.write hk rfl (by rw [hpc]; rfl) rfl (by rw [hpc]; rfl) (fun _ => trivial)
      (by rw [hpc]; rfl)⟩
  next who hpc =>
    obtain rfl := Option.some.inj hg
    have hs : { s with lock := none }.leave who =
        { s with lock := none, proc := ({ s with lock := none }.leave who).proc } := by
      cases who with
      | none => rfl
      | some p => rfl
    rw [hs]
    refine ⟨q, hd, h.release (by rw [hpc]; rfl) (by rw [hpc]; rfl) (by rw [hpc]; rfl)
      (fun p' b' hp' => .inl ?_) (by rw [hpc]; rfl)⟩
    cases who with
    | none => exact hp'
    | some p =>
      by_cases hne : p' = p
      · simp [State.leave, State.setProc, hne] at hp'
      · simpa [State.leave, State.setProc, Function.update_of_ne hne] using hp'
  next hpc =>
    obtain rfl := Option.some.inj hg
    exact ⟨q, hd, h.quiet (by rw [hpc]; rfl) (by rw [hpc]; rfl) (by rw [hpc]; rfl) trivial
      fun _ => .inl rfl⟩
  next hpc =>
    exact ⟨q, hd, h.acquire hg rfl rfl (by rw [hpc]; rfl) trivial fun _ => rfl⟩
  next b echo hpc =>
    obtain rfl := Option.some.inj hg
    refine ⟨q, hd, h.quiet ?_ ?_ (by rw [hpc]; rfl) ?_ fun hs => ?_⟩
    · rw [hpc]
      split <;> rfl
    · rw [hpc]
      split <;> rfl
    · split <;> trivial
    · cases hp : s.panicked with
      | true => exact .inr (.inr (.inr rfl))
      | false =>
        rw [hpc] at hs
        exact .inl hs
  next b echo hpc =>
    obtain rfl := Option.some.inj hg
    refine ⟨q, hd, h.quiet ?_ ?_ (by rw [hpc]; rfl) ?_ fun hs => ?_⟩
    · rw [hpc]
      split <;> rfl
    · rw [hpc]
      split <;> rfl
    · split
      next hf =>
        rw [List.isEmpty_iff] at hf
        simp [PC.Knows, hf]
      next => trivial
    · rw [hpc] at hs
      split <;> exact .inl hs
  next b echo hpc =>
    obtain rfl := Option.some.inj hg
    have hk := h.knows c
    rw [hpc] at hk
    refine ⟨q, _, h.write hk rfl ?_ ?_ (by rw [hpc]; rfl) (fun _ => ?_) (by rw [hpc]; rfl)⟩
    · rw [hpc]
      cases echo <;> rfl
    · cases echo <;> rfl
    · cases echo <;> trivial
  next => cases hg

end Inv

theorem Proc.wake_ne (pr : Proc) (b : UInt8) : pr.wake ≠ .asleep b := by
  cases pr <;> simp [Proc.wake]

namespace Inv

omit [DecidableEq C] in
theorem setProc [DecidableEq P] (h : Inv s q hd) {p : P} {pr : Proc}
    (hpr : ∀ b, pr ≠ .asleep b) : Inv (s.setProc p pr) q hd where
  ring := h.ring
  lock := h.lock
  hand := h.hand
  nohand := h.nohand
  order := h.order
  once := h.once
  knows := h.knows
  full p' b hp := by
    change Function.update s.proc p pr p' = .asleep b at hp
    by_cases hne : p' = p
    · rw [hne, Function.update_self] at hp
      exact absurd hp (hpr b)
    · rw [Function.update_of_ne hne] at hp
      exact h.full p' b hp
  busy := h.busy

omit [DecidableEq C] in
theorem send (h : Inv s q hd) (hs : s.send = some s') : Inv s' q hd := by
  rw [State.send] at hs
  split at hs
  next => cases hs
  next x rest hf =>
    obtain rfl := Option.some.inj hs
    have honce := h.once
    rw [hf, List.map_cons] at honce
    refine ⟨h.ring, h.lock, h.hand, h.nohand, ?_, (List.nodup_cons.1 honce).2, fun c => ?_, h.full,
      fun _ => ?_⟩
    · rw [← h.order, hf, List.append_assoc s.line]
      rfl
    · refine (h.knows c).other (fun _ => rfl) fun hc => ?_
      rw [hf]
      exact List.mem_cons_of_mem _ hc
    · cases rest with
      | nil => exact .inr (.inr (.inl (Bool.or_true _)))
      | cons y rest => exact .inr (.inl (List.cons_ne_nil y rest))

theorem next [DecidableEq P] (h : Inv s q hd) {e : Event C P} (hs : s.next e = some s') :
    ∃ q' hd', Inv s' q' hd' := by
  cases e with
  | putc c p b =>
    simp only [State.next] at hs
    split at hs
    next hpc hp =>
      obtain rfl := Option.some.inj hs
      have h' : Inv (s.setProc p .busy) q hd := h.setProc fun b => by simp
      exact ⟨q, hd, h'.quiet (by rw [State.setProc, hpc]; rfl) (by rw [State.setProc, hpc]; rfl)
        (by rw [State.setProc, hpc]; rfl) trivial (by simp [State.setProc, hpc, PC.starts])⟩
    next => cases hs
  | resume c p =>
    simp only [State.next] at hs
    split at hs
    next b hpc hp =>
      obtain rfl := Option.some.inj hs
      have h' : Inv (s.setProc p .busy) q hd := h.setProc fun b => by simp
      exact ⟨q, hd, h'.quiet (by rw [State.setProc, hpc]; rfl) (by rw [State.setProc, hpc]; rfl)
        (by rw [State.setProc, hpc]; rfl) trivial (by simp [State.setProc, hpc, PC.starts])⟩
    next => cases hs
  | sync c b =>
    simp only [State.next] at hs
    split at hs
    next hpc =>
      obtain rfl := Option.some.inj hs
      exact ⟨q, hd, h.quiet (by rw [hpc]; rfl) (by rw [hpc]; rfl) (by rw [hpc]; rfl) trivial
        (by simp [hpc, PC.starts])⟩
    next hpc =>
      obtain rfl := Option.some.inj hs
      exact ⟨q, hd, h.quiet (by rw [hpc]; rfl) (by rw [hpc]; rfl) (by rw [hpc]; rfl) trivial
        fun _ => .inl rfl⟩
    next => cases hs
  | intr c =>
    simp only [State.next] at hs
    split at hs
    next hpc =>
      obtain rfl := Option.some.inj hs
      refine ⟨q, hd, h.move rfl h.ring ?_ (fun hp => by cases hp) ?_ (.inl rfl) h.order h.once
        (fun _ _ => id) trivial (fun p b hp => h.asleep (by rw [hpc]; rfl) hp)
        fun _ => .inr (.inr (.inr (.inl rfl)))⟩
      · rw [if_neg (by simp [PC.holds]), if_neg (by simp [hpc, PC.holds])]
      · rw [hpc]
        rfl
    next => cases hs
  | go c => exact h.go hs
  | send => exact ⟨q, hd, h.send hs⟩
  | kill p =>
    obtain rfl := Option.some.inj hs
    exact ⟨q, hd, h.setProc (Proc.wake_ne _)⟩
  | panic =>
    obtain rfl := Option.some.inj hs
    exact ⟨q, hd, h.ring, h.lock, h.hand, h.nohand, h.order, h.once, h.knows, h.full,
      fun _ => .inl rfl⟩

theorem init [DecidableEq P] (hi : (machine C P).init s) : Inv s [] [] := by
  obtain ⟨hw, hr, hlock, hfifo, hline, hput, hcpu, hproc⟩ := hi
  refine ⟨?_, fun c => ?_, fun c _ => ?_, fun _ => rfl, ?_, ?_, fun c => ?_, fun p b hp => ?_,
    fun hq => absurd rfl hq⟩
  · rw [hw, hr]
    exact .nil (by decide)
  · rw [hlock, hcpu]
    simp [PC.holds]
  · rw [hcpu]
    rfl
  · rw [hline, hfifo, hput]
    rfl
  · rw [hfifo]
    exact List.nodup_nil
  · rw [hcpu]
    trivial
  · rw [hproc] at hp
    cases hp

theorem ofReachable [DecidableEq P] (h : (machine C P).Reachable s) : ∃ q hd, Inv s q hd := by
  refine h.invariant (I := fun s => ∃ q hd, Inv s q hd) ?_ ?_
  · intro s hi
    exact ⟨[], [], init hi⟩
  · intro s e s' hs he
    obtain ⟨q, hd, hinv⟩ := hs
    exact hinv.next he

end Inv

/-! ## What is sent -/

/-- The bytes in the buffer. -/
def State.queue (s : State C P) : List UInt8 :=
  (List.range ((s.w + 2 ^ 64 - s.r) % 2 ^ 64)).map fun j =>
    s.buf ((s.r + j) % 2 ^ 64 % UART_TX_BUF_SIZE)

/-- The byte that the CPU with the lock has in its hand. -/
def State.hand (s : State C P) : List UInt8 :=
  match s.lock with
  | none => []
  | some c => (s.cpu c).hand

omit [DecidableEq C] in
theorem Inv.queue_eq (h : Inv s q hd) : s.queue = q := (h.ring.eq_map (by decide)).symm

omit [DecidableEq C] in
theorem Inv.hand_eq (h : Inv s q hd) : s.hand = hd := by
  rw [State.hand]
  split
  next hl => exact (h.nohand hl).symm
  next c hl => exact h.hand c ((h.lock c).1 hl)

/-- On any CPUs, with any interrupts and whatever `uartputc_sync` sends in
between, the bytes that `uartputc` stored go out in the order in which they
were stored, none lost and none sent twice: they have been sent, or are in the
FIFO, in the hand of the one CPU with the lock, or in the buffer. The FIFO has
no more than one byte of each CPU in it. -/
theorem uart_sends_in_order [DecidableEq P] [Fintype C] (h : (machine C P).Reachable s) :
    (s.line ++ s.fifo).filterMap Sent.buffered ++ s.hand ++ s.queue = s.put ∧
      s.hand.length ≤ 1 ∧ s.queue.length ≤ UART_TX_BUF_SIZE ∧
      s.fifo.length ≤ Fintype.card C := by
  obtain ⟨q, hd, hinv⟩ := Inv.ofReachable h
  refine ⟨?_, ?_, ?_, ?_⟩
  · rw [hinv.hand_eq, hinv.queue_eq]
    exact hinv.order
  · rw [State.hand]
    split
    next => exact Nat.zero_le 1
    next c hl =>
      cases s.cpu c with
      | wakeup who b => exact Nat.le_refl 1
      | thr who b => exact Nat.le_refl 1
      | _ => exact Nat.zero_le 1
  · rw [hinv.queue_eq]
    exact hinv.ring.length_le
  · rw [← List.length_map (f := Sent.cpu)]
    exact hinv.once.length_le_card

/-- A process sleeps in `uartputc` only while the buffer is full, or while the
CPU with the lock is about to wake it; and while there is a byte in the buffer,
the UART is sending, or its interrupt is to come, or a CPU will look at the
buffer, unless the kernel panicked. -/
theorem uart_loses_no_wakeup [DecidableEq P] (h : (machine C P).Reachable s) :
    (∀ p b, s.proc p = .asleep b → s.queue.length = UART_TX_BUF_SIZE ∨
      ∃ c, s.lock = some c ∧ (s.cpu c).wakes) ∧
      (s.queue ≠ [] → s.panicked ∨ s.fifo ≠ [] ∨ s.irq ∨ ∃ c, (s.cpu c).starts) := by
  obtain ⟨q, hd, hinv⟩ := Inv.ofReachable h
  rw [hinv.queue_eq]
  refine ⟨fun p b hp => (hinv.full p b hp).imp_right fun hw => ?_, hinv.busy⟩
  obtain ⟨c, hc⟩ := hw
  refine ⟨c, (hinv.lock c).2 ?_, hc⟩
  cases hpc : s.cpu c with
  | wakeup who b => rfl
  | _ => simp [hpc, PC.wakes] at hc

/-- Two CPUs with one byte each. -/
def twoBytes : List (Event Bool Unit) :=
  [.putc true () 65, .go true, .go true, .go true, .go true, .sync false 66, .go false, .go false,
    .go true, .go true, .go false, .go true, .go true, .go true, .go true, .go true, .send]

def atRest : State Bool Unit :=
  ⟨fun _ => 0, 0, 0, none, false, [], [], false, fun _ => .out, fun _ => .free, []⟩

theorem reachable_twoBytes :
    (machine Bool Unit).Reachable (((machine Bool Unit).exec atRest twoBytes).get rfl) :=
  ⟨atRest, twoBytes, ⟨rfl, rfl, rfl, rfl, rfl, rfl, fun _ => rfl, fun _ => rfl⟩,
    (Option.some_get _).symm⟩

theorem uart_sends_in_order_twoBytes :
    ∃ s, (machine Bool Unit).exec atRest twoBytes = some s ∧
      s.line.map Sent.byte = [66] ∧ s.fifo.map Sent.byte = [65] ∧
      (s.line ++ s.fifo).filterMap Sent.buffered ++ s.hand ++ s.queue = s.put := by
  refine ⟨_, (Option.some_get rfl).symm, rfl, rfl, ?_⟩
  exact (uart_sends_in_order reachable_twoBytes).1

/-- A byte is with the UART and as many as fit are in the buffer when the
process has one more. -/
def oneTooMany : List (Event Bool Unit) :=
  .putc true () 65 :: List.replicate 11 (.go true) ++
    (List.replicate UART_TX_BUF_SIZE (.putc true () 66 :: List.replicate 7 (.go true))).flatten ++
    .putc true () 67 :: List.replicate 3 (.go true)

theorem uart_loses_no_wakeup_oneTooMany :
    ∃ s, (machine Bool Unit).exec atRest oneTooMany = some s ∧ s.proc () = .asleep 67 ∧
      (s.queue.length = UART_TX_BUF_SIZE ∨ ∃ c, s.lock = some c ∧ (s.cpu c).wakes) ∧
      (s.panicked ∨ s.fifo ≠ [] ∨ s.irq ∨ ∃ c, (s.cpu c).starts) := by
  have hrun : ((machine Bool Unit).exec atRest oneTooMany).map
      (fun s => (s.proc (), s.queue.isEmpty)) = some (.asleep 67, false) := by decide +kernel
  obtain ⟨s, hs, hend⟩ := Option.map_eq_some_iff.1 hrun
  obtain ⟨hproc, hqueue⟩ := Prod.mk.inj hend
  have hreach : (machine Bool Unit).Reachable s :=
    ⟨atRest, oneTooMany, ⟨rfl, rfl, rfl, rfl, rfl, rfl, fun _ => rfl, fun _ => rfl⟩, hs⟩
  obtain ⟨hsleep, hsend⟩ := uart_loses_no_wakeup hreach
  refine ⟨s, hs, hproc, hsleep () 67 hproc, hsend fun he => ?_⟩
  rw [he] at hqueue
  cases hqueue

end Xv6.Uart
