/-
virtio_disk.c: the driver of the disk, called by the processes `P` for the
buffers `B`, its interrupt handler on the CPUs `C`, and the device.

Under `disk.vdisk_lock` a step is what a process or a handler does up to its
next access to the rings, which the device reads and writes at any time. The
device takes the chain heads in the order of the avail ring, follows each chain
and completes the request, in any order. A process that would wait takes no
step. After a `panic` nothing happens any more; `panic` says which it was.

A caller holds `b->lock`, so nothing changes `b->blockno` while it is in
`virtio_disk_rw`. `count`, `number` and `completed` are auxiliary: requests are
numbered, and the device has completed those in `completed`.
-/
import Xv6.Lib.Machine
import Mathlib.Logic.Function.Basic
import Mathlib.Data.List.Range

namespace Xv6.VirtioDisk

open Conc

def NUM : Nat := 8

/-- `uint16` indices are modulo this. -/
def WRAP : Nat := 65536

def VRING_DESC_F_NEXT : Nat := 1
def VRING_DESC_F_WRITE : Nat := 2

def VIRTIO_BLK_T_IN : Nat := 0
def VIRTIO_BLK_T_OUT : Nat := 1

def BSIZE : Nat := 1024

/-- What a descriptor points to. -/
inductive Addr (B : Type) where
  | null
  /-- `&disk.ops[i]` -/
  | ops (i : Nat)
  /-- `b->data` -/
  | data (b : B)
  /-- `&disk.info[i].status` -/
  | status (i : Nat)
  deriving DecidableEq

/-- `struct virtq_desc` -/
structure Desc (B : Type) where
  addr : Addr B
  len : Nat
  flags : Nat
  next : Nat

/-- `struct virtio_blk_req` -/
structure BlkReq where
  type : Nat
  reserved : Nat
  sector : Nat
  deriving DecidableEq

/-- What a call of `virtio_disk_rw` is for. -/
structure Call (B : Type) where
  b : B
  blockno : Nat
  write : Bool

/-- `uint64 sector = b->blockno * (BSIZE / 512)`, a product of 32 bits. -/
def Call.sector {B : Type} (r : Call B) : Nat := r.blockno * (BSIZE / 512) % 0x100000000

/-- The three descriptors of a request, `idx`. -/
structure Chain where
  head : Nat
  data : Nat
  status : Nat

def Chain.toList (i : Chain) : List Nat := [i.head, i.data, i.status]

/-- What a process sleeps on. -/
inductive Chan (B : Type) where
  /-- `&disk.free[0]` -/
  | free
  | buf (b : B)
  deriving DecidableEq

/-- Where a process is. `k` is the number of its request. -/
inductive PC (B : Type) where
  | user
  /-- `acquire(&disk.vdisk_lock)` -/
  | acquire (r : Call B)
  /-- `alloc3_desc(idx)` -/
  | alloc (r : Call B)
  /-- In `sleep(&disk.free[0], &disk.vdisk_lock)`. -/
  | sleepFree (r : Call B)
  /-- After the loop that calls `alloc3_desc`. -/
  | format (r : Call B) (idx : Chain)
  /-- `disk.avail->ring[disk.avail->idx % NUM] = idx[0]` -/
  | ring (r : Call B) (idx : Chain) (k : Nat)
  /-- `disk.avail->idx += 1` -/
  | publish (r : Call B) (idx : Chain) (k : Nat)
  /-- `while(b->disk == 1)` -/
  | wait (r : Call B) (idx : Chain) (k : Nat)
  /-- In `sleep(b, &disk.vdisk_lock)`. -/
  | sleepBuf (r : Call B) (idx : Chain) (k : Nat)
  /-- After the loop that waits. -/
  | finish (r : Call B) (idx : Chain) (k : Nat)
  /-- `release(&disk.vdisk_lock)` -/
  | release (r : Call B) (k : Nat)

/-- Where the interrupt handler of a CPU is. -/
inductive Intr where
  /-- Not in it. -/
  | none
  /-- `acquire(&disk.vdisk_lock)` -/
  | acquire
  /-- `while(disk.used_idx != disk.used->idx)` -/
  | loop
  /-- The body of the loop. -/
  | entry
  /-- `release(&disk.vdisk_lock)` -/
  | release
  deriving DecidableEq

/-- `disk` with its rings, the locks, the processes and the device. -/
structure State (P C B : Type) where
  free : Nat → Bool
  desc : Nat → Desc B
  ops : Nat → BlkReq
  /-- `info[i].b` -/
  info : Nat → Option B
  /-- `info[i].status` -/
  status : Nat → Nat
  availRing : Nat → Nat
  availIdx : Nat
  usedRing : Nat → Nat
  /-- `used->idx` -/
  usedIdx : Nat
  /-- `disk.used_idx` -/
  seenIdx : Nat
  /-- `b->disk` -/
  disk : B → Bool
  /-- The holder of `disk.vdisk_lock`: a process or the handler of a CPU. -/
  vdiskLock : Option (P ⊕ C)
  /-- The holder of `b->lock`. -/
  lock : B → Option P
  pc : P → PC B
  intr : C → Intr
  chan : P → Option (Chan B)
  panic : Option String
  /-- How far the device has read the avail ring. -/
  takenIdx : Nat
  /-- The chains that the device works on. -/
  taken : List Nat
  /-- The chains that the device has completed and not put in the used ring. -/
  done : List Nat
  /-- A chain that is in the used ring, but not yet counted by `used->idx`. -/
  put : Option Nat
  count : Nat
  number : Nat → Nat
  completed : List Nat

/-- What happens next. -/
inductive Event (P C B : Type) where
  /-- The next step of a process in `virtio_disk_rw`. -/
  | go (p : P)
  /-- The next step of a CPU in `virtio_disk_intr`. -/
  | handle (c : C)
  | acquiresleep (p : P) (b : B)
  | releasesleep (p : P) (b : B)
  | virtio_disk_rw (p : P) (r : Call B)
  | virtio_disk_intr (c : C)
  /-- `kill` wakes a process. -/
  | wake (p : P)
  /-- The device takes the next chain of the avail ring. -/
  | take
  /-- The device completes a request. -/
  | complete (i : Nat)
  /-- The device puts a chain in the used ring. -/
  | put (i : Nat)
  /-- The device increments `used->idx`. -/
  | used

namespace State

variable {P C B : Type} [DecidableEq P] [DecidableEq C] [DecidableEq B]

def goto (s : State P C B) (p : P) (pc : PC B) : State P C B :=
  { s with pc := Function.update s.pc p pc }

def intrGoto (s : State P C B) (c : C) (i : Intr) : State P C B :=
  { s with intr := Function.update s.intr c i }

def wakeup (s : State P C B) (ch : Chan B) : State P C B :=
  { s with chan := fun p => if s.chan p = some ch then none else s.chan p }

/-- `sleep(chan, &disk.vdisk_lock)`, up to `sched` -/
def sleep (s : State P C B) (p : P) (ch : Chan B) : State P C B :=
  { s with chan := Function.update s.chan p (some ch), vdiskLock := none }

/-- `alloc_desc`; `none` stands for -1. -/
def alloc_desc (s : State P C B) : State P C B × Option Nat :=
  match (List.range NUM).find? s.free with
  | some i => ({ s with free := Function.update s.free i false }, some i)
  | none => (s, none)

/-- `free_desc` -/
def free_desc (s : State P C B) (i : Nat) : Except String (State P C B) :=
  if NUM ≤ i then .error "free_desc 1"
  else if s.free i then .error "free_desc 2"
  else
    .ok (({ s with
      desc := Function.update s.desc i ⟨.null, 0, 0, 0⟩
      free := Function.update s.free i true }).wakeup .free)

/-- The loop of `free_chain`. Each turn frees a descriptor, so that `NUM + 1`
turns are enough for it to end or to panic. -/
def freeChainLoop : Nat → State P C B → Nat → Except String (State P C B)
  | 0, s, _ => .ok s
  | fuel + 1, s, i =>
    let flag := (s.desc i).flags
    let nxt := (s.desc i).next
    match s.free_desc i with
    | .error e => .error e
    | .ok s => if flag &&& VRING_DESC_F_NEXT ≠ 0 then freeChainLoop fuel s nxt else .ok s

def free_chain (s : State P C B) (i : Nat) : Except String (State P C B) :=
  freeChainLoop (NUM + 1) s i

/-- `for(int j = 0; j < i; j++) free_desc(idx[j]);` -/
def freeDescs (s : State P C B) : List Nat → Except String (State P C B)
  | [] => .ok s
  | i :: idx =>
    match s.free_desc i with
    | .error e => .error e
    | .ok s => freeDescs s idx

/-- The loop of `alloc3_desc` with `n` turns to go, and `idx` so far. -/
def allocLoop : Nat → State P C B → List Nat → Except String (State P C B × Option (List Nat))
  | 0, s, idx => .ok (s, some idx)
  | n + 1, s, idx =>
    match s.alloc_desc with
    | (s, some i) => allocLoop n s (idx ++ [i])
    | (s, none) =>
      match s.freeDescs idx with
      | .error e => .error e
      | .ok s => .ok (s, none)

/-- `alloc3_desc`; `none` stands for -1. -/
def alloc3_desc (s : State P C B) : Except String (State P C B × Option (List Nat)) :=
  allocLoop 3 s []

/-- The three descriptors, the status byte, `b->disk` and `info[idx[0]].b`. -/
def format (s : State P C B) (r : Call B) (idx : Chain) : State P C B :=
  let type := if r.write then VIRTIO_BLK_T_OUT else VIRTIO_BLK_T_IN
  let flags := if r.write then 0 else VRING_DESC_F_WRITE
  let desc := Function.update s.desc idx.head
    ⟨.ops idx.head, 16, VRING_DESC_F_NEXT, idx.data⟩
  let desc := Function.update desc idx.data
    ⟨.data r.b, BSIZE, flags ||| VRING_DESC_F_NEXT, idx.status⟩
  let desc := Function.update desc idx.status
    ⟨.status idx.head, 1, VRING_DESC_F_WRITE, 0⟩
  { s with
    ops := Function.update s.ops idx.head ⟨type, 0, r.sector⟩
    desc := desc
    status := Function.update s.status idx.head 0xff
    disk := Function.update s.disk r.b true
    info := Function.update s.info idx.head (some r.b)
    count := s.count + 1
    number := Function.update s.number idx.head s.count }

def panics (s : State P C B) (msg : String) : State P C B := { s with panic := some msg }

/-- The next step of process `p` in `virtio_disk_rw`. -/
def go (s : State P C B) (p : P) : Option (State P C B) :=
  match s.pc p with
  | .user => none
  | .acquire r =>
    if s.vdiskLock = none then some ({ s with vdiskLock := some (.inl p) }.goto p (.alloc r))
    else none
  | .alloc r =>
    match s.alloc3_desc with
    | .error msg => some (s.panics msg)
    | .ok (s, some [i, j, k]) => some (s.goto p (.format r ⟨i, j, k⟩))
    | .ok (s, _) => some ((s.sleep p .free).goto p (.sleepFree r))
  | .sleepFree r =>
    if s.chan p = none ∧ s.vdiskLock = none then
      some ({ s with vdiskLock := some (.inl p) }.goto p (.alloc r))
    else none
  | .format r idx => some ((s.format r idx).goto p (.ring r idx s.count))
  | .ring r idx k =>
    let availRing := Function.update s.availRing (s.availIdx % NUM) idx.head
    some ({ s with availRing := availRing }.goto p (.publish r idx k))
  | .publish r idx k =>
    some ({ s with availIdx := (s.availIdx + 1) % WRAP }.goto p (.wait r idx k))
  | .wait r idx k =>
    if s.disk r.b then some ((s.sleep p (.buf r.b)).goto p (.sleepBuf r idx k))
    else some (s.goto p (.finish r idx k))
  | .sleepBuf r idx k =>
    if s.chan p = none ∧ s.vdiskLock = none then
      some ({ s with vdiskLock := some (.inl p) }.goto p (.wait r idx k))
    else none
  | .finish r idx k =>
    match { s with info := Function.update s.info idx.head none }.free_chain idx.head with
    | .error msg => some (s.panics msg)
    | .ok s => some (s.goto p (.release r k))
  | .release _ _ => some ({ s with vdiskLock := none }.goto p .user)

/-- `b->disk = 0; wakeup(b); disk.used_idx += 1;` -/
def clear (s : State P C B) (b : B) : State P C B :=
  let s := { s with disk := Function.update s.disk b false }.wakeup (.buf b)
  { s with seenIdx := (s.seenIdx + 1) % WRAP }

/-- The next step of CPU `c` in `virtio_disk_intr`. -/
def handle (s : State P C B) (c : C) : Option (State P C B) :=
  match s.intr c with
  | .none => none
  | .acquire =>
    if s.vdiskLock = none then some ({ s with vdiskLock := some (.inr c) }.intrGoto c .loop)
    else none
  | .loop => some (s.intrGoto c (if s.seenIdx ≠ s.usedIdx then .entry else .release))
  | .entry =>
    let id := s.usedRing (s.seenIdx % NUM)
    if s.status id ≠ 0 then some (s.panics "virtio_disk_intr status")
    else
      match s.info id with
      -- `b->disk = 0` with `b` the null pointer
      | none => some (s.panics "kerneltrap")
      | some b => some ((s.clear b).intrGoto c .loop)
  | .release => some ({ s with vdiskLock := none }.intrGoto c .none)

/-- What the device reads in the chain of head `i`: the request, the buffer,
and where the status goes. -/
def request (s : State P C B) (i : Nat) : Option (BlkReq × B × Nat) :=
  let d₀ := s.desc i
  let d₁ := s.desc d₀.next
  let d₂ := s.desc d₁.next
  match d₀.addr, d₁.addr, d₂.addr with
  | .ops j, .data b, .status k => some (s.ops j, b, k)
  | _, _, _ => none

/-- A step of the device. -/
def device (s : State P C B) : Event P C B → Option (State P C B)
  | .take =>
    if s.takenIdx ≠ s.availIdx then
      some { s with
        taken := s.taken ++ [s.availRing (s.takenIdx % NUM)]
        takenIdx := (s.takenIdx + 1) % WRAP }
    else none
  | .complete i =>
    if i ∈ s.taken then
      match s.request i with
      | some (_, _, k) => some { s with
          status := Function.update s.status k 0
          taken := s.taken.erase i
          done := s.done ++ [i]
          completed := s.number i :: s.completed }
      | none => none
    else none
  | .put i =>
    if i ∈ s.done ∧ s.put = none then
      some { s with
        usedRing := Function.update s.usedRing (s.usedIdx % NUM) i
        done := s.done.erase i
        put := some i }
    else none
  | .used =>
    if s.put.isSome then some { s with usedIdx := (s.usedIdx + 1) % WRAP, put := none } else none
  | _ => none

end State

/-- The driver and the device, from `virtio_disk_init` on. -/
def machine (P C B : Type) [DecidableEq P] [DecidableEq C] [DecidableEq B] :
    Machine (State P C B) (Event P C B) where
  init s := (∀ i, s.free i = decide (i < NUM)) ∧ s.availIdx = 0 ∧ s.usedIdx = 0 ∧ s.seenIdx = 0 ∧
    s.takenIdx = 0 ∧ s.taken = [] ∧ s.done = [] ∧ s.put = none ∧ s.vdiskLock = none ∧
    (∀ p, s.pc p = .user ∧ s.chan p = none) ∧ (∀ c, s.intr c = .none) ∧ (∀ b, s.disk b = false) ∧
    (∀ b, s.lock b = none) ∧ s.panic = none ∧ s.completed = []
  next s e :=
    if s.panic ≠ none then none
    else match e with
    | .go p => s.go p
    | .handle c => s.handle c
    | .acquiresleep p b =>
      match s.pc p, s.lock b with
      | .user, none => some { s with lock := Function.update s.lock b (some p) }
      | _, _ => none
    | .releasesleep p b =>
      match s.pc p with
      | .user =>
        if s.lock b = some p then some { s with lock := Function.update s.lock b none } else none
      | _ => none
    | .virtio_disk_rw p r =>
      match s.pc p with
      | .user => if s.lock r.b = some p then some (s.goto p (.acquire r)) else none
      | _ => none
    | .virtio_disk_intr c => if s.intr c = .none then some (s.intrGoto c .acquire) else none
    | .wake p => some { s with chan := Function.update s.chan p none }
    | .take | .complete _ | .put _ | .used => s.device e

end Xv6.VirtioDisk
