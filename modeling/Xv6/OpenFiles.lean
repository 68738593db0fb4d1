/-
file.c, pipe.c, sysfile.c: who refers to what.

A descriptor refers to an open file, an open file to an inode or to one end
of a pipe, and a process to its current directory. `ref` counts the
references; here is what `open`, `dup`, `pipe`, `fork`, `close`, `exit` and
`chdir` do with them, one critical section at a time, on any number of
processes; the other calls that look up paths are here for the inodes they
have in hand meanwhile. What the disk holds is up to the run: the inode that a name is
found to have, whether it is a directory, and which calls run out of it.
-/
import Mathlib.Logic.Function.Basic
import Mathlib.Data.Fintype.Basic
import Mathlib.Data.List.FinRange
import Xv6.Lib.Machine

namespace Xv6.OpenFiles

open Conc

/-- `f->type` with the fields that it gives a meaning to. -/
inductive Kind (l : Nat) (G : Type)
  | FD_NONE
  | FD_PIPE (pipe : G) (writable : Bool)
  | FD_INODE (ip : Fin l)
  | FD_DEVICE (ip : Fin l)
  deriving DecidableEq

structure Pipe where
  readopen : Bool
  writeopen : Bool
  /-- How often the page has been allocated to be a pipe, and freed again. -/
  allocs : Nat
  frees : Nat

inductive Status
  | UNUSED
  /-- Found by `allocproc`, with its lock held. -/
  | USED
  | live
  | ZOMBIE
  deriving DecidableEq

/-- References that are on their way out. -/
inductive Drop (m l : Nat) (G : Type)
  | fileclose (f : Fin m)
  | pipeclose (pi : G) (writable : Bool)
  | iput (ip : Fin l)

/-- What a path is looked up for. `create`, `linkTo` and `unlink` look up the
parent; `create` is by `open`, which keeps the inode, or by `mkdir` and
`mknod`, which go on with `taken` if the name is there. `link` has the old
inode in hand while it looks up the new name. -/
inductive Goal (l : Nat)
  | chdir
  | open
  | create (keep : Bool)
  | exec
  | link
  | linkTo (ip : Fin l)
  | unlink
  | taken

/-- Where a process is in a system call. -/
inductive PC (n m k l : Nat)
  | user
  | filedup (f : Fin m)
  /-- The loop of `exit`, and after `fileclose(f)` and `iput(p->cwd)`. -/
  | closeAll (fd : Nat)
  | clearFd (fd : Fin k) (f : Fin m)
  | clearCwd (ip : Fin l)
  | exited
  /-- `namex`: before it, and at the head of its loop. -/
  | lookup (goal : Goal l)
  | namex (ip : Fin l) (goal : Goal l)
  | found (ip : Fin l) (goal : Goal l)
  | dirlink (dp ip : Fin l) (keep : Bool)
  | setCwd (old ip : Fin l)
  | openAlloc (ip : Fin l)
  | openFd (ip : Fin l) (f : Fin m)
  | pipe0
  | pipe1 (rf : Fin m)
  | pipePage (rf wf : Fin m)
  | pipeFd0 (rf wf : Fin m)
  | pipeFd1 (fd0 : Fin k) (rf wf : Fin m)
  | pipeOut (fd0 fd1 : Fin k) (rf wf : Fin m)
  | forkMem (np : Fin n)
  | forkLoop (np : Fin n) (i : Nat)
  | forkCwd (np : Fin n)

/-- How what is not modelled turns out: the call goes on, or fails, or finds
an inode, or is given a page; `device` is an inode of type T_DEVICE, and
`noType` one that `ilock` finds to be free on the disk. -/
inductive Choice (G : Type)
  | ok
  | fail
  | noType
  | inode (inum : Nat)
  | new (inum : Nat)
  | device
  | page (pi : G)

/-- `n` processes with `k` descriptors each, `ftable` with `m` files, `itable`
with `l` inodes. -/
structure State (n m k l : Nat) (G : Type) where
  ref : Fin m → Int
  kind : Fin m → Kind l G
  iref : Fin l → Int
  inum : Fin l → Nat
  pipe : G → Pipe
  status : Fin n → Status
  ofile : Fin n → Fin k → Option (Fin m)
  cwd : Fin n → Option (Fin l)
  drops : Fin n → List (Drop m l G)
  pc : Fin n → PC n m k l
  panic : Option String

inductive Event (n k l : Nat) (G : Type)
  | go (p : Fin n) (c : Choice G)
  | dup (p : Fin n) (fd : Fin k)
  | close (p : Fin n) (fd : Fin k)
  /-- `open`, `chdir` and the other calls that look up a path. -/
  | path (p : Fin n) (goal : Goal l)
  | pipe (p : Fin n)
  | fork (p np : Fin n)
  | exit (p : Fin n)
  /-- `wait` frees a child. -/
  | reap (p : Fin n)

variable {n m k l : Nat} {G : Type}

/-- The inode that a call has in hand during a lookup. -/
def Goal.held : Goal l → List (Drop m l G)
  | .linkTo ip => [.iput ip]
  | _ => []

/-- What the last `fileclose` of a file leads to. -/
def Kind.close : Kind l G → List (Drop m l G)
  | .FD_NONE => []
  | .FD_PIPE pi writable => [.pipeclose pi writable]
  | .FD_INODE ip | .FD_DEVICE ip => [.iput ip]

/-- One end of the pipe is open. -/
def Pipe.isOpen (x : Pipe) : Bool → Bool
  | true => x.writeopen
  | false => x.readopen

/-- The page is a pipe. -/
def Pipe.used (x : Pipe) : Bool := x.readopen || x.writeopen

/-- The page has been freed as often as it has been a pipe, but for the time
that it is one. -/
def Pipe.Paged (x : Pipe) : Prop := x.allocs = x.frees + if x.used then 1 else 0

/-- `pipeclose` closes one end, and frees the page if the other is closed. -/
def Pipe.close (x : Pipe) (writable : Bool) : Pipe :=
  let x' := if writable then { x with writeopen := false } else { x with readopen := false }
  if x'.used then x' else { x' with frees := x'.frees + 1 }

namespace State

variable [DecidableEq G]

/-- Process `p` goes on at `pc`, when it has dropped some references. -/
def goto (s : State n m k l G) (p : Fin n) (ds : List (Drop m l G)) (pc : PC n m k l) :
    State n m k l G :=
  { s with drops := Function.update s.drops p ds, pc := Function.update s.pc p pc }

def setFd (s : State n m k l G) (p : Fin n) (fd : Fin k) (f : Option (Fin m)) : State n m k l G :=
  { s with ofile := Function.update s.ofile p (Function.update (s.ofile p) fd f) }

def setCwd (s : State n m k l G) (p : Fin n) (ip : Option (Fin l)) : State n m k l G :=
  { s with cwd := Function.update s.cwd p ip }

def setStatus (s : State n m k l G) (p : Fin n) (st : Status) : State n m k l G :=
  { s with status := Function.update s.status p st }

def setRef (s : State n m k l G) (f : Fin m) (ref : Int) (kind : Kind l G) : State n m k l G :=
  { s with ref := Function.update s.ref f ref, kind := Function.update s.kind f kind }

/-- `pipealloc` has got a page for the pipe. -/
def initPipe (s : State n m k l G) (pi : G) : State n m k l G :=
  { s with
    pipe := Function.update s.pipe pi ⟨true, true, (s.pipe pi).allocs + 1, (s.pipe pi).frees⟩ }

def addIref (s : State n m k l G) (ip : Fin l) (d : Int) : State n m k l G :=
  { s with iref := Function.update s.iref ip (s.iref ip + d) }

/-- The file that `filealloc` finds. -/
def freeFile (s : State n m k l G) : Option (Fin m) :=
  (List.finRange m).find? fun f => s.ref f = 0

/-- The slot that `fdalloc` finds. -/
def freeFd (s : State n m k l G) (p : Fin n) : Option (Fin k) :=
  (List.finRange k).find? fun fd => (s.ofile p fd).isNone

/-- `iget`: an entry for the inode, and the table with one more reference. -/
def iget (s : State n m k l G) (inum : Nat) : Option (Fin l × State n m k l G) :=
  match (List.finRange l).find? fun ip => 0 < s.iref ip ∧ s.inum ip = inum with
  | some ip => some (ip, s.addIref ip 1)
  | none =>
    ((List.finRange l).find? fun ip => s.iref ip = 0).map fun ip =>
      (ip, { s with iref := Function.update s.iref ip 1, inum := Function.update s.inum ip inum })

/-- What a process does with the inode that `iget` returns. -/
def withInode (s : State n m k l G) (inum : Nat)
    (next : Fin l → State n m k l G → State n m k l G) : State n m k l G :=
  match s.iget inum with
  | some (ip, s') => next ip s'
  | none => { s with panic := some "iget: no inodes" }

/-- A step that gives a reference up. -/
def drop (s : State n m k l G) (p : Fin n) (ds : List (Drop m l G)) : Drop m l G → State n m k l G
  | .fileclose f =>
    if s.ref f < 1 then { s with panic := some "fileclose" }
    else if s.ref f = 1 then
      (s.setRef f 0 .FD_NONE).goto p ((s.kind f).close ++ ds) (s.pc p)
    else (s.setRef f (s.ref f - 1) (s.kind f)).goto p ds (s.pc p)
  | .pipeclose pi writable =>
    { s with pipe := Function.update s.pipe pi ((s.pipe pi).close writable) }.goto p ds (s.pc p)
  | .iput ip => (s.addIref ip (-1)).goto p ds (s.pc p)

/-- `filedup`, and how the process goes on. -/
def filedup (s : State n m k l G) (f : Fin m) (next : State n m k l G → State n m k l G) :
    State n m k l G :=
  if s.ref f < 1 then { s with panic := some "filedup" }
  else next (s.setRef f (s.ref f + 1) (s.kind f))

/-- A step of a process with nothing to drop. -/
def step (s : State n m k l G) (p : Fin n) (c : Choice G) : Option (State n m k l G) :=
  match s.pc p with
  | .user => none
  | .filedup f => some (s.filedup f fun s => s.goto p [] .user)
  | .closeAll i =>
    if h : i < k then
      match s.ofile p ⟨i, h⟩ with
      | some f => some (s.goto p [.fileclose f] (.clearFd ⟨i, h⟩ f))
      | none => some (s.goto p [] (.closeAll (i + 1)))
    else (s.cwd p).map fun ip => s.goto p [.iput ip] (.clearCwd ip)
  | .clearFd fd _ => some ((s.setFd p fd none).goto p [] (.closeAll (fd + 1)))
  | .clearCwd _ => some ((s.setCwd p none).goto p [] .exited)
  | .exited => some ((s.setStatus p .ZOMBIE).goto p [] .user)
  | .lookup goal =>
    match c with
    -- the path is absolute: iget(ROOTDEV, ROOTINO)
    | .inode _ => some (s.withInode 1 fun ip s => s.goto p [] (.namex ip goal))
    | .ok => (s.cwd p).map fun ip => (s.addIref ip 1).goto p [] (.namex ip goal)
    | _ => some (s.goto p goal.held .user)
  | .namex ip goal =>
    match c with
    | .ok => some (s.goto p [] (.found ip goal))
    | .inode inum => some (s.withInode inum fun next s => s.goto p [.iput ip] (.namex next goal))
    | .noType => some { s with panic := some "ilock: no type" }
    | _ => some (s.goto p (.iput ip :: goal.held) .user)
  | .found ip goal =>
    match goal, c with
    | _, .noType => some { s with panic := some "ilock: no type" }
    | .chdir, .ok => (s.cwd p).map fun old => s.goto p [.iput old] (.setCwd old ip)
    | .open, .ok => some (s.goto p [] (.openAlloc ip))
    | .link, .ok => some (s.goto p [] (.lookup (.linkTo ip)))
    -- the name is there
    | .create keep, .inode inum => some (s.withInode inum fun x s =>
        s.goto p [.iput ip] (.found x (if keep then .open else .taken)))
    | .create keep, .new inum =>
      some (s.withInode inum fun x s => s.goto p [] (.dirlink ip x keep))
    | .linkTo old, .inode inum =>
      some (s.withInode inum fun x s => s.goto p [.iput x, .iput ip, .iput old] .user)
    | .unlink, .inode inum =>
      some (s.withInode inum fun x s => s.goto p [.iput ip, .iput x] .user)
    | goal, _ => some (s.goto p (.iput ip :: goal.held) .user)
  | .setCwd _ ip => some ((s.setCwd p (some ip)).goto p [] .user)
  | .dirlink dp ip keep =>
    match c with
    | .ok =>
      if keep then some (s.goto p [.iput dp] (.openAlloc ip))
      else some (s.goto p [.iput dp, .iput ip] .user)
    | .inode inum => some (s.withInode inum fun x s => s.goto p [.iput x, .iput ip, .iput dp] .user)
    | _ => some (s.goto p [.iput ip, .iput dp] .user)
  | .openAlloc ip =>
    match s.freeFile with
    | some f => some ((s.setRef f 1 (s.kind f)).goto p [] (.openFd ip f))
    | none => some (s.goto p [.iput ip] .user)
  | .openFd ip f =>
    match s.freeFd p with
    | some fd =>
      let kind := match c with
        | .device => Kind.FD_DEVICE ip
        | _ => Kind.FD_INODE ip
      some (((s.setRef f (s.ref f) kind).setFd p fd (some f)).goto p [] .user)
    | none => some (s.goto p [.fileclose f, .iput ip] .user)
  | .pipe0 =>
    match s.freeFile with
    | some f => some ((s.setRef f 1 (s.kind f)).goto p [] (.pipe1 f))
    | none => some (s.goto p [] .user)
  | .pipe1 rf =>
    match s.freeFile with
    | some f => some ((s.setRef f 1 (s.kind f)).goto p [] (.pipePage rf f))
    | none => some (s.goto p [.fileclose rf] .user)
  | .pipePage rf wf =>
    match c with
    | .page pi =>
      if (s.pipe pi).used then none
      else
        some ((((s.initPipe pi).setRef rf (s.ref rf) (.FD_PIPE pi false)).setRef wf (s.ref wf)
          (.FD_PIPE pi true)).goto p [] (.pipeFd0 rf wf))
    | _ => some (s.goto p [.fileclose rf, .fileclose wf] .user)
  | .pipeFd0 rf wf =>
    match s.freeFd p with
    | some fd0 => some ((s.setFd p fd0 (some rf)).goto p [] (.pipeFd1 fd0 rf wf))
    | none => some (s.goto p [.fileclose rf, .fileclose wf] .user)
  | .pipeFd1 fd0 rf wf =>
    match s.freeFd p with
    | some fd1 => some ((s.setFd p fd1 (some wf)).goto p [] (.pipeOut fd0 fd1 rf wf))
    | none => some ((s.setFd p fd0 none).goto p [.fileclose rf, .fileclose wf] .user)
  | .pipeOut fd0 fd1 rf wf =>
    match c with
    | .ok => some (s.goto p [] .user)
    -- copyout fails
    | _ => some (((s.setFd p fd0 none).setFd p fd1 none).goto p [.fileclose rf, .fileclose wf] .user)
  | .forkMem np =>
    match c with
    | .ok => some (s.goto p [] (.forkLoop np 0))
    | _ => some ((s.setStatus np .UNUSED).goto p [] .user)
  | .forkLoop np i =>
    if h : i < k then
      match s.ofile p ⟨i, h⟩ with
      | some f =>
        some (s.filedup f fun s => (s.setFd np ⟨i, h⟩ (some f)).goto p [] (.forkLoop np (i + 1)))
      | none => some (s.goto p [] (.forkLoop np (i + 1)))
    else some (s.goto p [] (.forkCwd np))
  | .forkCwd np =>
    (s.cwd p).map fun ip =>
      (((s.addIref ip 1).setCwd np (some ip)).setStatus np .live).goto p [] .user

/-- The process is in no system call, and can make one. -/
def Idle (s : State n m k l G) (p : Fin n) : Prop :=
  s.status p = .live ∧ (s.drops p).isEmpty = true ∧ (s.pc p matches .user) = true

instance (s : State n m k l G) (p : Fin n) : Decidable (s.Idle p) :=
  inferInstanceAs (Decidable (_ ∧ _ ∧ _))

/-- What an event does. -/
def next (s : State n m k l G) (e : Event n k l G) : Option (State n m k l G) :=
  if s.panic ≠ none then none
  else
    match e with
    | .go p c =>
      match s.drops p with
      | d :: ds => some (s.drop p ds d)
      | [] => s.step p c
    | .dup p fd =>
      if s.Idle p then
        match s.ofile p fd, s.freeFd p with
        | some f, some fd' => some ((s.setFd p fd' (some f)).goto p [] (.filedup f))
        | _, _ => none
      else none
    | .close p fd =>
      if s.Idle p then
        (s.ofile p fd).map fun f => (s.setFd p fd none).goto p [.fileclose f] .user
      else none
    | .path p goal =>
      match goal with
      | .linkTo _ | .taken => none
      | _ => if s.Idle p then some (s.goto p [] (.lookup goal)) else none
    | .pipe p => if s.Idle p then some (s.goto p [] .pipe0) else none
    | .fork p np =>
      if s.Idle p ∧ s.status np = .UNUSED then
        some ((s.setStatus np .USED).goto p [] (.forkMem np))
      else none
    | .exit p => if s.Idle p then some (s.goto p [] (.closeAll 0)) else none
    | .reap p => if s.status p = .ZOMBIE then some (s.setStatus p .UNUSED) else none

end State

/-- After `userinit`: one process, in the root directory. -/
def start (initproc : Fin n) (root : Fin l) : State n m k l G where
  ref _ := 0
  kind _ := .FD_NONE
  iref := Function.update (fun _ => 0) root 1
  inum _ := 1
  pipe _ := ⟨false, false, 0, 0⟩
  status := Function.update (fun _ => .UNUSED) initproc .live
  ofile _ _ := none
  cwd := Function.update (fun _ => none) initproc (some root)
  drops _ := []
  pc _ := .user
  panic := none

def machine [DecidableEq G] (initproc : Fin n) (root : Fin l) :
    Machine (State n m k l G) (Event n k l G) where
  init s := s = start initproc root
  next := State.next

end Xv6.OpenFiles
