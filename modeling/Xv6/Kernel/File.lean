/-
file.c and pipe.c: the open-file table and the pipes, as far as pages
depend on them. A section under `ftable.lock` or `pi->lock` is one action.
A file of type `FD_INODE` or `FD_DEVICE` holds an inode, whose release
touches no page and is left to the file system's own model.
-/
import Xv6.Kernel.Kalloc

namespace Xv6

open Conc Prog

/-- The first free entry of the file table, taken. -/
def filealloc : Prog Kernel (Option Nat) :=
  atom fun s =>
    match (List.range NFILE).find? fun i => (s.file i).ref = 0 with
    | some i => .ok (some i) (s.updFile i fun f => { f with ref := 1 })
    | none => .ok none s

def filedup (i : Nat) : Prog Kernel Unit :=
  atom fun s =>
    if (s.file i).ref < 1 then .panic "filedup"
    else .ok () (s.updFile i fun f => { f with ref := f.ref + 1 })

variable [KernelImage]

/-- The section of `pipeclose` under `pi->lock`: was this the last end? -/
def Kernel.closeEnd (s : Kernel) (pi : Frame) (writable : Bool) : Bool × Kernel :=
  let p := s.pipe pi
  let p := if writable then { p with writeopen := false } else { p with readopen := false }
  (! p.readopen && ! p.writeopen, { s with pipe := Function.update s.pipe pi p })

def pipeclose (pi : Frame) (writable : Bool) : Prog Kernel Unit := do
  let last ← atom fun s => .ok (s.closeEnd pi writable).1 (s.closeEnd pi writable).2
  if last then kfree pi

/-- The section of `fileclose` under `ftable.lock`: the file, if this was
its last reference. -/
def Kernel.closeFile (s : Kernel) (i : Nat) : Outcome Kernel (Option File) :=
  if (s.file i).ref < 1 then .panic "fileclose"
  else if (s.file i).ref - 1 > 0 then .ok none (s.updFile i fun f => { f with ref := f.ref - 1 })
  else .ok (some (s.file i)) (s.updFile i fun f => { f with ref := 0, type := .FD_NONE })

def fileclose (i : Nat) : Prog Kernel Unit := do
  match ← atom fun s => s.closeFile i with
  | none => return
  | some ff => if ff.type = .FD_PIPE then pipeclose ff.pipe ff.writable

/-- `pi`'s fields and those of the two files, once everything is allocated. -/
def Kernel.initPipe (s : Kernel) (pi : Frame) (f0 f1 : Nat) : Kernel :=
  let s := { s with pipe := Function.update s.pipe pi { readopen := true, writeopen := true } }
  let s := s.updFile f0 fun f =>
    { f with type := .FD_PIPE, readable := true, writable := false, pipe := pi }
  s.updFile f1 fun f =>
    { f with type := .FD_PIPE, readable := false, writable := true, pipe := pi }

/-- `none` is its `return -1`. -/
def pipealloc (ka : Kalloc) : Prog Kernel (Option (Nat × Nat)) := do
  match ← filealloc with
  | none => return none
  | some f0 =>
    match ← filealloc with
    | none =>
      fileclose f0
      return none
    | some f1 =>
      match ← ka with
      | none =>
        fileclose f0
        fileclose f1
        return none
      | some pi =>
        modify fun s => s.initPipe pi f0 f1
        return some (f0, f1)

end Xv6
