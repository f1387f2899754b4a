import Xv6.PipeRt.Pipe

/-!
# Descriptors of priority pipes

`sys_pipe_rt` of `proj2/kernel/pipe_rt.c` and the calls that work on
descriptors: `read`, `write`, `dup`, `fork`, `close` and `exit`, over the
descriptor tables of all processes, the file table, the page allocator and
all priority pipes that were ever made.

One transition is one call, or one pass of a reader through the loop of
`pipe_rt_read`.  The rest of the kernel takes and returns pages of its own
and opens files of other types.

Each pipe carries two histories that no function reads: the pages that came
off the free list on its behalf, and the pages that its calls put back.
-/

namespace Xv6.PipeRt.Files

open Xv6.Lib Function

/-- A priority pipe: its page and what is in it, the pages taken off the
free list for it and the pages given back. -/
structure Rec where
  page : Nat
  pipe : Pipe
  taken : List Nat
  given : List Nat
  deriving DecidableEq, Repr

/-- The pages of the queue nodes. -/
def Rec.nodes (r : Rec) : List Nat := r.pipe.head.map PqNode.page

/-- The pages that the pipe uses: `struct pipe_rt` and the queue nodes. -/
def Rec.inUse (r : Rec) : List Nat := r.page :: r.nodes

/-- The pipe after a call that left the page allocator at `k'` and the
pipe's contents at `pipe`. -/
def Rec.after (r : Rec) (k k' : Kmem) (pipe : Pipe) : Rec :=
  { r with
    pipe := pipe
    taken := r.taken ++ k.freelist.take (k.freelist.length - k'.freelist.length)
    given := r.given ++ k'.freelist.take (k'.freelist.length - k.freelist.length) }

/-- A descriptor of a process. -/
abbrev Slot := Fin NPROC × Fin NOFILE

/-- The page allocator, the pages that the rest of the kernel holds, the
file table, `ofile` of every process, and the pipes. -/
structure State where
  kmem : Kmem
  others : List Nat
  ftable : Ftable
  ofile : Slot → Option (Fin NFILE)
  pipes : List Rec

namespace State

/-- The pipe in the page `page`. -/
def find? (s : State) (page : Nat) : Option Rec := s.pipes.find? fun r => r.page = page

/-- A call on the pipe `r` that ends with `kmem` and `pipe`. -/
def setPipe (s : State) (r : Rec) (kmem : Kmem) (pipe : Pipe) : State :=
  { s with
    kmem := kmem
    pipes := s.pipes.map fun q => if q.page = r.page then r.after s.kmem kmem pipe else q }

/-- `p->ofile[fd] = f`. -/
def setSlot (s : State) (slot : Slot) (f : Option (Fin NFILE)) : State :=
  { s with ofile := update s.ofile slot f }

end State

/-- The part of the state that the calls of `pipe_rt.c` see.  Who sleeps in
`pipe_rt_read` does not matter here. -/
def Rec.sys (r : Rec) (kmem : Kmem) : Sys := ⟨kmem, r.pipe, fun _ => .outside⟩

/-! ## `file.c` -/

/-- `fdalloc`: the first free descriptor. -/
def fdalloc (s : State) (p : Fin NPROC) (f : Fin NFILE) : Option (Fin NOFILE × State) :=
  match (List.finRange NOFILE).find? fun fd => s.ofile (p, fd) = none with
  | none => none
  | some fd => some (fd, s.setSlot (p, fd) (some f))

/-- `filedup`. -/
def filedup (s : State) (f : Fin NFILE) : Except Panic State :=
  if (s.ftable f).ref < 1 then
    .error .filedup
  else
    .ok { s with
      ftable := update s.ftable f { s.ftable f with ref := (s.ftable f).ref + 1 } }

/-- `pipe_rt_close` on the pipe that a file names. -/
def closeEnd (s : State) (page : Nat) (writable : Bool) : Except Panic State :=
  match s.find? page with
  | none => .ok s
  | some r => do
    let t ← pipeRtClose (r.sys s.kmem) writable
    return s.setPipe r t.kmem t.pipe

/-- `fileclose`.  What the last close of a file of another type gives back
belongs to the rest of the kernel. -/
def fileclose (s : State) (f : Fin NFILE) : Except Panic State := do
  let (last, ftable) ← filecloseTable s.ftable f
  let s := { s with ftable := ftable }
  match last with
  | none => return s
  | some ff => if ff.type = .pipeRt then closeEnd s ff.pipe (ff.writable != 0) else return s

/-! ## System calls -/

/-- `sys_pipe_rt`.  `copied` is what the two calls of `copyout` come to. -/
def sysPipeRt (s : State) (p : Fin NPROC) (copied : Bool × Bool) :
    Except Panic (State × Int) :=
  match pipeRtAlloc s.kmem s.ftable with
  | .error e => .error e
  | .ok (none, kmem, ftable) => .ok ({ s with kmem := kmem, ftable := ftable }, -1)
  | .ok (some fresh, kmem, ftable) =>
    let s := { s with
      kmem := kmem
      ftable := ftable
      pipes := s.pipes ++ [⟨fresh.page, fresh.pipe, [fresh.page], []⟩] }
    match fdalloc s p fresh.f0 with
    | none => do
      let s ← fileclose s fresh.f0
      let s ← fileclose s fresh.f1
      return (s, -1)
    | some (fd0, s) =>
      match fdalloc s p fresh.f1 with
      | none => do
        let s ← fileclose (s.setSlot (p, fd0) none) fresh.f0
        let s ← fileclose s fresh.f1
        return (s, -1)
      | some (fd1, s) =>
        if copied.1 && copied.2 then
          .ok (s, 0)
        else do
          let s ← fileclose ((s.setSlot (p, fd0) none).setSlot (p, fd1) none) fresh.f0
          let s ← fileclose s fresh.f1
          return (s, -1)

/-- `sys_read`, up to the return or to the next `sleep`, where there is no
return value yet.  Files of other types leave this state alone. -/
def sysRead (s : State) (slot : Slot) (copyoutOk : Bool) : Except Panic (State × Option Int) :=
  match s.ofile slot with
  | none => .ok (s, some (-1))
  | some f =>
    if !(s.ftable f).readable then
      .ok (s, some (-1))
    else if (s.ftable f).type ≠ .pipeRt then
      .ok (s, none)
    else
      match s.find? (s.ftable f).pipe with
      | none => .ok (s, none)
      | some r => do
        match ← pipeRtRead (r.sys s.kmem) copyoutOk with
        | .sleep => return (s, none)
        | .fail t => return (s.setPipe r t.kmem t.pipe, some (-1))
        | .deliver _ t => return (s.setPipe r t.kmem t.pipe, some sizeofTask)

/-- `sys_write`. -/
def sysWrite (s : State) (slot : Slot) (copied : Option Task) : State × Option Int :=
  match s.ofile slot with
  | none => (s, some (-1))
  | some f =>
    if (s.ftable f).writable = 0 then
      (s, some (-1))
    else if (s.ftable f).type ≠ .pipeRt then
      (s, none)
    else
      match s.find? (s.ftable f).pipe with
      | none => (s, none)
      | some r =>
        let t := pipeRtWrite (r.sys s.kmem) copied
        (s.setPipe r t.1.kmem t.1.pipe, some t.2)

/-- `sys_dup`. -/
def sysDup (s : State) (slot : Slot) : Except Panic (State × Int) :=
  match s.ofile slot with
  | none => .ok (s, -1)
  | some f =>
    match fdalloc s slot.1 f with
    | none => .ok (s, -1)
    | some (fd, s) => do
      let s ← filedup s f
      return (s, fd.1)

/-- `sys_close`. -/
def sysClose (s : State) (slot : Slot) : Except Panic (State × Int) :=
  match s.ofile slot with
  | none => .ok (s, -1)
  | some f => do
    let s ← fileclose (s.setSlot slot none) f
    return (s, 0)

/-- The loop of `fork` that gives the child `np` the open files of `p`. -/
def forkFiles (p np : Fin NPROC) : State → List (Fin NOFILE) → Except Panic State
  | s, [] => .ok s
  | s, fd :: rest =>
    match s.ofile (p, fd) with
    | none => forkFiles p np s rest
    | some f => do
      let s ← filedup s f
      forkFiles p np (s.setSlot (np, fd) (some f)) rest

/-- The loop of `exit` that closes all open files. -/
def exitFiles (p : Fin NPROC) : State → List (Fin NOFILE) → Except Panic State
  | s, [] => .ok s
  | s, fd :: rest =>
    match s.ofile (p, fd) with
    | none => exitFiles p s rest
    | some f => do
      let s ← fileclose s f
      exitFiles p (s.setSlot (p, fd) none) rest

/-- A file of another type is opened, and gets a descriptor if there is
one. -/
def openOther (s : State) (p : Fin NPROC) (file : File) : State :=
  match filealloc s.ftable with
  | none => s
  | some (f, ftable) =>
    match fdalloc { s with ftable := update ftable f { file with ref := 1 } } p f with
    | none => s
    | some (_, s) => s

/-! ## The system -/

/-- The calls of the processes, and what the rest of the kernel does. -/
inductive Call where
  | pipeRt (p : Fin NPROC) (copied : Bool × Bool)
  | read (slot : Slot) (copyoutOk : Bool)
  | write (slot : Slot) (copied : Option Task)
  | dup (slot : Slot)
  | fork (p np : Fin NPROC)
  | close (slot : Slot)
  | exit (p : Fin NPROC)
  | openOther (p : Fin NPROC) (file : File)
  | otherKalloc
  | otherKfree (pa : Nat)

/-- The transition function: `none` for a call that is not enabled, and an
error for a panic.  A child is a process without open files, and the rest
of the kernel frees only pages that it holds. -/
def step (s : State) : Call → Option (Except Panic State)
  | .pipeRt p copied => some (Prod.fst <$> sysPipeRt s p copied)
  | .read slot ok => some (Prod.fst <$> sysRead s slot ok)
  | .write slot copied => some (.ok (sysWrite s slot copied).1)
  | .dup slot => some (Prod.fst <$> sysDup s slot)
  | .fork p np =>
    if p ≠ np ∧ ∀ fd, s.ofile (np, fd) = none then
      some (forkFiles p np s (List.finRange NOFILE))
    else none
  | .close slot => some (Prod.fst <$> sysClose s slot)
  | .exit p => some (exitFiles p s (List.finRange NOFILE))
  | .openOther p file => if file.type ≠ .pipeRt then some (.ok (openOther s p file)) else none
  | .otherKalloc =>
    (kalloc s.kmem).map fun r => .ok { s with kmem := r.2, others := r.1 :: s.others }
  | .otherKfree pa =>
    if pa ∈ s.others then
      some ((fun k => { s with kmem := k, others := s.others.erase pa }) <$> kfree s.kmem pa)
    else none

/-- The steps of the system. -/
def Steps (s : State) (c : Call) (t : State) : Prop := step s c = some (.ok t)

/-- No file is open and no priority pipe was made.  Every page is on the
free list or held by the rest of the kernel. -/
structure Boot (s : State) : Prop where
  pipes : s.pipes = []
  ofile : ∀ slot, s.ofile slot = none
  ftable : ∀ f, (s.ftable f).ref = 0 ∧ (s.ftable f).type = .none
  pages : (s.kmem.freelist ++ s.others).Nodup

/-- No process has a descriptor of an end of the pipe in `page`. -/
def State.Gone (s : State) (page : Nat) : Prop :=
  ∀ slot, ∀ f ∈ s.ofile slot, ¬ ((s.ftable f).type = .pipeRt ∧ (s.ftable f).pipe = page)

instance (s : State) (page : Nat) : Decidable (s.Gone page) :=
  inferInstanceAs (Decidable (∀ slot, ∀ f ∈ s.ofile slot, ¬ (_ ∧ _)))

/-- The law of the pages of the pipe `r`.  Once its last descriptor is gone,
the pages that were given back are the pages that were taken; before that,
no page that the pipe uses is on the free list.  No page is on the free
list twice. -/
structure State.Accounted (s : State) (r : Rec) : Prop where
  back : s.Gone r.page → r.given.Perm r.taken
  held : ¬ s.Gone r.page → ∀ pa ∈ r.inUse, pa ∉ s.kmem.freelist
  once : s.kmem.freelist.Nodup

end Xv6.PipeRt.Files
