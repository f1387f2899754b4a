import Xv6.File
import Xv6.Kalloc
import Xv6.Lib.Run

/-!
# Descriptors of all processes

The calls that make and drop references to files: `sys_open`, `sys_dup`,
`sys_close`, `sys_pipe` and `sys_pipe_rt` with `pipealloc` and
`pipe_rt_alloc`, and the loops over the open files in `fork` and `exit`,
together with `filealloc`, `filedup`, `fileclose`, `pipeclose` and
`pipe_rt_close`.

The calls of different processes interleave.  A process stands at a location
inside its call, and a step takes it to the next one.  A step contains at
most one access to what processes share: the file table under `ftable.lock`,
a pipe under its lock, or the free pages; `ofile` is read and written only by
the process itself, and by its parent before it runs.

A pipe is named by the address of its page, and the page can be used again
once it is free.  `mem` says which pipe is in a page, and `closed` is the
history of the calls of `pipeclose` and `pipe_rt_close` on a pipe, which no
function reads.  What the source does with inodes, user memory and the
contents of pipes is left out; where it can fail, the step has a choice.
-/

namespace Xv6.Files

open Lib Function

/-- A descriptor of a process. -/
abbrev Slot := Fin NPROC × Fin NOFILE

/-- A pipe that was made.  `readopen` and `writeopen` are those of `struct
pipe`, or `nread` and `nwrite` of `struct pipe_rt`.  `closed` holds, for every
close, whether it was `pipe_rt_close`, and `writable`. -/
structure Pipe where
  rt : Bool
  readopen : Int
  writeopen : Int
  closed : List (Bool × Bool)
  deriving DecidableEq, Repr

/-- `pipeclose`, up to the release of the lock. -/
def Pipe.pipeclose (pi : Pipe) (writable : Bool) : Pipe :=
  { pi with
    readopen := if writable then pi.readopen else 0
    writeopen := if writable then 0 else pi.writeopen
    closed := (false, writable) :: pi.closed }

/-- `pipe_rt_close`. -/
def Pipe.pipeRtClose (pi : Pipe) (writable : Bool) : Pipe :=
  { pi with
    readopen := if writable then pi.readopen else pi.readopen - 1
    writeopen := if writable then pi.writeopen - 1 else pi.writeopen
    closed := (true, writable) :: pi.closed }

/-- Where a process stands.  `next` is where it goes on after a close. -/
inductive Loc where
  /-- an entry of the process table without a process -/
  | dead
  /-- a child whose parent is still in `fork` -/
  | embryo (parent : Fin NPROC)
  /-- outside these calls; `a0` is the result of the last one -/
  | user (a0 : Int)
  /-- `sys_open` has a file -/
  | openFd (f : Fin NFILE) (file : File)
  /-- `pipe_rt_alloc` has a page -/
  | pipeRead (page : Nat)
  /-- `pipealloc`, or `pipe_rt_alloc` with its page, has the read end -/
  | pipeWrite (page : Option Nat) (rf : Fin NFILE)
  /-- `pipealloc` has both ends -/
  | pipePage (rf wf : Fin NFILE)
  /-- `pipealloc` or `pipe_rt_alloc` has all -/
  | pipeInit (rt : Bool) (page : Nat) (rf wf : Fin NFILE)
  /-- `fileclose(f)` -/
  | close (f : Fin NFILE) (next : Loc)
  /-- `fileclose` has dropped the last reference -/
  | closeEnd (ff : File) (next : Loc)
  /-- `kfree(page)` -/
  | kfree (page : Nat) (next : Loc)
  /-- `fork`, at descriptor `i` -/
  | fork (np : Fin NPROC) (pid : Int) (i : Nat)
  /-- `exit`, at descriptor `fd` -/
  | exit (fd : Nat)
  /-- `exit` has closed the file of `fd` -/
  | exitClear (fd : Fin NOFILE)
  deriving DecidableEq, Repr

/-- The state of the system: the free pages, the pages of the rest of the
kernel, the file table, `ofile` of all processes, the pipes, and where the
processes stand. -/
structure State where
  kmem : Kmem
  others : List Nat
  ftable : Ftable
  ofile : Slot → Option (Fin NFILE)
  mem : Nat → Option Nat
  pipe : Nat → Pipe
  npipes : Nat
  loc : Fin NPROC → Loc

namespace State

/-- The process goes on at a location. -/
def goto (s : State) (p : Fin NPROC) (l : Loc) : State :=
  { s with loc := update s.loc p l }

/-- `p->ofile[fd] = f`. -/
def setSlot (s : State) (slot : Slot) (f : Option (Fin NFILE)) : State :=
  { s with ofile := update s.ofile slot f }

/-- Change an entry of the file table. -/
def setFile (s : State) (f : Fin NFILE) (file : File) : State :=
  { s with ftable := update s.ftable f file }

/-- `fdalloc`: the first free descriptor. -/
def fdalloc (s : State) (p : Fin NPROC) (f : Fin NFILE) : Option (Fin NOFILE × State) :=
  ((List.finRange NOFILE).find? fun fd => s.ofile (p, fd) = none).map fun fd =>
    (fd, s.setSlot (p, fd) (some f))

/-- `filedup`. -/
def filedup (s : State) (f : Fin NFILE) : Except Panic State :=
  if (s.ftable f).ref < 1 then .error .filedup
  else .ok (s.setFile f { s.ftable f with ref := (s.ftable f).ref + 1 })

/-! ## Pipes -/

/-- The fields that `pipealloc` and `pipe_rt_alloc` store in their files. -/
def pipeFile (file : File) (rt : Bool) (page : Nat) (writable : Bool) : File :=
  { file with
    type := if rt then .pipeRt else .pipe
    readable := !writable
    writable := if writable then 1 else 0
    pipe := page }

/-- The end of `pipealloc` and `pipe_rt_alloc`: there is a new pipe. -/
def newPipe (s : State) (rt : Bool) (page : Nat) (rf wf : Fin NFILE) : State :=
  let s := { s with
    mem := update s.mem page (some s.npipes)
    pipe := update s.pipe s.npipes { rt := rt, readopen := 1, writeopen := 1, closed := [] }
    npipes := s.npipes + 1 }
  let s := s.setFile rf (pipeFile (s.ftable rf) rt page false)
  s.setFile wf (pipeFile (s.ftable wf) rt page true)

/-- `sys_pipe` and `sys_pipe_rt` after the allocation.  `copied` is what the
two calls of `copyout` come to. -/
def installPipe (s : State) (p : Fin NPROC) (rf wf : Fin NFILE) (copied : Bool) : State :=
  let bad := Loc.close rf (.close wf (.user (-1)))
  match s.fdalloc p rf with
  | none => s.goto p bad
  | some (fd0, t) =>
    match t.fdalloc p wf with
    | none => (t.setSlot (p, fd0) none).goto p bad
    | some (fd1, t) =>
      if copied then t.goto p (.user 0)
      else ((t.setSlot (p, fd0) none).setSlot (p, fd1) none).goto p bad

/-- The end of `fileclose`.  A page without a pipe would be a dangling
pointer. -/
def closeEnd (s : State) (p : Fin NPROC) (ff : File) (next : Loc) : State :=
  match ff.type, s.mem ff.pipe with
  | .pipe, some i =>
    let pi := (s.pipe i).pipeclose (ff.writable != 0)
    let s := { s with pipe := update s.pipe i pi }
    if pi.readopen = 0 ∧ pi.writeopen = 0 then
      { s with mem := update s.mem ff.pipe none }.goto p (.kfree ff.pipe next)
    else
      s.goto p next
  | .pipeRt, some i =>
    let pi := (s.pipe i).pipeRtClose (ff.writable != 0)
    { s with pipe := update s.pipe i pi }.goto p next
  | _, _ => s.goto p next

end State

/-! ## Steps -/

/-- A process calls, or goes on with its call; the rest of the kernel takes a
page or gives one back. -/
inductive Label where
  /-- `sys_open`, where `file` is what it stores, or `none` where it fails
  before it takes a file -/
  | sysOpen (p : Fin NPROC) (file : Option File)
  | sysDup (p : Fin NPROC) (fd : Fin NOFILE)
  | sysClose (p : Fin NPROC) (fd : Fin NOFILE)
  | sysPipe (p : Fin NPROC)
  | sysPipeRt (p : Fin NPROC)
  /-- `fork`, where `np` is `none` if it fails before the files -/
  | fork (p : Fin NPROC) (np : Option (Fin NPROC)) (pid : Int)
  | exit (p : Fin NPROC)
  | resume (p : Fin NPROC) (copied : Bool)
  | kalloc
  | kfree (page : Nat)

namespace State

/-- `sys_open`. -/
def sysOpen (s : State) (p : Fin NPROC) (file : File) : State :=
  match filealloc s.ftable with
  | none => s.goto p (.user (-1))
  | some (f, ftable) => { s with ftable := ftable }.goto p (.openFd f file)

/-- `sys_dup`. -/
def sysDup (s : State) (p : Fin NPROC) (fd : Fin NOFILE) : Except Panic State :=
  match s.ofile (p, fd) with
  | none => .ok (s.goto p (.user (-1)))
  | some f =>
    match s.fdalloc p f with
    | none => .ok (s.goto p (.user (-1)))
    | some (fd, t) => do
      let t ← t.filedup f
      return t.goto p (.user fd)

/-- `sys_close`, up to `fileclose`. -/
def sysClose (s : State) (p : Fin NPROC) (fd : Fin NOFILE) : State :=
  match s.ofile (p, fd) with
  | none => s.goto p (.user (-1))
  | some f => (s.setSlot (p, fd) none).goto p (.close f (.user 0))

/-- `sys_pipe`, which starts with the read end. -/
def sysPipe (s : State) (p : Fin NPROC) : State :=
  match filealloc s.ftable with
  | none => s.goto p (.user (-1))
  | some (rf, ftable) => { s with ftable := ftable }.goto p (.pipeWrite none rf)

/-- `sys_pipe_rt`, which starts with the page. -/
def sysPipeRt (s : State) (p : Fin NPROC) : State :=
  match Xv6.kalloc s.kmem with
  | none => s.goto p (.user (-1))
  | some (page, k) => { s with kmem := k }.goto p (.pipeRead page)

/-- One step inside a call; `copied` is the choice of `copyout`. -/
def resume (s : State) (p : Fin NPROC) (copied : Bool) : Loc → Option (Except Panic State)
  | .dead | .embryo _ | .user _ => none
  | .openFd f file => some <| .ok <|
    match s.fdalloc p f with
    | none => s.goto p (.close f (.user (-1)))
    | some (fd, t) =>
      (t.setFile f { file with ref := (t.ftable f).ref, pipe := (t.ftable f).pipe }).goto p
        (.user fd)
  | .pipeRead page => some <| .ok <|
    match filealloc s.ftable with
    | none => s.goto p (.kfree page (.user (-1)))
    | some (rf, ftable) => { s with ftable := ftable }.goto p (.pipeWrite (some page) rf)
  | .pipeWrite page rf => some <| .ok <|
    match filealloc s.ftable, page with
    | none, none => s.goto p (.close rf (.user (-1)))
    | none, some page => s.goto p (.kfree page (.close rf (.user (-1))))
    | some (wf, ftable), none => { s with ftable := ftable }.goto p (.pipePage rf wf)
    | some (wf, ftable), some page => { s with ftable := ftable }.goto p (.pipeInit true page rf wf)
  | .pipePage rf wf => some <| .ok <|
    match Xv6.kalloc s.kmem with
    | none => s.goto p (.close rf (.close wf (.user (-1))))
    | some (page, k) => { s with kmem := k }.goto p (.pipeInit false page rf wf)
  | .pipeInit rt page rf wf => some (.ok ((s.newPipe rt page rf wf).installPipe p rf wf copied))
  | .close f next => some do
    let r ← filecloseTable s.ftable f
    let t := { s with ftable := r.2 }
    return t.goto p (r.1.elim next (.closeEnd · next))
  | .closeEnd ff next => some (.ok (s.closeEnd p ff next))
  | .kfree page next => some do
    let k ← Xv6.kfree s.kmem page
    return { s with kmem := k }.goto p next
  | .fork np pid i =>
    if h : i < NOFILE then
      match s.ofile (p, ⟨i, h⟩) with
      | none => some (.ok (s.goto p (.fork np pid (i + 1))))
      | some f => some do
        let t ← s.filedup f
        return (t.setSlot (np, ⟨i, h⟩) (some f)).goto p (.fork np pid (i + 1))
    else some (.ok ((s.goto np (.user 0)).goto p (.user pid)))
  | .exit fd =>
    if h : fd < NOFILE then
      match s.ofile (p, ⟨fd, h⟩) with
      | none => some (.ok (s.goto p (.exit (fd + 1))))
      | some f => some (.ok (s.goto p (.close f (.exitClear ⟨fd, h⟩))))
    else some (.ok (s.goto p .dead))
  | .exitClear fd => some (.ok ((s.setSlot (p, fd) none).goto p (.exit (fd + 1))))

/-- A process that is in no call. -/
def isUser (s : State) (p : Fin NPROC) : Bool :=
  match s.loc p with
  | .user _ => true
  | _ => false

/-- The transition function: `none` where the label is not enabled, and an
error for a panic.  A file that `sys_open` opens is an inode or a device. -/
def step (s : State) : Label → Option (Except Panic State)
  | .sysOpen p file =>
    if s.isUser p then
      match file with
      | none => some (.ok (s.goto p (.user (-1))))
      | some file =>
        if file.type = .inode ∨ file.type = .device then some (.ok (s.sysOpen p file)) else none
    else none
  | .sysDup p fd => if s.isUser p then some (s.sysDup p fd) else none
  | .sysClose p fd => if s.isUser p then some (.ok (s.sysClose p fd)) else none
  | .sysPipe p => if s.isUser p then some (.ok (s.sysPipe p)) else none
  | .sysPipeRt p => if s.isUser p then some (.ok (s.sysPipeRt p)) else none
  | .fork p np pid =>
    if s.isUser p then
      match np with
      | none => some (.ok (s.goto p (.user (-1))))
      | some np =>
        if s.loc np = .dead then
          some (.ok ((s.goto np (.embryo p)).goto p (.fork np pid 0)))
        else none
    else none
  | .exit p => if s.isUser p then some (.ok (s.goto p (.exit 0))) else none
  | .resume p copied => s.resume p copied (s.loc p)
  | .kalloc => (Xv6.kalloc s.kmem).map fun r =>
      .ok { s with kmem := r.2, others := r.1 :: s.others }
  | .kfree page =>
    if page ∈ s.others then
      some ((fun k => { s with kmem := k, others := s.others.erase page }) <$>
        Xv6.kfree s.kmem page)
    else none

end State

/-- The steps of the system. -/
def Steps (s : State) (l : Label) (t : State) : Prop := s.step l = some (.ok t)

/-- Nothing is open and there was no pipe.  No page is free twice, or free and
in use. -/
structure Boot (s : State) : Prop where
  ftable : ∀ f, (s.ftable f).ref = 0 ∧ (s.ftable f).type = .none
  ofile : ∀ slot, s.ofile slot = none
  mem : ∀ page, s.mem page = none
  npipes : s.npipes = 0
  pages : (s.kmem.freelist ++ s.others).Nodup
  loc : ∀ p, s.loc p = .dead ∨ ∃ a0, s.loc p = .user a0

/-- No call is in progress. -/
def State.Idle (s : State) : Prop := ∀ p, s.loc p = .dead ∨ ∃ a0, s.loc p = .user a0

/-- Some descriptor holds an end of the pipe `i`. -/
def State.Holds (s : State) (i : Nat) (writable : Bool) : Prop :=
  ∃ slot f, s.ofile slot = some f ∧ s.mem (s.ftable f).pipe = some i ∧
    ((s.ftable f).writable != 0) = writable ∧
    (s.ftable f).type = if (s.pipe i).rt then .pipeRt else .pipe

end Xv6.Files
