import Xv6.Lib.Ring
import Xv6.Sched.Wakeup

/-!
# Pipes

`struct pipe` and the code of `pipewrite`, `piperead` and `pipeclose` of
`kernel/pipe.c`, one location for each point at which another process may
run.  The last `pipeclose` frees the page of the pipe after it has released
the lock; no descriptor is left then, and the model stops there.

`put` and `taken` record the bytes that went into the ring and that came out
of it.  No function reads them.
-/

namespace Xv6

open Lib

/-- Bytes in the ring of a pipe. -/
def PIPESIZE : Nat := 512

instance : NeZero PIPESIZE := ⟨by decide⟩

/-- `struct pipe` without its lock, and the history of the ring. -/
structure Pipe where
  data : Fin PIPESIZE → UInt8
  nread : UInt32
  nwrite : UInt32
  readopen : Bool
  writeopen : Bool
  put : List UInt8
  taken : List UInt8

namespace Pipe

/-- A pipe that `pipealloc` has just initialised. -/
def init (data : Fin PIPESIZE → UInt8) : Pipe :=
  { data := data, nread := 0, nwrite := 0, readopen := true, writeopen := true,
    put := [], taken := [] }

/-- `pi->data[pi->nwrite++ % PIPESIZE] = ch`. -/
def store (pi : Pipe) (ch : UInt8) : Pipe :=
  { pi with
    data := Function.update pi.data (Ring.slot pi.nwrite) ch
    nwrite := pi.nwrite + 1
    put := pi.put ++ [ch] }

/-- The byte `pi->data[pi->nread % PIPESIZE]`. -/
def front (pi : Pipe) : UInt8 := pi.data (Ring.slot pi.nread)

/-- `pi->nread++`, after the byte has been fetched. -/
def advance (pi : Pipe) : Pipe :=
  { pi with nread := pi.nread + 1, taken := pi.taken ++ [pi.front] }

/-- `pi->nwrite == pi->nread + PIPESIZE`. -/
def full (pi : Pipe) : Bool := pi.nwrite = pi.nread + UInt32.ofNat PIPESIZE

/-- `pi->nread == pi->nwrite`. -/
def empty (pi : Pipe) : Bool := pi.nread = pi.nwrite

/-- The bytes in the ring, oldest first. -/
def contents (pi : Pipe) : List UInt8 := Ring.contents pi.data pi.nread pi.nwrite

/-- What a process can sleep on: `&pi->nread` or `&pi->nwrite`. -/
inductive Chan where
  | nread
  | nwrite
  deriving DecidableEq, Repr

/-- The points of `pipewrite`. -/
inductive WriteAt where
  /-- `acquire(&pi->lock)` -/
  | enter
  /-- `while(i < n)` and the test of `pi->readopen` -/
  | loop
  /-- `killed(pr)` -/
  | killed
  /-- the test for a full ring -/
  | full
  /-- `wakeup(&pi->nread)` on a full ring -/
  | wakeup
  /-- `sleep(&pi->nwrite, &pi->lock)` -/
  | sleep
  /-- `copyin` of one byte -/
  | copyin
  /-- the store into the ring -/
  | store (ch : UInt8)
  /-- the last `wakeup(&pi->nread)` -/
  | done
  deriving DecidableEq, Repr

/-- The points of `piperead`. -/
inductive ReadAt where
  /-- `acquire(&pi->lock)` -/
  | enter
  /-- the test for an empty ring -/
  | wait
  /-- `killed(pr)` -/
  | killed
  /-- `sleep(&pi->nread, &pi->lock)` -/
  | sleep
  /-- the head of the copy loop, up to the fetch of a byte -/
  | loop
  /-- `copyout` of one byte -/
  | copyout (ch : UInt8)
  /-- the last `wakeup(&pi->nwrite)` -/
  | done
  deriving DecidableEq, Repr

/-- The points of `pipeclose`. -/
inductive CloseAt where
  | enter
  | mark
  | wakeup
  deriving DecidableEq, Repr

/-- Where a process is, with its local variables.  Every path ends with
`release(&pi->lock)` and `return r`. -/
inductive Loc where
  | write (addr : Nat) (n : Int) (i : Nat) (at_ : WriteAt)
  | read (addr : Nat) (n : Int) (i : Nat) (at_ : ReadAt)
  | close (writable : Bool) (at_ : CloseAt)
  | release (r : Int)
  | returned (r : Int)
  deriving DecidableEq, Repr

/-- `pipewrite(pi, addr, n)`. -/
def pipewrite (addr : Nat) (n : Int) (i : Nat) : WriteAt → Sched.Instr Pipe Loc Chan Unit
  | .enter => .acquire () (.write addr n i .loop)
  | .loop => .access fun _ pi => some (pi,
      if (i : Int) < n then
        if pi.readopen then .write addr n i .killed else .release (-1)
      else .write addr n i .done)
  | .killed => .killed fun k => if k then .release (-1) else .write addr n i .full
  | .full => .access fun _ pi => some (pi,
      if pi.full then .write addr n i .wakeup else .write addr n i .copyin)
  | .wakeup => .wakeup .nread (.write addr n i .sleep)
  | .sleep => .sleep .nwrite () (.write addr n i .loop)
  | .copyin => .copyin ((addr + i) % 2 ^ 64) 1 fun r =>
      match r with
      | some (ch :: _) => .write addr n i (.store ch)
      | _ => .write addr n i .done
  | .store ch => .access fun _ pi => some (pi.store ch, .write addr n (i + 1) .loop)
  | .done => .wakeup .nread (.release i)

/-- `piperead(pi, addr, n)`. -/
def piperead (addr : Nat) (n : Int) (i : Nat) : ReadAt → Sched.Instr Pipe Loc Chan Unit
  | .enter => .acquire () (.read addr n i .wait)
  | .wait => .access fun _ pi => some (pi,
      if pi.empty && pi.writeopen then .read addr n i .killed else .read addr n i .loop)
  | .killed => .killed fun k => if k then .release (-1) else .read addr n i .sleep
  | .sleep => .sleep .nread () (.read addr n i .wait)
  | .loop => .access fun _ pi => some (
      if (i : Int) < n ∧ pi.empty = false then
        (pi.advance, .read addr n i (.copyout pi.front))
      else (pi, .read addr n i .done))
  | .copyout ch => .copyout ((addr + i) % 2 ^ 64) [ch] fun ok =>
      if ok then .read addr n (i + 1) .loop else .read addr n i .done
  | .done => .wakeup .nwrite (.release i)

/-- `pipeclose(pi, writable)`. -/
def pipeclose (writable : Bool) : CloseAt → Sched.Instr Pipe Loc Chan Unit
  | .enter => .acquire () (.close writable .mark)
  | .mark => .access fun _ pi => some (
      if writable then { pi with writeopen := false } else { pi with readopen := false },
      .close writable .wakeup)
  | .wakeup => .wakeup (if writable then .nread else .nwrite) (.release 0)

/-- The code of the three functions. -/
def code : Sched.Code Pipe Loc Chan Unit Empty where
  instr
    | .write addr n i a => pipewrite addr n i a
    | .read addr n i a => piperead addr n i a
    | .close writable a => pipeclose writable a
    | .release r => .release () (.returned r)
    | .returned r => .ret r
  entry
    | .write _ _ 0 .enter | .read _ _ 0 .enter | .close _ .enter => true
    | _ => false
  env e := e.elim

/-- The pipe is fresh, its lock is free, and no process is in a call. -/
structure Start (s : Sched.State Pipe Loc Chan Unit) : Prop where
  pipe : ∃ data, s.data = init data
  quiet : Sched.Quiescent code s

end Pipe

end Xv6
