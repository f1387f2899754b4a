import Xv6.PipeRt.Sleep
import Xv6.Sched.Path

/-!
# Sleeping for time and for children

The code of `sys_sleep` of `kernel/sysproc.c` and of `wait` of
`kernel/proc.c`.
-/

namespace Xv6

open Sched

namespace SysSleep

/-- The points of `sys_sleep`. -/
inductive At where
  /-- `acquire(&tickslock)` -/
  | enter
  /-- `ticks0 = ticks` -/
  | start
  /-- the condition of the `while` loop -/
  | test (ticks0 : UInt32)
  /-- `killed(myproc())` -/
  | killed (ticks0 : UInt32)
  /-- `sleep(&ticks, &tickslock)` -/
  | sleep (ticks0 : UInt32)
  deriving DecidableEq, Repr

/-- Where a process is; `n` is the argument, or 0 for a negative one. -/
inductive Loc where
  | sleep (n : UInt32) (at_ : At)
  | release (r : Int)
  | returned (r : Int)
  deriving DecidableEq, Repr

/-- `sys_sleep`, over `ticks`. -/
def sysSleep (n : UInt32) : At → Instr UInt32 Loc Unit Unit
  | .enter => .acquire () (.sleep n .start)
  | .start => .access fun _ ticks => some (ticks, .sleep n (.test ticks))
  | .test ticks0 => .access fun _ ticks => some (ticks,
      if ticks - ticks0 < n then .sleep n (.killed ticks0) else .release 0)
  | .killed ticks0 => .killed fun k => if k then .release (-1) else .sleep n (.sleep ticks0)
  | .sleep ticks0 => .sleep () () (.sleep n (.test ticks0))

/-- The code of `sys_sleep`.  The environment is the clock. -/
def code : Code UInt32 Loc Unit Unit Unit where
  instr
    | .sleep n a => sysSleep n a
    | .release r => .release () (.returned r)
    | .returned r => .ret r
  entry
    | .sleep _ .enter => true
    | _ => false
  env _ ticks := ticks + 1

end SysSleep

namespace Wait

/-- What `wait` looks at in an entry of the process table. -/
structure Child where
  parent : Option (Fin NPROC)
  zombie : Bool
  pid : Int
  xstate : Int

/-- The process table. -/
abbrev Table := Fin NPROC → Child

/-- `freeproc`, as far as `wait` can see it. -/
def freeproc (t : Table) (i : Fin NPROC) : Table :=
  Function.update t i { parent := none, zombie := false, pid := 0, xstate := 0 }

/-- The points of `wait`. -/
inductive At where
  /-- `acquire(&wait_lock)` -/
  | enter
  /-- the loop over the table, at entry `i` -/
  | scan (i : Nat) (havekids : Bool)
  /-- `copyout` of the exit status -/
  | copyout (i : Fin NPROC) (pid xstate : Int)
  /-- `freeproc(pp)` -/
  | free (i : Fin NPROC) (pid : Int)
  /-- `killed(p)` -/
  | killed
  /-- `sleep(p, &wait_lock)` -/
  | sleep
  deriving DecidableEq, Repr

/-- Where a process is; `self` is `myproc()`.  Every path ends with
`release(&wait_lock)` and `return r`. -/
inductive Loc where
  | wait (self : Fin NPROC) (addr : Nat) (at_ : At)
  | release (r : Int)
  | returned (r : Int)
  deriving DecidableEq, Repr

/-- `wait(addr)`.  What it does with an entry happens under `pp->lock`, which
nobody holds for long. -/
def wait (self : Fin NPROC) (addr : Nat) : At → Instr Table Loc (Fin NPROC) Unit
  | .enter => .acquire () (.wait self addr (.scan 0 false))
  | .scan i havekids => .access fun _ t => some (t,
      if h : i < NPROC then
        let pp := t ⟨i, h⟩
        if pp.parent = some self then
          if pp.zombie then
            if addr ≠ 0 then .wait self addr (.copyout ⟨i, h⟩ pp.pid pp.xstate)
            else .wait self addr (.free ⟨i, h⟩ pp.pid)
          else .wait self addr (.scan (i + 1) true)
        else .wait self addr (.scan (i + 1) havekids)
      else if havekids then .wait self addr .killed
      else .release (-1))
  | .copyout i pid xstate => .copyout addr (PipeRt.bytesOfInt xstate) fun ok =>
      if ok then .wait self addr (.free i pid) else .release (-1)
  | .free i pid => .access fun _ t => some (freeproc t i, .release pid)
  | .killed => .killed fun k => if k then .release (-1) else .wait self addr .sleep
  | .sleep => .sleep self () (.wait self addr (.scan 0 false))

/-- The code of `wait`.  The environment are the other functions that change
the table. -/
def code : Code Table Loc (Fin NPROC) Unit Table where
  instr
    | .wait self addr a => wait self addr a
    | .release r => .release () (.returned r)
    | .returned r => .ret r
  entry
    | .wait _ _ .enter => true
    | _ => false
  env t _ := t

end Wait

end Xv6
