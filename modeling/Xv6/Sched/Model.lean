import Xv6.Lib.Run
import Xv6.Vm.Copy

/-!
# Kernel code that sleeps

`sleep`, `wakeup`, `kill`, `killed`, `yield` and the scheduler of
`kernel/proc.c`, and the processes that run kernel code over them.

The code of a kernel function is a graph: to each location belongs one
instruction, which takes or releases a spinlock, looks at or changes the
data, copies from or to user memory, tests `p->killed`, sleeps or wakes.  A
location holds the local variables of the function.  `Step` interleaves the
instructions of all processes in any order.

`sleep` and `wakeup` are not instructions that happen at once.  A process in
`sleep` goes through the stages of the source, with `p->lock` held in the
middle ones, and a process in `wakeup` looks at the entries of the process
table one after the other.  The source never leaves `p->lock` between two
entries of `wakeup`, in `kill`, in `killed` or in the scheduler's test, so
each of these is one step that waits until `p->lock` is free.
-/

namespace Xv6.Sched

open Lib

/-- `p->state`. -/
inductive RunState where
  | unused
  | used
  | sleeping
  | runnable
  | running
  | zombie
  deriving DecidableEq, Repr

/-- An instruction over data `σ`, locations `Loc`, channels `χ` and
spinlocks `κ`. -/
inductive Instr (σ Loc χ κ : Type) where
  | acquire (lk : κ) (next : Loc)
  | release (lk : κ) (next : Loc)
  | access (f : Fin NPROC → σ → Option (σ × Loc))
  | killed (next : Bool → Loc)
  | copyin (srcva len : Nat) (next : Option (List UInt8) → Loc)
  | copyout (dstva : Nat) (src : List UInt8) (next : Bool → Loc)
  | sleep (chan : χ) (lk : κ) (next : Loc)
  | wakeup (chan : χ) (next : Loc)
  | ret (r : Int)

/-- The code of some kernel functions: the instruction of each location, the
locations at which a call starts, and what interrupts and other parts of the
kernel can do to the data. -/
structure Code (σ Loc χ κ ε : Type) where
  instr : Loc → Instr σ Loc χ κ
  entry : Loc → Bool
  env : ε → σ → σ

/-- How far a process is in `sleep(chan, lk)`. -/
inductive Stage where
  /-- It has acquired `p->lock`. -/
  | locked
  /-- It has released `lk`. -/
  | released
  /-- It has set `p->chan` and `p->state`. -/
  | marked
  /-- It has called `sched`, and the scheduler has released `p->lock`. -/
  | switched
  /-- The scheduler has acquired `p->lock` and switched back. -/
  | resumed
  /-- It has cleared `p->chan` and released `p->lock`. -/
  | tidied
  deriving DecidableEq, Repr

/-- Where a process stands: at a location, in `sleep`, or in `wakeup` about
to look at entry `i`.  `next` is where it goes on. -/
inductive Ctl (Loc χ κ : Type) where
  | code (loc : Loc)
  | sleep (stage : Stage) (chan : χ) (lk : κ) (next : Loc)
  | wakeup (chan : χ) (i : Nat) (next : Loc)

/-- `struct proc`.  `locked` says whether somebody holds `p->lock`. -/
structure Proc (Loc χ κ : Type) where
  state : RunState
  chan : Option χ
  killed : Bool
  locked : Bool
  ctl : Ctl Loc χ κ

/-- The data, who holds each spinlock, the process table, and user memory. -/
structure State (σ Loc χ κ : Type) where
  data : σ
  holder : κ → Option (Fin NPROC)
  proc : Fin NPROC → Proc Loc χ κ
  ram : Ram
  pagetable : Fin NPROC → PageTable

/-- A step. -/
inductive Label (Loc ε : Type) where
  /-- Process `p` takes its next step. -/
  | run (p : Fin NPROC)
  /-- A scheduler picks process `p`. -/
  | schedule (p : Fin NPROC)
  /-- Process `p` gives up the CPU. -/
  | yield (p : Fin NPROC)
  /-- Somebody kills process `p`. -/
  | kill (p : Fin NPROC)
  /-- The timer of process `p` expires. -/
  | expire (p : Fin NPROC)
  /-- Process `p` calls a function. -/
  | start (p : Fin NPROC) (loc : Loc)
  /-- Another part of the kernel changes the data. -/
  | env (e : ε)
  /-- User programs change user memory. -/
  | user (ram : Ram)

variable {σ Loc χ κ ε : Type}

namespace Proc

/-- The process after `kill`, or after the callback of its timer: it is woken
whatever it sleeps on. -/
def wake (pr : Proc Loc χ κ) : Proc Loc χ κ :=
  if pr.state = .sleeping then { pr with state := .runnable } else pr

/-- The process after a `wakeup(chan)` has looked at it. -/
def wakeOn [DecidableEq χ] (pr : Proc Loc χ κ) (chan : χ) : Proc Loc χ κ :=
  if pr.state = .sleeping ∧ pr.chan = some chan then { pr with state := .runnable } else pr

end Proc

namespace State

/-- Replace an entry of the process table. -/
def setProc (s : State σ Loc χ κ) (p : Fin NPROC) (pr : Proc Loc χ κ) : State σ Loc χ κ :=
  { s with proc := Function.update s.proc p pr }

@[simp] theorem setProc_self (s : State σ Loc χ κ) (p : Fin NPROC) (pr : Proc Loc χ κ) :
    (s.setProc p pr).proc p = pr := Function.update_self ..

theorem setProc_of_ne {p q : Fin NPROC} (s : State σ Loc χ κ) (pr : Proc Loc χ κ) (h : q ≠ p) :
    (s.setProc p pr).proc q = s.proc q := Function.update_of_ne h ..

/-- Change where a process stands. -/
def setCtl (s : State σ Loc χ κ) (p : Fin NPROC) (ctl : Ctl Loc χ κ) : State σ Loc χ κ :=
  s.setProc p { s.proc p with ctl := ctl }

/-- Change who holds a spinlock. -/
def setHolder [DecidableEq κ] (s : State σ Loc χ κ) (lk : κ) (h : Option (Fin NPROC)) :
    State σ Loc χ κ :=
  { s with holder := Function.update s.holder lk h }

variable [DecidableEq χ] [DecidableEq κ]

/-- Process `p` carries out an instruction. -/
def exec (s : State σ Loc χ κ) (p : Fin NPROC) :
    Instr σ Loc χ κ → Option (State σ Loc χ κ)
  | .acquire lk next =>
    if s.holder lk = none then some ((s.setHolder lk (some p)).setCtl p (.code next)) else none
  | .release lk next =>
    if s.holder lk = some p then some ((s.setHolder lk none).setCtl p (.code next)) else none
  | .access f => (f p s.data).map fun r => { s with data := r.1 }.setCtl p (.code r.2)
  | .killed next =>
    if (s.proc p).locked then none else some (s.setCtl p (.code (next (s.proc p).killed)))
  | .copyin srcva len next =>
    some (s.setCtl p (.code (next (copyinRam (s.pagetable p) s.ram srcva len))))
  | .copyout dstva src next =>
    let r := copyoutRam (s.pagetable p) s.ram dstva src
    some ({ s with ram := r.2 }.setCtl p (.code (next r.1)))
  | .sleep chan lk next =>
    if (s.proc p).locked then none
    else some (s.setProc p { s.proc p with
      locked := true, ctl := .sleep .locked chan lk next })
  | .wakeup chan next => some (s.setCtl p (.wakeup chan 0 next))
  | .ret _ => none

/-- The rest of `sleep(chan, lk)` for process `p`. -/
def execSleep (s : State σ Loc χ κ) (p : Fin NPROC) (chan : χ) (lk : κ) (next : Loc) :
    Stage → Option (State σ Loc χ κ)
  | .locked =>
    if s.holder lk = some p then
      some ((s.setHolder lk none).setCtl p (.sleep .released chan lk next))
    else none
  | .released => some (s.setProc p { s.proc p with
      chan := some chan, state := .sleeping, ctl := .sleep .marked chan lk next })
  | .marked => some (s.setProc p { s.proc p with
      locked := false, ctl := .sleep .switched chan lk next })
  | .switched => none
  | .resumed => some (s.setProc p { s.proc p with
      chan := none, locked := false, ctl := .sleep .tidied chan lk next })
  | .tidied =>
    if s.holder lk = none then some ((s.setHolder lk (some p)).setCtl p (.code next)) else none

/-- One round of the loop of `wakeup(chan)` for process `p`. -/
def execWakeup (s : State σ Loc χ κ) (p : Fin NPROC) (chan : χ) (i : Nat) (next : Loc) :
    Option (State σ Loc χ κ) :=
  if h : i < NPROC then
    let q : Fin NPROC := ⟨i, h⟩
    if q = p then
      some (s.setCtl p (.wakeup chan (i + 1) next))
    else if (s.proc q).locked then
      none
    else
      some ((s.setProc q ((s.proc q).wakeOn chan)).setCtl p (.wakeup chan (i + 1) next))
  else
    some (s.setCtl p (.code next))

/-- The next step of process `p`. -/
def run (code : Code σ Loc χ κ ε) (s : State σ Loc χ κ) (p : Fin NPROC) :
    Option (State σ Loc χ κ) :=
  match (s.proc p).ctl with
  | .code loc => if (s.proc p).state = .running then s.exec p (code.instr loc) else none
  | .sleep stage chan lk next =>
    -- the process that has marked itself still has to call `sched`
    if (s.proc p).state = .running ∨ stage = .marked then
      s.execSleep p chan lk next stage
    else none
  | .wakeup chan i next => if (s.proc p).state = .running then s.execWakeup p chan i next else none

/-- A scheduler finds process `p` runnable and switches to it. -/
def schedule (s : State σ Loc χ κ) (p : Fin NPROC) : Option (State σ Loc χ κ) :=
  if (s.proc p).state = .runnable ∧ (s.proc p).locked = false then
    match (s.proc p).ctl with
    | .sleep .switched chan lk next => some (s.setProc p { s.proc p with
        state := .running, locked := true, ctl := .sleep .resumed chan lk next })
    | _ => some (s.setProc p { s.proc p with state := .running })
  else
    none

/-- `yield`, from a timer interrupt.  The model lets it happen also where the
source has interrupts off. -/
def yield (s : State σ Loc χ κ) (p : Fin NPROC) : Option (State σ Loc χ κ) :=
  if (s.proc p).state = .running ∧ (s.proc p).locked = false then
    some (s.setProc p { s.proc p with state := .runnable })
  else
    none

/-- `kill`, for the process that has the given pid. -/
def kill (s : State σ Loc χ κ) (p : Fin NPROC) : Option (State σ Loc χ κ) :=
  if (s.proc p).locked then none
  else some (s.setProc p { (s.proc p).wake with killed := true })

/-- `period_callback` of `proj3/kernel/timer.c`. -/
def expire (s : State σ Loc χ κ) (p : Fin NPROC) : Option (State σ Loc χ κ) :=
  if (s.proc p).locked then none else some (s.setProc p (s.proc p).wake)

/-- A process that is in no call starts one. -/
def start (code : Code σ Loc χ κ ε) (s : State σ Loc χ κ) (p : Fin NPROC) (loc : Loc) :
    Option (State σ Loc χ κ) :=
  match (s.proc p).ctl with
  | .code l =>
    match code.instr l with
    | .ret _ =>
      if (s.proc p).state = .running ∧ code.entry loc then some (s.setCtl p (.code loc)) else none
    | _ => none
  | _ => none

/-- Take a label; `none` when it cannot be taken. -/
def step (code : Code σ Loc χ κ ε) (s : State σ Loc χ κ) :
    Label Loc ε → Option (State σ Loc χ κ)
  | .run p => s.run code p
  | .schedule p => s.schedule p
  | .yield p => s.yield p
  | .kill p => s.kill p
  | .expire p => s.expire p
  | .start p loc => s.start code p loc
  | .env e => some { s with data := code.env e s.data }
  | .user ram => some { s with ram := ram }

end State

instance : NeZero NPROC := ⟨by decide⟩

/-- All processes run at `loc`, no lock is held, and all have the same page
table. -/
def State.idle (d : σ) (loc : Loc) (ram : Ram) (pt : PageTable) : State σ Loc χ κ where
  data := d
  holder _ := none
  proc _ := { state := .running, chan := none, killed := false, locked := false,
              ctl := .code loc }
  ram := ram
  pagetable _ := pt

/-- `n` steps of process `p`. -/
def runs (n : Nat) (p : Fin NPROC) : List (Label Loc ε) := List.replicate n (.run p)

/-- The steps of the system. -/
def Steps [DecidableEq χ] [DecidableEq κ] (code : Code σ Loc χ κ ε)
    (s : State σ Loc χ κ) (l : Label Loc ε) (t : State σ Loc χ κ) : Prop :=
  s.step code l = some t

end Xv6.Sched
