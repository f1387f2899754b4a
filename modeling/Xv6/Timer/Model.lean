import Xv6.Sched.Model

/-!
# Periodic processes

`clockintr` of `kernel/trap.c` with the timers of `proj3/kernel/timer.c`, the
calls `setperiod` and `wait_until_next_period` of
`proj3/kernel/periodic_tasks.c`, and everything else that changes the state of
a process.

What the source does with one entry of the process table under `p->lock` is
one step, and so are `setperiod` and what `clockintr` does with the timer of
one entry.  `clockintr` itself looks at the entries one after the other, and
other CPUs go on in between; it holds `tickslock`, so that the next tick waits
for it.

`calls` records the invocations of `period_callback` with their ticks.  No
function reads it.
-/

namespace Xv6.Timer

open Lib Sched

/-- What a process can sleep on; `&ticks` is the channel of `sys_sleep`. -/
inductive Chan where
  | ticks
  | other (addr : Nat)
  deriving DecidableEq, Repr

/-- `struct xv6timer_t`.  The only callback is `period_callback`. -/
structure Xv6Timer where
  expiry : Int
  nextTick : UInt32
  proc : Fin NPROC
  callback : Bool
  deriving DecidableEq, Repr

/-- Where a process that is not running will go on: in `sleep`, in
`sys_wait_until_next_period`, or elsewhere. -/
inductive Place where
  | sleep
  | period
  | other
  deriving DecidableEq, Repr

/-- The entry of a process in the process table; `chan` is `none` for a null
pointer. -/
structure Entry where
  state : RunState
  chan : Option Chan
  killed : Bool
  timer : Option Xv6Timer
  place : Place
  deriving DecidableEq, Repr

/-- How far a `clockintr` that holds `tickslock` has got: in its loop over
the timers, or in `wakeup(&ticks)`. -/
inductive Clock where
  | timers (i : Nat)
  | wakeup (i : Nat)
  deriving DecidableEq, Repr

structure State where
  ticks : UInt32
  kmem : Kmem
  entry : Fin NPROC → Entry
  clock : Option Clock
  calls : List (Fin NPROC × Nat)

/-! ## Timers -/

/-- An `int` that is added to a `uint`. -/
def uintOfInt (i : Int) : UInt32 := UInt32.ofNat (i % 2 ^ 32).toNat

/-- `xv6timer_init`. -/
def xv6timerInit (p : Fin NPROC) : Xv6Timer :=
  { expiry := 0, nextTick := 0, proc := p, callback := false }

/-- `xv6timer_register_callback`. -/
def xv6timerRegisterCallback (t : Xv6Timer) : Xv6Timer := { t with callback := true }

/-- `xv6timer_forward`. -/
def xv6timerForward (ticks : UInt32) (t : Xv6Timer) (expiry : Int) : Xv6Timer :=
  { t with expiry := expiry, nextTick := ticks + uintOfInt expiry }

/-- `period_callback`, on the entry of the timer's process. -/
def periodCallback (e : Entry) : Entry :=
  if e.state = .sleeping then { e with state := .runnable } else e

namespace State

/-- Replace an entry of the process table. -/
def setEntry (s : State) (p : Fin NPROC) (e : Entry) : State :=
  { s with entry := Function.update s.entry p e }

/-- Replace a timer. -/
def setTimer (s : State) (p : Fin NPROC) (t : Xv6Timer) : State :=
  s.setEntry p { s.entry p with timer := some t }

/-- `sys_setperiod`: the result, and the state that it leaves. -/
def setperiod (s : State) (p : Fin NPROC) (period : Int) : Int × State :=
  if period < 1 then
    (-1, s)
  else
    match (s.entry p).timer with
    | some t => (0, s.setTimer p (xv6timerForward s.ticks t period))
    | none =>
      match kalloc s.kmem with
      | none => (-1, s)
      | some (_, k) =>
        let t := xv6timerRegisterCallback (xv6timerInit p)
        (0, { s with kmem := k }.setTimer p (xv6timerForward s.ticks t period))

/-- The timer of process `p` has expired. -/
def Due (s : State) (p : Fin NPROC) (t : Xv6Timer) : Prop :=
  (s.entry p).timer = some t ∧ s.ticks ≥ t.nextTick ∧ t.callback = true

instance (s : State) (p : Fin NPROC) (t : Xv6Timer) : Decidable (s.Due p t) :=
  inferInstanceAs (Decidable (_ ∧ _ ∧ _))

/-- What `clockintr` does with an expired timer. -/
def expire (s : State) (p : Fin NPROC) (t : Xv6Timer) : State :=
  let s' := s.setEntry t.proc (periodCallback (s.entry t.proc))
  { s'.setTimer p { t with nextTick := s.ticks + uintOfInt t.expiry } with
    calls := s.calls ++ [(p, s.ticks.toNat)] }

/-- One round of the loop of `clockintr`. -/
def checkTimer (s : State) (p : Fin NPROC) : State :=
  match (s.entry p).timer with
  | none => s
  | some t => if (s.entry p).state ≠ .unused ∧ s.Due p t then s.expire p t else s

end State

/-! ## Steps on one entry -/

/-- What happens to one entry of the process table. -/
inductive Action where
  /-- The process calls `sys_wait_until_next_period`. -/
  | waitPeriod
  /-- The process calls `sleep(chan, lk)`. -/
  | sleep (c : Chan)
  /-- A `wakeup(chan)` looks at the entry. -/
  | wakeup (c : Chan)
  /-- `kill` finds the pid of the process. -/
  | kill
  /-- A scheduler picks the process. -/
  | schedule
  | yield
  | exit
  /-- `freeproc`, in `wait` or after a failed `fork`. -/
  | free
  /-- `allocproc`. -/
  | alloc
  /-- The end of `fork`. -/
  | ready
  deriving DecidableEq, Repr

/-- The entry after the action; `none` when it cannot happen. -/
def Entry.act (e : Entry) : Action → Option Entry
  | .waitPeriod =>
    if e.state = .running then
      -- without a timer the call returns -1
      some (if e.timer = none then e else { e with state := .sleeping, place := .period })
    else none
  | .sleep c =>
    if e.state = .running then
      some { e with chan := some c, state := .sleeping, place := .sleep }
    else none
  | .wakeup c =>
    some (if e.state = .sleeping ∧ e.chan = some c then { e with state := .runnable } else e)
  | .kill =>
    some { e with
      killed := true, state := if e.state = .sleeping then .runnable else e.state }
  | .schedule =>
    if e.state = .runnable then
      -- a process in `sleep` clears `p->chan` before it releases `p->lock`
      some { e with
        state := .running
        chan := if e.place = .sleep then none else e.chan
        place := .other }
    else none
  | .yield => if e.state = .running then some { e with state := .runnable } else none
  | .exit => if e.state = .running then some { e with state := .zombie } else none
  | .free =>
    -- the timer stays with the entry
    if e.state = .zombie ∨ e.state = .used then
      some { e with state := .unused, chan := none, killed := false }
    else none
  | .alloc => if e.state = .unused then some { e with state := .used } else none
  | .ready => if e.state = .used then some { e with state := .runnable } else none

/-! ## The system -/

/-- A step. -/
inductive Label where
  /-- Something happens to process `p`. -/
  | act (p : Fin NPROC) (a : Action)
  /-- Process `p` calls `setperiod(period)`. -/
  | setperiod (p : Fin NPROC) (period : Int)
  /-- A clock interrupt on CPU 0 starts `clockintr`. -/
  | tick
  /-- `clockintr` makes its next step. -/
  | clock
  /-- Others take and return pages. -/
  | pages (k : Kmem)
  deriving DecidableEq, Repr

namespace State

/-- The next step of `clockintr`. -/
def clockStep (s : State) : Option State :=
  match s.clock with
  | none => none
  | some (.timers i) =>
    if h : i < NPROC then
      some { s.checkTimer ⟨i, h⟩ with clock := some (.timers (i + 1)) }
    else
      some { s with clock := some (.wakeup 0) }
  | some (.wakeup i) =>
    if h : i < NPROC then
      ((s.entry ⟨i, h⟩).act (.wakeup .ticks)).map fun e =>
        { s.setEntry ⟨i, h⟩ e with clock := some (.wakeup (i + 1)) }
    else
      some { s with clock := none }

/-- Take a label; `none` when it cannot be taken. -/
def step (s : State) : Label → Option State
  | .act p a => ((s.entry p).act a).map (s.setEntry p)
  | .setperiod p period =>
    if (s.entry p).state = .running then some (s.setperiod p period).2 else none
  | .tick =>
    if s.clock = none then some { s with ticks := s.ticks + 1, clock := some (.timers 0) }
    else none
  | .clock => s.clockStep
  | .pages k => some { s with kmem := k }

/-- The process table after boot, with the given free pages. -/
def boot (k : Kmem) : State where
  ticks := 0
  kmem := k
  entry _ := { state := .unused, chan := none, killed := false, timer := none, place := .other }
  clock := none
  calls := []

end State

/-- The steps of the system. -/
def Steps (s : State) (l : Label) (t : State) : Prop := s.step l = some t

/-- The states that the system can reach. -/
def Reachable (s : State) : Prop := ∃ k ls, Run Steps (State.boot k) ls s

end Xv6.Timer
