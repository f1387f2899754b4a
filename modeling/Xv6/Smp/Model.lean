import Xv6.Sched.Model

/-!
# CPUs, schedulers and the process table

`kernel/proc.c` on any number of CPUs: `scheduler`, `sched`, `yield`,
`forkret`, `sleep`, `wakeup`, `kill`, `fork` with `allocproc` and `freeproc`,
`reparent`, `exit` and `wait`, together with `period_callback` of
`proj3/kernel/timer.c` and the calls of `proj3/kernel/periodic_tasks.c` and
`proj3/kernel/cpu_affinity.c`.

Every CPU has a scheduler thread and every entry of the process table has a
kernel thread.  A thread stands at a location, and to each location belongs
one instruction: it takes or releases a spinlock, reads and writes one entry
of the process table, sets `c->proc`, or switches to another thread.  The
steps of the CPUs interleave in any order.

Memory, files and the trap frame are left out; where the source can fail for
one of their reasons, the step has a choice.  An interrupt can come at any
location at which the thread holds no spinlock, and calls `wakeup`,
`period_callback` or `yield`.  Other kernel code is the location `user`, from
which a process may call anything, sleep on any channel and wake any channel.
-/

namespace Xv6.Smp

open Function Lib Option Sched

/-- An entry of the process table. -/
abbrev Slot := Fin NPROC

/-- What a process can sleep on: an entry of the process table, in `wait`, or
some other address. -/
inductive Chan where
  | proc (p : Slot)
  | other (addr : Nat)
  deriving DecidableEq, Repr

/-- The spinlocks: `p->lock`, `wait_lock`, and those of other code. -/
inductive Lock where
  | proc (p : Slot)
  | wait
  | other (addr : Nat)
  deriving DecidableEq, Repr

/-- `struct proc`.  `timer` is the `expiry` of the timer, `none` where there
is no timer.  `affinity` is the mask that the process itself last passed to
`set_cpu_affinity`; no function reads it. -/
structure Proc where
  state : RunState
  chan : Option Chan
  killed : Bool
  xstate : Int
  pid : Nat
  cpuMask : Int32
  timer : Option Int
  parent : Option Slot
  affinity : Option Int32
  deriving DecidableEq, Repr

/-- `freeproc`. -/
def Proc.freeproc (pr : Proc) : Proc :=
  { pr with
    pid := 0, parent := none, chan := none, killed := false, xstate := 0, state := .unused }

/-- The scheduler's test of `p->cpu_mask`, on the CPU with the given number. -/
def Proc.mayRun (pr : Proc) (cpuid : Nat) : Bool :=
  pr.cpuMask = -1 || pr.cpuMask = Int32.ofNat cpuid

/-- The process after `kill` or `period_callback` has found it asleep. -/
def Proc.wake (pr : Proc) : Proc :=
  if pr.state = .sleeping then { pr with state := .runnable } else pr

/-- The process after `wakeup(chan)` has looked at it. -/
def Proc.wakeOn (pr : Proc) (chan : Option Chan) : Proc :=
  if pr.state = .sleeping ∧ pr.chan = chan then { pr with state := .runnable } else pr

/-! ## Locations -/

/-- `scheduler`, at one entry of the table. -/
inductive SchedAt where
  | scan
  | test
  | chosen
  | switch
  | back
  | release
  deriving DecidableEq, Repr

/-- `yield`, and the end of `sys_wait_until_next_period`. -/
inductive SwitchAt where
  | lock
  | mark
  | sched
  | unlock
  deriving DecidableEq, Repr

/-- `sleep`. -/
inductive SleepAt where
  | enter
  | lock
  | release
  | mark
  | sched
  | tidy
  | unlock
  | relock
  deriving DecidableEq, Repr

/-- `wakeup`. -/
inductive WakeupAt where
  | scan (i : Nat)
  | test (q : Slot)
  | unlock (q : Slot)
  deriving DecidableEq, Repr

/-- A function that takes a lock, looks at one entry, and gives the lock
back. -/
inductive LookAt where
  | lock
  | look
  | unlock
  deriving DecidableEq, Repr

/-- `sys_setperiod`. -/
inductive PeriodAt where
  | enter
  | kalloc
  | forward
  deriving DecidableEq, Repr

/-- `kill`. -/
inductive KillAt where
  | scan (i : Nat)
  | test (q : Slot)
  | hit (q : Slot)
  | miss (q : Slot)
  deriving DecidableEq, Repr

/-- `fork`; the first points are those of `allocproc`. -/
inductive ForkAt where
  | scan (i : Nat)
  | test (np : Slot)
  | skip (np : Slot)
  | allocpid (np : Slot)
  | used (np : Slot) (pid : Nat)
  | trapframe (np : Slot)
  | pagetable (np : Slot)
  | context (np : Slot)
  | uvmcopy (np : Slot)
  | shmemFork (np : Slot)
  | undo (np : Slot)
  | fail (np : Slot)
  | readPid (np : Slot)
  | release (np : Slot) (pid : Nat)
  | waitLock (np : Slot) (pid : Nat)
  | parent (np : Slot) (pid : Nat)
  | waitUnlock (np : Slot) (pid : Nat)
  | lock (np : Slot) (pid : Nat)
  | ready (np : Slot) (pid : Nat)
  | unlock (np : Slot) (pid : Nat)
  deriving DecidableEq, Repr

/-- `exit`. -/
inductive ExitAt where
  /-- closing files and giving back the directory, which may sleep -/
  | close
  | waitLock
  | reparent (i : Nat)
  | wakeup
  | lock
  | mark
  | waitUnlock
  | sched
  | dead
  deriving DecidableEq, Repr

/-- `wait`. -/
inductive WaitAt where
  | waitLock
  | scan (i : Nat) (havekids : Bool)
  | lock (q : Slot)
  | test (q : Slot)
  | skip (q : Slot)
  | copyout (q : Slot) (pid : Nat)
  | bad (q : Slot)
  | free (q : Slot) (pid : Nat)
  | unlock (q : Slot) (pid : Nat)
  | waitUnlock (pid : Nat)
  | fail
  | killed
  | readKilled
  | gotKilled (k : Bool)
  | sleep
  deriving DecidableEq, Repr

/-- Where a thread stands.  `next` is where it goes on after a call or an
interrupt; `a0` is the result of the last system call. -/
inductive Loc where
  | user (a0 : Int)
  | forkret
  | sched (i : Slot) (at_ : SchedAt)
  | switch (at_ : SwitchAt) (st : RunState) (next : Loc)
  /-- code that sleeps on a channel with a spinlock of its own -/
  | block (slept : Bool) (chan : Chan) (addr : Nat) (next : Loc)
  | sleep (at_ : SleepAt) (chan : Chan) (lk : Lock) (next : Loc)
  | wakeup (at_ : WakeupAt) (chan : Option Chan) (next : Loc)
  | callback (at_ : LookAt) (q : Slot) (next : Loc)
  | setCpuAffinity (at_ : LookAt) (mask : Int32)
  | waitPeriod
  | setperiod (at_ : PeriodAt) (period : Int)
  | kill (at_ : KillAt) (pid : Int)
  | fork (at_ : ForkAt)
  | exit (at_ : ExitAt) (status : Int)
  | wait (at_ : WaitAt) (addr : Nat)
  deriving DecidableEq, Repr

/-! ## Instructions -/

/-- An instruction of a thread. -/
inductive Instr where
  /-- Go on by a choice that the model leaves open. -/
  | choose (next : Bool → Loc)
  | acquire (l : Lock) (next : Loc)
  | release (l : Lock) (next : Loc)
  /-- `holding(l)`. -/
  | holding (l : Lock) (yes no : Loc)
  /-- Read and write one entry of the process table. -/
  | access (q : Slot) (f : Proc → Proc × Loc)
  | allocpid (next : Nat → Loc)
  /-- Let the thread of an entry start at `forkret`. -/
  | context (q : Slot) (next : Loc)
  /-- `c->proc = p`. -/
  | setProc (p : Option Slot) (next : Loc)
  /-- `swtch` from the scheduler to a process. -/
  | swtch (p : Slot) (next : Loc)
  /-- `sched`. -/
  | sched (next : Loc)
  /-- A panic, or nothing to do. -/
  | stop

/-- Code that needs `myproc()`. -/
def own (me : Option Slot) (f : Slot → Instr) : Instr :=
  match me with
  | none => .stop
  | some p => f p

/-- The head of a loop over the process table. -/
def forSlots (i : Nat) (body : Slot → Instr) (done : Instr) : Instr :=
  if h : i < NPROC then body ⟨i, h⟩ else done

/-- Go on without a choice. -/
def goto (next : Loc) : Instr := .choose fun _ => next

/-- The process that `userinit` makes, in the first entry. -/
def initproc : Slot := 0

/-- `scheduler`. -/
def scheduler (cpuid : Nat) (i : Slot) : SchedAt → Instr
  | .scan => .acquire (.proc i) (.sched i .test)
  | .test => .access i fun pr =>
      if pr.state = .runnable ∧ pr.mayRun cpuid then
        ({ pr with state := .running }, .sched i .chosen)
      else (pr, .sched i .release)
  | .chosen => .setProc (some i) (.sched i .switch)
  | .switch => .swtch i (.sched i .back)
  | .back => .setProc none (.sched i .release)
  -- after the last entry the loop starts again
  | .release => .release (.proc i) (.sched (i + 1) .scan)

/-- `yield`, where the new state is `RUNNABLE`, and the end of
`sys_wait_until_next_period`, where it is `SLEEPING`. -/
def switch (st : RunState) (next : Loc) (p : Slot) : SwitchAt → Instr
  | .lock => .acquire (.proc p) (.switch .mark st next)
  | .mark => .access p fun pr => ({ pr with state := st }, .switch .sched st next)
  | .sched => .sched (.switch .unlock st next)
  | .unlock => .release (.proc p) next

/-- `sleep(chan, lk)`. -/
def sleep (chan : Chan) (lk : Lock) (next : Loc) (p : Slot) : SleepAt → Instr
  | .enter => .holding (.proc p) next (.sleep .lock chan lk next)
  | .lock => .acquire (.proc p) (.sleep .release chan lk next)
  | .release => .release lk (.sleep .mark chan lk next)
  | .mark => .access p fun pr =>
      ({ pr with chan := some chan, state := .sleeping }, .sleep .sched chan lk next)
  | .sched => .sched (.sleep .tidy chan lk next)
  | .tidy => .access p fun pr => ({ pr with chan := none }, .sleep .unlock chan lk next)
  | .unlock => .release (.proc p) (.sleep .relock chan lk next)
  | .relock => .acquire lk next

/-- `wakeup(chan)`. -/
def wakeup (me : Option Slot) (chan : Option Chan) (next : Loc) : WakeupAt → Instr
  | .scan i => forSlots i (fun q =>
        if some q = me then goto (.wakeup (.scan (i + 1)) chan next)
        else .acquire (.proc q) (.wakeup (.test q) chan next))
      (goto next)
  | .test q => .access q fun pr => (pr.wakeOn chan, .wakeup (.unlock q) chan next)
  | .unlock q => .release (.proc q) (.wakeup (.scan (q + 1)) chan next)

/-- A function that does `f` to the entry `q` under its lock. -/
def look (q : Slot) (f : Proc → Proc) (loc : LookAt → Loc) (next : Loc) : LookAt → Instr
  | .lock => .acquire (.proc q) (loc .look)
  | .look => .access q fun pr => (f pr, loc .unlock)
  | .unlock => .release (.proc q) next

/-- `period_callback`. -/
def periodCallback (q : Slot) (next : Loc) : LookAt → Instr :=
  look q Proc.wake (.callback · q next) next

/-- `sys_set_cpu_affinity`. -/
def sysSetCpuAffinity (mask : Int32) (p : Slot) : LookAt → Instr :=
  look p (fun pr => { pr with cpuMask := mask, affinity := some mask })
    (.setCpuAffinity · mask) (.user 0)

/-- `sys_wait_until_next_period`, up to the switch. -/
def sysWaitUntilNextPeriod (p : Slot) : Instr :=
  .access p fun pr =>
    (pr, if pr.timer = none then .user (-1) else .switch .lock .sleeping (.user 0))

/-- `sys_setperiod`.  The choice is whether `kalloc` fails. -/
def sysSetperiod (period : Int) (p : Slot) : PeriodAt → Instr
  | .enter => .access p fun pr => (pr,
      if period < 1 then .user (-1)
      else if pr.timer = none then .setperiod .kalloc period
      else .setperiod .forward period)
  | .kalloc => .choose fun fails => if fails then .user (-1) else .setperiod .forward period
  | .forward => .access p fun pr => ({ pr with timer := some period }, .user 0)

/-- `kill(pid)`. -/
def kill (pid : Int) : KillAt → Instr
  | .scan i => forSlots i (fun q => .acquire (.proc q) (.kill (.test q) pid)) (goto (.user (-1)))
  | .test q => .access q fun pr =>
      if pr.pid = pid then ({ pr.wake with killed := true }, .kill (.hit q) pid)
      else (pr, .kill (.miss q) pid)
  | .hit q => .release (.proc q) (.user 0)
  | .miss q => .release (.proc q) (.kill (.scan (q + 1)) pid)

/-- `fork`, with `allocproc`.  The choices are whether memory runs out. -/
def fork (p : Slot) : ForkAt → Instr
  | .scan i => forSlots i (fun q => .acquire (.proc q) (.fork (.test q))) (goto (.user (-1)))
  | .test np => .access np fun pr =>
      (pr, .fork (if pr.state = .unused then .allocpid np else .skip np))
  | .skip np => .release (.proc np) (.fork (.scan (np + 1)))
  | .allocpid np => .allocpid fun pid => .fork (.used np pid)
  | .used np pid => .access np fun pr =>
      ({ pr with pid := pid, state := .used, affinity := none }, .fork (.trapframe np))
  | .trapframe np => .choose fun fails => .fork (if fails then .undo np else .pagetable np)
  | .pagetable np => .choose fun fails => .fork (if fails then .undo np else .context np)
  | .context np => .context np (.fork (.uvmcopy np))
  | .uvmcopy np => .choose fun fails => .fork (if fails then .undo np else .shmemFork np)
  | .shmemFork np => .choose fun fails => .fork (if fails then .undo np else .readPid np)
  | .undo np => .access np fun pr => (pr.freeproc, .fork (.fail np))
  | .fail np => .release (.proc np) (.user (-1))
  | .readPid np => .access np fun pr => (pr, .fork (.release np pr.pid))
  | .release np pid => .release (.proc np) (.fork (.waitLock np pid))
  | .waitLock np pid => .acquire .wait (.fork (.parent np pid))
  | .parent np pid => .access np fun pr =>
      ({ pr with parent := some p }, .fork (.waitUnlock np pid))
  | .waitUnlock np pid => .release .wait (.fork (.lock np pid))
  | .lock np pid => .acquire (.proc np) (.fork (.ready np pid))
  | .ready np pid => .access np fun pr => ({ pr with state := .runnable }, .fork (.unlock np pid))
  | .unlock np pid => .release (.proc np) (.user pid)

/-- `exit(status)` after its first test, with `reparent`. -/
def exit (status : Int) (p : Slot) : ExitAt → Instr
  | .close => goto (.exit .waitLock status)
  | .waitLock => .acquire .wait (.exit (.reparent 0) status)
  | .reparent i => forSlots i (fun q => .access q fun pr =>
        if pr.parent = some p then
          ({ pr with parent := some initproc },
            .wakeup (.scan 0) (some (.proc initproc)) (.exit (.reparent (i + 1)) status))
        else (pr, .exit (.reparent (i + 1)) status))
      (goto (.exit .wakeup status))
  | .wakeup => .access p fun pr =>
      (pr, .wakeup (.scan 0) (pr.parent.map .proc) (.exit .lock status))
  | .lock => .acquire (.proc p) (.exit .mark status)
  | .mark => .access p fun pr =>
      ({ pr with xstate := status, state := .zombie }, .exit .waitUnlock status)
  | .waitUnlock => .release .wait (.exit .sched status)
  | .sched => .sched (.exit .dead status)
  | .dead => .stop

/-- `wait(addr)`.  The choice is whether `copyout` fails. -/
def wait (addr : Nat) (p : Slot) : WaitAt → Instr
  | .waitLock => .acquire .wait (.wait (.scan 0 false) addr)
  | .scan i havekids => forSlots i (fun q => .access q fun pr => (pr,
        .wait (if pr.parent = some p then .lock q else .scan (i + 1) havekids) addr))
      (goto (.wait (if havekids then .killed else .fail) addr))
  | .lock q => .acquire (.proc q) (.wait (.test q) addr)
  | .test q => .access q fun pr =>
      (pr, .wait (if pr.state = .zombie then .copyout q pr.pid else .skip q) addr)
  | .skip q => .release (.proc q) (.wait (.scan (q + 1) true) addr)
  | .copyout q pid => .choose fun fails =>
      .wait (if addr ≠ 0 ∧ fails then .bad q else .free q pid) addr
  | .bad q => .release (.proc q) (.wait .fail addr)
  | .free q pid => .access q fun pr => (pr.freeproc, .wait (.unlock q pid) addr)
  | .unlock q pid => .release (.proc q) (.wait (.waitUnlock pid) addr)
  | .waitUnlock pid => .release .wait (.user pid)
  | .fail => .release .wait (.user (-1))
  | .killed => .acquire (.proc p) (.wait .readKilled addr)
  | .readKilled => .access p fun pr => (pr, .wait (.gotKilled pr.killed) addr)
  | .gotKilled k => .release (.proc p) (.wait (if k then .fail else .sleep) addr)
  | .sleep => goto (.sleep .enter (.proc p) .wait (.wait (.scan 0 false) addr))

/-- The instruction at a location, on the CPU with the given number and with
the given `myproc()`. -/
def instr (cpuid : Nat) (me : Option Slot) : Loc → Instr
  | .user _ => .stop
  | .forkret => own me fun p => .release (.proc p) (.user 0)
  | .sched i at_ => scheduler cpuid i at_
  | .switch at_ st next => own me fun p => switch st next p at_
  | .block slept chan addr next =>
      if slept then .release (.other addr) next
      else .acquire (.other addr) (.sleep .enter chan (.other addr) (.block true chan addr next))
  | .sleep at_ chan lk next => own me fun p => sleep chan lk next p at_
  | .wakeup at_ chan next => wakeup me chan next at_
  | .callback at_ q next => periodCallback q next at_
  | .setCpuAffinity at_ mask => own me fun p => sysSetCpuAffinity mask p at_
  | .waitPeriod => own me sysWaitUntilNextPeriod
  | .setperiod at_ period => own me fun p => sysSetperiod period p at_
  | .kill at_ pid => kill pid at_
  | .fork at_ => own me fun p => fork p at_
  | .exit at_ status => own me fun p => exit status p at_
  | .wait at_ addr => own me fun p => wait addr p at_

/-- The spinlocks that the thread of `me` holds at a location. -/
def Loc.locks (me : Option Slot) : Loc → List Lock
  | .user _ | .waitPeriod | .setperiod _ _ => []
  | .forkret => me.toList.map .proc
  | .sched i at_ => if at_ = .scan then [] else [.proc i]
  | .switch at_ _ _ => if at_ = .lock then [] else me.toList.map .proc
  | .block slept _ addr _ => if slept then [.other addr] else []
  | .sleep at_ _ lk _ =>
    match at_ with
    | .enter | .lock => [lk]
    | .release => lk :: me.toList.map .proc
    | .mark | .sched | .tidy | .unlock => me.toList.map .proc
    | .relock => []
  | .wakeup at_ _ next =>
    match at_ with
    | .scan _ => next.locks me
    | .test q | .unlock q => .proc q :: next.locks me
  | .callback at_ q _ => if at_ = .lock then [] else [.proc q]
  | .setCpuAffinity at_ _ => if at_ = .lock then [] else me.toList.map .proc
  | .kill at_ _ =>
    match at_ with
    | .scan _ => []
    | .test q | .hit q | .miss q => [.proc q]
  | .fork at_ =>
    match at_ with
    | .scan _ | .waitLock _ _ | .lock _ _ => []
    | .test np | .skip np | .allocpid np | .used np _ | .trapframe np | .pagetable np
    | .context np | .uvmcopy np | .shmemFork np | .undo np | .fail np | .readPid np
    | .release np _ | .ready np _ | .unlock np _ => [.proc np]
    | .parent _ _ | .waitUnlock _ _ => [.wait]
  | .exit at_ _ =>
    match at_ with
    | .close | .waitLock => []
    | .reparent _ | .wakeup | .lock => [.wait]
    | .mark | .waitUnlock => .wait :: me.toList.map .proc
    | .sched | .dead => me.toList.map .proc
  | .wait at_ _ =>
    match at_ with
    | .waitLock => []
    | .scan _ _ | .lock _ | .waitUnlock _ | .fail | .killed | .sleep => [.wait]
    | .test q | .skip q | .copyout q _ | .bad q | .free q _ | .unlock q _ => [.wait, .proc q]
    | .readKilled | .gotKilled _ => .wait :: me.toList.map .proc

/-! ## The system -/

/-- The threads: the scheduler of a CPU, and the kernel thread of a process. -/
inductive Thread (n : Nat) where
  | sched (c : Fin n)
  | proc (p : Slot)
  deriving DecidableEq, Repr

/-- The process of a thread. -/
def Thread.slot {n : Nat} : Thread n → Option Slot
  | .sched _ => none
  | .proc p => some p

/-- The process table and `n` CPUs.  `current c` is `c->proc`, and `active c`
the thread that the CPU executes. -/
structure State (n : Nat) where
  proc : Slot → Proc
  lock : Lock → Option (Fin n)
  current : Fin n → Option Slot
  active : Fin n → Thread n
  loc : Thread n → Loc
  nextpid : Nat

/-- A system call, or what other kernel code does. -/
inductive Call where
  | fork
  | exit (status : Int)
  | wait (addr : Nat)
  | kill (pid : Int)
  | setperiod (period : Int)
  | waitUntilNextPeriod
  | setCpuAffinity (mask : Int32)
  | block (chan : Chan) (addr : Nat)
  | wakeup (chan : Chan)
  deriving DecidableEq, Repr

/-- What an interrupt does. -/
inductive Intr where
  | wakeup (chan : Chan)
  | callback (q : Slot)
  | yield
  deriving DecidableEq, Repr

/-- A step. -/
inductive Label (n : Nat) where
  /-- CPU `c` carries out the next instruction of its thread. -/
  | run (c : Fin n) (choice : Bool)
  /-- The process on CPU `c` makes a call. -/
  | call (c : Fin n) (call : Call)
  | interrupt (c : Fin n) (intr : Intr)
  deriving DecidableEq, Repr

namespace State

variable {n : Nat}

/-- Where the thread stands that CPU `c` executes. -/
def here (s : State n) (c : Fin n) : Loc := s.loc (s.active c)

/-- Move the thread that CPU `c` executes. -/
def setLoc (s : State n) (c : Fin n) (next : Loc) : State n :=
  { s with loc := update s.loc (s.active c) next }

/-- Change a spinlock. -/
def setLock (s : State n) (l : Lock) (c : Option (Fin n)) : State n :=
  { s with lock := update s.lock l c }

/-- Change an entry of the process table. -/
def setEntry (s : State n) (q : Slot) (pr : Proc) : State n :=
  { s with proc := update s.proc q pr }

/-- CPU `c` carries out an instruction. -/
def exec (s : State n) (c : Fin n) (choice : Bool) : Instr → Option (State n)
  | .choose next => some (s.setLoc c (next choice))
  | .acquire l next => if s.lock l = none then some ((s.setLock l (some c)).setLoc c next) else none
  | .release l next => if s.lock l = some c then some ((s.setLock l none).setLoc c next) else none
  | .holding l yes no => some (s.setLoc c (if s.lock l = some c then yes else no))
  | .access q f => some ((s.setEntry q (f (s.proc q)).1).setLoc c (f (s.proc q)).2)
  | .allocpid next => some ({ s with nextpid := s.nextpid + 1 }.setLoc c (next s.nextpid))
  | .context q next => some ({ s with loc := update s.loc (.proc q) .forkret }.setLoc c next)
  | .setProc p next => some ({ s with current := update s.current c p }.setLoc c next)
  | .swtch p next => some { s.setLoc c next with active := update s.active c (.proc p) }
  | .sched next =>
    -- `sched` panics without `p->lock` and in state `RUNNING`
    match s.current c with
    | none => none
    | some p =>
      if s.lock (.proc p) = some c ∧ (s.proc p).state ≠ .running then
        some { s.setLoc c next with active := update s.active c (.sched c) }
      else none
  | .stop => none

/-- Where a call starts.  `exit` panics in init. -/
def enter (me : Option Slot) (next : Loc) : Call → Option Loc
  | .fork => some (.fork (.scan 0))
  | .exit status => if me = some initproc then none else some (.exit .close status)
  | .wait addr => some (.wait .waitLock addr)
  | .kill pid => some (.kill (.scan 0) pid)
  | .setperiod period => some (.setperiod .enter period)
  | .waitUntilNextPeriod => some .waitPeriod
  | .setCpuAffinity mask => some (.setCpuAffinity .lock mask)
  | .block chan addr => some (.block false chan addr next)
  | .wakeup chan => some (.wakeup (.scan 0) (some chan) next)

/-- The process on CPU `c` makes a call.  In the first part of `exit` it only
sleeps and wakes others. -/
def call (s : State n) (c : Fin n) (k : Call) : Option (State n) :=
  match s.here c, k with
  | .user a0, k => (enter (s.current c) (.user a0) k).map (s.setLoc c)
  | .exit .close status, .block chan addr =>
    some (s.setLoc c (.block false chan addr (.exit .close status)))
  | .exit .close status, .wakeup chan =>
    some (s.setLoc c (.wakeup (.scan 0) (some chan) (.exit .close status)))
  | _, _ => none

/-- An interrupt comes.  Interrupts are off while the CPU holds a spinlock,
and there is no `yield` without a process. -/
def interrupt (s : State n) (c : Fin n) (i : Intr) : Option (State n) :=
  if (s.here c).locks (s.active c).slot = [] then
    match i with
    | .wakeup chan => some (s.setLoc c (.wakeup (.scan 0) (some chan) (s.here c)))
    | .callback q => some (s.setLoc c (.callback .lock q (s.here c)))
    | .yield =>
      if s.current c = none then none
      else some (s.setLoc c (.switch .lock .runnable (s.here c)))
  else none

/-- Take a label; `none` when it cannot be taken. -/
def step (s : State n) : Label n → Option (State n)
  | .run c choice => s.exec c choice (instr c (s.current c) (s.here c))
  | .call c k => s.call c k
  | .interrupt c i => s.interrupt c i

end State

/-- An entry that was never used. -/
def Proc.zero : Proc where
  state := .unused
  chan := none
  killed := false
  xstate := 0
  pid := 0
  cpuMask := 0
  timer := none
  parent := none
  affinity := none

/-- The state after `userinit`, with all schedulers at the start of their
loops. -/
def State.boot (n : Nat) : State n where
  proc := update (fun _ => Proc.zero) initproc { Proc.zero with pid := 1, state := .runnable }
  lock _ := none
  current _ := none
  active c := .sched c
  loc
    | .sched _ => .sched 0 .scan
    | .proc _ => .forkret
  nextpid := 2

/-- The steps of the system. -/
def Steps {n : Nat} (s : State n) (l : Label n) (t : State n) : Prop := s.step l = some t

/-! ## Instructions and the process table -/

section

variable {n : Nat} {s t : State n} {c : Fin n} {b : Bool} {i : Instr} {l : Lock} {q : Slot}
  {M : Loc}

theorem exec_acquire : s.exec c b (.acquire l M) = some t ↔
    s.lock l = none ∧ (s.setLock l (some c)).setLoc c M = t := by
  simp [State.exec]

theorem exec_release : s.exec c b (.release l M) = some t ↔
    s.lock l = some c ∧ (s.setLock l none).setLoc c M = t := by
  simp [State.exec]

/-- Where an instruction leads its thread. -/
def Instr.next (s : State n) (c : Fin n) (b : Bool) : Instr → Loc
  | .choose next => next b
  | .acquire _ next | .release _ next | .context _ next | .setProc _ next | .swtch _ next
  | .sched next => next
  | .holding l yes no => if s.lock l = some c then yes else no
  | .access q f => (f (s.proc q)).2
  | .allocpid next => next s.nextpid
  | .stop => s.here c

/-- An instruction that touches no entry of the process table and starts no
thread. -/
def Instr.plain : Instr → Bool
  | .access _ _ | .context _ _ => false
  | _ => true

theorem exec_plain (h : s.exec c b i = some t) (hi : i.plain = true) :
    t.proc = s.proc ∧ t.loc = update s.loc (s.active c) (i.next s c b) := by
  cases i with
  | access | context => cases hi
  | stop => cases h
  | acquire =>
    obtain ⟨-, rfl⟩ := exec_acquire.1 h
    exact ⟨rfl, rfl⟩
  | release =>
    obtain ⟨-, rfl⟩ := exec_release.1 h
    exact ⟨rfl, rfl⟩
  | sched next =>
    simp only [State.exec] at h
    split at h
    · cases h
    split at h
    · cases h
      exact ⟨rfl, rfl⟩
    · cases h
  | _ =>
    cases h
    exact ⟨rfl, rfl⟩

/-- A call or an interrupt moves one thread. -/
theorem proc_of_call {k : Call} (h : s.call c k = some t) : ∃ M, t = s.setLoc c M := by
  simp only [State.call] at h
  split at h
  · obtain ⟨L, -, rfl⟩ := map_eq_some_iff.1 h
    exact ⟨L, rfl⟩
  · exact ⟨_, (some.inj h).symm⟩
  · exact ⟨_, (some.inj h).symm⟩
  · cases h

/-- What an interrupt finds: no spinlock is held, and `yield` has a process. -/
theorem interrupt_cases {k : Intr} (h : s.interrupt c k = some t) :
    (s.here c).locks (s.active c).slot = [] ∧
      ((∃ chan, t = s.setLoc c (.wakeup (.scan 0) (some chan) (s.here c))) ∨
        (∃ q, t = s.setLoc c (.callback .lock q (s.here c))) ∨
        (s.current c ≠ none ∧ t = s.setLoc c (.switch .lock .runnable (s.here c)))) := by
  simp only [State.interrupt] at h
  split at h
  · refine ⟨‹_›, ?_⟩
    cases k with
    | wakeup chan => exact .inl ⟨chan, (some.inj h).symm⟩
    | callback q => exact .inr (.inl ⟨q, (some.inj h).symm⟩)
    | yield =>
      by_cases hcur : s.current c = none
      · simp [hcur] at h
      simp only [if_neg hcur, some.injEq] at h
      exact .inr (.inr ⟨hcur, h.symm⟩)
  · cases h

theorem own_eq_access {me : Option Slot} {g : Slot → Instr} {f : Proc → Proc × Loc}
    (h : own me g = .access q f) : ∃ p, me = some p ∧ g p = .access q f := by
  cases me with
  | none => cases h
  | some p => exact ⟨p, rfl, h⟩

theorem forSlots_eq_access {i : Nat} {body : Slot → Instr} {f : Proc → Proc × Loc}
    (h : forSlots i body (goto M) = .access q f) : ∃ q', body q' = .access q f := by
  rw [forSlots] at h
  split at h
  · exact ⟨_, h⟩
  · cases h

/-- A step writes at most one entry, and only by an access. -/
theorem entry_of_step {l : Label n} (h : Steps s l t) (q : Slot) :
    t.proc q = s.proc q ∨ ∃ c b f, l = .run c b ∧
      instr c (s.current c) (s.here c) = .access q f ∧ t.proc q = (f (s.proc q)).1 := by
  cases l with
  | call c k =>
    obtain ⟨M, rfl⟩ := proc_of_call h
    exact .inl rfl
  | interrupt c k =>
    obtain ⟨-, ⟨_, rfl⟩ | ⟨_, rfl⟩ | ⟨-, rfl⟩⟩ := interrupt_cases h <;> exact .inl rfl
  | run c b =>
    rw [Steps, State.step] at h
    generalize hi : instr c (s.current c) (s.here c) = i at h
    cases i with
    | access q' f =>
      simp only [State.exec, some.injEq] at h
      subst h
      by_cases hq : q = q'
      · subst hq
        exact .inr ⟨c, b, f, rfl, hi, by simp [State.setLoc, State.setEntry]⟩
      · exact .inl (by simp [State.setLoc, State.setEntry, hq])
    | context =>
      cases h
      exact .inl rfl
    | _ => exact .inl (congrFun (exec_plain h rfl).1 q)

end

end Xv6.Smp
