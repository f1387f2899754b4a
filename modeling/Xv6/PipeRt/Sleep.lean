import Xv6.Lib.Bytes
import Xv6.PipeRt.Pipe
import Xv6.Sched.Wakeup

/-!
# Who sleeps on a priority pipe

The code of `pipe_rt_write`, `pipe_rt_read` and `pipe_rt_close`, one location
for each point at which another process may run, and the proof that no
wakeup is lost: while `p->lock` is free, a process that sleeps on
`&p->nread` sees an empty queue, an active pipe and a writer.

`pq_insert` and the loop of `pipe_rt_close` that frees the queue touch only
what `p->lock` protects and the page allocator, so each is one access.  Other
parts of the kernel may take and return pages between any two steps.
-/

namespace Xv6.PipeRt

open Lib Sched

/-! ## The code -/

/-- The bytes of an `int` as a number. -/
def intOfBytes (bytes : List UInt8) : Int := (BitVec.ofNat 32 (decodeLE bytes)).toInt

/-- The bytes of an `int`. -/
def bytesOfInt (i : Int) : List UInt8 := encodeLE 4 (BitVec.ofInt 32 i).toNat

/-- The task in the `sizeof(struct task_t)` bytes that `copyin` has read. -/
def Task.decode (bytes : List UInt8) : Task where
  priority := intOfBytes (bytes.take 4)
  pid := intOfBytes ((bytes.drop 4).take 4)
  x := intOfBytes ((bytes.drop 8).take 4)
  y := intOfBytes ((bytes.drop 12).take 4)
  op := bytes.getD 16 0
  result := decodeLE ((bytes.drop 24).take 8)
  error := decodeLE ((bytes.drop 32).take 8)

/-- The bytes that `copyout` stores for a task.  What the compiler leaves in
the padding after `op` is not specified; the model has zeros there. -/
def Task.encode (t : Task) : List UInt8 :=
  bytesOfInt t.priority ++ bytesOfInt t.pid ++ bytesOfInt t.x ++ bytesOfInt t.y ++
    t.op :: List.replicate 7 0 ++ encodeLE 8 t.result ++ encodeLE 8 t.error

@[simp] theorem Task.encode_length (t : Task) : t.encode.length = 40 := by
  simp [Task.encode, bytesOfInt]

/-- The pipe and the page allocator. -/
structure Data where
  kmem : Kmem
  pipe : Pipe

/-- The points of `pipe_rt_write`. -/
inductive WriteAt where
  /-- `acquire(&p->lock)` -/
  | enter
  /-- the test of `p->active` and `p->nread` -/
  | test
  /-- `copyin` of the task -/
  | copyin
  /-- `pq_insert` -/
  | insert (task : Task)
  /-- `wakeup(&p->nread)` -/
  | wakeup
  deriving DecidableEq, Repr

/-- The points of `pipe_rt_read`. -/
inductive ReadAt where
  /-- `acquire(&p->lock)` -/
  | enter
  /-- the condition of the `while` loop -/
  | test
  /-- `sleep(&p->nread, &p->lock)` -/
  | sleep
  /-- the test of `p->head` and `pq_remove` -/
  | remove
  /-- `copyout` of the task -/
  | copyout (task : Task)
  deriving DecidableEq, Repr

/-- The points of `pipe_rt_close`. -/
inductive CloseAt where
  /-- `acquire(&p->lock)` -/
  | enter
  /-- the counter of the closed end -/
  | drop
  /-- `wakeup(&p->nread)` -/
  | wakeup
  /-- the test of both counters, and what follows it -/
  | test
  deriving DecidableEq, Repr

/-- Where a process is, with its local variables.  Every path ends with
`release(&p->lock)` and `return r`. -/
inductive Loc where
  | write (addr : Nat) (n : Int) (at_ : WriteAt)
  | read (addr : Nat) (n : Int) (at_ : ReadAt)
  | close (writable : Bool) (at_ : CloseAt)
  | release (r : Int)
  | returned (r : Int)
  deriving DecidableEq, Repr

/-- `pipe_rt_write(p, addr, n)`. -/
def writeCode (addr : Nat) (n : Int) : WriteAt → Instr Data Loc Unit Unit
  | .enter => .acquire () (.write addr n .test)
  | .test => .access fun _ d => some (d,
      if !d.pipe.active ∨ d.pipe.nread ≤ 0 then .release (-1) else .write addr n .copyin)
  | .copyin => .copyin addr sizeofTask.toNat fun r =>
      match r with
      | none => .release (-1)
      | some bytes => .write addr n (.insert (Task.decode bytes))
  | .insert task => .access fun _ d =>
      let r := pqInsert d.kmem d.pipe.head task
      some ({ kmem := r.1, pipe := { d.pipe with head := r.2 } }, .write addr n .wakeup)
  | .wakeup => .wakeup () (.release sizeofTask)

/-- `pipe_rt_read(p, addr, n)`.  The length `n` is not used. -/
def readCode (addr : Nat) (n : Int) : ReadAt → Instr Data Loc Unit Unit
  | .enter => .acquire () (.read addr n .test)
  | .test => .access fun _ d => some (d,
      if d.pipe.head = [] ∧ d.pipe.active ∧ d.pipe.nwrite > 0 then .read addr n .sleep
      else .read addr n .remove)
  | .sleep => .sleep () () (.read addr n .test)
  | .remove => .access fun _ d =>
      if d.pipe.head = [] then
        some (d, .release (-1))
      else
        match pqRemove d.kmem d.pipe.head with
        | .error _ => none
        | .ok (task, k, head) =>
          some ({ kmem := k, pipe := { d.pipe with head := head } }, .read addr n (.copyout task))
  | .copyout task => .copyout addr task.encode fun ok => .release (if ok then sizeofTask else -1)

/-- `pipe_rt_close(p, writable)`. -/
def closeCode (writable : Bool) : CloseAt → Instr Data Loc Unit Unit
  | .enter => .acquire () (.close writable .drop)
  | .drop => .access fun _ d => some ({ d with pipe := d.pipe.dropEnd writable },
      .close writable (if writable then .wakeup else .test))
  | .wakeup => .wakeup () (.close writable .test)
  | .test => .access fun _ d =>
      if d.pipe.nwrite = 0 ∧ d.pipe.nread = 0 then
        match pqDrain d.kmem d.pipe.head with
        | .error _ => none
        | .ok k =>
          some ({ kmem := k, pipe := { d.pipe with head := [], active := false } }, .release 0)
      else
        some (d, .release 0)

/-- The code of the three functions.  The environment takes and returns
pages. -/
def code : Code Data Loc Unit Unit Kmem where
  instr
    | .write addr n a => writeCode addr n a
    | .read addr n a => readCode addr n a
    | .close writable a => closeCode writable a
    | .release r => .release () (.returned r)
    | .returned r => .ret r
  entry
    | .write _ _ .enter | .read _ _ .enter | .close _ .enter => true
    | _ => false
  env k d := { d with kmem := k }

/-! ## Wakeups -/

/-- What a process that sleeps on `&p->nread` waits to see changed. -/
def Waits (d : Data) : Prop :=
  d.pipe.head = [] ∧ d.pipe.active = true ∧ d.pipe.nwrite > 0

/-- The locations at which a process holds the lock of the pipe. -/
def holds : Loc → Bool
  | .write _ _ .enter | .read _ _ .enter | .close _ .enter | .returned _ => false
  | _ => true

/-- A process here is about to sleep. -/
def aboutToSleep : Loc → Bool
  | .read _ _ .sleep => true
  | _ => false

/-- A process here has inserted a task or closed the write end, and has not
called `wakeup` yet. -/
def owesWakeup : Loc → Bool
  | .write _ _ .wakeup | .close _ .wakeup => true
  | _ => false

/-- The annotations for wakeups. -/
def wakeMonitor : Monitor Data Loc Unit where
  holds := holds
  inv _ := True
  cond _ := Waits
  pre loc _ d := aboutToSleep loc = true → Waits d
  owes loc _ _ _ := owesWakeup loc = true

theorem pre_of_not_aboutToSleep {loc : Loc} (h : aboutToSleep loc = false) (k : Bool)
    (d : Data) : wakeMonitor.pre loc k d := by
  intro hsleep
  rw [h] at hsleep
  cases hsleep

/-- A step between locations that owe nothing and do not sleep. -/
theorem wakeMonitor_moves {loc next : Loc} (k : Bool) (hholds : holds next = holds loc)
    (hsleep : aboutToSleep next = false) (howes : owesWakeup loc = false) :
    wakeMonitor.Moves loc next k := by
  refine ⟨hholds, fun _ d _ => ⟨pre_of_not_aboutToSleep hsleep k d, fun c hc => ?_⟩⟩
  have hc' : owesWakeup loc = true := hc
  rw [howes] at hc'
  cases hc'

theorem wakeMonitor_enters {next : Loc} (hholds : holds next = true)
    (hsleep : aboutToSleep next = false) : wakeMonitor.Enters next :=
  ⟨hholds, fun k d _ => pre_of_not_aboutToSleep hsleep k d⟩

theorem writeCode_wakes (addr : Nat) (n : Int) (a : WriteAt) :
    wakeMonitor.Ok (.write addr n a) (writeCode addr n a) := by
  cases a with
  | enter => exact ⟨rfl, wakeMonitor_enters rfl rfl⟩
  | test =>
    apply Monitor.ok_access rfl
    intro p d d' next hf
    cases hf
    split <;> exact ⟨rfl, fun k _ => ⟨pre_of_not_aboutToSleep rfl k d, fun c hc => hc⟩⟩
  | copyin =>
    intro r k
    cases r with
    | none | some => exact wakeMonitor_moves k rfl rfl rfl
  | insert task =>
    apply Monitor.ok_access rfl
    intro p d d' next hf
    cases hf
    exact ⟨rfl, fun k _ => ⟨pre_of_not_aboutToSleep rfl k _, fun c _ => .inr rfl⟩⟩
  | wakeup => exact ⟨rfl, fun _ k d _ => ⟨pre_of_not_aboutToSleep rfl k d, fun c _ => .inl rfl⟩⟩

theorem readCode_wakes (addr : Nat) (n : Int) (a : ReadAt) :
    wakeMonitor.Ok (.read addr n a) (readCode addr n a) := by
  cases a with
  | enter => exact ⟨rfl, wakeMonitor_enters rfl rfl⟩
  | test =>
    apply Monitor.ok_access rfl
    intro p d d' next hf
    cases hf
    split
    · rename_i hwait
      exact ⟨rfl, fun k _ => ⟨fun _ => hwait, fun c hc => hc⟩⟩
    · exact ⟨rfl, fun k _ => ⟨pre_of_not_aboutToSleep rfl k d, fun c hc => hc⟩⟩
  | sleep =>
    refine ⟨rfl, wakeMonitor_enters rfl rfl, fun k d hwait => ⟨trivial, hwait rfl, ?_⟩⟩
    intro c howes
    cases howes
  | remove =>
    apply Monitor.ok_access rfl
    intro p d d' next hf
    split at hf
    · cases hf
      exact ⟨rfl, fun k _ => ⟨pre_of_not_aboutToSleep rfl k d, fun c hc => hc⟩⟩
    rename_i hhead
    split at hf
    · cases hf
    cases hf
    refine ⟨rfl, fun k _ => ⟨pre_of_not_aboutToSleep rfl k _, fun c hc => ?_⟩⟩
    -- nobody waits: there was a task
    obtain hwait | howes := hc
    · exact absurd hwait.1 hhead
    · cases howes
  | copyout task =>
    intro r k
    exact wakeMonitor_moves k rfl rfl rfl

theorem closeCode_wakes (writable : Bool) (a : CloseAt) :
    wakeMonitor.Ok (.close writable a) (closeCode writable a) := by
  cases a with
  | enter => exact ⟨rfl, wakeMonitor_enters rfl rfl⟩
  | drop =>
    apply Monitor.ok_access rfl
    intro p d d' next hf
    cases hf
    cases writable with
    | true => exact ⟨rfl, fun k _ => ⟨pre_of_not_aboutToSleep rfl k _, fun c _ => .inr rfl⟩⟩
    | false => exact ⟨rfl, fun k _ => ⟨pre_of_not_aboutToSleep rfl k _, fun c hc => hc⟩⟩
  | wakeup => exact ⟨rfl, fun _ k d _ => ⟨pre_of_not_aboutToSleep rfl k d, fun c _ => .inl rfl⟩⟩
  | test =>
    apply Monitor.ok_access rfl
    intro p d d' next hf
    split at hf
    · rename_i hclosed
      split at hf
      · cases hf
      cases hf
      refine ⟨rfl, fun k _ => ⟨pre_of_not_aboutToSleep rfl k _, fun c hc => ?_⟩⟩
      -- nobody waits: there was no writer left
      obtain hwait | howes := hc
      · have hpos := hwait.2.2
        omega
      · cases howes
    · cases hf
      exact ⟨rfl, fun k _ => ⟨pre_of_not_aboutToSleep rfl k d, fun c hc => hc⟩⟩

theorem wakeMonitor_sound : wakeMonitor.Sound code where
  instr loc := by
    cases loc with
    | write addr n a => exact writeCode_wakes addr n a
    | read addr n a => exact readCode_wakes addr n a
    | close writable a => exact closeCode_wakes writable a
    | release r => exact ⟨rfl, rfl, fun k d _ => ⟨trivial, fun c howes => by cases howes⟩⟩
    | returned r => rfl
  entry loc h := by
    simp only [code] at h
    split at h
    · rfl
    · rfl
    · rfl
    · cases h
  env_inv _ _ _ := trivial
  env_cond _ _ _ h := h
  env_pre _ _ _ _ h := h
  env_owes _ _ _ _ _ h := h

/-- A kill makes nobody forget a wakeup: no location depends on
`p->killed`. -/
theorem wakeMonitor_allows (s : State Data Loc Unit Unit) (l : Label Loc Kmem) :
    wakeMonitor.Allows s l := by
  have hkill : ∀ loc, wakeMonitor.Killable loc :=
    fun _ _ _ hpre => ⟨hpre, fun _ howes => .inr howes⟩
  exact Monitor.allows_of_killable hkill s l

/-- In every run of writers, readers and closers on a priority pipe: whenever
`p->lock` is free, a process that sleeps on `&p->nread` sees an empty queue,
an active pipe and an open write end. -/
theorem pipeRt_no_lost_wakeup {s t : State Data Loc Unit Unit} {ls : List (Label Loc Kmem)}
    (hstart : Quiescent code s) (hrun : Run (Steps code) s ls t) (hfree : t.holder () = none)
    (p : Fin NPROC) (hp : (t.proc p).state = .sleeping) (hchan : (t.proc p).chan = some ()) :
    t.data.pipe.head = [] ∧ t.data.pipe.active = true ∧ t.data.pipe.nwrite > 0 := by
  have hinv : wakeMonitor.Inv s := .start wakeMonitor_sound hstart trivial
  have hrun' := hrun.mono fun s l t hstep => And.intro (wakeMonitor_allows s l) hstep
  exact (hinv.of_run wakeMonitor_sound hrun').cond_of_sleeping hfree hp hchan

/-- A fresh pipe, two free pages, and processes that call nothing yet. -/
def fresh : State Data Loc Unit Unit :=
  State.idle { kmem := ⟨0x80000000, [0x80001000, 0x80002000]⟩, pipe := Pipe.init }
    (.returned 0) (fun _ => 7) (onePage 0x87000000)

/-- Process 1 finds the queue empty and goes to sleep. -/
def readerSleeps : List (Label Loc Kmem) := .start 1 (.read 0 40 .enter) :: runs 6 1

theorem pipeRt_no_lost_wakeup_reader : ∃ t, Run (Steps code) fresh readerSleeps t ∧
      (t.proc 1).state = .sleeping ∧ (t.proc 1).chan = some () ∧
      t.data.pipe.head = [] ∧ t.data.pipe.active = true ∧ t.data.pipe.nwrite > 0 := by
  have hrun : (follow (State.step code) fresh readerSleeps).any (fun t =>
      t.holder () = none ∧ (t.proc 1).state = .sleeping ∧
        (t.proc 1).chan = some ()) = true := by decide +kernel
  obtain ⟨t, ht, hend⟩ := (Option.any_eq_true _ _).1 hrun
  obtain ⟨hfree, hstate, hchan⟩ := of_decide_eq_true hend
  have hrun : Run (Steps code) fresh readerSleeps t := Run.of_follow ht
  exact ⟨t, hrun, hstate, hchan, pipeRt_no_lost_wakeup (State.idle_quiescent rfl) hrun hfree 1
    hstate hchan⟩

end Xv6.PipeRt
