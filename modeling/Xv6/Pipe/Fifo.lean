import Xv6.Pipe.Model

/-!
# The ring of a pipe is a queue

In every state that any number of writers, readers and closers can reach,
the ring holds at most `PIPESIZE` bytes, and the bytes taken out of it
followed by those still in it are the bytes put into it.  The counters may
have wrapped any number of times.
-/

namespace Xv6.Pipe

open Lib Sched

/-- The ring is a queue with a bounded number of bytes. -/
structure RingOk (pi : Pipe) : Prop where
  size : Ring.size pi.nread pi.nwrite ≤ PIPESIZE
  fifo : pi.taken ++ pi.contents = pi.put

theorem dvd_wrap : PIPESIZE ∣ 2 ^ 32 := by decide

variable {pi : Pipe}

theorem size_eq_of_full : pi.full = true ↔ Ring.size pi.nread pi.nwrite = PIPESIZE := by
  rw [full, decide_eq_true_iff, Ring.size_eq_iff (by decide)]

theorem RingOk.init (data : Fin PIPESIZE → UInt8) : RingOk (Pipe.init data) := by
  constructor
  · simp [Pipe.init]
  · simp [Pipe.init, contents, Ring.contents]

/-- Storing a byte in a ring that is not full. -/
theorem RingOk.store (h : RingOk pi) (hfull : pi.full = false) (ch : UInt8) :
    RingOk (pi.store ch) := by
  have hne : Ring.size pi.nread pi.nwrite ≠ PIPESIZE := by
    intro heq
    rw [size_eq_of_full.mpr heq] at hfull
    cases hfull
  have hlt : Ring.size pi.nread pi.nwrite < PIPESIZE := Nat.lt_of_le_of_ne h.size hne
  have hbound : PIPESIZE < 2 ^ 32 := by decide
  constructor
  · show Ring.size pi.nread (pi.nwrite + 1) ≤ PIPESIZE
    rwa [Ring.size_succ (by omega)]
  show pi.taken ++ Ring.contents (Function.update pi.data (Ring.slot pi.nwrite) ch) pi.nread
    (pi.nwrite + 1) = pi.put ++ [ch]
  rw [Ring.contents_put dvd_wrap hbound pi.data hlt ch, ← List.append_assoc, ← h.fifo]
  rfl

/-- Taking a byte out of a ring that is not empty. -/
theorem RingOk.advance (h : RingOk pi) (hempty : pi.empty = false) : RingOk pi.advance := by
  have hne : pi.nread ≠ pi.nwrite := by simpa [empty] using hempty
  constructor
  · show Ring.size (pi.nread + 1) pi.nwrite ≤ PIPESIZE
    have hpred := Ring.size_pred hne
    have hsize := h.size
    omega
  · show pi.taken ++ [pi.front] ++ Ring.contents pi.data (pi.nread + 1) pi.nwrite = pi.put
    rw [← h.fifo, contents, Ring.contents_take pi.data hne, List.append_assoc]
    rfl

/-- The locations at which a process holds the lock of the pipe. -/
def holds : Loc → Bool
  | .write _ _ _ .enter | .read _ _ _ .enter | .close _ .enter | .returned _ => false
  | _ => true

/-- The locations at which a writer has found room in the ring. -/
def hasRoom : Loc → Bool
  | .write _ _ _ .copyin | .write _ _ _ (.store _) => true
  | _ => false

/-- The annotations that carry the queue through the code.  Nothing is
claimed about who sleeps. -/
def fifoMonitor : Monitor Pipe Loc Chan where
  holds := holds
  inv := RingOk
  cond _ _ := True
  pre loc _ pi := RingOk pi ∧ (hasRoom loc = true → pi.full = false)
  owes _ _ _ _ := False

/-- A step between locations that know of no room. -/
theorem fifoMonitor_moves {loc next : Loc} (k : Bool) (hholds : holds next = holds loc)
    (hroom : hasRoom next = true → hasRoom loc = true) : fifoMonitor.Moves loc next k :=
  ⟨hholds, fun _ _ hpre => ⟨⟨hpre.1, fun h => hpre.2 (hroom h)⟩, fun _ howes => howes.elim⟩⟩

theorem fifoMonitor_enters {next : Loc} (hholds : holds next = true)
    (hroom : hasRoom next = false) : fifoMonitor.Enters next :=
  ⟨hholds, fun _ _ hinv => ⟨hinv, fun h => absurd h (by simp [hroom])⟩⟩

/-- A step that may change the ring. -/
theorem fifoMonitor_access {loc : Loc} {f : Fin NPROC → Pipe → Option (Pipe × Loc)}
    (hloc : holds loc = true) (h : ∀ p pi pi' next, f p pi = some (pi', next) → holds next = true ∧
      (RingOk pi → (hasRoom loc = true → pi.full = false) →
        RingOk pi' ∧ (hasRoom next = true → pi'.full = false))) :
    fifoMonitor.Ok loc (.access f) := by
  apply Monitor.ok_access hloc
  intro p pi pi' next hf
  obtain ⟨hnext, hring⟩ := h p pi pi' next hf
  exact ⟨hnext, fun k hpre => ⟨hring hpre.1 hpre.2, fun _ _ => .inl trivial⟩⟩

theorem pipewrite_fifo (addr : Nat) (n : Int) (i : Nat) (a : WriteAt) :
    fifoMonitor.Ok (.write addr n i a) (pipewrite addr n i a) := by
  cases a with
  | enter => exact ⟨rfl, fifoMonitor_enters rfl rfl⟩
  | loop =>
    apply fifoMonitor_access rfl
    intro p pi pi' next hf
    cases hf
    split
    · split <;> exact ⟨rfl, fun hring _ => ⟨hring, nofun⟩⟩
    · exact ⟨rfl, fun hring _ => ⟨hring, nofun⟩⟩
  | killed =>
    intro k
    cases k with
    | true => exact fifoMonitor_moves true rfl nofun
    | false => exact fifoMonitor_moves false rfl nofun
  | full =>
    apply fifoMonitor_access rfl
    intro p pi pi' next hf
    cases hf
    split
    · exact ⟨rfl, fun hring _ => ⟨hring, nofun⟩⟩
    rename_i hfull
    exact ⟨rfl, fun hring _ => ⟨hring, fun _ => by simpa using hfull⟩⟩
  | wakeup | done => exact ⟨rfl, fun _ k pi hpre => ⟨⟨hpre.1, nofun⟩, fun _ h => h.elim⟩⟩
  | sleep =>
    refine ⟨rfl, fifoMonitor_enters rfl rfl, ?_⟩
    intro k pi hpre
    exact ⟨hpre.1, trivial, fun _ h => h.elim⟩
  | copyin =>
    intro r k
    dsimp only
    split
    · exact fifoMonitor_moves k rfl fun _ => rfl
    · exact fifoMonitor_moves k rfl nofun
  | store ch =>
    apply fifoMonitor_access rfl
    intro p pi pi' next hf
    cases hf
    exact ⟨rfl, fun hring hroom => ⟨hring.store (hroom rfl) ch, nofun⟩⟩

theorem piperead_fifo (addr : Nat) (n : Int) (i : Nat) (a : ReadAt) :
    fifoMonitor.Ok (.read addr n i a) (piperead addr n i a) := by
  cases a with
  | enter => exact ⟨rfl, fifoMonitor_enters rfl rfl⟩
  | wait =>
    apply fifoMonitor_access rfl
    intro p pi pi' next hf
    cases hf
    split <;> exact ⟨rfl, fun hring _ => ⟨hring, nofun⟩⟩
  | killed =>
    intro k
    cases k with
    | true => exact fifoMonitor_moves true rfl nofun
    | false => exact fifoMonitor_moves false rfl nofun
  | sleep =>
    refine ⟨rfl, fifoMonitor_enters rfl rfl, ?_⟩
    intro k pi hpre
    exact ⟨hpre.1, trivial, fun _ h => h.elim⟩
  | loop =>
    apply fifoMonitor_access rfl
    intro p pi pi' next hf
    simp only [Option.some.injEq] at hf
    split at hf
    · rename_i hsome
      cases hf
      exact ⟨rfl, fun hring _ => ⟨hring.advance hsome.2, nofun⟩⟩
    · cases hf
      exact ⟨rfl, fun hring _ => ⟨hring, nofun⟩⟩
  | copyout ch =>
    intro r k
    cases r with
    | true | false => exact fifoMonitor_moves k rfl nofun
  | done => exact ⟨rfl, fun _ k pi hpre => ⟨⟨hpre.1, nofun⟩, fun _ h => h.elim⟩⟩

/-- Closing an end leaves the ring alone. -/
theorem RingOk.close (h : RingOk pi) (r w : Bool) :
    RingOk { pi with readopen := r, writeopen := w } := ⟨h.size, h.fifo⟩

theorem pipeclose_fifo (writable : Bool) (a : CloseAt) :
    fifoMonitor.Ok (.close writable a) (pipeclose writable a) := by
  cases a with
  | enter => exact ⟨rfl, fifoMonitor_enters rfl rfl⟩
  | mark =>
    apply fifoMonitor_access rfl
    intro p pi pi' next hf
    cases hf
    refine ⟨rfl, fun hring _ => ⟨?_, nofun⟩⟩
    cases writable with
    | true => exact hring.close pi.readopen false
    | false => exact hring.close false pi.writeopen
  | wakeup => exact ⟨rfl, fun _ k pi hpre => ⟨⟨hpre.1, nofun⟩, fun _ h => h.elim⟩⟩

theorem fifoMonitor_sound : fifoMonitor.Sound code where
  instr loc := by
    cases loc with
    | write addr n i a => exact pipewrite_fifo addr n i a
    | read addr n i a => exact piperead_fifo addr n i a
    | close writable a => exact pipeclose_fifo writable a
    | release r => exact ⟨rfl, rfl, fun k pi hpre => ⟨hpre.1, fun _ h => h.elim⟩⟩
    | returned r => rfl
  entry loc h := by
    simp only [code] at h
    split at h
    · rfl
    · rfl
    · rfl
    · cases h
  env_inv e := e.elim
  env_cond e := e.elim
  env_pre e := e.elim
  env_owes e := e.elim

/-- A kill does not touch the ring. -/
theorem fifoMonitor_allows (s : State Pipe Loc Chan Unit) (l : Label Loc Empty) :
    fifoMonitor.Allows s l := by
  have hkill : ∀ loc, fifoMonitor.Killable loc :=
    fun _ _ _ hpre => ⟨hpre, fun _ howes => howes.elim⟩
  exact Monitor.allows_of_killable hkill s l

/-- In every run of writers, readers and closers on a fresh pipe, the ring
never holds more than `PIPESIZE` bytes, and what was taken out followed by
what is still in it is what was put in. -/
theorem pipe_fifo {s t : State Pipe Loc Chan Unit} {ls : List (Label Loc Empty)}
    (hstart : Start s) (hrun : Run (Steps code) s ls t) :
    (t.data.nwrite - t.data.nread).toNat ≤ PIPESIZE ∧
      t.data.taken ++ t.data.contents = t.data.put := by
  have hinv : fifoMonitor.Inv s := by
    obtain ⟨data, hdata⟩ := hstart.pipe
    apply Monitor.Inv.start fifoMonitor_sound hstart.quiet
    rw [hdata]
    exact RingOk.init data
  have hrun' := hrun.mono fun s l t hstep => And.intro (fifoMonitor_allows s l) hstep
  -- the ring is in order also while somebody holds the lock
  have hring : RingOk t.data :=
    (hinv.of_run fifoMonitor_sound hrun').holds_always fun _ _ _ hpre => hpre.1
  exact ⟨hring.size, hring.fifo⟩

/-- A fresh pipe and processes that call nothing yet. -/
def fresh : State Pipe Loc Chan Unit :=
  State.idle (init fun _ => 0) (.returned 0) (fun _ => 7) (onePage 0x87000000)

theorem fresh_start : Start fresh where
  pipe := ⟨_, rfl⟩
  quiet := State.idle_quiescent rfl

/-- Process 0 fills the ring, and process 1 takes a byte out. -/
theorem pipe_fifo_filled : ∃ t, Run (Steps code) fresh
        (.start 0 (.write 0 512 0 .enter) :: runs 2629 0 ++
          .start 1 (.read 0 1 0 .enter) :: runs 3 1) t ∧
      t.data.taken = [7] ∧ t.data.nwrite = 512 ∧
      (t.data.nwrite - t.data.nread).toNat ≤ PIPESIZE ∧
      t.data.taken ++ t.data.contents = t.data.put := by
  have hrun : (follow (State.step code) fresh (.start 0 (.write 0 512 0 .enter) :: runs 2629 0 ++
        .start 1 (.read 0 1 0 .enter) :: runs 3 1)).any
      (fun t => t.data.taken = [7] && t.data.nwrite = 512) = true := by decide +kernel
  obtain ⟨t, ht, hdata⟩ := (Option.any_eq_true _ _).1 hrun
  rw [Bool.and_eq_true, decide_eq_true_eq, decide_eq_true_eq] at hdata
  have hrun : Run (Steps code) fresh _ t := Run.of_follow ht
  exact ⟨t, hrun, hdata.1, hdata.2, pipe_fifo fresh_start hrun⟩

end Xv6.Pipe
