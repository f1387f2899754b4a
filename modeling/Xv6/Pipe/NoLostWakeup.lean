import Xv6.Pipe.Fifo

/-!
# Who sleeps on a pipe

A reader sleeps on `&pi->nread` while the ring is empty and a writer is
left, a writer sleeps on `&pi->nwrite` while the ring is full and a reader
is left.  `pipewrite` breaks this when it is killed in the middle: a byte is
in the ring, the next test of `killed(pr)` returns without a wakeup, and a
reader that slept before the byte came sleeps on
(`reader_sleeps_with_byte`).  As long as no kill hits a process there, no
wakeup is lost (`pipe_no_lost_wakeup`).
-/

namespace Xv6.Pipe

open Lib Option Sched

/-- What a process that sleeps on the channel waits to see changed. -/
def Waits : Chan → Pipe → Prop
  | .nread, pi => pi.empty = true ∧ pi.writeopen = true
  | .nwrite, pi => pi.full = true ∧ pi.readopen = true

/-- What the holder of the lock has learnt; `k` is `p->killed`. -/
def knows (pi : Pipe) (k : Bool) : Loc → Prop
  | .write _ _ _ .killed => pi.readopen = true
  | .write _ _ _ .full => pi.readopen = true ∧ k = false
  | .write _ _ _ .copyin | .write _ _ _ (.store _) =>
    pi.readopen = true ∧ k = false ∧ pi.full = false
  | .write _ _ _ .wakeup | .write _ _ _ .sleep => Waits .nwrite pi
  | .read _ _ _ .killed | .read _ _ _ .sleep => Waits .nread pi
  | _ => True

/-- The wakeup that the holder of the lock owes.  A writer that goes round
its loop may have stored bytes, unless it has been killed or the read end has
been closed since it last held the lock. -/
def owed (pi : Pipe) (k : Bool) : Loc → Option Chan
  | .write _ _ _ .loop => if k = false ∧ pi.readopen = true then some .nread else none
  | .write _ _ _ .killed => if k = false then some .nread else none
  | .write _ _ _ .full | .write _ _ _ .copyin | .write _ _ _ (.store _)
  | .write _ _ _ .wakeup | .write _ _ _ .done => some .nread
  | .read _ _ _ .loop | .read _ _ _ (.copyout _) | .read _ _ _ .done => some .nwrite
  | .close writable .wakeup => some (if writable then .nread else .nwrite)
  | _ => none

/-- The annotations for wakeups. -/
def wakeMonitor : Monitor Pipe Loc Chan where
  holds := holds
  inv _ := True
  cond := Waits
  pre loc k pi := knows pi k loc
  owes loc k pi c := owed pi k loc = some c

theorem pipewrite_wakes (addr : Nat) (n : Int) (i : Nat) (a : WriteAt) :
    wakeMonitor.Ok (.write addr n i a) (pipewrite addr n i a) := by
  cases a with
  | enter => exact ⟨rfl, rfl, fun _ _ _ => trivial⟩
  | loop =>
    apply Monitor.ok_access rfl
    intro p pi pi' next hf
    cases hf
    split
    · split
      · rename_i hopen
        refine ⟨rfl, fun k _ => ⟨hopen, fun c hc => hc.imp_right ?_⟩⟩
        intro howes
        simpa [wakeMonitor, owed, hopen] using howes
      rename_i hopen
      refine ⟨rfl, fun k _ => ⟨trivial, fun c hc => hc.imp_right ?_⟩⟩
      intro howes
      simp [wakeMonitor, owed, hopen] at howes
    · refine ⟨rfl, fun k _ => ⟨trivial, fun c hc => hc.imp_right ?_⟩⟩
      intro howes
      simp only [wakeMonitor, owed] at howes
      split at howes
      · exact howes
      · cases howes
  | killed =>
    intro k
    cases k with
    | true => exact ⟨rfl, fun _ pi _ => ⟨trivial, fun c howes => by cases howes⟩⟩
    | false => exact ⟨rfl, fun _ pi hopen => ⟨⟨hopen, rfl⟩, fun c howes => .inr howes⟩⟩
  | full =>
    apply Monitor.ok_access rfl
    intro p pi pi' next hf
    cases hf
    split
    · rename_i hfull
      exact ⟨rfl, fun k hknow => ⟨⟨hfull, hknow.1⟩, fun c hc => hc⟩⟩
    · rename_i hfull
      exact ⟨rfl, fun k hknow => ⟨⟨hknow.1, hknow.2, by simpa using hfull⟩, fun c hc => hc⟩⟩
  | wakeup =>
    refine ⟨rfl, fun _ k pi hknow => ⟨hknow, fun c howes => .inl ?_⟩⟩
    exact (some.inj howes).symm
  | sleep => exact ⟨rfl, ⟨rfl, fun _ _ _ => trivial⟩, fun k pi hknow =>
      ⟨trivial, hknow, fun c howes => by cases howes⟩⟩
  | copyin =>
    intro r k
    dsimp only
    split
    · exact ⟨rfl, fun _ pi hknow => ⟨hknow, fun c howes => Or.inr howes⟩⟩
    · exact ⟨rfl, fun _ pi _ => ⟨trivial, fun c howes => Or.inr howes⟩⟩
  | store ch =>
    apply Monitor.ok_access rfl
    intro p pi pi' next hf
    simp only [some.injEq, Prod.mk.injEq] at hf
    obtain ⟨rfl, rfl⟩ := hf
    refine ⟨rfl, fun k hknow => ⟨trivial, fun c hc => Or.inr ?_⟩⟩
    obtain ⟨hopen, hk, hfull⟩ := hknow
    have hopen' : (pi.store ch).readopen = true := hopen
    -- nobody waits for room: the ring has some
    have hc' : c = .nread := by
      obtain hwait | howes := hc
      · cases c with
        | nread => rfl
        | nwrite =>
          have hno := hwait.1
          rw [hfull] at hno
          cases hno
      · exact (some.inj howes).symm
    simp [wakeMonitor, owed, hk, hopen', hc']
  | done =>
    refine ⟨rfl, fun _ k pi _ => ⟨trivial, fun c howes => Or.inl ?_⟩⟩
    exact (some.inj howes).symm

theorem piperead_wakes (addr : Nat) (n : Int) (i : Nat) (a : ReadAt) :
    wakeMonitor.Ok (.read addr n i a) (piperead addr n i a) := by
  cases a with
  | enter => exact ⟨rfl, rfl, fun _ _ _ => trivial⟩
  | wait =>
    apply Monitor.ok_access rfl
    intro p pi pi' next hf
    cases hf
    split
    · rename_i hwait
      refine ⟨rfl, fun k _ => ⟨Bool.and_eq_true_iff.mp hwait, fun c hc => hc.imp_right ?_⟩⟩
      intro howes
      cases howes
    · refine ⟨rfl, fun k _ => ⟨trivial, fun c hc => hc.imp_right ?_⟩⟩
      intro howes
      cases howes
  | killed =>
    intro k
    cases k with
    | true => exact ⟨rfl, fun _ pi _ => ⟨trivial, fun c howes => by cases howes⟩⟩
    | false => exact ⟨rfl, fun _ pi hknow => ⟨hknow, fun c howes => by cases howes⟩⟩
  | sleep => exact ⟨rfl, ⟨rfl, fun _ _ _ => trivial⟩, fun k pi hknow =>
      ⟨trivial, hknow, fun c howes => by cases howes⟩⟩
  | loop =>
    apply Monitor.ok_access rfl
    intro p pi pi' next hf
    simp only [some.injEq] at hf
    split at hf
    · rename_i hsome
      cases hf
      refine ⟨rfl, fun k _ => ⟨trivial, fun c hc => .inr ?_⟩⟩
      -- nobody waits for bytes: the ring has some
      obtain hwait | howes := hc
      · cases c with
        | nread =>
          have hno := hwait.1
          rw [hsome.2] at hno
          cases hno
        | nwrite => rfl
      · exact howes
    · cases hf
      exact ⟨rfl, fun k _ => ⟨trivial, fun c hc => hc⟩⟩
  | copyout ch =>
    intro r k
    cases r with
    | true | false => exact ⟨rfl, fun _ pi _ => ⟨trivial, fun c howes => .inr howes⟩⟩
  | done =>
    refine ⟨rfl, fun _ k pi _ => ⟨trivial, fun c howes => .inl ?_⟩⟩
    exact (some.inj howes).symm

theorem pipeclose_wakes (writable : Bool) (a : CloseAt) :
    wakeMonitor.Ok (.close writable a) (pipeclose writable a) := by
  cases a with
  | enter => exact ⟨rfl, rfl, fun _ _ _ => trivial⟩
  | mark =>
    apply Monitor.ok_access rfl
    intro p pi pi' next hf
    cases hf
    refine ⟨rfl, fun k _ => ⟨trivial, fun c hc => ?_⟩⟩
    obtain hwait | howes := hc
    · cases writable with
      | true =>
        cases c with
        | nread => exact .inr rfl
        | nwrite => exact .inl hwait
      | false =>
        cases c with
        | nread => exact .inl hwait
        | nwrite => exact .inr rfl
    · cases howes
  | wakeup =>
    refine ⟨rfl, fun _ k pi _ => ⟨trivial, fun c howes => .inl ?_⟩⟩
    exact (some.inj howes).symm

theorem wakeMonitor_sound : wakeMonitor.Sound code where
  instr loc := by
    cases loc with
    | write addr n i a => exact pipewrite_wakes addr n i a
    | read addr n i a => exact piperead_wakes addr n i a
    | close writable a => exact pipeclose_wakes writable a
    | release r => exact ⟨rfl, rfl, fun k pi _ => ⟨trivial, fun c howes => by cases howes⟩⟩
    | returned r => rfl
  entry := fifoMonitor_sound.entry
  env_inv e := e.elim
  env_cond e := e.elim
  env_pre e := e.elim
  env_owes e := e.elim

/-! ## Kills in the middle of a write -/

/-- The points of the loop of `pipewrite` before the `wakeup` that a stored
byte needs. -/
def inWriteLoop : Loc → Bool
  | .write _ _ _ a =>
    match a with
    | .loop | .killed | .full | .copyin | .store _ => true
    | .enter | .wakeup | .sleep | .done => false
  | _ => false

/-- The process holds `pi->lock` in the loop of `pipewrite`.  No `wakeup` of
the source returns there. -/
def midWrite : Ctl Loc Chan Unit → Bool
  | .code loc | .wakeup _ _ loc => inWriteLoop loc
  | .sleep _ _ _ _ => false

/-- No kill hits a process that holds `pi->lock` in the loop of
`pipewrite`. -/
def SparesWriters (s : State Pipe Loc Chan Unit) : Label Loc Empty → Prop
  | .kill p => midWrite (s.proc p).ctl = false
  | _ => True

instance (s : State Pipe Loc Chan Unit) (l : Label Loc Empty) :
    Decidable (SparesWriters s l) := by
  cases l <;> unfold SparesWriters <;> infer_instance

/-- Everywhere else `p->killed` makes no difference to what is owed. -/
theorem wakeMonitor_killable {loc : Loc} (h : inWriteLoop loc = false) :
    wakeMonitor.Killable loc := by
  intro _ pi hknow
  cases loc with
  | write addr n i a =>
    cases a with
    | loop | killed | full | copyin | store => cases h
    | enter | wakeup | sleep | done => exact ⟨hknow, fun c howes => .inr howes⟩
  | read addr n i a | close writable a => cases a <;> exact ⟨hknow, fun c howes => .inr howes⟩
  | release | returned => exact ⟨hknow, fun c howes => .inr howes⟩

theorem SparesWriters.allows {s : State Pipe Loc Chan Unit} {l : Label Loc Empty}
    (h : SparesWriters s l) : wakeMonitor.Allows s l := by
  cases l with
  | kill p =>
    have hmid : midWrite (s.proc p).ctl = false := h
    show wakeMonitor.KillableAt (s.proc p).ctl
    cases hctl : (s.proc p).ctl with
    | code | wakeup =>
      rw [hctl] at hmid
      exact wakeMonitor_killable hmid
    | sleep stage c lk next => trivial
  | run | schedule | yield | expire | start | env | user => trivial

/-- In every run in which no kill hits a process in the loop of `pipewrite`
that holds `pi->lock`: whenever the lock is free, a process that sleeps on
`&pi->nread` sees an empty ring with `writeopen` set, and one that sleeps on
`&pi->nwrite` a full ring with `readopen` set. -/
theorem pipe_no_lost_wakeup {s t : State Pipe Loc Chan Unit} {ls : List (Label Loc Empty)}
    (hstart : Quiescent code s)
    (hrun : Run (fun s l t => SparesWriters s l ∧ Steps code s l t) s ls t)
    (hfree : t.holder () = none) (p : Fin NPROC) (hp : (t.proc p).state = .sleeping) :
    ((t.proc p).chan = some .nread → t.data.empty = true ∧ t.data.writeopen = true) ∧
      ((t.proc p).chan = some .nwrite → t.data.full = true ∧ t.data.readopen = true) := by
  have hinv : wakeMonitor.Inv s := .start wakeMonitor_sound hstart trivial
  have hrun' := hrun.mono fun s l t hstep => And.intro hstep.1.allows hstep.2
  have ht := hinv.of_run wakeMonitor_sound hrun'
  exact ⟨ht.cond_of_sleeping hfree hp, ht.cond_of_sleeping hfree hp⟩

/-- Process 1 finds the ring empty and goes to sleep. -/
def readerSleeps : List (Label Loc Empty) :=
  .start 1 (.read 0 1 0 .enter) :: runs 7 1

theorem pipe_no_lost_wakeup_reader :
    ∃ t, Run (fun s l t => SparesWriters s l ∧ Steps code s l t) fresh
        (readerSleeps ++ [.kill 0]) t ∧
      (t.proc 1).state = .sleeping ∧ (t.proc 1).chan = some .nread ∧
      t.data.empty = true ∧ t.data.writeopen = true := by
  have hrun : (follow (fun s l => if SparesWriters s l then s.step code l else none) fresh
      (readerSleeps ++ [.kill 0])).any (fun t => t.holder () = none ∧
        (t.proc 1).state = .sleeping ∧ (t.proc 1).chan = some .nread) = true := by
    decide +kernel
  obtain ⟨t, ht, hend⟩ := (Option.any_eq_true _ _).1 hrun
  obtain ⟨hfree, hstate, hchan⟩ := of_decide_eq_true hend
  have hrun : Run (fun s l t => SparesWriters s l ∧ Steps code s l t) fresh
      (readerSleeps ++ [.kill 0]) t := by
    refine (Run.of_follow ht).mono ?_
    intro s l t h
    split at h
    · rename_i hspare
      exact ⟨hspare, h⟩
    · cases h
  exact ⟨t, hrun, hstate, hchan,
    (pipe_no_lost_wakeup fresh_start.quiet hrun hfree 1 hstate).1 hchan⟩

/-- Process 0 writes two bytes and is killed after the first. -/
def writerKilled : List (Label Loc Empty) :=
  .start 0 (.write 0 2 0 .enter) :: runs 6 0 ++ .kill 0 :: runs 3 0

/-- The reader sleeps, no lock is held, and the ring is not empty. -/
theorem reader_sleeps_with_byte : ∃ t, Run (Steps code) fresh (readerSleeps ++ writerKilled) t ∧
      t.holder () = none ∧ (∀ p, (t.proc p).locked = false) ∧
      (t.proc 1).state = .sleeping ∧ (t.proc 1).chan = some .nread ∧
      t.data.empty = false := by
  have hrun : (follow (State.step code) fresh (readerSleeps ++ writerKilled)).any
      (fun t => t.holder () = none ∧ (∀ p, (t.proc p).locked = false) ∧
        (t.proc 1).state = .sleeping ∧ (t.proc 1).chan = some .nread ∧
        t.data.empty = false) = true := by decide +kernel
  obtain ⟨t, ht, hend⟩ := (Option.any_eq_true _ _).1 hrun
  exact ⟨t, Run.of_follow ht, of_decide_eq_true hend⟩

end Xv6.Pipe
