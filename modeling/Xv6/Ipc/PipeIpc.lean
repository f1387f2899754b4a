import Xv6.Ipc.Basic

/-!
# Answers through one reply pipe

The server and the clients of `proj2/user/pipe_ipc.c`.  All clients send their
tasks through one pipe and read from one other pipe, and nothing in an answer
is looked at to see whose it is.  A client gets its own answer if it is alone:
when it starts to send, no other client waits (`Alone`).  Two clients at once
can get each other's answers.

One transition is a turn of a `write`, a `read`, or the start of a `write`.
The results of `read` and `write` are ignored by the source, and by the
model.
-/

namespace Xv6.PipeIpc

open Lib Ipc Function

/-- `task_t`: `x`, `y`, `op` with three bytes of padding, `result` and
`error`. -/
abbrev Task := Buf 20

namespace Task

def x (t : Task) : Int32 := getInt t 0
def y (t : Task) : Int32 := getInt t 4
def op (t : Task) : UInt8 := t.get 8
def result (t : Task) : Int32 := getInt t 12
def error (t : Task) : Int32 := getInt t 16

/-- `task.error = calc(task.x, task.y, task.op, &task.result)`. -/
def solve (t : Task) : Task :=
  let r := calcOp t.x t.y t.op t.result
  putInt (putInt t 12 r.2) 16 r.1

/-- The bytes of a task. -/
def bytes (t : Task) : List UInt8 := t.read 0 20

end Task

/-- Where the server stands, with its variable `task`. -/
inductive ServerLoc where
  | read (task : Task)
  | write (task : Task) (rest : List UInt8)
  | exited

/-- Where a client stands.  `done` has the variable `task` after the `read`,
and the number of bytes that came. -/
inductive ClientLoc where
  | start
  | write (rest : List UInt8)
  | read
  | done (task : Task) (n : Nat)

/-- The two pipes, the server, and the clients by number. -/
structure State where
  p1 : List UInt8
  p2 : List UInt8
  server : ServerLoc
  client : Nat → ClientLoc

namespace State

/-- The client goes on at a location. -/
def goto (s : State) (i : Nat) (l : ClientLoc) : State :=
  { s with client := update s.client i l }

/-- A step of `server`.  `eof` is a `read` from a pipe that nobody can write
to any more. -/
def serverStep (s : State) (eof : Bool) : Option State :=
  match s.server with
  | .read task =>
    if s.p1 = [] then
      if eof then some { s with server := .exited } else none
    else
      let task := Task.solve (task.write 0 (s.p1.take 20))
      some { s with p1 := s.p1.drop 20, server := .write task (Task.bytes task) }
  | .write task rest =>
    let r := push s.p2 rest
    some { s with p2 := r.1, server := if r.2 = [] then .read task else .write task r.2 }
  | .exited => none

/-- A step of a client whose task is `task`.  A `write` to a server that is
gone fails, and a `read` from it ends. -/
def clientStep (s : State) (task : Nat → Task) (i : Nat) : Option State :=
  match s.client i with
  | .start => some (s.goto i (.write (Task.bytes (task i))))
  | .write rest =>
    match s.server with
    | .exited => some (s.goto i .read)
    | _ =>
      let r := push s.p1 rest
      some ({ s with p1 := r.1 }.goto i (if r.2 = [] then .read else .write r.2))
  | .read =>
    if s.p2 = [] then
      match s.server with
      | .exited => some (s.goto i (.done (task i) 0))
      | _ => none
    else
      let bytes := s.p2.take 20
      some ({ s with p2 := s.p2.drop 20 }.goto i (.done ((task i).write 0 bytes) bytes.length))
  | .done _ _ => none

end State

/-- The server or a client takes a step. -/
inductive Label where
  | server (eof : Bool)
  | client (i : Nat)

/-- The transition function, where client `i` sends `task i`. -/
def step (task : Nat → Task) (s : State) : Label → Option State
  | .server eof => s.serverStep eof
  | .client i => s.clientStep task i

/-- The pipes are empty and no client has sent anything. -/
structure Start (s : State) : Prop where
  p1 : s.p1 = []
  p2 : s.p2 = []
  server : ∃ task, s.server = .read task
  client : ∀ i, s.client i = .start

/-- The result and the error that a client has got. -/
def ClientLoc.answer : ClientLoc → Option (Int32 × Int32)
  | .done t n => if n = 20 then some (Task.result t, Task.error t) else none
  | _ => none

/-- The answer of client `i`, if it has got one, is its own. -/
def Own (task : Nat → Task) (i : Nat) (l : ClientLoc) : Prop :=
  ∀ result error, l.answer = some (result, error) →
    Answer (Task.x (task i)) (Task.y (task i)) (Task.op (task i)) result error

/-- Every client that got an answer got its own. -/
def OwnAnswers (task : Nat → Task) (s : State) : Prop := ∀ i, Own task i (s.client i)

/-! ## One client at a time -/

/-- The server is not at work on a task. -/
def ServerLoc.Waits : ServerLoc → Prop
  | .write _ _ => False
  | _ => True

/-- The client has not sent, or it has its answer. -/
def ClientLoc.Quiet : ClientLoc → Prop
  | .start => True
  | .done _ _ => True
  | _ => False

/-- No client but `i` has sent without having its answer. -/
def Alone (s : State) (i : Nat) : Prop := ∀ j ≠ i, (s.client j).Quiet

/-- The steps in which a client starts to send only when it is alone. -/
def StepAlone (task : Nat → Task) (s : State) (l : Label) (t : State) : Prop :=
  step task s l = some t ∧ ∀ i, l = .client i → s.client i = .start → Alone s i

/-! ## Tasks -/

theorem bytes_length (t : Task) : (Task.bytes t).length = 20 := by simp [Task.bytes]

theorem bytes_ne_nil (t : Task) : Task.bytes t ≠ [] := by
  intro hnil
  have hlen := bytes_length t
  rw [hnil] at hlen
  cases hlen

/-- A `write` of a task to an empty pipe takes one turn. -/
theorem push_bytes (t : Task) : push [] (Task.bytes t) = (Task.bytes t, []) :=
  push_of_le (by rw [bytes_length]; decide)

/-- A whole task overwrites the variable. -/
theorem write_bytes (t u : Task) : t.write 0 (Task.bytes u) = u := by
  refine Buf.ext_get fun i hi => ?_
  rw [Buf.get_write _ _ _ hi, if_pos ⟨Nat.zero_le i, by rw [bytes_length]; omega⟩]
  simp [Task.bytes, Buf.read, hi]

/-- The server's answer to a task. -/
theorem answer_solve (t : Task) :
    Answer (Task.x t) (Task.y t) (Task.op t) (Task.result (Task.solve t))
      (Task.error (Task.solve t)) := by
  have herror : Task.error (Task.solve t) =
      (calcOp (Task.x t) (Task.y t) (Task.op t) (Task.result t)).1 :=
    getInt_putInt_same _ _ (by decide)
  have hresult : Task.result (Task.solve t) =
      (calcOp (Task.x t) (Task.y t) (Task.op t) (Task.result t)).2 :=
    (getInt_putInt_of_disjoint _ _ (by decide)).trans (getInt_putInt_same _ _ (by decide))
  rw [herror, hresult]
  exact answer_calcOp _ _ _ _

/-! ## The turn of a client -/

/-- Client `i` is at `l`, nobody else waits, and the pipes hold `p1` and
`p2`. -/
structure Turn (s : State) (i : Nat) (l : ClientLoc) (p1 p2 : List UInt8) : Prop
    extends OnTurn ClientLoc.Quiet s.client i l where
  p1 : s.p1 = p1
  p2 : s.p2 = p2

/-- The states that occur when clients send alone. -/
inductive Phase (task : Nat → Task) (s : State) : Prop where
  | idle (server : s.server.Waits) (quiet : ∀ j, (s.client j).Quiet) (p1 : s.p1 = [])
      (p2 : s.p2 = [])
  | sending (i : Nat) (server : s.server.Waits)
      (turn : Turn s i (.write (Task.bytes (task i))) [] [])
  | sent (i : Nat) (t : Task) (server : s.server = .read t)
      (turn : Turn s i .read (Task.bytes (task i)) [])
  | serving (i : Nat)
      (server : s.server = .write (Task.solve (task i)) (Task.bytes (Task.solve (task i))))
      (turn : Turn s i .read [] [])
  | answered (i : Nat) (server : s.server.Waits)
      (turn : Turn s i .read [] (Task.bytes (Task.solve (task i))))
  | abandoned (i : Nat) (server : s.server = .exited) (turn : Turn s i .read [] [])

variable {task : Nat → Task} {s t : State} {i j : Nat} {l : ClientLoc} {p1 p2 : List UInt8}

/-- A quiet client does nothing, or starts and is alone. -/
theorem StepAlone.alone (hstep : StepAlone task s (.client j) t) (hj : (s.client j).Quiet) :
    Alone s j := by
  cases hl : s.client j with
  | start => exact hstep.2 j rfl hl
  | done u n =>
    have hnone := hstep.1
    rw [step, State.clientStep, hl] at hnone
    cases hnone
  | write | read =>
    rw [hl] at hj
    exact hj.elim

/-- A server that waits on an empty pipe can only find the end of it. -/
theorem server_exits {eof : Bool} (hserver : s.server.Waits) (hp1 : s.p1 = [])
    (hstep : step task s (.server eof) = some t) : t = { s with server := .exited } := by
  rw [step, State.serverStep] at hstep
  cases hl : s.server with
  | read u =>
    rw [hl] at hstep
    dsimp only at hstep
    rw [if_pos hp1] at hstep
    split at hstep
    · exact (Option.some.inj hstep).symm
    · cases hstep
  | write u rest =>
    rw [hl] at hserver
    exact hserver.elim
  | exited =>
    rw [hl] at hstep
    cases hstep

/-- A step of the server keeps the phases. -/
theorem Phase.serverStep {eof : Bool} (h : Phase task s)
    (hstep : step task s (.server eof) = some t) : Phase task t ∧ t.client = s.client := by
  cases h with
  | idle hserver hquiet hp1 hp2 =>
    obtain rfl := server_exits hserver hp1 hstep
    exact ⟨.idle trivial hquiet hp1 hp2, rfl⟩
  | sending i hserver turn =>
    obtain rfl := server_exits hserver turn.p1 hstep
    exact ⟨.sending i trivial ⟨turn.toOnTurn, turn.p1, turn.p2⟩, rfl⟩
  | sent i u hserver turn =>
    have hlen := bytes_length (task i)
    rw [step, State.serverStep, hserver] at hstep
    simp only [turn.p1, if_neg (bytes_ne_nil _), List.take_of_length_le hlen.le,
      List.drop_of_length_le hlen.le, write_bytes] at hstep
    cases hstep
    exact ⟨.serving i rfl ⟨turn.toOnTurn, rfl, turn.p2⟩, rfl⟩
  | serving i hserver turn =>
    rw [step, State.serverStep, hserver] at hstep
    simp only [turn.p2, push_bytes, if_true, Option.some.injEq] at hstep
    obtain rfl := hstep
    exact ⟨.answered i trivial ⟨turn.toOnTurn, turn.p1, rfl⟩, rfl⟩
  | answered i hserver turn =>
    obtain rfl := server_exits hserver turn.p1 hstep
    exact ⟨.answered i trivial ⟨turn.toOnTurn, turn.p1, turn.p2⟩, rfl⟩
  | abandoned i hserver turn =>
    rw [step, State.serverStep, hserver] at hstep
    cases hstep

/-- A step of a client keeps the phases, and if it ends the client then with
its own answer. -/
theorem Phase.clientStep (h : Phase task s) (hstep : StepAlone task s (.client j) t) :
    Phase task t ∧ Moved (Own task j) s.client t.client j := by
  have hnext := hstep.1
  rw [step, State.clientStep] at hnext
  cases h with
  | idle hserver hquiet hp1 hp2 =>
    have hj := hquiet j
    cases hl : s.client j with
    | start =>
      rw [hl] at hnext
      cases hnext
      exact ⟨.sending j hserver ⟨.of_quiet hquiet, hp1, hp2⟩, moved_update fun _ _ h => by cases h⟩
    | done u n =>
      rw [hl] at hnext
      cases hnext
    | write | read =>
      rw [hl] at hj
      exact hj.elim
  | sending i hserver turn =>
    obtain rfl := turn.client_eq id hstep.alone
    rw [turn.client] at hnext
    cases hl : s.server with
    | exited =>
      simp only [hl] at hnext
      cases hnext
      exact ⟨.abandoned j hl ⟨turn.toOnTurn.update, turn.p1, turn.p2⟩,
        moved_update fun _ _ h => by cases h⟩
    | read u =>
      simp only [hl, turn.p1, push_bytes, if_true, Option.some.injEq] at hnext
      obtain rfl := hnext
      exact ⟨.sent j u rfl ⟨turn.toOnTurn.update, rfl, turn.p2⟩,
        moved_update fun _ _ h => by cases h⟩
    | write u rest =>
      rw [hl] at hserver
      exact hserver.elim
  | sent i u hserver turn | serving i hserver turn =>
    obtain rfl := turn.client_eq id hstep.alone
    rw [turn.client] at hnext
    simp only [turn.p2, hserver, if_true] at hnext
    cases hnext
  | answered i hserver turn =>
    obtain rfl := turn.client_eq id hstep.alone
    have hlen := bytes_length (Task.solve (task j))
    rw [turn.client] at hnext
    simp only [turn.p2, if_neg (bytes_ne_nil _), List.take_of_length_le hlen.le,
      List.drop_of_length_le hlen.le, write_bytes] at hnext
    cases hnext
    refine ⟨.idle hserver (turn.quiet_update trivial) turn.p1 rfl, moved_update fun _ _ h => ?_⟩
    rw [ClientLoc.answer, if_pos hlen] at h
    cases h
    exact answer_solve (task j)
  | abandoned i hserver turn =>
    obtain rfl := turn.client_eq id hstep.alone
    rw [turn.client] at hnext
    simp only [turn.p2, hserver, if_true] at hnext
    cases hnext
    refine ⟨.idle (by rw [State.goto, hserver]; trivial) (turn.quiet_update trivial) turn.p1
      turn.p2, moved_update fun _ _ h => ?_⟩
    rw [ClientLoc.answer, if_neg (by decide)] at h
    cases h

/-! ## Runs -/

theorem Start.phase (h : Start s) : Phase task s := by
  obtain ⟨u, hu⟩ := h.server
  refine .idle (by rw [hu]; trivial) (fun j => ?_) h.p1 h.p2
  rw [h.client j]
  trivial

/-- Clients that send alone get their own answers. -/
theorem ownAnswers_of_alone {s0 : State} {ls : List Label} (hstart : Start s0)
    (hrun : Run (StepAlone task) s0 ls s) : OwnAnswers task s := by
  have h : Phase task s ∧ OwnAnswers task s := by
    refine hrun.inv (I := fun s => Phase task s ∧ OwnAnswers task s)
      ⟨hstart.phase, fun i _ _ hdone => ?_⟩ fun s l t hs hstep => ?_
    · rw [hstart.client] at hdone
      cases hdone
    cases l with
    | server eof =>
      obtain ⟨hphase, hclient⟩ := hs.1.serverStep hstep.1
      rw [OwnAnswers, hclient]
      exact ⟨hphase, hs.2⟩
    | client j =>
      obtain ⟨hphase, hmoved⟩ := hs.1.clientStep hstep
      exact ⟨hphase, hmoved.all hs.2⟩
  exact h.2

/-! ## Two clients -/

/-- The variable `task` of a client, in memory that was zero. -/
def Task.make (x y : Int32) (op : UInt8) : Task :=
  (putInt (putInt (fun _ => 0) 0 x) 4 y).write 8 [op]

/-- Nobody has started. -/
def boot : State := ⟨[], [], .read (fun _ => 0), fun _ => .start⟩

/-- Client 0 asks for `10 + 5` and all others for `20 * 4`. -/
def twoTasks (i : Nat) : Task :=
  if i = 0 then Task.make 10 5 '+'.toUInt8 else Task.make 20 4 '*'.toUInt8

/-- Both send before one of them reads, and the second one reads first. -/
def crossed : List Label :=
  [.client 0, .client 0, .client 1, .client 1, .server false, .server false, .client 1]

theorem boot_start : Start boot := ⟨rfl, rfl, ⟨_, rfl⟩, fun _ => rfl⟩

/-- The steps in which nobody starts. -/
def running (task : Nat → Task) (s : State) : Label → Option State
  | .server eof => s.serverStep eof
  | .client i =>
    match s.client i with
    | .start => none
    | _ => s.clientStep task i

theorem StepAlone.of_running {l : Label} (h : running task s l = some t) :
    StepAlone task s l t := by
  cases l with
  | server eof => exact ⟨h, fun _ heq => by cases heq⟩
  | client i =>
    rw [running] at h
    split at h
    · cases h
    rename_i hne
    refine ⟨h, fun j heq hstart => ?_⟩
    cases heq
    exact absurd hstart hne

/-- What happens until client `i`, which has started, has its answer. -/
def turn (i : Nat) : List Label := [.client i, .server false, .server false, .client i]

theorem run_turn (halone : Alone s i) (hstep : step task s (.client i) = some t)
    (hrun : (follow (running task) t (turn i)).isSome = true) :
    Run (StepAlone task) s (.client i :: turn i) (after (running task) t (turn i)) :=
  .cons ⟨hstep, fun _ heq _ => by cases heq; exact halone⟩
    ((Run.of_after hrun).mono fun _ _ _ => .of_running)

end Xv6.PipeIpc
