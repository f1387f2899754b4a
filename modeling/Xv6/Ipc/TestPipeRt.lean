import Xv6.Ipc.PipeIpc
import Xv6.PipeRt.Queue

/-!
# Answers of the priority pipe test

The server and the clients of `proj2/user/test_pipe_rt.c`.  The tasks go
through a priority pipe, so that the server may take them in another order
than they were sent, and each answer is two `write`s, which the client reads
with two `read`s.  As in `Xv6.Ipc.PipeIpc`, an answer does not say whose it
is, and a client that is alone gets its own.

`pipe_rt_write` and `pipe_rt_read` hold the lock of the pipe throughout, so
each is one transition.  The page of a task comes from `kalloc`, which the rest
of the kernel uses as well.
-/

namespace Xv6.TestPipeRt

open Function Ipc Lib List Option PipeRt

/-- `calc(task.x, task.y, task.op, &result)`. -/
def solve (t : Task) (result : Int32) : Int32 × Int32 :=
  calcOp (Int32.ofInt t.x) (Int32.ofInt t.y) t.op result

/-- The bytes of an `int`. -/
def intBytes (v : Int32) : List UInt8 := encodeLE 4 v.toUInt32.toNat

/-- Where the server stands, with its variables `result` and `error`. -/
inductive ServerLoc where
  | read (result : Int32)
  | writeResult (result error : Int32) (rest : List UInt8)
  | writeError (result : Int32) (rest : List UInt8)
  | exited

/-- Where a client stands.  `done` has its variables `result` and `error`, and
the number of bytes that came for each. -/
inductive ClientLoc where
  | start
  | readResult
  | readError (result : Buf 4) (n : Nat)
  | done (result : Buf 4) (n : Nat) (error : Buf 4) (n' : Nat)

/-- The free pages, the two pipes, the server, and the clients by number. -/
structure State where
  kmem : Kmem
  p1 : List PqNode
  p2 : List UInt8
  server : ServerLoc
  client : Nat → ClientLoc

namespace State

/-- The client goes on at a location. -/
def goto (s : State) (i : Nat) (l : ClientLoc) : State :=
  { s with client := update s.client i l }

/-- A step of `server`.  `eof` is a `read` from a pipe that nobody can write
to any more. -/
def serverStep (s : State) (eof : Bool) : Option State :=
  match s.server with
  | .read result =>
    if s.p1 = [] then
      if eof then some { s with server := .exited } else none
    else
      match pqRemove s.kmem s.p1 with
      | .error _ => none
      | .ok (task, k, p1) =>
        let r := solve task result
        some { s with kmem := k, p1 := p1, server := .writeResult r.2 r.1 (intBytes r.2) }
  | .writeResult result error rest =>
    let r := push s.p2 rest
    some { s with
      p2 := r.1
      server := if r.2 = [] then .writeError result (intBytes error)
        else .writeResult result error r.2 }
  | .writeError result rest =>
    let r := push s.p2 rest
    some { s with p2 := r.1, server := if r.2 = [] then .read result else .writeError result r.2 }
  | .exited => none

/-- A `read` of an `int` from the reply pipe into a variable: the variable, the
number of bytes and the rest; `none` where it waits. -/
def readInt (s : State) (v : Buf 4) : Option (Buf 4 × Nat × State) :=
  if s.p2 = [] then
    match s.server with
    | .exited => some (v, 0, s)
    | _ => none
  else
    some (v.write 0 (s.p2.take 4), (s.p2.take 4).length, { s with p2 := s.p2.drop 4 })

/-- A step of a client whose task is `task`.  `ok` says whether the `write`
finds the pipe open, and `junk` is what its variables hold at first. -/
def clientStep (s : State) (task : Nat → Task) (junk : Buf 4) (i : Nat) (ok : Bool) :
    Option State :=
  match s.client i with
  | .start =>
    if ok then
      let r := pqInsert s.kmem s.p1 (task i)
      some ({ s with kmem := r.1, p1 := r.2 }.goto i .readResult)
    else some (s.goto i .readResult)
  | .readResult => (s.readInt junk).map fun r => r.2.2.goto i (.readError r.1 r.2.1)
  | .readError result n => (s.readInt junk).map fun r => r.2.2.goto i (.done result n r.1 r.2.1)
  | .done _ _ _ _ => none

end State

/-- The server or a client takes a step, or the rest of the kernel uses the
allocator. -/
inductive Label where
  | server (eof : Bool)
  | client (i : Nat) (ok : Bool)
  | kernel (k : Kmem)

/-- The transition function, where client `i` sends `task i`. -/
def step (task : Nat → Task) (junk : Buf 4) (s : State) : Label → Option State
  | .server eof => s.serverStep eof
  | .client i ok => s.clientStep task junk i ok
  | .kernel k => some { s with kmem := k }

/-- The pipes are empty and no client has sent anything. -/
structure Start (s : State) : Prop where
  p1 : s.p1 = []
  p2 : s.p2 = []
  server : ∃ result, s.server = .read result
  client : ∀ i, s.client i = .start

/-- The result and the error that a client has got. -/
def ClientLoc.answer : ClientLoc → Option (Int32 × Int32)
  | .done v n v' n' => if n = 4 ∧ n' = 4 then some (getInt v 0, getInt v' 0) else none
  | _ => none

/-- The two variables of the server after `calc` on the task of `i`. -/
def Solved (task : Nat → Task) (i : Nat) (result error : Int32) : Prop :=
  Answer (Int32.ofInt (task i).x) (Int32.ofInt (task i).y) (task i).op result error

/-- The answer of client `i`, if it has got one, is its own. -/
def Own (task : Nat → Task) (i : Nat) (l : ClientLoc) : Prop :=
  ∀ result error, l.answer = some (result, error) → Solved task i result error

/-- Every client that got an answer got its own. -/
def OwnAnswers (task : Nat → Task) (s : State) : Prop := ∀ i, Own task i (s.client i)

/-! ## One client at a time -/

/-- The server is not at work on a task. -/
def ServerLoc.Waits : ServerLoc → Prop
  | .read _ => True
  | .exited => True
  | _ => False

/-- The client has not sent, or it has its answer. -/
def ClientLoc.Quiet : ClientLoc → Prop
  | .start => True
  | .done _ _ _ _ => True
  | _ => False

/-- No task is on the way, and no client but `i` has sent without having its
answer. -/
structure Alone (s : State) (i : Nat) : Prop where
  p1 : s.p1 = []
  others : ∀ j ≠ i, (s.client j).Quiet

/-- The steps in which a client starts to send only when it is alone. -/
def StepAlone (task : Nat → Task) (junk : Buf 4) (s : State) (l : Label) (t : State) : Prop :=
  step task junk s l = some t ∧ ∀ i ok, l = .client i ok → s.client i = .start → Alone s i

/-! ## The turn of a client -/

/-- Client `i` is at `l`, nobody else waits, and the pipes hold the tasks `p1`,
as long as there is a server, and the bytes `p2`. -/
structure Turn (s : State) (i : Nat) (l : ClientLoc) (p1 : List Task) (p2 : List UInt8) :
    Prop extends OnTurn ClientLoc.Quiet s.client i l where
  p1 : s.server = .exited ∨ tasks s.p1 = p1
  p2 : s.p2 = p2

/-- The states that occur when clients send alone. -/
inductive Phase (task : Nat → Task) (s : State) : Prop where
  | idle (server : s.server.Waits) (quiet : ∀ j, (s.client j).Quiet)
      (p1 : s.server = .exited ∨ tasks s.p1 = []) (p2 : s.p2 = [])
  | sent (i : Nat) (result : Int32) (server : s.server = .read result)
      (turn : Turn s i .readResult [task i] [])
  | lost (i : Nat) (server : s.server.Waits) (turn : Turn s i .readResult [] [])
  | serving (i : Nat) (result error : Int32) (solved : Solved task i result error)
      (server : s.server = .writeResult result error (intBytes result))
      (turn : Turn s i .readResult [] [])
  | result (i : Nat) (result error : Int32) (solved : Solved task i result error)
      (server : s.server = .writeError result (intBytes error))
      (turn : Turn s i .readResult [] (intBytes result))
  | both (i : Nat) (result error : Int32) (solved : Solved task i result error)
      (server : s.server.Waits)
      (turn : Turn s i .readResult [] (intBytes result ++ intBytes error))
  | taken (i : Nat) (result error : Int32) (v : Buf 4) (hv : getInt v 0 = result)
      (solved : Solved task i result error)
      (server : s.server = .writeError result (intBytes error))
      (turn : Turn s i (.readError v 4) [] [])
  | error (i : Nat) (result error : Int32) (v : Buf 4) (hv : getInt v 0 = result)
      (solved : Solved task i result error) (server : s.server.Waits)
      (turn : Turn s i (.readError v 4) [] (intBytes error))
  | abandoned (i : Nat) (v : Buf 4) (server : s.server = .exited)
      (turn : Turn s i (.readError v 0) [] [])

variable {task : Nat → Task} {junk : Buf 4} {s t : State} {i j : Nat} {l : ClientLoc}
  {p1 : List Task} {p2 : List UInt8}

theorem intBytes_length (v : Int32) : (intBytes v).length = 4 := encodeLE_length _ _

theorem getInt_write_intBytes (b : Buf 4) (v : Int32) : getInt (b.write 0 (intBytes v)) 0 = v :=
  getInt_putInt_same b v (Nat.le_refl 4)

/-- The allocator is not part of the turn. -/
theorem Turn.kernel (h : Turn s i l p1 p2) (k : Kmem) : Turn { s with kmem := k } i l p1 p2 :=
  ⟨h.toOnTurn, h.p1, h.p2⟩

/-- The server is gone. -/
theorem Turn.exit (h : Turn s i l p1 p2) : Turn { s with server := .exited } i l p1 p2 :=
  ⟨h.toOnTurn, .inl rfl, h.p2⟩

variable {ok : Bool}

/-- A quiet client does nothing, or starts and is alone. -/
theorem StepAlone.quiet (hstep : StepAlone task junk s (.client j ok) t)
    (hj : (s.client j).Quiet) : ∀ k ≠ j, (s.client k).Quiet := by
  cases hl : s.client j with
  | start => exact (hstep.2 j ok rfl hl).others
  | done v n v' n' =>
    have hnone := hstep.1
    rw [step, State.clientStep, hl] at hnone
    cases hnone
  | readResult | readError =>
    rw [hl] at hj
    exact hj.elim

/-! ## The steps of the server -/

variable {eof : Bool}

/-- A server that waits on an empty pipe can only find the end of it. -/
theorem server_exits (hserver : s.server.Waits) (hp1 : s.server = .exited ∨ tasks s.p1 = [])
    (hstep : step task junk s (.server eof) = some t) : t = { s with server := .exited } := by
  rw [step, State.serverStep] at hstep
  cases hl : s.server with
  | read result =>
    have hnil : s.p1 = [] := by
      rcases hp1 with hexit | hnil
      · rw [hl] at hexit
        cases hexit
      · exact map_eq_nil_iff.1 hnil
    rw [hl] at hstep
    dsimp only at hstep
    rw [if_pos hnil] at hstep
    split at hstep
    · exact (some.inj hstep).symm
    · cases hstep
  | exited =>
    rw [hl] at hstep
    cases hstep
  | writeResult | writeError =>
    rw [hl] at hserver
    exact hserver.elim

/-- The server takes the only task. -/
theorem Turn.serve {result : Int32} (h : Turn s i .readResult [task i] [])
    (hserver : s.server = .read result) (hstep : step task junk s (.server eof) = some t) :
    Phase task t ∧ t.client = s.client := by
  have hp1 : tasks s.p1 = [task i] := h.p1.resolve_left fun hexit => by
    rw [hserver] at hexit
    cases hexit
  obtain ⟨n, hn, htask⟩ := map_eq_singleton_iff.1 hp1
  rw [step, State.serverStep, hserver, hn] at hstep
  dsimp only at hstep
  rw [if_neg (cons_ne_nil _ _), pqRemove] at hstep
  cases hk : kfree s.kmem n.page with
  | error e =>
    rw [hk] at hstep
    cases hstep
  | ok k =>
    rw [hk] at hstep
    cases hstep
    rw [htask]
    exact ⟨.serving i _ _ (answer_calcOp _ _ _ _) rfl ⟨h.toOnTurn, .inr rfl, h.p2⟩, rfl⟩

theorem Phase.serverStep (h : Phase task s)
    (hstep : step task junk s (.server eof) = some t) : Phase task t ∧ t.client = s.client := by
  have hfits : ∀ v : Int32, push [] (intBytes v) = (intBytes v, []) := fun v =>
    push_of_le (by rw [intBytes_length]; decide)
  cases h with
  | idle hserver hquiet hp1 hp2 =>
    obtain rfl := server_exits hserver hp1 hstep
    exact ⟨.idle trivial hquiet (.inl rfl) hp2, rfl⟩
  | sent i result hserver turn => exact turn.serve hserver hstep
  | lost i hserver turn =>
    obtain rfl := server_exits hserver turn.p1 hstep
    exact ⟨.lost i trivial turn.exit, rfl⟩
  | serving i result error hsolved hserver turn =>
    have hp1 := turn.p1
    rw [step, State.serverStep, hserver] at hstep
    simp only [turn.p2, hfits, if_true] at hstep
    cases hstep
    rw [hserver] at hp1
    exact ⟨.result i result error hsolved rfl
      ⟨turn.toOnTurn, .inr (hp1.resolve_left nofun), rfl⟩, rfl⟩
  | result i result error hsolved hserver turn =>
    have hp1 := turn.p1
    have hboth : push (intBytes result) (intBytes error) =
        (intBytes result ++ intBytes error, []) :=
      push_of_le (by rw [intBytes_length, intBytes_length]; decide)
    rw [step, State.serverStep, hserver] at hstep
    simp only [turn.p2, hboth, if_true] at hstep
    cases hstep
    rw [hserver] at hp1
    exact ⟨.both i result error hsolved trivial
      ⟨turn.toOnTurn, .inr (hp1.resolve_left nofun), rfl⟩, rfl⟩
  | both i result error hsolved hserver turn =>
    obtain rfl := server_exits hserver turn.p1 hstep
    exact ⟨.both i result error hsolved trivial turn.exit, rfl⟩
  | taken i result error v hv hsolved hserver turn =>
    have hp1 := turn.p1
    rw [step, State.serverStep, hserver] at hstep
    simp only [turn.p2, hfits, if_true] at hstep
    cases hstep
    rw [hserver] at hp1
    exact ⟨.error i result error v hv hsolved trivial
      ⟨turn.toOnTurn, .inr (hp1.resolve_left nofun), rfl⟩, rfl⟩
  | error i result error v hv hsolved hserver turn =>
    obtain rfl := server_exits hserver turn.p1 hstep
    exact ⟨.error i result error v hv hsolved trivial turn.exit, rfl⟩
  | abandoned i v hserver turn =>
    rw [step, State.serverStep, hserver] at hstep
    cases hstep

theorem Phase.kernel (h : Phase task s) (k : Kmem) : Phase task { s with kmem := k } := by
  cases h with
  | idle hserver hquiet hp1 hp2 => exact .idle hserver hquiet hp1 hp2
  | sent i result hserver turn => exact .sent i result hserver (turn.kernel k)
  | lost i hserver turn => exact .lost i hserver (turn.kernel k)
  | serving i r e hsolved hserver turn => exact .serving i r e hsolved hserver (turn.kernel k)
  | result i r e hsolved hserver turn => exact .result i r e hsolved hserver (turn.kernel k)
  | both i r e hsolved hserver turn => exact .both i r e hsolved hserver (turn.kernel k)
  | taken i r e v hv hsolved hserver turn => exact .taken i r e v hv hsolved hserver (turn.kernel k)
  | error i r e v hv hsolved hserver turn => exact .error i r e v hv hsolved hserver (turn.kernel k)
  | abandoned i v hserver turn => exact .abandoned i v hserver (turn.kernel k)

/-! ## The steps of a client -/

/-- A client that starts has its task in the queue, or has lost it. -/
theorem phase_of_send (hserver : s.server.Waits) (hquiet : ∀ j, (s.client j).Quiet)
    (hp2 : s.p2 = []) (hp1 : s.p1 = []) (hl : s.client j = .start)
    (hnext : s.clientStep task junk j ok = some t) :
    Phase task t ∧ t.client = update s.client j .readResult := by
  rw [State.clientStep, hl] at hnext
  cases ok with
  | false =>
    cases hnext
    exact ⟨.lost j hserver ⟨.of_quiet hquiet, .inr (congrArg tasks hp1), hp2⟩, rfl⟩
  | true =>
    cases hnext
    refine ⟨?_, rfl⟩
    rw [hp1, pqInsert]
    cases hk : kalloc s.kmem with
    | none => exact .lost j hserver ⟨.of_quiet hquiet, .inr rfl, hp2⟩
    | some r =>
      cases hs : s.server with
      | read result => exact .sent j result rfl ⟨.of_quiet hquiet, .inr rfl, hp2⟩
      | exited => exact .lost j trivial ⟨.of_quiet hquiet, .inl rfl, hp2⟩
      | writeResult | writeError =>
        rw [hs] at hserver
        exact hserver.elim

/-- A `read` of an `int` that is in the pipe. -/
theorem readInt_intBytes {v : Int32} {rest : List UInt8} (hp2 : s.p2 = intBytes v ++ rest) :
    s.readInt junk = some (junk.write 0 (intBytes v), 4, { s with p2 := rest }) := by
  have hlen := intBytes_length v
  have hne : intBytes v ++ rest ≠ [] := by
    intro hnil
    have := congrArg length hnil
    rw [length_append, hlen] at this
    simp at this
  have htake : (intBytes v ++ rest).take 4 = intBytes v := by
    rw [take_append_of_le_length hlen.ge, take_of_length_le hlen.le]
  have hdrop : (intBytes v ++ rest).drop 4 = rest := by rw [← hlen, drop_left]
  rw [State.readInt, hp2, if_neg hne, htake, hdrop, hlen]

/-- A `read` from an empty pipe waits, or finds that the server is gone. -/
theorem readInt_nil (hp2 : s.p2 = []) {r : Buf 4 × Nat × State} (h : s.readInt junk = some r) :
    r = (junk, 0, s) ∧ s.server = .exited := by
  rw [State.readInt, if_pos hp2] at h
  split at h
  · rename_i hs
    exact ⟨(some.inj h).symm, hs⟩
  · cases h

theorem Phase.clientStep (h : Phase task s)
    (hstep : StepAlone task junk s (.client j ok) t) :
    Phase task t ∧ Moved (Own task j) s.client t.client j := by
  have hnext : s.clientStep task junk j ok = some t := hstep.1
  cases h with
  | idle hserver hquiet hp1 hp2 =>
    have hj := hquiet j
    cases hl : s.client j with
    | start =>
      have halone := hstep.2 j ok rfl hl
      obtain ⟨hphase, hclient⟩ := phase_of_send hserver hquiet hp2 halone.p1 hl hnext
      rw [hclient]
      exact ⟨hphase, moved_update fun _ _ h => by cases h⟩
    | done v n v' n' =>
      rw [State.clientStep, hl] at hnext
      cases hnext
    | readResult | readError =>
      rw [hl] at hj
      exact hj.elim
  | sent i result hserver turn | serving i result error hsolved hserver turn
  | taken i result error v hv hsolved hserver turn =>
    obtain rfl := turn.client_eq id hstep.quiet
    rw [State.clientStep, turn.client] at hnext
    obtain ⟨r, hr, -⟩ := map_eq_some_iff.1 hnext
    exact absurd (readInt_nil turn.p2 hr).2 (by rw [hserver]; nofun)
  | lost i hserver turn =>
    obtain rfl := turn.client_eq id hstep.quiet
    rw [State.clientStep, turn.client] at hnext
    obtain ⟨r, hr, rfl⟩ := map_eq_some_iff.1 hnext
    obtain ⟨rfl, hexit⟩ := readInt_nil turn.p2 hr
    exact ⟨.abandoned j junk hexit ⟨turn.toOnTurn.update, turn.p1, turn.p2⟩,
      moved_update fun _ _ h => by cases h⟩
  | result i result error hsolved hserver turn =>
    obtain rfl := turn.client_eq id hstep.quiet
    rw [State.clientStep, turn.client,
      readInt_intBytes (turn.p2.trans (append_nil _).symm)] at hnext
    cases hnext
    exact ⟨.taken j result error _ (getInt_write_intBytes junk result) hsolved hserver
      ⟨turn.toOnTurn.update, turn.p1, rfl⟩, moved_update fun _ _ h => by cases h⟩
  | both i result error hsolved hserver turn =>
    obtain rfl := turn.client_eq id hstep.quiet
    rw [State.clientStep, turn.client, readInt_intBytes turn.p2] at hnext
    cases hnext
    exact ⟨.error j result error _ (getInt_write_intBytes junk result) hsolved hserver
      ⟨turn.toOnTurn.update, turn.p1, rfl⟩, moved_update fun _ _ h => by cases h⟩
  | error i result error v hv hsolved hserver turn =>
    obtain rfl := turn.client_eq id hstep.quiet
    rw [State.clientStep, turn.client,
      readInt_intBytes (turn.p2.trans (append_nil _).symm)] at hnext
    cases hnext
    refine ⟨.idle hserver (turn.quiet_update trivial) turn.p1 rfl, moved_update fun _ _ h => ?_⟩
    rw [ClientLoc.answer, if_pos ⟨rfl, rfl⟩, hv, getInt_write_intBytes] at h
    cases h
    exact hsolved
  | abandoned i v hserver turn =>
    obtain rfl := turn.client_eq id hstep.quiet
    rw [State.clientStep, turn.client] at hnext
    obtain ⟨r, hr, rfl⟩ := map_eq_some_iff.1 hnext
    obtain ⟨rfl, hexit⟩ := readInt_nil turn.p2 hr
    refine ⟨.idle (by rw [State.goto, hserver]; trivial) (turn.quiet_update trivial) turn.p1
      turn.p2, moved_update fun _ _ h => ?_⟩
    rw [ClientLoc.answer, if_neg fun h => absurd h.1 (by decide)] at h
    cases h

/-! ## Runs -/

theorem Start.phase (h : Start s) : Phase task s := by
  obtain ⟨result, hs⟩ := h.server
  refine .idle (by rw [hs]; trivial) (fun j => ?_) (.inr (congrArg tasks h.p1)) h.p2
  rw [h.client j]
  trivial

/-- Clients that send alone get their own answers. -/
theorem ownAnswers_of_alone {s0 : State} {ls : List Label} (hstart : Start s0)
    (hrun : Run (StepAlone task junk) s0 ls s) : OwnAnswers task s := by
  have h : Phase task s ∧ OwnAnswers task s := by
    refine hrun.inv (I := fun s => Phase task s ∧ OwnAnswers task s)
      ⟨hstart.phase, fun i _ _ hdone => ?_⟩ fun s l t hs hstep => ?_
    · rw [hstart.client] at hdone
      cases hdone
    cases l with
    | server eof =>
      obtain ⟨hphase, hclient⟩ := hs.1.serverStep hstep.1
      rw [OwnAnswers, hclient]
      exact ⟨hphase, hs.2⟩
    | client j ok =>
      obtain ⟨hphase, hmoved⟩ := hs.1.clientStep hstep
      exact ⟨hphase, hmoved.all hs.2⟩
    | kernel k =>
      obtain rfl := some.inj hstep.1
      exact ⟨hs.1.kernel k, hs.2⟩
  exact h.2

/-- Nobody has started, and there are two free pages. -/
def boot : State :=
  ⟨{ kernelEnd := 0, freelist := [4096, 8192] }, [], [], .read 0, fun _ => .start⟩

/-- Client 0 asks for `10 + 5` with priority 1, and all others for `20 * 4` with
priority 3. -/
def twoTasks (i : Nat) : Task :=
  if i = 0 then ⟨1, 0, 10, 5, '+'.toUInt8, 0, 0⟩ else ⟨3, 0, 20, 4, '*'.toUInt8, 0, 0⟩

theorem boot_start : Start boot := ⟨rfl, rfl, ⟨_, rfl⟩, fun _ => rfl⟩

/-- The steps in which nobody starts. -/
def running (task : Nat → Task) (junk : Buf 4) (s : State) : Label → Option State
  | .client i ok =>
    match s.client i with
    | .start => none
    | _ => s.clientStep task junk i ok
  | l => step task junk s l

theorem StepAlone.of_running {l : Label} (h : running task junk s l = some t) :
    StepAlone task junk s l t := by
  cases l with
  | server | kernel => exact ⟨h, fun _ _ heq => by cases heq⟩
  | client i ok =>
    rw [running] at h
    split at h
    · cases h
    rename_i hne
    refine ⟨h, fun j ok heq hstart => ?_⟩
    cases heq
    exact absurd hstart hne

/-- What happens until client `i`, which has started, has its answer. -/
def turn (i : Nat) : List Label :=
  [.server false, .server false, .server false, .client i true, .client i true]

theorem run_turn (halone : Alone s i) (hstep : step task junk s (.client i true) = some t)
    (hrun : (follow (running task junk) t (turn i)).isSome = true) :
    Run (StepAlone task junk) s (.client i true :: turn i) (after (running task junk) t (turn i)) :=
  .cons ⟨hstep, fun _ _ heq _ => by cases heq; exact halone⟩
    ((Run.of_after hrun).mono fun _ _ _ => .of_running)

/-- In both programs, in every run in which a client starts to send only when no
other client waits for an answer (and, in `test_pipe_rt`, no task is on the
way), every client that gets an answer gets the one to its own task. -/
theorem ownAnswers_one_at_a_time (task₁ : Nat → PipeIpc.Task) (task₂ : Nat → Task) (junk : Buf 4) :
    (∀ (s₀ s : PipeIpc.State) (ls : List PipeIpc.Label),
      PipeIpc.Start s₀ → Run (PipeIpc.StepAlone task₁) s₀ ls s → PipeIpc.OwnAnswers task₁ s) ∧
    ∀ (s₀ s : State) (ls : List Label),
      Start s₀ → Run (StepAlone task₂ junk) s₀ ls s → OwnAnswers task₂ s :=
  ⟨fun _ _ _ => PipeIpc.ownAnswers_of_alone, fun _ _ _ => ownAnswers_of_alone⟩

/-- In both programs client 0 gets `10 + 5`, and then client 1 gets `20 * 4`. -/
theorem ownAnswers_one_at_a_time_turns :
    (∃ s, Run (PipeIpc.StepAlone PipeIpc.twoTasks) PipeIpc.boot
        (.client 0 :: PipeIpc.turn 0 ++ .client 1 :: PipeIpc.turn 1) s ∧
      (s.client 0).answer = some (15, 0) ∧ (s.client 1).answer = some (80, 0) ∧
      PipeIpc.OwnAnswers PipeIpc.twoTasks s) ∧
    ∃ s, Run (StepAlone twoTasks fun _ => 0) boot
        (.client 0 true :: turn 0 ++ .client 1 true :: turn 1) s ∧
      (s.client 0).answer = some (15, 0) ∧ (s.client 1).answer = some (80, 0) ∧
      OwnAnswers twoTasks s := by
  have hlaw := ownAnswers_one_at_a_time PipeIpc.twoTasks twoTasks fun _ => 0
  have h₁ : Run (PipeIpc.StepAlone PipeIpc.twoTasks) PipeIpc.boot _ _ :=
    (PipeIpc.run_turn (s := PipeIpc.boot) (i := 0) (fun _ _ => trivial) rfl
      (by decide +kernel)).append
      (PipeIpc.run_turn (i := 1) (fun j _ => by cases j <;> trivial)
        (step_after (by decide +kernel)) (by decide +kernel))
  have h₂ : Run (StepAlone twoTasks fun _ => 0) boot _ _ :=
    (run_turn (s := boot) (i := 0) ⟨rfl, fun _ _ => trivial⟩ rfl (by decide +kernel)).append
      (run_turn (i := 1) ⟨rfl, fun j _ => by cases j <;> trivial⟩ (step_after (by decide +kernel))
        (by decide +kernel))
  exact ⟨⟨_, h₁, by decide +kernel, by decide +kernel, hlaw.1 _ _ _ PipeIpc.boot_start h₁⟩,
    ⟨_, h₂, by decide +kernel, by decide +kernel, hlaw.2 _ _ _ boot_start h₂⟩⟩

/-! ## Two clients -/

/-- Both send, the server answers the urgent task first, and client 0 reads. -/
def crossed : List Label :=
  [.client 0 true, .client 1 true, .server false, .server false, .server false,
    .client 0 true, .client 0 true]

/-- In both programs two clients that have both sent can get each other's
answers. -/
theorem answers_swapped :
    (∃ s, Run (fun s l t => PipeIpc.step PipeIpc.twoTasks s l = some t) PipeIpc.boot
        PipeIpc.crossed s ∧ PipeIpc.Start PipeIpc.boot ∧
      (s.client 1).answer = some (15, 0) ∧ ¬ PipeIpc.OwnAnswers PipeIpc.twoTasks s) ∧
    ∃ s, Run (fun s l t => step twoTasks (fun _ => 0) s l = some t) boot crossed s ∧
      Start boot ∧ (s.client 0).answer = some (80, 0) ∧ ¬ OwnAnswers twoTasks s := by
  have h₁ : ((after (PipeIpc.step PipeIpc.twoTasks) PipeIpc.boot PipeIpc.crossed).client 1).answer =
      some (15, 0) := by decide +kernel
  have h₂ : ((after (step twoTasks fun _ => 0) boot crossed).client 0).answer = some (80, 0) := by
    decide +kernel
  refine ⟨⟨_, Run.of_after (by decide +kernel), PipeIpc.boot_start, h₁,
    fun h => absurd (h 1 _ _ h₁) (by decide +kernel)⟩, ⟨_, Run.of_after (by decide +kernel),
    boot_start, h₂, fun h => absurd (h 0 _ _ h₂) (by rw [Solved]; decide +kernel)⟩⟩

end Xv6.TestPipeRt
