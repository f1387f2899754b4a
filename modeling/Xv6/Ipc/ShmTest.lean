import Xv6.Ipc.Basic

/-!
# Answers through shared memory

The server and the clients of `proj4/user/shmtest.c`.  The clients send their
tasks through one pipe, and the server stores each answer in a slot of a
shared page, which the client polls.  One transition is one load or store of a
field of the page, one message sent or received, or a `shmget`.

The `ready` flag of a slot is the only synchronisation.  Three parties store
to it: the server clears all flags before its first `read`, the client clears
its own before it sends, and the server sets it after it has stored the
answer.  The invariant follows one task: as long as it is in the pipe or with
the server (`inFlight`) the flag is 0, and once it is not the answer is in the
slot and nobody stores to the slot any more.
-/

namespace Xv6.ShmTest

open Function Ipc Lib List Option

/-- `task_t`. -/
structure Task where
  x : Int32
  y : Int32
  op : UInt8
  priority : Int32
  clientId : Int32
  deriving DecidableEq, Repr

/-- `result_t`. -/
structure Result where
  value : Int32
  error : Int32
  ready : Int32
  deriving DecidableEq, Repr

/-- The arguments of `client`. -/
structure Args where
  x : Int32
  y : Int32
  op : UInt8
  deriving DecidableEq, Repr

/-- `client_id % 10`. -/
def slotOf (clientId : Int32) : Nat := (clientId % 10).toInt.toNat

/-- Where the server stands. -/
inductive ServerLoc where
  | shmget
  /-- the loop that clears the flags -/
  | clear (i : Nat)
  | read
  | storeValue (task : Task) (result error : Int32)
  | storeError (task : Task) (error : Int32)
  | storeReady (task : Task)
  | exited
  deriving DecidableEq, Repr

/-- Where a client stands.  `done` is a client that has left its polling loop
and read its answer. -/
inductive ClientLoc where
  | shmget
  | clear
  | send
  | poll
  | loadValue
  | loadError (value : Int32)
  | done (value error : Int32)
  | exited
  deriving DecidableEq, Repr

/-- The results in the shared page, the pipe, and where the parties stand.  A
client is named by its `client_id`. -/
structure State where
  page : Nat → Result
  pipe : List Task
  server : ServerLoc
  client : Fin 10 → ClientLoc

/-- The task of a client. -/
def request (args : Fin 10 → Args) (i : Fin 10) : Task where
  x := (args i).x
  y := (args i).y
  op := (args i).op
  priority := Int32.ofNat i
  clientId := Int32.ofNat i

namespace State

/-- Change one slot of the page. -/
def setPage (s : State) (slot : Nat) (r : Result) : State :=
  { s with page := update s.page slot r }

/-- The client goes on at a location. -/
def goto (s : State) (i : Fin 10) (l : ClientLoc) : State :=
  { s with client := update s.client i l }

/-- A step of `server`.  `ok` is the choice of a call that can fail. -/
def serverStep (s : State) (ok : Bool) : Option State :=
  match s.server with
  | .shmget => some { s with server := if ok then .clear 0 else .exited }
  | .clear i =>
    if i < 10 then
      some { s.setPage i { s.page i with ready := 0 } with server := .clear (i + 1) }
    else
      some { s with server := .read }
  | .read =>
    if ok then
      match s.pipe with
      | [] => none
      | task :: pipe =>
        let r := calcOp task.x task.y task.op 0
        some { s with pipe := pipe, server := .storeValue task r.2 r.1 }
    else
      -- the pipe is empty and closed, or the server is killed
      some { s with server := .exited }
  | .storeValue task result error =>
    let slot := slotOf task.clientId
    some { s.setPage slot { s.page slot with value := result } with
      server := .storeError task error }
  | .storeError task error =>
    let slot := slotOf task.clientId
    some { s.setPage slot { s.page slot with error := error } with server := .storeReady task }
  | .storeReady task =>
    let slot := slotOf task.clientId
    some { s.setPage slot { s.page slot with ready := 1 } with server := .read }
  | .exited => none

/-- A step of the `client` with number `i`. -/
def clientStep (args : Fin 10 → Args) (s : State) (i : Fin 10) (ok : Bool) : Option State :=
  let slot := slotOf (Int32.ofNat i)
  match s.client i with
  | .shmget => some (s.goto i (if ok then .clear else .exited))
  | .clear => some ((s.setPage slot { s.page slot with ready := 0 }).goto i .send)
  | .send =>
    if ok then some ({ s with pipe := s.pipe ++ [request args i] }.goto i .poll)
    else some (s.goto i .exited)
  | .poll => some (if (s.page slot).ready = 0 then s else s.goto i .loadValue)
  | .loadValue => some (s.goto i (.loadError (s.page slot).value))
  | .loadError value => some (s.goto i (.done value (s.page slot).error))
  | .done _ _ => some (s.goto i .exited)
  | .exited => none

end State

/-- The server or a client takes a step. -/
inductive Label where
  | server (ok : Bool)
  | client (i : Fin 10) (ok : Bool)

/-- The transition function. -/
def step (args : Fin 10 → Args) (s : State) : Label → Option State
  | .server ok => s.serverStep ok
  | .client i ok => s.clientStep args i ok

/-- Nothing has been sent; each client is about to start, or there is none
with this number.  The page may hold anything. -/
structure Start (s : State) : Prop where
  pipe : s.pipe = []
  server : s.server = .shmget
  client : ∀ i, s.client i = .shmget ∨ s.client i = .exited

/-! ## The invariant -/

/-- The task that the server works on. -/
def ServerLoc.task : ServerLoc → List Task
  | .storeValue task _ _ => [task]
  | .storeError task _ => [task]
  | .storeReady task => [task]
  | _ => []

/-- The server still clears the flags. -/
def ServerLoc.Clearing : ServerLoc → Prop
  | .shmget => True
  | .clear _ => True
  | _ => False

/-- The tasks that are not answered yet. -/
def State.inFlight (s : State) : List Task := s.server.task ++ s.pipe

/-- The answer to a task is in a result. -/
def Answers (t : Task) (value error : Int32) : Prop :=
  calcOp t.x t.y t.op 0 = (error, value)

/-- What is known of a client at a location. -/
def Client (args : Fin 10 → Args) (s : State) (i : Fin 10) : ClientLoc → Prop
  | .send => (s.page i).ready = 0
  | .poll =>
    if request args i ∈ s.inFlight then (s.page i).ready = 0
    else Answers (request args i) (s.page i).value (s.page i).error ∧ ¬ s.server.Clearing
  | .loadValue => Answers (request args i) (s.page i).value (s.page i).error ∧ ¬ s.server.Clearing
  | .loadError value => Answers (request args i) value (s.page i).error ∧ ¬ s.server.Clearing
  | .done value error => Answers (request args i) value error
  | _ => True

/-- The values with which the server is about to go on are right, and those
that it has stored are in the slot. -/
def Storing (s : State) : ServerLoc → Prop
  | .storeValue task result error => Answers task result error
  | .storeError task error => Answers task (s.page (slotOf task.clientId)).value error
  | .storeReady task => Answers task (s.page (slotOf task.clientId)).value
      (s.page (slotOf task.clientId)).error
  | _ => True

/-- The invariant: every task in flight is that of a client that polls, and no
task is there twice. -/
structure Inv (args : Fin 10 → Args) (s : State) : Prop where
  sent : ∀ t ∈ s.inFlight, ∃ i, t = request args i ∧ s.client i = .poll
  nodup : s.inFlight.Nodup
  storing : Storing s s.server
  client : ∀ i, Client args s i (s.client i)

variable {args : Fin 10 → Args} {s t : State} {i j : Fin 10}

theorem slotOf_client (i : Fin 10) : slotOf (Int32.ofNat i) = i := by
  revert i
  decide

theorem request_injective (h : request args i = request args j) : i = j := by
  have hid : Int32.ofNat i = Int32.ofNat j := congrArg Task.clientId h
  have hslot := congrArg slotOf hid
  rw [slotOf_client, slotOf_client] at hslot
  exact Fin.ext hslot

/-! ## What a step leaves alone -/

variable {l : ClientLoc}

/-- What is known of a client depends on its own slot and task only, and on
whether the flags may still be cleared. -/
theorem Client.congr (h : Client args s i l) (hpage : t.page i = s.page i)
    (hflight : request args i ∈ t.inFlight ↔ request args i ∈ s.inFlight)
    (hclear : t.server.Clearing → s.server.Clearing) : Client args t i l := by
  cases l with
  | send =>
    show (t.page i).ready = 0
    rwa [hpage]
  | poll =>
    rw [Client] at h ⊢
    rw [hpage]
    by_cases hin : request args i ∈ s.inFlight
    · rw [if_pos hin] at h
      rwa [if_pos (hflight.2 hin)]
    rw [if_neg hin] at h
    rw [if_neg fun hin' => hin (hflight.1 hin')]
    exact ⟨h.1, fun hc => h.2 (hclear hc)⟩
  | loadValue | loadError =>
    rw [Client, hpage]
    exact ⟨h.1, fun hc => h.2 (hclear hc)⟩
  | _ => exact h

variable {r : Result}

theorem page_setPage_of_ne {slot k : Nat} (h : k ≠ slot) :
    (s.setPage slot r).page k = s.page k := update_of_ne h _ _

theorem page_setPage_self {slot : Nat} : (s.setPage slot r).page slot = r :=
  update_self _ _ _

section

variable (h : Inv args s)

include h

/-- A client whose task is not in flight goes on. -/
theorem Inv.goto (hi : request args i ∉ s.inFlight)
    (hnew : Client args (s.goto i l) i l) : Inv args (s.goto i l) := by
  refine ⟨fun task ht => ?_, h.nodup, h.storing, fun j => ?_⟩
  · obtain ⟨j, rfl, hj⟩ := h.sent task ht
    have hji : j ≠ i := by
      rintro rfl
      exact hi ht
    exact ⟨j, rfl, (update_of_ne hji _ _).trans hj⟩
  · show Client args (s.goto i l) j (update s.client i l j)
    by_cases hji : j = i
    · rwa [hji, update_self]
    rw [update_of_ne hji]
    exact (h.client j).congr rfl Iff.rfl id

theorem Inv.not_inFlight (hl : s.client i ≠ .poll) : request args i ∉ s.inFlight := by
  intro hin
  obtain ⟨j, heq, hj⟩ := h.sent _ hin
  rw [← request_injective heq] at hj
  exact hl hj

/-! ## The steps of the server -/

/-- The server goes on without a change to the page and the tasks in flight. -/
theorem Inv.serverGoto (hpage : t.page = s.page)
    (hclient : t.client = s.client) (hflight : t.inFlight = s.inFlight)
    (hstoring : Storing t t.server) (hclear : t.server.Clearing → s.server.Clearing) :
    Inv args t := by
  refine ⟨?_, ?_, hstoring, fun j => ?_⟩
  · rw [hflight, hclient]
    exact h.sent
  · rw [hflight]
    exact h.nodup
  · rw [hclient]
    exact (h.client j).congr (by rw [hpage]) (by rw [hflight]) hclear

/-- The server clears a flag. -/
theorem Inv.serverClear {k : Nat} (hl : s.server = .clear k) :
    Inv args { s.setPage k { s.page k with ready := 0 } with server := .clear (k + 1) } := by
  have hclearing : s.server.Clearing := by
    rw [hl]
    trivial
  have hflight : State.inFlight
      { s.setPage k { s.page k with ready := 0 } with server := .clear (k + 1) } = s.inFlight := by
    rw [State.inFlight, State.inFlight, hl]
    rfl
  refine ⟨?_, ?_, trivial, fun j => ?_⟩
  · rw [hflight]
    exact h.sent
  · rw [hflight]
    exact h.nodup
  by_cases hjk : j.1 = k
  · -- nobody has an answer yet, so clearing the flag does no harm
    have hpage : (s.setPage k { s.page k with ready := 0 }).page j =
        { s.page j with ready := 0 } := by
      rw [← hjk]
      exact page_setPage_self
    have hj := h.client j
    show Client args _ j (s.client j)
    cases hloc : s.client j with
    | send =>
      show ((s.setPage k _).page j).ready = 0
      rw [hpage]
    | poll =>
      rw [hloc, Client] at hj
      by_cases hin : request args j ∈ s.inFlight
      · rw [Client, hflight, if_pos hin]
        show ((s.setPage k _).page j).ready = 0
        rw [hpage]
      · rw [if_neg hin] at hj
        exact absurd hclearing hj.2
    | loadValue | loadError =>
      rw [hloc] at hj
      exact absurd hclearing hj.2
    | done value error => rwa [hloc] at hj
    | _ => trivial
  · exact (h.client j).congr (page_setPage_of_ne hjk) (by rw [hflight]) fun _ => hclearing

variable {task : Task}

/-- The task that the server works on is that of a client that polls. -/
theorem Inv.working (htask : s.server.task = [task]) :
    ∃ k, task = request args k ∧ s.client k = .poll ∧ slotOf task.clientId = k ∧
      s.inFlight = task :: s.pipe := by
  have hflight : s.inFlight = task :: s.pipe := by
    rw [State.inFlight, htask]
    rfl
  obtain ⟨k, rfl, hk⟩ := h.sent task (by rw [hflight]; exact mem_cons_self)
  exact ⟨k, rfl, hk, slotOf_client k, hflight⟩

/-- The server stores a value or an error in the slot of its task. -/
theorem Inv.serverStore {l : ServerLoc}
    (htask : s.server.task = [task]) (hready : r.ready = (s.page (slotOf task.clientId)).ready)
    (hl : l.task = [task]) (hclear : ¬ l.Clearing)
    (hstoring : Storing { s.setPage (slotOf task.clientId) r with server := l } l) :
    Inv args { s.setPage (slotOf task.clientId) r with server := l } := by
  obtain ⟨k, rfl, hk, hslot, -⟩ := h.working htask
  have hflight : State.inFlight
      { s.setPage (slotOf (request args k).clientId) r with server := l } = s.inFlight := by
    rw [State.inFlight, State.inFlight, htask]
    show l.task ++ s.pipe = _
    rw [hl]
  refine ⟨?_, ?_, hstoring, fun j => ?_⟩
  · rw [hflight]
    exact h.sent
  · rw [hflight]
    exact h.nodup
  by_cases hjk : j = k
  · have hin : request args k ∈ s.inFlight := by
      rw [State.inFlight, htask]
      exact mem_cons_self
    have hj := h.client k
    rw [hk, Client, if_pos hin] at hj
    rw [hjk]
    show Client args _ k (s.client k)
    rw [hk, Client, hflight, if_pos hin]
    show ((s.setPage (slotOf (request args k).clientId) r).page k).ready = 0
    rw [hslot] at hready ⊢
    rw [page_setPage_self, hready, hj]
  · refine (h.client j).congr (page_setPage_of_ne ?_) (by rw [hflight]) fun hc => absurd hc hclear
    rw [hslot]
    exact fun heq => hjk (Fin.ext heq)

/-- The server sets the flag: the task is answered. -/
theorem Inv.serverReady (hl : s.server = .storeReady task) :
    Inv args { s.setPage (slotOf task.clientId)
      { s.page (slotOf task.clientId) with ready := 1 } with server := .read } := by
  obtain ⟨k, rfl, hk, hslot, hflight⟩ := h.working (by rw [hl]; rfl)
  have hnodup := h.nodup
  rw [hflight, nodup_cons] at hnodup
  have hstored : Answers (request args k) (s.page k).value (s.page k).error := by
    have := h.storing
    rwa [hl, Storing, hslot] at this
  refine ⟨fun task ht => ?_, hnodup.2, trivial, fun j => ?_⟩
  · exact h.sent task (by rw [hflight]; exact mem_cons_of_mem _ ht)
  by_cases hjk : j = k
  · rw [hjk, hslot]
    show Client args _ k (s.client k)
    rw [hk, Client]
    show if request args k ∈ s.pipe then _ else _
    rw [if_neg hnodup.1]
    refine ⟨?_, id⟩
    show Answers _ ((s.setPage k { s.page k with ready := 1 }).page k).value
      ((s.setPage k { s.page k with ready := 1 }).page k).error
    rwa [page_setPage_self]
  · refine (h.client j).congr (page_setPage_of_ne ?_) ?_ (fun hc => absurd hc id)
    · rw [hslot]
      exact fun heq => hjk (Fin.ext heq)
    show request args j ∈ s.pipe ↔ _
    rw [hflight, mem_cons]
    exact ⟨Or.inr, fun hin => hin.resolve_left fun heq => hjk (request_injective heq)⟩

theorem Inv.serverStep {ok : Bool} (hstep : s.serverStep ok = some t) : Inv args t := by
  have hstoring := h.storing
  unfold State.serverStep at hstep
  cases hl : s.server with
  | shmget =>
    rw [hl] at hstep
    cases hstep
    refine h.serverGoto rfl rfl ?_ ?_ fun _ => by rw [hl]; trivial
    · rw [State.inFlight, State.inFlight, hl]
      cases ok <;> rfl
    · cases ok <;> trivial
  | clear k =>
    rw [hl] at hstep
    dsimp only at hstep
    split at hstep
    · cases hstep
      exact h.serverClear hl
    cases hstep
    refine h.serverGoto rfl rfl ?_ trivial fun hc => absurd hc id
    rw [State.inFlight, State.inFlight, hl]
    rfl
  | read =>
    rw [hl] at hstep
    dsimp only at hstep
    split at hstep
    · split at hstep
      · cases hstep
      rename_i task pipe hpipe
      obtain rfl := some.inj hstep
      refine h.serverGoto rfl rfl ?_ rfl fun hc => absurd hc id
      rw [State.inFlight, State.inFlight, hl, hpipe]
      rfl
    · obtain rfl := some.inj hstep
      refine h.serverGoto rfl rfl ?_ trivial fun hc => absurd hc id
      rw [State.inFlight, State.inFlight, hl]
      rfl
  | storeValue task result error =>
    rw [hl] at hstep
    obtain rfl := some.inj hstep
    rw [hl] at hstoring
    refine h.serverStore (by rw [hl]; rfl) rfl rfl id ?_
    show Answers task ((s.setPage _ _).page _).value error
    rw [page_setPage_self]
    exact hstoring
  | storeError task error =>
    rw [hl] at hstep
    obtain rfl := some.inj hstep
    rw [hl] at hstoring
    refine h.serverStore (by rw [hl]; rfl) rfl rfl id ?_
    show Answers task ((s.setPage _ _).page _).value ((s.setPage _ _).page _).error
    rw [page_setPage_self]
    exact hstoring
  | storeReady task =>
    rw [hl] at hstep
    obtain rfl := some.inj hstep
    exact h.serverReady hl
  | exited =>
    rw [hl] at hstep
    cases hstep

/-! ## The steps of a client -/

/-- A client clears its flag. -/
theorem Inv.clientClear (hl : s.client i = .clear) :
    Inv args ((s.setPage i { s.page i with ready := 0 }).goto i .send) := by
  have hout := h.not_inFlight (show s.client i ≠ .poll by rw [hl]; nofun)
  have hset : Inv args (s.setPage i { s.page i with ready := 0 }) := by
    refine ⟨h.sent, h.nodup, ?_, fun j => ?_⟩
    · -- the server works on the task of another client
      have hother : ∀ task ∈ s.server.task, slotOf task.clientId ≠ i := by
        intro task ht heq
        obtain ⟨k, rfl, hk⟩ := h.sent task (mem_append_left _ ht)
        rw [show slotOf (request args k).clientId = k from slotOf_client k] at heq
        rw [Fin.ext heq, hl] at hk
        cases hk
      have hstoring := h.storing
      show Storing _ s.server
      cases hserver : s.server with
      | storeError task error | storeReady task =>
        rw [hserver] at hstoring hother
        rwa [Storing, page_setPage_of_ne (hother task mem_cons_self)]
      | _ => rwa [hserver] at hstoring
    · by_cases hji : j = i
      · rw [hji]
        show Client args _ i (s.client i)
        rw [hl]
        trivial
      · exact (h.client j).congr (page_setPage_of_ne fun heq => hji (Fin.ext heq)) Iff.rfl id
  refine hset.goto hout ?_
  show ((s.setPage i { s.page i with ready := 0 }).page i).ready = 0
  rw [page_setPage_self]

/-- A client sends its task. -/
theorem Inv.clientSend (hl : s.client i = .send) :
    Inv args ({ s with pipe := s.pipe ++ [request args i] }.goto i .poll) := by
  have hout := h.not_inFlight (show s.client i ≠ .poll by rw [hl]; nofun)
  have hready := h.client i
  rw [hl] at hready
  have hflight : State.inFlight ({ s with pipe := s.pipe ++ [request args i] }.goto i .poll) =
      s.inFlight ++ [request args i] := (append_assoc _ _ _).symm
  refine ⟨fun task ht => ?_, ?_, h.storing, fun j => ?_⟩
  · rw [hflight, mem_append, mem_singleton] at ht
    rcases ht with ht | rfl
    · obtain ⟨j, rfl, hj⟩ := h.sent task ht
      have hji : j ≠ i := by
        rintro rfl
        exact hout ht
      exact ⟨j, rfl, (update_of_ne hji _ _).trans hj⟩
    · exact ⟨i, rfl, update_self _ _ _⟩
  · rw [hflight]
    exact nodup_append.2 ⟨h.nodup, nodup_singleton _, fun a ha b hb heq => by
      rw [heq, mem_singleton.1 hb] at ha
      exact hout ha⟩
  · show Client args _ j (update s.client i .poll j)
    by_cases hji : j = i
    · have hin : request args i ∈ s.inFlight ++ [request args i] :=
        mem_append_right _ mem_cons_self
      rwa [hji, update_self, Client, hflight, if_pos hin]
    rw [update_of_ne hji]
    refine (h.client j).congr rfl ?_ id
    rw [hflight, mem_append, mem_singleton]
    exact ⟨fun hin => hin.resolve_right fun heq => hji (request_injective heq), Or.inl⟩

theorem Inv.clientStep {ok : Bool} (hstep : s.clientStep args i ok = some t) : Inv args t := by
  have hclient := h.client i
  have hout := h.not_inFlight (i := i)
  unfold State.clientStep at hstep
  rw [slotOf_client] at hstep
  cases hl : s.client i with
  | shmget =>
    rw [hl] at hstep hout
    cases hstep
    refine h.goto (hout nofun) ?_
    cases ok <;> trivial
  | clear =>
    rw [hl] at hstep
    cases hstep
    exact h.clientClear hl
  | send =>
    rw [hl] at hstep hout
    dsimp only at hstep
    split at hstep
    · cases hstep
      exact h.clientSend hl
    · cases hstep
      exact h.goto (hout nofun) trivial
  | poll =>
    rw [hl] at hstep hclient
    dsimp only at hstep
    split at hstep
    · obtain rfl := some.inj hstep
      exact h
    rename_i hready
    obtain rfl := some.inj hstep
    have hin : request args i ∉ s.inFlight := by
      intro hin
      rw [Client, if_pos hin] at hclient
      exact hready hclient
    rw [Client, if_neg hin] at hclient
    exact h.goto hin hclient
  | loadValue =>
    rw [hl] at hstep hclient hout
    obtain rfl := some.inj hstep
    exact h.goto (hout nofun) hclient
  | loadError value =>
    rw [hl] at hstep hclient hout
    obtain rfl := some.inj hstep
    exact h.goto (hout nofun) hclient.1
  | done value error =>
    rw [hl] at hstep hout
    obtain rfl := some.inj hstep
    exact h.goto (hout nofun) trivial
  | exited =>
    rw [hl] at hstep
    cases hstep

end

/-! ## Runs -/

theorem Start.inv (h : Start s) : Inv args s := by
  have hflight : s.inFlight = [] := by
    rw [State.inFlight, h.pipe, h.server]
    rfl
  refine ⟨fun task ht => ?_, ?_, ?_, fun j => ?_⟩
  · rw [hflight] at ht
    cases ht
  · rw [hflight]
    exact nodup_nil
  · rw [h.server]
    trivial
  · rcases h.client j with hl | hl <;> rw [hl] <;> trivial

/-- A client that has left its polling loop has read the value and the error
that `calc` gives for its own task. -/
theorem client_reads_own_answer {s₀ : State} {ls : List Label} {value error : Int32}
    (hstart : Start s₀) (hrun : Run (fun s l t => step args s l = some t) s₀ ls s)
    (hdone : s.client i = .done value error) :
    calcOp (args i).x (args i).y (args i).op 0 = (error, value) := by
  have h : Inv args s := hrun.inv hstart.inv fun _ l _ h hstep => by
    cases l with
    | server ok => exact h.serverStep hstep
    | client j ok => exact h.clientStep hstep
  have hi := h.client i
  rwa [hdone] at hi

/-- Client 3 runs alone, on a page whose flags are set and that holds another
answer. -/
def stalePage : State where
  page := fun _ => ⟨77, 0, 1⟩
  pipe := []
  server := .shmget
  client := fun i => if i = 3 then .shmget else .exited

/-- The server starts while the client polls. -/
def lateServer : List Label :=
  [.client 3 true, .client 3 true, .client 3 true, .client 3 true] ++
    List.replicate 16 (.server true) ++ [.client 3 true, .client 3 true, .client 3 true]

theorem client_reads_own_answer_lateServer :
    (after (step fun _ => ⟨10, 0, '/'.toUInt8⟩) stalePage lateServer).client 3 =
        .done 0 (-1) ∧ calcOp 10 0 '/'.toUInt8 0 = (-1, 0) := by
  have hdone : (after (step fun _ => ⟨10, 0, '/'.toUInt8⟩) stalePage lateServer).client 3 =
      .done 0 (-1) := by decide +kernel
  have hstart : Start stalePage := ⟨rfl, rfl, by decide⟩
  exact ⟨hdone, client_reads_own_answer hstart (Run.of_after (by decide +kernel)) hdone⟩

end Xv6.ShmTest
