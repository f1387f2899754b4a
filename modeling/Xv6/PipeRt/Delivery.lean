import Xv6.PipeRt.Pipe

/-!
# What the readers of a priority pipe get

Runs of any number of writers and readers around one pipe, in which
`kalloc` and the user copies succeed (`GoodStep`).

* `priorityPipe_delivers_max`: a read delivers a task of the highest
  priority in the queue, and until both ends are closed every accepted
  task is either delivered or queued, once.
* Tasks of equal priority need not come out in the order in which they
  were written: three writes of one priority are read as first, third,
  second (`fifo_fails_for_three_equals`).  They do come out in order in
  every run whose writes never meet an equal behind the head
  (`fifo_of_noEqualBehindHead`).
-/

namespace Xv6.PipeRt

open List Multiset Xv6.Lib

variable {w w' : World} {c : Call}

/-- `kalloc` and the user copies succeed in the call `c`. -/
def Succeeds (w : World) : Call → Prop
  | .write _ copied =>
    copied.isSome = true ∧
      (w.sys.pipe.active = true → 0 < w.sys.pipe.nread → w.sys.kmem.freelist ≠ [])
  | .read _ copyoutOk => copyoutOk = true
  | .resume _ copyoutOk => copyoutOk = true
  | _ => True

instance (w : World) (c : Call) : Decidable (Succeeds w c) := by
  cases c <;> unfold Succeeds <;> infer_instance

/-- A transition in which nothing fails for lack of memory. -/
def GoodStep (w : World) (c : Call) (w' : World) : Prop :=
  Succeeds w c ∧ step w c = some w'

/-- Both ends have been closed.  `pipe_rt_alloc` starts both counters at
one and a close takes one off. -/
def BothClosed (p : Pipe) : Prop := p.nwrite ≤ 0 ∧ p.nread ≤ 0

/-- A page was free, so `pq_insert` placed the task. -/
theorem pqInsert_of_freelist_ne {k : Kmem} (hk : k.freelist ≠ [])
    (head : List PqNode) (task : Task) :
    ∃ page, (pqInsert k head task).2 = pqInsertNode ⟨page, task⟩ head := by
  unfold pqInsert kalloc
  cases h : k.freelist with
  | nil => exact absurd h hk
  | cons r rest => exact ⟨r, rfl⟩

/-- The transitions of a good run.  Of the effects of `step_cases` two are
narrower here: an accepted task has a node, and an unlinked one is
delivered. -/
theorem goodStep_cases (h : GoodStep w c w') :
    (∃ (pid page : Nat) (task : Task), c = .write pid (some task) ∧
        w.sys.pipe.active = true ∧ 0 < w.sys.pipe.nread ∧ w'.sys.pipe =
          { w.sys.pipe with head := pqInsertNode ⟨page, task⟩ w.sys.pipe.head } ∧
        w'.accepted = w.accepted ++ [task] ∧ w'.delivered = w.delivered) ∨
      (∃ n, w.sys.pipe.head = n :: w'.sys.pipe.head ∧
        w'.sys.pipe = { w.sys.pipe with head := w'.sys.pipe.head } ∧
        w'.accepted = w.accepted ∧ w'.delivered = w.delivered ++ [n.task]) ∨
      (w'.accepted = w.accepted ∧ w'.delivered = w.delivered ∧
        ((∃ writable, w'.sys.pipe = w.sys.pipe.dropEnd writable) ∨
          w'.sys.pipe.head = [] ∧ w'.sys.pipe.active = false ∧ BothClosed w'.sys.pipe ∨
          w'.sys.pipe = w.sys.pipe)) := by
  obtain ⟨hsucc, hstep⟩ := h
  cases step_cases hstep with
  | accept pid task hc hactive hnread hpipe hacc hdel =>
    subst hc
    obtain ⟨page, hpage⟩ :=
      pqInsert_of_freelist_ne (hsucc.2 hactive hnread) w.sys.pipe.head task
    rw [hpage] at hpipe
    exact .inl ⟨pid, page, task, rfl, hactive, hnread, hpipe, hacc, hdel⟩
  | unlink n ok hc hhead hpipe hacc hdel =>
    obtain ⟨pid, rfl | rfl⟩ := hc
    all_goals
      obtain rfl : ok = true := hsucc
      exact .inr (.inl ⟨n, hhead, hpipe, hacc, hdel⟩)
  | close writable hc hopen hpipe hacc hdel =>
    exact .inr (.inr ⟨hacc, hdel, .inl ⟨writable, hpipe⟩⟩)
  | drain writable hc hclosed hpipe hacc hdel =>
    refine .inr (.inr ⟨hacc, hdel, .inr (.inl ?_)⟩)
    rw [hpipe]
    exact ⟨rfl, rfl, le_of_eq hclosed.1, le_of_eq hclosed.2⟩
  | quiet hpipe hacc hdel => exact .inr (.inr ⟨hacc, hdel, .inr (.inr hpipe)⟩)

/-! ## Highest priority first, nothing lost -/

/-- The invariant of a good run: the queue is in descending priority, and
while an end is open the accepted tasks are the delivered and the queued
ones. -/
structure Inv (w : World) : Prop where
  descending : Descending w.sys.pipe.head
  conserved : ¬ BothClosed w.sys.pipe →
    (w.accepted : Multiset Task) = w.delivered + tasks w.sys.pipe.head

theorem Inv.start (h : Allocated w) : Inv w := by
  obtain ⟨k, ft, ft', fresh, halloc, hpipe, -, hacc, hdel⟩ := h
  rw [pipeRtAlloc_pipe halloc] at hpipe
  refine ⟨?_, fun _ => ?_⟩
  · rw [hpipe]
    exact List.Pairwise.nil
  · rw [hacc, hdel, hpipe]
    rfl

@[simp] theorem dropEnd_head (p : Pipe) (writable : Bool) :
    (p.dropEnd writable).head = p.head := by
  cases writable <;> rfl

@[simp] theorem dropEnd_active (p : Pipe) (writable : Bool) :
    (p.dropEnd writable).active = p.active := by
  cases writable <;> rfl

/-- A pipe that still has an open end after a close had one before. -/
theorem not_bothClosed_of_dropEnd {p : Pipe} {writable : Bool}
    (h : ¬ BothClosed (p.dropEnd writable)) : ¬ BothClosed p := by
  intro hp
  apply h
  obtain ⟨h1, h2⟩ := hp
  cases writable with
  | true => exact ⟨show p.nwrite - 1 ≤ 0 by omega, h2⟩
  | false => exact ⟨h1, show p.nread - 1 ≤ 0 by omega⟩

theorem Inv.step (hinv : Inv w) (h : GoodStep w c w') : Inv w' := by
  obtain ⟨hdesc, hcons⟩ := hinv
  rcases goodStep_cases h with
    ⟨pid, page, task, -, -, -, hpipe, hacc, hdel⟩ |
    ⟨n, hhead, hpipe, hacc, hdel⟩ | ⟨hacc, hdel, hrest⟩
  · refine ⟨?_, fun hopen => ?_⟩
    · rw [hpipe]
      exact pqInsertNode_descending hdesc
    have hopen' : ¬ BothClosed w.sys.pipe := by rwa [hpipe] at hopen
    have hperm : (tasks (pqInsertNode ⟨page, task⟩ w.sys.pipe.head) : Multiset Task)
        = task ::ₘ (tasks w.sys.pipe.head : Multiset Task) :=
      coe_eq_coe.mpr ((pqInsertNode_perm ⟨page, task⟩ w.sys.pipe.head).map _)
    have haccept : ((w.accepted ++ [task] : List Task) : Multiset Task)
        = task ::ₘ (w.accepted : Multiset Task) :=
      coe_eq_coe.mpr (perm_append_singleton task w.accepted)
    rw [hacc, hdel, hpipe, haccept, hcons hopen']
    exact (congrArg (fun m => (w.delivered : Multiset Task) + m) hperm).trans
      (add_cons _ _ _) |>.symm
  · refine ⟨?_, fun hopen => ?_⟩
    · rw [hhead] at hdesc
      exact (pairwise_cons.mp hdesc).2
    have hopen' : ¬ BothClosed w.sys.pipe := by rwa [hpipe] at hopen
    rw [hacc, hdel, hcons hopen', hhead, tasks_cons, ← coe_add, add_assoc]
    rfl
  · rcases hrest with ⟨writable, hpipe⟩ | ⟨hhead, -, hclosed⟩ | hpipe
    · refine ⟨?_, fun hopen => ?_⟩
      · rwa [hpipe, dropEnd_head]
      rw [hpipe] at hopen
      rw [hacc, hdel, hpipe, dropEnd_head]
      exact hcons (not_bothClosed_of_dropEnd hopen)
    · refine ⟨?_, fun hopen => absurd hclosed hopen⟩
      rw [hhead]
      exact List.Pairwise.nil
    · rw [← hpipe] at hdesc hcons
      rw [← hacc, ← hdel] at hcons
      exact ⟨hdesc, hcons⟩

/-- In every run of a fresh pipe in which allocation and copies succeed, a
read delivers a task of the highest priority queued at that moment, and
until both ends are closed the accepted tasks are exactly the delivered
ones and the queued ones. -/
theorem priorityPipe_delivers_max {w₀ w : World} {cs : List Call}
    (hstart : Allocated w₀) (hrun : Run GoodStep w₀ cs w) :
    (∀ c w' task, GoodStep w c w' → w'.delivered = w.delivered ++ [task] →
      ∀ n ∈ w.sys.pipe.head, n.task.priority ≤ task.priority) ∧
    (¬ BothClosed w.sys.pipe →
      (w.accepted : Multiset Task) = w.delivered + tasks w.sys.pipe.head) := by
  have hinv : Inv w :=
    hrun.inv (Inv.start hstart) fun _ _ _ hi hs => hi.step hs
  refine ⟨?_, hinv.conserved⟩
  intro c w' task hstep hdelivers n hn
  rcases goodStep_cases hstep with
    ⟨_, _, _, -, -, -, -, -, hdel⟩ | ⟨m, hhead, -, -, hdel⟩ | ⟨-, hdel, -⟩
  · rw [hdel] at hdelivers
    simp at hdelivers
  · rw [hdel] at hdelivers
    obtain rfl : m.task = task := by simpa using hdelivers
    have hdesc := hinv.descending
    rw [hhead] at hdesc hn
    exact hdesc.le_head n hn
  · rw [hdel] at hdelivers
    simp at hdelivers

/-! ## A small pipe to run -/

/-- An allocator with four free pages. -/
def fourPages : Kmem :=
  ⟨0x80100000, [0x80100000, 0x80101000, 0x80102000, 0x80103000]⟩

/-- A file table with every entry free. -/
def noFiles : Ftable := fun _ => ⟨.none, 0, false, 0, 0, 0, 0, 0⟩

/-- The pipe that `pipe_rt_alloc` makes out of `fourPages`. -/
def freshPipe : World where
  sys := ⟨⟨0x80100000, [0x80101000, 0x80102000, 0x80103000]⟩, Pipe.init,
    fun _ => .outside⟩
  accepted := []
  delivered := []

theorem freshPipe_allocated : Allocated freshPipe := by
  refine ⟨fourPages, noFiles, _, ⟨0x80100000, Pipe.init, ⟨0, by decide⟩, ⟨1, by decide⟩⟩, rfl, rfl,
    fun _ => rfl, rfl, rfl⟩

/-- The task number `x` with the given priority. -/
def taskOf (priority x : Int) : Task := ⟨priority, 0, x, 0, 0, 0, 0⟩

/-- `step`, refused where `kalloc` or a copy would fail. -/
def goodStep (w : World) (c : Call) : Option World :=
  if Succeeds w c then step w c else none

theorem goodStep_iff : goodStep w c = some w' ↔ GoodStep w c w' := by
  rw [goodStep, GoodStep]
  split
  · rename_i h
    simp [h]
  · rename_i h
    simp [h]

theorem run_of_follow {cs : List Call}
    (h : follow goodStep w cs = some w') : Run GoodStep w cs w' :=
  (Run.of_follow h).mono fun _ _ _ => goodStep_iff.mp

/-- Two writes and a read: the later, more urgent task comes out. -/
theorem priorityPipe_delivers_max_run :
    ∃ w, Run GoodStep freshPipe
        [.write 1 (some (taskOf 1 0)), .write 2 (some (taskOf 5 1)), .read 3 true] w ∧
      w.delivered = [taskOf 5 1] ∧
      (w.accepted : Multiset Task) = w.delivered + tasks w.sys.pipe.head := by
  have hrun : ∃ w, Run GoodStep freshPipe
      [.write 1 (some (taskOf 1 0)), .write 2 (some (taskOf 5 1)), .read 3 true] w ∧
      w.delivered = [taskOf 5 1] ∧ w.sys.pipe.nread = 1 :=
    ⟨_, run_of_follow rfl, rfl, rfl⟩
  obtain ⟨w, hrun, hdel, hnread⟩ := hrun
  refine ⟨w, hrun, hdel, (priorityPipe_delivers_max freshPipe_allocated hrun).2 ?_⟩
  intro hclosed
  have := hclosed.2
  omega

/-! ## Order among equals -/

/-- For each priority, the delivered tasks are the first ones that were
accepted, in the same order. -/
def Fifo (w : World) : Prop :=
  ∀ c, ofPriority c w.delivered <+: ofPriority c w.accepted

/-- Three writes of one priority and three reads: the third task
overtakes the second. -/
theorem fifo_fails_for_three_equals :
    ¬ ∀ (w₀ w : World) (cs : List Call),
      Allocated w₀ → Run GoodStep w₀ cs w → Fifo w := by
  intro hall
  have hrun : ∃ w, Run GoodStep freshPipe
      [.write 1 (some (taskOf 1 0)), .write 1 (some (taskOf 1 1)),
        .write 1 (some (taskOf 1 2)), .read 2 true, .read 2 true] w ∧
      w.accepted = [taskOf 1 0, taskOf 1 1, taskOf 1 2] ∧
      w.delivered = [taskOf 1 0, taskOf 1 2] :=
    ⟨_, run_of_follow rfl, rfl, rfl⟩
  obtain ⟨w, hrun, hacc, hdel⟩ := hrun
  have hfifo := hall freshPipe w _ freshPipe_allocated hrun 1
  rw [hacc, hdel] at hfifo
  exact absurd hfifo (by decide)

/-- The call `c` does not bring a task in front of an equal: where a write
is going to be accepted, no node behind the head has its priority. -/
def KeepsOrder (w : World) : Call → Prop
  | .write _ (some task) =>
    w.sys.pipe.active = true → 0 < w.sys.pipe.nread →
      NoEqualBehindHead task w.sys.pipe.head
  | _ => True

/-- The invariant of a run in which every call keeps the order.  The
second case is a pipe whose queue `pipe_rt_close` has thrown away. -/
structure FifoInv (w : World) : Prop where
  descending : Descending w.sys.pipe.head
  order : (∀ c, ofPriority c w.accepted
      = ofPriority c w.delivered ++ ofPriority c (tasks w.sys.pipe.head)) ∨
    w.sys.pipe.active = false ∧ w.sys.pipe.head = [] ∧ Fifo w

theorem ofPriority_append (c : Int) (ts us : List Task) :
    ofPriority c (ts ++ us) = ofPriority c ts ++ ofPriority c us :=
  filter_append ts us

theorem FifoInv.fifo (h : FifoInv w) : Fifo w := by
  rcases h.order with horder | ⟨-, -, hfifo⟩
  · intro c
    rw [horder c]
    exact prefix_append _ _
  · exact hfifo

theorem FifoInv.step (hinv : FifoInv w)
    (h : GoodStep w c w') (hkeeps : KeepsOrder w c) : FifoInv w' := by
  have hfifo := hinv.fifo
  obtain ⟨hdesc, horder⟩ := hinv
  rcases goodStep_cases h with
    ⟨pid, page, task, rfl, hactive, hnread, hpipe, hacc, hdel⟩ |
    ⟨n, hhead, hpipe, hacc, hdel⟩ | ⟨hacc, hdel, hrest⟩
  · have hord : ∀ c, ofPriority c w.accepted
        = ofPriority c w.delivered ++ ofPriority c (tasks w.sys.pipe.head) := by
      rcases horder with hord | ⟨hoff, -, -⟩
      · exact hord
      · exact absurd hactive (by simp [hoff])
    refine ⟨?_, .inl fun c => ?_⟩
    · rw [hpipe]
      exact pqInsertNode_descending hdesc
    · rw [hacc, hdel, hpipe, ofPriority_append, hord c,
        pqInsertNode_stable hdesc (hkeeps hactive hnread) c, append_assoc]
  · refine ⟨?_, .inl fun c => ?_⟩
    · rw [hhead] at hdesc
      exact (pairwise_cons.mp hdesc).2
    rcases horder with hord | ⟨-, hempty, -⟩
    · have hsplit : tasks (n :: w'.sys.pipe.head) = [n.task] ++ tasks w'.sys.pipe.head :=
        rfl
      rw [hacc, hdel, hord c, hhead, hsplit, ofPriority_append, ofPriority_append, append_assoc]
    · rw [hempty] at hhead
      exact absurd hhead (by simp)
  · rcases hrest with ⟨writable, hpipe⟩ | ⟨hhead, hoff, -⟩ | hpipe
    · refine ⟨?_, ?_⟩
      · rwa [hpipe, dropEnd_head]
      · rwa [Fifo, hacc, hdel, hpipe, dropEnd_head, dropEnd_active]
    · refine ⟨?_, .inr ⟨hoff, hhead, ?_⟩⟩
      · rw [hhead]
        exact List.Pairwise.nil
      · rwa [Fifo, hacc, hdel]
    · rw [← hpipe] at hdesc horder
      refine ⟨hdesc, ?_⟩
      rwa [Fifo, hacc, hdel]

/-- In every run of a fresh pipe whose writes never meet an equal behind
the head, tasks of equal priority are delivered in the order in which
they were written. -/
theorem fifo_of_noEqualBehindHead {w₀ w : World} {cs : List Call}
    (hstart : Allocated w₀)
    (hrun : Run (fun w c w' => GoodStep w c w' ∧ KeepsOrder w c) w₀ cs w) :
    Fifo w := by
  have hinit : FifoInv w₀ := by
    obtain ⟨k, ft, ft', fresh, halloc, hpipe, -, hacc, hdel⟩ := hstart
    rw [pipeRtAlloc_pipe halloc] at hpipe
    refine ⟨?_, .inl fun c => ?_⟩
    · rw [hpipe]
      exact List.Pairwise.nil
    · rw [hacc, hdel, hpipe]
      rfl
  exact (hrun.inv hinit fun _ _ _ hi hs => hi.step hs.1 hs.2).fifo

/-- Two writes of one priority to an empty queue, then both reads: the
second write finds its equal at the head and nothing behind it. -/
theorem fifo_of_noEqualBehindHead_run :
    ∃ w, Run (fun w c w' => GoodStep w c w' ∧ KeepsOrder w c) freshPipe
        [.write 1 (some (taskOf 1 0)), .write 1 (some (taskOf 1 1)),
          .read 2 true, .read 2 true] w ∧
      w.delivered = [taskOf 1 0, taskOf 1 1] ∧ Fifo w := by
  have hrun : ∃ w, Run (fun w c w' => GoodStep w c w' ∧ KeepsOrder w c) freshPipe
      [.write 1 (some (taskOf 1 0)), .write 1 (some (taskOf 1 1)),
        .read 2 true, .read 2 true] w ∧
      w.delivered = [taskOf 1 0, taskOf 1 1] :=
    ⟨_, .cons ⟨goodStep_iff.mp rfl, fun _ _ => by decide⟩
      (.cons ⟨goodStep_iff.mp rfl, fun _ _ => by decide⟩
        (.cons ⟨goodStep_iff.mp rfl, trivial⟩
          (.cons ⟨goodStep_iff.mp rfl, trivial⟩ .nil))), rfl⟩
  obtain ⟨w, hrun, hdel⟩ := hrun
  exact ⟨w, hrun, hdel, fifo_of_noEqualBehindHead freshPipe_allocated hrun⟩

end Xv6.PipeRt
