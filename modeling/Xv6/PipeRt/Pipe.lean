import Xv6.File
import Xv6.Lib.Except
import Xv6.Lib.Run
import Xv6.PipeRt.Queue

/-!
# Priority pipes

`pipe_rt_alloc`, `pipe_rt_close`, `pipe_rt_write` and `pipe_rt_read` of
`proj2/kernel/pipe_rt.c`, and the system that any number of processes
form around one pipe.

Each call holds `p->lock` from its first access to its last, except while
`pipe_rt_read` sleeps, so one transition of the system is one call, or one
pass of a reader through its `while` loop.  The results of `copyin` and
`copyout` are part of the transition's label, because the user memory
behind them is not part of the pipe.  The rest of the kernel shares the
page allocator and may take and return pages between two calls.

`step_cases` says once what a transition can do to the queue and to the
histories; the proofs about runs use it and never unfold `step`.
-/

namespace Xv6.PipeRt

open Function Option Xv6.Lib

/-- `struct pipe_rt` without its lock. -/
structure Pipe where
  head : List PqNode
  nwrite : Int
  nread : Int
  active : Bool
  deriving DecidableEq, Repr

/-- The contents that `pipe_rt_alloc` gives a fresh pipe. -/
def Pipe.init : Pipe := ⟨[], 1, 1, true⟩

/-- What a successful `pipe_rt_alloc` made. -/
structure Fresh where
  page : Nat
  pipe : Pipe
  f0 : Fin NFILE
  f1 : Fin NFILE

/-- `pipe_rt_alloc`.  The answer `none` is the return value `-1`: on every
`goto bad` the pipe page is freed and an allocated file is closed again.
A file that `filealloc` has just handed out has the type `FD_NONE`, so
closing it only touches the table. -/
def pipeRtAlloc (k : Kmem) (ft : Ftable) :
    Except Panic (Option Fresh × Kmem × Ftable) :=
  match kalloc k with
  | none => .ok (none, k, ft)
  | some (page, k1) =>
    match filealloc ft with
    | none => do
      let k2 ← kfree k1 page
      return (none, k2, ft)
    | some (f0, ft1) =>
      match filealloc ft1 with
      | none => do
        let k2 ← kfree k1 page
        let (_, ft2) ← filecloseTable ft1 f0
        return (none, k2, ft2)
      | some (f1, ft2) =>
        let ft3 := update ft2 f0
          { ft2 f0 with type := .pipeRt, readable := true, writable := 0, pipe := page }
        let ft4 := update ft3 f1
          { ft3 f1 with type := .pipeRt, readable := false, writable := 1, pipe := page }
        .ok (some ⟨page, Pipe.init, f0, f1⟩, k1, ft4)

/-- Where a process stands with respect to `pipe_rt_read`: outside it, in
`sleep(&p->nread, &p->lock)`, or woken and about to test the loop
condition again. -/
inductive ReadState where
  | outside
  | sleeping
  | runnable
  deriving DecidableEq, Repr

/-- One pipe, the page allocator, and the processes by number. -/
structure Sys where
  kmem : Kmem
  pipe : Pipe
  reader : Nat → ReadState

/-- `wakeup(&p->nread)`. -/
def wakeup (s : Sys) : Sys :=
  { s with reader := fun pid =>
      match s.reader pid with
      | .sleeping => .runnable
      | r => r }

/-- `sizeof(struct task_t)`. -/
def sizeofTask : Int := 40

/-- `pipe_rt_write`.  `copied` is the task that `copyin` read, `none` when
it failed.  The result of `pq_insert` is not looked at. -/
def pipeRtWrite (s : Sys) (copied : Option Task) : Sys × Int :=
  if !s.pipe.active ∨ s.pipe.nread ≤ 0 then
    (s, -1)
  else
    match copied with
    | none => (s, -1)
    | some task =>
      let r := pqInsert s.kmem s.pipe.head task
      (wakeup { s with kmem := r.1, pipe := { s.pipe with head := r.2 } }, sizeofTask)

/-- What one pass of `pipe_rt_read` comes to: it sleeps, it returns `-1`,
or it returns `sizeof(task)` with a task stored at the user's address. -/
inductive ReadPass where
  | sleep
  | fail (s : Sys)
  | deliver (task : Task) (s : Sys)

/-- One pass of `pipe_rt_read`, from the loop test on.  The task is
unlinked before `copyout` is tried. -/
def pipeRtRead (s : Sys) (copyoutOk : Bool) : Except Panic ReadPass :=
  if s.pipe.head = [] ∧ s.pipe.active ∧ s.pipe.nwrite > 0 then
    .ok .sleep
  else if s.pipe.head = [] then
    .ok (.fail s)
  else do
    let (task, k, head) ← pqRemove s.kmem s.pipe.head
    let s' := { s with kmem := k, pipe := { s.pipe with head := head } }
    if copyoutOk then
      return .deliver task s'
    else
      return .fail s'

/-- The two counters after `pipe_rt_close` has taken the closed end off
one of them. -/
def Pipe.dropEnd (p : Pipe) (writable : Bool) : Pipe :=
  if writable then { p with nwrite := p.nwrite - 1 } else { p with nread := p.nread - 1 }

/-- `pipe_rt_close`.  Readers are woken when a write end is closed. -/
def pipeRtClose (s : Sys) (writable : Bool) : Except Panic Sys :=
  let s1 := { s with pipe := s.pipe.dropEnd writable }
  let s2 := if writable then wakeup s1 else s1
  if s2.pipe.nwrite = 0 ∧ s2.pipe.nread = 0 then do
    let k ← pqDrain s2.kmem s2.pipe.head
    return { s2 with kmem := k, pipe := { s2.pipe with head := [], active := false } }
  else
    .ok s2

/-! ## The system -/

/-- The system with two histories that no function of the source reads:
the tasks of the writes that returned `sizeof(task)` and the tasks of the
reads that did. -/
structure World where
  sys : Sys
  accepted : List Task
  delivered : List Task

/-- One transition.  `read` is a process that enters `pipe_rt_read`,
`resume` one that `wakeup` or `kill` has made runnable inside it. -/
inductive Call where
  | write (pid : Nat) (copied : Option Task)
  | read (pid : Nat) (copyoutOk : Bool)
  | resume (pid : Nat) (copyoutOk : Bool)
  | kill (pid : Nat)
  | close (writable : Bool)
  | otherKalloc
  | otherKfree (pa : Nat)
  deriving DecidableEq, Repr

/-- The state after a pass of the reader `pid`. -/
def World.afterRead (w : World) (pid : Nat) : Except Panic ReadPass → Option World
  | .error _ => none
  | .ok .sleep =>
    some { w with sys :=
      { w.sys with reader := update w.sys.reader pid .sleeping } }
  | .ok (.fail s) => some { w with sys := { s with reader := update s.reader pid .outside } }
  | .ok (.deliver task s) =>
    some { w with
      sys := { s with reader := update s.reader pid .outside }
      delivered := w.delivered ++ [task] }

/-- The transition function.  It answers `none` for a label that is not
enabled and for a call that panics. -/
def step (w : World) : Call → Option World
  | .write pid copied =>
    if w.sys.reader pid = .outside then
      let r := pipeRtWrite w.sys copied
      if r.2 = sizeofTask then
        some { w with sys := r.1, accepted := w.accepted ++ copied.toList }
      else
        some { w with sys := r.1 }
    else none
  | .read pid ok =>
    if w.sys.reader pid = .outside then w.afterRead pid (pipeRtRead w.sys ok) else none
  | .resume pid ok =>
    if w.sys.reader pid = .runnable then w.afterRead pid (pipeRtRead w.sys ok) else none
  | .kill pid =>
    if w.sys.reader pid = .sleeping then
      some { w with sys :=
        { w.sys with reader := update w.sys.reader pid .runnable } }
    else some w
  | .close writable =>
    match pipeRtClose w.sys writable with
    | .error _ => none
    | .ok s => some { w with sys := s }
  | .otherKalloc => (kalloc w.sys.kmem).map fun r => { w with sys := { w.sys with kmem := r.2 } }
  | .otherKfree pa =>
    if pa ∈ w.sys.pipe.head.map PqNode.page then none
    else
      match kfree w.sys.kmem pa with
      | .error _ => none
      | .ok k => some { w with sys := { w.sys with kmem := k } }

/-- The world right after a successful `pipe_rt_alloc`. -/
def Allocated (w : World) : Prop :=
  ∃ (k : Kmem) (ft ft' : Ftable) (fresh : Fresh),
    pipeRtAlloc k ft = .ok (some fresh, w.sys.kmem, ft') ∧
      w.sys.pipe = fresh.pipe ∧ (∀ pid, w.sys.reader pid = .outside) ∧
      w.accepted = [] ∧ w.delivered = []

/-- A successful `pipe_rt_alloc` leaves the pipe with these contents. -/
theorem pipeRtAlloc_pipe {k k' : Kmem} {ft ft' : Ftable} {fresh : Fresh}
    (h : pipeRtAlloc k ft = .ok (some fresh, k', ft')) : fresh.pipe = Pipe.init := by
  unfold pipeRtAlloc at h
  split at h
  · simp at h
  split at h
  · simp at h
  split at h
  · simp at h
  simp only [Except.ok.injEq, Prod.mk.injEq, some.injEq] at h
  rw [← h.1]

/-! ## What a transition can do -/

/-- The part of a transition that the queue and the histories see. -/
inductive Effect (w : World) (c : Call) (w' : World) : Prop where
  /-- A write that was accepted. -/
  | accept (pid : Nat) (task : Task) (hc : c = .write pid (some task))
      (hactive : w.sys.pipe.active = true) (hnread : 0 < w.sys.pipe.nread)
      (hpipe : w'.sys.pipe =
        { w.sys.pipe with head := (pqInsert w.sys.kmem w.sys.pipe.head task).2 })
      (hacc : w'.accepted = w.accepted ++ [task])
      (hdel : w'.delivered = w.delivered)
  /-- A read that unlinked the head: with a good copy it is delivered,
  with a failed one it is lost. -/
  | unlink (n : PqNode) (ok : Bool)
      (hc : ∃ pid, c = .read pid ok ∨ c = .resume pid ok)
      (hhead : w.sys.pipe.head = n :: w'.sys.pipe.head)
      (hpipe : w'.sys.pipe = { w.sys.pipe with head := w'.sys.pipe.head })
      (hacc : w'.accepted = w.accepted)
      (hdel : w'.delivered = w.delivered ++ if ok then [n.task] else [])
  /-- A close that left one end open, or that came after both counters
  had passed zero. -/
  | close (writable : Bool) (hc : c = .close writable)
      (hopen : ¬ ((w.sys.pipe.dropEnd writable).nwrite = 0 ∧
        (w.sys.pipe.dropEnd writable).nread = 0))
      (hpipe : w'.sys.pipe = w.sys.pipe.dropEnd writable)
      (hacc : w'.accepted = w.accepted) (hdel : w'.delivered = w.delivered)
  /-- The close that drained the queue. -/
  | drain (writable : Bool) (hc : c = .close writable)
      (hclosed : (w.sys.pipe.dropEnd writable).nwrite = 0 ∧
        (w.sys.pipe.dropEnd writable).nread = 0)
      (hpipe : w'.sys.pipe =
        { w.sys.pipe.dropEnd writable with head := [], active := false })
      (hacc : w'.accepted = w.accepted) (hdel : w'.delivered = w.delivered)
  /-- Everything else: refused calls, sleeping, waking, other pages. -/
  | quiet (hpipe : w'.sys.pipe = w.sys.pipe)
      (hacc : w'.accepted = w.accepted) (hdel : w'.delivered = w.delivered)

variable {w w' : World}

private theorem afterRead_effect {c : Call} {pid : Nat} {ok : Bool}
    (hc : c = .read pid ok ∨ c = .resume pid ok)
    (h : w.afterRead pid (pipeRtRead w.sys ok) = some w') : Effect w c w' := by
  unfold pipeRtRead at h
  split at h
  · simp only [World.afterRead, some.injEq] at h
    subst h
    exact .quiet rfl rfl rfl
  split at h
  · simp only [World.afterRead, some.injEq] at h
    subst h
    exact .quiet rfl rfl rfl
  cases hhead : w.sys.pipe.head with
  | nil => contradiction
  | cons n rest =>
    rw [hhead, pqRemove] at h
    cases hk : kfree w.sys.kmem n.page with
    | error e =>
      rw [hk] at h
      simp [World.afterRead, bind, Except.bind] at h
    | ok k =>
      rw [hk] at h
      cases ok with
      | true =>
        simp only [World.afterRead, bind, Except.bind, pure, Except.pure, if_true, some.injEq] at h
        subst h
        exact .unlink n true ⟨pid, hc⟩ hhead rfl rfl rfl
      | false =>
        simp only [World.afterRead, bind, Except.bind, pure, Except.pure,
          Bool.false_eq_true, if_false, some.injEq] at h
        subst h
        exact .unlink n false ⟨pid, hc⟩ hhead rfl rfl (by simp)

/-- A write is refused and changes nothing, or it is accepted. -/
theorem pipeRtWrite_cases (s : Sys) (copied : Option Task) :
    pipeRtWrite s copied = (s, -1) ∨
      ∃ task, copied = some task ∧ s.pipe.active = true ∧ 0 < s.pipe.nread ∧
        pipeRtWrite s copied =
          (wakeup { s with
            kmem := (pqInsert s.kmem s.pipe.head task).1
            pipe := { s.pipe with head := (pqInsert s.kmem s.pipe.head task).2 } },
            sizeofTask) := by
  unfold pipeRtWrite
  split
  · exact .inl rfl
  rename_i hopen
  cases copied with
  | none => exact .inl rfl
  | some task =>
    have hactive : s.pipe.active = true := by
      by_contra hf
      exact hopen (.inl (by simp [hf]))
    have hnread : 0 < s.pipe.nread :=
      Int.not_le.mp fun hle => hopen (.inr hle)
    exact .inr ⟨task, rfl, hactive, hnread, rfl⟩

private theorem write_effect {pid : Nat} {copied : Option Task}
    (h : step w (.write pid copied) = some w') : Effect w (.write pid copied) w' := by
  rw [step] at h
  split at h
  · rcases pipeRtWrite_cases w.sys copied with hr | ⟨task, rfl, hactive, hnread, hr⟩
    · rw [hr] at h
      simp only [sizeofTask, Int.reduceNeg, Int.reduceEq, if_false, some.injEq] at h
      subst h
      exact .quiet rfl rfl rfl
    · rw [hr] at h
      simp only [if_true, some.injEq] at h
      subst h
      exact .accept pid task rfl hactive hnread rfl rfl rfl
  · simp at h

private theorem close_effect {writable : Bool} (h : step w (.close writable) = some w') :
    Effect w (.close writable) w' := by
  rw [step] at h
  split at h
  · simp at h
  rename_i s hs
  simp only [some.injEq] at h
  subst h
  unfold pipeRtClose at hs
  have hpipe : (if writable then wakeup { w.sys with pipe := w.sys.pipe.dropEnd writable }
      else { w.sys with pipe := w.sys.pipe.dropEnd writable }).pipe
        = w.sys.pipe.dropEnd writable := by
    cases writable <;> rfl
  simp only [hpipe] at hs
  split at hs
  · rename_i hclosed
    simp only [bind_eq_ok, pure_eq_ok] at hs
    obtain ⟨k, -, rfl⟩ := hs
    exact .drain writable rfl hclosed rfl rfl rfl
  rename_i hopen
  simp only [Except.ok.injEq] at hs
  subst hs
  exact .close writable rfl hopen hpipe rfl rfl

/-- Every transition has one of the effects. -/
theorem step_cases {c : Call} (h : step w c = some w') : Effect w c w' := by
  cases c with
  | write pid copied => exact write_effect h
  | read pid ok =>
    rw [step] at h
    split at h
    · exact afterRead_effect (.inl rfl) h
    · simp at h
  | resume pid ok =>
    rw [step] at h
    split at h
    · exact afterRead_effect (.inr rfl) h
    · simp at h
  | kill pid =>
    rw [step] at h
    split at h
    all_goals
      simp only [some.injEq] at h
      subst h
      exact .quiet rfl rfl rfl
  | close writable => exact close_effect h
  | otherKalloc =>
    rw [step] at h
    simp only [map_eq_some_iff] at h
    obtain ⟨r, -, rfl⟩ := h
    exact .quiet rfl rfl rfl
  | otherKfree pa =>
    rw [step] at h
    split at h
    · simp at h
    split at h
    · simp at h
    simp only [some.injEq] at h
    subst h
    exact .quiet rfl rfl rfl

end Xv6.PipeRt
