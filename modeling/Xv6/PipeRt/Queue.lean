import Xv6.Kalloc
import Xv6.Lib.InsertWhile

/-!
# The queue of a priority pipe

`pq_insert` and `pq_remove` of `proj2/kernel/pipe_rt.c`.  The list that
hangs from `p->head` is reachable from that pointer only, and the code
touches it under `p->lock`, so a Lean list stands for it: a node is the
page that `kalloc` gave for it and the task in it, and the tail of the
list is its `next` pointer.

The queue is kept in descending priority (`Descending`).  `pq_insert`
compares with `>` twice.  Against the head this puts a task behind a head
of its own priority; against the inner nodes it puts the task in front of
those of its own priority.  `pqInsertNode_stable` says when the second
comparison does no harm.
-/

namespace Xv6.PipeRt

open List Xv6.Lib

/-- `struct task_t`.  The last two fields are user pointers that the
kernel only copies. -/
structure Task where
  priority : Int
  pid : Int
  x : Int
  y : Int
  op : UInt8
  result : Nat
  error : Nat
  deriving DecidableEq, Repr

/-- The task `{0}` that `pq_remove` answers for an empty list. -/
def Task.zero : Task := ⟨0, 0, 0, 0, 0, 0, 0⟩

/-- `struct pq_node`, with the page it lives in. -/
structure PqNode where
  page : Nat
  task : Task
  deriving DecidableEq, Repr

/-- The placement that `pq_insert` makes for a node it has allocated. -/
def pqInsertNode (new : PqNode) : List PqNode → List PqNode
  | [] => [new]
  | head :: rest =>
    if new.task.priority > head.task.priority then
      new :: head :: rest
    else
      -- `current` starts at the head, so the head itself is never compared again
      head :: insertWhile (fun n => n.task.priority > new.task.priority) new rest

/-- `pq_insert`.  When `kalloc` fails the function returns and the task is
dropped. -/
def pqInsert (k : Kmem) (head : List PqNode) (task : Task) :
    Kmem × List PqNode :=
  match kalloc k with
  | none => (k, head)
  | some (page, k') => (k', pqInsertNode ⟨page, task⟩ head)

/-- `pq_remove`: unlink the head, free its page and return its task. -/
def pqRemove (k : Kmem) : List PqNode → Except Panic (Task × Kmem × List PqNode)
  | [] => .ok (Task.zero, k, [])
  | temp :: next => do
    let k' ← kfree k temp.page
    return (temp.task, k', next)

/-- The loop `while (p->head) pq_remove(&p->head)` of `pipe_rt_close`. -/
def pqDrain (k : Kmem) : List PqNode → Except Panic Kmem
  | [] => .ok k
  | temp :: next => do
    let k' ← kfree k temp.page
    pqDrain k' next

/-! ## Order and contents -/

/-- No node has a higher priority than a node in front of it. -/
def Descending (q : List PqNode) : Prop :=
  q.Pairwise fun a b => b.task.priority ≤ a.task.priority

/-- The tasks in a queue, from the head. -/
def tasks (q : List PqNode) : List Task := q.map PqNode.task

@[simp] theorem tasks_nil : tasks [] = [] := rfl

@[simp] theorem tasks_cons (n : PqNode) (q : List PqNode) :
    tasks (n :: q) = n.task :: tasks q := rfl

theorem pqInsertNode_perm (new : PqNode) (q : List PqNode) :
    (pqInsertNode new q).Perm (new :: q) := by
  cases q with
  | nil => exact List.Perm.refl _
  | cons head rest =>
    rw [pqInsertNode]
    split
    · exact List.Perm.refl _
    · exact ((insertWhile_perm _ new rest).cons head).trans (List.Perm.swap new head rest)

variable {q : List PqNode} {new : PqNode}

/-- Both branches keep the queue in descending priority. -/
theorem pqInsertNode_descending (h : Descending q) : Descending (pqInsertNode new q) := by
  cases q with
  | nil => exact pairwise_singleton _ new
  | cons head rest =>
    obtain ⟨hhead, hrest⟩ := pairwise_cons.mp h
    rw [pqInsertNode]
    split
    · rename_i hgt
      refine pairwise_cons.mpr ⟨?_, h⟩
      intro b hb
      rcases mem_cons.mp hb with rfl | hb
      · omega
      have := hhead b hb
      omega
    rename_i hle
    refine pairwise_cons.mpr ⟨?_, ?_⟩
    · intro b hb
      rcases mem_cons.mp ((insertWhile_perm _ new rest).mem_iff.mp hb) with rfl | hb
      · omega
      · exact hhead b hb
    refine insertWhile_pairwise (fun a b c hab hbc => by omega) hrest ?_ ?_
    · intro a _ ha
      have := of_decide_eq_true ha
      omega
    intro a _ ha
    have := of_decide_eq_false ha
    omega

/-- The head of a queue in descending priority has the highest one. -/
theorem Descending.le_head {head : PqNode} {rest : List PqNode} (h : Descending (head :: rest)) :
    ∀ n ∈ head :: rest, n.task.priority ≤ head.task.priority := by
  intro n hn
  rcases mem_cons.mp hn with rfl | hn
  · exact Int.le_refl _
  · exact (pairwise_cons.mp h).1 n hn

/-! ## Order among equals -/

/-- The tasks of priority `c`, in the order of the list. -/
def ofPriority (c : Int) (ts : List Task) : List Task :=
  ts.filter fun t => t.priority = c

/-- No node behind the head has the priority of `task`.  This is the
state in which the inner comparison of `pq_insert` cannot put `task` in
front of an equal. -/
def NoEqualBehindHead (task : Task) (q : List PqNode) : Prop :=
  ∀ n ∈ q.tail, n.task.priority ≠ task.priority

instance (task : Task) (q : List PqNode) :
    Decidable (NoEqualBehindHead task q) :=
  inferInstanceAs (Decidable (∀ n ∈ q.tail, _))

private theorem ofPriority_tasks (q : List PqNode) (c : Int) : ofPriority c (tasks q)
      = tasks (q.filter fun n => decide (n.task.priority = c)) := by
  rw [ofPriority, tasks, List.filter_map]
  rfl

/-- A node that outranks the head of a descending queue has no equal in
it. -/
private theorem filter_eq_nil_of_gt_head {head : PqNode} {rest : List PqNode}
    {c : Int} (hq : Descending (head :: rest)) (hc : head.task.priority < c) :
    (head :: rest).filter (fun n => decide (n.task.priority = c)) = [] := by
  rw [filter_eq_nil_iff]
  intro n hn hpri
  have hle := hq.le_head n hn
  have heq : n.task.priority = c := of_decide_eq_true hpri
  omega

private theorem filter_pqInsertNode
    (hq : Descending q) (h : NoEqualBehindHead new.task q) (c : Int) :
    (pqInsertNode new q).filter (fun n => decide (n.task.priority = c))
      = q.filter (fun n => decide (n.task.priority = c))
        ++ [new].filter (fun n => decide (n.task.priority = c)) := by
  cases q with
  | nil => rfl
  | cons head rest =>
    rw [pqInsertNode]
    by_cases hc : new.task.priority = c
    · have hnew : [new].filter (fun n => decide (n.task.priority = c)) = [new] := by simp [hc]
      split
      · rename_i hgt
        rw [filter_cons, if_pos (by simpa using hc), filter_eq_nil_of_gt_head hq (by omega), hnew]
        rfl
      have hrest : ∀ n ∈ rest, decide (n.task.priority = c) = false := by
        intro n hn
        have hne := h n hn
        exact decide_eq_false (by omega)
      have hins : (insertWhile (fun n => n.task.priority > new.task.priority)
          new rest).filter (fun n => decide (n.task.priority = c))
            = rest.filter (fun n => decide (n.task.priority = c)) ++ [new] := by
        refine filter_insertWhile (decide_eq_true hc) ?_ ?_
        · intro n hn hpri
          rw [hrest n hn] at hpri
          exact absurd hpri (by decide)
        · exact List.Pairwise.imp_of_mem (fun _ hn _ _ => hrest _ hn)
            (pairwise_of_forall (R := fun _ _ => True) fun _ _ => trivial)
      rw [filter_cons, hins, hnew, filter_cons]
      split <;> rfl
    · have hnew : [new].filter (fun n => decide (n.task.priority = c)) = [] := by simp [hc]
      rw [hnew, append_nil]
      split
      · rw [filter_cons, if_neg (by simpa using hc)]
      have hins : (insertWhile (fun n => n.task.priority > new.task.priority)
          new rest).filter (fun n => decide (n.task.priority = c))
            = rest.filter (fun n => decide (n.task.priority = c)) :=
        filter_insertWhile_of_neg (decide_eq_false hc)
      rw [filter_cons, filter_cons, hins]

/-- With no equal behind the head, the new task becomes the last of its
priority, and the other priorities keep their order. -/
theorem pqInsertNode_stable (hq : Descending q) (h : NoEqualBehindHead new.task q) (c : Int) :
    ofPriority c (tasks (pqInsertNode new q))
      = ofPriority c (tasks q) ++ ofPriority c [new.task] := by
  have hnew : [new.task] = tasks [new] := rfl
  rw [hnew, ofPriority_tasks, ofPriority_tasks, ofPriority_tasks,
    filter_pqInsertNode hq h c, tasks, tasks, tasks, map_append]

end Xv6.PipeRt
