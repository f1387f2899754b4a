import Xv6.PipeRt.Sleep

/-!
# Priority pipes and the memory of the caller

`pipe_rt_write` and `pipe_rt_read` with the bytes that `copyin` and `copyout`
move.  `Xv6.PipeRt.Pipe` takes the outcome of a copy as given; here it follows
from the page table of the caller and the address.

The calls have two steps each, and the second one can fail after the first.  A
write allocates a node after the task is copied, and nobody looks whether the
allocation worked.  A read unlinks the task before it is copied out, and does
not put it back.
-/

namespace Xv6.PipeRt

open Xv6.Lib

/-! ## `pipe_rt_write` -/

/-- `pipe_rt_write` by a process with the page table `pt`. -/
def pipeRtWriteAt (s : Sys) (pt : PageTable) (ram : Ram) (addr : Nat) : Sys × Int :=
  pipeRtWrite s ((copyinRam pt ram addr 40).map Task.decode)

/-- The queue `q'` is `q` with one more node, which holds the task. -/
def Added (task : Task) (q q' : List PqNode) : Prop :=
  ∃ page front back, q = front ++ back ∧ q' = front ++ ⟨page, task⟩ :: back

theorem Added.length {task : Task} {q q' : List PqNode} (h : Added task q q') :
    q'.length = q.length + 1 := by
  obtain ⟨page, front, back, rfl, rfl⟩ := h
  simp only [List.length_append, List.length_cons]
  omega

/-- Wherever it goes, a node is put into the queue once. -/
theorem added_pqInsertNode (page : Nat) (task : Task) (q : List PqNode) :
    Added task q (pqInsertNode ⟨page, task⟩ q) := by
  cases q with
  | nil => exact ⟨page, [], [], rfl, rfl⟩
  | cons head rest =>
    rw [pqInsertNode]
    split
    · exact ⟨page, [], head :: rest, rfl, rfl⟩
    obtain ⟨front, back, hrest, hins⟩ := insertWhile_split
      (fun n : PqNode => n.task.priority > task.priority) ⟨page, task⟩ rest
    exact ⟨page, head :: front, back, by rw [hrest]; rfl, by rw [hins]; rfl⟩

/-- What is asked of a write of `copied` that leaves the queue `q'`: it answers
`sizeof(task)` if and only if that task has been added, and after `-1` the
queue is what it was. -/
def WriteLaw (copied : Option Task) (q q' : List PqNode) (r : Int) : Prop :=
  (r = sizeofTask ↔ ∃ task, copied = some task ∧ Added task q q') ∧ (r = -1 → q' = q)

/-- A refused write does what is asked. -/
theorem writeLaw_refused (copied : Option Task) (q : List PqNode) : WriteLaw copied q q (-1) := by
  refine ⟨⟨fun h => ?_, ?_⟩, fun _ => rfl⟩
  · exact absurd (show (-1 : Int) = 40 from h) (by decide)
  rintro ⟨task, -, hadded⟩
  have := hadded.length
  omega

/-- An accepted write does what is asked if and only if its node could be
allocated. -/
theorem writeLaw_pqInsert (k : Kmem) (q : List PqNode) (task : Task) :
    WriteLaw (some task) q (pqInsert k q task).2 sizeofTask ↔ k.freelist ≠ [] := by
  have hminus : sizeofTask ≠ -1 := by decide
  rw [pqInsert]
  cases hk : kalloc k with
  | none =>
    have hfree : k.freelist = [] := by
      rw [kalloc] at hk
      split at hk
      · assumption
      · cases hk
    refine ⟨fun h => ?_, fun h => absurd hfree h⟩
    obtain ⟨t, -, hadded⟩ := h.1.1 rfl
    have := hadded.length
    dsimp only at this
    omega
  | some r =>
    obtain ⟨page, k'⟩ := r
    have hfree := (kalloc_eq_some.1 hk).1
    refine ⟨fun _ => by rw [hfree]; exact List.cons_ne_nil _ _, fun _ => ⟨⟨fun _ => ?_,
      fun _ => rfl⟩, fun h => absurd h hminus⟩⟩
    exact ⟨task, rfl, added_pqInsertNode page task q⟩

/-- A write does what is asked if and only if there is a free page when it gets
as far as the allocation. -/
theorem pipeRtWriteAt_law_iff (s : Sys) (pt : PageTable) (ram : Ram) (addr : Nat) :
    WriteLaw ((copyinRam pt ram addr 40).map Task.decode) s.pipe.head
        (pipeRtWriteAt s pt ram addr).1.pipe.head (pipeRtWriteAt s pt ram addr).2 ↔
      (s.pipe.active = true → 0 < s.pipe.nread → (copyinRam pt ram addr 40).isSome →
        s.kmem.freelist ≠ []) := by
  rw [pipeRtWriteAt]
  generalize hcopied : (copyinRam pt ram addr 40).map Task.decode = copied
  have hsome : (copyinRam pt ram addr 40).isSome = copied.isSome := by
    rw [← hcopied, Option.isSome_map]
  rw [hsome]
  by_cases hopen : s.pipe.active = true ∧ 0 < s.pipe.nread
  · have hguard : ¬ ((!s.pipe.active) = true ∨ s.pipe.nread ≤ 0) := by
      rw [hopen.1]
      simpa using hopen.2
    simp only [pipeRtWrite, if_neg hguard]
    cases copied with
    | none => simpa using writeLaw_refused none s.pipe.head
    | some task =>
      show WriteLaw (some task) s.pipe.head (pqInsert s.kmem s.pipe.head task).2 sizeofTask ↔ _
      rw [writeLaw_pqInsert]
      exact ⟨fun h _ _ _ => h, fun h => h hopen.1 hopen.2 rfl⟩
  · have hguard : (!s.pipe.active) = true ∨ s.pipe.nread ≤ 0 := by
      by_contra hboth
      refine hopen ⟨?_, ?_⟩
      · by_contra hf
        exact hboth (.inl (by simp [hf]))
      · by_contra hle
        exact hboth (.inr (Int.not_lt.1 hle))
    simp only [pipeRtWrite, if_pos hguard]
    exact ⟨fun _ ha hn => absurd ⟨ha, hn⟩ hopen, fun _ => writeLaw_refused copied s.pipe.head⟩

/-- An open pipe with one task in it, and no free page. -/
def oneTask : Sys where
  kmem := { kernelEnd := 0, freelist := [] }
  pipe := { head := [⟨8192, Task.zero⟩], nwrite := 1, nread := 1, active := true }
  reader := fun _ => .outside

/-- Without a free page a write answers `sizeof(task)` and the task is gone. -/
theorem pipeRtWriteAt_loses_task :
    (pipeRtWriteAt oneTask (onePage 4096) (fun _ => 1) 0).2 = sizeofTask ∧
      (pipeRtWriteAt oneTask (onePage 4096) (fun _ => 1) 0).1.pipe.head =
        oneTask.pipe.head := by
  have hcopied : ∃ bytes, copyinRam (onePage 4096) (fun _ => 1) 0 40 = some bytes := by
    refine Option.isSome_iff_exists.1 ?_
    decide +kernel
  obtain ⟨bytes, hbytes⟩ := hcopied
  rw [pipeRtWriteAt, hbytes]
  exact ⟨rfl, rfl⟩

/-! ## `pipe_rt_read` -/

/-- One pass of `pipe_rt_read` by a process with the page table `pt`: `none`
where it sleeps, and otherwise the state, the memory and the result. -/
def pipeRtReadAt (s : Sys) (pt : PageTable) (ram : Ram) (addr : Nat) :
    Except Panic (Option (Sys × Ram × Int)) :=
  if s.pipe.head = [] ∧ s.pipe.active ∧ s.pipe.nwrite > 0 then
    .ok none
  else if s.pipe.head = [] then
    .ok (some (s, ram, -1))
  else do
    let (task, k, head) ← pqRemove s.kmem s.pipe.head
    let r := copyoutRam pt ram addr (task.encode)
    return some ({ s with kmem := k, pipe := { s.pipe with head := head } }, r.2,
      if r.1 then sizeofTask else -1)

/-- The 40 bytes at the address can be written. -/
def Writable (pt : PageTable) (addr : Nat) : Prop := storable pt addr 40 = 40

instance (pt : PageTable) (addr : Nat) : Decidable (Writable pt addr) :=
  inferInstanceAs (Decidable (_ = _))

/-- A pass that unlinks the head `n`. -/
theorem pipeRtReadAt_cons {s : Sys} {pt : PageTable} {ram : Ram} {addr : Nat}
    {n : PqNode} {rest : List PqNode} (hhead : s.pipe.head = n :: rest)
    {k : Kmem} (hk : kfree s.kmem n.page = .ok k) : pipeRtReadAt s pt ram addr =
      .ok (some ({ s with kmem := k, pipe := { s.pipe with head := rest } },
        (copyoutRam pt ram addr (n.task.encode)).2,
        if Writable pt addr then sizeofTask else -1)) := by
  have hok : (copyoutRam pt ram addr (n.task.encode)).1 = true ↔ Writable pt addr := by
    rw [copyoutRam_ok_iff, Task.encode_length, Writable]
  have hne : s.pipe.head ≠ [] := by
    rw [hhead]
    exact List.cons_ne_nil _ _
  rw [pipeRtReadAt, if_neg (fun h => hne h.1), if_neg hne, hhead, pqRemove, hk]
  simp only [← hok]
  rfl

/-- What is asked of a read that leaves the queue `q'` and the memory `ram'`:
after `-1` the queue has the same tasks in the same order, and after
`sizeof(task)` it has lost its head, and the bytes of that task are at the
address. -/
def ReadLaw (pt : PageTable) (addr : Nat) (q q' : List PqNode)
    (ram' : Ram) (r : Int) : Prop :=
  (r = -1 → tasks q' = tasks q) ∧
  (r = sizeofTask → ∃ n, q = n :: q' ∧ ∀ j < 40, ∃ a, userByte pt (addr + j) = some a ∧
    ram' a = (n.task.encode).getD j 0)

/-- A read that finds a task does what is asked if and only if the caller can
write the bytes at the address. -/
theorem readLaw_cons {pt : PageTable} (hpt : AlignedFrames pt) (ram : Ram) (addr : Nat)
    (n : PqNode) (rest : List PqNode) :
    ReadLaw pt addr (n :: rest) rest (copyoutRam pt ram addr (n.task.encode)).2
        (if Writable pt addr then sizeofTask else -1) ↔ Writable pt addr := by
  have hlen := n.task.encode_length
  by_cases hw : Writable pt addr
  · refine ⟨fun _ => hw, fun _ => ⟨fun h => ?_, fun _ => ⟨n, rfl, fun j hj => ?_⟩⟩⟩
    · rw [if_pos hw] at h
      exact absurd h (by decide)
    · refine copyoutRam_stored hpt (by rw [hlen]; decide) ?_ (by omega)
      rwa [copyoutRam_ok_iff, hlen]
  · refine ⟨fun h => ?_, fun h => absurd h hw⟩
    have hsame := congrArg List.length (h.1 (if_neg hw))
    simp [tasks] at hsame

/-- In every state a pass that returns does what is asked if and only if the
caller can write the bytes at the address, or there is no task to read. -/
theorem pipeRtReadAt_law_iff {pt : PageTable} (hpt : AlignedFrames pt) (s : Sys) (ram : Ram)
    (addr : Nat) :
    (∀ s' ram' r, pipeRtReadAt s pt ram addr = .ok (some (s', ram', r)) →
        ReadLaw pt addr s.pipe.head s'.pipe.head ram' r) ↔
      (∀ n ∈ s.pipe.head.head?, s.kmem.IsPage n.page → Writable pt addr) := by
  cases hhead : s.pipe.head with
  | nil =>
    refine ⟨fun _ n hn => (by cases hn), fun _ s' ram' r h => ?_⟩
    rw [pipeRtReadAt] at h
    split at h
    · cases h
    · simp only [Except.ok.injEq, Option.some.injEq, Prod.mk.injEq] at h
      obtain ⟨rfl, -, rfl⟩ := h
      rw [hhead]
      exact ⟨fun _ => rfl, fun h => absurd (show (-1 : Int) = 40 from h) (by decide)⟩
  | cons n rest =>
    by_cases hpage : s.kmem.IsPage n.page
    · have hk : kfree s.kmem n.page = .ok { s.kmem with freelist := n.page :: s.kmem.freelist } :=
        kfree_eq_ok.2 ⟨hpage, rfl⟩
      rw [pipeRtReadAt_cons hhead hk]
      refine ⟨fun h m hm _ => ?_, fun h s' ram' r heq => ?_⟩
      · exact (readLaw_cons hpt ram addr n rest).1 (h _ _ _ rfl)
      · simp only [Except.ok.injEq, Option.some.injEq, Prod.mk.injEq] at heq
        obtain ⟨rfl, rfl, rfl⟩ := heq
        exact (readLaw_cons hpt ram addr n rest).2 (h n rfl hpage)
    · -- `kfree` panics, and the call does not return
      have hne : s.pipe.head ≠ [] := by
        rw [hhead]
        exact List.cons_ne_nil _ _
      refine ⟨fun _ m hm hm' => ?_, fun _ s' ram' r h => ?_⟩
      · cases hm
        exact absurd hm' hpage
      · rw [pipeRtReadAt, if_neg (fun h => hne h.1), if_neg hne, hhead, pqRemove, kfree,
          if_neg hpage] at h
        cases h

/-- A read to an address that is not mapped answers `-1`, and the task is
gone. -/
theorem pipeRtReadAt_loses_task : ∃ s' ram', pipeRtReadAt oneTask (onePage 4096) (fun _ => 1) 4096 =
        .ok (some (s', ram', -1)) ∧
      tasks oneTask.pipe.head = [Task.zero] ∧ tasks s'.pipe.head = [] := by
  have hk : kfree oneTask.kmem 8192 = .ok { kernelEnd := 0, freelist := [8192] } := rfl
  have hw : ¬ Writable (onePage 4096) 4096 := by decide +kernel
  rw [pipeRtReadAt_cons rfl hk, if_neg hw]
  exact ⟨_, _, rfl, rfl, rfl⟩

theorem pipeRtReadAt_law_iff_onePage : AlignedFrames (onePage 4096) ∧
    ∀ s' ram' r, pipeRtReadAt oneTask (onePage 4096) (fun _ => 1) 0 = .ok (some (s', ram', r)) →
      ReadLaw (onePage 4096) 0 oneTask.pipe.head s'.pipe.head ram' r := by
  have hpt : AlignedFrames (onePage 4096) := alignedFrames_onePage rfl
  exact ⟨hpt, (pipeRtReadAt_law_iff hpt oneTask (fun _ => 1) 0).2 fun _ _ _ => by decide +kernel⟩

end Xv6.PipeRt
