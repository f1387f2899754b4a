import Xv6.Lib.Family
import Xv6.PipeRt.Files

/-!
# The ends of priority pipes

What the calls on descriptors keep.  Every page is on the free list, held by
the rest of the kernel, or used by one pipe (`Memory`).  A file's reference
count is the number of its descriptors, and the two counters of a pipe say
which of its ends are open (`Inv`).

The lemmas here are about the functions of `file.c` and about one call on a
pipe; `Inv` has parameters for the references that a call holds in between.
-/

namespace Xv6.PipeRt.Files

open Function List Rec State Xv6.Lib

variable {k : Kmem} {writable : Bool} {file : File} {slot : Slot}

/-! ## Pages -/

/-- Every page the system knows. -/
def State.pages (s : State) : List Nat :=
  s.kmem.freelist ++ s.others ++ s.pipes.flatMap Rec.inUse

/-- No page is in two places, and the pages a pipe has taken are those it
uses and those it has given back. -/
structure Memory (s : State) : Prop where
  nodup : s.pages.Nodup
  ledger : ∀ r ∈ s.pipes, r.taken.Perm (r.inUse ++ r.given)

/-- What a call on a pipe does with pages: a free page becomes a queue node,
or queue nodes become free pages. -/
inductive Moves (k : Kmem) (p : Pipe) (k' : Kmem) (p' : Pipe) : Prop where
  | take (pa : Nat) (hfree : k.freelist = pa :: k'.freelist)
      (hnodes : (p'.head.map PqNode.page).Perm (pa :: p.head.map PqNode.page))
  | give (pas : List Nat) (hfree : k'.freelist = pas ++ k.freelist)
      (hnodes : (p.head.map PqNode.page).Perm (pas ++ p'.head.map PqNode.page))

theorem Moves.quiet (k : Kmem) {p p' : Pipe} (h : p'.head = p.head) : Moves k p k p' :=
  .give [] rfl (by rw [h]; exact Perm.refl _)

theorem pqDrain_freelist {k' : Kmem} {q : List PqNode} (h : pqDrain k q = .ok k') :
    k'.freelist = (q.map PqNode.page).reverse ++ k.freelist := by
  induction q generalizing k with
  | nil =>
    cases h
    rfl
  | cons n q ih =>
    simp only [pqDrain, bind_eq_ok, kfree_eq_ok] at h
    obtain ⟨k1, ⟨-, rfl⟩, hrest⟩ := h
    rw [ih hrest]
    simp

theorem pqInsert_moves (k : Kmem) (p : Pipe) (task : Task) :
    Moves k p (pqInsert k p.head task).1 { p with head := (pqInsert k p.head task).2 } := by
  unfold pqInsert
  split
  · exact .quiet k rfl
  rename_i pa k' hk
  exact .take pa (kalloc_eq_some.1 hk).1 ((pqInsertNode_perm ⟨pa, task⟩ p.head).map _)

theorem pipeRtWrite_moves (s : Sys) (copied : Option Task) :
    Moves s.kmem s.pipe (pipeRtWrite s copied).1.kmem (pipeRtWrite s copied).1.pipe := by
  rcases pipeRtWrite_cases s copied with h | ⟨task, -, -, -, h⟩
  · rw [h]
    exact .quiet _ rfl
  · rw [h]
    exact pqInsert_moves s.kmem s.pipe task

/-- What a pass of a reader that does not sleep does with the pipe. -/
theorem pipeRtRead_moves {s t : Sys} {ok : Bool}
    (h : pipeRtRead s ok = .ok (.fail t) ∨ ∃ task, pipeRtRead s ok = .ok (.deliver task t)) :
    Moves s.kmem s.pipe t.kmem t.pipe ∧ t.pipe = { s.pipe with head := t.pipe.head } ∧
      (s.pipe.head = [] → t.pipe.head = []) := by
  unfold pipeRtRead at h
  split at h
  · rcases h with h | ⟨task, h⟩ <;> cases h
  split at h
  · rename_i hnil
    rcases h with h | ⟨task, h⟩ <;> cases h
    exact ⟨.quiet _ rfl, rfl, id⟩
  rename_i hne
  cases hhead : s.pipe.head with
  | nil => exact absurd hhead hne
  | cons n rest =>
    have hgive : ∀ k, kfree s.kmem n.page = .ok k →
        Moves s.kmem s.pipe k { s.pipe with head := rest } := by
      intro k hk
      rw [kfree_eq_ok] at hk
      refine .give [n.page] ?_ ?_
      · rw [hk.2]
        rfl
      · simp [hhead]
    rw [hhead, pqRemove] at h
    rcases h with h | ⟨task, h⟩
    · simp only [bind_eq_ok, pure_eq_ok] at h
      obtain ⟨_, ⟨k, hk, rfl⟩, h⟩ := h
      cases ok
      · cases h
        exact ⟨hgive k hk, rfl, fun hn => absurd hn (by simp)⟩
      · cases h
    simp only [bind_eq_ok, pure_eq_ok] at h
    obtain ⟨_, ⟨k, hk, rfl⟩, h⟩ := h
    cases ok
    · cases h
    cases h
    exact ⟨hgive k hk, rfl, fun hn => absurd hn (by simp)⟩

/-- What `pipe_rt_close` does with the pipe. -/
theorem pipeRtClose_moves {s t : Sys} (h : pipeRtClose s writable = .ok t) :
    Moves s.kmem s.pipe t.kmem t.pipe ∧ t.pipe.nwrite = (s.pipe.dropEnd writable).nwrite ∧
      t.pipe.nread = (s.pipe.dropEnd writable).nread ∧
      (t.pipe.nread = 0 → t.pipe.nwrite = 0 → t.pipe.head = [] ∧ t.pipe.active = false) := by
  have hkeep : (s.pipe.dropEnd writable).head = s.pipe.head := by cases writable <;> rfl
  have hmid : ∀ s2 : Sys, s2 = (if writable then
        wakeup { s with pipe := s.pipe.dropEnd writable }
      else { s with pipe := s.pipe.dropEnd writable }) →
      s2.pipe = s.pipe.dropEnd writable ∧ s2.kmem = s.kmem := by
    rintro s2 rfl
    cases writable <;> exact ⟨rfl, rfl⟩
  unfold pipeRtClose at h
  obtain ⟨hpipe, hkmem⟩ := hmid _ rfl
  dsimp only at h
  rw [hpipe, hkmem] at h
  split at h
  · simp only [bind_eq_ok, pure_eq_ok] at h
    obtain ⟨k, hk, rfl⟩ := h
    refine ⟨.give _ (pqDrain_freelist hk) ?_, rfl, rfl, fun _ _ => ⟨rfl, rfl⟩⟩
    rw [hkeep]
    simp
  · rename_i hopen
    cases h
    rw [hpipe, hkmem]
    exact ⟨.quiet _ hkeep, rfl, rfl, fun hr hw => absurd ⟨hw, hr⟩ hopen⟩

/-- The one pipe that a call changes. -/
theorem Memory.split {s : State} (hmem : Memory s) {r : Rec} (hr : r ∈ s.pipes)
    (k : Kmem) (pipe : Pipe) : ∃ l1 l2, s.pipes = l1 ++ r :: l2 ∧
      (s.setPipe r k pipe).pipes = l1 ++ r.after s.kmem k pipe :: l2 := by
  obtain ⟨l1, l2, hsplit⟩ := append_of_mem hr
  have hnodup := hmem.nodup
  rw [pages, hsplit] at hnodup
  have hother : ∀ q, q ∈ l1 ∨ q ∈ l2 → q.page ≠ r.page := by
    intro q hq heq
    have hcount := nodup_iff_count_le_one.1 hnodup r.page
    have hself : 0 < r.inUse.count r.page :=
      count_pos_iff.2 (by simp [inUse])
    have hpage : r.page ∈ q.inUse := by simp [inUse, heq]
    rcases hq with hq | hq
    · have : 0 < (l1.flatMap inUse).count r.page :=
        count_pos_iff.2 (mem_flatMap.2 ⟨q, hq, hpage⟩)
      simp only [flatMap_append, flatMap_cons, count_append] at hcount
      omega
    have : 0 < (l2.flatMap inUse).count r.page :=
      count_pos_iff.2 (mem_flatMap.2 ⟨q, hq, hpage⟩)
    simp only [flatMap_append, flatMap_cons, count_append] at hcount
    omega
  have hmap : ∀ l : List Rec, (∀ q ∈ l, q.page ≠ r.page) →
      (l.map fun q => if q.page = r.page then r.after s.kmem k pipe else q) = l := by
    intro l hl
    calc l.map _ = l.map id := map_congr_left fun q hq => if_neg (hl q hq)
      _ = l := map_id l
  refine ⟨l1, l2, hsplit, ?_⟩
  rw [setPipe, hsplit]
  simp only [map_append, map_cons, if_true]
  rw [hmap l1 fun q hq => hother q (.inl hq), hmap l2 fun q hq => hother q (.inr hq)]

/-- Pages that only change places stay accounted for. -/
theorem Memory.setPipe {s : State} (hmem : Memory s) {r : Rec} (hr : r ∈ s.pipes) {pipe : Pipe}
    (hmoves : Moves s.kmem r.pipe k pipe) : Memory (s.setPipe r k pipe) := by
  obtain ⟨l1, l2, hold, hnew⟩ := hmem.split hr k pipe
  have hledger := hmem.ledger r hr
  -- the free list and the nodes together keep their pages
  have hperm : (k.freelist ++ (r.after s.kmem k pipe).inUse).Perm (s.kmem.freelist ++ r.inUse) := by
    rw [perm_iff_count]
    intro a
    cases hmoves with
    | take pa hfree hnodes | give pas hfree hnodes =>
      have := hnodes.count_eq a
      simp only [inUse, Rec.nodes, Rec.after, hfree, count_append, count_cons] at *
      omega
  constructor
  · have hall : (s.setPipe r k pipe).pages.Perm s.pages := by
      rw [pages, pages, hnew, hold, perm_iff_count]
      intro a
      have := hperm.count_eq a
      simp only [State.setPipe, flatMap_append, flatMap_cons, count_append] at *
      omega
    exact hall.nodup_iff.2 hmem.nodup
  intro q hq
  rw [hnew] at hq
  rcases mem_append.1 hq with hq | hq
  · exact hmem.ledger q (by rw [hold]; exact mem_append_left _ hq)
  rcases mem_cons.1 hq with rfl | hq
  · rw [perm_iff_count] at hledger ⊢
    intro a
    have hl := hledger a
    cases hmoves with
    | take pa hfree hnodes =>
      have := hnodes.count_eq a
      simp only [inUse, Rec.nodes, Rec.after, hfree, count_append, count_cons,
        length_cons, Nat.add_sub_cancel_left, take_succ_cons,
        take_zero, append_nil, count_nil,
        show k.freelist.length - (k.freelist.length + 1) = 0 by omega] at *
      omega
    | give pas hfree hnodes =>
      have := hnodes.count_eq a
      simp only [inUse, Rec.nodes, Rec.after, hfree, count_append, count_cons,
        length_append, Nat.add_sub_cancel, take_left,
        show s.kmem.freelist.length - (pas.length + s.kmem.freelist.length) = 0 by omega,
        take_zero, append_nil] at *
      omega
  · refine hmem.ledger q ?_
    rw [hold]
    exact mem_append_right _ (mem_cons_of_mem _ hq)

/-! ## Descriptors and ends -/

/-- One if the file is the given end of the pipe in `page`. -/
def endOf (page : Nat) (writable : Bool) (file : File) : Nat :=
  if file.type = .pipeRt ∧ file.pipe = page ∧ (file.writable != 0) = writable then 1 else 0

/-- The open files that are the given end of the pipe in `page`. -/
def State.ends (s : State) (page : Nat) (writable : Bool) : Nat :=
  ∑ f, endOf page writable (s.ftable f)

/-- One if the entry of a descriptor table names the file. -/
def slotOf (f : Fin NFILE) (entry : Option (Fin NFILE)) : Nat := if entry = some f then 1 else 0

/-- The descriptors of a file. -/
def State.slots (s : State) (f : Fin NFILE) : Nat := ∑ slot, slotOf f (s.ofile slot)

theorem endOf_eq_zero {page : Nat}
    (h : ¬ (file.type = .pipeRt ∧ file.pipe = page)) : endOf page writable file = 0 :=
  if_neg fun hend => h ⟨hend.1, hend.2.1⟩

theorem filealloc_eq_some {ft ft' : Ftable} {f : Fin NFILE} (h : Xv6.filealloc ft = some (f, ft')) :
    (ft f).ref = 0 ∧ ft' = update ft f { ft f with ref := 1 } := by
  unfold Xv6.filealloc at h
  split at h
  · cases h
  rename_i hfind
  cases h
  exact ⟨by simpa using find?_some hfind, rfl⟩

theorem setSlot_of_ne (s : State) {slot' : Slot} (entry : Option (Fin NFILE))
    (h : slot' ≠ slot) : (s.setSlot slot entry).ofile slot' = s.ofile slot' :=
  update_of_ne h _ _

theorem setSlot_self (s : State) (slot : Slot) (entry : Option (Fin NFILE)) :
    (s.setSlot slot entry).ofile slot = entry :=
  update_self _ _ _

theorem fdalloc_eq_some {s t : State} {p : Fin NPROC} {f : Fin NFILE} {fd : Fin NOFILE}
    (h : fdalloc s p f = some (fd, t)) :
    s.ofile (p, fd) = none ∧ t = s.setSlot (p, fd) (some f) := by
  unfold fdalloc at h
  split at h
  · cases h
  rename_i hfind
  cases h
  exact ⟨by simpa using find?_some hfind, rfl⟩

/-- One if `owed` is the given end of the pipe in `page`. -/
def due (owed : Option (Nat × Bool)) (page : Nat) (writable : Bool) : Nat :=
  if owed = some (page, writable) then 1 else 0

/-- What holds between two calls, and inside a call that has references to
the files `hand` besides those of the descriptors, and that still has to
call `pipe_rt_close` for the end `owed`. -/
structure Inv (s : State) (hand : List (Fin NFILE)) (owed : Option (Nat × Bool)) : Prop
    extends Memory s where
  refs : ∀ f, (s.ftable f).ref = s.slots f + hand.count f
  free : ∀ f, (s.ftable f).ref = 0 → (s.ftable f).type = .none
  known : ∀ f, (s.ftable f).type = .pipeRt → ∃ r ∈ s.pipes, r.page = (s.ftable f).pipe
  owes : ∀ page writable, owed = some (page, writable) → ∃ r ∈ s.pipes, r.page = page
  nread : ∀ r ∈ s.pipes, r.pipe.nread = (s.ends r.page false + due owed r.page false : Nat)
  nwrite : ∀ r ∈ s.pipes, r.pipe.nwrite = (s.ends r.page true + due owed r.page true : Nat)
  drained : ∀ r ∈ s.pipes, r.pipe.nread = 0 → r.pipe.nwrite = 0 →
    r.pipe.head = [] ∧ r.pipe.active = false

namespace Inv

variable {s t : State} {hand hand' : List (Fin NFILE)} {owed owed' : Option (Nat × Bool)}
  {f : Fin NFILE} {r : Rec}

theorem boot (h : Boot s) : Inv s [] none where
  nodup := by
    rw [pages, h.pipes]
    simpa using h.pages
  ledger := by simp [h.pipes]
  refs f := by simp [slots, slotOf, h.ofile, (h.ftable f).1]
  free f _ := (h.ftable f).2
  known f hf := by simp [(h.ftable f).2] at hf
  owes := by simp
  nread := by rw [h.pipes]; nofun
  nwrite := by rw [h.pipes]; nofun
  drained := by simp [h.pipes]

/-- A reference moves between a descriptor and the call. -/
theorem setSlot (h : Inv s hand owed) {entry : Option (Fin NFILE)}
    (hmove : ∀ g, slotOf g entry + hand'.count g = slotOf g (s.ofile slot) + hand.count g) :
    Inv (s.setSlot slot entry) hand' owed where
  toMemory := ⟨h.nodup, h.ledger⟩
  refs g := by
    have hsum := sum_update s.ofile (slotOf g) slot entry
    have hg := hmove g
    have hold := h.refs g
    simp only [State.setSlot, slots] at *
    omega
  free := h.free
  known := h.known
  owes := h.owes
  nread := h.nread
  nwrite := h.nwrite
  drained := h.drained

theorem giveSlot (h : Inv s (f :: hand) owed) (hslot : s.ofile slot = none) :
    Inv (s.setSlot slot (some f)) hand owed := by
  apply h.setSlot
  intro g
  rw [hslot]
  simp only [slotOf, Option.some.injEq, count_cons, beq_iff_eq, reduceCtorEq, if_false]
  omega

theorem clearSlot (h : Inv s hand owed) (hslot : s.ofile slot = some f) :
    Inv (s.setSlot slot none) (f :: hand) owed := by
  apply h.setSlot
  intro g
  rw [hslot]
  simp only [slotOf, Option.some.injEq, count_cons, beq_iff_eq, reduceCtorEq, if_false]
  omega

/-- A file changes; an end that it was is still to be closed. -/
theorem setFile (h : Inv s hand owed)
    (hself : file.ref + hand.count f = (s.ftable f).ref + hand'.count f)
    (hother : ∀ g, g ≠ f → hand'.count g = hand.count g) (hfree : file.ref = 0 → file.type = .none)
    (hknown : file.type = .pipeRt → ∃ r ∈ s.pipes, r.page = file.pipe)
    (howes : ∀ page writable, owed' = some (page, writable) → ∃ r ∈ s.pipes, r.page = page)
    (hends : ∀ page writable, endOf page writable file + due owed' page writable =
      endOf page writable (s.ftable f) + due owed page writable) :
    Inv { s with ftable := update s.ftable f file } hand' owed' := by
  have hsame : ∀ page writable,
      ends { s with ftable := update s.ftable f file } page writable +
        due owed' page writable = s.ends page writable + due owed page writable := by
    intro page writable
    have hsum := sum_update s.ftable (endOf page writable) f file
    have hend := hends page writable
    simp only [ends] at *
    omega
  refine ⟨⟨h.nodup, h.ledger⟩, ?_, ?_, ?_, howes, ?_, ?_, h.drained⟩
  · intro g
    have hold := h.refs g
    by_cases hg : g = f
    · subst hg
      simp only [update_self, slots] at *
      omega
    · simp only [update_of_ne hg, slots] at *
      rw [hold, hother g hg]
  · intro g hg
    by_cases hgf : g = f
    · subst hgf
      simp only [update_self] at hg ⊢
      exact hfree hg
    · simp only [update_of_ne hgf] at hg ⊢
      exact h.free g hg
  · intro g hg
    by_cases hgf : g = f
    · subst hgf
      simp only [update_self] at hg ⊢
      exact hknown hg
    · simp only [update_of_ne hgf] at hg ⊢
      exact h.known g hg
  · intro r hr
    rw [hsame]
    exact h.nread r hr
  · intro r hr
    rw [hsame]
    exact h.nwrite r hr

/-- A call on a pipe. -/
theorem setPipe (h : Inv s hand owed) (hr : r ∈ s.pipes) {pipe : Pipe}
    (hmoves : Moves s.kmem r.pipe k pipe)
    (howes : ∀ page writable, owed' = some (page, writable) → ∃ r ∈ s.pipes, r.page = page)
    (hother : ∀ page writable, page ≠ r.page → due owed' page writable = due owed page writable)
    (hnread : pipe.nread + due owed r.page false = r.pipe.nread + due owed' r.page false)
    (hnwrite : pipe.nwrite + due owed r.page true = r.pipe.nwrite + due owed' r.page true)
    (hdrained : pipe.nread = 0 → pipe.nwrite = 0 → pipe.head = [] ∧ pipe.active = false) :
    Inv (s.setPipe r k pipe) hand owed' := by
  obtain ⟨l1, l2, hold, hnew⟩ := h.toMemory.split hr k pipe
  have hkept : ∀ q ∈ s.pipes, ∃ q' ∈ (s.setPipe r k pipe).pipes, q'.page = q.page := by
    intro q hq
    by_cases hqr : q.page = r.page
    · refine ⟨r.after s.kmem k pipe, ?_, hqr.symm⟩
      rw [hnew]
      simp
    refine ⟨q, ?_, rfl⟩
    rw [State.setPipe, mem_map]
    exact ⟨q, hq, if_neg hqr⟩
  have hmem : ∀ q ∈ (s.setPipe r k pipe).pipes,
      q ∈ s.pipes ∧ q.page ≠ r.page ∨ q = r.after s.kmem k pipe := by
    intro q hq
    rw [State.setPipe, mem_map] at hq
    obtain ⟨q', hq', heq⟩ := hq
    split at heq
    · exact .inr heq.symm
    rename_i hne
    exact .inl ⟨heq ▸ hq', heq ▸ hne⟩
  refine ⟨h.toMemory.setPipe hr hmoves, h.refs, h.free, ?_, ?_, ?_, ?_, ?_⟩
  · intro g hg
    obtain ⟨q, hq, hpage⟩ := h.known g hg
    obtain ⟨q', hq', heq⟩ := hkept q hq
    exact ⟨q', hq', heq.trans hpage⟩
  · intro page writable howed
    obtain ⟨q, hq, hpage⟩ := howes page writable howed
    obtain ⟨q', hq', heq⟩ := hkept q hq
    exact ⟨q', hq', heq.trans hpage⟩
  · intro q hq
    rcases hmem q hq with ⟨hq, hne⟩ | rfl
    · rw [hother q.page false hne]
      exact h.nread q hq
    have hold := h.nread r hr
    simp only [Rec.after, State.setPipe, ends] at *
    omega
  · intro q hq
    rcases hmem q hq with ⟨hq, hne⟩ | rfl
    · rw [hother q.page true hne]
      exact h.nwrite q hq
    have hold := h.nwrite r hr
    simp only [Rec.after, State.setPipe, ends] at *
    omega
  · intro q hq
    rcases hmem q hq with ⟨hq, -⟩ | rfl
    · exact h.drained q hq
    · exact hdrained

/-! ## Functions of `file.c` -/

theorem fdalloc (h : Inv s (f :: hand) owed) {p : Fin NPROC} {fd : Fin NOFILE}
    (hfd : fdalloc s p f = some (fd, t)) : Inv t hand owed := by
  obtain ⟨hnone, rfl⟩ := fdalloc_eq_some hfd
  exact h.giveSlot hnone

theorem filedup (h : Inv s hand owed) (ht : filedup s f = .ok t) : Inv t (f :: hand) owed := by
  unfold Files.filedup at ht
  split at ht
  · cases ht
  cases ht
  apply h.setFile
  · simp
    omega
  · intro g hg
    simp [Ne.symm hg]
  · simp
  · exact h.known f
  · exact h.owes
  · exact fun _ _ => rfl

/-- `pipe_rt_close` for the end that is owed. -/
theorem closeEnd {page : Nat} (h : Inv s hand (some (page, writable)))
    (ht : closeEnd s page writable = .ok t) : Inv t hand none := by
  unfold Files.closeEnd at ht
  split at ht
  · rename_i hnone
    obtain ⟨r, hr, hpage⟩ := h.owes page writable rfl
    have := find?_eq_none.1 hnone r hr
    simp [hpage] at this
  rename_i r hfind
  obtain rfl : r.page = page := by simpa using find?_some hfind
  simp only [bind_eq_ok, pure_eq_ok] at ht
  obtain ⟨u, hu, rfl⟩ := ht
  obtain ⟨hmoves, hnwrite, hnread, hdrained⟩ := pipeRtClose_moves hu
  apply h.setPipe (mem_of_find?_eq_some hfind) hmoves
  · simp
  · intro page writable' hne
    simp [due, Ne.symm hne]
  · rw [hnread]
    cases writable <;> simp [due, Pipe.dropEnd, sys]
  · rw [hnwrite]
    cases writable <;> simp [due, Pipe.dropEnd, sys]
  · exact hdrained

theorem fileclose (h : Inv s (f :: hand) none) (ht : fileclose s f = .ok t) : Inv t hand none := by
  unfold Files.fileclose filecloseTable at ht
  simp only [bind_eq_ok] at ht
  obtain ⟨⟨last, ftable⟩, htable, ht⟩ := ht
  have hother : ∀ g, g ≠ f → hand.count g = (f :: hand).count g := by
    intro g hg
    simp [Ne.symm hg]
  split at htable
  · cases htable
  rename_i hpos
  split at htable
  · cases htable
    cases ht
    apply h.setFile
    · simp
      omega
    · exact hother
    · rename_i hmore
      intro hzero
      exact absurd hzero (Nat.pos_iff_ne_zero.1 hmore)
    · exact h.known f
    · exact h.owes
    · exact fun _ _ => rfl
  rename_i hlast
  cases htable
  dsimp only at ht
  have href : 0 + (f :: hand).count f = (s.ftable f).ref + hand.count f := by
    simp
    omega
  split at ht
  · rename_i htype
    refine closeEnd ?_ ht
    apply h.setFile href hother
    · exact fun _ => rfl
    · exact fun hno => by cases hno
    · intro page writable heq
      cases heq
      exact h.known f htype
    · intro page writable
      simp [endOf, due, htype]
  rename_i htype
  cases ht
  apply h.setFile href hother
  · exact fun _ => rfl
  · exact fun hno => by cases hno
  · exact h.owes
  · intro page writable
    rw [endOf_eq_zero fun hend => htype hend.1, endOf_eq_zero (by simp)]

/-- A file that nobody refers to becomes one that is no end of a priority
pipe. -/
theorem newFile (h : Inv s hand owed) (hzero : (s.ftable f).ref = 0)
    (href : file.ref = 1) (htype : file.type ≠ .pipeRt) :
    Inv { s with ftable := update s.ftable f file } (f :: hand) owed := by
  apply h.setFile
  · simp [href, hzero]
    omega
  · intro g hg
    simp [Ne.symm hg]
  · simp [href]
  · exact fun hno => absurd hno htype
  · exact h.owes
  · intro page writable
    rw [endOf_eq_zero fun hend => htype hend.1, endOf_eq_zero]
    simp [h.free f hzero]

theorem filealloc (h : Inv s hand owed) {ftable : Ftable}
    (hf : Xv6.filealloc s.ftable = some (f, ftable)) :
    Inv { s with ftable := ftable } (f :: hand) owed := by
  obtain ⟨hzero, rfl⟩ := filealloc_eq_some hf
  exact h.newFile hzero rfl (by simp [h.free f hzero])

end Inv

end Xv6.PipeRt.Files
