import Xv6.Proc.Memory

/-!
# What each call does to the memory of all processes

One lemma for each system call of `Xv6.Proc.Model` other than `exec`:
started in a state with the invariant of `Xv6.Proc.Memory`, the call keeps
it, and it reaches none of the panics of a wrong tear-down.
-/

namespace Xv6

open Finset Function Lib Option Proc World

variable {init : List Nat} {held held' : Nat → Nat} {maps maps' : Nat} {w w' : World}
  {p : Fin NPROC} {pt pt' : PageTable}
variable (hinit : Frames init) (h : Inv init held maps w) (hrun : (w.proc p).state = .runnable)
  (hpt : (w.proc p).pagetable = some pt)

/-! ## The caller -/

/-- The frames of fewer pages are fewer frames. -/
theorem frames_le {m : Nat → Option Leaf} {n n' : Nat} (h : n ≤ n') (a : Nat) :
    frames m 0 n a ≤ frames m 0 n' a := by
  unfold frames
  exact sum_le_sum_of_subset (Ico_subset_Ico_right h)

theorem frames_append {m : Nat → Option Leaf} {n n' : Nat} (h : n ≤ n') (a : Nat) :
    frames m 0 n a + frames m n n' a = frames m 0 n' a := by
  unfold frames
  exact sum_Ico_consecutive _ (Nat.zero_le n) h

include hinit h hrun hpt in
/-- The address space of a process that can make calls. -/
theorem Inv.space : Space pt (w.proc p).sz ∧ npages (w.proc p).sz ≤ maxFrames := by
  have hok := h.ok p
  simp only [Ok, hrun] at hok
  obtain ⟨pt', hpt', hspace⟩ := hok
  obtain rfl := some.inj (hpt.symm.trans hpt')
  refine ⟨hspace, ?_⟩
  have hlt := maxFrames_lt
  -- the pages below the shared page alone would be too many
  by_contra hgt
  have hle : maxFrames + 1 ≤ maxFrames := by
    apply hinit.npages_le (m := pt.leafAt)
    · intro v hv
      exact (hspace v (by omega)).2 (.inl (by omega))
    intro a
    have h1 := h.owned_le p a
    have h2 : frames pt.leafAt 0 (maxFrames + 1) a ≤ _ :=
      frames_le (show maxFrames + 1 ≤ npages (w.proc p).sz by omega) a
    rw [owned_of_some hpt] at h1
    omega
  omega

include hinit h hrun hpt in
/-- The page table of the caller changes at the shared page alone. -/
theorem Inv.of_shm (hleaf : ∀ v, v ≠ vpn SHM_VA → pt'.leafAt v = pt.leafAt v)
    (hproc : w'.proc = Function.update w.proc p { w.proc p with pagetable := some pt' })
    (hcount : ∀ a, w'.kmem.freelist.count a + pt'.nodes a + pageAt w'.shmMemory a =
      w.kmem.freelist.count a + pt.nodes a + pageAt w.shmMemory a) (htorn : w'.torn = w.torn)
    (hbalance : w'.shmRefs + maps' + pt.shm = w.shmRefs + maps + pt'.shm) :
    Inv init held maps' w' := by
  obtain ⟨hspace, hn⟩ := h.space hinit hrun hpt
  have hlt := maxFrames_lt
  have hframes : ∀ a, frames pt'.leafAt 0 (npages (w.proc p).sz) a =
      frames pt.leafAt 0 (npages (w.proc p).sz) a :=
    frames_congr fun v _ hv => hleaf v (by omega)
  refine h.update hproc ?_ ?_ ?_ ?_
  · simp only [Ok, hrun]
    refine ⟨pt', rfl, ?_⟩
    intro v hv
    rw [hleaf v hv]
    exact hspace v hv
  · intro a
    have hca := hcount a
    have hfa := hframes a
    rw [owned_of_some hpt, owned_of_some rfl]
    simp only [hfa]
    omega
  · rw [htorn]
    exact h.torn
  · simp only [Proc.shm, hpt, elim_some]
    exact hbalance

/-! ## The shared page -/

/-- Mapping the shared page. -/
theorem mapShm_safe (k : Kmem) (pa : Nat) (perm : Perm) :
    Safe Panic.TearDown (mappages pt SHM_VA PGSIZE pa perm k) fun r =>
      (∀ a, r.2.1.nodes a + r.2.2.freelist.count a = pt.nodes a + k.freelist.count a) ∧
      (r.1 = true ∧ pt.leafAt (vpn SHM_VA) = none ∧ r.2.1.leafAt =
          update pt.leafAt (vpn SHM_VA) (some { pa := pa, perm := perm }) ∨
        r.1 = false ∧ r.2.1.leafAt = pt.leafAt) := by
  have h := @mapPage_safe pt k (vpn SHM_VA) pa perm
  rwa [← mappages_page, ← shm_eq] at h

theorem shm_of_none (h : pt.leafAt (vpn SHM_VA) = none) : pt.shm = 0 := by simp [PageTable.shm, h]

theorem shm_of_some (h : pt.leafAt (vpn SHM_VA) ≠ none) : pt.shm = 1 := by simp [PageTable.shm, h]

theorem shm_congr (h : pt'.leafAt = pt.leafAt) : pt'.shm = pt.shm := by simp only [PageTable.shm, h]

include hinit h hrun hpt in
/-- `sys_shmget` fails, or maps the shared page once more and does not
count it. -/
theorem sysShmget_safe (key : Int) (size : Nat) :
    Safe Halt.TearDown (w.sysShmget p pt key size) fun r =>
      r.1 = -1 ∧ Inv init held maps r.2 ∨ r.1 = (SHM_VA : Int) ∧ Inv init held (maps + 1) r.2 := by
  unfold sysShmget
  split
  · exact .pure (.inl ⟨rfl, h⟩)
  -- the page that is mapped, and the free pages without it
  have hpage : ∀ shm k, (if w.shmMemory = 0 then kalloc w.kmem else some (w.shmMemory, w.kmem)) =
        some (shm, k) → ∀ a, k.freelist.count a + pageAt shm a =
        w.kmem.freelist.count a + pageAt w.shmMemory a := by
    intro shm k hk a
    split at hk
    · rename_i hzero
      have hka := h.of_kalloc hinit hk a
      have hz : pageAt w.shmMemory a = 0 := by simp [pageAt, hzero]
      omega
    · cases hk
      rfl
  simp only
  split
  · exact .pure (.inl ⟨rfl, h⟩)
  rename_i shm k hk
  have hcount := hpage shm k hk
  apply (safe_lift (mapShm_safe k shm _)).bind
  intro r hr
  obtain ⟨hnodes, hmap⟩ := hr
  have hstep : ∀ maps', maps' + pt.shm = maps + r.2.1.shm →
      (∀ v, v ≠ vpn SHM_VA → r.2.1.leafAt v = pt.leafAt v) →
      Inv init held maps' { w.setProc p { w.proc p with pagetable := some r.2.1 } with
        kmem := r.2.2, shmMemory := shm } := by
    intro maps' hmaps hleaf
    refine h.of_shm hinit hrun hpt hleaf rfl ?_ rfl ?_
    · intro a
      have h1 := hcount a
      have h2 := hnodes a
      simp only
      omega
    · simp only [setProc]
      omega
  rcases hmap with ⟨hok, hnone, hleaf⟩ | ⟨hok, hleaf⟩
  · refine .pure (.inr ⟨by simp [hok], hstep _ ?_ ?_⟩)
    · rw [shm_of_none hnone, shm_of_some (by simp [hleaf])]
    · intro v hv
      rw [hleaf, update_of_ne hv]
  refine .pure (.inl ⟨by simp [hok], hstep _ ?_ ?_⟩)
  · rw [shm_congr hleaf]
  · intro v _
    rw [hleaf]

/-- Looking for the mapping of the shared page. -/
theorem walkShm_safe (k : Kmem) : Safe Panic.TearDown (walk pt SHM_VA false k) fun r =>
      (r.1 && (pt.leaf SHM_VA).isSome) = (pt.leafAt (vpn SHM_VA)).isSome := by
  have hleaf : pt.leafAt (vpn SHM_VA) = pt.leaf SHM_VA := by
    rw [PageTable.leafAt, if_pos (by decide), ← shm_eq]
  obtain ⟨found, hwalk, hfound⟩ := walk_false pt SHM_VA k (by decide)
  rw [hwalk, hleaf]
  apply Safe.ok
  cases hl : pt.leaf SHM_VA with
  | none => simp
  | some l =>
    have hhas := PageTable.has_of_leaf (show pt.leaf SHM_VA ≠ none by simp [hl])
    simp [hfound.2 hhas]

/-- Unmapping the shared page. -/
theorem unmapShm_safe (k : Kmem) (hl : pt.leafAt (vpn SHM_VA) ≠ none) :
    Safe Panic.TearDown (uvmunmap pt SHM_VA 1 false k) fun r =>
      r.1.leafAt = update pt.leafAt (vpn SHM_VA) none ∧ (∀ a, r.1.nodes a = pt.nodes a) ∧
      ∀ a, r.2.freelist.count a = k.freelist.count a := by
  have h := uvmunmap_one_safe (k := k) hl
  rwa [← shm_eq] at h

include hinit h hrun hpt in
/-- `shmem_exit` removes the mapping of the shared page, if there is one. -/
theorem shmemExit_safe : Safe Halt.TearDown (w.shmemExit p pt) fun w' =>
      Inv init held maps w' ∧ (w'.proc p).state = .runnable ∧
      (∃ pt', (w'.proc p).pagetable = some pt' ∧ pt'.leafAt (vpn SHM_VA) = none) ∧
      (pt.leafAt (vpn SHM_VA) = none → w' = w) := by
  unfold shmemExit
  apply (safe_lift (walkShm_safe w.kmem)).bind
  intro r hr
  rw [hr]
  cases hl : pt.leafAt (vpn SHM_VA) with
  | none => exact .pure ⟨h, hrun, ⟨pt, hpt, hl⟩, fun _ => rfl⟩
  | some l =>
    apply (safe_lift (unmapShm_safe w.kmem (by simp [hl]))).bind
    intro u hu
    obtain ⟨hleaf, hnodes, hcount⟩ := hu
    have hnone : u.1.leafAt (vpn SHM_VA) = none := by rw [hleaf, Function.update_self]
    -- the free pages and the shared page after the count has been looked at
    have hstep : ∀ (k : Kmem) (shm : Nat), (∀ a, k.freelist.count a + pageAt shm a =
          u.2.freelist.count a + pageAt w.shmMemory a) →
        Inv init held maps { w.setProc p { w.proc p with pagetable := some u.1 } with
          kmem := k, shmRefs := w.shmRefs - 1, shmMemory := shm } := by
      intro k shm hk
      refine h.of_shm hinit hrun hpt ?_ rfl ?_ rfl ?_
      · intro v hv
        rw [hleaf, update_of_ne hv]
      · intro a
        have h1 := hcount a
        have h2 := hnodes a
        have h3 := hk a
        simp only
        omega
      · rw [shm_of_none hnone, shm_of_some (by simp [hl])]
        simp only
        omega
    simp only
    split
    · rename_i hlast
      apply (safe_lift (kfree_safe u.2 w.shmMemory)).bind
      intro k hk
      have hne : w.shmMemory ≠ 0 := hlast.2
      refine .pure ⟨hstep k 0 ?_, ?_, ⟨u.1, ?_, hnone⟩, by simp⟩
      · intro a
        rw [hk a]
        simp [pageAt, hne]
      · simpa [setProc] using hrun
      · simp [setProc]
    · refine .pure ⟨hstep u.2 w.shmMemory fun _ => rfl, ?_, ⟨u.1, ?_, hnone⟩, by simp⟩
      · simpa [setProc] using hrun
      · simp [setProc]

/-! ## `exit` and `wait` -/

/-- `reparent` moves no memory. -/
theorem Inv.of_reparent (h : Inv init held maps w) (p : Fin NPROC) :
    Inv init held maps (w.reparent p) := by
  have hslot : ∀ q, ((w.reparent p).proc q).owned = (w.proc q).owned ∧
      ((w.reparent p).proc q).shm = (w.proc q).shm ∧
      (((w.reparent p).proc q).Ok ↔ (w.proc q).Ok) := by
    intro q
    simp only [reparent]
    split <;> exact ⟨rfl, rfl, Iff.rfl⟩
  refine ⟨?_, ?_, h.torn, ?_⟩
  · intro a
    have hsum : ∑ q, ((w.reparent p).proc q).owned a = ∑ q, (w.proc q).owned a :=
      sum_congr rfl fun q _ => by rw [(hslot q).1]
    rw [← h.conserved a, total, total, hsum]
    rfl
  · intro q
    exact (hslot q).2.2.2 (h.ok q)
  · have hsum : (w.reparent p).mapped = w.mapped :=
      sum_congr rfl fun q _ => by rw [(hslot q).2.1]
    rw [hsum]
    exact h.balance

include hinit h hrun hpt in
/-- `exit` leaves a zombie that can be torn down. -/
theorem exit_safe : Safe Halt.TearDown (w.exit p pt) fun r =>
      Inv init held maps r.2 ∧ (pt.leafAt (vpn SHM_VA) = none →
        r.2.shmRefs = w.shmRefs ∧ r.2.shmMemory = w.shmMemory) := by
  unfold exit
  split
  · exact .error (by simp [Halt.TearDown, Panic.TearDown])
  apply (shmemExit_safe hinit h hrun hpt).bind
  intro w1 hw1
  obtain ⟨h1, hrun1, ⟨pt1, hpt1, hnone⟩, hsame⟩ := hw1
  obtain ⟨hspace, hn⟩ := h1.space hinit hrun1 hpt1
  have htable : ((w1.reparent p).proc p).pagetable = some pt1 := by
    simp only [reparent]
    split <;> exact hpt1
  have hsz : ((w1.reparent p).proc p).sz = (w1.proc p).sz := by
    simp only [reparent]
    split <;> rfl
  refine .pure ⟨?_, ?_⟩
  · refine (h1.of_reparent p).update rfl ?_ ?_ h1.torn ?_
    · intro pt' hpt'
      obtain rfl := some.inj (htable.symm.trans hpt')
      simp only [hsz]
      exact hspace.userTable hn hnone
    · intro a
      rfl
    · rfl
  · intro hl
    rw [hsame hl]
    exact ⟨rfl, rfl⟩

/-- `wait` reaps a zombie, or changes nothing. -/
theorem wait_safe (hinit : Frames init) (h : Inv init held maps w) (addr : Nat)
    (hstore : w.strayStore pt addr 4 = false) {x : Except Halt (Int × World)}
    (hx : w.wait p pt addr = some x) :
    Safe Halt.TearDown x fun r => Inv init held maps r.2 := by
  unfold wait at hx
  split at hx
  · rename_i q hfind
    have hzombie : (w.proc q).state = .zombie := by
      have hq := List.find?_some hfind
      simp only [decide_eq_true_eq] at hq
      exact hq.2
    have hok := h.ok q
    simp only [Ok, hzombie] at hok
    rw [hstore, if_neg (by simp)] at hx
    split at hx
    · cases hx
      exact .pure h
    cases hx
    apply (freeproc_safe hinit h hok).bind
    intro w1 h1
    exact .pure h1.1
  · split at hx
    · cases hx
      exact .pure h
    · cases hx

/-! ## `fork` -/

/-- `shmem_fork` adds at most the shared page to the new table, and counts
it. -/
theorem shmemFork_safe (new : PageTable) : Safe Halt.TearDown (w.shmemFork pt new) fun r =>
      (r.2.2.proc = w.proc ∧ r.2.2.shmMemory = w.shmMemory ∧ r.2.2.torn = w.torn) ∧
      (∀ a, r.2.1.nodes a + r.2.2.kmem.freelist.count a = new.nodes a + w.kmem.freelist.count a) ∧
      (∀ v, v ≠ vpn SHM_VA → r.2.1.leafAt v = new.leafAt v) ∧
      r.2.2.shmRefs + new.shm = w.shmRefs + r.2.1.shm ∧ (r.1 = false → r.2.1.leafAt = new.leafAt) ∧
      (pt.leafAt (vpn SHM_VA) = none → r.2.2.shmRefs = w.shmRefs) := by
  unfold shmemFork
  apply (safe_lift (walkShm_safe w.kmem)).bind
  intro r hr
  rw [hr]
  cases hl : pt.leafAt (vpn SHM_VA) with
  | none =>
    exact .pure ⟨⟨rfl, rfl, rfl⟩, fun _ => rfl, fun _ _ => rfl, rfl, fun _ => rfl, fun _ => rfl⟩
  | some l =>
    apply (safe_lift (mapShm_safe w.kmem w.shmMemory _)).bind
    intro m hm
    obtain ⟨hnodes, ⟨hok, hnone, hleaf⟩ | ⟨hok, hleaf⟩⟩ := hm
    · simp only [hok, if_true]
      refine .pure ⟨⟨rfl, rfl, rfl⟩, hnodes, ?_, ?_, by simp, by simp⟩
      · intro v hv
        rw [hleaf, update_of_ne hv]
      · rw [shm_of_none hnone, shm_of_some (by simp [hleaf])]
        simp
    simp only [hok]
    refine .pure ⟨⟨rfl, rfl, rfl⟩, hnodes, ?_, ?_, fun _ => hleaf, by simp⟩
    · intro v _
      rw [hleaf]
    · rw [shm_congr hleaf]

/-- A slot that `allocproc` filled and `fork` works on. -/
theorem Inv.of_fresh {np : Fin NPROC} {npt : PageTable} (h : Inv init held maps w)
    (hf : Fresh w np npt) {pr : Proc}
    (htf : pr.trapframe = (w.proc np).trapframe) (hpr : pr.pagetable = some pt) (hok : pr.Ok)
    (hproc : w'.proc = Function.update w.proc np pr)
    (hcount : ∀ a, pt.nodes a + w'.kmem.freelist.count a +
      frames pt.leafAt 0 (npages pr.sz) a = npt.nodes a + w.kmem.freelist.count a)
    (hmem : w'.shmMemory = w.shmMemory) (htorn : w'.torn = w.torn)
    (hrefs : w'.shmRefs = w.shmRefs + pt.shm) : Inv init held maps w' := by
  refine h.update hproc hok ?_ ?_ ?_
  · intro a
    have hca := hcount a
    rw [owned_of_some hf.pagetable, owned_of_some hpr, htf, hmem, hf.sz, npages_zero, frames_self]
    omega
  · rw [htorn]
    exact h.torn
  · have hnone := shm_of_none (hf.table.shm_none (by decide))
    simp only [Proc.shm, hf.pagetable, hpr, elim_some, hnone, hrefs]
    omega

/-- `fork` gives back a slot that it could not finish. -/
theorem freeproc_fresh (hinit : Frames init) {np : Fin NPROC} {npt : PageTable}
    (h : Inv init held maps w) (hf : Fresh w np npt) {sz : Nat} (hut : UserTable pt sz)
    (hn : npages sz ≤ maxFrames)
    (hproc : w'.proc = update w.proc np { w.proc np with pagetable := some pt, sz := sz })
    (hcount : ∀ a, pt.nodes a + w'.kmem.freelist.count a +
      frames pt.leafAt 0 (npages sz) a = npt.nodes a + w.kmem.freelist.count a)
    (hmem : w'.shmMemory = w.shmMemory) (htorn : w'.torn = w.torn)
    (hrefs : w'.shmRefs = w.shmRefs) : Safe Halt.TearDown (w'.freeproc np) fun w'' =>
      Inv init held maps w'' ∧ SameShm w w'' := by
  have hinv : Inv init held maps w' := by
    refine h.of_fresh hf ?_ ?_ ?_ hproc hcount hmem htorn ?_
    · rfl
    · rfl
    · simp only [Proc.Ok, hf.state]
      intro pt' hpt'
      cases hpt'
      exact hut
    · rw [shm_of_none (hut.shm_none hn), hrefs]
      simp
  apply (freeproc_safe hinit hinv ?_).mono
  · intro w'' hw''
    exact ⟨hw''.1, hw''.2.1.trans hmem, hw''.2.2.trans hrefs⟩
  intro pt' hpt'
  rw [hproc, update_self] at hpt' ⊢
  cases hpt'
  exact hut

include hinit h hrun hpt in
/-- `fork` makes a copy of the caller's address space, or gives everything
back. -/
theorem fork_safe : Safe Halt.TearDown (w.fork p pt) fun r =>
      Inv init held maps r.2 ∧ r.2.shmMemory = w.shmMemory ∧
      (pt.leafAt (vpn SHM_VA) = none → r.2.shmRefs = w.shmRefs) := by
  unfold fork
  apply (allocproc_safe hinit h).bind
  intro r hr
  obtain ⟨h1, ⟨hmem1, hrefs1⟩, hnew⟩ := hr
  cases hnp : r.1 with
  | none => exact .pure ⟨h1, hmem1, fun _ => hrefs1⟩
  | some np =>
    obtain ⟨hunused, hsame, npt, hf⟩ := hnew np hnp
    have hne : p ≠ np := by
      rintro rfl
      simp [hrun] at hunused
    simp only [hf.pagetable, hsame p hne]
    apply (safe_lift (uvmcopy_safe pt (w.proc p).sz)).bind
    intro c hc
    rcases hc with ⟨hok, hgrown, hcount⟩ | ⟨hok, hleaf, hcount⟩
    · have hn := (h.space hinit hrun hpt).2
      have hlt := maxFrames_lt
      have hut : UserTable c.2.1 (w.proc p).sz :=
        hf.table.grow (by rw [npages_zero]; omega) (by rwa [npages_zero])
      have hnone := shm_of_none (hut.shm_none hn)
      simp only [hok, if_true]
      apply (shmemFork_safe c.2.1).bind
      intro s hs
      obtain ⟨⟨hproc, hmem, htorn⟩, hnodes, hleaf, hrefs, hfail, hquiet⟩ := hs
      rw [hnone] at hrefs
      have hframes : ∀ a, frames s.2.1.leafAt 0 (npages (w.proc p).sz) a =
          frames c.2.1.leafAt 0 (npages (w.proc p).sz) a :=
        frames_congr fun v _ hv => hleaf v (by omega)
      have hcount' : ∀ a, s.2.1.nodes a + s.2.2.kmem.freelist.count a +
          frames s.2.1.leafAt 0 (npages (w.proc p).sz) a =
          npt.nodes a + r.2.kmem.freelist.count a := by
        intro a
        have h2 := hcount a
        have h3 := hnodes a
        have h4 := hframes a
        simp only [setProc] at h3
        omega
      cases hs1 : s.1 with
      | true =>
        simp only [if_true]
        refine .pure ⟨?_, hmem.trans hmem1, fun hl => (hquiet hl).trans hrefs1⟩
        refine h1.of_fresh hf ?_ ?_ ?_ (show _ = Function.update r.2.proc np
          { r.2.proc np with pagetable := some s.2.1, sz := (w.proc p).sz,
                             parent := some p, state := .runnable } by
            simp [setProc, hproc, update_of_ne hne, hsame p hne])
          hcount' hmem htorn ?_
        · rfl
        · rfl
        · refine ⟨s.2.1, rfl, ?_⟩
          intro v hv
          rw [hleaf v hv]
          exact hut.exact v
        · simpa [setProc] using hrefs
      | false =>
        have hleaf' := hfail hs1
        simp only [Bool.false_eq_true, if_false]
        refine .bind (freeproc_fresh hinit h1 hf
          (show UserTable s.2.1 (w.proc p).sz from
            ⟨fun v => by rw [hleaf']; exact hut.exact v, hut.below⟩)
          hn ?_ hcount' hmem htorn ?_) ?_
        · simp [setProc, hproc, update_of_ne hne, hsame p hne]
        · rw [shm_congr hleaf', hnone] at hrefs
          simpa [setProc] using hrefs
        · intro w2 hw2
          exact .pure ⟨hw2.1, hw2.2.1.trans hmem1, fun _ => hw2.2.2.trans hrefs1⟩
    · simp only [hok, Bool.false_eq_true, if_false]
      refine .bind (freeproc_fresh hinit h1 hf (show UserTable c.2.1 0 from
          ⟨fun v => by rw [hleaf]; exact hf.table.exact v, hf.table.below⟩)
        (by decide) ?_ ?_ rfl rfl rfl) ?_
      · rw [← hf.sz]
        rfl
      · intro a
        have h2 := hcount a
        rw [npages_zero, frames_self]
        omega
      · intro w2 hw2
        exact .pure ⟨hw2.1, hw2.2.1.trans hmem1, fun _ => hw2.2.2.trans hrefs1⟩

/-! ## `sbrk` -/

/-- The caller gets a page table for another size. -/
theorem Inv.of_resize (h : Inv init held maps w)
    (hrun : (w.proc p).state = .runnable) (hpt : (w.proc p).pagetable = some pt)
    {sz : Nat} (hspace : Space pt' sz)
    (hproc : w'.proc = Function.update w.proc p { w.proc p with pagetable := some pt', sz := sz })
    (hcount : ∀ a, w'.kmem.freelist.count a + pt'.nodes a + frames pt'.leafAt 0 (npages sz) a =
      w.kmem.freelist.count a + pt.nodes a + frames pt.leafAt 0 (npages (w.proc p).sz) a)
    (hmem : w'.shmMemory = w.shmMemory) (htorn : ∀ c ∈ w'.torn, Exact c.1 c.2)
    (hrefs : w'.shmRefs = w.shmRefs) (hshm : pt'.shm = pt.shm) : Inv init held maps w' := by
  refine h.update hproc ?_ ?_ htorn ?_
  · simp only [Ok, hrun]
    exact ⟨pt', rfl, hspace⟩
  · intro a
    have hca := hcount a
    rw [owned_of_some hpt, owned_of_some rfl, hmem]
    simp only
    omega
  · simp only [Proc.shm, hpt, elim_some, hshm, hrefs]

include hinit h hrun hpt

/-- The pages of a process that has just been given more of them. -/
theorem Inv.grown_le {k : Kmem} {n : Nat} (hg : Grown pt.leafAt pt'.leafAt (npages (w.proc p).sz) n)
    (hle : npages (w.proc p).sz ≤ n) (hcount : ∀ a, pt'.nodes a + k.freelist.count a +
      frames pt'.leafAt (npages (w.proc p).sz) n a = pt.nodes a + w.kmem.freelist.count a) :
    n ≤ maxFrames ∧ ∀ a, k.freelist.count a + pt'.nodes a + frames pt'.leafAt 0 n a =
      w.kmem.freelist.count a + pt.nodes a + frames pt.leafAt 0 (npages (w.proc p).sz) a := by
  obtain ⟨hspace, hn⟩ := h.space hinit hrun hpt
  have hlt := maxFrames_lt
  have hsum : ∀ a, k.freelist.count a + pt'.nodes a + frames pt'.leafAt 0 n a =
      w.kmem.freelist.count a + pt.nodes a + frames pt.leafAt 0 (npages (w.proc p).sz) a := by
    intro a
    have h1 := hcount a
    have h2 := frames_append (m := pt'.leafAt) hle a
    have h3 : frames pt'.leafAt 0 (npages (w.proc p).sz) a = _ :=
      frames_congr (fun v _ hv => hg.same v (.inl hv)) a
    omega
  refine ⟨?_, hsum⟩
  apply hinit.npages_le (m := pt'.leafAt)
  · intro v hv
    by_cases hold : v < npages (w.proc p).sz
    · rw [hg.same v (.inl hold)]
      exact (hspace v (by omega)).2 (.inl hold)
    · exact hg.mapped v (by omega) hv
  intro a
  have h1 := hsum a
  have h2 := h.owned_le p a
  rw [owned_of_some hpt] at h2
  omega

/-- The caller keeps its size; only the free pages and the upper tables
change. -/
theorem Inv.of_kept {k : Kmem} (hleaf : pt'.leafAt = pt.leafAt)
    (hcount : ∀ a, pt'.nodes a + k.freelist.count a = pt.nodes a + w.kmem.freelist.count a) :
    Inv init held maps (w.resize p (w.proc p).sz pt' k) := by
  obtain ⟨hspace, -⟩ := h.space hinit hrun hpt
  refine h.of_resize hrun hpt ?_ rfl ?_ rfl h.torn rfl (shm_congr hleaf)
  · intro v hv
    rw [hleaf]
    exact hspace v hv
  intro a
  have hca := hcount a
  rw [hleaf]
  simp only [World.resize]
  omega

/-- The caller grows. -/
theorem growProc_safe (newsz : Nat) :
    Safe Panic.TearDown (uvmalloc pt (w.proc p).sz newsz true false w.kmem) fun r =>
      Inv init held maps (w.resize p (if r.1 = 0 then (w.proc p).sz else r.1) r.2.1 r.2.2) := by
  obtain ⟨hspace, hn⟩ := h.space hinit hrun hpt
  have hlt := maxFrames_lt
  by_cases hle : (w.proc p).sz ≤ newsz
  · apply (uvmalloc_safe true false hle).mono
    intro r hr
    rcases hr with ⟨hsz, hgrown, hcount⟩ | ⟨hsz, hleaf, hcount⟩
    · have hmono := npages_mono hle
      obtain ⟨hle', hsum⟩ := h.grown_le hinit hrun hpt hgrown hmono hcount
      have hnew : (if r.1 = 0 then (w.proc p).sz else r.1) = newsz := by
        split
        · omega
        · exact hsz
      rw [hnew]
      refine h.of_resize hrun hpt ?_ rfl hsum rfl h.torn rfl ?_
      · intro v hv
        by_cases hin : npages (w.proc p).sz ≤ v ∧ v < npages newsz
        · simp only [hgrown.mapped v hin.1 hin.2, ne_eq, not_false_eq_true, true_iff]
          exact .inl hin.2
        · rw [hgrown.same v (by omega), hspace v hv]
          omega
      · rw [PageTable.shm, PageTable.shm, hgrown.same _ (.inr (by omega))]
    · rw [if_pos hsz]
      exact h.of_kept hinit hrun hpt hleaf hcount
  · rw [uvmalloc, if_pos (by omega)]
    apply Safe.ok
    rw [ite_self]
    exact h.of_kept hinit hrun hpt rfl fun _ => rfl

/-- The caller shrinks. -/
theorem shrinkProc_safe (newsz : Nat) :
    Safe Panic.TearDown (uvmdealloc pt (w.proc p).sz newsz w.kmem) fun r =>
      Inv init held maps (w.resize p r.1 r.2.1 r.2.2) := by
  obtain ⟨hspace, hn⟩ := h.space hinit hrun hpt
  have hlt := maxFrames_lt
  by_cases hle : newsz ≤ (w.proc p).sz
  · have hmono := npages_mono hle
    apply (uvmdealloc_safe hle fun v _ hv => (hspace v (by omega)).2 (.inl hv)).mono
    intro r hr
    obtain ⟨hsz, hleaf, hcount⟩ := hr
    rw [hsz]
    have hout : ∀ v, v < npages newsz ∨ npages (w.proc p).sz ≤ v →
        r.2.1.leafAt v = pt.leafAt v := by
      intro v hv
      rw [hleaf]
      simp only
      rw [if_neg (by omega)]
    refine h.of_resize hrun hpt ?_ rfl ?_ rfl h.torn rfl ?_
    · intro v hv
      by_cases hin : npages newsz ≤ v ∧ v < npages (w.proc p).sz
      · have hnone : r.2.1.leafAt v = none := by
          rw [hleaf]
          simp only
          rw [if_pos hin]
        have h2 := vpn_trapframe_lt
        have h3 := vpn_shm_lt
        simp only [hnone, ne_eq, not_true_eq_false, false_iff]
        omega
      · rw [hout v (by omega), hspace v hv]
        omega
    · intro a
      have h1 := hcount a
      have h2 := frames_append (m := pt.leafAt) hmono a
      have h3 : frames r.2.1.leafAt 0 (npages newsz) a = _ :=
        frames_congr (fun v _ hv => hout v (.inl hv)) a
      simp only [resize]
      omega
    · rw [PageTable.shm, PageTable.shm, hout _ (.inr (by omega))]
  · rw [uvmdealloc, if_pos (by omega)]
    exact .ok (h.of_kept hinit hrun hpt rfl fun _ => rfl)

/-- `growproc` keeps the address space exact. -/
theorem growproc_safe (n : Int) :
    Safe Halt.TearDown (w.growproc p pt n) fun r => Inv init held maps r.2 := by
  unfold growproc
  split
  · apply (safe_lift (growProc_safe hinit h hrun hpt _)).bind
    intro r hr
    split
    · rename_i hzero
      rw [if_pos hzero] at hr
      exact .pure hr
    rename_i hpos
    rw [if_neg hpos] at hr
    exact .pure hr
  · split
    · apply (safe_lift (shrinkProc_safe hinit h hrun hpt _)).bind
      intro r hr
      exact .pure hr
    · exact .pure h

end Xv6
