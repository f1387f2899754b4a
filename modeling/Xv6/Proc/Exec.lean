import Xv6.Proc.Calls

/-!
# `exec`

`exec` builds a new address space page by page and then either commits to
it, which tears the old one down, or tears the new one down.  The new
address space is exact at every point of the construction.  The old one is
exact if the caller does not map the shared page, and this is the one
thing that `exec` needs and does not establish.
-/

namespace Xv6

open Lib World

variable {init : List Nat} {held : Nat → Nat} {maps : Nat} {w : World} {p : Fin NPROC}
  {pt : PageTable}

/-! ## Building an address space -/

/-- The address space that `exec` is building, out of the pages that were
free in `k₀`. -/
structure Built (k₀ : Kmem) (sz : Nat) (pt : PageTable) (k : Kmem) : Prop where
  table : UserTable pt sz
  count : ∀ a, pt.nodes a + frames pt.leafAt 0 (npages sz) a + k.freelist.count a =
    k₀.freelist.count a

section Build

variable {k₀ k : Kmem} {sz : Nat}

/-- What is built fits in the physical memory. -/
theorem Built.npages_le (h : Built k₀ sz pt k) (hinit : Frames init)
    (hinv : Inv init held maps w) (hk : w.kmem = k₀) : npages sz ≤ maxFrames := by
  apply hinit.npages_le h.table.mapped
  intro a
  have h1 := h.count a
  have h2 := hinv.owned_le ⟨0, by decide⟩ a
  rw [hk] at h2
  omega

/-- `uvmalloc` on the address space that is being built. -/
theorem Built.uvmalloc_safe (h : Built k₀ sz pt k) (newsz : Nat) (w x : Bool) :
    Safe Panic.TearDown (uvmalloc pt sz newsz w x k) fun r =>
      Built k₀ (if r.1 = 0 then sz else r.1) r.2.1 r.2.2 ∧
      (sz ≤ newsz → r.1 = newsz ∨ r.1 = 0) := by
  by_cases hle : sz ≤ newsz
  · apply (Xv6.uvmalloc_safe w x hle).mono
    intro r hr
    rcases hr with ⟨hsz, hgrown, hcount⟩ | ⟨hsz, hleaf, hcount⟩
    · have hmono := npages_mono hle
      have hnew : (if r.1 = 0 then sz else r.1) = newsz := by
        split
        · omega
        · exact hsz
      rw [hnew]
      refine ⟨⟨h.table.grow hmono hgrown, ?_⟩, fun _ => .inl hsz⟩
      intro a
      have h1 := hcount a
      have h2 := h.count a
      have h3 := frames_append (m := r.2.1.leafAt) hmono a
      have h4 : frames r.2.1.leafAt 0 (npages sz) a = _ :=
        frames_congr (fun v _ hv => hgrown.same v (.inl hv)) a
      omega
    rw [if_pos hsz]
    refine ⟨⟨⟨?_, h.table.below⟩, ?_⟩, fun _ => .inr hsz⟩
    · intro v
      rw [hleaf]
      exact h.table.exact v
    intro a
    have h1 := hcount a
    have h2 := h.count a
    rw [hleaf]
    omega
  · rw [uvmalloc, if_pos (by omega)]
    apply Safe.ok
    rw [ite_self]
    exact ⟨h, fun hle' => absurd hle' hle⟩

/-- `loadseg` only reads the page table. -/
theorem loadseg_safe (seg : Segment) (n i : Nat) :
    Safe Panic.TearDown (loadseg pt seg i n) fun _ => True := by
  induction n generalizing i with
  | zero => exact .pure trivial
  | succ n ih =>
    rw [loadseg]
    split
    · exact .error (by simp [Panic.TearDown])
    split
    · exact ih (i + 1)
    · exact .pure trivial

theorem loadSegments_safe (phdrs : List (Option Segment)) (h : Built k₀ sz pt k) :
    Safe Panic.TearDown (loadSegments pt sz k phdrs) fun r => Built k₀ r.2.1 r.2.2.1 r.2.2.2 := by
  induction phdrs generalizing pt sz k with
  | nil => exact .pure h
  | cons phdr rest ih =>
    cases phdr with
    | none => exact .pure h
    | some seg =>
      rw [loadSegments]
      split
      · exact ih h
      split
      · exact .pure h
      apply (h.uvmalloc_safe _ _ _).bind
      intro r hr
      obtain ⟨hbuilt, -⟩ := hr
      split
      · rename_i hzero
        rw [if_pos hzero] at hbuilt
        exact .pure hbuilt
      rename_i hpos
      rw [if_neg hpos] at hbuilt
      apply (loadseg_safe seg _ 0).bind
      intro ok _
      split
      · exact ih hbuilt
      · exact .pure hbuilt

theorem buildStack_safe (lens : List Nat) (h : Built k₀ sz pt k) :
    Safe Panic.TearDown (buildStack pt sz k lens) fun r => Built k₀ r.2.1 r.2.2.1 r.2.2.2 := by
  have hround : npages (pgroundup sz) = npages sz := npages_mul _
  have h' : Built k₀ (pgroundup sz) pt k := by
    refine ⟨⟨?_, ?_⟩, ?_⟩
    · intro v
      rw [hround]
      exact h.table.exact v
    · rw [hround]
      exact h.table.below
    · intro a
      rw [hround]
      exact h.count a
  unfold buildStack
  apply (h'.uvmalloc_safe _ true false).bind
  intro r hr
  obtain ⟨hbuilt, hval⟩ := hr
  split
  · rename_i hzero
    rw [if_pos hzero] at hbuilt
    exact .pure hbuilt
  rename_i hpos
  rw [if_neg hpos] at hbuilt
  have hsz : r.1 - (USERSTACK + 1) * PGSIZE = npages sz * PGSIZE := by
    rcases hval (by omega) with hval | hval
    · rw [hval, Nat.add_sub_cancel]
      rfl
    · omega
  rw [hsz]
  apply (uvmclear_safe (npages sz)).bind
  intro pt' hpt'
  obtain ⟨hleaf, hnodes, hframes⟩ := hpt'
  refine .pure ⟨⟨?_, hbuilt.table.below⟩, ?_⟩
  · intro v
    rw [hleaf v]
    exact hbuilt.table.exact v
  intro a
  rw [hnodes, hframes]
  exact hbuilt.count a

end Build

/-! ## The calls -/

/-- `exec` by a process that does not map the shared page. -/
theorem exec_safe (hinit : Frames init) (h : Inv init held maps w)
    (hrun : (w.proc p).state = .runnable) (hpt : (w.proc p).pagetable = some pt)
    (hnone : pt.leafAt (vpn SHM_VA) = none) (image : Option Image) (lens : List Nat) :
    Safe Halt.TearDown (w.exec p pt image lens) fun r => Inv init held maps r.2 := by
  obtain ⟨hspace, hn⟩ := h.space hinit hrun hpt
  have hut := hspace.userTable hn hnone
  unfold World.exec
  split
  · exact .pure h
  rename_i image
  split
  · exact .pure h
  apply (safe_lift (procPagetable_safe w.trampoline (w.proc p).trapframe)).bind
  intro r hr
  rcases hr with ⟨new, hnew, htable, hcount⟩ | ⟨hnew, hcount⟩
  · have hbuilt : Built w.kmem 0 new r.2 := by
      refine ⟨htable, ?_⟩
      intro a
      have hca := hcount a
      rw [npages_zero, frames_self]
      omega
    simp only [hnew]
    apply (safe_lift (loadSegments_safe image.phdrs hbuilt)).bind
    intro s hs
    have hstack : Safe Halt.TearDown
        (if s.1 then liftM (buildStack s.2.2.1 s.2.1 s.2.2.2 lens) else pure s :
          Except Halt _) fun s => Built w.kmem s.2.1 s.2.2.1 s.2.2.2 := by
      split
      · exact safe_lift (buildStack_safe lens hs)
      · exact .pure hs
    apply hstack.bind
    intro s hs
    split
    · -- commit: the new address space replaces the old one
      refine .bind (tearDown_safe hut ?_) ?_
      · exact h.torn
      intro w' hw'
      obtain ⟨hproc, hmem, hrefs, htorn, hfreed⟩ := hw'
      have hmax := hs.npages_le hinit h rfl
      refine .pure (h.of_resize hrun hpt hs.table.space hproc ?_ hmem htorn hrefs ?_)
      · intro a
        have h1 := hs.count a
        have h2 := hfreed a
        simp only [setProc] at h2 ⊢
        omega
      · rw [shm_of_none (hs.table.shm_none hmax), shm_of_none hnone]
    -- bad: the new address space is torn down
    refine .bind (tearDown_safe hs.table ?_) ?_
    · exact h.torn
    intro w' hw'
    obtain ⟨hproc, hmem, hrefs, htorn, hfreed⟩ := hw'
    refine .pure (h.of_kmem hproc hmem hrefs ?_ htorn)
    intro a
    have h1 := hs.count a
    have h2 := hfreed a
    simp only at h2 ⊢
    omega
  · simp only [hnew]
    refine .pure (h.of_kmem rfl rfl rfl ?_ h.torn)
    intro a
    rw [hcount a]

/-- The pages of `sys_exec` for its arguments come off the free list. -/
theorem fetchArgs_count (k : Kmem) (i : Nat) (args : List Arg) (a : Nat) :
    (World.fetchArgs k i args).2.1.count a + (World.fetchArgs k i args).2.2.freelist.count a =
      k.freelist.count a := by
  induction args generalizing k i with
  | nil =>
    unfold fetchArgs
    split <;> simp
  | cons arg rest ih =>
    unfold fetchArgs
    split
    · simp
    cases arg with
    | badPointer => simp
    | badString =>
      split
      · simp
      rename_i page k' hk
      have hka := kalloc_count hk a
      simp only [List.count_cons, beq_iff_eq, List.count_nil]
      omega
    | str len =>
      split
      · simp
      rename_i page k' hk
      have hka := kalloc_count hk a
      have hrest := ih k' (i + 1)
      simp only [List.count_cons, beq_iff_eq]
      omega

/-- Freeing a list of pages. -/
theorem kfreeAll_safe (pages : List Nat) (k : Kmem) :
    Safe Panic.TearDown (pages.foldlM kfree k) fun k' =>
      ∀ a, k'.freelist.count a = k.freelist.count a + pages.count a := by
  induction pages generalizing k with
  | nil => exact .pure fun a => by simp
  | cons page pages ih =>
    rw [List.foldlM_cons]
    apply (kfree_safe k page).bind
    intro k1 hk1
    apply (ih k1).mono
    intro k2 hk2 a
    rw [hk2 a, hk1 a, List.count_cons]
    simp only [beq_iff_eq]
    omega

/-- `sys_exec` by a process that does not map the shared page. -/
theorem sysExec_safe (hinit : Frames init) (h : Inv init (fun _ => 0) maps w)
    (hrun : (w.proc p).state = .runnable) (hpt : (w.proc p).pagetable = some pt)
    (hnone : pt.leafAt (vpn SHM_VA) = none) (image : Option Image) (args : List Arg) :
    Safe Halt.TearDown (w.sysExec p pt image args) fun r => Inv init (fun _ => 0) maps r.2 := by
  have hfetch := fetchArgs_count w.kmem 0 args
  unfold sysExec
  generalize fetchArgs w.kmem 0 args = f at hfetch
  have h1 : Inv init (fun a => f.2.1.count a) maps { w with kmem := f.2.2 } := by
    refine h.of_kmem rfl rfl rfl ?_ h.torn
    intro a
    have ha := hfetch a
    simp only
    omega
  refine .bind (P := fun r => Inv init (fun a => f.2.1.count a) maps r.2) ?_ fun r hr => ?_
  · split
    · exact .pure h1
    · exact exec_safe hinit h1 hrun hpt hnone image _
  apply (safe_lift (kfreeAll_safe f.2.1 r.2.kmem)).bind
  intro k hk
  refine .pure (hr.of_kmem rfl rfl rfl ?_ hr.torn)
  intro a
  rw [hk a, Nat.add_zero]

end Xv6
