import Xv6.PipeRt.Ends

/-!
# The pages of priority pipes

Every system call keeps the invariant of `Ends`, and `pages_accounted_iff`
says what then becomes of the pages of a pipe.  Its queue nodes are all given
back once, but `pipe_rt_close` never frees the page of `struct pipe_rt`
itself: when the last descriptor goes, that page is lost.
-/

namespace Xv6.PipeRt.Files

open Function List Option State Xv6.Lib

variable {k : Kmem} {f : Fin NFILE} {slot : Slot} {p : Fin NPROC} {res : Int}

/-! ## `pipe_rt_alloc` -/

section NewPipe

variable {s : State} {hand : List (Fin NFILE)} {f₀ f₁ : Fin NFILE} {file0 file1 : File} {pa : Nat}

theorem update_two_cases {ι κ : Type} [DecidableEq ι] (g : ι → κ) (i j : ι) (x y : κ) (l : ι) :
    (l = j ∧ update (update g i x) j y l = y) ∨ (l = i ∧ update (update g i x) j y l = x) ∨
      update (update g i x) j y l = g l := by
  by_cases hj : l = j
  · exact .inl ⟨hj, by rw [hj, update_self]⟩
  rw [update_of_ne hj]
  by_cases hi : l = i
  · exact .inr (.inl ⟨hi, by rw [hi, update_self]⟩)
  · exact .inr (.inr (update_of_ne hi _ _))

/-- The files of two new ends are counted on top. -/
theorem ends_newPipe (hne : f₁ ≠ f₀) (hnone0 : (s.ftable f₀).type = .none)
    (hnone1 : (s.ftable f₁).type = .none) (page : Nat) (writable : Bool) :
    ∑ f, endOf page writable (update (update s.ftable f₀ file0) f₁ file1 f) =
      s.ends page writable + endOf page writable file0 + endOf page writable file1 := by
  have h0 := sum_update s.ftable (endOf page writable) f₀ file0
  have h1 := sum_update (update s.ftable f₀ file0) (endOf page writable) f₁ file1
  rw [update_of_ne hne, endOf_eq_zero (by simp [hnone1])] at h1
  rw [endOf_eq_zero (by simp [hnone0])] at h0
  simp only [ends]
  omega

/-- A free page is not the page of a pipe. -/
theorem Memory.page_ne (h : Memory s) (hpa : pa ∈ s.kmem.freelist) {r : Rec}
    (hr : r ∈ s.pipes) : pa ∉ r.inUse := by
  intro hmem
  have hcount := nodup_iff_count_le_one.1 h.nodup pa
  have hfree : 0 < s.kmem.freelist.count pa := count_pos_iff.2 hpa
  have hused : 0 < (s.pipes.flatMap Rec.inUse).count pa :=
    count_pos_iff.2 (mem_flatMap.2 ⟨r, hr, hmem⟩)
  simp only [pages, count_append] at hcount
  omega

/-- A pipe in a page from the free list, with two new files for its ends. -/
theorem Inv.newPipe (h : Inv s hand none) (hpa : s.kmem.freelist = pa :: k.freelist) (hne : f₁ ≠ f₀)
    (hnone0 : (s.ftable f₀).type = .none) (hnone1 : (s.ftable f₁).type = .none)
    (href0 : file0.ref = (s.ftable f₀).ref) (href1 : file1.ref = (s.ftable f₁).ref)
    (hfile0 : file0.type = .pipeRt ∧ file0.pipe = pa ∧ file0.writable = 0)
    (hfile1 : file1.type = .pipeRt ∧ file1.pipe = pa ∧ file1.writable = 1)
    (hpos0 : file0.ref ≠ 0) (hpos1 : file1.ref ≠ 0) :
    Inv { s with
      kmem := k
      ftable := update (update s.ftable f₀ file0) f₁ file1
      pipes := s.pipes ++ [⟨pa, Pipe.init, [pa], []⟩] } hand none := by
  have hfresh : ∀ r ∈ s.pipes, r.page ≠ pa := by
    intro r hr heq
    have hno : pa ∉ r.inUse := h.toMemory.page_ne (by simp [hpa]) hr
    exact hno (by simp [Rec.inUse, heq])
  -- no file named the new pipe before, and the two files name no old pipe
  have hnew : ∀ writable, s.ends pa writable = 0 := by
    intro writable
    apply Finset.sum_eq_zero
    intro f _
    apply endOf_eq_zero
    rintro ⟨htype, hpipe⟩
    obtain ⟨r, hr, hpage⟩ := h.known f htype
    exact hfresh r hr (hpage.trans hpipe)
  have hold : ∀ r ∈ s.pipes, ∀ writable,
      endOf r.page writable file0 = 0 ∧ endOf r.page writable file1 = 0 := by
    intro r hr writable
    constructor
    · exact endOf_eq_zero fun hend => hfresh r hr (hend.2.symm.trans hfile0.2.1)
    · exact endOf_eq_zero fun hend => hfresh r hr (hend.2.symm.trans hfile1.2.1)
  have hends : ∀ page writable, State.ends { s with
      kmem := k
      ftable := update (update s.ftable f₀ file0) f₁ file1
      pipes := s.pipes ++ [⟨pa, Pipe.init, [pa], []⟩] } page writable =
        s.ends page writable + endOf page writable file0 + endOf page writable file1 :=
    ends_newPipe hne hnone0 hnone1
  have hlook := update_two_cases s.ftable f₀ f₁ file0 file1
  have hpipe : ∀ r ∈ s.pipes ++ [(⟨pa, Pipe.init, [pa], []⟩ : Rec)],
      r ∈ s.pipes ∨ r = ⟨pa, Pipe.init, [pa], []⟩ := by
    simp
  have hmem : (⟨pa, Pipe.init, [pa], []⟩ : Rec) ∈
      s.pipes ++ [(⟨pa, Pipe.init, [pa], []⟩ : Rec)] := by
    simp
  refine ⟨⟨?_, ?_⟩, ?_, ?_, ?_, by simp, ?_, ?_, ?_⟩
  · refine (List.Perm.nodup_iff ?_).2 h.nodup
    rw [perm_iff_count]
    intro a
    simp only [State.pages, hpa, flatMap_append, flatMap_cons, flatMap_nil,
      Rec.inUse, Rec.nodes, Pipe.init, map_nil, count_append, count_cons,
      count_nil]
    omega
  · intro r hr
    rcases hpipe r hr with hr | rfl
    · exact h.ledger r hr
    · exact List.Perm.refl _
  · intro g
    have hg := h.refs g
    rcases hlook g with ⟨rfl, hg'⟩ | ⟨rfl, hg'⟩ | hg'
    · simp only [hg', href1]
      exact hg
    · simp only [hg', href0]
      exact hg
    · simp only [hg']
      exact hg
  · intro g hg
    rcases hlook g with ⟨-, hg'⟩ | ⟨-, hg'⟩ | hg'
    · exact absurd (hg' ▸ hg) hpos1
    · exact absurd (hg' ▸ hg) hpos0
    · simp only [hg'] at hg ⊢
      exact h.free g hg
  · intro g hg
    rcases hlook g with ⟨-, hg'⟩ | ⟨-, hg'⟩ | hg'
    · simp only [hg']
      exact ⟨_, hmem, hfile1.2.1.symm⟩
    · simp only [hg']
      exact ⟨_, hmem, hfile0.2.1.symm⟩
    · simp only [hg'] at hg ⊢
      obtain ⟨r, hr, hpage⟩ := h.known g hg
      exact ⟨r, mem_append_left _ hr, hpage⟩
  · intro r hr
    rw [hends]
    rcases hpipe r hr with hr | rfl
    · rw [(hold r hr _).1, (hold r hr _).2, Nat.add_zero]
      exact h.nread r hr
    · simp [hnew, endOf, hfile0, hfile1, due, Pipe.init]
  · intro r hr
    rw [hends]
    rcases hpipe r hr with hr | rfl
    · rw [(hold r hr _).1, (hold r hr _).2, Nat.add_zero]
      exact h.nwrite r hr
    · simp [hnew, endOf, hfile0, hfile1, due, Pipe.init]
  · intro r hr hzero
    rcases hpipe r hr with hr | rfl
    · exact h.drained r hr hzero
    · cases hzero

theorem Inv.pipeRtAlloc {ftable : Ftable} {fresh : Fresh} (h : Inv s hand none)
    (hok : PipeRt.pipeRtAlloc s.kmem s.ftable = .ok (some fresh, k, ftable)) :
    Inv { s with
      kmem := k
      ftable := ftable
      pipes := s.pipes ++ [⟨fresh.page, fresh.pipe, [fresh.page], []⟩] }
      (fresh.f1 :: fresh.f0 :: hand) none := by
  unfold PipeRt.pipeRtAlloc at hok
  split at hok
  · simp at hok
  rename_i page k1 hpage
  split at hok
  · simp at hok
  rename_i f₀ ft1 hf0
  split at hok
  · simp at hok
  rename_i f₁ ft2 hf1
  simp only [Except.ok.injEq, Prod.mk.injEq, some.injEq] at hok
  obtain ⟨rfl, rfl, rfl⟩ := hok
  have h2 := (h.filealloc hf0).filealloc hf1
  obtain ⟨hz0, rfl⟩ := filealloc_eq_some hf0
  obtain ⟨hz1, rfl⟩ := filealloc_eq_some hf1
  have hne : f₁ ≠ f₀ := by
    rintro rfl
    simp at hz1
  rw [update_of_ne hne] at hz1
  apply h2.newPipe (kalloc_eq_some.1 hpage).1 hne
  all_goals simp [update_of_ne hne, update_of_ne hne.symm, h.free f₀ hz0, h.free f₁ hz1]

/-- A `pipe_rt_alloc` that fails has undone everything. -/
theorem pipeRtAlloc_none {k' : Kmem} {ftable ftable' : Ftable}
    (hfree : ∀ f, (ftable f).ref = 0 → (ftable f).type = .none)
    (h : PipeRt.pipeRtAlloc k ftable = .ok (none, k', ftable')) : k' = k ∧ ftable' = ftable := by
  have hback : ∀ page k1 k2, kalloc k = some (page, k1) → kfree k1 page = .ok k2 → k2 = k := by
    intro page k1 k2 hpage hk2
    obtain ⟨hlist, hend⟩ := kalloc_eq_some.1 hpage
    rw [(kfree_eq_ok.1 hk2).2, ← hlist, hend]
  unfold PipeRt.pipeRtAlloc at h
  split at h
  · cases h
    exact ⟨rfl, rfl⟩
  rename_i page k1 hpage
  split at h
  · simp only [bind_eq_ok, pure_eq_ok] at h
    obtain ⟨k2, hk2, h⟩ := h
    cases h
    exact ⟨hback page k1 _ hpage hk2, rfl⟩
  rename_i f₀ ft1 hf0
  split at h
  · simp only [bind_eq_ok, pure_eq_ok] at h
    obtain ⟨k2, hk2, ⟨last, ft2⟩, hclose, h⟩ := h
    cases h
    refine ⟨hback page k1 _ hpage hk2, ?_⟩
    obtain ⟨hzero, rfl⟩ := filealloc_eq_some hf0
    rw [filecloseTable] at hclose
    simp only [update_self, Nat.lt_irrefl, if_false, Nat.sub_self, gt_iff_lt,
      Except.ok.injEq, Prod.mk.injEq, update_idem] at hclose
    rw [← hclose.2, ← hzero, ← hfree f₀ hzero]
    exact update_eq_self f₀ ftable
  · cases h

end NewPipe

/-! ## Calls -/

theorem fileclose_setSlot {s t : State} (slot : Slot)
    (entry : Option (Fin NFILE)) (h : fileclose s f = .ok t) :
    fileclose (s.setSlot slot entry) f = .ok (t.setSlot slot entry) := by
  unfold fileclose at h ⊢
  simp only [bind_eq_ok] at h ⊢
  obtain ⟨⟨last, ftable⟩, htable, h⟩ := h
  refine ⟨⟨last, ftable⟩, htable, ?_⟩
  cases last with
  | none =>
    cases h
    rfl
  | some ff =>
    dsimp only at h ⊢
    split at h
    · rename_i htype
      rw [if_pos htype]
      unfold closeEnd at h ⊢
      split at h
      · rename_i hfind
        cases h
        rw [State.find?] at hfind ⊢
        simp only [setSlot] at hfind ⊢
        rw [hfind]
      rename_i r hfind
      rw [State.find?] at hfind ⊢
      simp only [setSlot, bind_eq_ok, pure_eq_ok] at h hfind ⊢
      obtain ⟨u, hu, rfl⟩ := h
      rw [hfind]
      simp only [bind_eq_ok, pure_eq_ok]
      exact ⟨u, hu, rfl⟩
    · rename_i htype
      rw [if_neg htype]
      cases h
      rfl

theorem filedup_ofile {s t : State} (h : filedup s f = .ok t) : t.ofile = s.ofile := by
  unfold filedup at h
  split at h
  · cases h
  cases h
  rfl

theorem filedup_setSlot {s t : State}
    {entry : Option (Fin NFILE)} (h : filedup (s.setSlot slot entry) f = .ok t) :
    ∃ u, filedup s f = .ok u ∧ t = u.setSlot slot entry := by
  unfold filedup at h ⊢
  split at h
  · cases h
  rename_i hpos
  cases h
  exact ⟨_, if_neg hpos, rfl⟩

namespace Inv

variable {s t : State}

theorem swap {g : Fin NFILE} (h : Inv s [f, g] none) : Inv s [g, f] none :=
  { h with refs := fun i => by rw [h.refs i, (Perm.swap g f []).count_eq] }

section

variable (h : Inv s [] none)

include h

theorem sysPipeRt {copied : Bool × Bool}
    (ht : sysPipeRt s p copied = .ok (t, res)) : Inv t [] none := by
  unfold Files.sysPipeRt at ht
  split at ht
  · cases ht
  · rename_i k ftable hfail
    cases ht
    obtain ⟨rfl, rfl⟩ := pipeRtAlloc_none h.free hfail
    exact h
  rename_i fresh k ftable hok
  have hnew := (h.pipeRtAlloc hok).swap
  dsimp only at ht
  split at ht
  · simp only [bind_eq_ok, pure_eq_ok, Prod.mk.injEq] at ht
    obtain ⟨u, hu, v, hv, rfl, -⟩ := ht
    exact (hnew.fileclose hu).fileclose hv
  rename_i fd0 s1 hfd0
  have h1 := hnew.fdalloc hfd0
  have hslot0 : s1.ofile (p, fd0) = some fresh.f0 := by
    rw [(fdalloc_eq_some hfd0).2, setSlot_self]
  split at ht
  · simp only [bind_eq_ok, pure_eq_ok, Prod.mk.injEq] at ht
    obtain ⟨u, hu, v, hv, rfl, -⟩ := ht
    exact ((h1.clearSlot hslot0).fileclose hu).fileclose hv
  rename_i fd1 s2 hfd1
  have h2 := h1.fdalloc hfd1
  obtain ⟨hnone, rfl⟩ := fdalloc_eq_some hfd1
  split at ht
  · cases ht
    exact h2
  simp only [bind_eq_ok, pure_eq_ok, Prod.mk.injEq] at ht
  obtain ⟨u, hu, v, hv, rfl, -⟩ := ht
  have hne : (p, fd0) ≠ (p, fd1) := by
    intro heq
    rw [heq, hnone] at hslot0
    cases hslot0
  have h3 := h2.clearSlot ((setSlot_of_ne s1 _ hne).trans hslot0)
  have h4 := h3.clearSlot
    ((setSlot_of_ne _ none hne.symm).trans (setSlot_self s1 (p, fd1) _))
  exact (h4.swap.fileclose hu).fileclose hv

theorem sysRead {ok : Bool} {res : Option Int}
    (ht : sysRead s slot ok = .ok (t, res)) : Inv t [] none := by
  unfold Files.sysRead at ht
  split at ht
  · cases ht
    exact h
  rename_i f hslot
  split at ht
  · cases ht
    exact h
  split at ht
  · cases ht
    exact h
  split at ht
  · cases ht
    exact h
  rename_i r hfind
  have hr := mem_of_find?_eq_some hfind
  have hpass : ∀ u : Sys, (pipeRtRead (r.sys s.kmem) ok = .ok (.fail u) ∨
      ∃ task, pipeRtRead (r.sys s.kmem) ok = .ok (.deliver task u)) →
      Inv (s.setPipe r u.kmem u.pipe) [] none := by
    intro u hu
    obtain ⟨hmoves, hpipe, hempty⟩ := pipeRtRead_moves hu
    apply h.setPipe hr hmoves
    · simp
    · exact fun _ _ _ => rfl
    · rw [hpipe]
      rfl
    · rw [hpipe]
      rfl
    · intro hread hwrite
      rw [hpipe] at hread hwrite
      obtain ⟨hhead, hactive⟩ := h.drained r hr hread hwrite
      exact ⟨hempty hhead, by rw [hpipe]; exact hactive⟩
  simp only [bind_eq_ok] at ht
  obtain ⟨pass, hp, ht⟩ := ht
  cases pass with
  | sleep =>
    cases ht
    exact h
  | fail u =>
    cases ht
    exact hpass u (.inl hp)
  | deliver task u =>
    cases ht
    exact hpass u (.inr ⟨task, hp⟩)

theorem sysWrite (slot : Slot) (copied : Option Task) : Inv (sysWrite s slot copied).1 [] none := by
  unfold Files.sysWrite
  split
  · exact h
  split
  · exact h
  split
  · exact h
  split
  · exact h
  rename_i r hfind
  have hr := mem_of_find?_eq_some hfind
  apply h.setPipe hr (pipeRtWrite_moves (r.sys s.kmem) copied)
  · simp
  · exact fun _ _ _ => rfl
  all_goals
    rcases pipeRtWrite_cases (r.sys s.kmem) copied with hw | ⟨task, -, hactive, -, hw⟩
    all_goals rw [hw]
  · rfl
  · rfl
  · rfl
  · rfl
  · exact h.drained r hr
  · -- an inactive pipe takes no task
    intro hread hwrite
    have hoff := (h.drained r hr hread hwrite).2
    exact absurd (hactive.symm.trans hoff) (by decide)

theorem sysDup (ht : sysDup s slot = .ok (t, res)) : Inv t [] none := by
  unfold Files.sysDup at ht
  split at ht
  · cases ht
    exact h
  rename_i f hslot
  split at ht
  · cases ht
    exact h
  rename_i fd s1 hfd
  simp only [bind_eq_ok, pure_eq_ok, Prod.mk.injEq] at ht
  obtain ⟨u, hu, rfl, -⟩ := ht
  obtain ⟨hnone, rfl⟩ := fdalloc_eq_some hfd
  obtain ⟨v, hv, rfl⟩ := filedup_setSlot hu
  apply (h.filedup hv).giveSlot
  rwa [filedup_ofile hv]

theorem sysClose (ht : sysClose s slot = .ok (t, res)) : Inv t [] none := by
  unfold Files.sysClose at ht
  split at ht
  · cases ht
    exact h
  rename_i f hslot
  simp only [bind_eq_ok, pure_eq_ok, Prod.mk.injEq] at ht
  obtain ⟨u, hu, rfl, -⟩ := ht
  exact (h.clearSlot hslot).fileclose hu

theorem forkFiles {np : Fin NPROC} {fds : List (Fin NOFILE)}
    (hnodup : fds.Nodup) (hnone : ∀ fd ∈ fds, s.ofile (np, fd) = none)
    (ht : forkFiles p np s fds = .ok t) : Inv t [] none := by
  induction fds generalizing s with
  | nil =>
    cases ht
    exact h
  | cons fd rest ih =>
    obtain ⟨hfd, hrest⟩ := nodup_cons.1 hnodup
    rw [forkFiles] at ht
    split at ht
    · exact ih h hrest (fun fd' hmem => hnone fd' (mem_cons_of_mem _ hmem)) ht
    rename_i f hslot
    simp only [bind_eq_ok] at ht
    obtain ⟨u, hu, ht⟩ := ht
    have hofile := filedup_ofile hu
    refine ih ((h.filedup hu).giveSlot ?_) hrest ?_ ht
    · rw [hofile]
      exact hnone fd mem_cons_self
    intro fd' hmem
    have hslots : (np, fd') ≠ (np, fd) := by
      intro heq
      cases heq
      exact hfd hmem
    rw [setSlot_of_ne _ _ hslots, hofile]
    exact hnone fd' (mem_cons_of_mem _ hmem)

theorem exitFiles {fds : List (Fin NOFILE)} (ht : exitFiles p s fds = .ok t) : Inv t [] none := by
  induction fds generalizing s with
  | nil =>
    cases ht
    exact h
  | cons fd rest ih =>
    rw [exitFiles] at ht
    split at ht
    · exact ih h ht
    rename_i f hslot
    simp only [bind_eq_ok] at ht
    obtain ⟨u, hu, ht⟩ := ht
    exact ih ((h.clearSlot hslot).fileclose (fileclose_setSlot (p, fd) none hu)) ht

theorem openOther (p : Fin NPROC) {file : File} (htype : file.type ≠ .pipeRt) :
    Inv (openOther s p file) [] none := by
  unfold Files.openOther
  split
  · exact h
  rename_i f ftable hf
  obtain ⟨hzero, rfl⟩ := filealloc_eq_some hf
  split
  · exact h
  rename_i fd u hfd
  rw [update_idem] at hfd
  refine fdalloc ?_ hfd
  exact h.newFile hzero rfl htype

/-- Pages that move between the free list and the rest of the kernel. -/
theorem setOthers {others : List Nat}
    (hperm : (k.freelist ++ others).Perm (s.kmem.freelist ++ s.others)) :
    Inv { s with kmem := k, others := others } [] none :=
  { h with nodup := ((hperm.append_right _).nodup_iff).2 h.nodup }

/-- The step lemma. -/
theorem step {c : Call} (ht : Steps s c t) : Inv t [] none := by
  unfold Steps at ht
  cases c with
  | pipeRt p copied =>
    simp only [Files.step, some.injEq, map_eq_ok] at ht
    obtain ⟨⟨u, res⟩, hu, rfl⟩ := ht
    exact h.sysPipeRt hu
  | read slot ok =>
    simp only [Files.step, some.injEq, map_eq_ok] at ht
    obtain ⟨⟨u, res⟩, hu, rfl⟩ := ht
    exact h.sysRead hu
  | write slot copied =>
    simp only [Files.step, some.injEq, Except.ok.injEq] at ht
    subst ht
    exact h.sysWrite slot copied
  | dup slot =>
    simp only [Files.step, some.injEq, map_eq_ok] at ht
    obtain ⟨⟨u, res⟩, hu, rfl⟩ := ht
    exact h.sysDup hu
  | fork p np =>
    simp only [Files.step, ite_none_right_eq_some, some.injEq] at ht
    obtain ⟨⟨-, hnone⟩, ht⟩ := ht
    exact h.forkFiles (nodup_finRange _) (fun fd _ => hnone fd) ht
  | close slot =>
    simp only [Files.step, some.injEq, map_eq_ok] at ht
    obtain ⟨⟨u, res⟩, hu, rfl⟩ := ht
    exact h.sysClose hu
  | exit p =>
    simp only [Files.step, some.injEq] at ht
    exact h.exitFiles ht
  | openOther p file =>
    simp only [Files.step, ite_none_right_eq_some, some.injEq, Except.ok.injEq] at ht
    obtain ⟨htype, rfl⟩ := ht
    exact h.openOther p htype
  | otherKalloc =>
    simp only [Files.step, map_eq_some_iff, Except.ok.injEq] at ht
    obtain ⟨⟨pa, k⟩, hk, rfl⟩ := ht
    apply h.setOthers
    rw [(kalloc_eq_some.1 hk).1]
    exact perm_middle
  | otherKfree pa =>
    simp only [Files.step, ite_none_right_eq_some, some.injEq, map_eq_ok] at ht
    obtain ⟨hpa, k, hk, rfl⟩ := ht
    apply h.setOthers
    rw [(kfree_eq_ok.1 hk).2]
    exact perm_middle.symm.trans ((perm_cons_erase hpa).symm.append_left _)

end

/-- The run lemma. -/
theorem of_run {s0 : State} {cs : List Call} (hboot : Boot s0) (hrun : Run Steps s0 cs s) :
    Inv s [] none :=
  hrun.inv (I := fun s => Inv s [] none) (boot hboot) fun _ _ _ h ht => step h ht

/-! ## A pipe without descriptors -/

/-- No file is an end of a pipe that has no descriptors. -/
theorem ends_eq_zero (h : Inv s [] none) {page : Nat} (hgone : s.Gone page) (writable : Bool) :
    s.ends page writable = 0 := by
  apply Finset.sum_eq_zero
  intro f _
  apply endOf_eq_zero
  rintro ⟨htype, hpipe⟩
  have hslots : 0 < s.slots f := by
    have href := h.refs f
    have hpos : (s.ftable f).ref ≠ 0 := by
      intro hzero
      rw [h.free f hzero] at htype
      cases htype
    rw [count_nil] at href
    omega
  obtain ⟨slot, hslot⟩ := exists_pos_of_sum_pos s.ofile (slotOf f) hslots
  have hf : s.ofile slot = some f := by
    by_contra hno
    rw [slotOf, if_neg hno] at hslot
    exact Nat.lt_irrefl 0 hslot
  exact hgone slot f hf ⟨htype, hpipe⟩

/-- A pipe without descriptors has an empty queue. -/
theorem nodes_eq_nil (h : Inv s [] none) {r : Rec} (hr : r ∈ s.pipes) (hgone : s.Gone r.page) :
    r.nodes = [] := by
  have hread := h.nread r hr
  have hwrite := h.nwrite r hr
  rw [h.ends_eq_zero hgone] at hread hwrite
  have hhead := (h.drained r hr (by simpa [due] using hread) (by simpa [due] using hwrite)).1
  rw [Rec.nodes, hhead]
  rfl

end Inv

/-- In every state that a run reaches, the law of the pages holds for a pipe
if and only if the pipe still has a descriptor.  Of a pipe without
descriptors, the queue nodes are all back, each as often as it was taken,
and the page of `struct pipe_rt` is not. -/
theorem pages_accounted_iff {s₀ s : State} {cs : List Call} (hboot : Boot s₀)
    (hrun : Run Steps s₀ cs s) {r : Rec} (hr : r ∈ s.pipes) :
    (s.Accounted r ↔ ¬ s.Gone r.page) ∧
      (s.Gone r.page → r.taken.Perm (r.page :: r.given) ∧ r.page ∉ s.kmem.freelist) := by
  have h := Inv.of_run hboot hrun
  have hheld : ∀ pa ∈ r.inUse, pa ∉ s.kmem.freelist :=
    fun pa hpa hfree => h.toMemory.page_ne hfree hr hpa
  have hlost : s.Gone r.page → r.taken.Perm (r.page :: r.given) := by
    intro hgone
    have hledger := h.ledger r hr
    rwa [Rec.inUse, h.nodes_eq_nil hr hgone] at hledger
  refine ⟨⟨?_, ?_⟩, ?_⟩
  · intro hacc hgone
    have hback := (hacc.back hgone).trans (hlost hgone)
    have hlength := hback.length_eq
    simp at hlength
  · intro hopen
    refine ⟨fun hgone => absurd hgone hopen, fun _ => hheld, ?_⟩
    have hnodup := h.nodup
    rw [State.pages, List.append_assoc] at hnodup
    exact hnodup.of_append_left
  · intro hgone
    exact ⟨hlost hgone, hheld r.page (by simp [Rec.inUse])⟩

/-- A kernel with two free pages. -/
def twoPages : State where
  kmem := ⟨0, [8192, 4096]⟩
  others := []
  ftable := fun _ => ⟨.none, 0, false, 0, 0, 0, 0, 0⟩
  ofile := fun _ => none
  pipes := []

/-- A process, and its descriptors 0 and 1. -/
def proc0 : Fin NPROC := ⟨0, NPROC_pos⟩

theorem NOFILE_pos : 0 < NOFILE := by decide

def slot0 : Slot := (proc0, ⟨0, NOFILE_pos⟩)

def slot1 : Slot := (proc0, ⟨1, by decide⟩)

/-- The next state of a call that does not panic. -/
def next? (s : State) (c : Call) : Option State := (step s c).bind Except.toOption

theorem steps_of_next? {s t : State} {c : Call} (h : next? s c = some t) : Steps s c t := by
  simp only [next?, bind_eq_some_iff] at h
  obtain ⟨x, hx, ht⟩ := h
  cases x with
  | error e => cases ht
  | ok u =>
    cases ht
    exact hx

theorem boot_twoPages : Boot twoPages := ⟨rfl, fun _ => rfl, fun _ => ⟨rfl, rfl⟩, by decide⟩

/-- The pipe right after `sys_pipe_rt`: its page is in use and not free. -/
theorem pages_accounted_iff_open : (after next? twoPages [.pipeRt proc0 (true, true)]).Accounted
      ⟨8192, Pipe.init, [8192], []⟩ :=
  (pages_accounted_iff boot_twoPages
    ((Run.of_after (by decide +kernel)).mono fun _ _ _ => steps_of_next?)
    (by decide +kernel)).1.2 fun hgone =>
      hgone slot0 ⟨0, by decide⟩ (by decide +kernel) (by decide +kernel)

/-- The process makes a pipe and closes both ends.  The page of the pipe was
taken and never given back. -/
theorem closed_pipe_keeps_page : ∃ s, Boot twoPages ∧
    Run Steps twoPages [.pipeRt proc0 (true, true), .close slot0, .close slot1] s ∧
      ∃ r ∈ s.pipes, s.Gone r.page ∧ ¬ s.Accounted r := by
  refine ⟨after next? twoPages [.pipeRt proc0 (true, true), .close slot0, .close slot1],
    boot_twoPages, (Run.of_after (by decide +kernel)).mono fun _ _ _ => steps_of_next?,
    ⟨8192, ⟨[], 0, 0, false⟩, [8192], []⟩, by decide +kernel, ?_⟩
  have htypes : ∀ f, ((after next? twoPages
      [.pipeRt proc0 (true, true), .close slot0, .close slot1]).ftable f).type ≠ .pipeRt := by
    decide +kernel
  have hgone : (after next? twoPages
      [.pipeRt proc0 (true, true), .close slot0, .close slot1]).Gone 8192 :=
    fun _ f _ hend => htypes f hend.1
  exact ⟨hgone, fun hacc => absurd (hacc.back hgone).length_eq (by decide)⟩

end Xv6.PipeRt.Files
