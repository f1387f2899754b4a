import Xv6.Proc.Exec

/-!
# Every address space is torn down exactly

A run starts with the process that `userinit` makes and goes on with any
calls by any processes.  As long as no process that maps the shared page
calls `exec`, and no process keeps a mapping of a page that is shared no
more, every call of `proc_freepagetable` finds exactly the trampoline, the
trapframe and the pages below the size, and no panic of `uvmunmap` or
`freewalk` is reached.  A process that calls `sys_shmget` and then `exec`
reaches one: nothing removes the mapping of the shared page.
-/

namespace Xv6

open Function Lib World

variable {init : List Nat} {maps : Nat} {w : World}

/-! ## The first process -/

theorem boot_inv (k : Kmem) (trampoline : Nat) :
    Inv k.freelist (fun _ => 0) 0 (World.boot k trampoline) := by
  refine ⟨?_, ?_, ?_, ?_⟩
  · intro a
    simp [total, boot, Proc.free_owned, pageAt]
  · intro p
    exact Proc.free_ok
  · simp [boot]
  · simp [boot, mapped, Proc.shm, Proc.free]

/-- The first process: its page at address 0. -/
theorem userinit_safe (hinit : Frames init) (h : Inv init (fun _ => 0) maps w) :
    Safe Halt.TearDown w.userinit fun r =>
      ∀ w', r = some w' → Inv init (fun _ => 0) maps w' ∧ SameShm w w' := by
  unfold World.userinit
  apply (allocproc_safe hinit h).bind
  intro r hr
  obtain ⟨h1, hsame, hnew⟩ := hr
  cases hnp : r.1 with
  | none => exact .pure (by simp)
  | some np =>
    obtain ⟨-, -, npt, hf⟩ := hnew np hnp
    simp only [hf.pagetable]
    cases hk : kalloc r.2.kmem with
    | none => exact .pure (by simp)
    | some m =>
      obtain ⟨mem, k⟩ := m
      have hmap := @mapPage_safe npt k 0 mem (userPerm true true)
      rw [← mappages_page, Nat.zero_mul] at hmap
      apply (safe_lift hmap).bind
      intro m hm
      obtain ⟨hnodes, ⟨hok, -, hleaf⟩ | ⟨hok, -⟩⟩ := hm
      · simp only [hok, if_true]
        refine .pure ?_
        intro w' hw'
        cases hw'
        refine ⟨?_, hsame⟩
        have hone : npages PGSIZE = 0 + 1 := by decide
        have hne : vpn SHM_VA ≠ 0 := by decide
        have hcount : ∀ a, m.2.1.nodes a + m.2.2.freelist.count a +
            frames m.2.1.leafAt 0 (npages PGSIZE) a =
            npt.nodes a + r.2.kmem.freelist.count a := by
          intro a
          have h2 := hnodes a
          have h3 := kalloc_count hk a
          rw [hone, frames_top (le_refl 0), frames_self, hleaf, update_self, Option.elim_some]
          simp only
          omega
        refine h1.of_fresh hf ?_ ?_ ?_ rfl hcount rfl rfl ?_
        · rfl
        · rfl
        · refine ⟨m.2.1, rfl, ?_⟩
          intro v hv
          rw [hleaf, hone]
          by_cases hzero : v = 0
          · simp [hzero]
          rw [update_of_ne hzero, hf.table.exact v, npages_zero]
          omega
        · rw [shm_of_none]
          · simp [setProc]
          · rw [hleaf, update_of_ne hne]
            exact hf.table.shm_none (by decide)
      · simp only [hok]
        exact .pure (by simp)

/-! ## A step -/

/-- Every mapping of the shared page leads to `shm_memory`.  Through any
other mapping a store would reach a free page, or a page of a page table. -/
def ShmLive (w : World) : Prop :=
  ∀ p, ∀ pt ∈ (w.proc p).pagetable, ∀ l ∈ pt.leafAt (vpn SHM_VA),
    w.shmMemory ≠ 0 ∧ l.pa = w.shmMemory

/-- The calls that keep the address spaces exact: no process maps a page
that is shared no more, and an `exec` is by a process that does not map the
shared page. -/
def Allowed (w : World) : Call → Prop
  | .exec p _ _ => ShmLive w ∧ (w.proc p).shm = 0
  | _ => ShmLive w

instance instDecidableShmLive (w : World) : Decidable (ShmLive w) :=
  inferInstanceAs (Decidable (∀ _, _))

instance (w : World) : (c : Call) → Decidable (Allowed w c)
  | .exec _ _ _ => inferInstanceAs (Decidable (_ ∧ _))
  | .shmget _ _ _ | .wait _ _ | .fork _ | .sbrk _ _ | .exit _ => instDecidableShmLive w

theorem leafAt_shm_eq_none {pr : Proc} {pt : PageTable} (hpt : pr.pagetable = some pt)
    (h : pr.shm = 0) : pt.leafAt (vpn SHM_VA) = none := by
  rw [Proc.shm, hpt, Option.elim_some, PageTable.shm] at h
  by_contra hne
  rw [if_neg hne] at h
  omega

theorem ShmLive.strayStore_eq {p : Fin NPROC} {pt : PageTable} (h : ShmLive w)
    (hpt : (w.proc p).pagetable = some pt) (addr len : Nat) :
    w.strayStore pt addr len = false := by
  rw [strayStore, List.any_eq_false]
  intro i _
  cases hl : pt.leaf SHM_VA with
  | none => simp
  | some l => simp [h p pt hpt l hl]

variable {c : Call}

/-- Every allowed call keeps the invariant. -/
theorem step_safe (hinit : Frames init) (h : Inv init (fun _ => 0) maps w)
    (hc : Allowed w c) {x : Except Halt (Int × World)} (hx : w.step c = some x) :
    Safe Halt.TearDown x fun r => ∃ maps, Inv init (fun _ => 0) maps r.2 := by
  unfold World.step at hx
  split at hx
  · rename_i pt hrun hpt
    cases c with
    | shmget p key size =>
      cases hx
      apply (sysShmget_safe hinit h hrun hpt key size).mono
      intro r hr
      rcases hr with ⟨-, hr⟩ | ⟨-, hr⟩ <;> exact ⟨_, hr⟩
    | fork p =>
      cases hx
      exact (fork_safe hinit h hrun hpt).mono fun r hr => ⟨_, hr.1⟩
    | exec p image args =>
      cases hx
      have hnone := leafAt_shm_eq_none hpt hc.2
      exact (sysExec_safe hinit h hrun hpt hnone image args).mono fun r hr => ⟨_, hr⟩
    | sbrk p n =>
      cases hx
      exact (growproc_safe hinit h hrun hpt n).mono fun r hr => ⟨_, hr⟩
    | exit p =>
      cases hx
      exact (exit_safe hinit h hrun hpt).mono fun r hr => ⟨_, hr.1⟩
    | wait p addr =>
      exact (wait_safe hinit h addr (hc.strayStore_eq hpt addr 4) hx).mono fun r hr => ⟨_, hr⟩
  · cases hx

/-- A step that is allowed. -/
def AllowedStep (w : World) (c : Call) (w' : World) : Prop :=
  Allowed w c ∧ ∃ r, w.step c = some (.ok (r, w'))

variable {w' : World}

theorem AllowedStep.inv (hinit : Frames init) (h : Inv init (fun _ => 0) maps w)
    (hstep : AllowedStep w c w') : ∃ maps, Inv init (fun _ => 0) maps w' := by
  obtain ⟨hallowed, r, hx⟩ := hstep
  exact (step_safe hinit h hallowed hx).of_ok rfl

/-! ## Runs -/

section

variable {k : Kmem} {trampoline : Nat} {w₀ : World} {cs : List Call} (hinit : Frames k.freelist)
  (hboot : (World.boot k trampoline).userinit = .ok (some w₀)) (hrun : Run AllowedStep w₀ cs w)

include hinit hboot hrun

theorem exists_inv_of_run : ∃ maps, Inv k.freelist (fun _ => 0) maps w := by
  refine hrun.inv (I := fun w => ∃ maps, Inv k.freelist (fun _ => 0) maps w) ?_ ?_
  · exact ⟨0, ((userinit_safe hinit (boot_inv k trampoline)).of_ok hboot w₀ rfl).1⟩
  · rintro w c w' ⟨maps, h⟩ hstep
    exact hstep.inv hinit h

/-- In every run of allowed calls every tear-down is exact, and no allowed
call ends in a wrong one. -/
theorem tearDown_exact_of_allowed :
    (∀ t ∈ w.torn, Exact t.1 t.2) ∧
    ∀ c e, Allowed w c → w.step c = some (.error e) → ¬ e.TearDown := by
  obtain ⟨maps, h⟩ := exists_inv_of_run hinit hboot hrun
  refine ⟨h.torn, ?_⟩
  intro c e hc hx
  exact (step_safe hinit h hc hx).not_bad rfl

/-- In every run of allowed calls no page is lost, and none is in two places: a
page that a process uses is neither free nor the shared page, and no other
process uses it; and what a process maps as the shared page is neither free
nor a page that a process uses. -/
theorem pages_have_one_owner (hlive : ShmLive w) :
    (∀ a, w.total a = k.freelist.count a) ∧ (∀ a p, 0 < (w.proc p).owned a →
      a ∉ w.kmem.freelist ∧ a ≠ w.shmMemory ∧ ∀ q, 0 < (w.proc q).owned a → q = p) ∧
    ∀ p, ∀ pt ∈ (w.proc p).pagetable, ∀ l ∈ pt.leafAt (vpn SHM_VA),
      l.pa ∉ w.kmem.freelist ∧ ∀ q, (w.proc q).owned l.pa = 0 := by
  obtain ⟨maps, h⟩ := exists_inv_of_run hinit hboot hrun
  have hcount : ∀ a, w.kmem.freelist.count a + ∑ p, (w.proc p).owned a + pageAt w.shmMemory a =
      k.freelist.count a := fun a => by simpa only [total, add_zero] using h.conserved a
  have hone := List.nodup_iff_count_le_one.1 hinit.nodup
  refine ⟨hcount, fun a p hp => ?_, fun p pt hpt l hl => ?_⟩
  · have hle := le_sum w.proc (Proc.owned · a) p
    have htotal := hcount a
    have hle1 := hone a
    refine ⟨fun hfree => ?_, fun hshm => ?_, fun q hq => ?_⟩
    · have hpos := List.count_pos_iff.2 hfree
      omega
    · have hmem : a ∈ k.freelist := List.count_pos_iff.1 (by omega)
      rw [← hshm, hinit.pageAt_eq hmem, if_pos rfl] at htotal
      omega
    by_contra hne
    have hpair := Finset.add_le_sum (f := fun p => (w.proc p).owned a) (fun _ _ => Nat.zero_le _)
      (Finset.mem_univ q) (Finset.mem_univ p) hne
    omega
  obtain ⟨hne, hpa⟩ := hlive p pt hpt l hl
  have htotal := hcount w.shmMemory
  have hle1 := hone w.shmMemory
  rw [pageAt, if_pos ⟨hne, rfl⟩] at htotal
  refine ⟨fun hfree => ?_, fun q => ?_⟩
  · have hpos := List.count_pos_iff.2 hfree
    rw [hpa] at hpos
    omega
  have hle := le_sum w.proc (Proc.owned · w.shmMemory) q
  rw [hpa]
  omega

end

/-- A machine with 40 free pages. -/
def smallKmem : Kmem :=
  { kernelEnd := KERNBASE, freelist := (List.range 40).map fun i => KERNBASE + i * PGSIZE }

theorem smallKmem_frames : Frames smallKmem.freelist := by constructor <;> decide

/-- A program of one page. -/
def smallImage : Image :=
  { magic := some ELF_MAGIC
    phdrs := [some { type := ELF_PROG_LOAD, flags := 7, vaddr := 0, filesz := 100,
                     memsz := 200, reads := 1 }] }

/-- The steps that satisfy `ok`, computed. -/
def stepIf (ok : World → Call → Bool) (w : World) (c : Call) : Option World :=
  if ok w c then
    match w.step c with
    | some (.ok r) => some r.2
    | _ => none
  else
    none

theorem stepIf_eq_some {ok : World → Call → Bool} (h : stepIf ok w c = some w') :
    ok w c = true ∧ ∃ r, w.step c = some (.ok (r, w')) := by
  unfold stepIf at h
  split at h
  · rename_i hok
    split at h
    · rename_i r hr
      cases h
      exact ⟨hok, r.1, hr⟩
    · cases h
  · cases h

/-- The state after the calls `cs` on the small machine, all of which must
satisfy `ok`. -/
def smallRun (ok : World → Call → Bool) (cs : List Call) : Option World :=
  match (World.boot smallKmem KERNBASE).userinit with
  | .ok (some w₀) => follow (stepIf ok) w₀ cs
  | _ => none

theorem exists_run_of_smallRun {ok : World → Call → Bool} {cs : List Call} {w : World}
    (h : smallRun ok cs = some w) : ∃ w0, (World.boot smallKmem KERNBASE).userinit = .ok (some w0) ∧
      Run (fun w c w' => ok w c = true ∧ ∃ r, w.step c = some (.ok (r, w'))) w0 cs w := by
  unfold smallRun at h
  split at h
  · rename_i w0 hboot
    exact ⟨w0, hboot, (Run.of_follow h).mono fun _ _ _ => stepIf_eq_some⟩
  · cases h

theorem allowedStep_of_decide
    (h : decide (Allowed w c) = true ∧ ∃ r, w.step c = some (.ok (r, w'))) : AllowedStep w c w' :=
  ⟨of_decide_eq_true h.1, h.2⟩

/-- The first process forks, the child becomes another program and exits,
and the first process reaps it: both address spaces of the child are torn
down. -/
theorem tearDown_exact_of_allowed_reaped :
    ∃ w₀ w, (World.boot smallKmem KERNBASE).userinit = .ok (some w₀) ∧
      Run AllowedStep w₀ [.fork ⟨0, by decide⟩, .exec ⟨1, by decide⟩ (some smallImage) [],
        .exit ⟨1, by decide⟩, .wait ⟨0, by decide⟩ 0] w ∧
      w.torn.length = 2 ∧ (∀ t ∈ w.torn, Exact t.1 t.2) ∧
      ∀ c e, Allowed w c → w.step c = some (.error e) → ¬ e.TearDown := by
  have hrun : (smallRun (fun w c => Allowed w c) [.fork ⟨0, by decide⟩,
      .exec ⟨1, by decide⟩ (some smallImage) [], .exit ⟨1, by decide⟩,
      .wait ⟨0, by decide⟩ 0]).any (fun w => w.torn.length = 2) = true := by
    decide +kernel
  obtain ⟨w, hw, htorn⟩ := (Option.any_eq_true _ _).1 hrun
  obtain ⟨w₀, hboot, hrun⟩ := exists_run_of_smallRun hw
  have hrun := hrun.mono fun _ _ _ => allowedStep_of_decide
  exact ⟨w₀, w, hboot, hrun, of_decide_eq_true htorn,
    tearDown_exact_of_allowed smallKmem_frames hboot hrun⟩

/-- The first process asks for the shared page and forks: both map it. -/
theorem pages_have_one_owner_forked :
    ∃ w₀ w, (World.boot smallKmem KERNBASE).userinit = .ok (some w₀) ∧
      Run AllowedStep w₀ [.shmget ⟨0, by decide⟩ 0 4096, .fork ⟨0, by decide⟩] w ∧
      w.mapped = 2 ∧ ∀ p, ∀ pt ∈ (w.proc p).pagetable, ∀ l ∈ pt.leafAt (vpn SHM_VA),
        l.pa ∉ w.kmem.freelist ∧ ∀ q, (w.proc q).owned l.pa = 0 := by
  have hrun : (smallRun (fun w c => Allowed w c) [.shmget ⟨0, by decide⟩ 0 4096,
      .fork ⟨0, by decide⟩]).any (fun w => w.mapped = 2 && ShmLive w) = true := by
    decide +kernel
  obtain ⟨w, hw, hshm⟩ := (Option.any_eq_true _ _).1 hrun
  obtain ⟨w₀, hboot, hrun⟩ := exists_run_of_smallRun hw
  simp only [Bool.and_eq_true, decide_eq_true_eq] at hshm
  have hrun := hrun.mono fun _ _ _ => allowedStep_of_decide
  exact ⟨w₀, w, hboot, hrun, hshm.1,
    (pages_have_one_owner smallKmem_frames hboot hrun hshm.2).2.2⟩

/-- Whether a call panics with "freewalk: leaf" in the tear-down of an
address space of one page that maps the shared page. -/
def leavesShm (w : World) (c : Call) : Bool :=
  match w.step c with
  | some (.error (.tearDown pt sz .freewalkLeaf)) => pt.shm = 1 && npages sz = 1
  | _ => false

/-- The first process calls `sys_shmget` and then `exec`: the tear-down of
its old address space finds the shared page and panics. -/
theorem exec_panics_after_shmget :
    ∃ w₀ w pt sz, (World.boot smallKmem KERNBASE).userinit = .ok (some w₀) ∧
      Run AllowedStep w₀ [.shmget ⟨0, by decide⟩ 0 4096] w ∧
      w.step (.exec ⟨0, by decide⟩ (some smallImage) []) =
        some (.error (.tearDown pt sz .freewalkLeaf)) ∧
      ¬ Exact pt sz := by
  have hrun : (smallRun (fun w c => Allowed w c) [.shmget ⟨0, by decide⟩ 0 4096]).any
      (fun w => leavesShm w (.exec ⟨0, by decide⟩ (some smallImage) [])) = true := by
    decide +kernel
  obtain ⟨w, hw, hpanic⟩ := (Option.any_eq_true _ _).1 hrun
  obtain ⟨w₀, hboot, hrun⟩ := exists_run_of_smallRun hw
  have hrun := hrun.mono fun _ _ _ => allowedStep_of_decide
  unfold leavesShm at hpanic
  split at hpanic
  · rename_i pt sz hstep
    simp only [Bool.and_eq_true, decide_eq_true_eq] at hpanic
    obtain ⟨hshm, hsz⟩ := hpanic
    refine ⟨w₀, w, pt, sz, hboot, hrun, hstep, ?_⟩
    intro hexact
    have hmapped : pt.leafAt (vpn SHM_VA) ≠ none := by
      intro hnone
      rw [shm_of_none hnone] at hshm
      omega
    have hout := (hexact _).1 hmapped
    rw [hsz] at hout
    revert hout
    decide
  · cases hpanic

end Xv6
