import Xv6.Lib.Except
import Xv6.Proc.TearDown

/-!
# The shared page

What the count `shm_refs` is for: it should be the number of page tables
that map the shared page, so that the page is freed with the last of them
and is never freed under a process that still maps it.

`shmem_fork` and `shmem_exit` count, but `sys_shmget` maps the page and does
not count.  The count is therefore right along a run of `sys_shmget`, `fork`
and `exit` exactly as long as no `sys_shmget` maps the page.  The first
mapping that is inherited and then dropped frees the page while the process
that asked for it still maps it.
-/

namespace Xv6

open Lib Option

variable {init : List Nat} {w w' : World} {p : Fin NPROC} {pt : PageTable}

/-! ## The purpose of the count -/

/-- Every mapping of the shared page leads to `shm_memory`, which is a page
in use, and `shm_refs` counts the mappings. -/
def ShmConsistent (w : World) : Prop :=
  (∀ p pt l, (w.proc p).pagetable = some pt → pt.leafAt (vpn SHM_VA) = some l →
    l.pa = w.shmMemory ∧ w.shmMemory ≠ 0 ∧ w.shmMemory ∉ w.kmem.freelist) ∧
  w.shmRefs = w.mapped

/-- A step puts the shared page on the free list. -/
def FreesShm (w w' : World) : Prop :=
  w.shmMemory ≠ 0 ∧ w.shmMemory ∉ w.kmem.freelist ∧ w.shmMemory ∈ w'.kmem.freelist

/-- A step removes the last mapping of the shared page. -/
def DropsLast (w w' : World) : Prop := 0 < w.mapped ∧ w'.mapped = 0

/-- The calls that map and unmap the shared page. -/
def Call.isShm : Call → Bool
  | .shmget _ _ _ | .fork _ | .exit _ => true
  | _ => false

/-- A `sys_shmget`, `fork` or `exit` that returns. -/
def ShmStep (w : World) (c : Call) (w' : World) : Prop :=
  c.isShm = true ∧ ∃ r, w.step c = some (.ok (r, w'))

/-- A step that keeps the count right and frees the page at the right
time. -/
def GoodShmStep (w : World) (c : Call) (w' : World) : Prop :=
  ShmStep w c w' ∧ ShmConsistent w' ∧ (FreesShm w w' ↔ DropsLast w w')

/-- A `sys_shmget` that gets past its checks and has a page to map. -/
def MapsShm (w : World) : Call → Prop
  | .shmget _ key size => key = 0 ∧ size = 4096 ∧ (w.shmMemory ≠ 0 ∨ w.kmem.freelist ≠ [])
  | _ => False

instance (w : World) : (c : Call) → Decidable (MapsShm w c)
  | .shmget _ _ _ => inferInstanceAs (Decidable (_ ∧ _ ∧ _))
  | .exec _ _ _ | .wait _ _ | .fork _ | .sbrk _ _ | .exit _ => isFalse id

/-- A step that does not map the shared page with `sys_shmget`. -/
def QuietShmStep (w : World) (c : Call) (w' : World) : Prop :=
  ShmStep w c w' ∧ ¬ MapsShm w c

/-! ## `sys_shmget` -/

/-- A walk to an entry whose tables are there changes nothing. -/
theorem walk_of_has {va : Nat} (h : pt.Has va) (hva : va < MAXVA) (alloc : Bool) (k : Kmem) :
    walk pt va alloc k = .ok (true, pt, k) := by
  obtain ⟨mid, low, hmid, hlow⟩ := h
  have h2 : pt.descend (PX 2 va) alloc k = (some mid, pt, k) := by simp only [Table.descend, hmid]
  have h1 : mid.descend (PX 1 va) alloc k = (some low, mid, k) := by simp only [Table.descend, hlow]
  rw [walk, if_neg (by omega)]
  simp only [h2, h1, isSome_some, Table.set_eq_self hmid]

/-- The tables for the shared page are those of the trampoline. -/
theorem has_shm {sz : Nat} (h : Space pt sz) : pt.Has SHM_VA := by
  have hne : vpn TRAMPOLINE ≠ vpn SHM_VA := by decide
  have hleaf := (h _ hne).2 (.inr (.inr rfl))
  rw [PageTable.leafAt, if_pos (by decide), ← trampoline_eq] at hleaf
  obtain ⟨mid, low, hmid, hlow⟩ := PageTable.has_of_leaf hleaf
  have h2 : PX 2 TRAMPOLINE = PX 2 SHM_VA := by decide
  have h1 : PX 1 TRAMPOLINE = PX 1 SHM_VA := by decide
  rw [h2] at hmid
  rw [h1] at hlow
  exact ⟨mid, low, hmid, hlow⟩

/-- Mapping the shared page allocates nothing, and panics if it is mapped. -/
theorem mapShm_eq (h : pt.Has SHM_VA) (pa : Nat) (perm : Perm) (k : Kmem) :
    mappages pt SHM_VA PGSIZE pa perm k = if (pt.leaf SHM_VA).isSome then .error .mappagesRemap
      else .ok (true, pt.setLeaf SHM_VA (some { pa := pa, perm := perm }), k) := by
  have hmap := @mappages_page pt k (vpn SHM_VA) pa perm
  rw [← shm_eq] at hmap
  rw [hmap, mapPage, walk_of_has h (by decide)]
  rfl

/-- A `sys_shmget` with a page to map does not fail. -/
theorem sysShmget_maps {sz : Nat} (h : Space pt sz)
    (hpage : w.shmMemory ≠ 0 ∨ w.kmem.freelist ≠ []) {r : Int}
    (hr : w.sysShmget p pt 0 4096 = .ok (r, w')) : r = (SHM_VA : Int) := by
  unfold World.sysShmget at hr
  rw [if_neg (by omega)] at hr
  simp only at hr
  split at hr
  · rename_i hnone
    -- there is a page after all
    split at hnone
    · rename_i hzero
      have hfree := hpage.resolve_left (by simp [hzero])
      unfold kalloc at hnone
      split at hnone
      · contradiction
      · cases hnone
    · cases hnone
  simp only [bind_eq_ok, pure_eq_ok] at hr
  obtain ⟨m, hm, heq⟩ := hr
  have hok : m.1 = true := by
    rw [mapShm_eq (has_shm h)] at hm
    split at hm
    · cases hm
    cases hm
    rfl
  rw [hok, if_pos rfl] at heq
  exact (Prod.mk.inj heq).1.symm

/-- A `sys_shmget` without a page to map changes nothing. -/
theorem sysShmget_quiet {key : Int} {size : Nat}
    (h : ¬ (key = 0 ∧ size = 4096 ∧ (w.shmMemory ≠ 0 ∨ w.kmem.freelist ≠ []))) :
    w.sysShmget p pt key size = .ok (-1, w) := by
  unfold World.sysShmget
  split
  · rfl
  rename_i hargs
  have hfree : w.shmMemory = 0 ∧ w.kmem.freelist = [] := by
    by_contra hne
    exact h ⟨by omega, by omega, by tauto⟩
  simp only [hfree.1, if_true, kalloc, hfree.2]
  rfl

/-! ## Runs -/

/-- Nobody maps the shared page, and there is none. -/
structure Quiet (init : List Nat) (w : World) : Prop where
  inv : Inv init (fun _ => 0) 0 w
  refs : w.shmRefs = 0
  memory : w.shmMemory = 0

theorem Quiet.mapped_eq (h : Quiet init w) : w.mapped = 0 := by
  have hbalance := h.inv.balance
  rw [h.refs] at hbalance
  omega

theorem Quiet.leafAt_eq (h : Quiet init w) (hpt : (w.proc p).pagetable = some pt) :
    pt.leafAt (vpn SHM_VA) = none := by
  have hle := le_sum w.proc Proc.shm p
  have hzero := h.mapped_eq
  unfold World.mapped at hzero
  exact leafAt_shm_eq_none hpt (by omega)

theorem Quiet.consistent (h : Quiet init w) : ShmConsistent w := by
  refine ⟨?_, ?_⟩
  · intro p pt l hpt hl
    rw [h.leafAt_eq hpt] at hl
    cases hl
  · rw [h.refs, h.mapped_eq]
    rfl

/-- A quiet step stays quiet. -/
theorem Quiet.step (hinit : Frames init) (h : Quiet init w) {c : Call}
    (hstep : QuietShmStep w c w') : Quiet init w' := by
  obtain ⟨⟨hshm, r, hx⟩, hquiet⟩ := hstep
  unfold World.step at hx
  split at hx
  · rename_i pt hrun hpt
    have hnone := h.leafAt_eq hpt
    cases c with
    | shmget p key size =>
      rw [World.call, sysShmget_quiet hquiet] at hx
      cases hx
      exact h
    | fork p =>
      have hok := (fork_safe hinit h.inv hrun hpt).of_ok (some.inj hx)
      exact ⟨hok.1, (hok.2.2 hnone).trans h.refs, hok.2.1.trans h.memory⟩
    | exit p =>
      have hok := (exit_safe hinit h.inv hrun hpt).of_ok (some.inj hx)
      exact ⟨hok.1, (hok.2 hnone).1.trans h.refs, (hok.2 hnone).2.trans h.memory⟩
    | exec | sbrk | wait => cases hshm
  · cases hx

/-- A `sys_shmget` that maps the page makes the count wrong. -/
theorem Quiet.not_consistent (hinit : Frames init) (h : Quiet init w) {c : Call}
    (hstep : ShmStep w c w') (hmaps : MapsShm w c) : ¬ ShmConsistent w' := by
  obtain ⟨-, r, hx⟩ := hstep
  cases c with
  | shmget p key size =>
    obtain ⟨rfl, rfl, hpage⟩ := hmaps
    unfold World.step at hx
    split at hx
    · rename_i pt hrun hpt
      have hx := some.inj hx
      obtain ⟨hspace, -⟩ := h.inv.space hinit hrun hpt
      have hr := sysShmget_maps hspace hpage hx
      have hok := (sysShmget_safe hinit h.inv hrun hpt 0 4096).of_ok hx
      rcases hok with ⟨hfail, -⟩ | ⟨-, hinv⟩
      · have hne : (SHM_VA : Int) ≠ -1 := by decide
        exact absurd (hr.symm.trans hfail) hne
      intro hcons
      have hbalance := hinv.balance
      have hrefs := hcons.2
      simp only at hbalance
      omega
    · cases hx
  | fork | exec | sbrk | exit | wait => cases hmaps

theorem Quiet.good (hinit : Frames init) (h : Quiet init w) {c : Call}
    (hstep : QuietShmStep w c w') : GoodShmStep w c w' := by
  have h' := h.step hinit hstep
  refine ⟨hstep.1, h'.consistent, ?_⟩
  constructor
  · intro hfrees
    exact absurd h.memory hfrees.1
  intro hdrops
  have hzero := h.mapped_eq
  have hpos := hdrops.1
  omega

/-- The count is right, and the page is freed with its last mapping, in
every state of a run exactly if no `sys_shmget` of the run maps the page. -/
theorem shm_consistent_iff_quiet {k : Kmem} {trampoline : Nat} {w₀ w : World}
    {cs : List Call} (hinit : Frames k.freelist)
    (hboot : (World.boot k trampoline).userinit = .ok (some w₀)) :
    Run GoodShmStep w₀ cs w ↔ Run QuietShmStep w₀ cs w := by
  have hstart : Quiet k.freelist w₀ := by
    obtain ⟨hinv, hmem, hrefs⟩ :=
      (userinit_safe hinit (boot_inv k trampoline)).of_ok hboot w₀ rfl
    exact ⟨hinv, hrefs, hmem⟩
  constructor
  · intro hrun
    refine hrun.mono_of_inv hstart ?_
    intro w c w' h hstep
    have hquiet : QuietShmStep w c w' :=
      ⟨hstep.1, fun hmaps => h.not_consistent hinit hstep.1 hmaps hstep.2.1⟩
    exact ⟨hquiet, h.step hinit hquiet⟩
  · intro hrun
    refine hrun.mono_of_inv hstart ?_
    intro w c w' h hstep
    exact ⟨h.good hinit hstep, h.step hinit hstep⟩

/-- A fork and the exit of the child, without the shared page. -/
theorem shm_consistent_iff_quiet_fork_exit :
    ∃ w₀ w, (World.boot smallKmem KERNBASE).userinit = .ok (some w₀) ∧
      Run GoodShmStep w₀ [.fork ⟨0, by decide⟩, .exit ⟨1, by decide⟩] w := by
  have hrun : (smallRun (fun w c => c.isShm && ¬ MapsShm w c)
      [.fork ⟨0, by decide⟩, .exit ⟨1, by decide⟩]).isSome = true := by
    decide +kernel
  obtain ⟨w, hw⟩ := Option.isSome_iff_exists.1 hrun
  obtain ⟨w₀, hboot, hrun⟩ := exists_run_of_smallRun hw
  refine ⟨w₀, w, hboot, (shm_consistent_iff_quiet smallKmem_frames hboot).2 (hrun.mono ?_)⟩
  intro w c w' h
  obtain ⟨hok, hstep⟩ := h
  simp only [Bool.and_eq_true, decide_eq_true_eq] at hok
  exact ⟨⟨hok.1, hstep⟩, hok.2⟩

/-- The first process calls `sys_shmget` and forks, and the child exits:
the page is free while the first process still maps it. -/
theorem shm_freed_while_mapped :
    ∃ w₀ w pt l, (World.boot smallKmem KERNBASE).userinit = .ok (some w₀) ∧
      Run ShmStep w₀ [.shmget ⟨0, by decide⟩ 0 4096, .fork ⟨0, by decide⟩, .exit ⟨1, by decide⟩] w ∧
      (w.proc ⟨0, by decide⟩).pagetable = some pt ∧
      pt.leafAt (vpn SHM_VA) = some l ∧ l.pa ∈ w.kmem.freelist ∧ ¬ ShmConsistent w := by
  have hrun : (smallRun (fun _ c => c.isShm) [.shmget ⟨0, by decide⟩ 0 4096,
      .fork ⟨0, by decide⟩, .exit ⟨1, by decide⟩]).any (fun w => w.shmMemory = 0 &&
        (w.proc ⟨0, by decide⟩).pagetable.any fun pt =>
          (pt.leafAt (vpn SHM_VA)).any fun l => l.pa ∈ w.kmem.freelist) = true := by
    decide +kernel
  obtain ⟨w, hw, hfreed⟩ := (Option.any_eq_true _ _).1 hrun
  obtain ⟨w₀, hboot, hrun⟩ := exists_run_of_smallRun hw
  simp only [Bool.and_eq_true, decide_eq_true_eq, Option.any_eq_true] at hfreed
  obtain ⟨hzero, pt, hpt, l, hl, hmem⟩ := hfreed
  refine ⟨w₀, w, pt, l, hboot, hrun, hpt, hl, hmem, ?_⟩
  intro hcons
  exact (hcons.1 _ pt l hpt hl).2.1 hzero

/-! ## A second `sys_shmget` -/

/-- What `shmget(0, 4096)` is to do for a process that maps the shared page
already: return the address and change nothing. -/
def AgainHarmless (w : World) (p : Fin NPROC) (pt : PageTable) : Prop :=
  pt.leafAt (vpn SHM_VA) ≠ none → w.sysShmget p pt 0 4096 = .ok ((SHM_VA : Int), w)

/-- `mappages` does not take a page that is mapped. -/
theorem sysShmget_of_mapped (h : pt.leafAt (vpn SHM_VA) ≠ none) : w.sysShmget p pt 0 4096 =
      if w.shmMemory = 0 ∧ w.kmem.freelist = [] then .ok (-1, w)
      else .error (.panic .mappagesRemap) := by
  have hleaf : pt.leaf SHM_VA ≠ none := h
  have hmap := mapShm_eq (PageTable.has_of_leaf hleaf)
  simp only [isSome_iff_ne_none.2 hleaf, if_true] at hmap
  split
  · rename_i hnone
    exact sysShmget_quiet (by simp [hnone])
  rename_i hpage
  rw [World.sysShmget, if_neg (by omega)]
  dsimp only
  split
  · rename_i hnone
    split at hnone
    · rename_i hzero
      unfold kalloc at hnone
      split at hnone
      · exact absurd ⟨hzero, ‹_›⟩ hpage
      · cases hnone
    · cases hnone
  · rw [hmap]
    rfl

theorem not_againHarmless (hleaf : pt.leafAt (vpn SHM_VA) ≠ none) : ¬ AgainHarmless w p pt := by
  intro h
  have hcall := h hleaf
  rw [sysShmget_of_mapped hleaf] at hcall
  split at hcall
  · have hne : (-1 : Int) ≠ SHM_VA := by decide
    exact hne (Prod.mk.inj (Except.ok.inj hcall)).1
  · cases hcall

/-- A `sys_shmget` of a process that maps the shared page never does what it
should, so that only a process that does not map it yet may call it. -/
theorem shmget_again_iff_unmapped (w : World) (p : Fin NPROC) (pt : PageTable) :
    AgainHarmless w p pt ↔ pt.leafAt (vpn SHM_VA) = none := by
  refine ⟨fun h => ?_, fun hnone hleaf => absurd hnone hleaf⟩
  by_contra hleaf
  exact not_againHarmless hleaf h

/-- The first process calls `sys_shmget` and forks: another `sys_shmget` of
the process or of its child panics. -/
theorem shmget_again_panics : ∃ w₀ w, (World.boot smallKmem KERNBASE).userinit = .ok (some w₀) ∧
      Run ShmStep w₀ [.shmget ⟨0, by decide⟩ 0 4096, .fork ⟨0, by decide⟩] w ∧
      ∀ p : Fin NPROC, p.1 < 2 → w.step (.shmget p 0 4096) = some (.error (.panic .mappagesRemap)) ∧
        ∃ pt, (w.proc p).pagetable = some pt ∧ ¬ AgainHarmless w p pt := by
  have hrun : (smallRun (fun _ c => c.isShm) [.shmget ⟨0, by decide⟩ 0 4096,
      .fork ⟨0, by decide⟩]).any (fun w => w.shmMemory ≠ 0 && decide (∀ p : Fin NPROC, p.1 < 2 →
        (w.proc p).state = .runnable ∧ (w.proc p).pagetable.any fun pt =>
          (pt.leafAt (vpn SHM_VA)).isSome)) = true := by
    decide +kernel
  obtain ⟨w, hw, hmapped⟩ := (Option.any_eq_true _ _).1 hrun
  obtain ⟨w₀, hboot, hrun⟩ := exists_run_of_smallRun hw
  simp only [Bool.and_eq_true, decide_eq_true_eq, Option.any_eq_true] at hmapped
  refine ⟨w₀, w, hboot, hrun, fun p hp => ?_⟩
  obtain ⟨hstate, pt, hpt, hleaf⟩ := hmapped.2 p hp
  have hleaf := Option.isSome_iff_ne_none.1 hleaf
  refine ⟨?_, pt, hpt, not_againHarmless hleaf⟩
  rw [World.step]
  simp only [Call.proc, hstate, hpt, World.call, sysShmget_of_mapped hleaf]
  rw [if_neg fun h => hmapped.1 h.1]

end Xv6
