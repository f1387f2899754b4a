import Xv6.Proc.Model

/-!
# The memory of all processes

The invariant of the process table.  It says that no physical page is lost
or handed out twice: the free pages, the pages that the processes own and
the shared page are together exactly the pages that the allocator started
with.  It says which virtual pages a process maps: the pages of
`[0, PGROUNDUP(sz))`, the trapframe and the trampoline, and besides them at
most the shared page.  And it says that `shm_refs` falls short of the number
of mappings of the shared page by the number of `sys_shmget` calls that
made one.

The machine has at most 32768 pages, so the user pages of a process end far
below the shared page; this is why no size can grow into it.
-/

namespace Xv6

open Lib Function List Option Proc World

variable {pt : PageTable} {sz r : Nat} {pr : Proc}

/-! ## Accounts -/

/-- One if the pointer `page` is not null and points to the page `a`. -/
def pageAt (page a : Nat) : Nat := if page ≠ 0 ∧ page = a then 1 else 0

/-- How often a process owns the page `a`: as its trapframe, as a page of
its page table, or as the frame of a user page.  The page at `SHM_VA` is
counted once, as `shm_memory`. -/
def Proc.owned (pr : Proc) (a : Nat) : Nat :=
  pageAt pr.trapframe a +
    pr.pagetable.elim 0 fun pt => pt.nodes a + frames pt.leafAt 0 (npages pr.sz) a

/-- One for a page table that maps the shared page. -/
def PageTable.shm (pt : PageTable) : Nat := if pt.leafAt (vpn SHM_VA) = none then 0 else 1

/-- One for a process that maps the shared page. -/
def Proc.shm (pr : Proc) : Nat := pr.pagetable.elim 0 PageTable.shm

namespace World

/-- How often the system accounts for the page `a`. -/
def total (w : World) (a : Nat) : Nat :=
  w.kmem.freelist.count a + ∑ p, (w.proc p).owned a + pageAt w.shmMemory a

/-- The number of page tables that map the shared page. -/
def mapped (w : World) : Nat := ∑ p, (w.proc p).shm

end World

/-! ## Address spaces -/

/-- The leaves of an address space that may map the shared page. -/
def Space (pt : PageTable) (sz : Nat) : Prop :=
  ∀ v, v ≠ vpn SHM_VA →
    (pt.leafAt v ≠ none ↔ v < npages sz ∨ v = vpn TRAPFRAME ∨ v = vpn TRAMPOLINE)

/-- What a slot of the process table holds in each state. -/
def Proc.Ok (pr : Proc) : Prop :=
  match pr.state with
  | .unused => pr.trapframe = 0 ∧ pr.pagetable = none ∧ pr.sz = 0
  | .used | .zombie => ∀ pt, pr.pagetable = some pt → UserTable pt pr.sz
  | .runnable => ∃ pt, pr.pagetable = some pt ∧ Space pt pr.sz

/-- The pages that the allocator starts with. -/
structure Frames (init : List Nat) : Prop where
  nodup : init.Nodup
  aligned : ∀ a ∈ init, a % PGSIZE = 0
  kernbase : ∀ a ∈ init, KERNBASE ≤ a
  phystop : ∀ a ∈ init, a < PHYSTOP

/-- The number of pages of physical memory. -/
def maxFrames : Nat := (PHYSTOP - KERNBASE) / PGSIZE

theorem Frames.length_le {init : List Nat} (h : Frames init) : init.length ≤ maxFrames := by
  have hinj : (init.map fun a => a / PGSIZE - KERNBASE / PGSIZE).Nodup := by
    apply Nodup.map_on _ h.nodup
    intro a ha b hb hab
    have h1 := h.aligned a ha
    have h2 := h.aligned b hb
    have h3 := h.kernbase a ha
    have h4 := h.kernbase b hb
    unfold KERNBASE PGSIZE at *
    omega
  have hsub : ∀ x ∈ init.map fun a => a / PGSIZE - KERNBASE / PGSIZE, x < maxFrames := by
    intro x hx
    obtain ⟨a, ha, rfl⟩ := mem_map.1 hx
    have h1 := h.phystop a ha
    unfold maxFrames PHYSTOP KERNBASE PGSIZE at *
    omega
  have hperm : Subperm _ (range maxFrames) :=
    subperm_of_subset hinj fun x hx => mem_range.2 (hsub x hx)
  simpa using hperm.length_le

/-- The frames of `n` mapped pages, as a list. -/
theorem exists_frames {m : Nat → Option Leaf} {n : Nat} (hm : ∀ v < n, m v ≠ none) :
    ∃ l : List Nat, l.length = n ∧ ∀ a, l.count a = frames m 0 n a := by
  induction n with
  | zero => exact ⟨[], rfl, fun a => by simp [frames_self]⟩
  | succ n ih =>
    obtain ⟨l, hlen, hcount⟩ := ih fun v hv => hm v (by omega)
    obtain ⟨leaf, hleaf⟩ := ne_none_iff_exists'.1 (hm n (by omega))
    refine ⟨leaf.pa :: l, by simp [hlen], ?_⟩
    intro a
    rw [count_cons, hcount a, frames_top (Nat.zero_le n), hleaf]
    simp

/-- Pages with distinct frames are at most as many as there are frames. -/
theorem Frames.npages_le {init : List Nat} (h : Frames init) {m : Nat → Option Leaf}
    {n : Nat} (hm : ∀ v < n, m v ≠ none) (hle : ∀ a, frames m 0 n a ≤ init.count a) :
    n ≤ maxFrames := by
  obtain ⟨l, hlen, hcount⟩ := exists_frames hm
  have hsub : l.Subperm init := subperm_ext_iff.2 fun a _ => by
    rw [hcount a]
    exact hle a
  rw [← hlen]
  exact le_trans hsub.length_le h.length_le

theorem maxFrames_lt : maxFrames < vpn SHM_VA := by decide

theorem vpn_shm_lt : vpn SHM_VA < vpn TRAPFRAME := by decide

theorem shm_eq : SHM_VA = vpn SHM_VA * PGSIZE := by decide

/-- An address space without the shared page can be torn down. -/
theorem Space.userTable (h : Space pt sz)
    (hn : npages sz ≤ maxFrames) (hshm : pt.leafAt (vpn SHM_VA) = none) : UserTable pt sz := by
  have h1 := maxFrames_lt
  have h2 := vpn_shm_lt
  have h3 := vpn_trapframe_lt
  refine ⟨?_, by omega⟩
  intro v
  by_cases hv : v = vpn SHM_VA
  · rw [hv, hshm]
    simp only [ne_eq, not_true_eq_false, false_iff]
    omega
  · exact h v hv

theorem UserTable.space (h : UserTable pt sz) : Space pt sz :=
  fun v _ => h.exact v

/-- Growing an address space that can be torn down. -/
theorem UserTable.grow {pt' : PageTable} {sz' : Nat} (h : UserTable pt sz)
    (hle : npages sz ≤ npages sz')
    (hg : Grown pt.leafAt pt'.leafAt (npages sz) (npages sz')) : UserTable pt' sz' := by
  have hbelow := h.below
  have htf : npages sz' ≤ vpn TRAPFRAME := by
    by_contra hgt
    have hnone := hg.fresh (vpn TRAPFRAME) (by omega) (by omega)
    exact (h.exact _).2 (.inr (.inl rfl)) hnone
  refine ⟨?_, htf⟩
  intro v
  by_cases hv : npages sz ≤ v ∧ v < npages sz'
  · have hmapped := hg.mapped v hv.1 hv.2
    simp only [hmapped, ne_eq, not_false_eq_true, true_iff]
    exact .inl hv.2
  · rw [hg.same v (by omega), h.exact v]
    omega

/-! ## The invariant -/

/-- The invariant of the process table, while the call in progress holds
the pages that `held` counts and `maps` calls of `sys_shmget` have mapped
the shared page. -/
structure Inv (init : List Nat) (held : Nat → Nat) (maps : Nat) (w : World) : Prop where
  conserved : ∀ a, w.total a + held a = init.count a
  ok : ∀ p, (w.proc p).Ok
  torn : ∀ c ∈ w.torn, Exact c.1 c.2
  balance : w.shmRefs + maps = (w.mapped : Int)

section Inv

variable {init : List Nat} {held held' : Nat → Nat} {maps maps' : Nat} {w w' : World}
  {p : Fin NPROC}

theorem Inv.owned_le (h : Inv init held maps w) (p : Fin NPROC) (a : Nat) :
    w.kmem.freelist.count a + (w.proc p).owned a ≤ init.count a := by
  have hc := h.conserved a
  have hle := le_sum w.proc (owned · a) p
  simp only [total] at hc hle
  omega

/-- The size of a process is bounded by the physical memory. -/
theorem Inv.npages_le (hinit : Frames init) (h : Inv init held maps w)
    (hpt : (w.proc p).pagetable = some pt) (hm : ∀ v < npages (w.proc p).sz, pt.leafAt v ≠ none) :
    npages (w.proc p).sz ≤ maxFrames := by
  apply hinit.npages_le hm
  intro a
  have hle := h.owned_le p a
  simp only [owned, hpt, elim_some] at hle
  omega

/-- A step that changes one slot keeps the invariant, if the accounts of
that slot and of the global state move together. -/
theorem Inv.update (h : Inv init held maps w) (hproc : w'.proc = update w.proc p pr) (hok : pr.Ok)
    (hcount : ∀ a, w'.kmem.freelist.count a + pr.owned a + held' a + pageAt w'.shmMemory a =
      w.kmem.freelist.count a + (w.proc p).owned a + held a + pageAt w.shmMemory a)
    (htorn : ∀ c ∈ w'.torn, Exact c.1 c.2)
    (hbalance : w'.shmRefs + maps' + (w.proc p).shm = w.shmRefs + maps + pr.shm) :
    Inv init held' maps' w' := by
  refine ⟨?_, ?_, htorn, ?_⟩
  · intro a
    have hsum := sum_update w.proc (owned · a) p pr
    have h1 := hcount a
    have h2 := h.conserved a
    simp only [total, hproc] at h2 ⊢
    omega
  · intro q
    rw [hproc]
    by_cases hq : q = p
    · rwa [hq, update_self]
    rw [update_of_ne hq]
    exact h.ok q
  · have hsum := sum_update w.proc shm p pr
    have h1 := h.balance
    simp only [mapped, hproc] at h1 ⊢
    omega

/-- A step that changes only the free pages. -/
theorem Inv.of_kmem (h : Inv init held maps w) (hproc : w'.proc = w.proc)
    (hshm : w'.shmMemory = w.shmMemory) (hrefs : w'.shmRefs = w.shmRefs)
    (hcount : ∀ a, w'.kmem.freelist.count a + held' a = w.kmem.freelist.count a + held a)
    (htorn : ∀ c ∈ w'.torn, Exact c.1 c.2) : Inv init held' maps w' := by
  refine ⟨?_, by rw [hproc]; exact h.ok, htorn, ?_⟩
  · intro a
    have h1 := hcount a
    have h2 := h.conserved a
    simp only [total, hproc, hshm] at h2 ⊢
    omega
  · simp only [mapped, hproc, hrefs]
    exact h.balance

theorem UserTable.shm_none (h : UserTable pt sz)
    (hn : npages sz ≤ maxFrames) : pt.leafAt (vpn SHM_VA) = none := by
  have h1 := maxFrames_lt
  have h2 := vpn_shm_lt
  have h3 := vpn_trapframe_lt
  by_contra hne
  have := (h.exact _).1 hne
  omega

theorem UserTable.mapped (h : UserTable pt sz) : ∀ v < npages sz, pt.leafAt v ≠ none :=
  fun v hv => (h.exact v).2 (.inl hv)

theorem Proc.free_ok : free.Ok := ⟨rfl, rfl, rfl⟩

theorem Proc.owned_of_none (h : pr.pagetable = none) (a : Nat) :
    pr.owned a = pageAt pr.trapframe a := by
  simp [owned, h]

theorem Proc.owned_of_some (h : pr.pagetable = some pt) (a : Nat) :
    pr.owned a = pageAt pr.trapframe a + (pt.nodes a + frames pt.leafAt 0 (npages pr.sz) a) := by
  simp [owned, h]

theorem Proc.free_owned (a : Nat) : free.owned a = 0 := by simp [owned, free, pageAt]

/-! ## Tearing down -/

/-- What must not happen: a panic of `uvmunmap` or `freewalk`, or a panic in
the tear-down of an address space that is not exact, or a store after which
nothing is known of the page tables. -/
def Halt.TearDown : Halt → Prop
  | .panic p => p.TearDown
  | .tearDown pt sz p => ¬ Exact pt sz ∨ p.TearDown
  | .strayStore => True

/-- A computation of the memory layer as part of a call. -/
theorem safe_lift {α : Type} {x : Except Panic α} {Q : α → Prop}
    (h : Safe Panic.TearDown x Q) : Safe Halt.TearDown (liftM x : Except Halt α) Q := by
  cases x with
  | ok a => exact .ok (h.of_ok rfl)
  | error e => exact .error (h.not_bad rfl)

/-- A tear-down of an exact address space keeps the record exact. -/
theorem tearDown_safe (hut : UserTable pt sz) (htorn : ∀ c ∈ w.torn, Exact c.1 c.2) :
    Safe Halt.TearDown (w.tearDown pt sz) fun w' =>
      w'.proc = w.proc ∧ w'.shmMemory = w.shmMemory ∧ w'.shmRefs = w.shmRefs ∧
      (∀ c ∈ w'.torn, Exact c.1 c.2) ∧ ∀ a, w'.kmem.freelist.count a =
        w.kmem.freelist.count a + pt.nodes a + frames pt.leafAt 0 (npages sz) a := by
  have hfree : Safe Halt.TearDown
      ((procFreepagetable pt sz w.kmem).mapError (.tearDown pt sz)) fun k =>
        ∀ a, k.freelist.count a =
          w.kmem.freelist.count a + pt.nodes a + frames pt.leafAt 0 (npages sz) a := by
    have h := procFreepagetable_safe (k := w.kmem) hut
    cases hx : procFreepagetable pt sz w.kmem with
    | ok k => exact .ok (h.of_ok hx)
    | error e =>
      refine .error ?_
      rintro (hexact | hbad)
      · exact hexact hut.exact
      · exact h.not_bad hx hbad
  unfold tearDown
  apply hfree.bind
  intro k hk
  refine .pure ⟨rfl, rfl, rfl, ?_, hk⟩
  intro c hc
  rcases mem_cons.1 hc with rfl | hc
  · exact hut.exact
  · exact htorn c hc

/-- The shared page and its count are as before. -/
def SameShm (w w' : World) : Prop :=
  w'.shmMemory = w.shmMemory ∧ w'.shmRefs = w.shmRefs

/-- Freeing a process that is not running. -/
theorem freeproc_safe (hinit : Frames init) (h : Inv init held maps w)
    (hut : ∀ pt, (w.proc p).pagetable = some pt → UserTable pt (w.proc p).sz) :
    Safe Halt.TearDown (w.freeproc p) fun w' => Inv init held maps w' ∧ SameShm w w' := by
  have hframe : Safe Halt.TearDown
      (if (w.proc p).trapframe ≠ 0 then liftM (kfree w.kmem (w.proc p).trapframe)
        else pure w.kmem : Except Halt Kmem) fun k => ∀ a, k.freelist.count a =
          w.kmem.freelist.count a + pageAt (w.proc p).trapframe a := by
    unfold pageAt
    split
    · rename_i htf
      apply (safe_lift (kfree_safe w.kmem (w.proc p).trapframe)).mono
      intro k hk a
      rw [hk a]
      simp [htf]
    · rename_i htf
      exact .pure fun a => by simp [htf]
  unfold freeproc
  apply hframe.bind
  intro k hk
  cases hpt : (w.proc p).pagetable with
  | none =>
    simp only [hpt, pure_bind]
    refine .pure ⟨h.update rfl free_ok ?_ h.torn ?_, rfl, rfl⟩
    · intro a
      have hka := hk a
      rw [free_owned, owned_of_none hpt]
      simp only [setProc]
      omega
    · simp [setProc, shm, free, hpt]
  | some pt =>
    have hpt' := hut pt hpt
    have hn := h.npages_le hinit hpt hpt'.mapped
    simp only [hpt]
    refine .bind (tearDown_safe hpt' ?_) ?_
    · exact h.torn
    intro w' hw'
    obtain ⟨hproc, hmem, hrefs, htorn, hcount⟩ := hw'
    refine .pure ⟨h.update (p := p) (by simp [setProc, hproc]) free_ok ?_ htorn ?_, hmem, hrefs⟩
    · intro a
      have hka := hk a
      have hca := hcount a
      rw [free_owned, owned_of_some hpt]
      simp only [setProc, hmem] at hca ⊢
      omega
    · have hshm : (w.proc p).shm = 0 := by simp [shm, hpt, PageTable.shm, hpt'.shm_none hn]
      have hfree : free.shm = 0 := rfl
      simp only [setProc, hrefs, hshm, hfree]

/-! ## `allocproc` -/

/-- The pages of the allocator are not null. -/
theorem Frames.pageAt_eq (hinit : Frames init) (hr : r ∈ init) (a : Nat) :
    pageAt r a = if r = a then 1 else 0 := by
  have hpos := hinit.kernbase r hr
  have hne : r ≠ 0 := by
    unfold KERNBASE at hpos
    omega
  simp [pageAt, hne]

theorem Inv.mem_init (h : Inv init held maps w) (hr : r ∈ w.kmem.freelist) : r ∈ init := by
  have hc := h.conserved r
  have hpos := count_pos_iff.2 hr
  unfold total at hc
  exact count_pos_iff.1 (by omega)

/-- `kalloc` hands out a page of the allocator. -/
theorem Inv.of_kalloc (hinit : Frames init) (h : Inv init held maps w) {k : Kmem}
    (hk : kalloc w.kmem = some (r, k)) (a : Nat) :
    pageAt r a + k.freelist.count a = w.kmem.freelist.count a := by
  have hmem : r ∈ w.kmem.freelist := by
    rw [(kalloc_eq_some.1 hk).1]
    exact mem_cons_self
  rw [hinit.pageAt_eq (h.mem_init hmem)]
  exact kalloc_count hk a

/-- The state of a slot that `allocproc` has filled. -/
structure Fresh (w : World) (np : Fin NPROC) (npt : PageTable) : Prop where
  state : (w.proc np).state = .used
  pagetable : (w.proc np).pagetable = some npt
  sz : (w.proc np).sz = 0
  table : UserTable npt 0

/-- `allocproc` gives everything back, or fills an unused slot. -/
theorem allocproc_safe (hinit : Frames init) (h : Inv init held maps w) :
    Safe Halt.TearDown w.allocproc fun r => Inv init held maps r.2 ∧ SameShm w r.2 ∧
      ∀ np, r.1 = some np → (w.proc np).state = .unused ∧
        (∀ q, q ≠ np → r.2.proc q = w.proc q) ∧ ∃ npt, Fresh r.2 np npt := by
  unfold allocproc
  split
  · exact .pure ⟨h, ⟨rfl, rfl⟩, by simp⟩
  rename_i p hfind
  have hunused : (w.proc p).state = .unused := by simpa using find?_some hfind
  have hok := h.ok p
  simp only [Ok, hunused] at hok
  obtain ⟨htf, hpt, hsz⟩ := hok
  have hown : ∀ a, (w.proc p).owned a = 0 := by
    intro a
    rw [owned_of_none hpt, htf]
    simp [pageAt]
  have hshm : (w.proc p).shm = 0 := by simp [shm, hpt]
  -- an intermediate state of the slot that owns what `pr` says
  have hstep : ∀ (pr : Proc) (k : Kmem), pr.state = .used →
      (∀ pt, pr.pagetable = some pt → UserTable pt pr.sz) → pr.shm = 0 →
      (∀ a, k.freelist.count a + pr.owned a = w.kmem.freelist.count a) →
      Inv init held maps (setProc { w with nextpid := w.nextpid + 1, kmem := k } p pr) := by
    intro pr k hstate hut hprshm hcount
    apply h.update rfl
    · simp only [Ok, hstate]
      exact hut
    · intro a
      have hca := hcount a
      rw [hown a]
      simp only [setProc]
      omega
    · exact h.torn
    · simp only [setProc, hshm, hprshm]
  have hothers : ∀ (pr : Proc) (k : Kmem) (q : Fin NPROC), q ≠ p →
      (setProc { w with nextpid := w.nextpid + 1, kmem := k } p pr).proc q =
        w.proc q := by
    intro pr k q hq
    simp [setProc, update_of_ne hq]
  simp only
  cases hk : kalloc w.kmem with
  | none =>
    have hinv := hstep { w.proc p with state := .used, pid := w.nextpid } w.kmem rfl
      (by simp [hpt]) (by simp [shm, hpt]) (fun a => by
        simp only [owned, hpt, htf]
        simp [pageAt])
    apply (freeproc_safe hinit hinv (by simp [setProc, hpt])).bind
    intro w' hw'
    exact .pure ⟨hw'.1, hw'.2, by simp⟩
  | some r =>
    obtain ⟨tf, k⟩ := r
    have hkc := fun a => h.of_kalloc hinit hk a
    apply (safe_lift (procPagetable_safe w.trampoline tf)).bind
    intro r hr
    obtain ⟨made, k'⟩ := r
    rcases hr with ⟨pt, rfl, hut, hcount⟩ | ⟨rfl, hcount⟩
    · have hinv := hstep { w.proc p with
          state := .used, pid := w.nextpid, trapframe := tf, pagetable := some pt } k' rfl
        (fun pt' hpt' => by
          cases hpt'
          simp only [hsz]
          exact hut)
        (by simp [shm, PageTable.shm, hut.shm_none (by rw [npages_zero]; exact Nat.zero_le _)])
        (fun a => by
          have h1 := hkc a
          have h2 := hcount a
          rw [owned_of_some rfl]
          simp only [hsz, npages_zero, frames_self] at h2 ⊢
          omega)
      refine .pure ⟨hinv, ⟨rfl, rfl⟩, ?_⟩
      intro np hnp
      cases hnp
      refine ⟨hunused, hothers _ _, pt, ?_⟩
      constructor
      · simp [setProc]
      · simp [setProc]
      · simp [setProc, hsz]
      · exact hut
    · have hinv := hstep { w.proc p with
          state := .used, pid := w.nextpid, trapframe := tf } k' rfl
        (by simp [hpt]) (by simp [shm, hpt]) (fun a => by
          have h1 := hkc a
          have h2 := hcount a
          simp only [owned, hpt, elim_none] at h2 ⊢
          omega)
      apply (freeproc_safe hinit hinv (by simp [setProc, hpt])).bind
      intro w' hw'
      exact .pure ⟨hw'.1, hw'.2, by simp⟩

end Inv

end Xv6
