import Xv6.Vm.PageTable

/-!
# User address spaces

The functions of `kernel/vm.c` and `kernel/proc.c` that build, grow, copy
and free a user address space.  Sizes are byte counts as in the source, and
a loop over pages counts virtual page numbers.

Each function has one specification, which says how the map of virtual
pages changes and that no physical page is lost or duplicated: the pages of
the table, the frames of the user pages and the free pages add up to what
they were.
-/

namespace Xv6

open Lib Function Nat Option PageTable

/-! ## Sizes -/

/-- `PGROUNDUP(sz) / PGSIZE`: the number of pages of `[0, sz)`. -/
def npages (sz : Nat) : Nat := (sz + PGSIZE - 1) / PGSIZE

/-- `PGROUNDUP`. -/
def pgroundup (sz : Nat) : Nat := npages sz * PGSIZE

/-- The permissions of a user page: `PTE_R | PTE_U | xperm`. -/
def userPerm (w x : Bool) : Perm :=
  { r := true, w := w, x := x, u := true, isLeaf := by simp }

/-! ## Growing and shrinking -/

/-- `uvmdealloc`. -/
def uvmdealloc (pt : PageTable) (oldsz newsz : Nat) (k : Kmem) :
    Except Panic (Nat × PageTable × Kmem) :=
  if newsz ≥ oldsz then
    .ok (oldsz, pt, k)
  else if pgroundup newsz < pgroundup oldsz then do
    let r ← uvmunmap pt (pgroundup newsz) ((pgroundup oldsz - pgroundup newsz) / PGSIZE) true k
    return (newsz, r.1, r.2)
  else
    .ok (newsz, pt, k)

/-- The loop that `uvmalloc` and `uvmcopy` share: give the `n` pages from
`v` on a new frame each.  `permAt` computes the permissions of a page, and
`undo pt v` is what the loop does before it gives up at page `v`. -/
def fillPages (permAt : Nat → Kmem → Except Panic Perm)
    (undo : PageTable → Nat → Kmem → Except Panic (PageTable × Kmem))
    (pt : PageTable) (v : Nat) (k : Kmem) : Nat → Except Panic (Bool × PageTable × Kmem)
  | 0 => return (true, pt, k)
  | n + 1 => do
    let perm ← permAt v k
    match kalloc k with
    | none =>
      let r ← undo pt v k
      return (false, r.1, r.2)
    | some (mem, k) =>
      let r ← mappages pt (v * PGSIZE) PGSIZE mem perm k
      if r.1 then
        fillPages permAt undo r.2.1 (v + 1) r.2.2 n
      else
        let k ← kfree r.2.2 mem
        let r ← undo r.2.1 v k
        return (false, r.1, r.2)

/-- `uvmalloc`.  The result is 0 on failure. -/
def uvmalloc (pt : PageTable) (oldsz newsz : Nat) (w x : Bool) (k : Kmem) :
    Except Panic (Nat × PageTable × Kmem) :=
  if newsz < oldsz then
    .ok (oldsz, pt, k)
  else do
    let undo := fun pt v k => do
      let r ← uvmdealloc pt (v * PGSIZE) (pgroundup oldsz) k
      return (r.2.1, r.2.2)
    let r ← fillPages (fun _ _ => return userPerm w x) undo pt (npages oldsz) k
      (npages newsz - npages oldsz)
    return (if r.1 then newsz else 0, r.2.1, r.2.2)

/-- The permissions that `uvmcopy` copies. -/
def copiedPerm (old : PageTable) (v : Nat) (k : Kmem) : Except Panic Perm := do
  let r ← walk old (v * PGSIZE) false k
  if r.1 then
    match old.leaf (v * PGSIZE) with
    | none => throw .uvmcopyPageNotPresent
    | some l => return l.perm
  else
    throw .uvmcopyPteShouldExist

/-- `uvmcopy`.  The flag is false where the source returns `-1`. -/
def uvmcopy (old new : PageTable) (sz : Nat) (k : Kmem) :
    Except Panic (Bool × PageTable × Kmem) :=
  fillPages (copiedPerm old) (fun new v k => uvmunmap new 0 v true k) new 0 k (npages sz)

/-- `uvmclear`: take the user's access to a page away. -/
def uvmclear (pt : PageTable) (va : Nat) (k : Kmem) : Except Panic PageTable := do
  let r ← walk pt va false k
  if r.1 then
    return pt.setLeaf va ((pt.leaf va).map fun l =>
      { l with perm := { l.perm with u := false } })
  else
    throw .uvmclear

/-! ## Whole address spaces -/

/-- `uvmfree`. -/
def uvmfree (pt : PageTable) (sz : Nat) (k : Kmem) : Except Panic Kmem := do
  if sz > 0 then
    let r ← uvmunmap pt 0 (pgroundup sz / PGSIZE) true k
    freewalk r.1 r.2
  else
    freewalk pt k

/-- The permissions of the trampoline page: `PTE_R | PTE_X`. -/
def trampolinePerm : Perm := { r := true, w := false, x := true, u := false, isLeaf := rfl }

/-- The permissions of the trapframe page: `PTE_R | PTE_W`. -/
def trapframePerm : Perm := { r := true, w := true, x := false, u := false, isLeaf := rfl }

/-- `proc_pagetable` for a process with the given trapframe page; `none`
when out of memory. -/
def procPagetable (trampoline trapframe : Nat) (k : Kmem) :
    Except Panic (Option PageTable × Kmem) :=
  match uvmcreate k with
  | none => return (none, k)
  | some (pt, k) => do
    let r ← mappages pt TRAMPOLINE PGSIZE trampoline trampolinePerm k
    if r.1 then
      let r ← mappages r.2.1 TRAPFRAME PGSIZE trapframe trapframePerm r.2.2
      if r.1 then
        return (some r.2.1, r.2.2)
      else
        let r ← uvmunmap r.2.1 TRAMPOLINE 1 false r.2.2
        let k ← uvmfree r.1 0 r.2
        return (none, k)
    else
      let k ← uvmfree r.2.1 0 r.2.2
      return (none, k)

/-- `proc_freepagetable`. -/
def procFreepagetable (pt : PageTable) (sz : Nat) (k : Kmem) : Except Panic Kmem := do
  let r ← uvmunmap pt TRAMPOLINE 1 false k
  let r ← uvmunmap r.1 TRAPFRAME 1 false r.2
  uvmfree r.1 sz r.2

/-! ## Access to user memory -/

/-- `walkaddr`, as the leaf that it finds. -/
def walkaddr (pt : PageTable) (va : Nat) : Option Leaf :=
  if va ≥ MAXVA then none else (pt.leaf va).filter fun l => l.perm.u

/-- Whether `copyout` of `len` bytes to `va` succeeds: every page of the
range is below `MAXVA`, valid, and writable by the user. -/
def copyout (pt : PageTable) (va len : Nat) : Bool :=
  (List.range (npages (va % PGSIZE + len))).all fun i =>
    match walkaddr pt ((va / PGSIZE + i) * PGSIZE) with
    | none => false
    | some l => l.perm.w

/-! ## What the functions do -/

theorem pgroundup_div (sz : Nat) : pgroundup sz / PGSIZE = npages sz := by
  unfold pgroundup
  exact Nat.mul_div_cancel _ (by decide)

theorem npages_mul (n : Nat) : npages (n * PGSIZE) = n := by
  unfold npages PGSIZE
  omega

theorem npages_mono {s t : Nat} (h : s ≤ t) : npages s ≤ npages t := by
  unfold npages
  exact Nat.div_le_div_right (by omega)

/-- The map `m'` is `m` with the pages `lo` to `hi`, which were not mapped,
added. -/
structure Grown (m m' : Nat → Option Leaf) (lo hi : Nat) : Prop where
  fresh : ∀ v, lo ≤ v → v < hi → m v = none
  mapped : ∀ v, lo ≤ v → v < hi → m' v ≠ none
  same : ∀ v, v < lo ∨ hi ≤ v → m' v = m v

section

variable {pt : PageTable} {k : Kmem}

/-- Unmapping the mapped pages `lo` to `hi` and freeing their frames. -/
def Shrunk (pt pt' : PageTable) (k k' : Kmem) (lo hi : Nat) : Prop :=
  (pt'.leafAt = fun v => if lo ≤ v ∧ v < hi then none else pt.leafAt v) ∧
    ∀ a, pt'.nodes a + k'.freelist.count a =
      pt.nodes a + k.freelist.count a + frames pt.leafAt lo hi a

theorem uvmunmap_safe (lo n : Nat) (doFree : Bool)
    (hmapped : ∀ v, lo ≤ v → v < lo + n → pt.leafAt v ≠ none) :
    Safe Panic.TearDown (uvmunmap pt (lo * PGSIZE) n doFree k) fun r =>
      (r.1.leafAt = fun v => if lo ≤ v ∧ v < lo + n then none else pt.leafAt v) ∧
      (∀ a, r.1.nodes a = pt.nodes a) ∧ ∀ a, r.2.freelist.count a =
        k.freelist.count a + if doFree then frames pt.leafAt lo (lo + n) a else 0 := by
  have halign : lo * PGSIZE % PGSIZE = 0 := mul_mod_left lo PGSIZE
  rw [uvmunmap, if_neg (by omega)]
  exact unmapPages_safe lo doFree n hmapped

/-- Unmapping pages and freeing their frames. -/
theorem uvmunmap_free_safe {lo hi : Nat} (hle : lo ≤ hi)
    (hmapped : ∀ v, lo ≤ v → v < hi → pt.leafAt v ≠ none) :
    Safe Panic.TearDown (uvmunmap pt (lo * PGSIZE) (hi - lo) true k) fun r =>
      Shrunk pt r.1 k r.2 lo hi := by
  have hhi : lo + (hi - lo) = hi := by omega
  apply (uvmunmap_safe lo (hi - lo) true (by rwa [hhi])).mono
  rintro ⟨pt', k'⟩ ⟨hmap, hnodes, hcount⟩
  rw [hhi] at hmap hcount
  refine ⟨hmap, ?_⟩
  intro a
  rw [hnodes a, hcount a, if_pos rfl]
  omega

theorem shrunk_refl (n : Nat) : Shrunk pt pt k k n n := by
  refine ⟨?_, ?_⟩
  · funext v
    rw [if_neg (by omega)]
  · intro a
    rw [frames_self, add_zero]

/-- Shrinking an address space removes exactly the pages above the new
size. -/
theorem uvmdealloc_safe {oldsz newsz : Nat} (hle : newsz ≤ oldsz)
    (hmapped : ∀ v, npages newsz ≤ v → v < npages oldsz → pt.leafAt v ≠ none) :
    Safe Panic.TearDown (uvmdealloc pt oldsz newsz k) fun r =>
      r.1 = newsz ∧ Shrunk pt r.2.1 k r.2.2 (npages newsz) (npages oldsz) := by
  unfold uvmdealloc
  have hpos : 0 < PGSIZE := by decide
  split
  · have heq : newsz = oldsz := by omega
    subst heq
    exact .ok ⟨rfl, shrunk_refl _⟩
  split
  · rename_i hlt
    have hn : npages newsz < npages oldsz := by
      unfold pgroundup at hlt
      exact Nat.lt_of_mul_lt_mul_right hlt
    have hdiv : (pgroundup oldsz - pgroundup newsz) / PGSIZE = npages oldsz - npages newsz := by
      unfold pgroundup
      rw [← Nat.sub_mul, Nat.mul_div_cancel _ hpos]
    rw [hdiv]
    apply (uvmunmap_free_safe (by omega) hmapped).bind
    intro r hr
    exact .pure ⟨rfl, hr⟩
  rename_i hge
  have heq : npages newsz = npages oldsz := by
    have hmono := npages_mono hle
    have hge' : npages oldsz ≤ npages newsz := by
      unfold pgroundup at hge
      by_contra hlt
      exact hge (Nat.mul_lt_mul_of_pos_right (by omega) hpos)
    omega
  rw [heq]
  exact .ok ⟨rfl, shrunk_refl _⟩

/-- A page is mapped before pages above it: both were added. -/
theorem Grown.cons {m m1 m' : Nat → Option Leaf} {v n : Nat} {l : Leaf} (hv : m v = none)
    (hm1 : m1 = update m v (some l)) (h : Grown m1 m' (v + 1) (v + 1 + n)) :
    Grown m m' v (v + (n + 1)) := by
  have hm1v : m1 v = some l := by rw [hm1, update_self]
  have hother : ∀ w, w ≠ v → m1 w = m w := fun w hw => by rw [hm1, update_of_ne hw]
  have hm'v : m' v = some l := by rw [h.same v (by omega), hm1v]
  refine ⟨?_, ?_, ?_⟩
  · intro w hlo hhi
    by_cases hw : w = v
    · rw [hw, hv]
    rw [← hother w hw]
    exact h.fresh w (by omega) (by omega)
  · intro w hlo hhi
    by_cases hw : w = v
    · rw [hw, hm'v]
      simp
    · exact h.mapped w (by omega) (by omega)
  · intro w hout
    rw [h.same w (by omega), hother w (by omega)]

/-- Giving up after one page more removes that page too. -/
theorem Shrunk.cons {pt1 pt' : PageTable} {k2 k' : Kmem} {lo v mem : Nat} {perm : Perm}
    (hlo : lo ≤ v) (hv : pt.leafAt v = none)
    (hpt1 : pt1.leafAt = update pt.leafAt v (some { pa := mem, perm := perm }))
    (hcount : ∀ a, pt1.nodes a + k2.freelist.count a + (if mem = a then 1 else 0) =
      pt.nodes a + k.freelist.count a)
    (h : Shrunk pt1 pt' k2 k' lo (v + 1)) : Shrunk pt pt' k k' lo v := by
  obtain ⟨hmap, hsum⟩ := h
  have hother : ∀ w, w ≠ v → pt1.leafAt w = pt.leafAt w := fun w hw => by rw [hpt1, update_of_ne hw]
  refine ⟨?_, ?_⟩
  · rw [hmap]
    funext w
    by_cases hw : w = v
    · rw [hw, if_pos (by omega), if_neg (by omega), hv]
    rw [hother w hw]
    by_cases hin : lo ≤ w ∧ w < v
    · rw [if_pos hin, if_pos (by omega)]
    · rw [if_neg hin, if_neg (by omega)]
  intro a
  have hframes : frames pt1.leafAt lo (v + 1) a =
      frames pt.leafAt lo v a + if mem = a then 1 else 0 := by
    rw [frames_top hlo, frames_congr (fun w _ hw => hother w (by omega)), hpt1,
      update_self, elim_some]
  have h1 := hsum a
  have h2 := hcount a
  omega

/-- What the shared loop does, for an `undo` that unmaps the pages from
`lo` on. -/
theorem fillPages_safe {permAt : Nat → Kmem → Except Panic Perm}
    {undo : PageTable → Nat → Kmem → Except Panic (PageTable × Kmem)} {lo : Nat}
    (hperm : ∀ v k, Safe Panic.TearDown (permAt v k) fun _ => True)
    (hundo : ∀ pt v k, lo ≤ v → (∀ w, lo ≤ w → w < v → pt.leafAt w ≠ none) →
      Safe Panic.TearDown (undo pt v k) fun r => Shrunk pt r.1 k r.2 lo v)
    (n v : Nat) (hlo : lo ≤ v) (hmapped : ∀ w, lo ≤ w → w < v → pt.leafAt w ≠ none) :
    Safe Panic.TearDown (fillPages permAt undo pt v k n) fun r =>
      (r.1 = true ∧ Grown pt.leafAt r.2.1.leafAt v (v + n) ∧
        ∀ a, r.2.1.nodes a + r.2.2.freelist.count a + frames r.2.1.leafAt v (v + n) a =
          pt.nodes a + k.freelist.count a) ∨ (r.1 = false ∧ Shrunk pt r.2.1 k r.2.2 lo v) := by
  induction n generalizing pt v k with
  | zero =>
    refine .pure (.inl ⟨rfl, ⟨?_, ?_, fun _ _ => rfl⟩, ?_⟩)
    · intro w _ _
      omega
    · intro w _ _
      omega
    · intro a
      rw [add_zero, frames_self, add_zero]
  | succ n ih =>
    rw [fillPages]
    apply (hperm v k).bind
    intro perm _
    cases hk : kalloc k with
    | none =>
      apply (hundo pt v k hlo hmapped).bind
      intro r hr
      exact .pure (.inr ⟨rfl, hr⟩)
    | some r =>
      obtain ⟨mem, k1⟩ := r
      have hmem := kalloc_count hk
      simp only
      rw [mappages_page]
      apply (mapPage_safe v mem perm).bind
      rintro ⟨ok, pt1, k2⟩ ⟨hnodes, ⟨rfl, hv, hpt1⟩ | ⟨rfl, hpt1⟩⟩
      · -- the page was mapped: go on with the next one
        simp only at hnodes hpt1 ⊢
        have hcount : ∀ a, pt1.nodes a + k2.freelist.count a + (if mem = a then 1 else 0) =
            pt.nodes a + k.freelist.count a := by
          intro a
          have h1 := hnodes a
          have h2 := hmem a
          omega
        have hmapped1 : ∀ w, lo ≤ w → w < v + 1 → pt1.leafAt w ≠ none := by
          intro w hwlo hw
          rw [hpt1]
          by_cases hwv : w = v
          · rw [hwv, update_self]
            simp
          · rw [update_of_ne hwv]
            exact hmapped w hwlo (by omega)
        apply (ih (v + 1) (by omega) hmapped1).mono
        rintro ⟨ok', pt', k'⟩ (⟨rfl, hgrown, hsum⟩ | ⟨rfl, hshrunk⟩)
        · left
          refine ⟨rfl, hgrown.cons hv hpt1, ?_⟩
          intro a
          have hframes : frames pt'.leafAt v (v + (n + 1)) a =
              (if mem = a then 1 else 0) + frames pt'.leafAt (v + 1) (v + 1 + n) a := by
            rw [frames_bot (by omega), hgrown.same v (by omega), hpt1,
              update_self, elim_some, add_right_comm v 1 n]
            rfl
          have h1 := hsum a
          have h2 := hcount a
          simp only at h1 ⊢
          omega
        · exact .inr ⟨rfl, hshrunk.cons hlo hv hpt1 hcount⟩
      · -- no room for a page-table page: give the frame back and undo
        simp only at hnodes hpt1 ⊢
        apply (kfree_safe k2 mem).bind
        intro k3 hk3
        apply (hundo pt1 v k3 hlo (by rwa [hpt1])).bind
        rintro ⟨pt', k'⟩ ⟨hmap, hsum⟩
        refine .pure (.inr ⟨rfl, ?_, ?_⟩)
        · rw [hmap, hpt1]
        intro a
        have h1 := hsum a
        have h2 := hk3 a
        have h3 := hnodes a
        have h4 := hmem a
        rw [hpt1] at h1
        simp only at h1 ⊢
        omega

/-- Growing an address space adds exactly the pages up to the new size, or
none at all. -/
theorem uvmalloc_safe {oldsz newsz : Nat} (w x : Bool) (hle : oldsz ≤ newsz) :
    Safe Panic.TearDown (uvmalloc pt oldsz newsz w x k) fun r =>
      (r.1 = newsz ∧ Grown pt.leafAt r.2.1.leafAt (npages oldsz) (npages newsz) ∧
        ∀ a, r.2.1.nodes a + r.2.2.freelist.count a +
            frames r.2.1.leafAt (npages oldsz) (npages newsz) a = pt.nodes a + k.freelist.count a) ∨
      (r.1 = 0 ∧ r.2.1.leafAt = pt.leafAt ∧
        ∀ a, r.2.1.nodes a + r.2.2.freelist.count a = pt.nodes a + k.freelist.count a) := by
  have hn : npages oldsz + (npages newsz - npages oldsz) = npages newsz := by
    have := npages_mono hle
    omega
  rw [uvmalloc, if_neg (by omega)]
  apply (fillPages_safe (fun _ _ => .pure trivial) ?_ _ (npages oldsz) (le_refl _)
    (fun v hlo hhi => by omega)).bind
  · rintro ⟨ok, pt', k'⟩ (⟨rfl, hgrown, hsum⟩ | ⟨rfl, hmap, hsum⟩)
    · rw [hn] at hgrown hsum
      exact .pure (.inl ⟨rfl, hgrown, hsum⟩)
    refine .pure (.inr ⟨rfl, ?_, ?_⟩)
    · rw [hmap]
      funext v
      rw [if_neg (by omega)]
    intro a
    have h := hsum a
    rwa [frames_self, add_zero] at h
  intro pt v k hlo hmapped
  have hsz : pgroundup oldsz ≤ v * PGSIZE := mul_le_mul_right PGSIZE hlo
  have hold : npages (pgroundup oldsz) = npages oldsz := npages_mul _
  apply (uvmdealloc_safe hsz (by rwa [hold, npages_mul])).bind
  rintro ⟨sz, pt', k'⟩ ⟨-, hshrunk⟩
  rw [hold, npages_mul] at hshrunk
  exact .pure hshrunk

/-- Copying an address space into an empty one adds its pages, or none. -/
theorem uvmcopy_safe (old : PageTable) (sz : Nat) :
    Safe Panic.TearDown (uvmcopy old pt sz k) fun r =>
      (r.1 = true ∧ Grown pt.leafAt r.2.1.leafAt 0 (npages sz) ∧
        ∀ a, r.2.1.nodes a + r.2.2.freelist.count a +
            frames r.2.1.leafAt 0 (npages sz) a = pt.nodes a + k.freelist.count a) ∨
      (r.1 = false ∧ r.2.1.leafAt = pt.leafAt ∧
        ∀ a, r.2.1.nodes a + r.2.2.freelist.count a = pt.nodes a + k.freelist.count a) := by
  unfold uvmcopy
  apply (fillPages_safe ?_ ?_ (npages sz) 0 (le_refl _) (fun v _ hhi => by omega)).mono
  · rintro ⟨ok, pt', k'⟩ (⟨rfl, hgrown, hsum⟩ | ⟨rfl, hmap, hsum⟩)
    · rw [zero_add] at hgrown hsum
      exact .inl ⟨rfl, hgrown, hsum⟩
    refine .inr ⟨rfl, ?_, ?_⟩
    · rw [hmap]
      funext v
      rw [if_neg (by omega)]
    intro a
    have h := hsum a
    rwa [frames_self, add_zero] at h
  · intro v k
    unfold copiedPerm
    apply (walk_safe old (v * PGSIZE) k false).bind
    rintro ⟨found, pt', k'⟩ -
    split
    · split
      · exact .error (by simp [Panic.TearDown])
      · exact .pure trivial
    · exact .error (by simp [Panic.TearDown])
  · intro pt v k _ hmapped
    have h := uvmunmap_free_safe (k := k) (zero_le v) hmapped
    rwa [Nat.zero_mul, Nat.sub_zero] at h

end

/-! ## Address spaces of processes -/

/-- The virtual page number of an address. -/
def vpn (va : Nat) : Nat := va / PGSIZE

/-- The valid leaves are exactly the trampoline, the trapframe and the
pages of `[0, PGROUNDUP(sz))`. -/
def Exact (pt : PageTable) (sz : Nat) : Prop :=
  ∀ v, pt.leafAt v ≠ none ↔ v < npages sz ∨ v = vpn TRAPFRAME ∨ v = vpn TRAMPOLINE

/-- An address space that can be torn down: its leaves are exact and its
user pages end below the trapframe. -/
structure UserTable (pt : PageTable) (sz : Nat) : Prop where
  exact : Exact pt sz
  below : npages sz ≤ vpn TRAPFRAME

section

variable {pt : PageTable} {k : Kmem} {sz : Nat}

/-- Freeing an address space that has only the pages of `[0, sz)`. -/
theorem uvmfree_safe (h : ∀ v, pt.leafAt v ≠ none ↔ v < npages sz) :
    Safe Panic.TearDown (uvmfree pt sz k) fun k' => ∀ a, k'.freelist.count a =
        k.freelist.count a + pt.nodes a + frames pt.leafAt 0 (npages sz) a := by
  unfold uvmfree
  split
  · rw [pgroundup_div]
    have hunmap := uvmunmap_free_safe (k := k) (zero_le (npages sz)) (fun v _ hv => (h v).2 hv)
    rw [Nat.zero_mul, Nat.sub_zero] at hunmap
    apply hunmap.bind
    rintro ⟨pt', k'⟩ ⟨hmap, hsum⟩
    have hnone : ∀ v, pt'.leafAt v = none := by
      intro v
      rw [hmap]
      simp only
      by_cases hv : v < npages sz
      · rw [if_pos ⟨zero_le v, hv⟩]
      rw [if_neg (fun h => hv h.2)]
      by_contra hne
      exact hv ((h v).1 hne)
    apply (freewalk_safe hnone).mono
    intro k'' hk'' a
    have h1 := hsum a
    have h2 := hk'' a
    simp only at h1 h2
    omega
  · have hzero : npages sz = 0 := by
      have hsz : sz = 0 := by omega
      rw [hsz]
      decide
    rw [hzero] at h ⊢
    have hnone : ∀ v, pt.leafAt v = none := by
      intro v
      by_contra hne
      have := (h v).1 hne
      omega
    apply (freewalk_safe hnone).mono
    intro k' hk' a
    rw [hk' a, frames_self, add_zero]

theorem uvmunmap_one_safe {v : Nat} (hv : pt.leafAt v ≠ none) :
    Safe Panic.TearDown (uvmunmap pt (v * PGSIZE) 1 false k) fun r =>
      r.1.leafAt = update pt.leafAt v none ∧ (∀ a, r.1.nodes a = pt.nodes a) ∧
      ∀ a, r.2.freelist.count a = k.freelist.count a := by
  apply (uvmunmap_safe v 1 false (fun w hlo hhi => by
    have hw : w = v := by omega
    rwa [hw])).mono
  rintro ⟨pt', k'⟩ ⟨hmap, hnodes, hcount⟩
  refine ⟨?_, hnodes, by simpa using hcount⟩
  rw [hmap]
  funext w
  by_cases hw : w = v
  · rw [hw, update_self, if_pos (by omega)]
  · rw [update_of_ne hw, if_neg (by omega)]

theorem trampoline_eq : TRAMPOLINE = vpn TRAMPOLINE * PGSIZE := by decide

theorem trapframe_eq : TRAPFRAME = vpn TRAPFRAME * PGSIZE := by decide

theorem vpn_trapframe_lt : vpn TRAPFRAME < vpn TRAMPOLINE := by decide

/-- Tearing down an address space whose leaves are exact does not panic,
and frees its table and its user pages. -/
theorem procFreepagetable_safe (h : UserTable pt sz) :
    Safe Panic.TearDown (procFreepagetable pt sz k) fun k' => ∀ a, k'.freelist.count a =
        k.freelist.count a + pt.nodes a + frames pt.leafAt 0 (npages sz) a := by
  have hbelow := h.below
  have hlt := vpn_trapframe_lt
  unfold procFreepagetable
  rw [trampoline_eq]
  apply (uvmunmap_one_safe ((h.exact _).2 (.inr (.inr rfl)))).bind
  rintro ⟨pt1, k1⟩ ⟨hmap1, hnodes1, hcount1⟩
  simp only at hmap1 hnodes1 hcount1 ⊢
  have htf1 : pt1.leafAt (vpn TRAPFRAME) ≠ none := by
    rw [hmap1, update_of_ne (by omega)]
    exact (h.exact _).2 (.inr (.inl rfl))
  rw [trapframe_eq]
  apply (uvmunmap_one_safe htf1).bind
  rintro ⟨pt2, k2⟩ ⟨hmap2, hnodes2, hcount2⟩
  simp only at hmap2 hnodes2 hcount2 ⊢
  -- below the trapframe nothing has changed
  have hsame : ∀ v, v ≠ vpn TRAPFRAME → v ≠ vpn TRAMPOLINE → pt2.leafAt v = pt.leafAt v := by
    intro v htf htr
    rw [hmap2, update_of_ne htf, hmap1, update_of_ne htr]
  have huser : ∀ v, pt2.leafAt v ≠ none ↔ v < npages sz := by
    intro v
    by_cases htf : v = vpn TRAPFRAME
    · rw [htf, hmap2, update_self]
      simp only [ne_eq, not_true_eq_false, false_iff]
      omega
    by_cases htr : v = vpn TRAMPOLINE
    · rw [htr, hmap2, update_of_ne (by omega), hmap1, update_self]
      simp only [ne_eq, not_true_eq_false, false_iff]
      omega
    · rw [hsame v htf htr, h.exact v]
      simp only [htf, htr, or_false]
  apply (uvmfree_safe huser).mono
  intro k' hk' a
  rw [hk' a, hnodes2 a, hnodes1 a, hcount2 a, hcount1 a,
    frames_congr fun v _ hv => hsame v (by omega) (by omega)]

theorem leafAt_empty (addr v : Nat) : leafAt (Table.empty addr) v = none := by
  unfold leafAt leaf
  split <;> rfl

theorem npages_zero : npages 0 = 0 := by decide

/-- Freeing a page table without leaves. -/
theorem uvmfree_zero_safe (hnone : ∀ v, pt.leafAt v = none) :
    Safe Panic.TearDown (uvmfree pt 0 k) fun k' =>
      ∀ a, k'.freelist.count a = k.freelist.count a + pt.nodes a := by
  have huser : ∀ v, pt.leafAt v ≠ none ↔ v < npages 0 := by
    intro v
    rw [hnone v, npages_zero]
    simp
  apply (uvmfree_safe huser).mono
  intro k' hk' a
  rw [hk' a, npages_zero, frames_self, add_zero]

/-- A new address space has the trampoline and the trapframe alone; when
memory runs out everything is given back. -/
theorem procPagetable_safe (trampoline trapframe : Nat) :
    Safe Panic.TearDown (procPagetable trampoline trapframe k) fun r =>
      (∃ pt, r.1 = some pt ∧ UserTable pt 0 ∧
        ∀ a, pt.nodes a + r.2.freelist.count a = k.freelist.count a) ∨
      (r.1 = none ∧ ∀ a, r.2.freelist.count a = k.freelist.count a) := by
  unfold procPagetable uvmcreate
  cases hk : kalloc k with
  | none => exact .pure (.inr ⟨rfl, fun _ => rfl⟩)
  | some r =>
    obtain ⟨root, k1⟩ := r
    have hroot : ∀ a, nodes (Table.empty root) a + k1.freelist.count a =
        k.freelist.count a := by
      intro a
      have h := kalloc_count hk a
      rwa [PageTable.nodes, Table.nodes_empty]
    simp only [map_some]
    rw [trampoline_eq, mappages_page]
    apply (mapPage_safe _ trampoline trampolinePerm).bind
    rintro ⟨ok, pt1, k2⟩ ⟨hnodes1, ⟨rfl, -, hmap1⟩ | ⟨rfl, hmap1⟩⟩
    · simp only at hnodes1 hmap1 ⊢
      rw [trapframe_eq, mappages_page]
      apply (mapPage_safe _ trapframe trapframePerm).bind
      rintro ⟨ok, pt2, k3⟩ ⟨hnodes2, ⟨rfl, -, hmap2⟩ | ⟨rfl, hmap2⟩⟩
      · simp only at hnodes2 hmap2 ⊢
        refine .pure (.inl ⟨pt2, rfl, ⟨?_, ?_⟩, ?_⟩)
        · intro v
          rw [hmap2, hmap1, npages_zero]
          by_cases htf : v = vpn TRAPFRAME
          · simp [htf]
          rw [update_of_ne htf]
          by_cases htr : v = vpn TRAMPOLINE
          · simp [htr]
          rw [update_of_ne htr, leafAt_empty]
          simp [htf, htr]
        · rw [npages_zero]
          exact zero_le _
        · intro a
          have h1 := hnodes1 a
          have h2 := hnodes2 a
          have h3 := hroot a
          simp only
          omega
      -- no room for the trapframe's entry
      simp only at hnodes2 hmap2 ⊢
      have htr : pt2.leafAt (vpn TRAMPOLINE) ≠ none := by
        rw [hmap2, hmap1, update_self]
        simp
      apply (uvmunmap_one_safe htr).bind
      rintro ⟨pt3, k4⟩ ⟨hmap3, hnodes3, hcount3⟩
      have hnone : ∀ v, pt3.leafAt v = none := by
        intro v
        rw [hmap3, hmap2, hmap1, update_idem]
        by_cases hv : v = vpn TRAMPOLINE
        · rw [hv, update_self]
        · rw [update_of_ne hv, leafAt_empty]
      apply (uvmfree_zero_safe hnone).bind
      intro k5 hk5
      refine .pure (.inr ⟨rfl, ?_⟩)
      intro a
      have h1 := hnodes1 a
      have h2 := hnodes2 a
      have h3 := hroot a
      have h4 := hk5 a
      have h5 := hnodes3 a
      have h6 := hcount3 a
      simp only at h4 h5 h6 ⊢
      omega
    · -- no room for the trampoline's entry
      simp only at hnodes1 hmap1 ⊢
      have hnone : ∀ v, pt1.leafAt v = none := by
        intro v
        rw [hmap1, leafAt_empty]
      apply (uvmfree_zero_safe hnone).bind
      intro k3 hk3
      refine .pure (.inr ⟨rfl, ?_⟩)
      intro a
      have h1 := hnodes1 a
      have h2 := hroot a
      have h3 := hk3 a
      simp only
      omega

/-- Clearing the user bit moves no frame. -/
theorem uvmclear_safe (v : Nat) : Safe Panic.TearDown (uvmclear pt (v * PGSIZE) k) fun pt' =>
      (∀ w, pt'.leafAt w ≠ none ↔ pt.leafAt w ≠ none) ∧ (∀ a, pt'.nodes a = pt.nodes a) ∧
      ∀ lo hi a, frames pt'.leafAt lo hi a = frames pt.leafAt lo hi a := by
  unfold uvmclear
  by_cases hva : v * PGSIZE < MAXVA
  · obtain ⟨found, hwalk, hfound⟩ := walk_false pt (v * PGSIZE) k hva
    have hv : v < 2 ^ 27 := by
      simp only [MAXVA, PGSIZE] at hva
      omega
    rw [hwalk]
    cases found with
    | false => exact .error (by simp [Panic.TearDown])
    | true =>
      have hhas := hfound.1 rfl
      have hleaf : pt.leaf (v * PGSIZE) = pt.leafAt v := by rw [leafAt, if_pos hv]
      have hmap : ∀ w, (pt.setLeaf (v * PGSIZE) ((pt.leaf (v * PGSIZE)).map fun l =>
          { l with perm := { l.perm with u := false } })).leafAt w =
          if w = v then (pt.leafAt w).map fun l =>
            { l with perm := { l.perm with u := false } } else pt.leafAt w := by
        intro w
        rw [leafAt_setLeaf hhas hv, hleaf]
        by_cases hw : w = v
        · rw [hw, update_self, if_pos rfl]
        · rw [update_of_ne hw, if_neg hw]
      refine .pure ⟨?_, setLeaf_nodes hhas _, ?_⟩
      · intro w
        rw [hmap w]
        split <;> simp
      intro lo hi a
      unfold frames
      apply Finset.sum_congr rfl
      intro w _
      rw [hmap w]
      split
      · cases pt.leafAt w <;> rfl
      · rfl
  · rw [walk, if_pos (by omega)]
    exact .error (by simp [Panic.TearDown])

end

end Xv6
