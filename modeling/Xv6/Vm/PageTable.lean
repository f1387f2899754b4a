import Xv6.Kalloc
import Xv6.Lib.Family
import Xv6.Lib.Safe

/-!
# User page tables

The page-table functions of `kernel/vm.c`.  A page-table page is a `Table`:
its physical address and 512 entries.  A valid entry of the two upper levels
is the table below it, and a valid entry of the lowest level is a `Leaf`.
Every caller of `mappages` passes at least one of `PTE_R`, `PTE_W` and
`PTE_X`, so an entry with none of them points to a table; `Perm` carries
this in a field, and the check for `uvmunmap: not a leaf` cannot fire.

The view of a page table that the specifications use is `leafAt`, the map
from virtual page numbers to leaves, and `nodes`, which counts how often a
physical page is one of the table's own pages.
-/

namespace Xv6

open Function Lib List Option

/-! ## Entries and tables -/

/-- The permission bits of a leaf: `PTE_R`, `PTE_W`, `PTE_X`, `PTE_U`. -/
structure Perm where
  r : Bool
  w : Bool
  x : Bool
  u : Bool
  isLeaf : (r || w || x) = true
  deriving DecidableEq

/-- A valid entry of the lowest level. -/
structure Leaf where
  pa : Nat
  perm : Perm
  deriving DecidableEq

/-- A page-table page. -/
structure Table (α : Type) where
  addr : Nat
  entry : Fin 512 → Option α

/-- A three-level page table, named by its root page. -/
abbrev PageTable := Table (Table (Table Leaf))

namespace Table

variable {α : Type}

/-- A page that `memset` has cleared. -/
def empty (addr : Nat) : Table α := { addr := addr, entry := fun _ => none }

/-- Store one entry. -/
def set (t : Table α) (i : Fin 512) (e : Option α) : Table α :=
  { t with entry := update t.entry i e }

/-- How often the page `a` is this table or one of the tables below it,
where `below` counts for an entry. -/
def nodes (below : α → Nat → Nat) (t : Table α) (a : Nat) : Nat :=
  (if t.addr = a then 1 else 0) + ∑ i, (t.entry i).elim 0 (below · a)

/-- One round of the loop of `walk`: the table below entry `i`, which is
allocated if it is missing and `alloc` is set. -/
def descend (t : Table (Table α)) (i : Fin 512) (alloc : Bool) (k : Kmem) :
    Option (Table α) × Table (Table α) × Kmem :=
  match t.entry i with
  | some c => (some c, t, k)
  | none =>
    if alloc then
      match kalloc k with
      | none => (none, t, k)
      | some (pa, k) => (some (empty pa), t.set i (some (empty pa)), k)
    else
      (none, t, k)

end Table

/-- The 9-bit index that `va` has at a level. -/
def PX (level va : Nat) : Fin 512 :=
  ⟨va / 2 ^ (12 + 9 * level) % 512, Nat.mod_lt _ (by decide)⟩

namespace PageTable

/-- The entry of the lowest level that `va` leads to. -/
def leaf (pt : PageTable) (va : Nat) : Option Leaf :=
  (pt.entry (PX 2 va)).bind fun mid =>
    (mid.entry (PX 1 va)).bind fun low => low.entry (PX 0 va)

/-- Store through the entry pointer that `walk` returned for `va`. -/
def setLeaf (pt : PageTable) (va : Nat) (l : Option Leaf) : PageTable :=
  match pt.entry (PX 2 va) with
  | none => pt
  | some mid =>
    match mid.entry (PX 1 va) with
    | none => pt
    | some low => pt.set (PX 2 va) (some (mid.set (PX 1 va) (some (low.set (PX 0 va) l))))

/-- How often the page `a` is a page of the table itself. -/
def nodes (pt : PageTable) (a : Nat) : Nat :=
  Table.nodes (Table.nodes (Table.nodes fun _ _ => 0)) pt a

/-- The leaf of a virtual page number. -/
def leafAt (pt : PageTable) (vpn : Nat) : Option Leaf :=
  if vpn < 2 ^ 27 then pt.leaf (vpn * PGSIZE) else none

end PageTable

/-! ## `walk`, `mappages` and `uvmunmap` -/

/-- `walk`.  The flag says whether the entry exists.  With `alloc` the
upper level may have grown even when it does not. -/
def walk (pt : PageTable) (va : Nat) (alloc : Bool) (k : Kmem) :
    Except Panic (Bool × PageTable × Kmem) :=
  if va ≥ MAXVA then
    .error .walk
  else
    let r₂ := pt.descend (PX 2 va) alloc k
    match r₂.1 with
    | none => .ok (false, r₂.2.1, r₂.2.2)
    | some mid =>
      let r₁ := mid.descend (PX 1 va) alloc r₂.2.2
      .ok (r₁.1.isSome, r₂.2.1.set (PX 2 va) (some r₁.2.1), r₁.2.2)

/-- One round of the loop of `mappages`. -/
def mapPage (pt : PageTable) (va pa : Nat) (perm : Perm) (k : Kmem) :
    Except Panic (Bool × PageTable × Kmem) := do
  let r ← walk pt va true k
  if r.1 then
    if (r.2.1.leaf va).isSome then
      throw .mappagesRemap
    else
      return (true, r.2.1.setLeaf va (some { pa := pa, perm := perm }), r.2.2)
  else
    return (false, r.2.1, r.2.2)

/-- The loop of `mappages` over `n` pages. -/
def mapPages (pt : PageTable) (va pa : Nat) (perm : Perm) (k : Kmem) :
    Nat → Except Panic (Bool × PageTable × Kmem)
  | 0 => return (true, pt, k)
  | n + 1 => do
    let r ← mapPage pt va pa perm k
    if r.1 then
      mapPages r.2.1 (va + PGSIZE) (pa + PGSIZE) perm r.2.2 n
    else
      return (false, r.2.1, r.2.2)

/-- `mappages`.  The flag is false where the source returns `-1`. -/
def mappages (pt : PageTable) (va size pa : Nat) (perm : Perm) (k : Kmem) :
    Except Panic (Bool × PageTable × Kmem) :=
  if va % PGSIZE ≠ 0 then
    .error .mappagesVaNotAligned
  else if size % PGSIZE ≠ 0 then
    .error .mappagesSizeNotAligned
  else if size = 0 then
    .error .mappagesSize
  else
    mapPages pt va pa perm k (size / PGSIZE)

/-- The loop of `uvmunmap` over `n` pages. -/
def unmapPages (pt : PageTable) (va : Nat) (doFree : Bool) (k : Kmem) :
    Nat → Except Panic (PageTable × Kmem)
  | 0 => return (pt, k)
  | n + 1 => do
    let r ← walk pt va false k
    if r.1 then
      match r.2.1.leaf va with
      | none => throw .uvmunmapNotMapped
      | some l =>
        let k ← if doFree then kfree r.2.2 l.pa else pure r.2.2
        unmapPages (r.2.1.setLeaf va none) (va + PGSIZE) doFree k n
    else
      throw .uvmunmapWalk

/-- `uvmunmap`. -/
def uvmunmap (pt : PageTable) (va npages : Nat) (doFree : Bool) (k : Kmem) :
    Except Panic (PageTable × Kmem) :=
  if va % PGSIZE ≠ 0 then
    .error .uvmunmapNotAligned
  else
    unmapPages pt va doFree k npages

/-- `uvmcreate`: an empty page table, or `none` when out of memory. -/
def uvmcreate (k : Kmem) : Option (PageTable × Kmem) :=
  (kalloc k).map fun r => (Table.empty r.1, r.2)

/-- What `freewalk` does with one entry of a table, where `free` is what it
does with a valid one. -/
def freeEntry {α : Type} (free : α → Kmem → Except Panic Kmem) (t : Table α) (k : Kmem)
    (i : Fin 512) : Except Panic Kmem :=
  match t.entry i with
  | none => .ok k
  | some e => free e k

/-- `freewalk` at one level: the loop over the entries, and then the page
itself. -/
def freeTable {α : Type} (free : α → Kmem → Except Panic Kmem) (t : Table α) (k : Kmem) :
    Except Panic Kmem := do
  let k ← (List.finRange 512).foldlM (freeEntry free t) k
  kfree k t.addr

/-- `freewalk`: free the pages of a page table, which must have no leaf. -/
def freewalk (pt : PageTable) (k : Kmem) : Except Panic Kmem :=
  freeTable (freeTable (freeTable fun _ _ => .error .freewalkLeaf)) pt k

/-! ## Tables -/

/-- A page that the allocator hands out was on the free list once more. -/
theorem kalloc_count {k k' : Kmem} {r : Nat} (h : kalloc k = some (r, k')) (a : Nat) :
    (if r = a then 1 else 0) + k'.freelist.count a = k.freelist.count a := by
  rw [(kalloc_eq_some.1 h).1, count_cons]
  simp only [beq_iff_eq]
  omega

namespace Table

variable {α : Type} {below : α → Nat → Nat}

@[simp] theorem set_addr (t : Table α) (i : Fin 512) (e : Option α) :
    (t.set i e).addr = t.addr := rfl

@[simp] theorem set_entry_self (t : Table α) (i : Fin 512) (e : Option α) :
    (t.set i e).entry i = e := by
  simp [set]

theorem set_entry_of_ne (t : Table α) {i j : Fin 512} (e : Option α) (h : j ≠ i) :
    (t.set i e).entry j = t.entry j := by
  simp [set, update_of_ne h]

/-- Storing the entry that is there already changes nothing. -/
theorem set_eq_self {t : Table α} {i : Fin 512} {e : Option α} (h : t.entry i = e) :
    t.set i e = t := by
  subst h
  simp [set]

theorem nodes_set (t : Table α) (i : Fin 512) (e : Option α) (a : Nat) :
    nodes below (t.set i e) a + (t.entry i).elim 0 (below · a) =
      nodes below t a + e.elim 0 (below · a) := by
  have h := sum_update t.entry (fun e => e.elim 0 (below · a)) i e
  have hnew : nodes below (t.set i e) a = (if t.addr = a then 1 else 0) +
      ∑ j, (update t.entry i e j).elim 0 (below · a) := rfl
  rw [hnew, nodes]
  omega

theorem nodes_empty (addr a : Nat) : nodes below (empty addr) a = if addr = a then 1 else 0 := by
  show (if addr = a then 1 else 0) + ∑ _ : Fin 512, 0 = _
  simp

/-- Replacing an entry by one with as many pages. -/
theorem nodes_set_of_eq {t : Table α} {i : Fin 512} {e e' : α} {a : Nat}
    (h : t.entry i = some e) (he : below e' a = below e a) :
    nodes below (t.set i (some e')) a = nodes below t a := by
  have hset : nodes below (t.set i (some e')) a + _ = _ + _ := t.nodes_set i (some e') a
  rw [h, elim_some, elim_some] at hset
  omega

/-- A table of the lowest level is one page. -/
theorem nodes_lowest (t : Table α) (a : Nat) :
    nodes (fun _ _ => 0) t a = if t.addr = a then 1 else 0 := by
  have hzero : ∀ e : Option α, e.elim 0 (fun _ => 0) = 0 := by
    intro e
    cases e <;> rfl
  simp [nodes, hzero]

/-- What one round of `walk` can do. -/
theorem descend_cases (t : Table (Table α)) (i : Fin 512) (alloc : Bool) (k : Kmem) :
    (∃ c, t.entry i = some c ∧ t.descend i alloc k = (some c, t, k)) ∨
    (t.entry i = none ∧ t.descend i alloc k = (none, t, k)) ∨
    (∃ pa k', t.entry i = none ∧ alloc = true ∧ kalloc k = some (pa, k') ∧
      t.descend i alloc k = (some (empty pa), t.set i (some (empty pa)), k')) := by
  unfold descend
  cases hi : t.entry i with
  | some c => exact .inl ⟨c, rfl, rfl⟩
  | none =>
    right
    cases alloc with
    | false => exact .inl ⟨rfl, rfl⟩
    | true =>
      cases hk : kalloc k with
      | none => exact .inl ⟨rfl, by simp⟩
      | some r => exact .inr ⟨r.1, r.2, rfl, rfl, rfl, by simp⟩

theorem descend_false (t : Table (Table α)) (i : Fin 512) (k : Kmem) :
    t.descend i false k = (t.entry i, t, k) := by
  unfold descend
  cases t.entry i <;> rfl

/-- The result is the entry of the new table. -/
theorem descend_fst (t : Table (Table α)) (i : Fin 512) (alloc : Bool) (k : Kmem) :
    (t.descend i alloc k).2.1.entry i = (t.descend i alloc k).1 := by
  rcases t.descend_cases i alloc k with ⟨c, hc, h⟩ | ⟨hc, h⟩ | ⟨pa, k', hc, -, hk, h⟩
  · rw [h, hc]
  · rw [h, hc]
  · simp [h]

/-- A lookup below an entry sees no difference, because a new table is
empty. -/
theorem descend_bind {β : Type} (t : Table (Table α)) (i j : Fin 512) (alloc : Bool)
    (k : Kmem) (f : Table α → Option β) (hf : ∀ pa, f (empty pa) = none) :
    ((t.descend i alloc k).2.1.entry j).bind f = (t.entry j).bind f := by
  rcases t.descend_cases i alloc k with ⟨c, hc, h⟩ | ⟨hc, h⟩ | ⟨pa, k', hc, -, hk, h⟩
  · rw [h]
  · rw [h]
  rw [h]
  by_cases hj : j = i
  · subst hj
    simp [hc, hf]
  · rw [set_entry_of_ne _ _ hj]

/-- The pages of the table and the free pages add up to what they were. -/
theorem descend_nodes (t : Table (Table α)) (i : Fin 512) (alloc : Bool) (k : Kmem) (a : Nat) :
    nodes (nodes below) (t.descend i alloc k).2.1 a + (t.descend i alloc k).2.2.freelist.count a =
      nodes (nodes below) t a + k.freelist.count a := by
  rcases t.descend_cases i alloc k with ⟨c, hc, h⟩ | ⟨hc, h⟩ | ⟨pa, k', hc, -, hk, h⟩
  · rw [h]
  · rw [h]
  have hset : nodes (nodes below) (t.set i (some (empty pa))) a + _ = _ + _ :=
    nodes_set t i (some (empty pa)) a
  have hcount := kalloc_count hk a
  rw [hc] at hset
  simp only [elim_none, elim_some, nodes_empty] at hset
  rw [h]
  show nodes _ (t.set i (some (empty pa))) a + k'.freelist.count a = _
  omega

end Table

/-! ## Virtual page numbers -/

/-- Two page numbers below `2 ^ 27` with the same indices are equal. -/
theorem PX_injective {v w : Nat} (hv : v < 2 ^ 27) (hw : w < 2 ^ 27)
    (h2 : PX 2 (v * PGSIZE) = PX 2 (w * PGSIZE)) (h1 : PX 1 (v * PGSIZE) = PX 1 (w * PGSIZE))
    (h0 : PX 0 (v * PGSIZE) = PX 0 (w * PGSIZE)) : v = w := by
  simp only [PX, PGSIZE, Fin.mk.injEq] at h2 h1 h0
  omega

namespace PageTable

variable {pt : PageTable} {va v : Nat} {l : Option Leaf}

/-- `walk` found the entry of `va`: the tables down to it exist. -/
def Has (pt : PageTable) (va : Nat) : Prop :=
  ∃ mid low, pt.entry (PX 2 va) = some mid ∧ mid.entry (PX 1 va) = some low

theorem has_of_leaf (h : pt.leaf va ≠ none) : pt.Has va := by
  unfold leaf at h
  cases hmid : pt.entry (PX 2 va) with
  | none => simp [hmid] at h
  | some mid =>
    cases hlow : mid.entry (PX 1 va) with
    | none => simp [hmid, hlow] at h
    | some low => exact ⟨mid, low, hmid, hlow⟩

theorem setLeaf_of_has {mid : Table (Table Leaf)} {low : Table Leaf}
    (hmid : pt.entry (PX 2 va) = some mid) (hlow : mid.entry (PX 1 va) = some low) :
    pt.setLeaf va l = pt.set (PX 2 va) (some (mid.set (PX 1 va) (some (low.set (PX 0 va) l)))) := by
  simp only [setLeaf, hmid, hlow]

/-- Storing a leaf allocates and frees nothing. -/
theorem setLeaf_nodes (h : pt.Has va) (l : Option Leaf) (a : Nat) :
    (pt.setLeaf va l).nodes a = pt.nodes a := by
  obtain ⟨mid, low, hmid, hlow⟩ := h
  rw [setLeaf_of_has hmid hlow]
  apply Table.nodes_set_of_eq hmid
  apply Table.nodes_set_of_eq hlow
  rw [Table.nodes_lowest, Table.nodes_lowest, Table.set_addr]

theorem leaf_setLeaf_self (h : pt.Has va) : (pt.setLeaf va l).leaf va = l := by
  obtain ⟨mid, low, hmid, hlow⟩ := h
  simp [setLeaf_of_has hmid hlow, leaf]

theorem leaf_setLeaf_of_ne (hhas : pt.Has va) {va' : Nat}
    (h : PX 2 va' ≠ PX 2 va ∨ PX 1 va' ≠ PX 1 va ∨ PX 0 va' ≠ PX 0 va) :
    (pt.setLeaf va l).leaf va' = pt.leaf va' := by
  obtain ⟨mid, low, hmid, hlow⟩ := hhas
  rw [setLeaf_of_has hmid hlow]
  unfold leaf
  by_cases h2 : PX 2 va' = PX 2 va
  · rw [h2, Table.set_entry_self, hmid]
    by_cases h1 : PX 1 va' = PX 1 va
    · have h0 : PX 0 va' ≠ PX 0 va := by
        rcases h with h | h | h
        · exact absurd h2 h
        · exact absurd h1 h
        · exact h
      simp [h1, hlow, Table.set_entry_of_ne _ _ h0]
    · simp [Table.set_entry_of_ne _ _ h1]
  · rw [Table.set_entry_of_ne _ _ h2]

/-- Storing the leaf of a page changes the map at this page alone. -/
theorem leafAt_setLeaf (h : pt.Has (v * PGSIZE)) (hv : v < 2 ^ 27) :
    (pt.setLeaf (v * PGSIZE) l).leafAt = update pt.leafAt v l := by
  funext w
  by_cases hwv : w = v
  · subst hwv
    rw [update_self, leafAt, if_pos hv, leaf_setLeaf_self h]
  rw [update_of_ne hwv, leafAt, leafAt]
  split
  · rename_i hw
    apply leaf_setLeaf_of_ne h
    by_contra hsame
    push Not at hsame
    exact hwv (PX_injective hw hv hsame.1 hsame.2.1 hsame.2.2)
  · rfl

end PageTable

/-! ## What the functions do -/

/-- The panics that a wrong tear-down of an address space can cause. -/
def Panic.TearDown : Panic → Prop
  | .uvmunmapNotAligned | .uvmunmapWalk | .uvmunmapNotMapped | .freewalkLeaf => True
  | _ => False

/-- A page that is freed is on the free list once more. -/
theorem kfree_safe (k : Kmem) (pa : Nat) : Safe Panic.TearDown (kfree k pa) fun k' =>
      ∀ a, k'.freelist.count a = k.freelist.count a + if pa = a then 1 else 0 := by
  unfold kfree
  split
  · apply Safe.ok
    intro a
    rw [count_cons]
    simp
  · exact .error (by simp [Panic.TearDown])

section Walk

variable (pt : PageTable) (va : Nat) (k : Kmem)

/-- Without `alloc` a walk only looks. -/
theorem walk_false (hva : va < MAXVA) :
    ∃ found, walk pt va false k = .ok (found, pt, k) ∧ (found = true ↔ pt.Has va) := by
  unfold walk
  rw [if_neg (by omega)]
  simp only [Table.descend_false]
  cases hmid : pt.entry (PX 2 va) with
  | none => exact ⟨false, rfl, by simp [PageTable.Has, hmid]⟩
  | some mid =>
    refine ⟨(mid.entry (PX 1 va)).isSome, ?_, ?_⟩
    · simp only [Table.set_eq_self hmid]
    · simp [PageTable.Has, hmid, isSome_iff_exists]

/-- `walk` changes no mapping, and takes the pages that it adds to the
table from the free list. -/
theorem walk_safe (alloc : Bool) : Safe Panic.TearDown (walk pt va alloc k) fun r =>
      va < MAXVA ∧ r.2.1.leaf = pt.leaf ∧ (r.1 = true → r.2.1.Has va) ∧
      ∀ a, r.2.1.nodes a + r.2.2.freelist.count a = pt.nodes a + k.freelist.count a := by
  unfold walk
  split
  · exact .error (by simp [Panic.TearDown])
  rename_i hva
  -- the round at level 2, and a lookup below its result
  have hnodes2 : ∀ a, Table.nodes (Table.nodes (Table.nodes fun _ _ => 0)) _ a + _ = _ :=
    pt.descend_nodes (PX 2 va) alloc k
  have hbind2 := fun j => @Table.descend_bind _ Leaf pt (PX 2 va) j alloc k
  simp only
  split
  · refine .ok ⟨by omega, ?_, by simp, hnodes2⟩
    funext va'
    exact hbind2 _ _ (fun _ => rfl)
  rename_i mid hmid
  have hentry := pt.descend_fst (PX 2 va) alloc k
  rw [hmid] at hentry
  have hnodes1 : ∀ a, Table.nodes (Table.nodes fun _ _ => 0) _ a + _ = _ :=
    mid.descend_nodes (PX 1 va) alloc (pt.descend (PX 2 va) alloc k).2.2
  have hentry1 := mid.descend_fst (PX 1 va) alloc (pt.descend (PX 2 va) alloc k).2.2
  have hbind1 := fun j =>
    @Table.descend_bind _ Leaf mid (PX 1 va) j alloc (pt.descend (PX 2 va) alloc k).2.2
  refine .ok ⟨by omega, ?_, ?_, ?_⟩
  · funext va'
    unfold PageTable.leaf
    rw [← hbind2 _ _ (fun _ => rfl)]
    by_cases h2 : PX 2 va' = PX 2 va
    · rw [h2, Table.set_entry_self, hentry]
      exact hbind1 _ _ (fun _ => rfl)
    · rw [Table.set_entry_of_ne _ _ h2]
  · intro hfound
    obtain ⟨low, hlow⟩ := isSome_iff_exists.1 hfound
    exact ⟨_, low, Table.set_entry_self _ _ _, by rw [hentry1, hlow]⟩
  intro a
  have hset : Table.nodes (Table.nodes (Table.nodes fun _ _ => 0)) _ a + _ = _ + _ :=
    Table.nodes_set (pt.descend (PX 2 va) alloc k).2.1 (PX 2 va)
      (some (mid.descend (PX 1 va) alloc (pt.descend (PX 2 va) alloc k).2.2).2.1) a
  rw [hentry, elim_some, elim_some] at hset
  have h2 := hnodes2 a
  have h1 := hnodes1 a
  simp only [PageTable.nodes]
  omega

end Walk

section Map

variable {pt : PageTable} {k : Kmem}

theorem PageTable.leafAt_congr {pt' : PageTable} (h : pt'.leaf = pt.leaf) :
    pt'.leafAt = pt.leafAt := by
  funext v
  rw [leafAt, leafAt, h]

/-- The map after `mappages` of one page: the page is added, or, when a
page-table page could not be allocated, nothing is. -/
theorem mapPage_safe (v pa : Nat) (perm : Perm) :
    Safe Panic.TearDown (mapPage pt (v * PGSIZE) pa perm k) fun r =>
      (∀ a, r.2.1.nodes a + r.2.2.freelist.count a = pt.nodes a + k.freelist.count a) ∧
      (r.1 = true ∧ pt.leafAt v = none ∧
          r.2.1.leafAt = update pt.leafAt v (some { pa := pa, perm := perm }) ∨
        r.1 = false ∧ r.2.1.leafAt = pt.leafAt) := by
  unfold mapPage
  apply (walk_safe pt (v * PGSIZE) k true).bind
  rintro ⟨found, pt', k'⟩ ⟨hva, hleaf, hhas, hnodes⟩
  have hv : v < 2 ^ 27 := by
    simp only [MAXVA, PGSIZE] at hva
    omega
  simp only at hleaf hhas hnodes ⊢
  split
  · rename_i hfound
    split
    · exact .error (by simp [Panic.TearDown])
    rename_i hnone
    refine .pure ⟨?_, .inl ⟨rfl, ?_, ?_⟩⟩
    · intro a
      simp only [PageTable.setLeaf_nodes (hhas hfound)]
      exact hnodes a
    · rw [PageTable.leafAt, if_pos hv, ← hleaf]
      simpa using hnone
    · simp only [PageTable.leafAt_setLeaf (hhas hfound) hv, PageTable.leafAt_congr hleaf]
  · exact .pure ⟨hnodes, .inr ⟨rfl, PageTable.leafAt_congr hleaf⟩⟩

/-- `mappages` of one page is one round of its loop. -/
theorem mappages_page (v pa : Nat) (perm : Perm) :
    mappages pt (v * PGSIZE) PGSIZE pa perm k = mapPage pt (v * PGSIZE) pa perm k := by
  have halign : v * PGSIZE % PGSIZE = 0 := Nat.mul_mod_left v PGSIZE
  have hone : PGSIZE / PGSIZE = 0 + 1 := by decide
  rw [mappages, if_neg (by omega), if_neg (by decide), if_neg (by decide), hone, mapPages]
  cases mapPage pt (v * PGSIZE) pa perm k with
  | error e => rfl
  | ok r =>
    obtain ⟨ok, pt', k'⟩ := r
    cases ok <;> rfl

end Map

/-! ## Frames -/

/-- How often the page `a` backs one of the virtual pages `lo` to `hi`. -/
def frames (m : Nat → Option Leaf) (lo hi a : Nat) : Nat :=
  ∑ v ∈ Finset.Ico lo hi, (m v).elim 0 fun l => if l.pa = a then 1 else 0

theorem frames_congr {m m' : Nat → Option Leaf} {lo hi : Nat}
    (h : ∀ v, lo ≤ v → v < hi → m' v = m v) (a : Nat) : frames m' lo hi a = frames m lo hi a := by
  unfold frames
  apply Finset.sum_congr rfl
  intro v hv
  rw [Finset.mem_Ico] at hv
  rw [h v hv.1 hv.2]

theorem frames_self (m : Nat → Option Leaf) (lo a : Nat) : frames m lo lo a = 0 := by simp [frames]

/-- Split off the first page. -/
theorem frames_bot {m : Nat → Option Leaf} {lo hi : Nat} (h : lo < hi) (a : Nat) :
    frames m lo hi a =
      ((m lo).elim 0 fun l => if l.pa = a then 1 else 0) + frames m (lo + 1) hi a :=
  Finset.sum_eq_sum_Ico_succ_bot h _

/-- Split off the last page. -/
theorem frames_top {m : Nat → Option Leaf} {lo hi : Nat} (h : lo ≤ hi) (a : Nat) :
    frames m lo (hi + 1) a = frames m lo hi a + (m hi).elim 0 fun l => if l.pa = a then 1 else 0 :=
  Finset.sum_Ico_succ_top h _

/-! ## Unmapping and freeing -/

section Unmap

variable {pt : PageTable} {k : Kmem}

/-- Unmapping pages that are all mapped removes exactly these pages, and
with `doFree` puts their frames on the free list. -/
theorem unmapPages_safe (v : Nat) (doFree : Bool) (n : Nat)
    (hmapped : ∀ w, v ≤ w → w < v + n → pt.leafAt w ≠ none) :
    Safe Panic.TearDown (unmapPages pt (v * PGSIZE) doFree k n) fun r =>
      (r.1.leafAt = fun w => if v ≤ w ∧ w < v + n then none else pt.leafAt w) ∧
      (∀ a, r.1.nodes a = pt.nodes a) ∧ ∀ a, r.2.freelist.count a =
        k.freelist.count a + if doFree then frames pt.leafAt v (v + n) a else 0 := by
  induction n generalizing pt k v with
  | zero =>
    refine .pure ⟨?_, fun _ => rfl, ?_⟩
    · funext w
      rw [if_neg (by omega)]
    · intro a
      simp [frames_self]
  | succ n ih =>
    rw [unmapPages]
    by_cases hva : v * PGSIZE < MAXVA
    · have hv : v < 2 ^ 27 := by
        simp only [MAXVA, PGSIZE] at hva
        omega
      have hleaf : pt.leaf (v * PGSIZE) ≠ none := by
        have h := hmapped v (le_refl v) (by omega)
        rwa [PageTable.leafAt, if_pos hv] at h
      have hhas := PageTable.has_of_leaf hleaf
      obtain ⟨l, hl⟩ := ne_none_iff_exists'.1 hleaf
      obtain ⟨found, hwalk, hfound⟩ := walk_false pt (v * PGSIZE) k hva
      have hlAt : pt.leafAt v = some l := by rw [PageTable.leafAt, if_pos hv, hl]
      have hnext : v * PGSIZE + PGSIZE = (v + 1) * PGSIZE := by rw [Nat.succ_mul]
      rw [hwalk]
      simp only [bind, Except.bind, hfound.2 hhas, if_true, hl, hnext]
      -- the rest of the loop, from any free list that the first page leaves
      have hrest : ∀ k' : Kmem, (∀ a, k'.freelist.count a =
            k.freelist.count a + if doFree then (if l.pa = a then 1 else 0) else 0) →
          Safe Panic.TearDown
            (unmapPages (pt.setLeaf (v * PGSIZE) none) ((v + 1) * PGSIZE) doFree k' n)
            fun r =>
              (r.1.leafAt = fun w => if v ≤ w ∧ w < v + (n + 1) then none else pt.leafAt w) ∧
              (∀ a, r.1.nodes a = pt.nodes a) ∧
              ∀ a, r.2.freelist.count a = k.freelist.count a +
                if doFree then frames pt.leafAt v (v + (n + 1)) a else 0 := by
        intro k' hk'
        have hset : (pt.setLeaf (v * PGSIZE) none).leafAt = update pt.leafAt v none :=
          PageTable.leafAt_setLeaf hhas hv
        have hother : ∀ w, v + 1 ≤ w → (pt.setLeaf (v * PGSIZE) none).leafAt w = pt.leafAt w := by
          intro w hw
          rw [hset, update_of_ne (by omega)]
        apply (ih (v + 1) fun w hlo hhi => by
          rw [hother w hlo]
          exact hmapped w (by omega) (by omega)).mono
        rintro ⟨pt', k''⟩ ⟨hmap, hnodes, hcount⟩
        refine ⟨?_, ?_, ?_⟩
        · simp only at hmap ⊢
          rw [hmap]
          funext w
          by_cases hwv : w = v
          · subst hwv
            rw [if_neg (by omega), if_pos (by omega), hset, update_self]
          rw [hset, update_of_ne hwv]
          by_cases hin : v + 1 ≤ w ∧ w < v + 1 + n
          · rw [if_pos hin, if_pos (by omega)]
          · rw [if_neg hin, if_neg (by omega)]
        · intro a
          rw [hnodes a, PageTable.setLeaf_nodes hhas]
        intro a
        rw [hcount a, hk' a, Nat.add_assoc]
        congr 1
        cases doFree with
        | false => rfl
        | true =>
          have hfirst : frames pt.leafAt v (v + (n + 1)) a =
              (if l.pa = a then 1 else 0) + frames pt.leafAt (v + 1) (v + (n + 1)) a := by
            rw [frames_bot (by omega), hlAt, elim_some]
          rw [if_pos rfl, if_pos rfl, if_pos rfl, hfirst,
            frames_congr (fun w hlo _ => hother w hlo), Nat.add_right_comm v 1 n]
          rfl
      cases doFree with
      | false => exact hrest k (by simp)
      | true => exact (kfree_safe k l.pa).bind fun k' hk' => hrest k' (by simpa using hk')
    · rw [walk, if_pos (by omega)]
      exact .error (by simp [Panic.TearDown])

/-- Freeing a table whose entries can be freed puts its pages on the free
list. -/
theorem freeTable_safe {α : Type} {free : α → Kmem → Except Panic Kmem}
    {below : α → Nat → Nat} {t : Table α}
    (hfree : ∀ i e k, t.entry i = some e → Safe Panic.TearDown (free e k) fun k' =>
      ∀ a, k'.freelist.count a = k.freelist.count a + below e a) :
    Safe Panic.TearDown (freeTable free t k) fun k' =>
      ∀ a, k'.freelist.count a = k.freelist.count a + t.nodes below a := by
  -- the loop over any list of indices
  have hloop : ∀ (is : List (Fin 512)) (k : Kmem),
      Safe Panic.TearDown (is.foldlM (freeEntry free t) k) fun k' =>
        ∀ a, k'.freelist.count a = k.freelist.count a +
          (is.map fun i => (t.entry i).elim 0 (below · a)).sum := by
    intro is
    induction is with
    | nil => exact fun k => .pure (by simp)
    | cons i is ih =>
      intro k
      rw [foldlM_cons]
      have hhead : Safe Panic.TearDown (freeEntry free t k i) fun k' =>
          ∀ a, k'.freelist.count a = k.freelist.count a + (t.entry i).elim 0 (below · a) := by
        unfold freeEntry
        cases hi : t.entry i with
        | none => exact .ok (by simp)
        | some e => exact hfree i e k hi
      apply hhead.bind
      intro k' hk'
      apply (ih k').mono
      intro k'' hk'' a
      rw [hk'' a, hk' a, map_cons, sum_cons, Nat.add_assoc]
  unfold freeTable
  apply (hloop (finRange 512) k).bind
  intro k' hk'
  apply (kfree_safe k' t.addr).mono
  intro k'' hk'' a
  rw [hk'' a, hk' a, Table.nodes, Fin.sum_univ_def]
  omega

/-- Freeing a page table without leaves frees exactly its own pages. -/
theorem freewalk_safe (hnone : ∀ v, pt.leafAt v = none) :
    Safe Panic.TearDown (freewalk pt k) fun k' =>
      ∀ a, k'.freelist.count a = k.freelist.count a + pt.nodes a := by
  unfold freewalk PageTable.nodes
  apply freeTable_safe
  intro i mid k hmid
  apply freeTable_safe
  intro j low k hlow
  apply freeTable_safe
  intro o l k hl
  -- a leaf at the indices `i`, `j`, `o` would be the leaf of their page
  exfalso
  have hv : i.val * 2 ^ 18 + j.val * 2 ^ 9 + o.val < 2 ^ 27 := by omega
  have h := hnone (i.val * 2 ^ 18 + j.val * 2 ^ 9 + o.val)
  rw [PageTable.leafAt, if_pos hv] at h
  have hi : PX 2 ((i.val * 2 ^ 18 + j.val * 2 ^ 9 + o.val) * PGSIZE) = i := by
    apply Fin.ext
    simp only [PX, PGSIZE]
    omega
  have hj : PX 1 ((i.val * 2 ^ 18 + j.val * 2 ^ 9 + o.val) * PGSIZE) = j := by
    apply Fin.ext
    simp only [PX, PGSIZE]
    omega
  have ho : PX 0 ((i.val * 2 ^ 18 + j.val * 2 ^ 9 + o.val) * PGSIZE) = o := by
    apply Fin.ext
    simp only [PX, PGSIZE]
    omega
  rw [PageTable.leaf, hi, hmid, bind_some, hj, hlow, bind_some, ho, hl] at h
  cases h

end Unmap

end Xv6
