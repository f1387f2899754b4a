import Xv6.Lib.Except
import Xv6.Lib.Run
import Xv6.Vm.PageTable

/-!
# Page tables in physical memory

`walk`, `walkaddr`, `mappages`, `uvmunmap` and `uvmcreate` of `kernel/vm.c`
over memory words: a page-table page is 512 words of physical memory, and an
entry is a 64-bit word with a page number and ten flags.  Nothing here keeps
two entries from pointing to the same page; that the pages form a tree is a
theorem about runs.

`kalloc` may fail at any call, and so every function takes the pattern of the
failures: `fails` says at which level of which walk it does.  Between two
calls other code may take and free pages and write to its own.
-/

namespace Xv6.Phys

open Lib Function

/-! ## Entries -/

def PTE_V : Nat := 1

def PTE_U : Nat := 16

/-- Shift a physical address to the right place for an entry. -/
def PA2PTE (pa : Nat) : Nat := pa >>> 12 <<< 10

def PTE2PA (pte : Nat) : Nat := (pte >>> 10 <<< 12) % 2 ^ 64

def PTE_FLAGS (pte : Nat) : Nat := pte &&& 0x3FF

/-- `*pte & PTE_V`. -/
def valid (pte : Nat) : Bool := pte &&& PTE_V ≠ 0

/-! ## Memory -/

/-- Physical memory: the words of the page at an address, and the free
pages. -/
structure Mem where
  word : Nat → Fin 512 → Nat
  kmem : Kmem

namespace Mem

/-- `memset(page, c, PGSIZE)`. -/
def memset (m : Mem) (page c : Nat) : Mem :=
  { m with word := update m.word page fun _ => c * 0x0101010101010101 }

/-- Store a word. -/
def store (m : Mem) (page : Nat) (i : Fin 512) (w : Nat) : Mem :=
  { m with word := update m.word page (update (m.word page) i w) }

/-- `kalloc`, which fills the page with junk. -/
def kalloc (m : Mem) (fails : Bool) : Option (Nat × Mem) :=
  if fails then none
  else (Xv6.kalloc m.kmem).map fun r => (r.1, { m with kmem := r.2 }.memset r.1 5)

/-- `kfree`, which fills the page with junk. -/
def kfree (m : Mem) (pa : Nat) : Except Panic Mem := do
  let k ← Xv6.kfree m.kmem pa
  return { m with kmem := k }.memset pa 1

/-- One round of the loop of `walk`: the table below entry `i` of a table. -/
def descend (m : Mem) (table : Nat) (i : Fin 512) (alloc fails : Bool) : Option (Nat × Mem) :=
  if valid (m.word table i) then some (PTE2PA (m.word table i), m)
  else if alloc then
    (m.kalloc fails).map fun r =>
      (r.1, (r.2.memset r.1 0).store table i (PA2PTE r.1 ||| PTE_V))
  else none

/-- `walk`: the place of the entry of `va` in the lowest level. -/
def walk (m : Mem) (pagetable va : Nat) (alloc : Bool) (fails : Nat → Bool) :
    Except Panic (Option (Nat × Fin 512) × Mem) :=
  if va ≥ MAXVA then
    .error .walk
  else
    match m.descend pagetable (PX 2 va) alloc (fails 2) with
    | none => .ok (none, m)
    | some (mid, m) =>
      match m.descend mid (PX 1 va) alloc (fails 1) with
      | none => .ok (none, m)
      | some (low, m) => .ok (some (low, PX 0 va), m)

/-- `walkaddr`. -/
def walkaddr (m : Mem) (pagetable va : Nat) : Except Panic Nat :=
  if va ≥ MAXVA then
    .ok 0
  else do
    let r ← m.walk pagetable va false fun _ => false
    match r.1 with
    | none => return 0
    | some (page, i) =>
      let pte := r.2.word page i
      if valid pte = false then return 0
      else if pte &&& PTE_U = 0 then return 0
      else return PTE2PA pte

/-- The loop of `mappages` over `n` pages: `a` is `last` after `size / PGSIZE`
rounds, unless `walk` panics before. -/
def mapLoop (pagetable perm : Nat) (fails : Nat → Nat → Bool) :
    Nat → Nat → Nat → Mem → Except Panic (Bool × Mem)
  | 0, _, _, m => .ok (true, m)
  | n + 1, a, pa, m => do
    let r ← m.walk pagetable a true (fails n)
    match r.1 with
    | none => return (false, r.2)
    | some (page, i) =>
      if valid (r.2.word page i) then
        throw .mappagesRemap
      else
        mapLoop pagetable perm fails n (a + PGSIZE) ((pa + PGSIZE) % 2 ^ 64)
          (r.2.store page i (PA2PTE pa ||| perm ||| PTE_V))

/-- `mappages`.  The flag is false where the source returns `-1`. -/
def mappages (m : Mem) (pagetable va size pa perm : Nat) (fails : Nat → Nat → Bool) :
    Except Panic (Bool × Mem) :=
  if va % PGSIZE ≠ 0 then
    .error .mappagesVaNotAligned
  else if size % PGSIZE ≠ 0 then
    .error .mappagesSizeNotAligned
  else if size = 0 then
    .error .mappagesSize
  else
    mapLoop pagetable perm fails (size / PGSIZE) va pa m

/-- `if(do_free) kfree(pa)`. -/
def release (m : Mem) (doFree : Bool) (pa : Nat) : Except Panic Mem :=
  if doFree then m.kfree pa else .ok m

/-- The loop of `uvmunmap` over `n` pages. -/
def unmapLoop (pagetable : Nat) (doFree : Bool) : Nat → Nat → Mem → Except Panic Mem
  | 0, _, m => .ok m
  | n + 1, a, m => do
    let r ← m.walk pagetable a false fun _ => false
    match r.1 with
    | none => throw .uvmunmapWalk
    | some (page, i) =>
      let pte := r.2.word page i
      if valid pte = false then throw .uvmunmapNotMapped
      else if PTE_FLAGS pte = PTE_V then throw .uvmunmapNotALeaf
      else do
        let m ← r.2.release doFree (PTE2PA pte)
        unmapLoop pagetable doFree n (a + PGSIZE) (m.store page i 0)

/-- The number of rounds of `for(a = va; a < va + npages*PGSIZE; a += PGSIZE)`,
in 64 bits. -/
def rounds (va npages : Nat) : Nat := ((va + npages * PGSIZE) % 2 ^ 64 - va) / PGSIZE

/-- `uvmunmap`. -/
def uvmunmap (m : Mem) (pagetable va npages : Nat) (doFree : Bool) : Except Panic Mem :=
  if va % PGSIZE ≠ 0 then
    .error .uvmunmapNotAligned
  else
    unmapLoop pagetable doFree (rounds va npages) va m

/-- `uvmcreate`. -/
def uvmcreate (m : Mem) (fails : Bool) : Option (Nat × Mem) :=
  (m.kalloc fails).map fun r => (r.1, r.2.memset r.1 0)

/-! ## What a page table represents -/

/-- The page that an entry of an upper level points to. -/
def child (m : Mem) (page : Nat) (i : Fin 512) : Option Nat :=
  if valid (m.word page i) then some (PTE2PA (m.word page i)) else none

/-- The page-table page at the end of a path of indices, the last index
first. -/
def node (m : Mem) (root : Nat) : List (Fin 512) → Option Nat
  | [] => some root
  | i :: path => (m.node root path).bind (m.child · i)

/-- A page of the page table itself. -/
def IsTable (m : Mem) (root page : Nat) : Prop :=
  ∃ path : List (Fin 512), path.length ≤ 2 ∧ m.node root path = some page

end Mem

/-- The page and the flags of a valid entry. -/
def leafOf (pte : Nat) : Option (Nat × Nat) :=
  if valid pte then some (PTE2PA pte, PTE_FLAGS pte) else none

/-- The indices that lead to the lowest table of a page, the last one first. -/
def pathOf (vpn : Nat) : List (Fin 512) := [PX 1 (vpn * PGSIZE), PX 2 (vpn * PGSIZE)]

/-- The map that the page table represents, from the virtual page numbers
below `MAXVA / PGSIZE` to physical pages and flags. -/
def Mem.map (m : Mem) (root vpn : Nat) : Option (Nat × Nat) :=
  if vpn < MAXVA / PGSIZE then
    (m.node root (pathOf vpn)).bind fun page => leafOf (m.word page (PX 0 (vpn * PGSIZE)))
  else none

/-! ## Runs -/

/-- A call on a page table with its arguments and its result, or what other
code does.  The source's `perm` is an `int`, extended to 64 bits. -/
inductive Event where
  | walk (va : UInt64) (alloc : Bool) (fails : Nat → Bool)
  | mappages (va size pa perm : UInt64) (fails : Nat → Nat → Bool) (ok : Bool)
  | uvmunmap (va npages : UInt64) (doFree : Bool)
  | other (m : Mem)

/-- The free list holds pages, each once, and none of the page table. -/
structure Mem.Disjoint (m : Mem) (root : Nat) (k : Kmem) : Prop where
  nodup : k.freelist.Nodup
  pages : ∀ page ∈ k.freelist, k.IsPage page
  tables : ∀ page ∈ k.freelist, ¬ m.IsTable root page

/-- A call from `m` that returns in `m'`.  Other code leaves the pages of the
page table alone. -/
def Steps (root : Nat) (m : Mem) : Event → Mem → Prop
  | .walk va alloc fails, m' => ∃ r, m.walk root va.toNat alloc fails = .ok (r, m')
  | .mappages va size pa perm fails ok, m' =>
    m.mappages root va.toNat size.toNat pa.toNat perm.toNat fails = .ok (ok, m')
  | .uvmunmap va npages doFree, m' => m.uvmunmap root va.toNat npages.toNat doFree = .ok m'
  | .other t, m' => m' = t ∧ (∀ page, m.IsTable root page → t.word page = m.word page) ∧
    m.Disjoint root t.kmem

/-- The calls as a function, where they return. -/
def call (root : Nat) (m : Mem) : Event → Option Mem
  | .walk va alloc fails => (m.walk root va.toNat alloc fails).toOption.map Prod.snd
  | .mappages va size pa perm fails ok =>
    (m.mappages root va.toNat size.toNat pa.toNat perm.toNat fails).toOption.bind fun r =>
      if r.1 = ok then some r.2 else none
  | .uvmunmap va npages doFree => (m.uvmunmap root va.toNat npages.toNat doFree).toOption
  | .other _ => none

/-- The obligation of a caller that lets `uvmunmap` free the memory: the `n`
pages from `vpn` on are no page-table pages, and none of them is free or
mapped twice. -/
structure Mem.MayFree (m : Mem) (root vpn n : Nat) : Prop where
  owned : ∀ i < n, ∀ f, m.map root (vpn + i) = some f → ¬ m.IsTable root f.1 ∧ f.1 ∉ m.kmem.freelist
  once : ∀ i < n, ∀ j < n, ∀ f g, m.map root (vpn + i) = some f →
    m.map root (vpn + j) = some g → f.1 = g.1 → i = j

/-- What a caller has to keep to: `perm` fits into the flags of an entry, and
the memory that `uvmunmap` frees is the caller's. -/
def Mem.Proper (m : Mem) (root : Nat) : Event → Prop
  | .mappages _ _ _ perm _ _ => perm.toNat < 2 ^ 10
  | .uvmunmap va npages doFree =>
    doFree = true → m.MayFree root (va.toNat / PGSIZE) (Mem.rounds va.toNat npages.toNat)
  | _ => True

/-! ## The finite map -/

/-- A map from virtual page numbers to physical pages and flags. -/
abbrev Map := Nat → Option (Nat × Nat)

namespace Map

/-- What page `i` of a range that starts at the physical address `pa` gets. -/
def entry (pa perm i : Nat) : Nat × Nat :=
  ((pa + i * PGSIZE) % 2 ^ 64 / PGSIZE * PGSIZE, perm ||| PTE_V)

/-- Add `n` pages from `v` on, with consecutive frames. -/
def add (f : Map) (v n pa perm : Nat) : Map := fun u =>
  if v ≤ u ∧ u < v + n then some (entry pa perm (u - v)) else f u

/-- Remove `n` pages from `v` on. -/
def remove (f : Map) (v n : Nat) : Map := fun u =>
  if v ≤ u ∧ u < v + n then none else f u

/-- The physical page of a user address, or 0. -/
def walkaddr (f : Map) (va : Nat) : Nat :=
  match f (va / PGSIZE) with
  | none => 0
  | some (pa, flags) => if flags &&& PTE_U = 0 then 0 else pa

/-- What an event does to the map.  A `mappages` that fails has added the
first pages of its range, not all of them. -/
def Steps (f : Map) : Event → Map → Prop
  | .walk _ _ _, f' => f' = f
  | .mappages va size pa perm _ ok, f' => ∃ k,
    (if ok then k = size.toNat / PGSIZE else k < size.toNat / PGSIZE) ∧
    (∀ i < k, f (va.toNat / PGSIZE + i) = none) ∧
    f' = f.add (va.toNat / PGSIZE) k pa.toNat perm.toNat
  | .uvmunmap va npages _, f' =>
    (∀ i < Mem.rounds va.toNat npages.toNat, f (va.toNat / PGSIZE + i) ≠ none) ∧
    f' = f.remove (va.toNat / PGSIZE) (Mem.rounds va.toNat npages.toNat)
  | .other _, f' => f' = f

end Map

end Xv6.Phys
