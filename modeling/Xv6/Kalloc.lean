import Xv6.Params

/-!
# The physical page allocator

`kernel/kalloc.c`.  The free list is a list of page addresses, the most
recently freed page first.  The kernel's own image ends at `kernelEnd`
(the linker symbol `end`), and `kfree` refuses a page below it.  The fill
patterns that `kalloc` and `kfree` leave in a page are part of the page
contents, and the modules that model page contents add them there.
-/

namespace Xv6

/-- `kmem`: the free pages, and the first address after the kernel. -/
structure Kmem where
  kernelEnd : Nat
  freelist : List Nat
  deriving DecidableEq, Repr

/-- `kalloc`: take the first free page, or `none` when there is none. -/
def kalloc (k : Kmem) : Option (Nat × Kmem) :=
  match k.freelist with
  | [] => none
  | r :: rest => some (r, { k with freelist := rest })

/-- The addresses that `kfree` accepts. -/
def Kmem.IsPage (k : Kmem) (pa : Nat) : Prop :=
  pa % PGSIZE = 0 ∧ k.kernelEnd ≤ pa ∧ pa < PHYSTOP

instance (k : Kmem) (pa : Nat) : Decidable (k.IsPage pa) :=
  inferInstanceAs (Decidable (_ ∧ _ ∧ _))

/-- `kfree`: put a page on the free list, or panic on an address that is
not a page of the allocator. -/
def kfree (k : Kmem) (pa : Nat) : Except Panic Kmem :=
  if k.IsPage pa then
    .ok { k with freelist := pa :: k.freelist }
  else
    .error .kfree

theorem kalloc_eq_some {k k' : Kmem} {r : Nat} : kalloc k = some (r, k') ↔
      k.freelist = r :: k'.freelist ∧ k'.kernelEnd = k.kernelEnd := by
  obtain ⟨e, fl⟩ := k
  obtain ⟨e', fl'⟩ := k'
  cases fl with
  | nil => simp [kalloc]
  | cons a rest =>
    simp only [kalloc, Option.some.injEq, Prod.mk.injEq, Kmem.mk.injEq, List.cons.injEq]
    constructor
    · rintro ⟨rfl, rfl, rfl⟩
      simp
    · rintro ⟨⟨rfl, rfl⟩, rfl⟩
      simp

theorem kfree_eq_ok {k k' : Kmem} {pa : Nat} : kfree k pa = .ok k' ↔
      k.IsPage pa ∧ k' = { k with freelist := pa :: k.freelist } := by
  rw [kfree]
  split
  · rename_i h
    simp [h, eq_comm]
  · rename_i h
    simp [h]

end Xv6
