import Mathlib

/-!
# Queues between two counters

A ring of `cap` cells and counters of any kind that run around it.  A
`Counter` says only what the counters have to do: each step leads to the next
cell, and no counter comes back within `cap` steps.  Counters that wrap are
therefore covered.

`Spells k ring r w l` says that the cells from the counter `r` up to the
counter `w` hold the list `l`, oldest first.

* `Spells.store` and `Spells.snoc`, together `Spells.push`: the writer fills a
  cell and moves on;
* `Spells.take`: the reader takes the oldest element;
* `Spells.eq_nil_iff`: the queue is empty where the counters are equal.
-/

namespace Xv6.Lib

open Function

/-- Counters that run around a ring of `cap` cells. -/
structure Counter (C : Type) (cap : Nat) where
  slot : C → Fin cap
  next : C → C
  slot_next : ∀ c, (slot (next c)).val = ((slot c).val + 1) % cap
  period : ∀ c n, 0 < n → n ≤ cap → next^[n] c ≠ c

variable {C α : Type} {cap : Nat} {k : Counter C cap} {ring : Fin cap → α} {r w : C} {l : List α}

/-- The cells from `r` to `w` hold the list. -/
def Spells (k : Counter C cap) (ring : Fin cap → α) : C → C → List α → Prop
  | r, w, [] => r = w
  | r, w, x :: l => ring (k.slot r) = x ∧ Spells k ring (k.next r) w l

/-- Steps of a counter are steps around the ring. -/
theorem Counter.slot_iterate (k : Counter C cap) (n : Nat) (c : C) :
    (k.slot (k.next^[n] c)).val = ((k.slot c).val + n) % cap := by
  induction n generalizing c with
  | zero => exact (Nat.mod_eq_of_lt (k.slot c).isLt).symm
  | succ n ih =>
    rw [Function.iterate_succ_apply, ih, k.slot_next, Nat.mod_add_mod]
    congr 1
    omega

/-- Fewer than `cap` steps lead to another cell. -/
theorem Counter.slot_iterate_ne (k : Counter C cap) {n : Nat} (hpos : 0 < n) (hn : n < cap)
    (c : C) : k.slot (k.next^[n] c) ≠ k.slot c := by
  intro heq
  have hval := congrArg Fin.val heq
  rw [k.slot_iterate] at hval
  rcases Nat.lt_or_ge ((k.slot c).val + n) cap with h | h
  · rw [Nat.mod_eq_of_lt h] at hval
    omega
  · rw [Nat.mod_eq_sub_mod h, Nat.mod_eq_of_lt (by omega)] at hval
    omega

namespace Spells

section

variable (h : Spells k ring r w l)

include h

theorem iterate : w = k.next^[l.length] r := by
  induction l generalizing r with
  | nil => exact h.symm
  | cons x l ih =>
    rw [List.length_cons, Function.iterate_succ_apply]
    exact ih h.2

/-- The queue is empty where the counters are equal. -/
theorem eq_nil_iff (hlen : l.length ≤ cap) : r = w ↔ l = [] := by
  constructor
  · intro heq
    by_contra hne
    have hw := h.iterate
    rw [← heq] at hw
    exact k.period r l.length (List.length_pos_iff.2 hne) hlen hw.symm
  · intro hnil
    subst hnil
    exact h

/-- The reader takes the oldest element. -/
theorem take (hne : r ≠ w) : ∃ l', l = ring (k.slot r) :: l' ∧ Spells k ring (k.next r) w l' := by
  cases l with
  | nil => exact absurd h hne
  | cons x l => exact ⟨l, by rw [h.1], h.2⟩

/-- The writer moves on over the cell that it has filled. -/
theorem snoc : Spells k ring r (k.next w) (l ++ [ring (k.slot w)]) := by
  induction l generalizing r with
  | nil =>
    have hrw : r = w := h
    subst hrw
    exact ⟨rfl, rfl⟩
  | cons x l ih => exact ⟨h.1, ih h.2⟩

/-- A store behind the last element changes no element, where the ring is not
full. -/
theorem store (hlen : l.length < cap) (x : α) : Spells k (update ring (k.slot w) x) r w l := by
  induction l generalizing r with
  | nil => exact h
  | cons y l ih =>
    have hne : k.slot w ≠ k.slot r := by
      rw [h.iterate]
      exact k.slot_iterate_ne (Nat.succ_pos _) hlen r
    refine ⟨?_, ih h.2 (Nat.lt_of_succ_lt hlen)⟩
    rw [update_of_ne hne.symm]
    exact h.1

/-- The writer fills a cell and moves on. -/
theorem push (hlen : l.length < cap) (x : α) :
    Spells k (update ring (k.slot w) x) r (k.next w) (l ++ [x]) := by
  have hsnoc := (h.store hlen x).snoc
  rwa [update_self] at hsnoc

end

end Spells

end Xv6.Lib
