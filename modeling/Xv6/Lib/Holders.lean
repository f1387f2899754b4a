import Mathlib

/-!
# How many slots hold a thing

Finitely many slots, each empty or with one thing in it.  `holders g a` is the
number of slots with `a`, the value that a reference count has to keep.

* `holders_update`: what one assignment to a slot does to all counts;
* `holders_pos`: a count is positive just when some slot holds the thing.

`tally g a` counts the same for holders that may have several things each, in
a list, with `tally_update` and `tally_pos`.
-/

namespace Xv6.Lib

open Function Finset

variable {ι α : Type} [Fintype ι] [DecidableEq ι] [DecidableEq α]

/-- The number of slots that hold `a`. -/
def holders (g : ι → Option α) (a : α) : Nat := (Finset.univ.filter (g · = some a)).card

/-- An assignment takes the old thing out of the slot and puts the new one
in. -/
theorem holders_update (g : ι → Option α) (i : ι) (v : Option α) (a : α) :
    holders (update g i v) a + (if g i = some a then 1 else 0) =
      holders g a + (if v = some a then 1 else 0) := by
  -- both sides count the other slots, and then slot `i`
  have hsplit : ∀ g' : ι → Option α, holders g' a =
      ((univ.erase i).filter (g' · = some a)).card + (if g' i = some a then 1 else 0) := by
    intro g'
    rw [holders, ← insert_erase (mem_univ i), filter_insert]
    split
    · rw [card_insert_of_notMem (by simp), erase_insert (by simp)]
    rw [erase_insert (by simp)]
    rfl
  have hrest : (univ.erase i).filter (update g i v · = some a) =
      (univ.erase i).filter (g · = some a) := by
    refine filter_congr fun j hj => ?_
    rw [update_of_ne (ne_of_mem_erase hj)]
  rw [hsplit g, hsplit (update g i v), hrest, update_self]
  omega

variable {a : α}

omit [DecidableEq ι] in
theorem holders_pos {g : ι → Option α} : 0 < holders g a ↔ ∃ i, g i = some a := by
  simp [holders, Finset.card_pos, Finset.Nonempty]

omit [DecidableEq ι] in
theorem holders_eq_zero {g : ι → Option α} : holders g a = 0 ↔ ∀ i, g i ≠ some a := by
  simp [holders, filter_eq_empty_iff]

/-- How often the holders have `a`, all together. -/
def tally (g : ι → List α) (a : α) : Nat := ∑ i, (g i).count a

/-- Another list for one holder. -/
theorem tally_update (g : ι → List α) (i : ι) (l : List α) (a : α) :
    tally (update g i l) a + (g i).count a = tally g a + l.count a := by
  have hrest : ∑ j ∈ univ.erase i, (update g i l j).count a =
      ∑ j ∈ univ.erase i, (g j).count a := by
    refine sum_congr rfl fun j hj => ?_
    rw [update_of_ne (ne_of_mem_erase hj)]
  rw [tally, tally, ← add_sum_erase _ _ (mem_univ i),
    ← add_sum_erase _ (fun j => (g j).count a) (mem_univ i), hrest,
    update_self]
  omega

omit [DecidableEq ι] in
theorem tally_eq_zero {g : ι → List α} (h : ∀ i, g i = []) : tally g a = 0 :=
  sum_eq_zero fun i _ => by rw [h i, List.count_nil]

omit [DecidableEq ι] in
theorem tally_pos {g : ι → List α} : 0 < tally g a ↔ ∃ i, a ∈ g i := by
  rw [tally, Nat.pos_iff_ne_zero, Ne, sum_eq_zero_iff]
  simp [List.count_eq_zero]

end Xv6.Lib
