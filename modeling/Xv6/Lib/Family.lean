import Mathlib

/-!
# Sums over a finite family of components

The parties of a system are a finite family, and a step changes the state of
one of them.  A quantity that the system keeps in one place (a counter, a
reservation) is often the sum of a weight over the parties; `sum_update`
says how one step changes such a sum.
-/

namespace Xv6.Lib

open Function

variable {ι κ : Type} [Fintype ι] (f : ι → κ) (g : κ → Nat)

/-- Changing one component changes a sum by the change of its weight. -/
theorem sum_update [DecidableEq ι] (i : ι) (v : κ) :
    ∑ j, g (update f i v j) + g (f i) = ∑ j, g (f j) + g v := by
  have hnew := Finset.add_sum_erase Finset.univ (fun j => g (update f i v j)) (Finset.mem_univ i)
  have hold := Finset.add_sum_erase Finset.univ (fun j => g (f j)) (Finset.mem_univ i)
  have hrest : ∑ j ∈ Finset.univ.erase i, g (update f i v j) =
      ∑ j ∈ Finset.univ.erase i, g (f j) := by
    apply Finset.sum_congr rfl
    intro j hj
    rw [update_of_ne (Finset.ne_of_mem_erase hj)]
  simp only [update_self] at hnew
  omega

/-- A component's weight is at most the sum. -/
theorem le_sum (i : ι) : g (f i) ≤ ∑ j, g (f j) :=
  Finset.single_le_sum (fun j _ => Nat.zero_le (g (f j))) (Finset.mem_univ i)

/-- A positive sum has a component with a positive weight. -/
theorem exists_pos_of_sum_pos (h : 0 < ∑ j, g (f j)) : ∃ i, 0 < g (f i) := by
  by_contra hnone
  have hzero : ∑ j, g (f j) = 0 := by
    apply Finset.sum_eq_zero
    intro j _
    by_contra hj
    exact hnone ⟨j, by omega⟩
  omega

end Xv6.Lib
