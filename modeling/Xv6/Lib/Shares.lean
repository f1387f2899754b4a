import Mathlib

/-!
# Cells that are shared out

An allocator marks cells as free, and each holder has a list of cells.
`Shares free g` says that the cells in the lists are exactly those that are
not free, and that no cell is in the lists twice.

* `Shares.give`: a holder without cells gets cells that were free;
* `Shares.back`: a holder gives all its cells back;
* `Shares.holder_unique`: a cell tells who holds it.
-/

namespace Xv6.Lib

open Function

variable {ι κ : Type}

section Mark

variable [DecidableEq ι]

/-- Set the mark of all cells of a list. -/
def mark (free : ι → Bool) (l : List ι) (v : Bool) (i : ι) : Bool := if i ∈ l then v else free i

/-- One more cell. -/
theorem mark_concat (free : ι → Bool) (l : List ι) (i : ι) (v : Bool) :
    update (mark free l v) i v = mark free (l ++ [i]) v := by
  funext j
  by_cases hj : j = i
  · rw [hj, update_self, mark, if_pos (by simp)]
  rw [update_of_ne hj, mark, mark]
  simp only [List.mem_append, List.mem_singleton, hj, or_false]

/-- One cell less. -/
theorem mark_erase {free : ι → Bool} {l : List ι} {i : ι} (hl : l.Nodup) {v : Bool}
    (hi : free i = v) (u : Bool) : update (mark free l u) i v = mark free (l.erase i) u := by
  funext j
  by_cases hj : j = i
  · rw [hj, update_self, mark, if_neg hl.not_mem_erase, hi]
  rw [update_of_ne hj, mark, mark]
  simp only [hl.mem_erase_iff, ne_eq, hj, not_false_eq_true, true_and]

end Mark

/-- The cells that are not free are in the list of one holder, once. -/
structure Shares (free : ι → Bool) (g : κ → List ι) : Prop where
  nodup : ∀ p, (g p).Nodup
  disjoint : ∀ p q, p ≠ q → (g p).Disjoint (g q)
  used : ∀ i, free i = false ↔ ∃ p, i ∈ g p

namespace Shares

variable {free free' : ι → Bool} {g g' : κ → List ι} {p q : κ} {i : ι}

/-- A cell tells who holds it. -/
theorem holder_unique (h : Shares free g) (hp : i ∈ g p) (hq : i ∈ g q) : p = q := by
  by_contra hne
  exact h.disjoint p q hne hp hq

theorem not_free (h : Shares free g) (hp : i ∈ g p) : free i = false := (h.used i).2 ⟨p, hp⟩

theorem congr (h : Shares free g) (hg : ∀ p, g' p = g p) : Shares free g' := by
  have heq : g' = g := funext hg
  rwa [heq]

variable [DecidableEq κ] {l : List ι}

/-- The cells of one holder change. -/
theorem set (h : Shares free g) (hl : l.Nodup) (hother : ∀ q, q ≠ p → (g q).Disjoint l)
    (hfree : ∀ i, free' i = false ↔ i ∈ l ∨ free i = false ∧ i ∉ g p) :
    Shares free' (update g p l) := by
  refine ⟨fun q => ?_, fun q q' hne => ?_, fun i => ?_⟩
  · by_cases hq : q = p
    · rwa [hq, update_self]
    rw [update_of_ne hq]
    exact h.nodup q
  · by_cases hq : q = p
    · have hq' : q' ≠ p := fun heq => hne (hq.trans heq.symm)
      rw [hq, update_self, update_of_ne hq']
      exact fun i hi hq => hother q' hq' hq hi
    rw [update_of_ne hq]
    by_cases hq' : q' = p
    · rw [hq', update_self]
      exact hother q hq
    · rw [update_of_ne hq']
      exact h.disjoint q q' hne
  rw [hfree]
  constructor
  · rintro (hi | ⟨hi, hp⟩)
    · exact ⟨p, by rwa [update_self]⟩
    obtain ⟨q, hq⟩ := (h.used i).1 hi
    have hqp : q ≠ p := fun heq => hp (heq ▸ hq)
    exact ⟨q, by rwa [update_of_ne hqp]⟩
  rintro ⟨q, hq⟩
  by_cases hqp : q = p
  · rw [hqp, update_self] at hq
    exact .inl hq
  · rw [update_of_ne hqp] at hq
    exact .inr ⟨h.not_free hq, fun hp => hqp (h.holder_unique hq hp)⟩

variable [DecidableEq ι]

/-- A holder without cells gets cells that were free. -/
theorem give (h : Shares free g) (hempty : g p = []) (hl : l.Nodup)
    (hfree : ∀ i ∈ l, free i = true) : Shares (mark free l false) (update g p l) := by
  refine h.set hl (fun q _ i hq hi => ?_) fun i => ?_
  · have hused := h.not_free hq
    rw [hfree i hi] at hused
    cases hused
  · rw [mark, hempty]
    by_cases hi : i ∈ l <;> simp [hi]

/-- A holder gives its cells back. -/
theorem back (h : Shares free g) (p : κ) : Shares (mark free (g p) true) (update g p []) := by
  refine h.set List.nodup_nil (fun _ _ => List.disjoint_nil_right _) fun i => ?_
  rw [mark]
  by_cases hi : i ∈ g p <;> simp [hi]

end Shares

end Xv6.Lib
