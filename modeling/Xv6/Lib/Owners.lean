import Mathlib

/-!
# Slots that own the cells of an area

An allocator marks cells of an area as used, and slots of some type hold the
numbers of cells; a slot that holds 0 is empty.  `Exact area used g` says
that the cells in the slots `g` are exactly the used cells of the area, each
in one slot.

* `Exact.give` puts a new cell into an empty slot;
* `Exact.take` empties a slot and gives its cell back;
* `Exact.congr` replaces both sides by equal ones.
-/

namespace Xv6.Lib

variable {Ω : Type} {area used used' : Nat → Prop} {g g' : Ω → Nat}

/-- The used cells of the area are exactly those in the slots, each in one
slot. -/
structure Exact (area used : Nat → Prop) (g : Ω → Nat) : Prop where
  zero : ¬ area 0
  sound : ∀ o, g o ≠ 0 → area (g o) ∧ used (g o)
  inj : ∀ o o', g o ≠ 0 → g o = g o' → o = o'
  complete : ∀ b, area b → used b → ∃ o, g o = b

namespace Exact

section

variable (h : Exact area used g)

include h

theorem congr (hused : ∀ b, area b → (used' b ↔ used b))
    (hg : ∀ o, g' o = g o) : Exact area used' g' := by
  have heq : g' = g := funext hg
  subst heq
  refine ⟨h.zero, ?_, h.inj, ?_⟩
  · intro o ho
    obtain ⟨harea, hu⟩ := h.sound o ho
    exact ⟨harea, (hused _ harea).2 hu⟩
  · intro b hb hu
    exact h.complete b hb ((hused b hb).1 hu)

/-- A cell of the area that is not used goes into an empty slot. -/
theorem give {o : Ω} {b : Nat} (hempty : g o = 0)
    (hb : area b) (hnew : ¬ used b) (hused : ∀ x, area x → (used' x ↔ used x ∨ x = b))
    (hself : g' o = b) (hother : ∀ o', o' ≠ o → g' o' = g o') : Exact area used' g' := by
  -- no other slot can hold the new cell, since it was not used
  have hfresh : ∀ o', g o' ≠ 0 → g o' ≠ b := by
    intro o' hne heq
    exact hnew (heq ▸ (h.sound o' hne).2)
  refine ⟨h.zero, ?_, ?_, ?_⟩
  · intro o' hne
    by_cases ho : o' = o
    · subst ho
      rw [hself]
      exact ⟨hb, (hused b hb).2 (.inr rfl)⟩
    rw [hother o' ho] at hne ⊢
    obtain ⟨harea, hu⟩ := h.sound o' hne
    exact ⟨harea, (hused _ harea).2 (.inl hu)⟩
  · intro o1 o2 hne heq
    by_cases h1 : o1 = o
    · by_cases h2 : o2 = o
      · rw [h1, h2]
      subst h1
      rw [hself, hother o2 h2] at heq
      rw [hself] at hne
      exact absurd heq.symm (hfresh o2 (heq ▸ hne))
    rw [hother o1 h1] at hne heq
    by_cases h2 : o2 = o
    · subst h2
      rw [hself] at heq
      exact absurd heq (hfresh o1 hne)
    · rw [hother o2 h2] at heq
      exact h.inj o1 o2 hne heq
  · intro x hx hu
    rcases (hused x hx).1 hu with hu | rfl
    · obtain ⟨o', ho'⟩ := h.complete x hx hu
      have ho : o' ≠ o := by
        intro ho
        rw [ho, hempty] at ho'
        exact h.zero (ho' ▸ hx)
      exact ⟨o', by rw [hother o' ho, ho']⟩
    · exact ⟨o, hself⟩

/-- A slot is emptied, and its cell is given back. -/
theorem take {o : Ω} (hused : ∀ x, area x → (used' x ↔ used x ∧ x ≠ g o))
    (hself : g' o = 0) (hother : ∀ o', o' ≠ o → g' o' = g o') : Exact area used' g' := by
  have hslot : ∀ o', g' o' ≠ 0 → o' ≠ o := by
    intro o' hne' ho
    exact hne' (ho ▸ hself)
  refine ⟨h.zero, ?_, ?_, ?_⟩
  · intro o' hne'
    have ho := hslot o' hne'
    rw [hother o' ho] at hne' ⊢
    obtain ⟨harea, hu⟩ := h.sound o' hne'
    exact ⟨harea, (hused _ harea).2 ⟨hu, fun heq => ho (h.inj o' o hne' heq)⟩⟩
  · intro o1 o2 hne' heq
    have h1 := hslot o1 hne'
    have h2 := hslot o2 (heq ▸ hne')
    rw [hother o1 h1] at hne' heq
    rw [hother o2 h2] at heq
    exact h.inj o1 o2 hne' heq
  · intro x hx hu
    obtain ⟨hu, hxne⟩ := (hused x hx).1 hu
    obtain ⟨o', ho'⟩ := h.complete x hx hu
    have ho : o' ≠ o := by
      intro ho
      exact hxne (by rw [← ho', ho])
    exact ⟨o', by rw [hother o' ho, ho']⟩

/-- A cell of the area is used if and only if one slot holds it. -/
theorem used_iff {b : Nat} (hb : area b) : used b ↔ ∃! o, g o = b := by
  have hb0 : b ≠ 0 := fun h0 => h.zero (h0 ▸ hb)
  constructor
  · intro hu
    obtain ⟨o, ho⟩ := h.complete b hb hu
    refine ⟨o, ho, ?_⟩
    intro o' ho'
    exact h.inj o' o (by rw [ho']; exact hb0) (by rw [ho, ho'])
  · rintro ⟨o, rfl, _⟩
    exact (h.sound o hb0).2

/-- Slots are only filled: the new used cells are those in the slots that
were empty. -/
theorem used_iff_of_filled (h' : Exact area used' g')
    (hkeep : ∀ o, g o ≠ 0 → g' o = g o) {b : Nat} (hb : area b) :
    used' b ↔ used b ∨ ∃ o, g o = 0 ∧ g' o = b := by
  have hb0 : b ≠ 0 := fun h0 => h.zero (h0 ▸ hb)
  constructor
  · intro hu
    obtain ⟨o, ho⟩ := h'.complete b hb hu
    by_cases hg : g o = 0
    · exact .inr ⟨o, hg, ho⟩
    rw [hkeep o hg] at ho
    exact .inl (ho ▸ (h.sound o hg).2)
  rintro (hu | ⟨o, -, ho⟩)
  · obtain ⟨o, ho⟩ := h.complete b hb hu
    have hg : g o ≠ 0 := by rwa [ho]
    rw [← ho, ← hkeep o hg]
    exact (h'.sound o (by rw [hkeep o hg]; exact hg)).2
  · rw [← ho]
    exact (h'.sound o (by rwa [ho])).2

/-- A cell in a slot that was empty was not used. -/
theorem not_used_of_filled (h' : Exact area used' g')
    (hkeep : ∀ o, g o ≠ 0 → g' o = g o) {o : Ω} (hempty : g o = 0) (ho : g' o ≠ 0) :
    ¬ used (g' o) := by
  intro hu
  obtain ⟨o', ho'⟩ := h.complete _ (h'.sound o ho).1 hu
  have hg : g o' ≠ 0 := by rwa [ho']
  have hsame : o = o' := h'.inj o o' ho (by rw [hkeep o' hg, ho'])
  rw [← hsame, hempty] at hg
  exact hg rfl

end

end Exact

end Xv6.Lib
