import Mathlib

/-!
# Insertion behind a skipped front

`insertWhile skip x l` walks down `l` while `skip` holds and puts `x` in
front of the first element that it does not skip.  This is the loop of a
linked-list insertion that advances a `current` pointer, over any element
type and any test.

Three facts about it carry the proofs about ordered queues: it adds `x`
and nothing else (`insertWhile_perm`), it keeps an order that the test
respects (`insertWhile_pairwise`), and `x` comes last among the elements
of its own class when the test skips all of them (`filter_insertWhile`).
-/

namespace Xv6.Lib

variable {α : Type}

/-- Put `x` in front of the first element that `skip` does not hold of. -/
def insertWhile (skip : α → Bool) (x : α) : List α → List α
  | [] => [x]
  | a :: l => if skip a then a :: insertWhile skip x l else x :: a :: l

variable {skip : α → Bool} {x : α} {l : List α}

theorem insertWhile_perm (skip : α → Bool) (x : α) (l : List α) :
    (insertWhile skip x l).Perm (x :: l) := by
  induction l with
  | nil => exact List.Perm.refl _
  | cons a l ih =>
    rw [insertWhile]
    split
    · exact (List.Perm.cons a ih).trans (List.Perm.swap x a l)
    · exact List.Perm.refl _

/-- The place of `x` cuts the list in two. -/
theorem insertWhile_split (skip : α → Bool) (x : α) (l : List α) :
    ∃ front back, l = front ++ back ∧ insertWhile skip x l = front ++ x :: back := by
  induction l with
  | nil => exact ⟨[], [], rfl, rfl⟩
  | cons a l ih =>
    rw [insertWhile]
    split
    · obtain ⟨front, back, hl, hins⟩ := ih
      exact ⟨a :: front, back, congrArg (a :: ·) hl, congrArg (a :: ·) hins⟩
    · exact ⟨[], a :: l, rfl, rfl⟩

/-- The insertion keeps an order `R` that relates every skipped element to
`x` and `x` to every element that is not skipped. -/
theorem insertWhile_pairwise {R : α → α → Prop}
    (htrans : ∀ a b c, R a b → R b c → R a c) (hl : l.Pairwise R)
    (hskip : ∀ a ∈ l, skip a = true → R a x) (hstop : ∀ a ∈ l, skip a = false → R x a) :
    (insertWhile skip x l).Pairwise R := by
  induction l with
  | nil => exact List.pairwise_singleton R x
  | cons a l ih =>
    obtain ⟨hal, hl'⟩ := List.pairwise_cons.mp hl
    rw [insertWhile]
    split
    · rename_i ha
      refine List.pairwise_cons.mpr ⟨?_, ih hl' (fun b hb => hskip b (List.mem_cons_of_mem a hb))
        (fun b hb => hstop b (List.mem_cons_of_mem a hb))⟩
      intro b hb
      rcases List.mem_cons.mp ((insertWhile_perm skip x l).mem_iff.mp hb) with rfl | hb
      · exact hskip a List.mem_cons_self ha
      · exact hal b hb
    rename_i ha
    have hxa : R x a :=
      hstop a List.mem_cons_self (Bool.eq_false_iff.mpr ha)
    refine List.pairwise_cons.mpr ⟨?_, hl⟩
    intro b hb
    rcases List.mem_cons.mp hb with rfl | hb
    · exact hxa
    · exact htrans x a b hxa (hal b hb)

/-- Elements outside the class of `x` do not notice the insertion. -/
theorem filter_insertWhile_of_neg {q : α → Bool} (hx : q x = false) :
    (insertWhile skip x l).filter q = l.filter q := by
  induction l with
  | nil => simp [insertWhile, hx]
  | cons a l ih =>
    rw [insertWhile]
    split
    · rw [List.filter_cons, List.filter_cons, ih]
    · rw [List.filter_cons, if_neg (by simp [hx])]

/-- When `skip` passes every element of a class, and no element of the
class stands behind one that `skip` stops at, an element `x` of the class
becomes its last one. -/
theorem filter_insertWhile {q : α → Bool} (hx : q x = true)
    (hq : ∀ a ∈ l, q a = true → skip a = true)
    (hl : l.Pairwise fun a b => skip a = false → q b = false) :
    (insertWhile skip x l).filter q = l.filter q ++ [x] := by
  induction l with
  | nil => simp [insertWhile, hx]
  | cons a l ih =>
    obtain ⟨hal, hl'⟩ := List.pairwise_cons.mp hl
    rw [insertWhile]
    split
    · rw [List.filter_cons, List.filter_cons, ih (fun b hb => hq b (List.mem_cons_of_mem a hb)) hl']
      split <;> simp
    -- the walk stops here: neither `a` nor anything behind it is in the class
    rename_i ha
    have ha' : skip a = false := Bool.eq_false_iff.mpr ha
    have hqa : q a = false :=
      Bool.eq_false_iff.mpr fun h => ha (hq a List.mem_cons_self h)
    have hrest : l.filter q = [] :=
      List.filter_eq_nil_iff.mpr fun b hb => by simp [hal b hb ha']
    simp [hx, hqa, hrest]

end Xv6.Lib
