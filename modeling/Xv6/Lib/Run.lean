import Mathlib

/-!
# Runs of a labelled transition system

A system is a relation `step s l s'`: from the state `s` the label `l` may
lead to `s'`.  `Run step s ls s'` is a finite sequence of such steps.  A
step relation that comes from an executable function is written
`fun s l s' => f s l = some s'`, and nothing here depends on the form.

The module holds the rules that the developments above it use:

* `Run.inv`, an invariant that every step keeps holds at the end of a run;
* `Run.mono`, a run stays a run when the relation grows, and
  `Run.mono_of_inv`, where the relation grows only under an invariant;
* `Run.append` and `Run.cons`, which join runs;
* `follow`, which computes the end of a run of an executable system, and
  `Run.of_follow`, which turns the computation into a run; `after` and
  `Run.of_after` do the same for a run whose end is only looked at.
-/

namespace Xv6.Lib

variable {σ ι : Type}

/-- `Run step s ls s'`: the labels `ls`, taken in order, lead from `s` to
`s'`.  The last step is the outermost constructor, so that an induction
on a run peels the step that reached the final state. -/
inductive Run (step : σ → ι → σ → Prop) (s : σ) : List ι → σ → Prop where
  | nil : Run step s [] s
  | snoc {ls : List ι} {l : ι} {t u : σ} (front : Run step s ls t) (last : step t l u) :
      Run step s (ls ++ [l]) u

namespace Run

variable {step step' : σ → ι → σ → Prop} {s t u : σ} {ls ls' : List ι} {l : ι}

/-- An invariant of the start that every step keeps holds at the end. -/
theorem inv {I : σ → Prop} (hrun : Run step s ls t) (hstart : I s)
    (hstep : ∀ t l u, I t → step t l u → I u) : I t := by
  induction hrun with
  | nil => exact hstart
  | snoc _ last ih => exact hstep _ _ _ ih last

/-- A larger relation has all the runs of a smaller one. -/
theorem mono (hrun : Run step s ls t)
    (h : ∀ t l u, step t l u → step' t l u) : Run step' s ls t := by
  induction hrun with
  | nil => exact .nil
  | snoc _ last ih => exact .snoc ih (h _ _ _ last)

/-- Under an invariant of the run, its steps are steps of another
relation. -/
theorem mono_of_inv {I : σ → Prop} (hrun : Run step s ls t) (hstart : I s)
    (h : ∀ t l u, I t → step t l u → step' t l u ∧ I u) : Run step' s ls t := by
  have hboth : Run step' s ls t ∧ I t := by
    induction hrun with
    | nil => exact ⟨.nil, hstart⟩
    | snoc _ last ih =>
      obtain ⟨hlast, hinv⟩ := h _ _ _ ih.2 last
      exact ⟨.snoc ih.1 hlast, hinv⟩
  exact hboth.1

theorem append (front : Run step s ls t) (back : Run step t ls' u) : Run step s (ls ++ ls') u := by
  induction back with
  | nil => simpa using front
  | snoc _ last ih =>
    rw [← List.append_assoc]
    exact .snoc ih last

theorem single (h : step s l t) : Run step s [l] t := by simpa using Run.snoc .nil h

theorem cons (h : step s l t) (back : Run step t ls u) : Run step s (l :: ls) u := by
  simpa using (single h).append back

/-- What all labels satisfy goes into the steps. -/
theorem of_labels {P : ι → Prop} (hrun : Run step s ls t) (h : ∀ l ∈ ls, P l) :
    Run (fun s l t => P l ∧ step s l t) s ls t := by
  induction hrun with
  | nil => exact .nil
  | snoc _ last ih =>
    simp only [List.mem_append, List.mem_singleton] at h
    exact .snoc (ih fun l hl => h l (.inl hl)) ⟨h _ (.inr rfl), last⟩

end Run

/-- Take the labels in order, and stop with `none` at the first one that
is not enabled. -/
def follow (f : σ → ι → Option σ) (s : σ) : List ι → Option σ
  | [] => some s
  | l :: ls => (f s l).bind fun t => follow f t ls

variable {f : σ → ι → Option σ}

/-- A computed run is a run. -/
theorem Run.of_follow {s t : σ} {ls : List ι} (h : follow f s ls = some t) :
    Run (fun s l s' => f s l = some s') s ls t := by
  induction ls generalizing s with
  | nil =>
    simp only [follow, Option.some.injEq] at h
    subst h
    exact .nil
  | cons l ls ih =>
    simp only [follow, Option.bind_eq_some_iff] at h
    obtain ⟨u, hu, hrest⟩ := h
    exact .cons hu (ih hrest)

/-- Where the labels lead; the state itself where one of them is not
enabled. -/
def after (f : σ → ι → Option σ) (s : σ) (ls : List ι) : σ := (follow f s ls).getD s

theorem Run.of_after {s : σ} {ls : List ι} (h : (follow f s ls).isSome = true) :
    Run (fun s l s' => f s l = some s') s ls (after f s ls) := by
  obtain ⟨t, ht⟩ := Option.isSome_iff_exists.1 h
  rw [after, ht]
  exact of_follow ht

theorem step_after {s : σ} {l : ι} (h : (f s l).isSome = true) : f s l = some (after f s [l]) := by
  obtain ⟨t, ht⟩ := Option.isSome_iff_exists.1 h
  simp [after, follow, ht]

end Xv6.Lib
