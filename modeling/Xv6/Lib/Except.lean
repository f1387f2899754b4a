import Mathlib

/-!
# Successful computations that may fail

Inversion of a `do` block in `Except`: it succeeds exactly when each of
its parts does.  The lemmas let a proof take a fallible function apart
with `obtain`, one call at a time, without unfolding the monad.

`Ends E x Q` says both what comes out of `x` and why it may fail; its rules
follow the program's text.
-/

namespace Xv6.Lib

variable {ε α β : Type}

/-- A bind succeeds exactly when both halves do. -/
@[simp] theorem bind_eq_ok {x : Except ε α} {f : α → Except ε β} {b : β} :
    (x >>= f) = .ok b ↔ ∃ a, x = .ok a ∧ f a = .ok b := by
  cases x with
  | error | ok => simp [bind, Except.bind]

@[simp] theorem pure_eq_ok {a b : α} : (pure a : Except ε α) = .ok b ↔ a = b := by
  simp [pure, Except.pure]

@[simp] theorem map_eq_ok {x : Except ε α} {f : α → β} {b : β} :
    f <$> x = .ok b ↔ ∃ a, x = .ok a ∧ f a = b := by
  cases x with
  | error | ok => simp [Functor.map, Except.map]

/-- Errors forgotten: what is left was a success. -/
theorem toOption_eq_some {x : Except ε α} {a : α} (h : x.toOption = some a) : x = .ok a := by
  cases x with
  | error e => cases h
  | ok b => rw [Option.some.inj h]

theorem eq_ok_of_toOption {x : Option (Except ε α)} {a : α}
    (h : x.bind Except.toOption = some a) : x = some (.ok a) := by
  obtain ⟨y, hy, ha⟩ := Option.bind_eq_some_iff.1 h
  rw [hy, toOption_eq_some ha]

/-- The computation `x` has a result that satisfies `Q`, or `E` is the reason
why it has none. -/
inductive Ends (E : Prop) (x : Except ε α) (Q : α → Prop) : Prop
  | ok {a : α} (h : x = .ok a) (hq : Q a)
  | error {e : ε} (h : x = .error e) (he : E)

namespace Ends

variable {E E' : Prop} {x : Except ε α} {f : α → Except ε β} {Q Q' : α → Prop} {R : β → Prop}

theorem mono (h : Ends E x Q) (hE : E → E') (hQ : ∀ a, Q a → Q' a) : Ends E' x Q' := by
  cases h with
  | ok h hq => exact .ok h (hQ _ hq)
  | error h he => exact .error h (hE he)

/-- The rule for a sequence of two computations. -/
theorem bind (h : Ends E x Q) (hf : ∀ a, Q a → Ends E (f a) R) : Ends E (x >>= f) R := by
  cases h with
  | ok h hq =>
    rw [h]
    exact hf _ hq
  | error h he =>
    rw [h]
    exact .error rfl he

theorem of_ok (h : Ends E x Q) {a : α} (hx : x = .ok a) : Q a := by
  cases h with
  | ok h hq =>
    rw [h] at hx
    cases hx
    exact hq
  | error h he =>
    rw [h] at hx
    cases hx

theorem exists_ok (h : Ends E x Q) (hE : ¬ E) : ∃ a, x = .ok a ∧ Q a := by
  cases h with
  | ok h hq => exact ⟨_, h, hq⟩
  | error h he => exact absurd he hE

end Ends

end Xv6.Lib
