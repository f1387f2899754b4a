import Mathlib

/-!
# Postconditions of computations that may fail

`Safe bad x Q` says that the computation `x` does not fail with an error of
the kind `bad`, and that a result, if there is one, satisfies `Q`.  Other
errors end the computation and are allowed.  The rules follow the structure
of a `do` block, so that a proof about it cites one specification for each
call that it makes.
-/

namespace Xv6.Lib

variable {ε α β : Type} {bad : ε → Prop}

/-- `x` fails with no bad error, and its result satisfies `Q`. -/
structure Safe (bad : ε → Prop) (x : Except ε α) (Q : α → Prop) : Prop where
  of_ok {a : α} : x = .ok a → Q a
  not_bad {e : ε} : x = .error e → ¬ bad e

namespace Safe

variable {x : Except ε α} {f : α → Except ε β} {P Q : α → Prop} {R : β → Prop}

theorem ok {a : α} (h : Q a) : Safe bad (.ok a) Q := by
  constructor
  · intro b hb
    rwa [← Except.ok.inj hb]
  · intro e he
    cases he

theorem pure {a : α} (h : Q a) : Safe bad (Pure.pure a) Q := ok h

theorem error {e : ε} (h : ¬ bad e) : Safe bad (.error e : Except ε α) Q := by
  constructor
  · intro b hb
    cases hb
  · intro e' he'
    rwa [← Except.error.inj he']

/-- The rule for a sequence of two computations. -/
theorem bind (hx : Safe bad x P) (hf : ∀ a, P a → Safe bad (f a) R) : Safe bad (x >>= f) R := by
  cases x with
  | error e => exact error (hx.not_bad rfl)
  | ok a => exact hf a (hx.of_ok rfl)

theorem mono (hx : Safe bad x P) (h : ∀ a, P a → Q a) : Safe bad x Q where
  of_ok ha := h _ (hx.of_ok ha)
  not_bad he := hx.not_bad he

/-- Every computation, as far as its result goes. -/
theorem unknown (x : Except ε α) : Safe (fun _ => False) x fun _ => True :=
  ⟨fun _ => trivial, fun _ => id⟩

end Safe

end Xv6.Lib
