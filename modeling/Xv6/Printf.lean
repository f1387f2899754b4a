import Mathlib

/-!
# The numerals of the kernel's `printf`

`printint` of `kernel/printf.c` on every 64-bit value.  The digits go into a
buffer of 16 bytes, the last one first, and from there to the console.  A
store beyond the buffer hits the stack of `printint`, and the model stops
there.  `printf` passes on 64-bit values with `%ld` and `%lu`, and a decimal
numeral can have 20 digits.
-/

namespace Xv6.Printf

/-- The size of `buf`. -/
def bufSize : Nat := 16

/-- `digits`. -/
def digits : List Char :=
  ['0', '1', '2', '3', '4', '5', '6', '7', '8', '9', 'a', 'b', 'c', 'd', 'e', 'f']

/-- The bases that `printf` passes. -/
inductive Base where
  | ten
  | sixteen
  deriving DecidableEq, Repr

/-- The argument `base`. -/
def Base.val : Base → Nat
  | .ten => 10
  | .sixteen => 16

theorem Base.one_lt (base : Base) : 1 < base.val := by cases base <;> decide

theorem Base.val_le (base : Base) : base.val ≤ 16 := by cases base <;> decide

/-- `buf[i++] = c`, where `i` is the number of bytes in `buf` so far; `none`
for a store that is not in the buffer. -/
def put (buf : List Char) (c : Char) : Option (List Char) :=
  if buf.length < bufSize then some (buf ++ [c]) else none

/-- The digit loop. -/
def putDigits (base : Base) (x : Nat) (buf : List Char) : Option (List Char) :=
  (put buf (digits.getD (x % base.val) '0')).bind fun buf =>
    if x / base.val = 0 then some buf else putDigits base (x / base.val) buf
termination_by x
decreasing_by
  refine Nat.div_lt_self (Nat.pos_of_ne_zero ?_) base.one_lt
  rintro rfl
  simp_all

/-- `printint(xx, base, sign)`: what it sends to the console. -/
def printint (xx : BitVec 64) (base : Base) (sign : Bool) : Option (List Char) := do
  let neg := sign && xx.slt 0
  -- the minimum is its own negative, and the right one without a sign
  let x := if neg then -xx else xx
  let buf ← putDigits base x.toNat []
  let buf ← if neg then put buf '-' else some buf
  return buf.reverse

/-- The numeral of a 64-bit value, as a signed or as an unsigned number. -/
def numeral (xx : BitVec 64) (base : Base) (sign : Bool) : List Char :=
  if sign && xx.slt 0 then
    '-' :: Nat.toDigits base.val xx.toInt.natAbs
  else
    Nat.toDigits base.val xx.toNat

variable {base : Base}

theorem digits_getD {d : Nat} (h : d < 16) : digits.getD d '0' = d.digitChar := by
  have hall : ∀ d < 16, digits.getD d '0' = d.digitChar := by decide
  exact hall d h

theorem put_eq (buf : List Char) (c : Char) :
    put buf c = if (buf ++ [c]).length ≤ bufSize then some (buf ++ [c]) else none := by
  rw [put, List.length_append, List.length_singleton]
  rfl

/-- The loop stores the digits from the last to the first. -/
theorem putDigits_eq (x : Nat) (buf : List Char) : putDigits base x buf =
      if (buf ++ (Nat.toDigits base.val x).reverse).length ≤ bufSize then
        some (buf ++ (Nat.toDigits base.val x).reverse) else none := by
  induction x using Nat.strong_induction_on generalizing buf with
  | h x ih =>
    have hone := base.one_lt
    have hle := base.val_le
    have hmod := Nat.mod_lt x (Nat.zero_lt_of_lt hone)
    rw [putDigits, digits_getD (by omega), put_eq]
    by_cases hx : x < base.val
    · rw [Nat.toDigits_of_lt_base hx, Nat.mod_eq_of_lt hx, List.reverse_singleton]
      split
      · rw [Option.bind_some, if_pos (Nat.div_eq_of_lt hx)]
      · rfl
    -- one digit in this round, and the others by induction
    rw [Nat.toDigits_of_base_le hone (by omega), List.reverse_append, List.reverse_singleton,
      ← List.append_assoc]
    have hdiv : x / base.val ≠ 0 := fun h =>
      hx ((Nat.div_eq_zero_iff_lt (Nat.zero_lt_of_lt hone)).1 h)
    simp only [if_neg hdiv]
    by_cases hroom : (buf ++ [(x % base.val).digitChar]).length ≤ bufSize
    · rw [if_pos hroom, Option.bind_some, ih _ (Nat.div_lt_self (by omega) hone)]
    rw [if_neg hroom, List.length_append, if_neg (by omega)]
    rfl

/-- The two's complement of a negative number is its absolute value, also for
the minimum. -/
theorem toNat_neg_of_slt {w : Nat} {xx : BitVec w} (h : xx.slt 0 = true) :
    (-xx).toNat = xx.toInt.natAbs := by
  have hzero : (0 : BitVec w).toInt = 0 := BitVec.toInt_zero
  rw [BitVec.slt_iff_toInt_lt, hzero] at h
  have hlt := xx.isLt
  have hint := BitVec.toInt_eq_toNat_cond xx
  rw [BitVec.toNat_neg]
  split at hint
  · omega
  rw [Nat.mod_eq_of_lt (by omega)]
  omega

theorem printint_eq (xx : BitVec 64) (sign : Bool) : printint xx base sign =
      if (numeral xx base sign).length ≤ bufSize then some (numeral xx base sign) else none := by
  simp only [printint, numeral, putDigits_eq, List.nil_append, List.length_reverse]
  by_cases hneg : (sign && xx.slt 0) = true
  · simp only [if_pos hneg, toNat_neg_of_slt (Bool.and_eq_true_iff.1 hneg).2, List.length_cons]
    split
    · simp only [put_eq, List.length_append, List.length_reverse, List.length_singleton,
        Option.bind_eq_bind, Option.bind_some]
      split <;> simp
    rename_i hfull
    rw [if_neg (by omega)]
    rfl
  · simp only [if_neg hneg]
    split <;> simp

/-- `printint` stays inside its buffer and prints the numeral exactly when
the numeral, with its sign, has at most 16 characters. -/
theorem printint_prints_iff (xx : BitVec 64) (base : Base) (sign : Bool) :
    printint xx base sign = some (numeral xx base sign) ↔
      (numeral xx base sign).length ≤ bufSize := by
  rw [printint_eq]
  split
  · simp_all
  · simp_all

/-- The largest value of `%lu` has 20 digits. -/
theorem printint_overruns : printint (-1) .ten false = none := by
  rw [printint_eq]
  decide

end Xv6.Printf
