import Xv6.Printf

/-!
# `vprintf` of the user library

The loop of `user/printf.c` over every format and every list of arguments.  A
format is its characters up to the NUL, and an argument is a 64-bit word.  All
numbers go through one `printint`, whose parameter is an `int`: `%ld`, `%lu`
and `%lx` take a word and print its low half.
-/

namespace Xv6.Vprintf

open Nat (toDigits)
open Printf (Base put)

/-- `digits[d]`: the digits of the kernel as capital letters. -/
def digit (d : Nat) : Char := (Printf.digits.getD d '0').toUpper

/-- `printint(fd, xx, base, sgn)`: what it writes. -/
def printint (xx : BitVec 32) (base : Base) (sgn : Bool) : Option (List Char) := do
  let neg := sgn && xx.slt 0
  let x := if neg then -xx else xx
  -- the loop of the kernel's `printint`, with the other digits
  let buf ← (Printf.putDigits base x.toNat []).map (List.map Char.toUpper)
  let buf ← if neg then put buf '-' else some buf
  return buf.reverse

/-- `printptr(fd, x)`: what it writes. -/
def printptr (x : BitVec 64) : List Char :=
  '0' :: 'x' :: (List.range 16).map fun i => digit (x <<< (4 * i) >>> 60).toNat

/-- The words from `ap` on, and the strings at addresses. -/
structure Args where
  word : Nat → BitVec 64
  string : BitVec 64 → List Char

/-- The loop between two rounds: the format from `i` on, whether `state` is
`'%'`, the number of arguments taken, and the output. -/
structure State where
  fmt : List Char
  percent : Bool
  taken : Nat
  out : List Char

/-- The branches after a `%`, with the next argument `w`: what is added to `i`,
the arguments taken and the output. -/
def convert (string : BitVec 64 → List Char) (w : BitVec 64) (c0 c1 c2 : Char) :
    Option (Nat × Nat × List Char) :=
  -- an `int` and a `uint64` alike become the `int` of `printint`
  let int i base sgn := (printint (w.setWidth 32) base sgn).map fun text => (i, 1, text)
  if c0 = 'd' then int 0 .ten true
  else if c0 = 'l' ∧ c1 = 'd' then int 1 .ten true
  else if c0 = 'l' ∧ c1 = 'l' ∧ c2 = 'd' then int 2 .ten true
  else if c0 = 'u' then int 0 .ten false
  else if c0 = 'l' ∧ c1 = 'u' then int 1 .ten false
  else if c0 = 'l' ∧ c1 = 'l' ∧ c2 = 'u' then int 2 .ten false
  else if c0 = 'x' then int 0 .sixteen false
  else if c0 = 'l' ∧ c1 = 'x' then int 1 .sixteen false
  else if c0 = 'l' ∧ c1 = 'l' ∧ c2 = 'x' then int 2 .sixteen false
  else if c0 = 'p' then some (0, 1, printptr w)
  else if c0 = 's' then
    some (0, 1, if w = 0 then ['(', 'n', 'u', 'l', 'l', ')'] else string w)
  else if c0 = '%' then some (0, 0, ['%'])
  else some (0, 0, ['%', c0])

/-- A round of the loop. -/
def step (a : Args) (s : State) : Option State :=
  match s.fmt with
  | [] => none
  | c0 :: rest =>
    if s.percent then
      (convert a.string (a.word s.taken) c0 (rest.getD 0 '\x00') (rest.getD 1 '\x00')).map
        fun (i, n, text) => ⟨rest.drop i, false, s.taken + n, s.out ++ text⟩
    else if c0 = '%' then some { s with fmt := rest, percent := true }
    else some { s with fmt := rest, out := s.out ++ [c0] }

/-- `vprintf(fd, fmt, ap)` gets to a state. -/
def Reaches (a : Args) (fmt : List Char) : State → Prop :=
  Relation.ReflTransGen (fun s t => step a s = some t) ⟨fmt, false, 0, []⟩

/-! ## What is to be printed -/

/-- The numeral of a number. -/
def numeral (base : Base) (n : Int) : List Char :=
  (if n < 0 then ['-'] else []) ++ (toDigits base.val n.natAbs).map Char.toUpper

/-- The number that digits say. -/
def readDigits (base : Base) (text : List Char) : Nat :=
  text.foldl (fun n c => n * base.val + Printf.digits.idxOf c.toLower) 0

/-- The number that a numeral says. -/
def read (base : Base) (text : List Char) : Int :=
  if text.head? = some '-' then -readDigits base text.tail else readDigits base text

/-- A conversion: a number of 64 or of 32 bits, a pointer or a string. -/
inductive Conv where
  | int (wide : Bool) (base : Base) (sgn : Bool)
  | ptr
  | str

/-- The conversion after a `%`. -/
def conversion : List Char → Option Conv
  | 'd' :: _ => some (.int false .ten true)
  | 'l' :: 'd' :: _ | 'l' :: 'l' :: 'd' :: _ => some (.int true .ten true)
  | 'u' :: _ => some (.int false .ten false)
  | 'l' :: 'u' :: _ | 'l' :: 'l' :: 'u' :: _ => some (.int true .ten false)
  | 'x' :: _ => some (.int false .sixteen false)
  | 'l' :: 'x' :: _ | 'l' :: 'l' :: 'x' :: _ => some (.int true .sixteen false)
  | 'p' :: _ => some .ptr
  | 's' :: _ => some .str
  | _ => none

/-- The number that an argument is. -/
def value : Bool → Bool → BitVec 64 → Int
  | true, true, w => w.toInt
  | true, false, w => w.toNat
  | false, true, w => (w.setWidth 32).toInt
  | false, false, w => (w.setWidth 32).toNat

/-- The text is the numeral of the argument, and says the argument. -/
def Conv.Prints : Conv → BitVec 64 → List Char → Prop
  | .int wide base sgn, w, text =>
    text = numeral base (value wide sgn w) ∧ read base text = value wide sgn w
  | _, _, _ => True

/-- An argument of 64 bits is the number that its low 32 bits are. -/
def Conv.Fits : Conv → BitVec 64 → Prop
  | .int wide _ sgn, w => value wide sgn w = value false sgn w
  | _, _ => True

/-! ## What is printed -/

variable {base : Base} {a : Args} {s : State}

/-- The buffer has room for 32 bits. -/
theorem printint_eq (xx : BitVec 32) (sgn : Bool) :
    printint xx base sgn = some (numeral base (if sgn then xx.toInt else xx.toNat)) := by
  have hlen (x : BitVec 32) : (toDigits base.val x.toNat).length ≤ 10 := by
    refine (Nat.length_toDigits_le_iff base.one_lt (by decide)).2 (x.isLt.trans ?_)
    cases base <;> decide
  have hput (x : BitVec 32) : Printf.putDigits base x.toNat [] =
      some (toDigits base.val x.toNat).reverse := by
    rw [Printf.putDigits_eq, if_pos]
    · rfl
    · rw [List.nil_append, List.length_reverse]
      exact (hlen x).trans (by decide)
  have hslt : xx.slt 0 = true ↔ xx.toInt < 0 := BitVec.slt_iff_toInt_lt
  rw [printint]
  by_cases hneg : (sgn && xx.slt 0) = true
  · obtain ⟨rfl, hneg'⟩ := Bool.and_eq_true_iff.1 hneg
    rw [if_pos rfl, numeral, if_pos (hslt.1 hneg'), ← Printf.toNat_neg_of_slt hneg']
    simp only [if_pos hneg, hput]
    rw [Option.map_some, Option.bind_eq_bind, Option.bind_some, put, if_pos]
    · simp
    · rw [List.length_map, List.length_reverse]
      exact (hlen _).trans_lt (by decide)
  have hint := BitVec.toInt_eq_toNat_cond xx
  have hval : (if sgn then xx.toInt else xx.toNat) = (xx.toNat : Int) := by
    cases sgn with
    | false => rfl
    | true =>
      rw [Bool.true_and, hslt] at hneg
      split at hint <;> omega
  simp only [if_neg hneg, hput, hval]
  simp [numeral]

theorem readDigits_toDigits (base : Base) (n : Nat) :
    readDigits base ((toDigits base.val n).map Char.toUpper) = n ∧
      '-' ∉ (toDigits base.val n).map Char.toUpper := by
  have hall : ∀ d < 16, Printf.digits.idxOf d.digitChar.toUpper.toLower = d ∧
      '-' ≠ d.digitChar.toUpper := by decide
  induction n using Nat.strong_induction_on with
  | h n ih =>
    have hle := base.val_le
    by_cases hn : n < base.val
    · rw [Nat.toDigits_of_lt_base hn]
      simpa [readDigits] using hall n (by omega)
    have hone := base.one_lt
    have hmod := hall _ ((Nat.mod_lt n (Nat.zero_lt_of_lt hone)).trans_le hle)
    obtain ⟨hread, hno⟩ := ih (n / base.val) (Nat.div_lt_self (by omega) hone)
    rw [readDigits] at hread
    rw [Nat.toDigits_of_base_le hone (by omega), List.map_append, readDigits, List.foldl_append,
      hread, List.mem_append, not_or]
    refine ⟨?_, hno, by simpa using hmod.2⟩
    rw [List.map_singleton, List.foldl_cons, List.foldl_nil, hmod.1]
    exact Nat.div_add_mod' n base.val

/-- Reading a numeral back gives the number. -/
theorem read_numeral (n : Int) : read base (numeral base n) = n := by
  obtain ⟨hread, hno⟩ := readDigits_toDigits base n.natAbs
  rw [read, numeral]
  split
  · rw [List.singleton_append, if_pos List.head?_cons, List.tail_cons, hread]
    omega
  · rw [List.nil_append, if_neg fun h => hno (List.mem_of_head? h), hread]
    omega

/-- A conversion takes one argument, and a number is printed as its low 32 bits. -/
theorem step_conversion {c : Conv} (hs : s.percent = true) (hc : conversion s.fmt = some c) :
    ∃ t text, step a s = some t ∧ t.taken = s.taken + 1 ∧ t.out = s.out ++ text ∧
      ∀ wide base sgn, c = .int wide base sgn →
        text = numeral base (value false sgn (a.word s.taken)) := by
  obtain ⟨fmt, percent, taken, out⟩ := s
  cases hs
  dsimp only at hc
  unfold conversion at hc
  split at hc <;> cases hc <;> simp [step, convert, printint_eq, value]

end Xv6.Vprintf
