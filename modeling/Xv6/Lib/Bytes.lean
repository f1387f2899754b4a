import Mathlib

/-!
# Byte buffers and little-endian fields

A `Buf n` is a buffer of `n` bytes.  A C program reaches into such a buffer
in two ways: `memmove` copies a run of bytes in or out, and a cast to a
struct pointer reads or writes one field at a fixed offset.  `read` and
`write` are the first, the `get` and `put` functions the second, and every
lemma about a field is one about a run of bytes.

Offsets are natural numbers.  Reading past the end gives zero bytes and
writing past it changes nothing, so that the functions are total; the
lemmas ask for the bound where the answer depends on it.
-/

namespace Xv6.Lib

variable {n i off off' w j : Nat} {bytes : List UInt8}

/-! ## Runs of bytes -/

/-- A buffer of `n` bytes. -/
abbrev Buf (n : Nat) := Fin n → UInt8

variable (b : Buf n)

namespace Buf

/-- The byte at an offset. -/
def get (b : Buf n) (i : Nat) : UInt8 :=
  if h : i < n then b ⟨i, h⟩ else 0

/-- `len` bytes from the offset `off` on. -/
def read (b : Buf n) (off len : Nat) : List UInt8 :=
  (List.range len).map fun i => b.get (off + i)

/-- Store `bytes` from the offset `off` on. -/
def write (b : Buf n) (off : Nat) (bytes : List UInt8) : Buf n := fun i =>
  if off ≤ i.val ∧ i.val < off + bytes.length then
    bytes.getD (i.val - off) 0
  else
    b i

theorem ext_get {b c : Buf n} (h : ∀ i < n, b.get i = c.get i) : b = c := by
  funext i
  have hi := h i.val i.isLt
  simpa [get] using hi

theorem get_write (off : Nat) (bytes : List UInt8) (hi : i < n) : (b.write off bytes).get i =
      if off ≤ i ∧ i < off + bytes.length then bytes.getD (i - off) 0 else b.get i := by
  simp [get, write, hi]

/-- A store leaves the bytes outside its range alone. -/
theorem get_write_of_outside (hi : i < off ∨ off + bytes.length ≤ i) :
    (b.write off bytes).get i = b.get i := by
  by_cases hn : i < n
  · rw [get_write b off bytes hn, if_neg]
    omega
  · simp [get, hn]

@[simp] theorem read_length (off len : Nat) : (b.read off len).length = len := by
  simp [read]

theorem read_congr {b c : Buf n} {len : Nat} (h : ∀ i < len, b.get (off + i) = c.get (off + i)) :
    b.read off len = c.read off len := by
  unfold read
  apply List.map_congr_left
  intro i hi
  exact h i (List.mem_range.1 hi)

/-- What was stored in a range that fits is read back from it. -/
theorem read_write_same (h : off + bytes.length ≤ n) :
    (b.write off bytes).read off bytes.length = bytes := by
  apply List.ext_getElem (by simp)
  intro i hi hi'
  have hin : off + i < n := by omega
  simp only [read, List.getElem_map, List.getElem_range, get_write b off bytes hin]
  rw [if_pos (by omega)]
  simp [hi']

/-- A store does not change a range that it does not meet. -/
theorem read_write_of_disjoint {len : Nat} (h : off + len ≤ off' ∨ off' + bytes.length ≤ off) :
    (b.write off' bytes).read off len = b.read off len := by
  apply read_congr
  intro i hi
  apply get_write_of_outside
  omega

end Buf

/-! ## Little-endian numbers -/

/-- The low `w` bytes of a number, least significant byte first. -/
def encodeLE : Nat → Nat → List UInt8
  | 0, _ => []
  | w + 1, v => UInt8.ofNat v :: encodeLE w (v / 256)

/-- The number that a list of bytes holds, least significant byte first. -/
def decodeLE : List UInt8 → Nat
  | [] => 0
  | x :: xs => x.toNat + 256 * decodeLE xs

@[simp] theorem encodeLE_length (w v : Nat) : (encodeLE w v).length = w := by
  induction w generalizing v with
  | zero => rfl
  | succ w ih => simp [encodeLE, ih]

/-- Encoding keeps exactly the low bytes. -/
@[simp] theorem decodeLE_encodeLE (w v : Nat) : decodeLE (encodeLE w v) = v % 256 ^ w := by
  induction w generalizing v with
  | zero => simp [encodeLE, decodeLE, Nat.mod_one]
  | succ w ih =>
    have hbyte : (UInt8.ofNat v).toNat = v % 256 := by simp
    rw [encodeLE, decodeLE, ih, hbyte, Nat.pow_succ, Nat.mul_comm (256 ^ w), Nat.mod_mul]

/-! ## Struct fields -/

namespace Buf

/-- The `w`-byte number at an offset. -/
def getLE (b : Buf n) (off w : Nat) : Nat :=
  decodeLE (b.read off w)

/-- Store a number in the `w` bytes at an offset. -/
def putLE (b : Buf n) (off w v : Nat) : Buf n :=
  b.write off (encodeLE w v)

theorem getLE_putLE_same (v : Nat) (h : off + w ≤ n) :
    (b.putLE off w v).getLE off w = v % 256 ^ w := by
  have hread : (b.write off (encodeLE w v)).read off (encodeLE w v).length =
      encodeLE w v := read_write_same b (by simpa using h)
  rw [encodeLE_length] at hread
  rw [getLE, putLE, hread, decodeLE_encodeLE]

theorem getLE_putLE_of_disjoint {w' : Nat} (v : Nat) (h : off + w ≤ off' ∨ off' + w' ≤ off) :
    (b.putLE off' w' v).getLE off w = b.getLE off w := by
  rw [getLE, putLE, read_write_of_disjoint b (by simpa using h), getLE]

/-- Store numbers in consecutive `w`-byte fields from an offset on. -/
def putArray (b : Buf n) (off w : Nat) : List Nat → Buf n
  | [] => b
  | v :: vs => putArray (b.putLE off w v) (off + w) w vs

/-- Storing an array leaves the fields outside it alone. -/
theorem getLE_putArray_of_disjoint {w' : Nat}
    (vs : List Nat) (h : off' + w' ≤ off ∨ off + w * vs.length ≤ off') :
    (b.putArray off w vs).getLE off' w' = b.getLE off' w' := by
  induction vs generalizing b off with
  | nil => rfl
  | cons v vs ih =>
    rw [List.length_cons, Nat.mul_succ] at h
    rw [putArray, ih _ (by omega), getLE_putLE_of_disjoint _ _ (by omega)]

/-- The elements of an array that fits are read back. -/
theorem getLE_putArray (vs : List Nat)
    (hfit : off + w * vs.length ≤ n) {k : Nat} (hk : k < vs.length) :
    (b.putArray off w vs).getLE (off + w * k) w = vs[k] % 256 ^ w := by
  induction vs generalizing b off k with
  | nil => simp at hk
  | cons v vs ih =>
    rw [List.length_cons, Nat.mul_succ] at hfit
    rw [putArray]
    cases k with
    | zero =>
      rw [getLE_putArray_of_disjoint _ _ (by omega)]
      exact getLE_putLE_same b v (by omega)
    | succ k =>
      have hoff : off + w * (k + 1) = off + w + w * k := by
        rw [Nat.mul_succ]
        omega
      rw [hoff, ih _ (by omega) (by simpa using hk), List.getElem_cons_succ]

end Buf

/-! ## Bits -/

namespace Buf

/-- The bit number `i` of a buffer. -/
def bit (b : Buf n) (i : Nat) : Bool := (b.get (i / 8)).toNat.testBit (i % 8)

/-- Set a bit. -/
def markBit (b : Buf n) (i : Nat) : Buf n :=
  b.write (i / 8) [UInt8.ofNat ((b.get (i / 8)).toNat ||| 2 ^ (i % 8))]

/-- Clear a bit. -/
def clearBit (b : Buf n) (i : Nat) : Buf n :=
  b.write (i / 8) [UInt8.ofNat ((b.get (i / 8)).toNat &&& (255 ^^^ 2 ^ (i % 8)))]

/-- Replacing the byte of a bit. -/
theorem bit_write_byte (v : Nat) (hj : j < 8 * n) : (b.write (i / 8) [UInt8.ofNat v]).bit j =
      if j / 8 = i / 8 then v.testBit (j % 8) else b.bit j := by
  have hlt : j / 8 < n := by omega
  unfold bit
  rw [get_write _ _ _ hlt, List.length_singleton]
  by_cases hbyte : j / 8 = i / 8
  · rw [if_pos (by omega), if_pos hbyte, hbyte, Nat.sub_self]
    have hpow : (8 : Nat) > j % 8 := Nat.mod_lt _ (by omega)
    simp only [List.getD_cons_zero, UInt8.toNat_ofNat', Nat.testBit_mod_two_pow]
    simp [hpow]
  · rw [if_neg (by omega), if_neg hbyte]

theorem bit_markBit (hj : j < 8 * n) : (b.markBit i).bit j = if j = i then true else b.bit j := by
  unfold markBit
  rw [bit_write_byte b _ hj]
  by_cases hbyte : j / 8 = i / 8
  · rw [if_pos hbyte, Nat.testBit_or, Nat.testBit_two_pow]
    by_cases hij : j = i
    · simp [hij]
    have hbit : i % 8 ≠ j % 8 := by omega
    simp [hij, hbit, bit, hbyte]
  · have hij : j ≠ i := by
      rintro rfl
      exact hbyte rfl
    rw [if_neg hbyte, if_neg hij]

theorem bit_clearBit (hj : j < 8 * n) :
    (b.clearBit i).bit j = if j = i then false else b.bit j := by
  have hall : ∀ k < 8, (255 : Nat).testBit k = true := by decide
  unfold clearBit
  rw [bit_write_byte b _ hj]
  by_cases hbyte : j / 8 = i / 8
  · rw [if_pos hbyte, Nat.testBit_and, Nat.testBit_xor, Nat.testBit_two_pow,
      hall _ (Nat.mod_lt _ (by omega))]
    by_cases hij : j = i
    · simp [hij]
    have hbit : i % 8 ≠ j % 8 := by omega
    simp [hij, hbit, bit, hbyte]
  · have hij : j ≠ i := by
      rintro rfl
      exact hbyte rfl
    rw [if_neg hbyte, if_neg hij]

end Buf

end Xv6.Lib
