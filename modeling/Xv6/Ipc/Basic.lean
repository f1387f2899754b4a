import Xv6.Lib.Bytes
import Xv6.Pipe.Model

/-!
# The parts that the IPC programs share

`calc` is the same function in `proj2/user/pipe_ipc.c`,
`proj2/user/test_pipe_rt.c` and `proj4/user/shmtest.c`.  An `int` has 32 bits
and wraps around, as the compiled code does.

A program sees a pipe as a stream of bytes, which `Xv6.Pipe.Fifo` shows the
ring to be.  A `write` puts in what fits and waits with the rest; other
processes may write in between.  A `read` takes what is there, up to the number
asked for.
-/

namespace Xv6.Ipc

open Lib Function

/-- `calc`: the return value, and what `*result` holds afterwards if it held
`result` before.  Where it returns `-1` it stores nothing. -/
def calcOp (x y : Int32) (op : UInt8) (result : Int32) : Int32 × Int32 :=
  if op = '+'.toUInt8 then (0, x + y)
  else if op = '-'.toUInt8 then (0, x - y)
  else if op = '*'.toUInt8 then (0, x * y)
  else if op = '/'.toUInt8 then
    if y = 0 then (-1, result) else (0, x / y)
  else (-1, result)

/-- `error` is what `calc` returns, and `result` is what it computes if it
computes anything. -/
def Answer (x y : Int32) (op : UInt8) (result error : Int32) : Prop :=
  error = (calcOp x y op 0).1 ∧ (error = 0 → result = (calcOp x y op 0).2)

instance (x y : Int32) (op : UInt8) (result error : Int32) :
    Decidable (Answer x y op result error) :=
  inferInstanceAs (Decidable (_ ∧ _))

/-- What was in `*result` before does not matter. -/
theorem answer_calcOp (x y : Int32) (op : UInt8) (result : Int32) :
    Answer x y op (calcOp x y op result).2 (calcOp x y op result).1 := by
  unfold Answer calcOp
  split_ifs
  all_goals first
    | exact ⟨rfl, fun _ => rfl⟩
    | exact ⟨rfl, fun h => absurd (show (-1 : Int32) = 0 from h) (by decide)⟩

/-! ## Streams -/

/-- One turn of a `write` of `bytes`: the stream, and the bytes that are
left. -/
def push (stream bytes : List UInt8) : List UInt8 × List UInt8 :=
  (stream ++ bytes.take (PIPESIZE - stream.length), bytes.drop (PIPESIZE - stream.length))

/-- A `write` of what fits takes one turn. -/
theorem push_of_le {stream bytes : List UInt8} (h : stream.length + bytes.length ≤ PIPESIZE) :
    push stream bytes = (stream ++ bytes, []) := by
  rw [push, List.take_of_length_le (by omega), List.drop_of_length_le (by omega)]

/-! ## Clients by number -/

section Clients

variable {ι L : Type} [DecidableEq ι] {Quiet : L → Prop} {c c' : ι → L} {i j : ι} {l l' : L}

/-- Client `i` is at `l`, and all others are quiet. -/
structure OnTurn (Quiet : L → Prop) (c : ι → L) (i : ι) (l : L) : Prop where
  client : c i = l
  others : ∀ j ≠ i, Quiet (c j)

theorem OnTurn.of_quiet (h : ∀ j, Quiet (c j)) : OnTurn Quiet (update c i l) i l where
  client := update_self _ _ _
  others j hj := by
    rw [update_of_ne hj]
    exact h j

/-- The client whose turn it is goes on. -/
theorem OnTurn.update (h : OnTurn Quiet c i l) : OnTurn Quiet (update c i l') i l' where
  client := update_self _ _ _
  others j hj := by
    rw [update_of_ne hj]
    exact h.others j hj

/-- The client whose turn it is comes to rest. -/
theorem OnTurn.quiet_update (h : OnTurn Quiet c i l) (hl : Quiet l') (j : ι) :
    Quiet (Function.update c i l' j) := by
  by_cases hji : j = i
  · rwa [hji, update_self]
  · rw [update_of_ne hji]
    exact h.others j hji

/-- A quiet client cannot go on while it is not alone. -/
theorem OnTurn.client_eq (h : OnTurn Quiet c i l) (hl : ¬ Quiet l)
    (hj : Quiet (c j) → ∀ k ≠ j, Quiet (c k)) : j = i := by
  by_contra hji
  have hi := hj (h.others j hji) i (Ne.symm hji)
  rw [h.client] at hi
  exact hl hi

/-- Client `j` has gone to a place that is right for it. -/
def Moved (own : L → Prop) (c c' : ι → L) (j : ι) : Prop :=
  (∀ k ≠ j, c' k = c k) ∧ own (c' j)

theorem moved_update {own : L → Prop} (h : own l) : Moved own c (update c j l) j :=
  ⟨fun _ hk => update_of_ne hk _ _, by rwa [update_self]⟩

theorem Moved.all {own : ι → L → Prop} (h : Moved (own j) c c' j) (hall : ∀ i, own i (c i))
    (i : ι) : own i (c' i) := by
  by_cases hij : i = j
  · rw [hij]
    exact h.2
  · rw [h.1 i hij]
    exact hall i

end Clients

/-! ## Integers in a buffer -/

/-- The `int` at an offset. -/
def getInt {n : Nat} (b : Buf n) (off : Nat) : Int32 := (UInt32.ofNat (b.getLE off 4)).toInt32

/-- Store an `int` at an offset. -/
def putInt {n : Nat} (b : Buf n) (off : Nat) (v : Int32) : Buf n :=
  b.putLE off 4 v.toUInt32.toNat

theorem getInt_putInt_same {n : Nat} (b : Buf n) {off : Nat} (v : Int32) (h : off + 4 ≤ n) :
    getInt (putInt b off v) off = v := by
  rw [getInt, putInt, Buf.getLE_putLE_same _ _ h]
  have hlt : v.toUInt32.toNat < 256 ^ 4 := v.toUInt32.toNat_lt
  rw [Nat.mod_eq_of_lt hlt, UInt32.ofNat_toNat]
  rfl

theorem getInt_putInt_of_disjoint {n : Nat} (b : Buf n) {off off' : Nat} (v : Int32)
    (h : off + 4 ≤ off' ∨ off' + 4 ≤ off) : getInt (putInt b off' v) off = getInt b off := by
  rw [getInt, putInt, Buf.getLE_putLE_of_disjoint _ _ h, getInt]

end Xv6.Ipc
