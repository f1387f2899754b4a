import Xv6.Lib.Ring
import Xv6.Sched.Path

/-!
# The console

The input half of `kernel/console.c`: `consoleintr`, which edits the line
that is being typed, and the code of `consoleread`.  What the driver prints
is left out.
-/

namespace Xv6.Console

open Lib Sched

/-- `INPUT_BUF_SIZE` -/
def INPUT_BUF_SIZE : Nat := 128

instance : NeZero INPUT_BUF_SIZE := ⟨by decide⟩

/-- `cons` without its lock: the indices of the next byte to read, of the end
of the last whole line, and of the end of what is being typed. -/
structure Cons where
  buf : Fin INPUT_BUF_SIZE → UInt8
  r : UInt32
  w : UInt32
  e : UInt32

/-- `C(x)`, the byte that control and the key `x` send. -/
def C (x : UInt8) : UInt8 := x - 64

/-- The byte of a newline. -/
def newline : UInt8 := 10

/-- The loop that erases a line, for at most `n` bytes. -/
def eraseLine : Nat → Cons → Cons
  | 0, cons => cons
  | n + 1, cons =>
    if cons.e ≠ cons.w ∧ cons.buf (Ring.slot (cons.e - 1)) ≠ newline then
      eraseLine n { cons with e := cons.e - 1 }
    else
      cons

/-- `consoleintr`. -/
def consoleintr (c : UInt8) (cons : Cons) : Cons :=
  if c = C 80 then
    cons
  else if c = C 85 then
    eraseLine (cons.e - cons.w).toNat cons
  else if c = C 72 ∨ c = 127 then
    if cons.e ≠ cons.w then { cons with e := cons.e - 1 } else cons
  else if c ≠ 0 ∧ cons.e - cons.r < UInt32.ofNat INPUT_BUF_SIZE then
    let c := if c = 13 then newline else c
    let cons := { cons with
      buf := Function.update cons.buf (Ring.slot cons.e) c, e := cons.e + 1 }
    if c = newline ∨ c = C 68 ∨ cons.e - cons.r = UInt32.ofNat INPUT_BUF_SIZE then
      { cons with w := cons.e }
    else
      cons
  else
    cons

/-- The points of `consoleread`. -/
inductive ReadAt where
  /-- `acquire(&cons.lock)` -/
  | enter
  /-- `while(n > 0)` -/
  | loop
  /-- the test for input -/
  | wait
  /-- `killed(myproc())` -/
  | killed
  /-- `sleep(&cons.r, &cons.lock)` -/
  | sleep
  /-- the fetch of a byte -/
  | fetch
  /-- `either_copyout` of the byte -/
  | copyout (c : UInt8)
  deriving DecidableEq, Repr

/-- Where a process is.  `n` is what is left of the `target` bytes.  Every
path ends with `release(&cons.lock)` and `return r`. -/
inductive Loc where
  | read (target : Int) (dst : Nat) (n : Int) (at_ : ReadAt)
  | release (r : Int)
  | returned (r : Int)
  deriving DecidableEq, Repr

/-- What `consoleread` does when there is input: the console, and where the
reader goes on. -/
def fetch (target : Int) (dst : Nat) (n : Int) (cons : Cons) : Cons × Loc :=
  let c := cons.buf (Ring.slot cons.r)
  if c = C 68 then
    -- the end of file is kept for the next call, unless it comes first
    (if n < target then cons else { cons with r := cons.r + 1 }, .release (target - n))
  else
    ({ cons with r := cons.r + 1 }, .read target dst n (.copyout c))

/-- `consoleread(1, dst, n)`. -/
def consoleread (target : Int) (dst : Nat) (n : Int) : ReadAt → Instr Cons Loc Unit Unit
  | .enter => .acquire () (.read target dst n .loop)
  | .loop => .access fun _ cons => some (cons,
      if n > 0 then .read target dst n .wait else .release (target - n))
  | .wait => .access fun _ cons => some (cons,
      if cons.r = cons.w then .read target dst n .killed else .read target dst n .fetch)
  | .killed => .killed fun k => if k then .release (-1) else .read target dst n .sleep
  | .sleep => .sleep () () (.read target dst n .wait)
  | .fetch => .access fun _ cons => some (fetch target dst n cons)
  | .copyout c => .copyout dst [c] fun ok =>
      if ok then
        if c = newline then .release (target - (n - 1))
        else .read target ((dst + 1) % 2 ^ 64) (n - 1) .loop
      else .release (target - n)

/-- The code of `consoleread`.  The environment types a byte. -/
def code : Code Cons Loc Unit Unit UInt8 where
  instr
    | .read target dst n a => consoleread target dst n a
    | .release r => .release () (.returned r)
    | .returned r => .ret r
  entry
    | .read target _ n .enter => target = n
    | _ => false
  env := consoleintr

end Xv6.Console
