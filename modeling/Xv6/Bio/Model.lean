import Xv6.Params
import Xv6.Lib.Links
import Xv6.Lib.Holders
import Xv6.Lib.Run

/-!
# The buffer cache

`kernel/bio.c` with any number of processes: `binit`, `bget`, `bread`,
`bwrite`, `brelse`, `bpin` and `bunpin`.

A part of a function that runs under `bcache.lock` is one step, and so is the
wait for the sleep lock of a buffer; the steps of the processes interleave in
any order.  `virtio_disk_rw` is one step as well, together with the store to
`b->valid` behind it, since only the holder of the sleep lock reads either.

A step is enabled where the source does not panic and the caller keeps to the
contract of the cache: a real device, `bpin` of a buffer that the caller
holds and that has not been pinned too often, `bunpin` of a buffer that is
pinned, and stores to `b->data` by the holder of `b->lock` only.
-/

namespace Xv6.Bio

open Lib Function

/-- An entry of `bcache.buf`. -/
abbrev Bufno := Fin NBUF

instance : NeZero NBUF := ⟨by decide⟩

/-- A node of the list: `bcache.head`, or an entry of `bcache.buf`. -/
inductive Node where
  | head
  | buf (b : Bufno)
  deriving DecidableEq, Repr

/-- `struct buf`, without the sleep lock and the pointers.  `D` is the
contents of a block.  `refcnt` is a natural number: it counts processes and
pins, and `bpin` keeps these below `2 ^ 32`. -/
structure Buf (D : Type) where
  valid : Bool
  dev : UInt32
  blockno : UInt32
  refcnt : Nat
  data : D
  deriving DecidableEq, Repr

/-- The block that a buffer is for. -/
def Buf.key {D : Type} (x : Buf D) : UInt32 × UInt32 := (x.dev, x.blockno)

/-- Where a process stands in a call. -/
inductive Loc where
  | idle
  /-- `bget` has chosen a buffer and waits for its sleep lock -/
  | lock (b : Bufno) (dev blockno : UInt32)
  /-- `bread` looks at `b->valid` -/
  | check (b : Bufno) (dev blockno : UInt32)
  | read (b : Bufno) (dev blockno : UInt32)
  /-- `brelse` has released the sleep lock -/
  | relse (b : Bufno)
  deriving DecidableEq, Repr

/-- The cache and the disk.  `lock b` is the process that holds `b->lock`.
`pins` and `left` record what happened, and no function reads them: how often
a buffer was pinned and not unpinned, and with which contents the buffer of a
block was last released, unless it was recycled since. -/
structure State (n : Nat) (D : Type) where
  buf : Bufno → Buf D
  links : Links Node
  lock : Bufno → Option (Fin n)
  loc : Fin n → Loc
  disk : UInt32 → D
  pins : Bufno → Nat
  left : UInt32 × UInt32 → Option D

/-- A call, or the next step of a call. -/
inductive Label (n : Nat) (D : Type) where
  | bread (p : Fin n) (dev blockno : UInt32)
  | run (p : Fin n)
  /-- the holder of the buffer changes its contents -/
  | store (p : Fin n) (b : Bufno) (d : D)
  | bwrite (p : Fin n) (b : Bufno)
  | brelse (p : Fin n) (b : Bufno)
  | bpin (p : Fin n) (b : Bufno)
  | bunpin (p : Fin n) (b : Bufno)
  deriving DecidableEq, Repr

/-- The pointers after `binit`. -/
def binit (k : Links Node) : Links Node :=
  (List.finRange NBUF).foldl (fun k b => k.pushFront .head (.buf b))
    ((k.setPrev .head .head).setNext .head .head)

/-- The sector at which `virtio_disk_rw` starts; the device does not matter. -/
def sector (blockno : UInt32) : UInt32 := blockno * 2

namespace State

variable {n : Nat} {D : Type}

/-- A test of a buffer, as a test of a node. -/
def test (s : State n D) (p : Buf D → Bool) : Node → Bool
  | .head => false
  | .buf b => p (s.buf b)

/-- Change a buffer. -/
def setBuf (s : State n D) (b : Bufno) (x : Buf D) : State n D :=
  { s with buf := update s.buf b x }

/-- Move a process. -/
def setLoc (s : State n D) (p : Fin n) (loc : Loc) : State n D :=
  { s with loc := update s.loc p loc }

/-- The first loop of `bget`, from the most recently used buffer on. -/
def cached (s : State n D) (dev blockno : UInt32) : Option Node :=
  Links.walk s.links.next .head (s.test fun x => x.dev = dev && x.blockno = blockno) (NBUF + 1)
    (s.links.next .head)

/-- The second loop of `bget`, from the least recently used buffer on. -/
def unused (s : State n D) : Option Node :=
  Links.walk s.links.prev .head (s.test fun x => x.refcnt = 0) (NBUF + 1) (s.links.prev .head)

/-- `bget`, up to the sleep lock; `none` where it panics. -/
def bget (s : State n D) (p : Fin n) (dev blockno : UInt32) : Option (State n D) :=
  match s.cached dev blockno with
  | some (.buf b) =>
    some ((s.setBuf b { s.buf b with refcnt := (s.buf b).refcnt + 1 }).setLoc p
      (.lock b dev blockno))
  | _ =>
    match s.unused with
    | some (.buf b) =>
      some ({ s.setBuf b { s.buf b with dev, blockno, valid := false, refcnt := 1 } with
        left := update s.left (s.buf b).key none }.setLoc p (.lock b dev blockno))
    | _ => none

/-- The end of `brelse`, under `bcache.lock`. -/
def drop (s : State n D) (b : Bufno) : State n D :=
  let s := s.setBuf b { s.buf b with refcnt := (s.buf b).refcnt - 1 }
  if (s.buf b).refcnt = 0 then
    { s with links := (s.links.unlink (.buf b)).pushFront .head (.buf b) }
  else s

/-- The next step of a call. -/
def resume (s : State n D) (p : Fin n) : Option (State n D) :=
  match s.loc p with
  | .idle => none
  | .lock b dev blockno =>
    if s.lock b = none then
      some ({ s with lock := update s.lock b (some p) }.setLoc p (.check b dev blockno))
    else none
  | .check b dev blockno =>
    some (s.setLoc p (if (s.buf b).valid then .idle else .read b dev blockno))
  | .read b _ _ =>
    some ((s.setBuf b { s.buf b with
      data := s.disk (sector (s.buf b).blockno), valid := true }).setLoc p .idle)
  | .relse b => some ((s.drop b).setLoc p .idle)

/-- `p` is in no call, and `holdingsleep(&b->lock)`. -/
def Holds (s : State n D) (p : Fin n) (b : Bufno) : Prop := s.loc p = .idle ∧ s.lock b = some p

instance (s : State n D) (p : Fin n) (b : Bufno) : Decidable (s.Holds p b) :=
  inferInstanceAs (Decidable (_ ∧ _))

/-- Take a label; `none` when it cannot be taken. -/
def step (s : State n D) : Label n D → Option (State n D)
  | .bread p dev blockno => if s.loc p = .idle ∧ dev ≠ 0 then s.bget p dev blockno else none
  | .run p => s.resume p
  | .store p b d => if s.Holds p b then some (s.setBuf b { s.buf b with data := d }) else none
  | .bwrite p b =>
    if s.Holds p b then
      some { s with disk := update s.disk (sector (s.buf b).blockno) (s.buf b).data }
    else none
  | .brelse p b =>
    if s.Holds p b then
      some ({ s with
        lock := update s.lock b none
        left := update s.left (s.buf b).key (some (s.buf b).data) }.setLoc p (.relse b))
    else none
  | .bpin p b =>
    if s.Holds p b ∧ s.pins b + n + 1 < 2 ^ 32 then
      some { s.setBuf b { s.buf b with refcnt := (s.buf b).refcnt + 1 } with
        pins := update s.pins b (s.pins b + 1) }
    else none
  | .bunpin p b =>
    if s.loc p = .idle ∧ 0 < s.pins b then
      some { s.setBuf b { s.buf b with refcnt := (s.buf b).refcnt - 1 } with
        pins := update s.pins b (s.pins b - 1) }
    else none

/-- After `binit`: the buffers are all zeroes. -/
def boot (n : Nat) (k : Links Node) (disk : UInt32 → D) (zeroes : D) : State n D where
  buf _ := { valid := false, dev := 0, blockno := 0, refcnt := 0, data := zeroes }
  links := binit k
  lock _ := none
  loc _ := .idle
  disk := disk
  pins _ := 0
  left _ := none

end State

/-- The steps of the system. -/
def Steps {n : Nat} {D : Type} (s : State n D) (l : Label n D) (t : State n D) : Prop :=
  s.step l = some t

end Xv6.Bio
