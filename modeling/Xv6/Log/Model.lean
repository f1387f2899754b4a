import Xv6.Lib.Bytes
import Xv6.Lib.Writes
import Xv6.Params

/-!
# The write-ahead log

`kernel/log.c` over the block device of `kernel/bio.c`.

A `Dev` is the device seen through the buffer cache: `cache b` is what
`bread` returns for block `b` and `disk b` is what a reboot would find
there.  Only `bwrite` changes the disk, and it records the write, so that a
crash after any number of writes can be replayed.  Buffers are evicted only
while nobody holds or pins them, and a block that `log_write` accepted stays
pinned until `install_trans` has written it, so an eviction never loses a
logged change; the pin counts themselves are not part of the model.

The log is the in-memory `struct log`.  Its header is the list of the block
numbers that the current transaction has logged, in order.
-/

namespace Xv6

open Function Lib List

/-- The contents of one disk block. -/
abbrev Block := Buf BSIZE

/-! ## The block device -/

/-- The disk, the buffer cache over it and the writes issued so far. -/
structure Dev where
  disk : Nat → Block
  cache : Nat → Block
  issued : List (Nat × Block)

namespace Dev

/-- Change the cached contents of a block. -/
def bset (d : Dev) (b : Nat) (v : Block) : Dev :=
  { d with cache := update d.cache b v }

/-- `bwrite`: write the cached contents of a block to the disk. -/
def bwrite (d : Dev) (b : Nat) : Dev :=
  { d with
    disk := update d.disk b (d.cache b)
    issued := d.issued ++ [(b, d.cache b)] }

/-- The device right after a boot: an empty cache reads from the disk. -/
def boot (disk : Nat → Block) : Dev :=
  { disk := disk, cache := disk, issued := [] }

/-- `memmove(to->data, from->data, BSIZE); bwrite(to)`. -/
def copyBlock (d : Dev) (src dst : Nat) : Dev :=
  (d.bset dst (d.cache src)).bwrite dst

/-- One `copyBlock` for each pair, in order. -/
def copyBlocks (d : Dev) (ps : List (Nat × Nat)) : Dev :=
  ps.foldl (fun d p => d.copyBlock p.1 p.2) d

end Dev

/-! ## The header block -/

/-- The header that `write_head` leaves in a block: the count, and then
only the entries in use.  The other bytes keep their values. -/
def encodeHead (lh : List Nat) (b : Block) : Block :=
  (b.putLE 0 4 lh.length).putArray 4 4 lh

/-- The header that `read_head` finds in a block.  The count is a signed
`int`; the model agrees with the source up to `LOGSIZE` entries, beyond
which the source overruns its array. -/
def decodeHead (b : Block) : List Nat :=
  (List.range (Int32.ofNat (b.getLE 0 4)).toInt.toNat).map fun i =>
    b.getLE (4 + 4 * i) 4

/-! ## The log -/

/-- `struct log`.  The header's count is the length of `lh`. -/
structure Log where
  start : Nat
  size : Nat
  outstanding : Int
  committing : Bool
  lh : List Nat
  deriving DecidableEq, Repr

namespace Log

/-- The log as `initlog` sets it up, before it recovers. -/
def init (start size : Nat) : Log :=
  { start := start, size := size, outstanding := 0, committing := false, lh := [] }

/-- The block that holds the log's copy of its entry number `tail`. -/
def slot (log : Log) (tail : Nat) : Nat := log.start + tail + 1

/-- The blocks outside the log area. -/
def Home (log : Log) (b : Nat) : Prop :=
  b < log.start ∨ log.start + log.size ≤ b

instance (log : Log) (b : Nat) : Decidable (log.Home b) :=
  inferInstanceAs (Decidable (_ ∨ _))

end Log

/-- `install_trans`: copy every log block to its home block. -/
def installTrans (log : Log) (d : Dev) : Dev :=
  d.copyBlocks (log.lh.zipIdx.map fun e => (log.slot e.2, e.1))

/-- `write_log`: copy every logged block from the cache to the log. -/
def writeLog (log : Log) (d : Dev) : Dev :=
  d.copyBlocks (log.lh.zipIdx.map fun e => (e.1, log.slot e.2))

/-- `read_head`: read the header block into the log. -/
def readHead (log : Log) (d : Dev) : Log :=
  { log with lh := decodeHead (d.cache log.start) }

/-- `write_head`: write the log's header to its block. -/
def writeHead (log : Log) (d : Dev) : Dev :=
  (d.bset log.start (encodeHead log.lh (d.cache log.start))).bwrite log.start

/-- `recover_from_log`. -/
def recoverFromLog (log : Log) (d : Dev) : Log × Dev :=
  let log := readHead log d
  let d := installTrans log d
  let log := { log with lh := [] }
  (log, writeHead log d)

/-- `commit`. -/
def commit (log : Log) (d : Dev) : Log × Dev :=
  if log.lh.length > 0 then
    let d := writeLog log d
    let d := writeHead log d
    let d := installTrans log d
    let log := { log with lh := [] }
    (log, writeHead log d)
  else
    (log, d)

/-- `log_write`: note that the current transaction changes a block.  A
block that is already in the header is absorbed. -/
def logWrite (log : Log) (b : Nat) : Except Panic Log :=
  if log.lh.length ≥ LOGSIZE ∨ (log.lh.length : Int) ≥ (log.size : Int) - 1 then
    .error .tooBigATransaction
  else if log.outstanding < 1 then
    .error .logWriteOutsideOfTrans
  else if b ∈ log.lh then
    .ok log
  else
    .ok { log with lh := log.lh ++ [b] }

/-- One pass of `begin_op`'s loop; `none` when it goes to sleep. -/
def beginOp (log : Log) : Option Log :=
  if log.committing then
    none
  else if (log.lh.length : Int) + (log.outstanding + 1) * MAXOPBLOCKS > LOGSIZE then
    none
  else
    some { log with outstanding := log.outstanding + 1 }

/-- The part of `end_op` before the commit.  The flag says whether this
call has to commit. -/
def endOp (log : Log) : Except Panic (Bool × Log) :=
  if log.committing then
    .error .logCommitting
  else if log.outstanding - 1 = 0 then
    .ok (true, { log with outstanding := log.outstanding - 1, committing := true })
  else
    .ok (false, { log with outstanding := log.outstanding - 1 })

/-- The part of `end_op` after the commit. -/
def endCommit (log : Log) : Log :=
  { log with committing := false }

/-! ## What the steps do -/

section Dev

variable (d : Dev)

/-- Copies whose sources none of them overwrites copy the contents that
the sources have at the start. -/
theorem Dev.copyBlocks_eq {ps : List (Nat × Nat)} (h : ∀ p ∈ ps, ∀ q ∈ ps, p.2 ≠ q.1) :
    d.copyBlocks ps =
      let ws := ps.map fun p => (p.2, d.cache p.1)
      { disk := applyWrites d.disk ws
        cache := applyWrites d.cache ws
        issued := d.issued ++ ws } := by
  induction ps generalizing d with
  | nil => simp [copyBlocks]
  | cons p ps ih =>
    have hps : ∀ q ∈ ps, ∀ r ∈ ps, q.2 ≠ r.1 := fun q hq r hr =>
      h q (mem_cons_of_mem _ hq) r (mem_cons_of_mem _ hr)
    have hsrc : ∀ q ∈ ps, (d.copyBlock p.1 p.2).cache q.1 = d.cache q.1 := by
      intro q hq
      have hne : p.2 ≠ q.1 := h p mem_cons_self q (mem_cons_of_mem _ hq)
      simp [copyBlock, bset, bwrite, update_of_ne hne.symm]
    have hws : (ps.map fun q => (q.2, (d.copyBlock p.1 p.2).cache q.1)) =
        ps.map fun q => (q.2, d.cache q.1) := by
      apply map_congr_left
      intro q hq
      rw [hsrc q hq]
    show (d.copyBlock p.1 p.2).copyBlocks ps = _
    rw [ih _ hps, hws]
    simp [copyBlock, bset, bwrite]

end Dev

section Header

variable {lh : List Nat} (b : Block)

theorem encodeHead_count (hlen : lh.length ≤ LOGSIZE) :
    (encodeHead lh b).getLE 0 4 = lh.length := by
  unfold encodeHead
  have hsmall : lh.length < 256 ^ 4 := lt_of_le_of_lt hlen (by decide)
  rw [Buf.getLE_putArray_of_disjoint _ _ (by omega),
    Buf.getLE_putLE_same _ _ (by decide), Nat.mod_eq_of_lt hsmall]

/-- A header that fits in the log is read back as it was written. -/
theorem decodeHead_encodeHead (hlen : lh.length ≤ LOGSIZE)
    (hint : ∀ x ∈ lh, x < 2 ^ 32) : decodeHead (encodeHead lh b) = lh := by
  have hcount : (Int32.ofNat lh.length).toInt.toNat = lh.length := by
    have hsmall : lh.length < 2 ^ 31 := lt_of_le_of_lt hlen (by decide)
    rw [Int32.toInt_ofNat_of_lt hsmall, Int.toNat_natCast]
  have hfit : 4 + 4 * lh.length ≤ BSIZE := by
    unfold BSIZE
    unfold LOGSIZE MAXOPBLOCKS at hlen
    omega
  unfold decodeHead
  rw [encodeHead_count b hlen, hcount]
  apply ext_getElem (by simp)
  intro i hi hi'
  have hlt : lh[i] < 256 ^ 4 := hint _ (getElem_mem hi')
  rw [getElem_map, getElem_range, encodeHead, Buf.getLE_putArray _ _ hfit hi', Nat.mod_eq_of_lt hlt]

theorem decodeHead_of_count_zero {b : Block} (h : b.getLE 0 4 = 0) : decodeHead b = [] := by
  simp [decodeHead, h]

end Header

end Xv6
