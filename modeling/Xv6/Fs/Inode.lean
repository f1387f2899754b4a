import Xv6.File
import Xv6.Fs.Layout
import Xv6.Lib.Prog

/-!
# Blocks and inodes

The first two layers of `kernel/fs.c`: the allocator for disk blocks, and
inodes with their contents.

The functions are programs of atomic steps.  What the source does while it
holds one spin lock or one buffer is one step; inodes are locked with
`ilock` and `iunlock`, which are steps of their own.  A block is read and
changed in the buffer cache, and `log_write` is an event: the log of
`Xv6.Log.Model` is not part of the state here, and a system that contains
both lets the log react to the events.  There is one device, so device
numbers are left out.
-/

namespace Xv6

open Lib Function

namespace Fs

/-! ## The state -/

/-- An entry of the inode table.  `lock` is the holder of the sleep lock. -/
structure Inode extends Dinode where
  inum : Nat
  ref : Int
  lock : Option (Fin NPROC)
  valid : Bool

/-- The files of a process. -/
structure ProcFiles where
  ofile : Fin NOFILE → Option (Fin NFILE)
  cwd : Nat

/-- The part of the kernel's state that the file system works on: the
superblock, the buffer cache, the inode table, the file table, the files of
each process and which devices have a driver. -/
structure Kernel where
  sb : Superblock
  cache : Nat → Block
  itable : Nat → Inode
  ftable : Ftable
  files : Fin NPROC → ProcFiles
  devsw : Nat → Bool

/-- What the functions show to the log and to an observer: the calls of
`begin_op`, `end_op`, `log_write` and `iput`, the commit that ends an
`end_op`, and that `bmap` finds no block at a place of a file. -/
inductive Event where
  | beginOp
  | endOp
  | commit
  | logWrite (b : Nat)
  | iput
  | hole
  deriving DecidableEq, Repr

/-- Programs of the file system. -/
abbrev FsM (α : Type) := Prog Kernel Panic Event α

namespace Kernel

/-- Change the cached contents of a block. -/
def setBlock (s : Kernel) (b : Nat) (v : Block) : Kernel :=
  { s with cache := update s.cache b v }

/-- Change an entry of the inode table. -/
def setInode (s : Kernel) (ip : Nat) (i : Inode) : Kernel :=
  { s with itable := update s.itable ip i }

end Kernel

/-! ## Transactions -/

/-- `begin_op`. -/
def beginOp : FsM Unit := Prog.emit .beginOp

/-- `end_op`: leave the operation, and then commit if this was the last
one. -/
def endOp : FsM Unit := do
  Prog.emit .endOp
  Prog.emit .commit

/-! ## Blocks -/

/-- `bzero`. -/
def bzero (b : Nat) : FsM Unit :=
  Prog.act fun s => .done () (s.setBlock b fun _ => 0) (some (.logWrite b))

/-- One round of the outer loop of `balloc`: take the first free block
among those with a bit in the bitmap block of `b`. -/
def ballocIn (b : Nat) : FsM (Option Nat) :=
  Prog.act fun s =>
    let bp := s.cache (s.sb.BBLOCK b)
    match (List.range (min BPB (s.sb.size - b))).find? fun bi => !bp.bit bi with
    | some bi => .done (some (b + bi)) (s.setBlock (s.sb.BBLOCK b) (bp.markBit bi))
        (some (.logWrite (s.sb.BBLOCK b)))
    | none => .done none s none

/-- The outer loop of `balloc` over `n` bitmap blocks. -/
def ballocFrom (b : Nat) : Nat → FsM Nat
  | 0 => return 0
  | n + 1 => do
    let r ← ballocIn b
    match r with
    | some blk =>
      bzero blk
      return blk
    | none => ballocFrom (b + BPB) n

/-- `balloc`: a zeroed block, or 0 when there is none. -/
def balloc : FsM Nat := do
  let sb ← Prog.read Kernel.sb
  ballocFrom 0 ((sb.size + BPB - 1) / BPB)

/-- `bfree`. -/
def bfree (b : Nat) : FsM Unit :=
  Prog.act fun s =>
    let bp := s.cache (s.sb.BBLOCK b)
    if bp.bit (b % BPB) then
      .done () (s.setBlock (s.sb.BBLOCK b) (bp.clearBit (b % BPB)))
        (some (.logWrite (s.sb.BBLOCK b)))
    else
      .panic .freeingFreeBlock

/-! ## The inode table -/

/-- `iupdate`. -/
def iupdate (ip : Nat) : FsM Unit :=
  Prog.act fun s =>
    let b := s.sb.IBLOCK (s.itable ip).inum
    .done () (s.setBlock b (putDinode (s.cache b) ((s.itable ip).inum % IPB)
      (s.itable ip).toDinode)) (some (.logWrite b))

/-- `iget`: the entry of an inode, which is not read from the disk yet. -/
def iget (inum : Nat) : FsM Nat :=
  Prog.act fun s =>
    match (List.range NINODE).find? fun i =>
      (s.itable i).ref > 0 ∧ (s.itable i).inum = inum with
    | some i => .done i (s.setInode i { s.itable i with ref := (s.itable i).ref + 1 }) none
    | none =>
      match (List.range NINODE).find? fun i => (s.itable i).ref = 0 with
      | none => .panic .igetNoInodes
      | some i =>
        .done i (s.setInode i { s.itable i with inum := inum, ref := 1, valid := false }) none

/-- `idup`. -/
def idup (ip : Nat) : FsM Unit :=
  Prog.modify fun s => s.setInode ip { s.itable ip with ref := (s.itable ip).ref + 1 }

/-- `ilock`: wait for the inode, and read it from the disk if nobody has
done so yet. -/
def ilock (p : Fin NPROC) (ip : Nat) : FsM Unit :=
  Prog.act fun s =>
    let i := s.itable ip
    if i.ref < 1 then
      .panic .ilock
    else if i.lock.isSome then
      .block
    else if i.valid then
      .done () (s.setInode ip { i with lock := some p }) none
    else
      let d := getDinode (s.cache (s.sb.IBLOCK i.inum)) (i.inum % IPB)
      if d.type = 0 then
        .panic .ilockNoType
      else
        .done () (s.setInode ip
          { toDinode := d, inum := i.inum, ref := i.ref, lock := some p, valid := true }) none

/-- `iunlock`. -/
def iunlock (p : Fin NPROC) (ip : Nat) : FsM Unit :=
  Prog.act fun s =>
    let i := s.itable ip
    if i.lock ≠ some p ∨ i.ref < 1 then
      .panic .iunlock
    else
      .done () (s.setInode ip { i with lock := none }) none

/-- The loop of `ialloc` over the `n` inodes from `inum` on: the number of
the first free inode, which it marks as allocated. -/
def iallocFrom (type : Int16) (inum : Nat) : Nat → FsM (Option Nat)
  | 0 => return none
  | n + 1 => do
    let free ← Prog.act fun s =>
      let b := s.sb.IBLOCK inum
      if (getDinode (s.cache b) (inum % IPB)).type = 0 then
        .done true (s.setBlock b (putDinode (s.cache b) (inum % IPB)
          { Dinode.zero with type := type })) (some (.logWrite b))
      else
        .done false s none
    if free then
      return some inum
    else
      iallocFrom type (inum + 1) n

/-- `ialloc`. -/
def ialloc (type : Int16) : FsM (Option Nat) := do
  let sb ← Prog.read Kernel.sb
  let r ← iallocFrom type 1 (sb.ninodes - 1)
  match r with
  | none => return none
  | some inum =>
    let ip ← iget inum
    return some ip

/-! ## Inode contents -/

/-- Store a block number in `ip->addrs`. -/
def setAddr (ip : Nat) (j : Fin (NDIRECT + 1)) (v : UInt32) : FsM Unit :=
  Prog.modify fun s => s.setInode ip { s.itable ip with addrs := update (s.itable ip).addrs j v }

/-- The block in `ip->addrs[j]`, which is allocated if there is none.  Both
halves of `bmap` do this. -/
def bmapAddr (ip : Nat) (j : Fin (NDIRECT + 1)) : FsM Nat := do
  let addr ← Prog.act fun s =>
    let addr := (s.itable ip).addrs j
    .done addr.toNat s (if addr = 0 then some .hole else none)
  if addr = 0 then
    let addr ← balloc
    if addr = 0 then
      return 0
    else
      setAddr ip j (UInt32.ofNat addr)
      return addr
  else
    return addr

/-- The indirect half of `bmap`: the block in entry `j` of the indirect
block `ind`, which is allocated if there is none. -/
def bmapEntry (ind j : Nat) : FsM Nat := do
  let addr ← Prog.act fun s =>
    let addr := getEntry (s.cache ind) j
    .done addr.toNat s (if addr = 0 then some .hole else none)
  if addr = 0 then
    let addr ← balloc
    if addr = 0 then
      return 0
    else
      Prog.act fun s => .done () (s.setBlock ind
        (putEntry (s.cache ind) j (UInt32.ofNat addr))) (some (.logWrite ind))
      return addr
  else
    return addr

/-- `bmap`: the block number `bn` of a file, which is allocated if there is
none, or 0 when the disk is full. -/
def bmap (ip bn : Nat) : FsM Nat :=
  if h : bn < NDIRECT then
    bmapAddr ip ⟨bn, Nat.lt_succ_of_lt h⟩
  else if bn - NDIRECT < NINDIRECT then do
    let ind ← bmapAddr ip ⟨NDIRECT, Nat.lt_succ_self _⟩
    if ind = 0 then
      return 0
    else
      bmapEntry ind (bn - NDIRECT)
  else
    Prog.fail .bmapOutOfRange

/-- One round of the first loop of `itrunc`. -/
def itruncAddr (ip : Nat) (j : Fin (NDIRECT + 1)) : FsM Unit := do
  let addr ← Prog.read fun s => (s.itable ip).addrs j
  if addr ≠ 0 then
    bfree addr.toNat
    setAddr ip j 0
  else
    return ()

/-- The first loop of `itrunc`. -/
def itruncDirect (ip : Nat) : List (Fin (NDIRECT + 1)) → FsM Unit
  | [] => return ()
  | j :: js => do
    itruncAddr ip j
    itruncDirect ip js

/-- The second loop of `itrunc`, over entries of the indirect block. -/
def itruncEntries (bp : Block) : List Nat → FsM Unit
  | [] => return ()
  | j :: js => do
    (if getEntry bp j ≠ 0 then bfree (getEntry bp j).toNat else pure ())
    itruncEntries bp js

/-- The part of `itrunc` that frees the indirect block. -/
def itruncIndirect (ip : Nat) : FsM Unit := do
  let ind ← Prog.read fun s => (s.itable ip).addrs (Fin.last NDIRECT)
  if ind ≠ 0 then
    let bp ← Prog.read fun s => s.cache ind.toNat
    itruncEntries bp (List.range NINDIRECT)
    bfree ind.toNat
    setAddr ip (Fin.last NDIRECT) 0
  else
    return ()

/-- `itrunc`. -/
def itrunc (ip : Nat) : FsM Unit := do
  itruncDirect ip ((List.finRange NDIRECT).map Fin.castSucc)
  itruncIndirect ip
  Prog.modify fun s => s.setInode ip { s.itable ip with size := 0 }
  iupdate ip

/-- The first critical section of `iput`: it drops the reference, unless
this is the last one to an inode without links, which it locks instead. -/
def iputFirst (p : Fin NPROC) (ip : Nat) : FsM Bool :=
  Prog.act fun s =>
    let i := s.itable ip
    if i.ref = 1 ∧ i.valid = true ∧ i.nlink = 0 then
      if i.lock.isSome then
        .block
      else
        .done true (s.setInode ip { i with lock := some p }) (some .iput)
    else
      .done false (s.setInode ip { i with ref := i.ref - 1 }) (some .iput)

/-- `iput`. -/
def iput (p : Fin NPROC) (ip : Nat) : FsM Unit := do
  let last ← iputFirst p ip
  if last then
    itrunc ip
    Prog.modify fun s => s.setInode ip { s.itable ip with type := 0 }
    iupdate ip
    Prog.modify fun s => s.setInode ip { s.itable ip with valid := false, lock := none }
    Prog.modify fun s => s.setInode ip { s.itable ip with ref := (s.itable ip).ref - 1 }
  else
    return ()

/-- `iunlockput`. -/
def iunlockput (p : Fin NPROC) (ip : Nat) : FsM Unit := do
  iunlock p ip
  iput p ip

/-- The loop of `readi` over the `n` bytes from `off` on.  `dst i` says
whether byte number `i` of the destination can be written.  The results are
whether every copy succeeded, and the bytes. -/
def readiFrom (ip : Nat) (dst : Nat → Bool) :
    Nat → Nat → Nat → Nat → FsM (Bool × List UInt8)
  | 0, _, _, _ => return (true, [])
  | fuel + 1, tot, off, n =>
    if n = 0 then
      return (true, [])
    else do
      let addr ← bmap ip (off / BSIZE)
      if addr = 0 then
        return (true, [])
      else
        let m := min n (BSIZE - off % BSIZE)
        let bytes ← Prog.read fun s => (s.cache addr).read (off % BSIZE) m
        if (List.range m).all fun i => dst (tot + i) then
          let r ← readiFrom ip dst fuel (tot + m) (off + m) (n - m)
          return (r.1, bytes ++ r.2)
        else
          return (false, [])

/-- `readi`.  The results are what the source returns, and the bytes read.
Offsets and lengths are `uint`. -/
def readi (ip : Nat) (dst : Nat → Bool) (off n : Nat) : FsM (Int × List UInt8) := do
  let size ← Prog.read fun s => (s.itable ip).size.toNat
  if off > size ∨ (off + n) % 2 ^ 32 < off then
    return (0, [])
  else
    let n := if off + n > size then size - off else n
    let r ← readiFrom ip dst n 0 off n
    return (if r.1 then (r.2.length : Int) else -1, r.2)

/-- The bytes that a copy of `m` bytes from place `i` of the source on
delivers before it meets one that cannot be read. -/
def copyin (src : Nat → Option UInt8) (i : Nat) : Nat → List UInt8
  | 0 => []
  | m + 1 =>
    match src i with
    | none => []
    | some byte => byte :: copyin src (i + 1) m

/-- The loop of `writei` over the `n` bytes from `off` on, `tot` bytes into
the source.  The result is the final `tot`. -/
def writeiFrom (ip : Nat) (src : Nat → Option UInt8) : Nat → Nat → Nat → Nat → FsM Nat
  | 0, tot, _, _ => return tot
  | fuel + 1, tot, off, n =>
    if n = 0 then
      return tot
    else do
      let addr ← bmap ip (off / BSIZE)
      if addr = 0 then
        return tot
      else
        let m := min n (BSIZE - off % BSIZE)
        let bytes := copyin src tot m
        Prog.act fun s => .done () (s.setBlock addr ((s.cache addr).write (off % BSIZE) bytes))
          (if bytes.length = m then some (.logWrite addr) else none)
        if bytes.length = m then
          writeiFrom ip src fuel (tot + m) (off + m) (n - m)
        else
          return tot

/-- `writei`. -/
def writei (ip : Nat) (src : Nat → Option UInt8) (off n : Nat) : FsM Int := do
  let size ← Prog.read fun s => (s.itable ip).size.toNat
  if off > size ∨ (off + n) % 2 ^ 32 < off then
    return -1
  else if off + n > MAXFILE * BSIZE then
    return -1
  else
    let tot ← writeiFrom ip src n 0 off n
    Prog.modify fun s =>
      if off + tot > (s.itable ip).size.toNat then
        s.setInode ip { s.itable ip with size := UInt32.ofNat (off + tot) }
      else
        s
    iupdate ip
    return tot

end Fs

end Xv6
