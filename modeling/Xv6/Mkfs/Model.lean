import Xv6.Fs.Layout
import Xv6.Lib.Except

/-!
# `mkfs`

`mkfs/mkfs.c`: the program that makes the first file system.  It runs on
the host, which is taken to be little-endian, so that `xshort` and `xint`
change nothing, and it keeps three things: the image, and the next free
inode and block.  What it prints and how it opens the image are left out.

An image has `FSSIZE` sectors.  Each `wsect` into it, apart from those of
`main` itself, comes after a `rsect` of the same sector, which fails behind
the end of the image.
-/

namespace Xv6

open Lib Fs

namespace Mkfs

/-! ## The layout -/

/-- Size of the file system in blocks. -/
def FSSIZE : Nat := 2000

def NINODES : Nat := 200

/-- The first word of a superblock. -/
def FSMAGIC : Nat := 0x10203040

def nbitmap : Nat := FSSIZE / BPB + 1

def ninodeblocks : Nat := NINODES / IPB + 1

def nlog : Nat := LOGSIZE

/-- The number of blocks before the data: boot block, superblock, log, inodes
and bitmap. -/
def nmeta : Nat := 2 + nlog + ninodeblocks + nbitmap

def nblocks : Nat := FSSIZE - nmeta

/-- `sb`, without the fields that the kernel does not keep. -/
abbrev sb : Superblock := mkfsSuperblock

example : sb =
    { size := FSSIZE, ninodes := NINODES, nlog := nlog, logstart := 2, inodestart := 2 + nlog,
      bmapstart := 2 + nlog + ninodeblocks } := rfl

/-- The sector with all fields of `sb`. -/
def sbSector : Block :=
  Buf.putArray (fun _ => 0) 0 4
    [FSMAGIC, FSSIZE, nblocks, NINODES, nlog, 2, 2 + nlog, 2 + nlog + ninodeblocks]

/-! ## The state -/

/-- The image, `freeinode` and `freeblock`. -/
structure Image where
  sectors : Nat → Block
  freeinode : Nat
  freeblock : Nat

/-- How `mkfs` ends before it is done: in `die` or in `assert`. -/
inductive Failure where
  | die
  | assert
  deriving DecidableEq

/-- The sector at the offset of sector number `sec`: the offset is a
`uint`. -/
def sector (sec : Nat) : Nat := sec * BSIZE % 2 ^ 32 / BSIZE

namespace Image

/-! ## Sectors and inodes -/

/-- `rsect`. -/
def rsect (m : Image) (sec : Nat) : Except Failure Block :=
  if sector sec < FSSIZE then .ok (m.sectors (sector sec)) else .error .die

/-- `wsect`. -/
def wsect (m : Image) (sec : Nat) (buf : Block) : Image :=
  { m with sectors := Function.update m.sectors (sector sec) buf }

/-- `winode`. -/
def winode (m : Image) (inum : Nat) (din : Dinode) : Except Failure Image := do
  let buf ← m.rsect (sb.IBLOCK inum)
  return m.wsect (sb.IBLOCK inum) (putDinode buf (inum % IPB) din)

/-- `rinode`. -/
def rinode (m : Image) (inum : Nat) : Except Failure Dinode := do
  let buf ← m.rsect (sb.IBLOCK inum)
  return getDinode buf (inum % IPB)

/-- `ialloc`. -/
def ialloc (m : Image) (type : Int16) : Except Failure (Nat × Image) := do
  let inum := m.freeinode
  let m' ← { m with freeinode := m.freeinode + 1 }.winode inum
    { Dinode.zero with type := type, nlink := 1 }
  return (inum, m')

/-! ## `iappend` -/

/-- Put the next free block into `din.addrs[j]` if there is none.  Both
halves of `iappend` do this. -/
def takeAddr (m : Image) (din : Dinode) (j : Fin (NDIRECT + 1)) : Dinode × Image :=
  if din.addrs j = 0 then
    ({ din with addrs := Function.update din.addrs j (UInt32.ofNat m.freeblock) },
      { m with freeblock := m.freeblock + 1 })
  else
    (din, m)

/-- The indirect half of `iappend`: the block in entry `j` of the indirect
block `ind`, which is taken if there is none. -/
def takeEntry (m : Image) (ind j : Nat) : Except Failure (Nat × Image) := do
  let indirect ← m.rsect ind
  if getEntry indirect j = 0 then
    let addr := UInt32.ofNat m.freeblock
    return (addr.toNat,
      { m with freeblock := m.freeblock + 1 }.wsect ind (putEntry indirect j addr))
  else
    return ((getEntry indirect j).toNat, m)

/-- The block number `fbn` of a file: the first part of a round of
`iappend`. -/
def blockFor (m : Image) (din : Dinode) (fbn : Nat) : Except Failure (Nat × Dinode × Image) :=
  if h : fbn < NDIRECT then
    let j : Fin (NDIRECT + 1) := ⟨fbn, Nat.lt_succ_of_lt h⟩
    let r := m.takeAddr din j
    .ok ((r.1.addrs j).toNat, r.1, r.2)
  else do
    let r := m.takeAddr din (Fin.last NDIRECT)
    let e ← r.2.takeEntry (r.1.addrs (Fin.last NDIRECT)).toNat (fbn - NDIRECT)
    return (e.1, r.1, e.2)

/-- The number of bytes that one round of `iappend` writes. -/
def roundLength (off n : Nat) : Nat := min n ((off / BSIZE + 1) * BSIZE - off)

/-- One round of the loop of `iappend`. -/
def iappendRound (m : Image) (din : Dinode) (off : Nat) (p : List UInt8) :
    Except Failure (Dinode × Image) :=
  if off / BSIZE < MAXFILE then do
    let r ← m.blockFor din (off / BSIZE)
    let buf ← r.2.2.rsect r.1
    return (r.2.1, r.2.2.wsect r.1
      (buf.write (off - off / BSIZE * BSIZE) (p.take (roundLength off p.length))))
  else
    .error .assert

/-- The loop of `iappend`.  The results are the final offset, the inode and
the image. -/
def iappendFrom (m : Image) (din : Dinode) (off : Nat) (p : List UInt8) :
    Nat → Except Failure (Nat × Dinode × Image)
  | 0 => .ok (off, din, m)
  | fuel + 1 =>
    if p = [] then
      .ok (off, din, m)
    else do
      let r ← m.iappendRound din off p
      iappendFrom r.2 r.1 (off + roundLength off p.length) (p.drop (roundLength off p.length)) fuel

/-- `iappend`. -/
def iappend (m : Image) (inum : Nat) (p : List UInt8) : Except Failure Image := do
  let din ← m.rinode inum
  let r ← m.iappendFrom din din.size.toNat p p.length
  r.2.2.winode inum { r.2.1 with size := UInt32.ofNat r.1 }

end Image

/-! ## `balloc` -/

/-- The buffer of `balloc` after `n` rounds of its loop. -/
def ballocFrom : Nat → Block
  | 0 => fun _ => 0
  | i + 1 => (ballocFrom i).markBit i

/-- `balloc`. -/
def Image.balloc (m : Image) (used : Nat) : Except Failure Image :=
  if used < BPB then .ok (m.wsect sb.bmapstart (ballocFrom used)) else .error .assert

/-! ## `main` -/

/-- A file on the command line: the argument, what is in the file, whether
it can be opened, and what the calls of `read` return before the first one
that returns 0 or fails. -/
structure InFile where
  path : List UInt8
  bytes : List UInt8
  opens : Bool
  reads : List (List UInt8)
  path_ne_zero : ∀ c ∈ path, c ≠ 0
  reads_length : ∀ buf ∈ reads, 0 < buf.length ∧ buf.length ≤ BSIZE
  reads_isPrefix : reads.flatten.isPrefixOf bytes = true

/-- `shortname` without the directory `user/`. -/
def shortname (path : List UInt8) : List UInt8 :=
  if [117, 115, 101, 114, 47].isPrefixOf path then path.drop 5 else path

/-- Skip a leading `_`. -/
def skipUnderscore : List UInt8 → List UInt8
  | 95 :: name => name
  | name => name

/-- The name under which a file is stored. -/
def InFile.name (file : InFile) : List UInt8 := skipUnderscore (shortname file.path)

namespace Image

/-- The loop of `main` that copies a file. -/
def appendReads (m : Image) (inum : Nat) : List (List UInt8) → Except Failure Image
  | [] => .ok m
  | buf :: bufs => do
    let m ← m.iappend inum buf
    appendReads m inum bufs

/-- The body of the loop of `main` over its arguments. -/
def addFile (m : Image) (rootino : Nat) (file : InFile) : Except Failure Image :=
  if 47 ∈ shortname file.path then
    .error .assert
  else if file.opens = false then
    .error .die
  else if file.name.length > DIRSIZ then
    .error .assert
  else do
    let r ← m.ialloc T_FILE
    let m ← r.2.iappend rootino { inum := r.1, name := file.name : Dirent }.encode
    m.appendReads r.1 file.reads

/-- The loop of `main` over its arguments. -/
def addFiles (m : Image) (rootino : Nat) : List InFile → Except Failure Image
  | [] => .ok m
  | file :: files => do
    let m ← m.addFile rootino file
    addFiles m rootino files

/-- Round the size of the root directory up. -/
def fixRoot (m : Image) (rootino : Nat) : Except Failure Image := do
  let din ← m.rinode rootino
  m.winode rootino { din with size := UInt32.ofNat ((din.size.toNat / BSIZE + 1) * BSIZE) }

end Image

/-- All sectors are cleared, and then the superblock is written. -/
def blank : Image :=
  Image.wsect { sectors := fun _ _ => 0, freeinode := 1, freeblock := nmeta } 1 sbSector

/-- `main`. -/
def mkfs (files : List InFile) : Except Failure Image := do
  let r ← blank.ialloc T_DIR
  if r.1 = ROOTINO then
    let m ← r.2.iappend r.1 { inum := r.1, name := [46] : Dirent }.encode
    let m ← m.iappend r.1 { inum := r.1, name := [46, 46] : Dirent }.encode
    let m ← m.addFiles r.1 files
    let m ← m.fixRoot r.1
    m.balloc m.freeblock
  else
    .error .assert

end Mkfs

end Xv6
