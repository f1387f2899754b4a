import Mathlib

/-!
# Constants and panics of the kernel

The numeric constants of `kernel/param.h`, `kernel/riscv.h` and
`kernel/memlayout.h` that the model uses, under the names of the source,
and one constructor for each call of `panic` that a modelled function can
make.  A panic stops the machine, so a modelled function that can panic
returns its `Panic` in place of a next state.
-/

namespace Xv6

/-! ## `param.h` -/

/-- Maximum number of processes. -/
def NPROC : Nat := 64

theorem NPROC_pos : 0 < NPROC := by decide

/-- Maximum number of CPUs. -/
def NCPU : Nat := 8

/-- Open files per process. -/
def NOFILE : Nat := 16

/-- Open files per system. -/
def NFILE : Nat := 100

/-- Active inodes per system. -/
def NINODE : Nat := 50

/-- Major device numbers. -/
def NDEV : Nat := 10

/-- Most arguments of `exec`. -/
def MAXARG : Nat := 32

/-- Pages of a user stack. -/
def USERSTACK : Nat := 1

/-- Most blocks that one file-system operation writes. -/
def MAXOPBLOCKS : Nat := 10

/-- Most data blocks in the on-disk log. -/
def LOGSIZE : Nat := MAXOPBLOCKS * 3

/-- Buffers of the disk block cache. -/
def NBUF : Nat := MAXOPBLOCKS * 3

/-! ## `fs.h` -/

/-- The inode number of the root directory. -/
def ROOTINO : Nat := 1

/-- Bytes per disk block. -/
def BSIZE : Nat := 1024

/-- Direct block numbers of an inode. -/
def NDIRECT : Nat := 12

instance : NeZero (NDIRECT + 1) := ⟨by decide⟩

/-- Block numbers in an indirect block. -/
def NINDIRECT : Nat := BSIZE / 4

/-- Most blocks of a file. -/
def MAXFILE : Nat := NDIRECT + NINDIRECT

/-- Inodes per block; an on-disk inode has 64 bytes. -/
def IPB : Nat := BSIZE / 64

/-- Bitmap bits per block. -/
def BPB : Nat := BSIZE * 8

/-- Bytes of a name in a directory entry. -/
def DIRSIZ : Nat := 14

/-! ## `stat.h` and `fcntl.h` -/

/-- Directory. -/
def T_DIR : Int16 := 1

/-- File. -/
def T_FILE : Int16 := 2

/-- Device. -/
def T_DEVICE : Int16 := 3

def O_RDONLY : UInt32 := 0x000
def O_WRONLY : UInt32 := 0x001
def O_RDWR : UInt32 := 0x002
def O_CREATE : UInt32 := 0x100
def O_TRUNC : UInt32 := 0x200
def O_APPEND : UInt32 := 0x400

/-! ## `riscv.h` and `memlayout.h` -/

/-- Bytes per page. -/
def PGSIZE : Nat := 4096

/-- Start of the physical memory that the kernel uses. -/
def KERNBASE : Nat := 0x80000000

/-- End of the physical memory that the kernel uses. -/
def PHYSTOP : Nat := KERNBASE + 128 * 1024 * 1024

/-- One beyond the highest virtual address. -/
def MAXVA : Nat := 2 ^ 38

/-- The highest page of every address space. -/
def TRAMPOLINE : Nat := MAXVA - PGSIZE

/-- The page below it. -/
def TRAPFRAME : Nat := TRAMPOLINE - PGSIZE

/-- `proj4`: the address of the shared page. -/
def SHM_VA : Nat := MAXVA - 15 * PGSIZE

/-! ## `elf.h` -/

/-- The first word of an executable file. -/
def ELF_MAGIC : Nat := 0x464C457F

/-- The type of a program header that is loaded. -/
def ELF_PROG_LOAD : Nat := 1

/-! ## Panics -/

/-- The calls of `panic` in the modelled functions.  Each constructor's
comment gives the text that the source prints. -/
inductive Panic where
  /-- `kfree` -/
  | kfree
  /-- `fileclose` -/
  | fileclose
  /-- `too big a transaction` -/
  | tooBigATransaction
  /-- `log_write outside of trans` -/
  | logWriteOutsideOfTrans
  /-- `log.committing` -/
  | logCommitting
  /-- `walk` -/
  | walk
  /-- `mappages: va not aligned` -/
  | mappagesVaNotAligned
  /-- `mappages: size not aligned` -/
  | mappagesSizeNotAligned
  /-- `mappages: size` -/
  | mappagesSize
  /-- `mappages: remap` -/
  | mappagesRemap
  /-- `uvmunmap: not aligned` -/
  | uvmunmapNotAligned
  /-- `uvmunmap: walk` -/
  | uvmunmapWalk
  /-- `uvmunmap: not mapped` -/
  | uvmunmapNotMapped
  /-- `uvmunmap: not a leaf` -/
  | uvmunmapNotALeaf
  /-- `freewalk: leaf` -/
  | freewalkLeaf
  /-- `uvmcopy: pte should exist` -/
  | uvmcopyPteShouldExist
  /-- `uvmcopy: page not present` -/
  | uvmcopyPageNotPresent
  /-- `uvmclear` -/
  | uvmclear
  /-- `loadseg: address should exist` -/
  | loadsegAddressShouldExist
  /-- `init exiting` -/
  | initExiting
  /-- `freeing free block` -/
  | freeingFreeBlock
  /-- `iget: no inodes` -/
  | igetNoInodes
  /-- `ilock` -/
  | ilock
  /-- `ilock: no type` -/
  | ilockNoType
  /-- `iunlock` -/
  | iunlock
  /-- `bmap: out of range` -/
  | bmapOutOfRange
  /-- `dirlookup not DIR` -/
  | dirlookupNotDir
  /-- `dirlookup read` -/
  | dirlookupRead
  /-- `dirlink read` -/
  | dirlinkRead
  /-- `isdirempty: readi` -/
  | isdiremptyReadi
  /-- `unlink: nlink < 1` -/
  | unlinkNlink
  /-- `unlink: writei` -/
  | unlinkWritei
  /-- `filedup` -/
  | filedup
  /-- `fileread` -/
  | fileread
  /-- `free_desc 1` -/
  | freeDesc1
  /-- `free_desc 2` -/
  | freeDesc2
  /-- `virtio_disk_intr status` -/
  | virtioDiskIntrStatus
  /-- `kerneltrap`, at an access through a bad pointer -/
  | kerneltrap
  deriving DecidableEq, Repr

end Xv6
