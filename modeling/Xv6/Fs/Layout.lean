import Xv6.Log.Model

/-!
# The layout of the disk

`kernel/fs.h`: the superblock, the free bitmap, on-disk inodes and directory
entries, as they lie in the bytes of a block.  The disk is laid out as

    [ boot block | super block | log | inode blocks | free bitmap | data blocks ]

Every on-disk structure that the kernel stores is read back as it was
stored, and storing one leaves its neighbours in the block alone.
-/

namespace Xv6

open Lib List

namespace Fs

/-! ## The superblock -/

/-- `struct superblock`, without the magic number and the count of data
blocks, which nothing reads after `fsinit`. -/
structure Superblock where
  size : Nat
  ninodes : Nat
  nlog : Nat
  logstart : Nat
  inodestart : Nat
  bmapstart : Nat
  deriving DecidableEq, Repr

namespace Superblock

variable (sb : Superblock)

/-- The block that holds inode `i`. -/
def IBLOCK (i : Nat) : Nat := i / IPB + sb.inodestart

/-- The block that holds the bitmap bit of block `b`. -/
def BBLOCK (b : Nat) : Nat := b / BPB + sb.bmapstart

/-- The first data block: `mkfs` makes `size / BPB + 1` bitmap blocks. -/
def nmeta : Nat := sb.bmapstart + sb.size / BPB + 1

/-- The data blocks. -/
def IsData (b : Nat) : Prop := sb.nmeta ≤ b ∧ b < sb.size

instance (b : Nat) : Decidable (sb.IsData b) := inferInstanceAs (Decidable (_ ∧ _))

/-- The areas of the disk lie one after the other, as `mkfs` puts them. -/
structure WellFormed : Prop where
  log : sb.logstart + sb.nlog ≤ sb.inodestart
  inodes : sb.inodestart + sb.ninodes / IPB + 1 ≤ sb.bmapstart
  data : sb.nmeta ≤ sb.size
  root : ROOTINO < sb.ninodes
  uint : sb.size < 2 ^ 32
  ushort : sb.ninodes ≤ 2 ^ 16

end Superblock

/-- The superblock that `mkfs` writes. -/
def mkfsSuperblock : Superblock :=
  { size := 2000, ninodes := 200, nlog := LOGSIZE, logstart := 2, inodestart := 2 + LOGSIZE,
    bmapstart := 2 + LOGSIZE + 200 / IPB + 1 }

theorem mkfsSuperblock_wellFormed : mkfsSuperblock.WellFormed := by constructor <;> decide

/-! ## On-disk inodes -/

/-- `struct dinode`.  A free inode has type 0. -/
structure Dinode where
  type : Int16
  major : Int16
  minor : Int16
  nlink : Int16
  size : UInt32
  addrs : Fin (NDIRECT + 1) → UInt32

/-- An inode that `memset` has cleared. -/
def Dinode.zero : Dinode :=
  { type := 0, major := 0, minor := 0, nlink := 0, size := 0, addrs := fun _ => 0 }

/-- The `short` at an offset. -/
def getShort (b : Block) (off : Nat) : Int16 := (UInt16.ofNat (b.getLE off 2)).toInt16

/-- Store a `short` at an offset. -/
def putShort (b : Block) (off : Nat) (v : Int16) : Block := b.putLE off 2 v.toUInt16.toNat

/-- The `uint` at an offset. -/
def getUint (b : Block) (off : Nat) : UInt32 := UInt32.ofNat (b.getLE off 4)

/-- Store a `uint` at an offset. -/
def putUint (b : Block) (off : Nat) (v : UInt32) : Block := b.putLE off 4 v.toNat

/-- The inode number `k` of a block. -/
def getDinode (b : Block) (k : Nat) : Dinode :=
  { type := getShort b (64 * k)
    major := getShort b (64 * k + 2)
    minor := getShort b (64 * k + 4)
    nlink := getShort b (64 * k + 6)
    size := getUint b (64 * k + 8)
    addrs := fun j => getUint b (64 * k + 12 + 4 * j.val) }

/-- Store the inode number `k` of a block. -/
def putDinode (b : Block) (k : Nat) (d : Dinode) : Block :=
  let b := putShort b (64 * k) d.type
  let b := putShort b (64 * k + 2) d.major
  let b := putShort b (64 * k + 4) d.minor
  let b := putShort b (64 * k + 6) d.nlink
  let b := putUint b (64 * k + 8) d.size
  b.putArray (64 * k + 12) 4 (List.ofFn fun j => (d.addrs j).toNat)

/-- The block number in entry `j` of an indirect block. -/
def getEntry (b : Block) (j : Nat) : UInt32 := getUint b (4 * j)

/-- Store a block number in entry `j` of an indirect block. -/
def putEntry (b : Block) (j : Nat) (v : UInt32) : Block := putUint b (4 * j) v

/-! ## Directory entries -/

/-- `struct dirent`, from its bytes: the inode number, 0 for a free entry,
and the name up to its first zero byte. -/
structure Dirent where
  inum : Nat
  name : List UInt8
  deriving DecidableEq

/-- The entry that 16 bytes hold. -/
def Dirent.decode (bytes : List UInt8) : Dirent :=
  { inum := decodeLE (bytes.take 2)
    name := ((bytes.drop 2).take DIRSIZ).takeWhile (· ≠ 0) }

/-- The bytes of an entry; `strncpy` fills the name up with zeros. -/
def Dirent.encode (de : Dirent) : List UInt8 :=
  encodeLE 2 de.inum ++ (de.name.take DIRSIZ ++ List.replicate (DIRSIZ - de.name.length) 0)

/-! ## What is stored is read back -/

section Codec

variable (b : Block)

theorem getShort_putShort_same {off : Nat} (v : Int16) (h : off + 2 ≤ BSIZE) :
    getShort (putShort b off v) off = v := by
  have hlt : v.toUInt16.toNat < 256 ^ 2 := v.toUInt16.toNat_lt
  unfold getShort putShort
  rw [Buf.getLE_putLE_same b _ h, Nat.mod_eq_of_lt hlt]
  simp

theorem getUint_putUint_same {off : Nat} (v : UInt32) (h : off + 4 ≤ BSIZE) :
    getUint (putUint b off v) off = v := by
  have hlt : v.toNat < 256 ^ 4 := v.toNat_lt
  unfold getUint putUint
  rw [Buf.getLE_putLE_same b _ h, Nat.mod_eq_of_lt hlt]
  simp

/-- Storing an inode leaves every field outside its 64 bytes alone. -/
theorem getLE_putDinode_of_disjoint {k off w : Nat} (d : Dinode)
    (h : off + w ≤ 64 * k ∨ 64 * k + 64 ≤ off) : (putDinode b k d).getLE off w = b.getLE off w := by
  unfold putDinode putUint putShort
  rw [Buf.getLE_putArray_of_disjoint _ _ (by simp only [length_ofFn, NDIRECT]; omega)]
  iterate 5 rw [Buf.getLE_putLE_of_disjoint _ _ (by omega)]

theorem getDinode_putDinode_of_ne {k k' : Nat} (d : Dinode) (h : k' ≠ k) :
    getDinode (putDinode b k d) k' = getDinode b k' := by
  have hfield : ∀ off w, 64 * k' ≤ off → off + w ≤ 64 * k' + 64 →
      (putDinode b k d).getLE off w = b.getLE off w := by
    intro off w hlo hhi
    exact getLE_putDinode_of_disjoint b d (by omega)
  have haddrs : ∀ j : Fin (NDIRECT + 1), getUint (putDinode b k d) (64 * k' + 12 + 4 * j.val) =
      getUint b (64 * k' + 12 + 4 * j.val) := by
    intro j
    have hj := j.isLt
    unfold NDIRECT at hj
    rw [getUint, hfield _ _ (by omega) (by omega), getUint]
  unfold getDinode
  simp only [haddrs]
  unfold getShort getUint
  iterate 5 rw [hfield _ _ (by omega) (by omega)]

theorem getDinode_putDinode_same {k : Nat} (d : Dinode) (h : k < IPB) :
    getDinode (putDinode b k d) k = d := by
  have hk : 64 * k + 64 ≤ BSIZE := by
    simp only [IPB, BSIZE] at h ⊢
    omega
  have haddrs : ∀ j : Fin (NDIRECT + 1),
      getUint (putDinode b k d) (64 * k + 12 + 4 * j.val) = d.addrs j := by
    intro j
    have hlt : (d.addrs j).toNat < 256 ^ 4 := (d.addrs j).toNat_lt
    unfold getUint putDinode
    rw [Buf.getLE_putArray _ _ (by simp only [length_ofFn, NDIRECT]; omega)
      (by rw [length_ofFn]; exact j.2)]
    simp only [List.getElem_ofFn, Nat.mod_eq_of_lt hlt, Fin.eta]
    simp
  have hsize : getUint (putDinode b k d) (64 * k + 8) = d.size := by
    unfold putDinode
    rw [getUint, Buf.getLE_putArray_of_disjoint _ _ (by omega)]
    exact getUint_putUint_same _ _ (by omega)
  -- each short field lies below the fields that are stored after it
  have htype : getShort (putDinode b k d) (64 * k) = d.type := by
    unfold putDinode putUint putShort
    rw [getShort, Buf.getLE_putArray_of_disjoint _ _ (by omega)]
    iterate 4 rw [Buf.getLE_putLE_of_disjoint _ _ (by omega)]
    exact getShort_putShort_same _ _ (by omega)
  have hmajor : getShort (putDinode b k d) (64 * k + 2) = d.major := by
    unfold putDinode putUint putShort
    rw [getShort, Buf.getLE_putArray_of_disjoint _ _ (by omega)]
    iterate 3 rw [Buf.getLE_putLE_of_disjoint _ _ (by omega)]
    exact getShort_putShort_same _ _ (by omega)
  have hminor : getShort (putDinode b k d) (64 * k + 4) = d.minor := by
    unfold putDinode putUint putShort
    rw [getShort, Buf.getLE_putArray_of_disjoint _ _ (by omega)]
    iterate 2 rw [Buf.getLE_putLE_of_disjoint _ _ (by omega)]
    exact getShort_putShort_same _ _ (by omega)
  have hnlink : getShort (putDinode b k d) (64 * k + 6) = d.nlink := by
    unfold putDinode putUint putShort
    rw [getShort, Buf.getLE_putArray_of_disjoint _ _ (by omega),
      Buf.getLE_putLE_of_disjoint _ _ (by omega)]
    exact getShort_putShort_same _ _ (by omega)
  unfold getDinode
  simp only [htype, hmajor, hminor, hnlink, hsize, haddrs]

theorem getEntry_putEntry (b : Block) {j j' : Nat} (v : UInt32) (hj : j < NINDIRECT) :
    getEntry (putEntry b j v) j' = if j' = j then v else getEntry b j' := by
  have hfit : 4 * j + 4 ≤ BSIZE := by
    simp only [NINDIRECT, BSIZE] at hj ⊢
    omega
  split
  · rename_i heq
    rw [heq]
    exact getUint_putUint_same b v hfit
  · unfold getEntry putEntry getUint putUint
    rw [Buf.getLE_putLE_of_disjoint _ _ (by omega)]

theorem getEntry_zero (j : Nat) : getEntry (fun _ => 0) j = 0 := by
  simp [getEntry, getUint, Buf.getLE, Buf.read, Buf.get, decodeLE, List.range_succ]

theorem getDinode_zero (k : Nat) : getDinode (fun _ => 0) k = Dinode.zero := by
  simp [getDinode, Dinode.zero, getShort, getUint, Buf.getLE, Buf.read, Buf.get, decodeLE,
    List.range_succ]

theorem Dirent.encode_length (de : Dirent) : de.encode.length = 16 := by
  unfold encode DIRSIZ
  simp only [length_append, encodeLE_length, length_take, length_replicate]
  omega

theorem Dirent.decode_encode_inum (de : Dirent) :
    (Dirent.decode de.encode).inum = de.inum % 2 ^ 16 := by
  unfold decode encode
  have htake : (encodeLE 2 de.inum ++ (de.name.take DIRSIZ ++
      replicate (DIRSIZ - de.name.length) 0)).take 2 = encodeLE 2 de.inum := by
    rw [take_append_of_le_length (by simp)]
    exact take_of_length_le (by simp)
  simp only [htake, decodeLE_encodeLE]
  rfl

/-- An entry with a name that fits is read back. -/
theorem Dirent.decode_encode {de : Dirent} (hinum : de.inum < 2 ^ 16)
    (hlen : de.name.length ≤ DIRSIZ) (hname : ∀ c ∈ de.name, c ≠ 0) :
    Dirent.decode de.encode = de := by
  have hnum : (Dirent.decode de.encode).inum = de.inum := by
    rw [decode_encode_inum, Nat.mod_eq_of_lt hinum]
  have hbytes : (de.encode.drop 2).take DIRSIZ =
      de.name ++ replicate (DIRSIZ - de.name.length) 0 := by
    have hdrop : de.encode.drop 2 = de.name.take DIRSIZ ++
        replicate (DIRSIZ - de.name.length) 0 := drop_left' (encodeLE_length 2 de.inum)
    rw [hdrop, take_of_length_le hlen]
    apply take_of_length_le
    rw [length_append, length_replicate, Nat.add_sub_cancel' hlen]
  have hdecoded : (Dirent.decode de.encode).name = de.name := by
    show ((de.encode.drop 2).take DIRSIZ).takeWhile _ = de.name
    rw [hbytes, takeWhile_append_of_pos (by simpa using hname)]
    cases DIRSIZ - de.name.length with
    | zero => simp
    | succ n => simp [replicate_succ]
  cases hde : Dirent.decode de.encode with
  | mk inum name =>
    rw [hde] at hnum hdecoded
    cases de
    cases hnum
    cases hdecoded
    rfl

end Codec

end Fs

end Xv6
