import Xv6.Fs.Inode

/-!
# Directories and paths

The last two layers of `kernel/fs.c`.  A name is a list of at most `DIRSIZ`
bytes without a zero, and a path is a list of bytes.
-/

namespace Xv6

open Lib

namespace Fs

/-! ## Directories -/

/-- A destination in the kernel, which can always be written. -/
def kernelDst : Nat → Bool := fun _ => true

/-- A source in the kernel. -/
def kernelSrc (bytes : List UInt8) : Nat → Option UInt8 := fun i => bytes[i]?

/-- The number of rounds of a loop over the entries of a directory. -/
def direntCount (size : Nat) : Nat := (size + 15) / 16

/-- `namecmp`: compare two names up to `DIRSIZ` bytes. -/
def namecmp (s t : List UInt8) : Bool := s.take DIRSIZ == t.take DIRSIZ

/-- The loop of `dirlookup` over `n` entries from `off` on.  The result is
the inode and the offset of its entry. -/
def dirlookupFrom (dp : Nat) (name : List UInt8) (off : Nat) : Nat → FsM (Option (Nat × Nat))
  | 0 => return none
  | n + 1 => do
    let r ← readi dp kernelDst off 16
    if r.1 ≠ 16 then
      Prog.fail .dirlookupRead
    else
      let de := Dirent.decode r.2
      if de.inum = 0 then
        dirlookupFrom dp name (off + 16) n
      else if namecmp name de.name then
        let ip ← iget de.inum
        return some (ip, off)
      else
        dirlookupFrom dp name (off + 16) n

/-- `dirlookup`. -/
def dirlookup (dp : Nat) (name : List UInt8) : FsM (Option (Nat × Nat)) := do
  let i ← Prog.read fun s => s.itable dp
  if i.type ≠ T_DIR then
    Prog.fail .dirlookupNotDir
  else
    dirlookupFrom dp name 0 (direntCount i.size.toNat)

/-- The loop of `dirlink` that looks for a free entry: its offset, or the
end of the directory. -/
def dirlinkFrom (dp : Nat) (off : Nat) : Nat → FsM Nat
  | 0 => return off
  | n + 1 => do
    let r ← readi dp kernelDst off 16
    if r.1 ≠ 16 then
      Prog.fail .dirlinkRead
    else if (Dirent.decode r.2).inum = 0 then
      return off
    else
      dirlinkFrom dp (off + 16) n

/-- `dirlink`. -/
def dirlink (p : Fin NPROC) (dp : Nat) (name : List UInt8) (inum : Nat) : FsM Int := do
  let found ← dirlookup dp name
  match found with
  | some (ip, _) =>
    iput p ip
    return -1
  | none =>
    let size ← Prog.read fun s => (s.itable dp).size.toNat
    let off ← dirlinkFrom dp 0 (direntCount size)
    let de : Dirent := { inum := inum, name := name }
    let r ← writei dp (kernelSrc de.encode) off 16
    return if r ≠ 16 then -1 else 0

/-! ## Paths -/

/-- The byte `/`. -/
def slash : UInt8 := 47

/-- `skipelem`: the first element of a path and the rest, which starts with
an element; `none` when there is no element. -/
def skipelem (path : List UInt8) : Option (List UInt8 × List UInt8) :=
  match path.dropWhile (· = slash) with
  | [] => none
  | s => some ((s.takeWhile (· ≠ slash)).take DIRSIZ,
      (s.dropWhile (· ≠ slash)).dropWhile (· = slash))

/-- The loop of `namex`, from the inode `ip` on.  The results are the inode
and the last element.  Every round takes an element off the path, so that
the length of the path bounds the number of rounds. -/
def namexFrom (p : Fin NPROC) (parent : Bool) :
    Nat → Nat → List UInt8 → List UInt8 → FsM (Option Nat × List UInt8)
  | 0, _, _, _ => .spin
  | fuel + 1, ip, path, name =>
    match skipelem path with
    | none =>
      if parent then do
        iput p ip
        return (none, name)
      else
        return (some ip, name)
    | some (name, path) => do
      ilock p ip
      let type ← Prog.read fun s => (s.itable ip).type
      if type ≠ T_DIR then
        iunlockput p ip
        return (none, name)
      else if parent && path.isEmpty then
        iunlock p ip
        return (some ip, name)
      else
        let next ← dirlookup ip name
        match next with
        | none =>
          iunlockput p ip
          return (none, name)
        | some (next, _) =>
          iunlockput p ip
          namexFrom p parent fuel next path name

/-- `namex`. -/
def namex (p : Fin NPROC) (parent : Bool) (path : List UInt8) :
    FsM (Option Nat × List UInt8) := do
  let ip ← (if path.head? = some slash then iget ROOTINO else do
    let cwd ← Prog.read fun s => (s.files p).cwd
    idup cwd
    pure cwd)
  namexFrom p parent (path.length + 1) ip path []

/-- `namei`. -/
def namei (p : Fin NPROC) (path : List UInt8) : FsM (Option Nat) := do
  let r ← namex p false path
  return r.1

/-- `nameiparent`. -/
def nameiparent (p : Fin NPROC) (path : List UInt8) : FsM (Option Nat × List UInt8) :=
  namex p true path

end Fs

end Xv6
