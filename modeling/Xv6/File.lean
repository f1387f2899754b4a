import Xv6.Params

/-!
# The file table

`struct file` of `kernel/file.h` and the functions of `kernel/file.c` that
work on the table alone.  A file is named by its index in the table; a
pipe is named by the address of its page, an inode by its index in the
inode table.
-/

namespace Xv6

open Function

/-- The `type` field of `struct file`. -/
inductive FdType where
  | none
  | pipe
  | pipeRt
  | inode
  | device
  deriving DecidableEq, Repr

/-- `struct file`.  `writable` is a `char`: `sys_open` stores the two
write bits of the open mode in it. -/
structure File where
  type : FdType
  ref : Nat
  readable : Bool
  writable : UInt8
  pipe : Nat
  ip : Nat
  off : UInt32
  major : Int16
  deriving DecidableEq, Repr

/-- `ftable.file`. -/
abbrev Ftable := Fin NFILE → File

/-- `filealloc`: take the first entry whose reference count is zero. -/
def filealloc (ft : Ftable) : Option (Fin NFILE × Ftable) :=
  match (List.finRange NFILE).find? fun i => (ft i).ref = 0 with
  | none => none
  | some i => some (i, update ft i { ft i with ref := 1 })

/-- The part of `fileclose` under `ftable.lock`: drop a reference, and
when it was the last one clear the entry and hand back what it held. -/
def filecloseTable (ft : Ftable) (i : Fin NFILE) :
    Except Panic (Option File × Ftable) :=
  if (ft i).ref < 1 then
    .error .fileclose
  else if (ft i).ref - 1 > 0 then
    .ok (none, update ft i { ft i with ref := (ft i).ref - 1 })
  else
    .ok (some (ft i), update ft i { ft i with ref := 0, type := .none })

end Xv6
