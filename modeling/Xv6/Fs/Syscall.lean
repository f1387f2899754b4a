import Xv6.Fs.Dir

/-!
# System calls on files

`kernel/file.c`, `kernel/sysfile.c`, `proj5/kernel/getfilesize.c` and the
parts of `exec` and `exit` that use the file system.

A call carries what user memory contributes to it: a path is `none` where
`argstr` fails, `src i` is the byte number `i` of a user buffer or `none`
where it cannot be read, `dst i` says whether byte number `i` can be
written.  The results of pipes and device drivers are part of the call too.
-/

namespace Xv6

open Lib Function

namespace Fs

abbrev Path := List UInt8

/-! ## Files -/

/-- `argfd`. -/
def argfd (p : Fin NPROC) (fd : Int) : FsM (Option (Fin NOFILE × Fin NFILE)) :=
  Prog.read fun s =>
    if h : 0 ≤ fd ∧ fd < NOFILE then
      let i : Fin NOFILE := ⟨fd.toNat, by omega⟩
      ((s.files p).ofile i).map fun f => (i, f)
    else
      none

/-- Set a file descriptor. -/
def Kernel.setOfile (s : Kernel) (p : Fin NPROC) (fd : Fin NOFILE)
    (f : Option (Fin NFILE)) : Kernel :=
  let files := { s.files p with ofile := update (s.files p).ofile fd f }
  { s with files := update s.files p files }

/-- Set the current directory. -/
def Kernel.setCwd (s : Kernel) (p : Fin NPROC) (ip : Nat) : Kernel :=
  { s with files := update s.files p { s.files p with cwd := ip } }

/-- `fdalloc`. -/
def fdalloc (p : Fin NPROC) (f : Fin NFILE) : FsM (Option (Fin NOFILE)) :=
  Prog.act fun s =>
    match (List.finRange NOFILE).find? fun fd => (s.files p).ofile fd = none with
    | none => .done none s none
    | some fd => .done (some fd) (s.setOfile p fd (some f)) none

/-- `filealloc`. -/
def filealloc : FsM (Option (Fin NFILE)) :=
  Prog.act fun s =>
    match Xv6.filealloc s.ftable with
    | none => .done none s none
    | some (f, ft) => .done (some f) { s with ftable := ft } none

/-- Change an entry of the file table. -/
def Kernel.setFile (s : Kernel) (f : Fin NFILE) (v : File) : Kernel :=
  { s with ftable := update s.ftable f v }

/-- `filedup`. -/
def filedup (f : Fin NFILE) : FsM Unit :=
  Prog.act fun s =>
    if (s.ftable f).ref < 1 then
      .panic .filedup
    else
      .done () (s.setFile f { s.ftable f with ref := (s.ftable f).ref + 1 }) none

/-- `fileclose`.  Closing a pipe does not touch the file system. -/
def fileclose (p : Fin NPROC) (f : Fin NFILE) : FsM Unit := do
  let ff ← Prog.act fun s =>
    match filecloseTable s.ftable f with
    | .error e => .panic e
    | .ok (ff, ft) => .done ff { s with ftable := ft } none
  match ff with
  | none => return ()
  | some ff =>
    if ff.type = .inode ∨ ff.type = .device then
      beginOp
      iput p ff.ip
      endOp
    else
      return ()

/-- `filestat`; `ok` says whether the copy to the user succeeds. -/
def filestat (p : Fin NPROC) (f : Fin NFILE) (ok : Bool) : FsM Int := do
  let file ← Prog.read fun s => s.ftable f
  if file.type = .inode ∨ file.type = .device then
    ilock p file.ip
    iunlock p file.ip
    return if ok then 0 else -1
  else
    return -1

/-- Whether a device has a driver. -/
def Kernel.hasDriver (s : Kernel) (major : Int16) : Bool :=
  decide (0 ≤ major.toInt ∧ major.toInt < NDEV) && s.devsw major.toInt.toNat

/-- `fileread`; `other` is the result of a pipe or a driver. -/
def fileread (p : Fin NPROC) (f : Fin NFILE) (dst : Nat → Bool) (n other : Int) :
    FsM Int := do
  let file ← Prog.read fun s => s.ftable f
  if file.readable = false then
    return -1
  else
    match file.type with
    | .pipe | .pipeRt => return other
    | .inode =>
      ilock p file.ip
      let off ← Prog.read fun s => (s.ftable f).off
      let r ← readi file.ip dst off.toNat (n % 2 ^ 32).toNat
      Prog.modify fun s =>
        if r.1 > 0 then
          s.setFile f { s.ftable f with off := off + UInt32.ofNat r.1.toNat }
        else
          s
      iunlock p file.ip
      return r.1
    | .device =>
      let ok ← Prog.read fun s => s.hasDriver file.major
      return if ok then other else -1
    | .none => Prog.fail .fileread

/-- The bytes that `filewrite` hands to one `writei`. -/
def writeMax : Nat := ((MAXOPBLOCKS - 1 - 1 - 2) / 2) * BSIZE

/-- The loop of `filewrite`, from byte `i` of `n` on.  A `writei` that
writes nothing and does not fail leaves the loop where it was; `rounds`
bounds how far the model follows it. -/
def filewriteFrom (f : Fin NFILE) (ip : Nat) (src : Nat → Option UInt8) (n : Nat) :
    Nat → Nat → FsM Nat
  | 0, i => if i < n then .spin else return i
  | rounds + 1, i =>
    if i < n then do
      let off ← Prog.read fun s => (s.ftable f).off
      let r ← writei ip (fun j => src (i + j)) off.toNat (min (n - i) writeMax)
      if r < 0 then
        return i
      else
        Prog.modify fun s =>
          s.setFile f { s.ftable f with off := (s.ftable f).off + UInt32.ofNat r.toNat }
        filewriteFrom f ip src n rounds (i + r.toNat)
    else
      return i

/-- `filewrite`.  `f->writable` is a `char`, which has no bit for
`O_APPEND`. -/
def filewrite (p : Fin NPROC) (f : Fin NFILE) (src : Nat → Option UInt8) (n other : Int)
    (rounds : Nat) : FsM Int := do
  let file ← Prog.read fun s => s.ftable f
  if file.writable = 0 then
    return -1
  else
    match file.type with
    | .pipe | .pipeRt => return other
    | .inode =>
      beginOp
      ilock p file.ip
      Prog.modify fun s =>
        if file.writable.toUInt32 &&& O_APPEND ≠ 0 then
          s.setFile f { s.ftable f with off := (s.itable file.ip).size }
        else
          s
      let i ← filewriteFrom f file.ip src n.toNat rounds 0
      iunlock p file.ip
      endOp
      return if (i : Int) = n then n else -1
    | .device =>
      let ok ← Prog.read fun s => s.hasDriver file.major
      return if ok then other else -1
    | .none => return -1

/-! ## `sysfile.c` -/

/-- `sys_dup`. -/
def sysDup (p : Fin NPROC) (fd : Int) : FsM Int := do
  let a ← argfd p fd
  match a with
  | none => return -1
  | some (_, f) =>
    let r ← fdalloc p f
    match r with
    | none => return -1
    | some fd =>
      filedup f
      return fd.val

/-- `sys_read`. -/
def sysRead (p : Fin NPROC) (fd : Int) (dst : Nat → Bool) (n other : Int) : FsM Int := do
  let a ← argfd p fd
  match a with
  | none => return -1
  | some (_, f) => fileread p f dst n other

/-- `sys_write`. -/
def sysWrite (p : Fin NPROC) (fd : Int) (src : Nat → Option UInt8) (n other : Int)
    (rounds : Nat) : FsM Int := do
  let a ← argfd p fd
  match a with
  | none => return -1
  | some (_, f) =>
    let writable ← Prog.read fun s => (s.ftable f).writable
    if writable = 0 then
      return -1
    else
      filewrite p f src n other rounds

/-- `sys_close`. -/
def sysClose (p : Fin NPROC) (fd : Int) : FsM Int := do
  let a ← argfd p fd
  match a with
  | none => return -1
  | some (fd, f) =>
    Prog.modify fun s => s.setOfile p fd none
    fileclose p f
    return 0

/-- `sys_fstat`. -/
def sysFstat (p : Fin NPROC) (fd : Int) (ok : Bool) : FsM Int := do
  let a ← argfd p fd
  match a with
  | none => return -1
  | some (_, f) => filestat p f ok

/-- Change the link count of an inode. -/
def setNlink (ip : Nat) (f : Int16 → Int16) : FsM Unit :=
  Prog.modify fun s => s.setInode ip { s.itable ip with nlink := f (s.itable ip).nlink }

/-- The label `bad` of `sys_link`. -/
def linkBad (p : Fin NPROC) (ip : Nat) : FsM Int := do
  ilock p ip
  setNlink ip (· - 1)
  iupdate ip
  iunlockput p ip
  endOp
  return -1

/-- `sys_link`. -/
def sysLink (p : Fin NPROC) (old new : Option Path) : FsM Int :=
  match old, new with
  | some old, some new => do
    beginOp
    let r ← namei p old
    match r with
    | none =>
      endOp
      return -1
    | some ip =>
      ilock p ip
      let type ← Prog.read fun s => (s.itable ip).type
      if type = T_DIR then
        iunlockput p ip
        endOp
        return -1
      else
        setNlink ip (· + 1)
        iupdate ip
        iunlock p ip
        let d ← nameiparent p new
        match d.1 with
        | none => linkBad p ip
        | some dp =>
          ilock p dp
          let inum ← Prog.read fun s => (s.itable ip).inum
          let r ← dirlink p dp d.2 inum
          if r < 0 then
            iunlockput p dp
            linkBad p ip
          else
            iunlockput p dp
            iput p ip
            endOp
            return 0
  | _, _ => return -1

/-- The loop of `isdirempty` over `n` entries from `off` on. -/
def isdiremptyFrom (dp : Nat) (off : Nat) : Nat → FsM Bool
  | 0 => return true
  | n + 1 => do
    let r ← readi dp kernelDst off 16
    if r.1 ≠ 16 then
      Prog.fail .isdiremptyReadi
    else if (Dirent.decode r.2).inum ≠ 0 then
      return false
    else
      isdiremptyFrom dp (off + 16) n

/-- `isdirempty`: no entries after the first two. -/
def isdirempty (dp : Nat) : FsM Bool := do
  let size ← Prog.read fun s => (s.itable dp).size.toNat
  isdiremptyFrom dp 32 (direntCount (size - 32))

/-- The names `.` and `..`. -/
def dot : List UInt8 := [46]
def dotdot : List UInt8 := [46, 46]

/-- The label `bad` of `sys_unlink`. -/
def unlinkBad (p : Fin NPROC) (dp : Nat) : FsM Int := do
  iunlockput p dp
  endOp
  return -1

/-- The part of `sys_unlink` after the last check. -/
def unlinkEntry (p : Fin NPROC) (dp ip off : Nat) (type : Int16) : FsM Int := do
  let r ← writei dp (kernelSrc (List.replicate 16 0)) off 16
  if r ≠ 16 then
    Prog.fail .unlinkWritei
  else
    (if type = T_DIR then do
      setNlink dp (· - 1)
      iupdate dp
    else
      pure ())
    iunlockput p dp
    setNlink ip (· - 1)
    iupdate ip
    iunlockput p ip
    endOp
    return 0

/-- `sys_unlink`. -/
def sysUnlink (p : Fin NPROC) (path : Option Path) : FsM Int :=
  match path with
  | none => return -1
  | some path => do
    beginOp
    let d ← nameiparent p path
    match d.1 with
    | none =>
      endOp
      return -1
    | some dp =>
      ilock p dp
      if namecmp d.2 dot || namecmp d.2 dotdot then
        unlinkBad p dp
      else
        let found ← dirlookup dp d.2
        match found with
        | none => unlinkBad p dp
        | some (ip, off) =>
          ilock p ip
          let i ← Prog.read fun s => s.itable ip
          if i.nlink < 1 then
            Prog.fail .unlinkNlink
          else if i.type = T_DIR then
            let empty ← isdirempty ip
            if empty then
              unlinkEntry p dp ip off i.type
            else
              iunlockput p ip
              unlinkBad p dp
          else
            unlinkEntry p dp ip off i.type

/-- The label `fail` of `create`. -/
def createFail (p : Fin NPROC) (dp ip : Nat) : FsM (Option Nat) := do
  setNlink ip fun _ => 0
  iupdate ip
  iunlockput p ip
  iunlockput p dp
  return none

/-- The part of `create` that enters the new inode `ip` in its parent. -/
def createEntry (p : Fin NPROC) (dp ip : Nat) (name : List UInt8) (type : Int16) :
    FsM (Option Nat) := do
  let inum ← Prog.read fun s => (s.itable ip).inum
  let r ← dirlink p dp name inum
  if r < 0 then
    createFail p dp ip
  else
    (if type = T_DIR then do
      setNlink dp (· + 1)
      iupdate dp
    else
      pure ())
    iunlockput p dp
    return some ip

/-- The part of `create` that fills the new inode `ip`. -/
def createNew (p : Fin NPROC) (dp ip : Nat) (name : List UInt8) (type major minor : Int16) :
    FsM (Option Nat) := do
  ilock p ip
  Prog.modify fun s =>
    s.setInode ip { s.itable ip with major := major, minor := minor, nlink := 1 }
  iupdate ip
  if type = T_DIR then
    let inum ← Prog.read fun s => (s.itable ip).inum
    let r ← dirlink p ip dot inum
    if r < 0 then
      createFail p dp ip
    else
      let parent ← Prog.read fun s => (s.itable dp).inum
      let r ← dirlink p ip dotdot parent
      if r < 0 then
        createFail p dp ip
      else
        createEntry p dp ip name type
  else
    createEntry p dp ip name type

/-- `create`: the inode of a new or existing file, locked. -/
def create (p : Fin NPROC) (path : Path) (type major minor : Int16) : FsM (Option Nat) := do
  let d ← nameiparent p path
  match d.1 with
  | none => return none
  | some dp =>
    ilock p dp
    let found ← dirlookup dp d.2
    match found with
    | some (ip, _) =>
      iunlockput p dp
      ilock p ip
      let old ← Prog.read fun s => (s.itable ip).type
      if type = T_FILE ∧ (old = T_FILE ∨ old = T_DEVICE) then
        return some ip
      else
        iunlockput p ip
        return none
    | none =>
      let r ← ialloc type
      match r with
      | none =>
        iunlockput p dp
        return none
      | some ip => createNew p dp ip d.2 type major minor

/-- Give up an open call on the locked inode `ip`. -/
def openFail (p : Fin NPROC) (ip : Nat) : FsM Int := do
  iunlockput p ip
  endOp
  return -1

/-- The part of `sys_open` that fills the file `f`, on the locked inode
`ip`. -/
def openFile (p : Fin NPROC) (ip : Nat) (f : Fin NFILE) (fd : Fin NOFILE) (omode : UInt32) :
    FsM Int := do
  Prog.modify fun s =>
    let i := s.itable ip
    let file := s.ftable f
    let file := if i.type = T_DEVICE then
        { file with type := .device, major := i.major }
      else
        { file with type := .inode, off := if omode &&& O_APPEND ≠ 0 then i.size else 0 }
    s.setFile f { file with ip := ip, readable := omode &&& O_WRONLY = 0,
                            writable := (omode &&& (O_WRONLY ||| O_RDWR)).toUInt8 }
  let type ← Prog.read fun s => (s.itable ip).type
  (if omode &&& O_TRUNC ≠ 0 ∧ type = T_FILE then itrunc ip else pure ())
  iunlock p ip
  endOp
  return fd.val

/-- The part of `sys_open` that allocates a file for the locked inode
`ip`. -/
def openInode (p : Fin NPROC) (ip : Nat) (omode : UInt32) : FsM Int := do
  let i ← Prog.read fun s => s.itable ip
  if i.type = T_DEVICE ∧ (i.major.toInt < 0 ∨ i.major.toInt ≥ NDEV) then
    openFail p ip
  else
    let r ← filealloc
    match r with
    | none => openFail p ip
    | some f =>
      let r ← fdalloc p f
      match r with
      | none =>
        fileclose p f
        openFail p ip
      | some fd => openFile p ip f fd omode

/-- `sys_open`. -/
def sysOpen (p : Fin NPROC) (path : Option Path) (omode : UInt32) : FsM Int :=
  match path with
  | none => return -1
  | some path => do
    beginOp
    if omode &&& O_CREATE ≠ 0 then
      let r ← create p path T_FILE 0 0
      match r with
      | none =>
        endOp
        return -1
      | some ip => openInode p ip omode
    else
      let r ← namei p path
      match r with
      | none =>
        endOp
        return -1
      | some ip =>
        ilock p ip
        let type ← Prog.read fun s => (s.itable ip).type
        if type = T_DIR ∧ omode ≠ O_RDONLY then
          openFail p ip
        else
          openInode p ip omode

/-- `sys_mkdir` and `sys_mknod` from the call of `create` on. -/
def makeNode (p : Fin NPROC) (path : Option Path) (type major minor : Int16) : FsM Int := do
  beginOp
  match path with
  | none =>
    endOp
    return -1
  | some path =>
    let r ← create p path type major minor
    match r with
    | none =>
      endOp
      return -1
    | some ip =>
      iunlockput p ip
      endOp
      return 0

/-- `sys_mkdir`. -/
def sysMkdir (p : Fin NPROC) (path : Option Path) : FsM Int := makeNode p path T_DIR 0 0

/-- `sys_mknod`. -/
def sysMknod (p : Fin NPROC) (path : Option Path) (major minor : Int) : FsM Int :=
  makeNode p path T_DEVICE (Int16.ofInt major) (Int16.ofInt minor)

/-- `sys_chdir`. -/
def sysChdir (p : Fin NPROC) (path : Option Path) : FsM Int := do
  beginOp
  match path with
  | none =>
    endOp
    return -1
  | some path =>
    let r ← namei p path
    match r with
    | none =>
      endOp
      return -1
    | some ip =>
      ilock p ip
      let type ← Prog.read fun s => (s.itable ip).type
      if type ≠ T_DIR then
        iunlockput p ip
        endOp
        return -1
      else
        iunlock p ip
        let cwd ← Prog.read fun s => (s.files p).cwd
        iput p cwd
        endOp
        Prog.modify fun s => s.setCwd p ip
        return 0

/-- `sys_getfilesize`; `ok` says whether the copy to the user succeeds. -/
def sysGetfilesize (p : Fin NPROC) (path : Option Path) (ok : Bool) : FsM Int :=
  match path with
  | none => return -1
  | some path => do
    let r ← namei p path
    match r with
    | none => return -1
    | some ip =>
      ilock p ip
      let type ← Prog.read fun s => (s.itable ip).type
      if type ≠ T_FILE then
        iunlockput p ip
        return -1
      else
        iunlockput p ip
        return if ok then 0 else -1

/-! ## `exec` and `exit` -/

/-- The number in the `w` bytes at an offset of a header. -/
def field (bytes : List UInt8) (off w : Nat) : Nat := decodeLE ((bytes.drop off).take w)

/-- The loop of `loadseg` over `n` pages from page `i` on, of a segment of
`sz` bytes at `off` in the file. -/
def loadsegFrom (ip off sz : Nat) (i : Nat) : Nat → FsM Bool
  | 0 => return true
  | n + 1 => do
    let len := min (sz - i * PGSIZE) PGSIZE
    let r ← readi ip kernelDst ((off + i * PGSIZE) % 2 ^ 32) len
    if r.1 ≠ len then
      return false
    else
      loadsegFrom ip off sz (i + 1) n

/-- The loop of `exec` over `n` program headers.  `grow i` says whether the
address space could be grown for segment `i`. -/
def execSegments (ip : Nat) (grow : Nat → Bool) (off i : Nat) : Nat → FsM Bool
  | 0 => return true
  | n + 1 => do
    let r ← readi ip kernelDst off 56
    if r.1 ≠ 56 then
      return false
    else
      let ph := r.2
      if field ph 0 4 ≠ ELF_PROG_LOAD then
        execSegments ip grow ((off + 56) % 2 ^ 32) (i + 1) n
      else if field ph 40 8 < field ph 32 8 ∨
          (field ph 16 8 + field ph 40 8) % 2 ^ 64 < field ph 16 8 ∨
          field ph 16 8 % PGSIZE ≠ 0 ∨ grow i = false then
        return false
      else
        let sz := field ph 32 8 % 2 ^ 32
        let ok ← loadsegFrom ip (field ph 8 8 % 2 ^ 32) sz 0 ((sz + PGSIZE - 1) / PGSIZE)
        if ok then
          execSegments ip grow ((off + 56) % 2 ^ 32) (i + 1) n
        else
          return false

/-- The part of `exec` that reads the file `ip`, which is locked.  `table`
says whether there is memory for a page table. -/
def execLoad (ip : Nat) (table : Bool) (grow : Nat → Bool) : FsM Bool := do
  let r ← readi ip kernelDst 0 64
  if r.1 ≠ 64 ∨ field r.2 0 4 ≠ ELF_MAGIC ∨ table = false then
    return false
  else
    execSegments ip grow (field r.2 32 8 % 2 ^ 32) 0 (field r.2 56 2)

/-- `exec`; `rest` is the result of the part after the file is closed. -/
def exec (p : Fin NPROC) (path : Option Path) (table : Bool) (grow : Nat → Bool)
    (rest : Int) : FsM Int :=
  match path with
  | none => return -1
  | some path => do
    beginOp
    let r ← namei p path
    match r with
    | none =>
      endOp
      return -1
    | some ip =>
      ilock p ip
      let ok ← execLoad ip table grow
      iunlockput p ip
      endOp
      return if ok then rest else -1

/-- The loop of `exit` over file descriptors. -/
def closeAll (p : Fin NPROC) : List (Fin NOFILE) → FsM Unit
  | [] => return ()
  | fd :: fds => do
    let f ← Prog.read fun s => (s.files p).ofile fd
    (match f with
      | none => pure ()
      | some f => do
        fileclose p f
        Prog.modify fun s => s.setOfile p fd none)
    closeAll p fds

/-- `exit`, as far as it uses the file system. -/
def exit (p : Fin NPROC) : FsM Int := do
  closeAll p (List.finRange NOFILE)
  beginOp
  let cwd ← Prog.read fun s => (s.files p).cwd
  iput p cwd
  endOp
  return 0

/-! ## Calls -/

/-- A system call with its arguments. -/
inductive Call where
  | open (path : Option Path) (omode : UInt32)
  | close (fd : Int)
  | read (fd : Int) (dst : Nat → Bool) (n other : Int)
  | write (fd : Int) (src : Nat → Option UInt8) (n other : Int) (rounds : Nat)
  | dup (fd : Int)
  | fstat (fd : Int) (ok : Bool)
  | link (old new : Option Path)
  | unlink (path : Option Path)
  | mkdir (path : Option Path)
  | mknod (path : Option Path) (major minor : Int)
  | chdir (path : Option Path)
  | exec (path : Option Path) (table : Bool) (grow : Nat → Bool) (rest : Int)
  | exit
  | getfilesize (path : Option Path) (ok : Bool)

/-- The program of a call by process `p`. -/
def Call.prog (p : Fin NPROC) : Call → FsM Int
  | .open path omode => sysOpen p path omode
  | .close fd => sysClose p fd
  | .read fd dst n other => sysRead p fd dst n other
  | .write fd src n other rounds => sysWrite p fd src n other rounds
  | .dup fd => sysDup p fd
  | .fstat fd ok => sysFstat p fd ok
  | .link old new => sysLink p old new
  | .unlink path => sysUnlink p path
  | .mkdir path => sysMkdir p path
  | .mknod path major minor => sysMknod p path major minor
  | .chdir path => sysChdir p path
  | .exec path table grow rest => Fs.exec p path table grow rest
  | .exit => Fs.exit p
  | .getfilesize path ok => sysGetfilesize p path ok

end Fs

end Xv6
