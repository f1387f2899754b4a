import Xv6.Console
import Xv6.Fs.Syscall
import Xv6.Pipe.Model
import Xv6.Sched.Calls

/-!
# Kernel calls that block

One system out of the calls in which a process can sleep for a long time: the
pipes, the priority pipes, the console, `sys_sleep` and `wait`, and the entry
point `fileread` of `kernel/file.c` that leads to four of them.

There is any number of pipes of both kinds, named by their pages; all
priority pipes share the page allocator.  An interrupt wakes the processes
that sleep on its channel one after the other, which are steps `expire` here;
`clockintr` and `consoleintr` otherwise only change the data.  The file
system between two steps of a `fileread`, and the parts of the process table
that `wait` reads, may change in any way.
-/

namespace Xv6.Kern

open Lib Sched

instance : NeZero NFILE := ⟨by decide⟩

/-- The data of all the calls. -/
structure Data where
  kmem : Kmem
  pipe : Nat → Pipe
  pipeRt : Nat → PipeRt.Pipe
  cons : Console.Cons
  ticks : UInt32
  table : Wait.Table
  fs : Fs.Kernel

/-- What a process can sleep on. -/
inductive Chan where
  | pipe (page : Nat) (c : Pipe.Chan)
  | pipeRt (page : Nat)
  | cons
  | ticks
  | proc (p : Fin NPROC)
  deriving DecidableEq, Repr

/-- The spinlocks. -/
inductive Lock where
  | pipe (page : Nat)
  | pipeRt (page : Nat)
  | cons
  | ticks
  | wait
  deriving DecidableEq, Repr

/-- The points of `fileread` outside pipes and drivers.  `ilock`, `bmap` and
`iunlock` are programs of steps, of which the location holds the rest; `off`,
`tot` and `m` are the variables of `readi`. -/
inductive FileAt where
  /-- the test of `f->readable` and the switch on `f->type` -/
  | enter
  /-- `ilock(f->ip)` -/
  | ilock (rest : Fs.FsM Unit)
  /-- the tests at the start of `readi` -/
  | readi
  /-- the condition of the loop of `readi` -/
  | loop (off tot m : Nat)
  /-- `bmap(ip, off/BSIZE)` -/
  | bmap (off tot m : Nat) (rest : Fs.FsM Nat)
  /-- `bread` of the block -/
  | bread (off tot m addr : Nat)
  /-- `either_copyout` of the part of the block -/
  | copyout (off tot m : Nat) (bytes : List UInt8)
  /-- `f->off += r` -/
  | advance (r : Int)
  /-- `iunlock(f->ip)` -/
  | iunlock (r : Int) (rest : Fs.FsM Unit)

/-- Where a process is. -/
inductive Loc where
  | pipe (page : Nat) (loc : Pipe.Loc)
  | pipeRt (page : Nat) (loc : PipeRt.Loc)
  | cons (loc : Console.Loc)
  | ticks (loc : SysSleep.Loc)
  | wait (loc : Wait.Loc)
  | fileread (f : Fin NFILE) (ip addr : Nat) (n : Int) (at_ : FileAt)
  | returned (r : Int)

/-- What the rest of the kernel does. -/
inductive Env where
  | kmem (k : Kmem)
  | clockintr
  | consoleintr (c : UInt8)
  | table (t : Wait.Table)
  | fs (s : Fs.Kernel)

abbrev State := Sched.State Data Loc Chan Lock

abbrev Label := Sched.Label Loc Env

/-- The state of a priority pipe within the data. -/
def Data.getPipeRt (page : Nat) (d : Data) : PipeRt.Data where
  kmem := d.kmem
  pipe := d.pipeRt page

def Data.setPipeRt (page : Nat) (d : Data) (x : PipeRt.Data) : Data :=
  { d with kmem := x.kmem, pipeRt := Function.update d.pipeRt page x.pipe }

def Data.setPipe (page : Nat) (d : Data) (x : Pipe) : Data :=
  { d with pipe := Function.update d.pipe page x }

/-- One step of a program of the file system: what is left of it, or its
result. -/
def fsStep {α : Type} (prog : Fs.FsM α) (rest : Fs.FsM α → Loc) (done : α → Loc) (d : Data) :
    Option (Data × Loc) :=
  match prog with
  | .ret a => some (d, done a)
  | .step _ effect next =>
    match effect d.fs with
    | .ok s => some ({ d with fs := s }, rest (next d.fs))
    | .block | .panic _ => none
  | .spin => none

/-- `fileread(f, addr, n)`. -/
def fileread (f : Fin NFILE) (ip addr : Nat) (n : Int) : FileAt → Instr Data Loc Chan Lock
  | .enter => .access fun p d =>
      let file := d.fs.ftable f
      if file.readable = false then
        some (d, .returned (-1))
      else
        match file.type with
        | .pipe => some (d, .pipe file.pipe (.read addr n 0 .enter))
        | .pipeRt => some (d, .pipeRt file.pipe (.read addr n .enter))
        | .inode => some (d, .fileread f file.ip addr n (.ilock (Fs.ilock p file.ip)))
        | .device => some (d,
            if d.fs.hasDriver file.major then .cons (.read n addr n .enter)
            else .returned (-1))
        | .none => none
  | .ilock rest => .access fun _ => fsStep rest (fun rest => .fileread f ip addr n (.ilock rest))
      (fun _ => .fileread f ip addr n .readi)
  | .readi => .access fun _ d => some (d,
      let off := (d.fs.ftable f).off.toNat
      let size := (d.fs.itable ip).size.toNat
      let m := (n % 2 ^ 32).toNat
      if off > size ∨ (off + m) % 2 ^ 32 < off then
        .fileread f ip addr n (.advance 0)
      else
        .fileread f ip addr n (.loop off 0 (if off + m > size then size - off else m)))
  | .loop off tot m => .access fun _ d => some (d,
      if tot < m then .fileread f ip addr n (.bmap off tot m (Fs.bmap ip (off / BSIZE)))
      else .fileread f ip addr n (.advance tot))
  | .bmap off tot m rest => .access fun _ => fsStep rest
      (fun rest => .fileread f ip addr n (.bmap off tot m rest))
      (fun b => .fileread f ip addr n (if b = 0 then .advance tot else .bread off tot m b))
  | .bread off tot m b => .access fun _ d => some (d,
      .fileread f ip addr n (.copyout off tot m ((d.fs.cache b).read (off % BSIZE)
        (min (m - tot) (BSIZE - off % BSIZE)))))
  | .copyout off tot m bytes => .copyout ((addr + tot) % 2 ^ 64) bytes fun ok =>
      .fileread f ip addr n
        (if ok then .loop (off + bytes.length) (tot + bytes.length) m else .advance (-1))
  | .advance r => .access fun p d =>
      let file := d.fs.ftable f
      let fs := if r > 0 then
          d.fs.setFile f { file with off := file.off + UInt32.ofNat r.toNat }
        else d.fs
      some ({ d with fs := fs }, .fileread f ip addr n (.iunlock r (Fs.iunlock p ip)))
  | .iunlock r rest => .access fun _ => fsStep rest
      (fun rest => .fileread f ip addr n (.iunlock r rest))
      (fun _ => .returned r)

/-- The code of all the calls. -/
def code : Code Data Loc Chan Lock Env where
  instr
    | .pipe page loc => (Pipe.code.instr loc).map (·.pipe page) (Data.setPipe page)
        (.pipe page) (.pipe page) (fun _ => .pipe page)
    | .pipeRt page loc => (PipeRt.code.instr loc).map (Data.getPipeRt page)
        (Data.setPipeRt page) (.pipeRt page) (fun _ => .pipeRt page) (fun _ => .pipeRt page)
    | .cons loc => (Console.code.instr loc).map Data.cons
        (fun d x => { d with cons := x }) .cons (fun _ => .cons) (fun _ => .cons)
    | .ticks loc => (SysSleep.code.instr loc).map Data.ticks
        (fun d x => { d with ticks := x }) .ticks (fun _ => .ticks) (fun _ => .ticks)
    | .wait loc => (Wait.code.instr loc).map Data.table
        (fun d x => { d with table := x }) .wait .proc (fun _ => .wait)
    | .fileread f ip addr n a => fileread f ip addr n a
    | .returned r => .ret r
  entry
    | .pipe _ loc => Pipe.code.entry loc
    | .pipeRt _ loc => PipeRt.code.entry loc
    | .cons loc => Console.code.entry loc
    | .ticks loc => SysSleep.code.entry loc
    | .wait loc => Wait.code.entry loc
    | .fileread _ _ _ _ .enter => true
    | _ => false
  env
    | .kmem k, d => { d with kmem := k }
    | .clockintr, d => { d with ticks := d.ticks + 1 }
    | .consoleintr c, d => { d with cons := Console.consoleintr c d.cons }
    | .table t, d => { d with table := t }
    | .fs s, d => { d with fs := s }

/-- Data to start from: fresh pipes, an empty disk, and a file table whose
entries are readable files of the given type. -/
def Data.boot (type : FdType) : Data where
  kmem := ⟨0x80000000, [0x80001000, 0x80002000]⟩
  pipe _ := Pipe.init fun _ => 0
  pipeRt _ := PipeRt.Pipe.init
  cons := { buf := fun _ => 0, r := 0, w := 0, e := 0 }
  ticks := 0
  table _ := { parent := none, zombie := false, pid := 0, xstate := 0 }
  fs :=
    { sb := Fs.mkfsSuperblock
      cache := fun _ _ => 0
      itable := fun _ =>
        { toDinode := Fs.Dinode.zero, inum := 0, ref := 0, lock := none, valid := false }
      ftable := fun _ =>
        { type := type, ref := 1, readable := true, writable := 0, pipe := 0, ip := 0,
          off := 0, major := 1 }
      files := fun _ => { ofile := fun _ => none, cwd := 0 }
      devsw := fun _ => true }

end Xv6.Kern
