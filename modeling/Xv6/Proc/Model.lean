import Xv6.Lib.Run
import Xv6.Vm.Uvm

/-!
# Processes and their memory

The parts of `kernel/proc.c`, `kernel/exec.c` and `proj4/kernel/shm.c` that
manage the address spaces of processes: `allocproc`, `freeproc`,
`userinit`, `growproc`, `fork`, `exit`, `wait`, `exec` and the three
functions of the shared page.

A system call is one step.  The state is the process table, the free pages
and the shared page.  `torn` records every call of `proc_freepagetable`
with its arguments; no function reads it.  Files, directories, names, saved
registers and scheduling are left out, and what the file system gives to
`exec` is part of the call.
-/

namespace Xv6

open Lib

/-! ## The process table -/

/-- `p->state`.  A process that can make calls is `runnable`; whether it is
running or asleep does not matter here. -/
inductive ProcState where
  | unused
  | used
  | runnable
  | zombie
  deriving DecidableEq, Repr

/-- `struct proc`.  `trapframe` is 0 when there is none. -/
structure Proc where
  state : ProcState
  pid : Nat
  parent : Option (Fin NPROC)
  killed : Bool
  trapframe : Nat
  pagetable : Option PageTable
  sz : Nat

/-- A slot that `freeproc` has cleared. -/
def Proc.free : Proc :=
  { state := .unused, pid := 0, parent := none, killed := false, trapframe := 0,
    pagetable := none, sz := 0 }

/-- The state of the system. -/
structure World where
  kmem : Kmem
  proc : Fin NPROC → Proc
  nextpid : Nat
  initproc : Fin NPROC
  /-- The physical address of the trampoline code. -/
  trampoline : Nat
  shmMemory : Nat
  shmRefs : Int
  torn : List (PageTable × Nat)

/-- Why a call does not come back: one of the source's panics, a panic
inside `proc_freepagetable` with the arguments of that call, or a store of
`wait` that goes astray.  The page that such a store changes may hold
page-table entries or links of the free list by then, and the model ends
there. -/
inductive Halt where
  | panic (p : Panic)
  | tearDown (pt : PageTable) (sz : Nat) (p : Panic)
  | strayStore

instance : MonadLift (Except Panic) (Except Halt) where
  monadLift x := x.mapError .panic

/-! ## Loading a program -/

/-- A program header, and how many leading pages of the segment the file
system delivers in full. -/
structure Segment where
  type : Nat
  flags : Nat
  vaddr : Nat
  filesz : Nat
  memsz : Nat
  reads : Nat

/-- What `exec` reads from the file: the magic number, and the program
headers in order.  `none` is a short read. -/
structure Image where
  magic : Option Nat
  phdrs : List (Option Segment)

/-- What `sys_exec` fetches for one argument pointer that is not null: a
string of the given length, or a bad pointer or string. -/
inductive Arg where
  | str (len : Nat)
  | badPointer
  | badString

/-- The loop of `loadseg` over `n` pages from page `i` on. -/
def loadseg (pt : PageTable) (seg : Segment) (i : Nat) : Nat → Except Panic Bool
  | 0 => return true
  | n + 1 =>
    match walkaddr pt (seg.vaddr + i * PGSIZE) with
    | none => throw .loadsegAddressShouldExist
    | some _ => if i < seg.reads then loadseg pt seg (i + 1) n else return false

/-- The loop of `exec` over the program headers.  The results are whether
all went well, the size so far, the page table and the free pages. -/
def loadSegments (pt : PageTable) (sz : Nat) (k : Kmem) :
    List (Option Segment) → Except Panic (Bool × Nat × PageTable × Kmem)
  | [] => return (true, sz, pt, k)
  | none :: _ => return (false, sz, pt, k)
  | some seg :: rest =>
    if seg.type ≠ ELF_PROG_LOAD then
      loadSegments pt sz k rest
    else if seg.memsz < seg.filesz ∨ (seg.vaddr + seg.memsz) % 2 ^ 64 < seg.vaddr ∨
        seg.vaddr % PGSIZE ≠ 0 then
      return (false, sz, pt, k)
    else do
      let r ← uvmalloc pt sz (seg.vaddr + seg.memsz) (seg.flags / 2 % 2 = 1) (seg.flags % 2 = 1) k
      if r.1 = 0 then
        return (false, sz, r.2.1, r.2.2)
      else
        let ok ← loadseg r.2.1 seg 0 (npages (seg.filesz % 2 ^ 32))
        if ok then
          loadSegments r.2.1 r.1 r.2.2 rest
        else
          return (false, r.1, r.2.1, r.2.2)

/-- The loop of `exec` that pushes the argument strings, and the push of
the pointers to them.  The result is whether all went well. -/
def pushArgs (pt : PageTable) (stackbase : Nat) : Nat → Nat → List Nat → Bool
  | argc, sp, [] =>
    let sp := (sp - (argc + 1) * 8) / 16 * 16
    stackbase ≤ sp && copyout pt sp ((argc + 1) * 8)
  | argc, sp, len :: rest =>
    if argc ≥ MAXARG then
      false
    else
      let sp := (sp - (len + 1)) / 16 * 16
      stackbase ≤ sp && copyout pt sp (len + 1) && pushArgs pt stackbase (argc + 1) sp rest

/-- The part of `exec` after the segments: the stack and the arguments. -/
def buildStack (pt : PageTable) (sz : Nat) (k : Kmem) (lens : List Nat) :
    Except Panic (Bool × Nat × PageTable × Kmem) := do
  let sz := pgroundup sz
  let r ← uvmalloc pt sz (sz + (USERSTACK + 1) * PGSIZE) true false k
  if r.1 = 0 then
    return (false, sz, r.2.1, r.2.2)
  else
    let pt ← uvmclear r.2.1 (r.1 - (USERSTACK + 1) * PGSIZE) r.2.2
    return (pushArgs pt (r.1 - USERSTACK * PGSIZE) 0 r.1 lens, r.1, pt, r.2.2)

namespace World

/-- The state before the first process. -/
def boot (k : Kmem) (trampoline : Nat) : World :=
  { kmem := k, proc := fun _ => .free, nextpid := 1,
    initproc := ⟨0, NPROC_pos⟩, trampoline := trampoline, shmMemory := 0, shmRefs := 0,
    torn := [] }

/-- Change one slot of the process table. -/
def setProc (w : World) (p : Fin NPROC) (pr : Proc) : World :=
  { w with proc := Function.update w.proc p pr }

/-- `proc_freepagetable`, recorded in `torn`. -/
def tearDown (w : World) (pt : PageTable) (sz : Nat) : Except Halt World := do
  let k ← (procFreepagetable pt sz w.kmem).mapError (.tearDown pt sz)
  return { w with kmem := k, torn := (pt, sz) :: w.torn }

/-- `freeproc`. -/
def freeproc (w : World) (p : Fin NPROC) : Except Halt World := do
  let k ← (if (w.proc p).trapframe ≠ 0 then kfree w.kmem (w.proc p).trapframe
    else pure w.kmem)
  let w := { w with kmem := k }
  let w ← (match (w.proc p).pagetable with
    | none => pure w
    | some pt => w.tearDown pt (w.proc p).sz)
  return w.setProc p .free

/-- `allocproc`: an unused slot with a trapframe and an empty address
space. -/
def allocproc (w : World) : Except Halt (Option (Fin NPROC) × World) :=
  match (List.finRange NPROC).find? fun p => (w.proc p).state = .unused with
  | none => return (none, w)
  | some p => do
    let pr := { w.proc p with state := .used, pid := w.nextpid }
    let w := { w with nextpid := w.nextpid + 1 }
    match kalloc w.kmem with
    | none =>
      let w ← (w.setProc p pr).freeproc p
      return (none, w)
    | some (trapframe, k) =>
      let pr := { pr with trapframe := trapframe }
      let r ← procPagetable w.trampoline trapframe k
      let w := { w with kmem := r.2 }
      match r.1 with
      | none =>
        let w ← (w.setProc p pr).freeproc p
        return (none, w)
      | some pt => return (some p, w.setProc p { pr with pagetable := some pt })

/-- `uvmfirst` and the rest of `userinit`, for the first process. -/
def userinit (w : World) : Except Halt (Option World) := do
  let r ← w.allocproc
  match r.1 with
  | none => return none
  | some p =>
    match (r.2.proc p).pagetable, kalloc r.2.kmem with
    | some pt, some (mem, k) =>
      let m ← mappages pt 0 PGSIZE mem (userPerm true true) k
      if m.1 then
        let w := { r.2 with initproc := p, kmem := m.2.2 }
        return some (w.setProc p { w.proc p with
          pagetable := some m.2.1, sz := PGSIZE, state := .runnable })
      else
        return none
    | _, _ => return none

/-! ## The shared page -/

/-- `shmem_fork`: map the shared page in the child if the parent maps it. -/
def shmemFork (w : World) (old new : PageTable) :
    Except Halt (Bool × PageTable × World) := do
  let r ← walk old SHM_VA false w.kmem
  if r.1 && (old.leaf SHM_VA).isSome then
    let m ← mappages new SHM_VA PGSIZE w.shmMemory (userPerm true false) w.kmem
    let w := { w with kmem := m.2.2 }
    if m.1 then
      return (true, m.2.1, { w with shmRefs := w.shmRefs + 1 })
    else
      return (false, m.2.1, w)
  else
    return (true, new, w)

/-- `shmem_exit`: unmap the shared page, and free it when the count says
that nobody else maps it. -/
def shmemExit (w : World) (p : Fin NPROC) (pt : PageTable) : Except Halt World := do
  let r ← walk pt SHM_VA false w.kmem
  if r.1 && (pt.leaf SHM_VA).isSome then
    let u ← uvmunmap pt SHM_VA 1 false w.kmem
    let w := { w.setProc p { w.proc p with pagetable := some u.1 } with
      kmem := u.2, shmRefs := w.shmRefs - 1 }
    if w.shmRefs = 0 ∧ w.shmMemory ≠ 0 then
      let k ← kfree w.kmem w.shmMemory
      return { w with kmem := k, shmMemory := 0 }
    else
      return w
  else
    return w

/-- `sys_shmget`. -/
def sysShmget (w : World) (p : Fin NPROC) (pt : PageTable) (key : Int) (size : Nat) :
    Except Halt (Int × World) :=
  if key ≠ 0 ∨ size ≠ 4096 then
    return (-1, w)
  else
    let page := if w.shmMemory = 0 then kalloc w.kmem else some (w.shmMemory, w.kmem)
    match page with
    | none => return (-1, w)
    | some (shm, k) => do
      let m ← mappages pt SHM_VA PGSIZE shm (userPerm true false) k
      let w := { w.setProc p { w.proc p with pagetable := some m.2.1 } with
        kmem := m.2.2, shmMemory := shm }
      return (if m.1 then (SHM_VA : Int) else -1, w)

/-! ## `fork`, `exit`, `wait` and `sbrk` -/

/-- `fork`. -/
def fork (w : World) (p : Fin NPROC) (pt : PageTable) : Except Halt (Int × World) := do
  let r ← w.allocproc
  match r.1 with
  | none => return (-1, r.2)
  | some np =>
    let w := r.2
    match (w.proc np).pagetable with
    | none => return (-1, w)
    | some npt =>
      let c ← uvmcopy pt npt (w.proc p).sz w.kmem
      let w := { w.setProc np { w.proc np with pagetable := some c.2.1 } with kmem := c.2.2 }
      if c.1 then
        let w := w.setProc np { w.proc np with sz := (w.proc p).sz }
        let s ← w.shmemFork pt c.2.1
        let w := s.2.2.setProc np { s.2.2.proc np with pagetable := some s.2.1 }
        if s.1 then
          return ((w.proc np).pid, w.setProc np { w.proc np with
            parent := some p, state := .runnable })
        else
          let w ← w.freeproc np
          return (-1, w)
      else
        let w ← w.freeproc np
        return (-1, w)

/-- `reparent`: give the children of `p` to init. -/
def reparent (w : World) (p : Fin NPROC) : World :=
  { w with proc := fun q =>
      if (w.proc q).parent = some p then { w.proc q with parent := some w.initproc }
      else w.proc q }

/-- `exit`. -/
def exit (w : World) (p : Fin NPROC) (pt : PageTable) : Except Halt (Int × World) := do
  if p = w.initproc then
    throw (.panic .initExiting)
  else
    let w ← w.shmemExit p pt
    let w := w.reparent p
    return (0, w.setProc p { w.proc p with state := .zombie })

/-- A store of `len` bytes at `addr` gets to the mapping of the shared page,
and goes through it to a page that is not the shared page any more. -/
def strayStore (w : World) (pt : PageTable) (addr len : Nat) : Bool :=
  (List.range (npages (addr % PGSIZE + len))).any fun i =>
    addr / PGSIZE + i == vpn SHM_VA && copyout pt addr ((i + 1) * PGSIZE - addr % PGSIZE) &&
      match pt.leaf SHM_VA with
      | none => false
      | some l => w.shmMemory == 0 || l.pa != w.shmMemory

/-- One pass of the loop of `wait`, `none` when it goes to sleep.  The
store of the status, which is made for a zombie, is left out; the model ends
where it goes astray. -/
def wait (w : World) (p : Fin NPROC) (pt : PageTable) (addr : Nat) :
    Option (Except Halt (Int × World)) :=
  match (List.finRange NPROC).find? fun q =>
    (w.proc q).parent = some p ∧ (w.proc q).state = .zombie with
  | some q =>
    if addr ≠ 0 ∧ w.strayStore pt addr 4 then
      some (.error .strayStore)
    else if addr ≠ 0 ∧ copyout pt addr 4 = false then
      some (return (-1, w))
    else
      some do
        let pid := (w.proc q).pid
        let w ← w.freeproc q
        return (pid, w)
  | none =>
    if (∀ q, (w.proc q).parent ≠ some p) ∨ (w.proc p).killed then
      some (return (-1, w))
    else
      none

/-- Give a process another size and what `uvmalloc` or `uvmdealloc` made of
its page table. -/
def resize (w : World) (p : Fin NPROC) (sz : Nat) (pt : PageTable) (k : Kmem) : World :=
  { w.setProc p { w.proc p with pagetable := some pt, sz := sz } with kmem := k }

/-- `growproc`.  The new size is computed in 64 bits. -/
def growproc (w : World) (p : Fin NPROC) (pt : PageTable) (n : Int) :
    Except Halt (Int × World) :=
  let sz := (w.proc p).sz
  let newsz := (((sz : Int) + n) % 2 ^ 64).toNat
  if n > 0 then do
    let r ← uvmalloc pt sz newsz true false w.kmem
    if r.1 = 0 then
      return (-1, w.resize p sz r.2.1 r.2.2)
    else
      return (0, w.resize p r.1 r.2.1 r.2.2)
  else if n < 0 then do
    let r ← uvmdealloc pt sz newsz w.kmem
    return (0, w.resize p r.1 r.2.1 r.2.2)
  else
    return (0, w)

/-! ## `exec` -/

/-- `exec`. -/
def exec (w : World) (p : Fin NPROC) (pt : PageTable) (image : Option Image)
    (lens : List Nat) : Except Halt (Int × World) :=
  match image with
  | none => return (-1, w)
  | some image =>
    if image.magic ≠ some ELF_MAGIC then
      return (-1, w)
    else do
      let r ← procPagetable w.trampoline (w.proc p).trapframe w.kmem
      match r.1 with
      | none => return (-1, { w with kmem := r.2 })
      | some new =>
        let s ← loadSegments new 0 r.2 image.phdrs
        let s ← (if s.1 then buildStack s.2.2.1 s.2.1 s.2.2.2 lens else pure s)
        let w := { w with kmem := s.2.2.2 }
        if s.1 then
          -- commit to the new image
          let oldsz := (w.proc p).sz
          let w := w.setProc p { w.proc p with pagetable := some s.2.2.1, sz := s.2.1 }
          let w ← w.tearDown pt oldsz
          return (lens.length, w)
        else
          let w ← w.tearDown s.2.2.1 s.2.1
          return (-1, w)

/-- The loop of `sys_exec` that fetches the arguments, each into a page of
its own.  The results are the lengths, or `none` on failure, and the pages
in the order in which they were allocated. -/
def fetchArgs (k : Kmem) (i : Nat) : List Arg → Option (List Nat) × List Nat × Kmem
  | args =>
    if i ≥ MAXARG then
      (none, [], k)
    else
      match args with
      | [] => (some [], [], k)
      | .badPointer :: _ => (none, [], k)
      | arg :: rest =>
        match kalloc k with
        | none => (none, [], k)
        | some (page, k) =>
          match arg with
          | .str len =>
            let r := fetchArgs k (i + 1) rest
            (r.1.map (len :: ·), page :: r.2.1, r.2.2)
          | _ => (none, [page], k)

/-- `sys_exec`. -/
def sysExec (w : World) (p : Fin NPROC) (pt : PageTable) (image : Option Image)
    (args : List Arg) : Except Halt (Int × World) := do
  let f := fetchArgs w.kmem 0 args
  let w := { w with kmem := f.2.2 }
  let r ← (match f.1 with
    | none => pure (-1, w)
    | some lens => w.exec p pt image lens)
  let k ← (f.2.1.foldlM kfree r.2.kmem : Except Panic Kmem)
  return (r.1, { r.2 with kmem := k })

end World

/-! ## Steps -/

/-- A system call of one process. -/
inductive Call where
  | shmget (p : Fin NPROC) (key : Int) (size : Nat)
  | fork (p : Fin NPROC)
  | exec (p : Fin NPROC) (image : Option Image) (args : List Arg)
  | sbrk (p : Fin NPROC) (n : Int)
  | exit (p : Fin NPROC)
  | wait (p : Fin NPROC) (addr : Nat)

/-- The process that makes a call. -/
def Call.proc : Call → Fin NPROC
  | .shmget p _ _ | .fork p | .exec p _ _ | .sbrk p _ | .exit p | .wait p _ => p

/-- What a call by a process with the page table `pt` does; `none` when it
sleeps. -/
def World.call (w : World) (pt : PageTable) :
    Call → Option (Except Halt (Int × World))
  | .shmget p key size => some (w.sysShmget p pt key size)
  | .fork p => some (w.fork p pt)
  | .exec p image args => some (w.sysExec p pt image args)
  | .sbrk p n => some (w.growproc p pt n)
  | .exit p => some (w.exit p pt)
  | .wait p addr => w.wait p pt addr

/-- One step: a process that can make calls makes one. -/
def World.step (w : World) (c : Call) : Option (Except Halt (Int × World)) :=
  match (w.proc c.proc).state, (w.proc c.proc).pagetable with
  | .runnable, some pt => w.call pt c
  | _, _ => none

end Xv6
