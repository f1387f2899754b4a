import Xv6.Params
import Xv6.Lib.Run

/-!
# The disk driver and its device

`kernel/virtio_disk.c` with any number of processes in `virtio_disk_rw`, the
interrupt handler, and the device.

The three structures that the driver shares with the device are here as in
`kernel/virtio.h`: the descriptors, the ring of available chains and the ring
of used chains, with their 16-bit indices.  The steps of the processes, of the
handler and of the device interleave in any order.  What a process does under
`vdisk_lock` is split where the device can look: the descriptors are written
before the entry of the available ring, and that before the index.

The device takes the chains from the available ring, works on any number of
them, and completes them in any order.  It finds the status byte through the
chain of descriptors, stores 0 there, and adds an entry to the used ring.  The
driver looks at none of this before `used->idx` has moved, so that a completion
is one step.

A process calls `virtio_disk_rw` for a buffer whose sleep lock it holds, as
`bread` and `bwrite` do.  A process that sleeps can go on at any time, which
only adds runs to those that the calls of `wakeup` allow.  The contents of the
blocks are left out.
-/

namespace Xv6.Virtio

open Lib Function

/-- `NUM`, the number of descriptors and of entries in each ring. -/
def NUM : Nat := 8

instance : NeZero NUM := ⟨by decide⟩

/-- The number of a descriptor. -/
abbrev Descno := Fin NUM

/-- A `struct buf *`. -/
abbrev Bufno := Fin NBUF

/-- `VRING_DESC_F_NEXT` -/
def VRING_DESC_F_NEXT : UInt16 := 1

/-- `VRING_DESC_F_WRITE` -/
def VRING_DESC_F_WRITE : UInt16 := 2

/-- `VIRTIO_BLK_T_IN` -/
def VIRTIO_BLK_T_IN : UInt32 := 0

/-- `VIRTIO_BLK_T_OUT` -/
def VIRTIO_BLK_T_OUT : UInt32 := 1

/-- The addresses that the driver gives to the device. -/
inductive Addr where
  | null
  /-- `&disk.ops[i]` -/
  | op (i : Descno)
  /-- `b->data` -/
  | data (b : Bufno)
  /-- `&disk.info[i].status` -/
  | status (i : Descno)
  deriving DecidableEq, Repr

/-- `struct virtq_desc` -/
structure Desc where
  addr : Addr
  len : UInt32
  flags : UInt16
  next : UInt16
  deriving DecidableEq, Repr

/-- `struct virtio_blk_req` -/
structure BlkReq where
  type : UInt32
  reserved : UInt32
  sector : UInt64
  deriving DecidableEq, Repr

/-- An entry of `disk.info`. -/
structure Info where
  b : Option Bufno
  status : UInt8
  deriving DecidableEq, Repr

/-- `struct virtq_avail` -/
structure Avail where
  idx : UInt16
  ring : Fin NUM → UInt16

/-- `struct virtq_used`; of the entries only `id`. -/
structure Used where
  idx : UInt16
  ring : Fin NUM → UInt32

/-- `disk`, without its lock. -/
structure Disk where
  desc : Descno → Desc
  avail : Avail
  used : Used
  free : Descno → Bool
  usedIdx : UInt16
  info : Descno → Info
  ops : Descno → BlkReq

/-- The entry of a ring to which an index points, `idx % NUM`. -/
def slot (idx : UInt16) : Fin NUM := ⟨idx.toNat % NUM, Nat.mod_lt _ (by decide)⟩

/-- A descriptor number as the rings hold it. -/
def num (i : Descno) : UInt16 := UInt16.ofNat i.val

/-! ## Descriptors -/

/-- `idx[3]` -/
structure Chain where
  head : Descno
  middle : Descno
  last : Descno
  deriving DecidableEq, Repr

namespace Disk

/-- `alloc_desc`; `none` where it returns -1. -/
def allocDesc (d : Disk) : Option (Descno × Disk) :=
  ((List.finRange NUM).find? d.free).map fun i =>
    (i, { d with free := update d.free i false })

/-- `free_desc` -/
def freeDesc (i : Nat) (d : Disk) : Except Panic Disk :=
  if h : i < NUM then
    if d.free ⟨i, h⟩ then
      .error .freeDesc2
    else
      .ok { d with
        desc := update d.desc ⟨i, h⟩ ⟨.null, 0, 0, 0⟩
        free := update d.free ⟨i, h⟩ true }
  else
    .error .freeDesc1

/-- The loop of `free_chain`.  Each round frees a descriptor, so that `free_desc`
panics in round `NUM + 1`. -/
def freeChainFrom : Nat → Nat → Disk → Except Panic Disk
  | 0, i, d => d.freeDesc i
  | n + 1, i, d =>
    if h : i < NUM then do
      let flag := (d.desc ⟨i, h⟩).flags
      let nxt := (d.desc ⟨i, h⟩).next
      let d ← d.freeDesc i
      if flag &&& VRING_DESC_F_NEXT ≠ 0 then freeChainFrom n nxt.toNat d else .ok d
    else
      d.freeDesc i

/-- `free_chain` -/
def freeChain (i : Nat) (d : Disk) : Except Panic Disk := freeChainFrom NUM i d

/-- `alloc3_desc`: what has been allocated is freed where a later descriptor is
missing. -/
def alloc3Desc (d : Disk) : Except Panic (Option Chain × Disk) :=
  match d.allocDesc with
  | none => .ok (none, d)
  | some (i₀, d) =>
    match d.allocDesc with
    | none => do
      let d ← d.freeDesc i₀
      return (none, d)
    | some (i₁, d) =>
      match d.allocDesc with
      | none => do
        let d ← d.freeDesc i₀
        let d ← d.freeDesc i₁
        return (none, d)
      | some (i₂, d) => .ok (some ⟨i₀, i₁, i₂⟩, d)

end Disk

/-! ## Requests -/

/-- The arguments of `virtio_disk_rw`, and the sector that it computes first. -/
structure Request where
  b : Bufno
  sector : UInt64
  write : Bool
  deriving DecidableEq, Repr

/-- `b->blockno * (BSIZE / 512)`, a product of 32 bits. -/
def sectorOf (blockno : UInt32) : UInt64 := (blockno * 2).toUInt64

/-- The header of a request. -/
def Request.blkReq (r : Request) : BlkReq where
  type := if r.write then VIRTIO_BLK_T_OUT else VIRTIO_BLK_T_IN
  reserved := 0
  sector := r.sector

/-- The three descriptors of a request. -/
def Request.desc₀ (c : Chain) : Desc := ⟨.op c.head, 16, VRING_DESC_F_NEXT, num c.middle⟩

def Request.desc₁ (r : Request) (c : Chain) : Desc where
  addr := .data r.b
  len := UInt32.ofNat BSIZE
  flags := (if r.write then 0 else VRING_DESC_F_WRITE) ||| VRING_DESC_F_NEXT
  next := num c.last

def Request.desc₂ (c : Chain) : Desc := ⟨.status c.head, 1, VRING_DESC_F_WRITE, 0⟩

/-- `virtio_disk_rw` fills in the descriptors, the header and `disk.info`. -/
def Disk.format (d : Disk) (r : Request) (c : Chain) : Disk :=
  { d with
    ops := update d.ops c.head r.blkReq
    desc := update (update (update d.desc c.head (Request.desc₀ c))
      c.middle (r.desc₁ c)) c.last (Request.desc₂ c)
    info := update d.info c.head ⟨some r.b, 0xff⟩ }

/-- Where a process stands in `virtio_disk_rw`. -/
inductive Loc where
  | idle
  /-- `acquire(&disk.vdisk_lock)`, on entry or on the way out of
  `sleep(&disk.free[0], &disk.vdisk_lock)` -/
  | acquire (r : Request)
  /-- `alloc3_desc(idx)` -/
  | alloc (r : Request)
  /-- the stores to the descriptors, to `disk.info` and to `b->disk` -/
  | format (r : Request) (c : Chain)
  /-- `disk.avail->ring[disk.avail->idx % NUM] = idx[0]` -/
  | publish (r : Request) (c : Chain)
  /-- `disk.avail->idx += 1` -/
  | notify (r : Request) (c : Chain)
  /-- `while(b->disk == 1)` -/
  | wait (r : Request) (c : Chain)
  /-- in `sleep(b, &disk.vdisk_lock)` -/
  | asleep (r : Request) (c : Chain)
  /-- `disk.info[idx[0]].b = 0` and `free_chain(idx[0])` -/
  | finish (r : Request) (c : Chain)
  /-- `release(&disk.vdisk_lock)` -/
  | release (r : Request)
  deriving DecidableEq, Repr

/-- Where `virtio_disk_intr` stands. -/
inductive IntrLoc where
  | out
  /-- `while(disk.used_idx != disk.used->idx)` -/
  | loop
  /-- the body of the loop -/
  | serve
  deriving DecidableEq, Repr

/-- Who holds `vdisk_lock`. -/
inductive Holder (n : Nat) where
  | proc (p : Fin n)
  | intr
  deriving DecidableEq, Repr

/-- The device: how far it has read the available ring, and the chains that it
works on. -/
structure Device where
  seen : UInt16
  working : List UInt16

/-- The driver, the device and the processes.  `busy b` is `b->disk`, and
`sleeplock b` is the process that holds `b->lock`. -/
structure State (n : Nat) where
  disk : Disk
  busy : Bufno → Bool
  lock : Option (Holder n)
  sleeplock : Bufno → Option (Fin n)
  loc : Fin n → Loc
  intr : IntrLoc
  dev : Device

/-- A step. -/
inductive Label (n : Nat) where
  | acquiresleep (p : Fin n) (b : Bufno)
  | releasesleep (p : Fin n) (b : Bufno)
  /-- process `p` calls `virtio_disk_rw(b, write)` -/
  | rw (p : Fin n) (b : Bufno) (blockno : UInt32) (write : Bool)
  /-- the next step of process `p` -/
  | run (p : Fin n)
  /-- the next step of `virtio_disk_intr` -/
  | intr
  /-- the device takes a chain from the available ring -/
  | fetch
  /-- the device completes the chain that starts at `id` -/
  | complete (id : UInt16)
  deriving DecidableEq, Repr

/-- The last descriptor of a chain, as the device finds it. -/
def Disk.lastDesc (d : Disk) : Nat → UInt16 → Option Desc
  | 0, _ => none
  | n + 1, i =>
    if h : i.toNat < NUM then
      let x := d.desc ⟨i.toNat, h⟩
      if x.flags &&& VRING_DESC_F_NEXT ≠ 0 then d.lastDesc n x.next else some x
    else
      none

/-- The device stores 0 where the last descriptor of the chain points. -/
def Disk.storeStatus (d : Disk) (id : UInt16) : Disk :=
  match (d.lastDesc NUM id).map Desc.addr with
  | some (.status i) => { d with info := update d.info i { d.info i with status := 0 } }
  | _ => d

/-- The device adds an entry to the used ring. -/
def Disk.addUsed (d : Disk) (id : UInt16) : Disk :=
  { d with used :=
    { idx := d.used.idx + 1
      ring := update d.used.ring (slot d.used.idx) id.toUInt32 } }

namespace State

variable {n : Nat}

/-- Move a process. -/
def goto (s : State n) (p : Fin n) (loc : Loc) : State n :=
  { s with loc := update s.loc p loc }

/-- The next step of `virtio_disk_rw`; `none` where it has to wait. -/
def resume (s : State n) (p : Fin n) : Option (Except Panic (State n)) :=
  match s.loc p with
  | .idle => none
  | .acquire r =>
    if s.lock = none then
      some (.ok ({ s with lock := some (.proc p) }.goto p (.alloc r)))
    else none
  | .alloc r =>
    some do
      match ← s.disk.alloc3Desc with
      | (some c, d) => return { s with disk := d }.goto p (.format r c)
      | (none, d) => return { s with disk := d, lock := none }.goto p (.acquire r)
  | .format r c =>
    some (.ok ({ s with
      disk := s.disk.format r c
      busy := update s.busy r.b true }.goto p (.publish r c)))
  | .publish r c =>
    some (.ok ({ s with
      disk := { s.disk with
        avail := { s.disk.avail with
          ring := update s.disk.avail.ring (slot s.disk.avail.idx) (num c.head) } }
      }.goto p (.notify r c)))
  | .notify r c =>
    some (.ok ({ s with
      disk := { s.disk with avail := { s.disk.avail with idx := s.disk.avail.idx + 1 } }
      }.goto p (.wait r c)))
  | .wait r c =>
    if s.busy r.b then
      some (.ok ({ s with lock := none }.goto p (.asleep r c)))
    else
      some (.ok (s.goto p (.finish r c)))
  | .asleep r c =>
    if s.lock = none then
      some (.ok ({ s with lock := some (.proc p) }.goto p (.wait r c)))
    else none
  | .finish r c =>
    some do
      let d ← { s.disk with
        info := update s.disk.info c.head { s.disk.info c.head with b := none }
        }.freeChain c.head
      return { s with disk := d }.goto p (.release r)
  | .release _ => some (.ok ({ s with lock := none }.goto p .idle))

/-- The next step of `virtio_disk_intr`. -/
def interrupt (s : State n) : Option (Except Panic (State n)) :=
  match s.intr with
  | .out => if s.lock = none then some (.ok { s with lock := some .intr, intr := .loop }) else none
  | .loop =>
    if s.disk.usedIdx ≠ s.disk.used.idx then
      some (.ok { s with intr := .serve })
    else
      some (.ok { s with lock := none, intr := .out })
  | .serve =>
    let id := (s.disk.used.ring (slot s.disk.usedIdx)).toNat
    if h : id < NUM then
      if (s.disk.info ⟨id, h⟩).status ≠ 0 then
        some (.error .virtioDiskIntrStatus)
      else
        match (s.disk.info ⟨id, h⟩).b with
        | none => some (.error .kerneltrap)
        | some b =>
          some (.ok { s with
            busy := update s.busy b false
            disk := { s.disk with usedIdx := s.disk.usedIdx + 1 }
            intr := .loop })
    else
      -- outside `disk.info`
      some (.error .kerneltrap)

/-- The device takes the next chain from the available ring. -/
def fetch (s : State n) : Option (State n) :=
  if s.dev.seen ≠ s.disk.avail.idx then
    some { s with dev :=
      { seen := s.dev.seen + 1
        working := s.disk.avail.ring (slot s.dev.seen) :: s.dev.working } }
  else none

/-- The device completes a chain. -/
def complete (s : State n) (id : UInt16) : Option (State n) :=
  if id ∈ s.dev.working then
    some { s with
      disk := (s.disk.storeStatus id).addUsed id
      dev := { s.dev with working := s.dev.working.erase id } }
  else none

/-- Take a label; `none` when it cannot be taken. -/
def step (s : State n) : Label n → Option (Except Panic (State n))
  | .acquiresleep p b =>
    if s.loc p = .idle ∧ s.sleeplock b = none then
      some (.ok { s with sleeplock := update s.sleeplock b (some p) })
    else none
  | .releasesleep p b =>
    if s.loc p = .idle ∧ s.sleeplock b = some p then
      some (.ok { s with sleeplock := update s.sleeplock b none })
    else none
  | .rw p b blockno write =>
    if s.loc p = .idle ∧ s.sleeplock b = some p then
      some (.ok (s.goto p (.acquire ⟨b, sectorOf blockno, write⟩)))
    else none
  | .run p => s.resume p
  | .intr => s.interrupt
  | .fetch => s.fetch.map .ok
  | .complete id => (s.complete id).map .ok

/-- After `virtio_disk_init`, which clears the rings.  Here their indices can
have any value. -/
def boot (n : Nat) (avail used : UInt16) : State n where
  disk :=
    { desc := fun _ => ⟨.null, 0, 0, 0⟩
      avail := ⟨avail, fun _ => 0⟩
      used := ⟨used, fun _ => 0⟩
      free := fun _ => true
      usedIdx := used
      info := fun _ => ⟨none, 0⟩
      ops := fun _ => ⟨0, 0, 0⟩ }
  busy _ := false
  lock := none
  sleeplock _ := none
  loc _ := .idle
  intr := .out
  dev := ⟨avail, []⟩

end State

/-- The steps of the system. -/
def Steps {n : Nat} (s : State n) (l : Label n) (t : State n) : Prop := s.step l = some (.ok t)

end Xv6.Virtio
