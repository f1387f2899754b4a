import Xv6.Fs.Trans

/-!
# The file system with its log

A `System` joins the file system and the log: each process may be inside a
system call, and the steps of the processes interleave in any order.  A step
changes the file system's state, and the log reacts to its event: it
reserves space, notes a changed block, commits, puts the process to sleep or
panics.

The commit itself is one step.  No operation is open while it runs, and
`begin_op` waits until it is over.

`sys_getfilesize` drops an inode outside an operation.  If the file is
unlinked while the call holds the last reference, the call has to free the
inode, and the log panics.  As long as no `sys_getfilesize` gets past its
path argument, and no `read` meets a hole in a file, every `iput` happens
inside an operation of its process.
-/

namespace Xv6

open Lib Function

namespace Fs

variable {σ τ : System} {p : Fin NPROC} {i : Event}

/-! ## The system -/

/-- The file system, the log over its device, the process that has to
commit, the rest of the call of each process, and how many operations each
process has open. -/
structure System where
  kernel : Kernel
  log : Log
  disk : Nat → Block
  issued : List (Nat × Block)
  committer : Option (Fin NPROC)
  running : Fin NPROC → Option (FsM Int)
  depth : Fin NPROC → Nat

/-- A panic, in the file system or in the log. -/
inductive Fault where
  | file (e : Panic)
  | log (e : Panic)

/-- What happens: a process calls the kernel, or takes its next step. -/
inductive Label where
  | start (p : Fin NPROC) (c : Call)
  | step (p : Fin NPROC)

namespace System

/-- The device as the log sees it. -/
def dev (σ : System) : Dev :=
  { disk := σ.disk, cache := σ.kernel.cache, issued := σ.issued }

/-- What the log makes of an event of process `p`. -/
def react (σ : System) (p : Fin NPROC) : Event → Out Fault System
  | .beginOp =>
    match Xv6.beginOp σ.log with
    | none => .block
    | some log => .ok { σ with log := log, depth := update σ.depth p (σ.depth p + 1) }
  | .endOp =>
    match Xv6.endOp σ.log with
    | .error e => .panic (.log e)
    | .ok (last, log) => .ok { σ with
        log := log
        committer := if last then some p else σ.committer
        depth := update σ.depth p (σ.depth p - 1) }
  | .commit =>
    if σ.committer = some p then
      let r := commit σ.log σ.dev
      .ok { σ with
        kernel := { σ.kernel with cache := r.2.cache }
        log := endCommit r.1
        disk := r.2.disk
        issued := r.2.issued
        committer := none }
    else
      .ok σ
  | .logWrite b =>
    match logWrite σ.log b with
    | .error e => .panic (.log e)
    | .ok log => .ok { σ with log := log }
  | .iput | .hole => .ok σ

/-- The next step of process `p`. -/
def step (σ : System) (p : Fin NPROC) : Out Fault System :=
  match σ.running p with
  | none | some .spin => .block
  | some (.ret _) => .ok { σ with running := update σ.running p none }
  | some (.step event effect next) =>
    match effect σ.kernel with
    | .block => .block
    | .panic e => .panic (.file e)
    | .ok kernel =>
      let σ' := { σ with
        kernel := kernel
        running := update σ.running p (some (next σ.kernel)) }
      match event σ.kernel with
      | none => .ok σ'
      | some i => σ'.react p i

/-- The event that process `p` is about to show. -/
def event (σ : System) (p : Fin NPROC) : Option Event :=
  match σ.running p with
  | some (.step event _ _) => event σ.kernel
  | _ => none

/-- Take a label. -/
def take (σ : System) : Label → Out Fault System
  | .start p c =>
    if (σ.running p).isNone then
      .ok { σ with running := update σ.running p (some (c.prog p)) }
    else
      .block
  | .step p => σ.step p

/-- The steps of the system. -/
def Steps (σ : System) (l : Label) (τ : System) : Prop := σ.take l = .ok τ

/-- The next state, if the label can be taken. -/
def next? (σ : System) (l : Label) : Option System :=
  match σ.take l with
  | .ok τ => some τ
  | _ => none

theorem steps_of_next? {l : Label} (h : σ.next? l = some τ) : σ.Steps l τ := by
  unfold next? at h
  unfold Steps
  split at h
  · cases h
    assumption
  · cases h

/-- No process is in a call, and no operation is open. -/
structure Quiet (σ : System) : Prop where
  running : ∀ p, σ.running p = none
  depth : ∀ p, σ.depth p = 0
  outstanding : σ.log.outstanding = 0

/-- A label that keeps clear of the two ways to write to the log outside an
operation. -/
def Allowed (σ : System) : Label → Prop
  | .start _ c => ¬ c.Bare
  | .step p => σ.event p = some .hole → 0 < σ.depth p

instance (σ : System) (l : Label) : Decidable (σ.Allowed l) :=
  match l with
  | .start _ c => inferInstanceAs (Decidable (¬ c.Bare))
  | .step p => inferInstanceAs (Decidable (σ.event p = some .hole → 0 < σ.depth p))

/-! ## The invariant -/

/-- The rest of a call is in order from a number of open operations on, and
a process outside a call has none open. -/
def Orderly : Option (FsM Int) → Nat → Prop
  | none, d => d = 0
  | some m, d => m.Typed opRule (fun _ d => d = 0) d

/-- Process `p` is in order. -/
def InOrder (σ : System) (p : Fin NPROC) : Prop := Orderly (σ.running p) (σ.depth p)

/-- Every process is in order, and the log counts the open operations. -/
structure Inv (σ : System) : Prop where
  inOrder : ∀ p, σ.InOrder p
  outstanding : σ.log.outstanding = (∑ p, σ.depth p : Nat)

theorem Quiet.inv (h : σ.Quiet) : σ.Inv where
  inOrder p := by
    rw [InOrder, h.running p]
    exact h.depth p
  outstanding := by
    rw [h.outstanding]
    simp [h.depth]

/-- Process `p` goes on with `m`, at a new number of open operations; the
other processes stay where they are. -/
theorem InOrder.update {m : Option (FsM Int)} {d : Nat}
    (h : ∀ q, σ.InOrder q) (hrunning : τ.running = update σ.running p m)
    (hdepth : τ.depth = update σ.depth p d) (hp : Orderly m d) (q : Fin NPROC) : τ.InOrder q := by
  unfold InOrder
  rw [hrunning, hdepth]
  by_cases hq : q = p
  · subst hq
    rwa [update_self, update_self]
  · rw [update_of_ne hq, update_of_ne hq]
    exact h q

/-- What the log does to the count of open operations, and that it does not
touch the processes. -/
theorem react_ok {d : Nat} (h : σ.react p i = .ok τ) (hrule : opRule (σ.depth p) i = .go d) :
    τ.running = σ.running ∧ τ.depth = update σ.depth p d ∧
      τ.log.outstanding + σ.depth p = σ.log.outstanding + d := by
  cases i with
  | beginOp =>
    simp only [opRule, Verdict.go.injEq] at hrule
    subst hrule
    simp only [react] at h
    split at h
    · cases h
    rename_i log hlog
    cases h
    refine ⟨rfl, rfl, ?_⟩
    unfold Xv6.beginOp at hlog
    split at hlog
    · cases hlog
    split at hlog
    · cases hlog
    cases hlog
    show σ.log.outstanding + 1 + _ = _
    push_cast
    omega
  | endOp =>
    simp only [opRule] at hrule
    split at hrule
    · rename_i hd
      cases hrule
      simp only [react] at h
      split at h
      · cases h
      rename_i last log hlog
      cases h
      refine ⟨rfl, rfl, ?_⟩
      have hout : log.outstanding = σ.log.outstanding - 1 := by
        unfold Xv6.endOp at hlog
        split at hlog
        · cases hlog
        · split at hlog <;> cases hlog <;> rfl
      simp only
      omega
    · cases hrule
  | commit =>
    cases hrule
    simp only [react] at h
    split at h
    · cases h
      refine ⟨rfl, (update_eq_self _ _).symm, ?_⟩
      have hout : (commit σ.log σ.dev).1.outstanding = σ.log.outstanding := by
        unfold commit
        split <;> rfl
      simp only [endCommit, hout]
    · cases h
      exact ⟨rfl, (update_eq_self _ _).symm, rfl⟩
  | logWrite b =>
    simp only [opRule] at hrule
    split at hrule
    · cases hrule
      simp only [react] at h
      split at h
      · cases h
      rename_i log hlog
      cases h
      refine ⟨rfl, (update_eq_self _ _).symm, ?_⟩
      have hout : log.outstanding = σ.log.outstanding := by
        unfold logWrite at hlog
        split at hlog
        · cases hlog
        split at hlog
        · cases hlog
        · split at hlog <;> cases hlog <;> rfl
      simp only [hout]
    · cases hrule
  | iput | hole =>
    simp only [opRule] at hrule
    split at hrule
    · cases hrule
      cases h
      exact ⟨rfl, (update_eq_self _ _).symm, rfl⟩
    · cases hrule

/-- The event that a process in order is about to show does not break the
rule, and the rest of its call is in order after it. -/
theorem InOrder.event (h : σ.InOrder p)
    (hallowed : σ.Allowed (.step p)) {event : Kernel → Option Event}
    {effect : Kernel → Out Panic Kernel} {next : Kernel → FsM Int}
    (hrun : σ.running p = some (.step event effect next)) (hi : event σ.kernel = some i) :
    ∃ d, opRule (σ.depth p) i = .go d ∧ (next σ.kernel).Typed opRule (fun _ d => d = 0) d := by
  have hshow : σ.event p = some i := by rw [System.event, hrun]; exact hi
  rw [InOrder, hrun] at h
  have hs := h σ.kernel
  simp only [hi] at hs
  cases hrule : opRule (σ.depth p) i with
  | go d =>
    rw [hrule] at hs
    exact ⟨d, rfl, hs⟩
  | forbid =>
    rw [hrule] at hs
    exact hs.elim
  | ignore =>
    cases i with
    | hole =>
      have hd := hallowed hshow
      simp [opRule, hd] at hrule
    | beginOp | commit => cases hrule
    | endOp | logWrite | iput =>
      simp only [opRule] at hrule
      split at hrule <;> cases hrule

/-- Every allowed step keeps the invariant. -/
theorem Inv.step {l : Label} (h : σ.Inv) (hallowed : σ.Allowed l)
    (hstep : σ.Steps l τ) : τ.Inv := by
  cases l with
  | start p c =>
    simp only [Steps, take] at hstep
    split at hstep
    · rename_i hidle
      cases hstep
      have hd : σ.depth p = 0 := by
        have hp := h.inOrder p
        rwa [InOrder, Option.isNone_iff_eq_none.1 hidle] at hp
      refine ⟨InOrder.update h.inOrder rfl (update_eq_self p σ.depth).symm ?_, h.outstanding⟩
      rw [hd]
      exact Call.prog_anywhere p c hallowed 0
    · cases hstep
  | step p =>
    simp only [Steps, take, System.step] at hstep
    split at hstep
    · cases hstep
    · cases hstep
    · rename_i a hrun
      cases hstep
      have hd : σ.depth p = 0 := by
        have hp := h.inOrder p
        rwa [InOrder, hrun] at hp
      exact ⟨InOrder.update h.inOrder rfl (update_eq_self p σ.depth).symm hd, h.outstanding⟩
    rename_i event effect next hrun
    split at hstep
    · cases hstep
    · cases hstep
    rename_i kernel _
    split at hstep
    · rename_i hnone
      cases hstep
      refine ⟨InOrder.update h.inOrder rfl (update_eq_self p σ.depth).symm ?_, h.outstanding⟩
      have hp := h.inOrder p
      rw [InOrder, hrun] at hp
      have hs := hp σ.kernel
      simp only [hnone] at hs
      exact hs
    rename_i i hi
    obtain ⟨d, hrule, hnext⟩ := (h.inOrder p).event hallowed hrun hi
    obtain ⟨hrunning, hdepth, hout⟩ := react_ok hstep hrule
    refine ⟨InOrder.update h.inOrder hrunning hdepth hnext, ?_⟩
    have hsum := sum_update σ.depth id p d
    have hbefore := h.outstanding
    simp only [id] at hsum
    rw [hdepth]
    show _ = ((∑ q, update σ.depth p d q : Nat) : Int)
    simp only at hout
    omega

/-- A process that is about to call `iput` or `log_write` has an operation
open. -/
theorem Inv.depth_pos (h : σ.Inv)
    (hi : σ.event p = some i) (hlog : opRule 0 i = .forbid) : 0 < σ.depth p := by
  by_contra hzero
  have hd : σ.depth p = 0 := by omega
  have hp := h.inOrder p
  unfold InOrder at hp
  unfold System.event at hi
  split at hi
  · rename_i event effect next hrun
    rw [hrun, hd] at hp
    have hs := hp σ.kernel
    simp only [hi, hlog] at hs
  · cases hi

/-- A system step that the log stops with this panic is a `log_write` while
no operation is open. -/
theorem step_panic (h : σ.step p = .panic (.log .logWriteOutsideOfTrans)) :
    ∃ b, σ.event p = some (.logWrite b) ∧ σ.log.outstanding < 1 := by
  unfold System.step at h
  split at h
  · cases h
  · cases h
  · cases h
  rename_i event effect next hrun
  split at h
  · cases h
  · cases h
  rename_i kernel _
  have hshow : σ.event p = event σ.kernel := by rw [System.event, hrun]
  split at h
  · cases h
  rename_i i hi
  rw [hshow, hi]
  cases i with
  | logWrite b =>
    refine ⟨b, rfl, ?_⟩
    simp only [react, logWrite] at h
    split at h
    · rename_i e herr
      cases h
      split at herr
      · cases herr
      split at herr
      · assumption
      · split at herr <;> cases herr
    · cases h
  | beginOp | commit =>
    simp only [react] at h
    split at h <;> cases h
  | endOp =>
    simp only [react, Xv6.endOp] at h
    split at h
    · rename_i e herr
      cases h
      split at herr
      · cases herr
      · split at herr <;> cases herr
    · cases h
  | iput | hole => cases h

/-- In every run of allowed steps, however the processes interleave, each
`iput` is executed by a process between its own `begin_op` and `end_op`,
and no allowed step panics with `log_write outside of trans`. -/
theorem iput_in_operation {σ τ : System} {ls : List Label} (hquiet : σ.Quiet)
    (hrun : Run (fun σ l τ => σ.Allowed l ∧ σ.Steps l τ) σ ls τ) :
    (∀ p, τ.event p = some .iput → 0 < τ.depth p) ∧
      ∀ l, τ.Allowed l → τ.take l ≠ .panic (.log .logWriteOutsideOfTrans) := by
  have hinv : τ.Inv := hrun.inv hquiet.inv fun _ _ _ h hs => h.step hs.1 hs.2
  refine ⟨fun p hp => hinv.depth_pos hp rfl, ?_⟩
  intro l _ hpanic
  cases l with
  | start p c =>
    simp only [take] at hpanic
    split at hpanic <;> cases hpanic
  | step p =>
    obtain ⟨b, hb, hout⟩ := step_panic hpanic
    have hd : 0 < τ.depth p := hinv.depth_pos hb rfl
    have hle := le_sum τ.depth id p
    have hcount := hinv.outstanding
    simp only [id] at hle
    omega

end System

/-! ## A small disk -/

/-- Two processes. -/
def proc₀ : Fin NPROC := ⟨0, NPROC_pos⟩
def proc₁ : Fin NPROC := ⟨1, by decide⟩

-- before the instances for sums
instance (priority := high) instNeZeroAddrs : NeZero (NDIRECT + 1) :=
  instNeZeroNatHAddNDIRECTOfNat

/-- A disk as `mkfs` makes it, with an empty file `f` in the root
directory. -/
def smallDisk (b : Nat) : Block :=
  if b = 32 then
    let root := { Dinode.zero with
      type := T_DIR, nlink := 1, size := 48, addrs := fun j => if j = 0 then 46 else 0 }
    putDinode (putDinode (fun _ => 0) 1 root) 2 { Dinode.zero with type := T_FILE, nlink := 1 }
  else if b = 45 then
    fun i => if i.val < 5 then 255 else if i.val = 5 then 127 else 0
  else if b = 46 then
    Buf.write (fun _ => 0) 0 ((Dirent.mk 1 dot).encode ++
      ((Dirent.mk 1 dotdot).encode ++ (Dirent.mk 2 [102]).encode))
  else
    fun _ => 0

/-- The path `/f`. -/
def smallPath : Option Path := some [47, 102]

/-- The kernel that has booted from the small disk. -/
def smallKernel : Kernel :=
  { sb := mkfsSuperblock
    cache := smallDisk
    itable := fun _ =>
      { toDinode := Dinode.zero, inum := 0, ref := 0, lock := none, valid := false }
    ftable := fun _ =>
      { type := .none, ref := 0, readable := false, writable := 0, pipe := 0, ip := 0,
        off := 0, major := 0 }
    files := fun _ => { ofile := fun _ => none, cwd := 0 }
    devsw := fun _ => false }

def smallSystem : System :=
  { kernel := smallKernel
    log := Log.init mkfsSuperblock.logstart mkfsSuperblock.nlog
    disk := smallDisk
    issued := []
    committer := none
    running := fun _ => none
    depth := fun _ => 0 }

theorem smallSystem_quiet : smallSystem.Quiet := ⟨fun _ => rfl, fun _ => rfl, rfl⟩

namespace System

/-- Process 0 unlinks `f`, up to the `iput` of the directory. -/
def unlinkRun : List Label :=
  .start proc₀ (.unlink smallPath) :: List.replicate 25 (.step proc₀)

theorem iput_in_operation_unlink :
    ∃ τ, Run (fun σ l τ => σ.Allowed l ∧ σ.Steps l τ) smallSystem unlinkRun τ ∧
      τ.event proc₀ = some .iput ∧ 0 < τ.depth proc₀ := by
  have hrun : (follow (fun σ l => if σ.Allowed l then σ.next? l else none) smallSystem
      unlinkRun).any (fun τ => τ.event proc₀ = some .iput) = true := by decide +kernel
  obtain ⟨τ, hτ, hev⟩ := (Option.any_eq_true _ _).1 hrun
  have hev : τ.event proc₀ = some .iput := of_decide_eq_true hev
  have hrun : Run (fun σ l τ => σ.Allowed l ∧ σ.Steps l τ) smallSystem unlinkRun τ := by
    refine (Run.of_follow hτ).mono ?_
    intro σ l τ h
    split at h
    · rename_i hallowed
      exact ⟨hallowed, steps_of_next? h⟩
    · cases h
  exact ⟨τ, hrun, hev, (iput_in_operation smallSystem_quiet hrun).1 proc₀ hev⟩

/-- Process 0 asks for the size of `f`, and has looked the path up when
process 1 unlinks `f`.  Process 0 then goes on to the `iput` of `f`. -/
def raceRun : List Label :=
  .start proc₀ (.getfilesize smallPath true) :: List.replicate 15 (.step proc₀) ++
    .start proc₁ (.unlink smallPath) :: List.replicate 33 (.step proc₁) ++
    List.replicate 4 (.step proc₀)

/-- The panic of a `log_write` outside an operation. -/
def panicsOutside (σ : System) (l : Label) : Bool :=
  match σ.take l with
  | .panic (.log .logWriteOutsideOfTrans) => true
  | _ => false

/-- The call drops the last reference outside an operation, and the log
panics when the inode is freed. -/
theorem getfilesize_panics : ∃ σ τ, Run Steps smallSystem raceRun σ ∧
      σ.event proc₀ = some .iput ∧ σ.depth proc₀ = 0 ∧
      Run Steps σ (List.replicate 15 (.step proc₀)) τ ∧
      τ.take (.step proc₀) = .panic (.log .logWriteOutsideOfTrans) := by
  have hrun : (follow next? smallSystem raceRun).any (fun σ =>
      decide (σ.event proc₀ = some .iput ∧ σ.depth proc₀ = 0) &&
      (follow next? σ (List.replicate 15 (.step proc₀))).any
        fun τ => τ.panicsOutside (.step proc₀)) = true := by decide +kernel
  obtain ⟨σ, hσ, hσ'⟩ := (Option.any_eq_true _ _).1 hrun
  obtain ⟨hev, hrest⟩ := Bool.and_eq_true_iff.1 hσ'
  obtain ⟨τ, hτ, hpanic⟩ := (Option.any_eq_true _ _).1 hrest
  obtain ⟨hev, hd⟩ := of_decide_eq_true hev
  refine ⟨σ, τ, (Run.of_follow hσ).mono fun _ _ _ => steps_of_next?, hev, hd,
    (Run.of_follow hτ).mono fun _ _ _ => steps_of_next?, ?_⟩
  unfold panicsOutside at hpanic
  split at hpanic
  · assumption
  · cases hpanic

end System

end Fs

end Xv6
