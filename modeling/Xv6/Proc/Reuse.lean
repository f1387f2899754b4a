import Xv6.Lib.Except
import Xv6.Proc.TearDown

/-!
# Reuse of a process table entry

What a process that `allocproc` returns finds in its entry of the process
table.  The state adds to a `World` the fields of `struct proc` that memory
does not depend on, `chan`, `xstate`, `cpu_mask`, `timer` and `ofile`, and the
calls that change them: `kill`, `sys_setperiod` of
`proj3/kernel/periodic_tasks.c`, `sys_set_cpu_affinity` of
`proj3/kernel/cpu_affinity.c`, `sleep`, and the calls that open and close
files.

`freeproc` clears `chan` and `xstate`, and `exit` the open files.  No function
clears `timer` or `cpu_mask`, and `kill(0)` marks an unused entry.
-/

namespace Xv6.Reuse

open Function Lib Option World

variable {pr : Proc} {np : Fin NPROC} {r : Int} {x : Option (Fin NPROC)} {c : Call}
  {f : Fields → Fields}

/-! ## Model -/

/-- The other fields of `struct proc`.  `timer` is the page of the timer, 0
where there is none. -/
structure Fields where
  chan : Nat
  xstate : Int
  cpuMask : Int32
  timer : Nat
  ofile : Fin NOFILE → Option Nat

/-- The process table is zero at boot. -/
def Fields.boot : Fields :=
  { chan := 0, xstate := 0, cpuMask := 0, timer := 0, ofile := fun _ => none }

/-- What `freeproc` does to them. -/
def Fields.freeproc (f : Fields) : Fields := { f with chan := 0, xstate := 0 }

/-- The state of the system. -/
structure State where
  world : World
  fields : Fin NPROC → Fields

/-- The entry that `allocproc` tries. -/
def unusedSlot (w : World) : Option (Fin NPROC) :=
  (List.finRange NPROC).find? fun p => (w.proc p).state = .unused

/-- The child that `wait` reaps. -/
def zombieChild (w : World) (p : Fin NPROC) : Option (Fin NPROC) :=
  (List.finRange NPROC).find? fun q => (w.proc q).parent = some p ∧ (w.proc q).state = .zombie

/-- The entry that `kill` finds. -/
def slotOf (w : World) (pid : Int) : Option (Fin NPROC) :=
  (List.finRange NPROC).find? fun q => ((w.proc q).pid : Int) = pid

namespace State

/-- Change the fields of an entry. -/
def update (s : State) (p : Fin NPROC) (f : Fields → Fields) : State :=
  { s with fields := Function.update s.fields p (f (s.fields p)) }

/-- Change the fields of the entry that a search has found. -/
def updateAt (s : State) (p : Option (Fin NPROC)) (f : Fields → Fields) : State :=
  match p with
  | none => s
  | some p => s.update p f

/-- `allocproc`, which calls `freeproc` where it runs out of memory. -/
def allocproc (s : State) : Except Halt (Option (Fin NPROC) × State) := do
  let r ← s.world.allocproc
  let t := { s with world := r.2 }
  return (r.1, if r.1 = none then t.updateAt (unusedSlot s.world) .freeproc else t)

/-- A call of the memory model. -/
def call (s : State) (c : Call) : Option (Int × State) :=
  match s.world.step c with
  | some (.ok (r, w)) => some (r, { s with world := w })
  | _ => none

/-- `fork`.  The child has the files of its parent. -/
def fork (s : State) (p : Fin NPROC) : Option (Int × State) :=
  (s.call (.fork p)).map fun r =>
    (r.1, r.2.updateAt (unusedSlot s.world) fun f =>
      if r.1 = -1 then f.freeproc else { f with ofile := (s.fields p).ofile })

/-- `exit`. -/
def exit (s : State) (p : Fin NPROC) (status : Int) : Option (Int × State) :=
  (s.call (.exit p)).map fun r =>
    (r.1, r.2.update p fun f => { f with xstate := status, ofile := fun _ => none })

/-- `wait`. -/
def wait (s : State) (p : Fin NPROC) (addr : Nat) : Option (Int × State) :=
  (s.call (.wait p addr)).map fun r =>
    (r.1, if r.1 = -1 then r.2 else r.2.updateAt (zombieChild s.world p) .freeproc)

/-- `kill`. -/
def kill (s : State) (pid : Int) : Int × State :=
  match slotOf s.world pid with
  | none => (-1, s)
  | some q => (0, { s with
      world := s.world.setProc q { s.world.proc q with killed := true } })

/-- `sys_setperiod`. -/
def sysSetperiod (s : State) (p : Fin NPROC) (period : Int) : Int × State :=
  if period < 1 then (-1, s)
  else if (s.fields p).timer = 0 then
    match kalloc s.world.kmem with
    | none => (-1, s)
    | some (page, k) => (0, { s with world := { s.world with kmem := k } }.update p
        fun f => { f with timer := page })
  else (0, s)

/-- `sys_set_cpu_affinity`. -/
def sysSetCpuAffinity (s : State) (p : Fin NPROC) (mask : Int32) : Int × State :=
  (0, s.update p fun f => { f with cpuMask := mask })

end State

/-- What a process does.  `sleep` and `wake` are the two halves of the
source's `sleep`; `setFile` is the store of a file into a descriptor or of 0
where it is closed. -/
inductive Label where
  | fork (p : Fin NPROC)
  | exit (p : Fin NPROC) (status : Int)
  | wait (p : Fin NPROC) (addr : Nat)
  | kill (p : Fin NPROC) (pid : Int)
  | setperiod (p : Fin NPROC) (period : Int)
  | setCpuAffinity (p : Fin NPROC) (mask : Int32)
  | shmget (p : Fin NPROC) (key : Int) (size : Nat)
  | exec (p : Fin NPROC) (image : Option Image) (args : List Arg)
  | sbrk (p : Fin NPROC) (n : Int)
  | sleep (p : Fin NPROC) (chan : Nat)
  | wake (p : Fin NPROC)
  | setFile (p : Fin NPROC) (fd : Fin NOFILE) (file : Option Nat)

/-- The process that acts. -/
def Label.proc : Label → Fin NPROC
  | .fork p | .exit p _ | .wait p _ | .kill p _ | .setperiod p _ | .setCpuAffinity p _
  | .shmget p _ _ | .exec p _ _ | .sbrk p _ | .sleep p _ | .wake p | .setFile p _ _ => p

/-- What a process that can act does. -/
def State.act (s : State) : Label → Option (Int × State)
  | .fork p => s.fork p
  | .exit p status => s.exit p status
  | .wait p addr => s.wait p addr
  | .kill _ pid => some (s.kill pid)
  | .setperiod p period => some (s.sysSetperiod p period)
  | .setCpuAffinity p mask => some (s.sysSetCpuAffinity p mask)
  | .shmget p key size => s.call (.shmget p key size)
  | .exec p image args => s.call (.exec p image args)
  | .sbrk p n => s.call (.sbrk p n)
  | .sleep p chan => some (0, s.update p fun f => { f with chan := chan })
  | .wake p => some (0, s.update p fun f => { f with chan := 0 })
  | .setFile p fd file => some (0, s.update p fun f =>
      { f with ofile := Function.update f.ofile fd file })

/-- One step: a live process acts. -/
def State.step (s : State) (l : Label) : Option State :=
  if (s.world.proc l.proc).state = .runnable then (s.act l).map Prod.snd else none

/-- The state after `userinit`. -/
def State.init (w : World) : State := { world := w, fields := fun _ => .boot }

/-- The entry is as at boot, but for what `allocproc` stores. -/
structure State.Clean (s : State) (p : Fin NPROC) : Prop where
  timer : (s.fields p).timer = 0
  cpuMask : (s.fields p).cpuMask = Fields.boot.cpuMask
  chan : (s.fields p).chan = 0
  killed : (s.world.proc p).killed = false
  xstate : (s.fields p).xstate = 0
  sz : (s.world.proc p).sz = 0
  ofile : ∀ fd, (s.fields p).ofile fd = none

/-- The step leaves no trace in the entry `p` that `freeproc` would have to
clear and does not: no period, no mask other than 0, no `kill(0)` that finds
the entry. -/
def Spares (p : Fin NPROC) (s : State) : Label → Prop
  | .setperiod q period => q = p → period < 1 ∨ s.world.kmem.freelist = []
  | .setCpuAffinity q mask => q = p → mask = 0
  | .kill _ pid => pid = 0 → slotOf s.world pid ≠ some p
  | _ => True

instance (p : Fin NPROC) (s : State) (l : Label) : Decidable (Spares p s l) := by
  cases l <;> simp only [Spares] <;> infer_instance

/-! ## What the calls do to the process table -/

section Frame

variable {w : World} {p q : Fin NPROC} {pt : PageTable}

/-- A result of `x`, if there is one, satisfies `Q`. -/
abbrev Returns {α : Type} (x : Except Halt α) (Q : α → Prop) : Prop := Safe (fun _ => False) x Q

theorem tearDown_frame (sz : Nat) : Returns (w.tearDown pt sz) fun w' => w'.proc = w.proc := by
  unfold tearDown
  exact (Safe.unknown _).bind fun _ _ => .pure rfl

theorem freeproc_frame : Returns (w.freeproc p) fun w' =>
    w'.proc = Function.update w.proc p .free := by
  unfold World.freeproc
  refine (Safe.unknown _).bind fun k _ => ?_
  refine .bind (P := fun w' => w'.proc = w.proc) ?_ fun w' hw' => .pure ?_
  · split
    · exact .pure rfl
    · exact tearDown_frame _
  · rw [setProc, hw']

@[simp] theorem proc_setProc : (w.setProc p pr).proc = Function.update w.proc p pr := rfl

/-- Only the entry `np` has changed. -/
def Only (np : Fin NPROC) (w w' : World) : Prop := ∀ q, q ≠ np → w'.proc q = w.proc q

theorem only_of_update {w' : World}
    (h : w'.proc = Function.update w.proc np pr) : Only np w w' := fun q hq => by
  rw [h, Function.update_of_ne hq]

theorem Only.trans {w1 w2 w3 : World} (h1 : Only np w1 w2) (h2 : Only np w2 w3) :
    Only np w1 w3 := fun q hq => (h2 q hq).trans (h1 q hq)

/-- `allocproc` fails and clears the entry, or fills it. -/
theorem allocproc_frame : Returns w.allocproc fun r => (unusedSlot w = none → r = (none, w)) ∧
    ∀ np, unusedSlot w = some np → Only np w r.2 ∧ (r.1 = none ∧ r.2.proc np = .free ∨
        r.1 = some np ∧ (r.2.proc np).state = .used ∧
          (r.2.proc np).killed = (w.proc np).killed ∧ (r.2.proc np).sz = (w.proc np).sz) := by
  unfold World.allocproc
  split
  · rename_i hfind
    refine .pure ⟨fun _ => rfl, fun np hnp => ?_⟩
    rw [unusedSlot, hfind] at hnp
    cases hnp
  rename_i p hfind
  have hslot : ∀ np, unusedSlot w = some np → np = p := fun np hnp =>
    some.inj (hnp.symm.trans hfind)
  have hsome : unusedSlot w ≠ none := fun h => nomatch h.symm.trans hfind
  -- `freeproc` undoes what `allocproc` has done so far
  have hundo : ∀ (w' : World) (pr : Proc), w'.proc = w.proc →
      Returns ((w'.setProc p pr).freeproc p) fun w'' =>
        Only p w w'' ∧ w''.proc p = .free := fun w' pr hw' =>
    freeproc_frame.mono fun w'' h => by
      rw [proc_setProc, hw', update_idem] at h
      exact ⟨only_of_update h, by rw [h, update_self]⟩
  dsimp only
  split
  · refine (hundo _ _ ?_).bind fun w' hw' => .pure ⟨fun h => absurd h hsome, fun np hnp => ?_⟩
    · rfl
    · obtain rfl := hslot np hnp
      exact ⟨hw'.1, .inl ⟨rfl, hw'.2⟩⟩
  refine (Safe.unknown _).bind fun r _ => ?_
  split
  · refine (hundo _ _ ?_).bind fun w' hw' => .pure ⟨fun h => absurd h hsome, fun np hnp => ?_⟩
    · rfl
    · obtain rfl := hslot np hnp
      exact ⟨hw'.1, .inl ⟨rfl, hw'.2⟩⟩
  refine .pure ⟨fun h => absurd h hsome, fun np hnp => ?_⟩
  obtain rfl := hslot np hnp
  refine ⟨only_of_update rfl, .inr ⟨rfl, ?_⟩⟩
  simp

/-- The entry that `allocproc` returns is the first unused one. -/
theorem allocproc_slot {r : Option (Fin NPROC) × World}
    (hr : (unusedSlot w = none → r = (none, w)) ∧ ∀ np, unusedSlot w = some np → Only np w r.2 ∧
        (r.1 = none ∧ r.2.proc np = .free ∨ r.1 = some np ∧ (r.2.proc np).state = .used ∧
            (r.2.proc np).killed = (w.proc np).killed ∧ (r.2.proc np).sz = (w.proc np).sz))
    (h : r.1 = some np) : unusedSlot w = some np ∧ Only np w r.2 ∧ (r.2.proc np).state = .used ∧
      (r.2.proc np).killed = (w.proc np).killed ∧ (r.2.proc np).sz = (w.proc np).sz := by
  cases hu : unusedSlot w with
  | none =>
    rw [hr.1 hu] at h
    cases h
  | some x =>
    obtain ⟨honly, hnone | hsome⟩ := hr.2 x hu
    · rw [h] at hnone
      cases hnone.1
    · obtain rfl := some.inj (h.symm.trans hsome.1)
      exact ⟨rfl, honly, hsome.2⟩

theorem shmemFork_frame {old new : PageTable} : Returns (w.shmemFork old new) fun r =>
    r.2.2.proc = w.proc := by
  unfold shmemFork
  refine (Safe.unknown _).bind fun r _ => ?_
  split
  · refine (Safe.unknown _).bind fun m _ => ?_
    split <;> exact .pure rfl
  · exact .pure rfl

/-- `fork` fails and leaves the entry free, or makes the child runnable.  An
entry that stays `USED` would be one without a page table. -/
def Forked (w : World) (r : Int × World) : Prop :=
  (unusedSlot w = none → r.2.proc = w.proc) ∧
  ∀ np, unusedSlot w = some np → Only np w r.2 ∧
    (r.1 = -1 ∧ r.2.proc np = .free ∨ (r.2.proc np).state = .used ∨
      r.1 ≠ -1 ∧ (r.2.proc np).state = .runnable)

theorem forked_of_slot {r : Int × World} (hslot : unusedSlot w = some np)
    (honly : Only np w r.2) (h : r.1 = -1 ∧ r.2.proc np = .free ∨ (r.2.proc np).state = .used ∨
      r.1 ≠ -1 ∧ (r.2.proc np).state = .runnable) : Forked w r := by
  refine ⟨fun hnone => ?_, fun x hx => ?_⟩
  · rw [hnone] at hslot
    cases hslot
  obtain rfl := some.inj (hslot.symm.trans hx)
  exact ⟨honly, h⟩

theorem fork_frame : Returns (w.fork p pt) (Forked w) := by
  unfold World.fork
  refine allocproc_frame.bind fun r hr => ?_
  split
  · rename_i hnone
    refine .pure ⟨fun h => by rw [hr.1 h], fun np hnp => ?_⟩
    obtain ⟨honly, h | h⟩ := hr.2 np hnp
    · exact ⟨honly, .inl ⟨rfl, h.2⟩⟩
    rw [hnone] at h
    cases h.1
  rename_i np hsome
  obtain ⟨hslot, honly, hused, -⟩ := allocproc_slot hr hsome
  have hset : ∀ (w' : World) (pr : Proc), Only np w w' → Only np w (w'.setProc np pr) :=
    fun w' pr h => h.trans (only_of_update rfl)
  have hfail : ∀ w' : World, Only np w w' → Returns (do
      let w ← w'.freeproc np
      return ((-1 : Int), w)) (Forked w) := fun w' ho =>
    freeproc_frame.bind fun w'' h => .pure (forked_of_slot hslot (ho.trans (only_of_update h))
      (.inl ⟨rfl, by rw [h, update_self]⟩))
  dsimp only
  split
  · exact .pure (forked_of_slot hslot honly (.inr (.inl hused)))
  refine (Safe.unknown _).bind fun c _ => ?_
  split
  · refine shmemFork_frame.bind fun sh hsh => ?_
    have hsh' : Only np w sh.2.2 := fun q hq => by
      rw [hsh]
      exact hset _ _ (hset _ _ honly) q hq
    split
    · refine .pure (forked_of_slot hslot (hset _ _ (hset _ _ hsh')) (.inr (.inr ⟨?_, ?_⟩)))
      · intro h
        omega
      · simp
    · exact hfail _ (hset _ _ hsh')
  · exact hfail _ (hset _ _ honly)

/-- The fields of an entry that the specifications look at. -/
structure Same (pr pr' : Proc) : Prop where
  state : pr'.state = pr.state
  pid : pr'.pid = pr.pid
  killed : pr'.killed = pr.killed
  sz : pr'.sz = pr.sz

theorem Same.refl (pr : Proc) : Same pr pr := ⟨rfl, rfl, rfl, rfl⟩

/-- A call that changes the memory of its own process. -/
def Own (p : Fin NPROC) (w w' : World) : Prop :=
  Only p w w' ∧ (w'.proc p).state = (w.proc p).state

theorem Own.refl : Own p w w := ⟨fun _ _ => rfl, rfl⟩

theorem Own.trans {w1 w2 w3 : World} (h1 : Own p w1 w2) (h2 : Own p w2 w3) : Own p w1 w3 :=
  ⟨h1.1.trans h2.1, h2.2.trans h1.2⟩

theorem own_of_proc {w' : World} (h : w'.proc = w.proc) : Own p w w' :=
  ⟨fun q _ => by rw [h], by rw [h]⟩

theorem own_setProc (h : pr.state = (w.proc p).state) : Own p w (w.setProc p pr) :=
  ⟨only_of_update rfl, by rw [proc_setProc, update_self, h]⟩

theorem shmemExit_frame : Returns (w.shmemExit p pt) (Own p w) := by
  unfold shmemExit
  refine (Safe.unknown _).bind fun r _ => ?_
  split
  · refine (Safe.unknown _).bind fun u _ => ?_
    dsimp only
    split
    · refine (Safe.unknown _).bind fun k _ => .pure ?_
      exact own_setProc rfl
    · exact .pure (own_setProc rfl)
  · exact .pure .refl

theorem sysShmget_frame {key : Int} {size : Nat} :
    Returns (w.sysShmget p pt key size) fun r => Own p w r.2 := by
  unfold sysShmget
  split
  · exact .pure .refl
  dsimp only
  split
  · exact .pure .refl
  refine (Safe.unknown _).bind fun m _ => .pure ?_
  exact own_setProc rfl

theorem growproc_frame {n : Int} : Returns (w.growproc p pt n) fun r => Own p w r.2 := by
  unfold growproc
  split
  · refine (Safe.unknown _).bind fun r _ => ?_
    split <;> exact .pure (own_setProc rfl)
  split
  · refine (Safe.unknown _).bind fun r _ => .pure ?_
    exact own_setProc rfl
  · exact .pure .refl

theorem exec_frame {image : Option Image} {lens : List Nat} :
    Returns (w.exec p pt image lens) fun r => Own p w r.2 := by
  unfold World.exec
  split
  · exact .pure .refl
  split
  · exact .pure .refl
  refine (Safe.unknown _).bind fun r _ => ?_
  split
  · exact .pure (own_of_proc rfl)
  refine (Safe.unknown _).bind fun s _ => (Safe.unknown _).bind fun s' _ => ?_
  split
  · refine (tearDown_frame _).bind fun w' hw' => .pure ⟨fun q hq => ?_, ?_⟩
    · rw [hw', proc_setProc, update_of_ne hq]
    · rw [hw', proc_setProc, update_self]
  · refine (tearDown_frame _).bind fun w' hw' => .pure ?_
    exact own_of_proc hw'

theorem sysExec_frame {image : Option Image} {args : List Arg} :
    Returns (w.sysExec p pt image args) fun r => Own p w r.2 := by
  unfold sysExec
  have hexec : ∀ k lens, Returns (match lens with
      | none => pure ((-1 : Int), { w with kmem := k })
      | some lens => { w with kmem := k }.exec p pt image lens) fun r => Own p w r.2 := by
    intro k lens
    cases lens with
    | none => exact .pure (own_of_proc rfl)
    | some lens => exact exec_frame.mono fun r h => Own.trans (own_of_proc rfl) h
  refine (hexec _ _).bind fun r hr => (Safe.unknown _).bind fun k _ => .pure ?_
  exact hr.trans (own_of_proc rfl)

/-- `exit` makes a zombie and changes only parents elsewhere. -/
theorem exit_frame : Returns (w.exit p pt) fun r =>
    (r.2.proc p).state = .zombie ∧ ∀ q, q ≠ p → Same (w.proc q) (r.2.proc q) := by
  unfold World.exit
  split
  · exact .error id
  refine shmemExit_frame.bind fun w' hw' => .pure ⟨?_, fun q hq => ?_⟩
  · simp
  rw [proc_setProc, update_of_ne hq, ← hw'.1 q hq]
  dsimp only [reparent]
  split
  · exact ⟨rfl, rfl, rfl, rfl⟩
  · exact .refl _

/-- `wait` fails and changes nothing, or frees the child. -/
theorem wait_frame {addr : Nat} {x : Except Halt (Int × World)} (h : w.wait p pt addr = some x) :
    Returns x fun r => r.1 = -1 ∧ r.2 = w ∨
      r.1 ≠ -1 ∧ ∃ q, zombieChild w p = some q ∧ r.2.proc = Function.update w.proc q .free := by
  unfold World.wait at h
  split at h
  · rename_i q hfind
    split at h
    · cases h
      exact .error id
    split at h
    · cases h
      exact .pure (.inl ⟨rfl, rfl⟩)
    cases h
    refine freeproc_frame.bind fun w' hw' => .pure (.inr ⟨?_, q, hfind, hw'⟩)
    intro h
    omega
  · split at h
    · cases h
      exact .pure (.inl ⟨rfl, rfl⟩)
    · cases h

end Frame

/-! ## What a step does to an entry -/

variable {s t : State} {l : Label} {p q : Fin NPROC}

/-- What a step makes of the entry `q`. -/
inductive Moves (s : State) (l : Label) (q : Fin NPROC) (t : State) : Prop where
  | same (hpr : Same (s.world.proc q) (t.world.proc q)) (hf : t.fields q = s.fields q)
  | marked (me : Fin NPROC) (pid : Int) (hl : l = .kill me pid) (hq : slotOf s.world pid = some q)
      (hpr : t.world.proc q = { s.world.proc q with killed := true })
      (hf : t.fields q = s.fields q)
  | live (h : (t.world.proc q).state = .used ∨ (t.world.proc q).state = .runnable)
  | freed (h : (s.world.proc q).state = .unused ∨ (s.world.proc q).state = .zombie)
      (hpr : t.world.proc q = .free) (hf : t.fields q = (s.fields q).freeproc)
  | exited (h : (t.world.proc q).state = .zombie) (hf : ∀ fd, (t.fields q).ofile fd = none)

theorem call_eq_some (h : s.call c = some (r, t)) :
    s.world.step c = some (.ok (r, t.world)) ∧ t.fields = s.fields := by
  unfold State.call at h
  split at h
  · rename_i r' w hstep
    obtain ⟨rfl, rfl⟩ := Prod.mk.inj (some.inj h)
    exact ⟨hstep, rfl⟩
  · cases h

/-- A step of the memory model is a call by a process with a page table. -/
theorem step_eq_some {w : World} {x : Except Halt (Int × World)}
    (h : w.step c = some x) : ∃ pt, w.call pt c = some x := by
  unfold World.step at h
  split at h
  · exact ⟨_, h⟩
  · cases h

theorem fields_updateAt :
    (s.updateAt x f).fields q = if x = some q then f (s.fields q) else s.fields q := by
  cases x with
  | none => rfl
  | some p =>
    by_cases hq : q = p
    · rw [hq, if_pos rfl]
      exact update_self _ _ _
    · rw [if_neg fun h => hq (some.inj h).symm]
      exact update_of_ne hq _ _

@[simp] theorem world_updateAt : (s.updateAt x f).world = s.world := by cases x <;> rfl

theorem unusedSlot_state {w : World} (h : unusedSlot w = some p) : (w.proc p).state = .unused := by
  simpa using List.find?_some h

/-- A call that changes only the acting process, which stays alive. -/
theorem moves_own (hp : (s.world.proc p).state = .runnable) (hown : Own p s.world t.world)
    (hf : ∀ q, q ≠ p → t.fields q = s.fields q) : Moves s l q t := by
  by_cases hq : q = p
  · rw [hq]
    exact .live (.inr (hown.2.trans hp))
  refine .same ?_ (hf q hq)
  rw [hown.1 q hq]
  exact .refl _

theorem moves_call (hp : (s.world.proc p).state = .runnable) (h : s.call c = some (r, t))
    (hframe : ∀ pt x, s.world.call pt c = some x → Returns x fun r => Own p s.world r.2) :
    Moves s l q t := by
  obtain ⟨hstep, hf⟩ := call_eq_some h
  obtain ⟨pt, hcall⟩ := step_eq_some hstep
  exact moves_own hp ((hframe pt _ hcall).of_ok rfl) fun q _ => by rw [hf]

theorem moves_fork (h : s.fork p = some (r, t)) : Moves s l q t := by
  obtain ⟨⟨r', u⟩, hcall, heq⟩ := map_eq_some_iff.1 h
  cases heq
  obtain ⟨hstep, hf⟩ := call_eq_some hcall
  obtain ⟨pt, hx⟩ := step_eq_some hstep
  have hforked : Forked s.world (r', u.world) := (fork_frame (p := p)).of_ok (some.inj hx)
  by_cases hq : unusedSlot s.world = some q
  · obtain ⟨_, hfree | hused | hrun⟩ := hforked.2 q hq
    · refine .freed (.inl (unusedSlot_state hq)) ?_ ?_
      · rw [world_updateAt]
        exact hfree.2
      · rw [fields_updateAt, if_pos hq, if_pos hfree.1, hf]
    · exact .live (.inl (by rw [world_updateAt]; exact hused))
    · exact .live (.inr (by rw [world_updateAt]; exact hrun.2))
  refine .same ?_ (by rw [fields_updateAt, if_neg hq, hf])
  rw [world_updateAt]
  have hproc : u.world.proc q = s.world.proc q := by
    cases hu : unusedSlot s.world with
    | none => exact congrFun (hforked.1 hu) q
    | some np => exact (hforked.2 np hu).1 q fun h => hq (h ▸ hu)
  rw [hproc]
  exact .refl _

theorem moves_exit {status : Int} (h : s.exit p status = some (r, t)) : Moves s l q t := by
  obtain ⟨⟨r', u⟩, hcall, heq⟩ := map_eq_some_iff.1 h
  cases heq
  obtain ⟨hstep, hf⟩ := call_eq_some hcall
  obtain ⟨pt, hx⟩ := step_eq_some hstep
  have hexit := (exit_frame (p := p)).of_ok (some.inj hx)
  by_cases hq : q = p
  · refine .exited (hq ▸ hexit.1) fun fd => ?_
    rw [hq]
    simp [State.update]
  refine .same (hexit.2 q hq) ?_
  rw [← hf]
  exact update_of_ne hq _ _

theorem moves_wait {addr : Nat} (h : s.wait p addr = some (r, t)) : Moves s l q t := by
  obtain ⟨⟨r', u⟩, hcall, heq⟩ := map_eq_some_iff.1 h
  cases heq
  obtain ⟨hstep, hf⟩ := call_eq_some hcall
  obtain ⟨pt, hx⟩ := step_eq_some hstep
  rcases (wait_frame hx).of_ok rfl with ⟨hr, hw⟩ | ⟨hr, x, hfind, hproc⟩
  · refine .same ?_ ?_
    · rw [if_pos hr]
      show Same _ (u.world.proc q)
      rw [show u.world = s.world from hw]
      exact .refl _
    · rw [if_pos hr, hf]
  simp only at hr hproc
  by_cases hq : x = q
  · rw [hq] at hfind hproc
    have hzombie : (s.world.proc q).state = .zombie := by
      have := List.find?_some hfind
      simp only [decide_eq_true_eq] at this
      exact this.2
    refine .freed (.inr hzombie) ?_ ?_
    · rw [if_neg hr, world_updateAt, hproc, update_self]
    · rw [if_neg hr, fields_updateAt, if_pos hfind, hf]
  have hne : zombieChild s.world p ≠ some q := fun h =>
    hq (some.inj (hfind.symm.trans h))
  refine .same ?_ ?_
  · rw [if_neg hr, world_updateAt, hproc, update_of_ne (Ne.symm hq)]
    exact .refl _
  · rw [if_neg hr, fields_updateAt, if_neg hne, hf]

theorem moves_kill {me : Fin NPROC} {pid : Int} : Moves s (.kill me pid) q (s.kill pid).2 := by
  unfold State.kill
  split
  · exact .same (.refl _) rfl
  rename_i x hfind
  by_cases hq : q = x
  · rw [hq]
    exact .marked me pid rfl hfind (update_self _ _ _) rfl
  refine .same ?_ rfl
  rw [proc_setProc, update_of_ne hq]
  exact .refl _

theorem moves_setperiod (hp : (s.world.proc p).state = .runnable) {period : Int} :
    Moves s l q (s.sysSetperiod p period).2 := by
  unfold State.sysSetperiod
  split
  · exact .same (.refl _) rfl
  split
  · split
    · exact .same (.refl _) rfl
    · exact moves_own hp (own_of_proc rfl) fun q hq => update_of_ne hq _ _
  · exact .same (.refl _) rfl

theorem act_of_step (h : s.step l = some t) :
    (s.world.proc l.proc).state = .runnable ∧ ∃ r, s.act l = some (r, t) := by
  unfold State.step at h
  split at h
  · rename_i hp
    obtain ⟨⟨r, t'⟩, hact, ht⟩ := map_eq_some_iff.1 h
    obtain rfl : t' = t := ht
    exact ⟨hp, r, hact⟩
  · cases h

theorem moves_of_step (h : s.step l = some t) : Moves s l q t := by
  obtain ⟨hp, r, hact⟩ := act_of_step h
  have hupdate : ∀ (p : Fin NPROC) (f : Fields → Fields),
      (s.world.proc p).state = .runnable → Moves s l q (s.update p f) := fun p f hp =>
    moves_own hp .refl fun q hq => update_of_ne hq _ _
  cases l with
  | fork p => exact moves_fork hact
  | exit p status => exact moves_exit hact
  | wait p addr => exact moves_wait hact
  | kill p pid =>
    have ht : (s.kill pid).2 = t := congrArg Prod.snd (some.inj hact)
    exact ht ▸ moves_kill
  | setperiod p period =>
    have ht : (s.sysSetperiod p period).2 = t := congrArg Prod.snd (some.inj hact)
    exact ht ▸ moves_setperiod hp
  | setCpuAffinity p mask | sleep p chan | wake p | setFile p fd file =>
    obtain ⟨-, rfl⟩ := Prod.mk.inj (some.inj hact)
    exact hupdate p _ hp
  | shmget p key size =>
    exact moves_call hp hact fun pt x hx => (some.inj hx) ▸ sysShmget_frame
  | exec p image args =>
    exact moves_call hp hact fun pt x hx => (some.inj hx) ▸ sysExec_frame
  | sbrk p n => exact moves_call hp hact fun pt x hx => (some.inj hx) ▸ growproc_frame

/-- The timer and the mask are as before. -/
def Fields.Keeps (f f' : Fields) : Prop := f'.timer = f.timer ∧ f'.cpuMask = f.cpuMask

theorem keeps_updateAt (hf : ∀ a : Fields, a.Keeps (f a)) :
    (s.fields q).Keeps ((s.updateAt x f).fields q) := by
  rw [fields_updateAt]
  split
  · exact hf _
  · exact ⟨rfl, rfl⟩

theorem keeps_update (hf : q = p → ∀ a : Fields, a.Keeps (f a)) :
    (s.fields q).Keeps ((s.update p f).fields q) := by
  by_cases hq : q = p
  · exact keeps_updateAt (x := some p) (hf hq)
  have heq : (s.update p f).fields q = s.fields q := update_of_ne hq _ _
  rw [heq]
  exact ⟨rfl, rfl⟩

/-- They change only in the calls for them. -/
theorem keeps_of_step (h : s.step l = some t) (hperiod : ∀ period, l ≠ .setperiod q period)
    (hmask : ∀ mask, l ≠ .setCpuAffinity q mask) : (s.fields q).Keeps (t.fields q) := by
  obtain ⟨_, r, hact⟩ := act_of_step h
  have hcall : ∀ {c : Call} {r : Int} {u : State}, s.call c = some (r, u) →
      u.fields = s.fields := fun h => (call_eq_some h).2
  cases l with
  | fork p =>
    obtain ⟨⟨r', u⟩, hu, heq⟩ := map_eq_some_iff.1 hact
    obtain ⟨-, rfl⟩ := Prod.mk.inj heq
    rw [← hcall hu]
    refine keeps_updateAt fun a => ?_
    split <;> exact ⟨rfl, rfl⟩
  | exit p status =>
    obtain ⟨⟨r', u⟩, hu, heq⟩ := map_eq_some_iff.1 hact
    obtain ⟨-, rfl⟩ := Prod.mk.inj heq
    rw [← hcall hu]
    exact keeps_update fun _ a => ⟨rfl, rfl⟩
  | wait p addr =>
    obtain ⟨⟨r', u⟩, hu, heq⟩ := map_eq_some_iff.1 hact
    obtain ⟨-, rfl⟩ := Prod.mk.inj heq
    rw [← hcall hu]
    split
    · exact ⟨rfl, rfl⟩
    · exact keeps_updateAt fun a => ⟨rfl, rfl⟩
  | kill p pid =>
    have ht : (s.kill pid).2 = t := congrArg Prod.snd (some.inj hact)
    rw [← ht, State.kill]
    split <;> exact ⟨rfl, rfl⟩
  | setperiod p period =>
    have ht : (s.sysSetperiod p period).2 = t := congrArg Prod.snd (some.inj hact)
    rw [← ht, State.sysSetperiod]
    split
    · exact ⟨rfl, rfl⟩
    split
    · split
      · exact ⟨rfl, rfl⟩
      rename_i page k _
      exact keeps_update (s := { s with world := { s.world with kmem := k } })
        (f := fun f => { f with timer := page }) fun hq =>
          absurd (congrArg (Label.setperiod · period) hq.symm) (hperiod period)
    · exact ⟨rfl, rfl⟩
  | setCpuAffinity p mask =>
    obtain ⟨-, rfl⟩ := Prod.mk.inj (some.inj hact)
    exact keeps_update fun hq =>
      absurd (congrArg (Label.setCpuAffinity · mask) hq.symm) (hmask mask)
  | shmget | exec | sbrk =>
    rw [hcall hact]
    exact ⟨rfl, rfl⟩
  | sleep | wake | setFile =>
    obtain ⟨-, rfl⟩ := Prod.mk.inj (some.inj hact)
    exact keeps_update fun _ a => ⟨rfl, rfl⟩

/-! ## Runs -/

/-- An entry between two calls: an unused one is clear, and a process that is
gone has no files. -/
structure State.Ok (s : State) (q : Fin NPROC) : Prop where
  unused : (s.world.proc q).state = .unused → (s.world.proc q).pid = 0 ∧
    (s.world.proc q).sz = 0 ∧ (s.fields q).chan = 0 ∧ (s.fields q).xstate = 0
  closed : (s.world.proc q).state = .unused ∨ (s.world.proc q).state = .zombie →
    ∀ fd, (s.fields q).ofile fd = none

theorem State.Ok.moves (h : s.Ok q) (hm : Moves s l q t) : t.Ok q := by
  cases hm with
  | same hpr hf =>
    refine ⟨fun hu => ?_, fun hu => ?_⟩
    · rw [hpr.pid, hpr.sz, hf]
      exact h.unused (hpr.state ▸ hu)
    · rw [hf]
      exact h.closed (hpr.state ▸ hu)
  | marked me pid hl hq hpr hf =>
    refine ⟨fun hu => ?_, fun hu => ?_⟩
    · rw [hpr] at hu ⊢
      rw [hf]
      exact h.unused hu
    rw [hpr] at hu
    rw [hf]
    exact h.closed hu
  | live hs =>
    refine ⟨fun hu => ?_, fun hu => ?_⟩
    · rw [hu] at hs
      rcases hs with hs | hs <;> cases hs
    · rcases hu with hu | hu <;> rw [hu] at hs <;> rcases hs with hs | hs <;> cases hs
  | freed hs hpr hf =>
    refine ⟨fun _ => ?_, fun _ => ?_⟩
    · rw [hpr, hf]
      exact ⟨rfl, rfl, rfl, rfl⟩
    · rw [hf]
      exact h.closed hs
  | exited hs hf => exact ⟨fun hu => (by rw [hs] at hu; cases hu), fun _ => hf⟩

/-- Nothing is left in the entry by its earlier processes. -/
structure State.Spared (s : State) (p : Fin NPROC) : Prop where
  timer : (s.fields p).timer = 0
  cpuMask : (s.fields p).cpuMask = 0
  killed : (s.world.proc p).state = .unused → (s.world.proc p).killed = false

theorem State.Spared.timer_step (h : s.Spared p) (hstep : s.step l = some t)
    (hl : Spares p s l) : (t.fields p).timer = 0 ∧ (t.fields p).cpuMask = 0 := by
  obtain ⟨_, r, hact⟩ := act_of_step hstep
  by_cases hperiod : ∃ period, l = .setperiod p period
  · -- a `setperiod` that is spared fails
    obtain ⟨period, rfl⟩ := hperiod
    have ht : (s.sysSetperiod p period).2 = t := congrArg Prod.snd (some.inj hact)
    rw [← ht, State.sysSetperiod]
    rcases hl rfl with hl | hl
    · rw [if_pos hl]
      exact ⟨h.timer, h.cpuMask⟩
    rw [kalloc, hl]
    split
    · exact ⟨h.timer, h.cpuMask⟩
    · split <;> exact ⟨h.timer, h.cpuMask⟩
  by_cases hmask : ∃ mask, l = .setCpuAffinity p mask
  · obtain ⟨mask, rfl⟩ := hmask
    obtain rfl := hl rfl
    obtain ⟨-, rfl⟩ := Prod.mk.inj (some.inj hact)
    refine ⟨?_, ?_⟩ <;> simp [State.update, h.timer]
  · obtain ⟨htimer, hcpu⟩ := keeps_of_step (q := p) hstep (fun _ h => hperiod ⟨_, h⟩)
      fun _ h => hmask ⟨_, h⟩
    exact ⟨htimer.trans h.timer, hcpu.trans h.cpuMask⟩

theorem State.Spared.step (h : s.Spared p) (hok : s.Ok p) (hstep : s.step l = some t)
    (hl : Spares p s l) : t.Spared p := by
  obtain ⟨htimer, hmask⟩ := h.timer_step hstep hl
  refine ⟨htimer, hmask, fun hu => ?_⟩
  cases moves_of_step (q := p) hstep with
  | same hpr _ =>
    rw [hpr.killed]
    exact h.killed (hpr.state ▸ hu)
  | marked me pid hk hq hpr _ =>
    -- the process ID of an unused entry is 0, and `kill(0)` has not found it
    have hpid : ((s.world.proc p).pid : Int) = pid := by simpa using List.find?_some hq
    rw [hpr] at hu
    rw [(hok.unused hu).1] at hpid
    rw [hk] at hl
    exact absurd hq (hl hpid.symm)
  | live hs => rcases hs with hs | hs <;> rw [hs] at hu <;> cases hu
  | freed _ hpr _ => rw [hpr]; rfl
  | exited hs _ => rw [hs] at hu; cases hu

/-- After `userinit` every unused entry is clear. -/
theorem userinit_frame {w w0 : World} (hw : ∀ q, w.proc q = .free)
    (h : w.userinit = .ok (some w0)) (q : Fin NPROC) :
    w0.proc q = .free ∨ (w0.proc q).state = .runnable := by
  have hframe : Returns w.userinit fun o => ∀ w0, o = some w0 →
      w0.proc q = .free ∨ (w0.proc q).state = .runnable := by
    unfold World.userinit
    refine allocproc_frame.bind fun r hr => ?_
    split
    · exact .pure nofun
    rename_i p hsome
    obtain ⟨_, honly, _⟩ := allocproc_slot hr hsome
    split
    · refine (Safe.unknown _).bind fun m _ => ?_
      split
      · refine .pure fun w0 hw0 => ?_
        cases hw0
        by_cases hq : q = p
        · rw [hq]
          exact .inr (by simp)
        refine .inl ?_
        rw [proc_setProc, update_of_ne hq]
        exact (honly q hq).trans (hw q)
      · exact .pure nofun
    · exact .pure nofun
  exact hframe.of_ok h w0 rfl

theorem State.init_ok {w : World} (hw : w.proc q = .free ∨ (w.proc q).state = .runnable) :
    (State.init w).Ok q ∧ (State.init w).Spared q := by
  refine ⟨⟨fun hu => ?_, fun _ _ => rfl⟩, rfl, rfl, fun hu => ?_⟩
  · rcases hw with hw | hw
    · exact ⟨congrArg Proc.pid hw, congrArg Proc.sz hw, rfl, rfl⟩
    · exact nomatch hw.symm.trans hu
  rcases hw with hw | hw
  · exact congrArg Proc.killed hw
  · exact nomatch hw.symm.trans hu

/-- A process that `allocproc` returns finds its entry as at boot, in every run
whose steps spare the entry. -/
theorem allocproc_clean_of_spared {k : Kmem} {trampoline : Nat} {w₀ : World} {ls : List Label}
    {s t : State} {p : Fin NPROC} (hboot : (World.boot k trampoline).userinit = .ok (some w₀))
    (hrun : Run (fun s l t => Spares p s l ∧ s.step l = some t) (.init w₀) ls s)
    (halloc : s.allocproc = .ok (some p, t)) : t.Clean p := by
  have hstart := State.init_ok (userinit_frame (fun _ => rfl) hboot p)
  have hinv : s.Ok p ∧ s.Spared p := by
    refine hrun.inv (I := fun s => s.Ok p ∧ s.Spared p) hstart ?_
    intro s l t hs hstep
    exact ⟨hs.1.moves (moves_of_step hstep.2), hs.2.step hs.1 hstep.2 hstep.1⟩
  unfold State.allocproc at halloc
  obtain ⟨⟨r, w⟩, hw, heq⟩ := bind_eq_ok.1 halloc
  obtain ⟨rfl, rfl⟩ := Prod.mk.inj (Except.ok.inj heq)
  obtain ⟨hslot, _, _, hkilled, hsz⟩ := allocproc_slot (allocproc_frame.of_ok hw) rfl
  have hu := unusedSlot_state hslot
  obtain ⟨_, hsz', hchan, hxstate⟩ := hinv.1.unused hu
  exact ⟨hinv.2.timer, hinv.2.cpuMask, hchan, hkilled.trans (hinv.2.killed hu), hxstate,
    hsz.trans hsz', hinv.1.closed (.inl hu)⟩

/-! ## Two processes in one entry -/

/-- The first process of the small machine. -/
def smallWorld : World :=
  match (World.boot smallKmem KERNBASE).userinit with
  | .ok (some w) => w
  | _ => World.boot smallKmem KERNBASE

theorem smallWorld_boot : (World.boot smallKmem KERNBASE).userinit = .ok (some smallWorld) := by
  have hsome : (match (World.boot smallKmem KERNBASE).userinit with
      | .ok (some _) => true
      | _ => false) = true := by decide +kernel
  unfold smallWorld
  split at hsome
  · rename_i w hw
    rw [hw]
  · cases hsome

/-- The state after some steps of the small machine. -/
def small (ls : List Label) : State := after State.step (.init smallWorld) ls

/-- Where `allocproc` leads, and which entry it returns. -/
def State.allocated (s : State) : Option (Fin NPROC × State) :=
  match s.allocproc with
  | .ok (some p, t) => some (p, t)
  | _ => none

theorem allocproc_of_allocated {p : Fin NPROC} {t : State} (h : s.allocated = some (p, t)) :
    s.allocproc = .ok (some p, t) := by
  unfold State.allocated at h
  split at h
  · rename_i p' t' hs
    obtain ⟨rfl, rfl⟩ := Prod.mk.inj (some.inj h)
    exact hs
  · cases h

/-- The first process, and the entry of its children. -/
def first : Fin NPROC := ⟨0, NPROC_pos⟩

theorem one_lt_NPROC : 1 < NPROC := by decide

def child : Fin NPROC := ⟨1, one_lt_NPROC⟩

/-- What a new process in the entry of the children finds: whether it has no
timer, its mask and its `killed`. -/
def State.found (s : State) : Option (Bool × Int32 × Bool) :=
  (s.allocated.filter (·.1 = child)).map fun r =>
    (decide ((r.2.fields child).timer = 0), (r.2.fields child).cpuMask,
      (r.2.world.proc child).killed)

theorem of_found {r : Bool × Int32 × Bool} (h : s.found = some r) :
    ∃ t, s.allocproc = .ok (some child, t) ∧
      decide ((t.fields child).timer = 0) = r.1 ∧ (t.fields child).cpuMask = r.2.1 ∧
      (t.world.proc child).killed = r.2.2 := by
  obtain ⟨⟨p, t⟩, hfilter, rfl⟩ := map_eq_some_iff.1 h
  obtain ⟨halloc, hp⟩ := filter_eq_some_iff.1 hfilter
  simp only [decide_eq_true_eq] at hp
  exact ⟨t, allocproc_of_allocated (hp ▸ halloc), rfl, rfl, rfl⟩

/-- A child sets a period and a mask, exits and is reaped. -/
def settles : List Label :=
  [.fork first, .setperiod child 5, .setCpuAffinity child 3, .exit child 0, .wait first 0]

/-- A child exits and is reaped. -/
def passes : List Label := [.fork first, .exit child 0, .wait first 0]

/-- Two runs that differ in what a reaped process has set, and the new process
has its timer and its mask in one of them; and a `kill(0)` kills a process that
does not exist yet. -/
theorem allocproc_keeps_timer_and_mask :
    (World.boot smallKmem KERNBASE).userinit = .ok (some smallWorld) ∧
    (∃ s t, Run (fun s l t => State.step s l = some t) (.init smallWorld) settles s ∧
      s.allocproc = .ok (some child, t) ∧ (t.fields child).timer ≠ 0 ∧
      (t.fields child).cpuMask = 3) ∧
    (∃ s t, Run (fun s l t => State.step s l = some t) (.init smallWorld) passes s ∧
      s.allocproc = .ok (some child, t) ∧ (t.fields child).timer = 0 ∧
      (t.fields child).cpuMask = 0) ∧
    ∃ s t, Run (fun s l t => State.step s l = some t) (.init smallWorld) [.kill first 0] s ∧
      s.allocproc = .ok (some child, t) ∧ (t.world.proc child).killed = true := by
  have hsettles : (small settles).found = some (false, 3, false) := by decide +kernel
  have hpasses : (small passes).found = some (true, 0, false) := by decide +kernel
  have hkill : (small [.kill first 0]).found = some (true, 0, true) := by decide +kernel
  obtain ⟨t₁, halloc₁, htimer₁, hmask₁, _⟩ := of_found hsettles
  obtain ⟨t₂, halloc₂, htimer₂, hmask₂, _⟩ := of_found hpasses
  obtain ⟨t₃, halloc₃, _, _, hkilled⟩ := of_found hkill
  refine ⟨smallWorld_boot, ⟨_, t₁, Run.of_after (by decide +kernel), halloc₁, ?_, hmask₁⟩,
    ⟨_, t₂, Run.of_after (by decide +kernel), halloc₂, ?_, hmask₂⟩,
    ⟨_, t₃, Run.of_after (by decide +kernel), halloc₃, hkilled⟩⟩
  · exact of_decide_eq_false htimer₁
  · exact of_decide_eq_true htimer₂

/-- The steps that spare an entry, computed. -/
def spareStep (p : Fin NPROC) (s : State) (l : Label) : Option State :=
  if Spares p s l then s.step l else none

theorem of_spareStep (h : spareStep p s l = some t) : Spares p s l ∧ s.step l = some t := by
  unfold spareStep at h
  split at h
  · rename_i hl
    exact ⟨hl, h⟩
  · cases h

/-- A child opens a file, asks for the mask 0, exits and is reaped, and the
first process kills the process ID 7. -/
def behaves : List Label :=
  [.fork first, .setFile child ⟨3, by decide⟩ (some 1), .setCpuAffinity child 0,
    .exit child 42, .wait first 0, .kill first 7]

theorem allocproc_clean_of_spared_behaves :
    ∃ s t, Run (fun s l t => Spares child s l ∧ State.step s l = some t) (.init smallWorld)
        behaves s ∧
      s.allocproc = .ok (some child, t) ∧ t.Clean child := by
  have hfound : (after (spareStep child) (.init smallWorld) behaves).found =
      some (true, 0, false) := by
    decide +kernel
  obtain ⟨t, halloc, _⟩ := of_found hfound
  have hafter : Run (fun s l t => spareStep child s l = some t) (.init smallWorld) behaves
      (after (spareStep child) (.init smallWorld) behaves) := Run.of_after (by decide +kernel)
  have hrun := hafter.mono fun _ _ _ => of_spareStep
  exact ⟨_, t, hrun, halloc, allocproc_clean_of_spared smallWorld_boot hrun halloc⟩

end Xv6.Reuse
