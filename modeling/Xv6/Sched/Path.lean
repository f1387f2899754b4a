import Xv6.Sched.Model

/-!
# The path of one process through its call

What a step of the system does to one process.  `Instr.Next` is the flow
graph of the code: the locations that can follow an instruction.  A step of
another process, of a scheduler or of an interrupt leaves a process where it
is (`Proc.Disturbed`), so what holds along every path of the flow graph holds
in every interleaving.

`WayOut` is a part of the flow graph that a killed process leaves after a
bounded number of its own steps and in which it does not sleep.
`Instr.map` moves code over to a larger state.
-/

namespace Xv6.Sched

open Lib

variable {σ τ Loc Loc' χ χ' κ κ' ε : Type}

/-! ## The flow graph -/

/-- The locations that can follow an instruction of a process with page table
`pt` whose `p->killed` is `k`, on data `d`. -/
def Instr.Next (k : Bool) (pt : PageTable) (d : σ) : Instr σ Loc χ κ → Loc → Prop
  | .acquire _ next, loc | .release _ next, loc | .sleep _ _ next, loc
  | .wakeup _ next, loc => loc = next
  | .access f, loc => ∃ p d', f p d = some (d', loc)
  | .killed next, loc => loc = next k
  | .copyin _ _ next, loc => ∃ r, loc = next r
  | .copyout dstva src next, loc => ∃ ram, loc = next (copyoutRam pt ram dstva src).1
  | .ret _, _ => False

/-- Whether an instruction is a call of `sleep`. -/
def Instr.sleeps : Instr σ Loc χ κ → Bool
  | .sleep .. => true
  | _ => false

/-- The location at which a process is or goes on. -/
def Ctl.loc : Ctl Loc χ κ → Loc
  | .code loc => loc
  | .sleep _ _ _ next => next
  | .wakeup _ _ next => next

/-- The process will not be put to `SLEEPING` by the `sleep` that it is in,
if any. -/
def Ctl.awake : Ctl Loc χ κ → Bool
  | .sleep .locked .. | .sleep .released .. | .sleep .marked .. => false
  | _ => true

/-! ## Steps of others -/

/-- What a process can see happen to it without a step of its own. -/
structure Proc.Disturbed (pr pr' : Proc Loc χ κ) : Prop where
  killed : pr.killed = true → pr'.killed = true
  state : pr'.state = .sleeping → pr.state = .sleeping
  ctl : pr'.ctl = pr.ctl ∨ ∃ c lk next,
    pr.ctl = .sleep .switched c lk next ∧ pr'.ctl = .sleep .resumed c lk next

namespace Proc.Disturbed

theorem refl (pr : Proc Loc χ κ) : pr.Disturbed pr := ⟨id, id, .inl rfl⟩

/-- A change of the state that does not put the process to sleep. -/
theorem setState (pr : Proc Loc χ κ) {r : RunState} (h : r ≠ .sleeping) :
    pr.Disturbed { pr with state := r } := ⟨id, fun heq => absurd heq h, .inl rfl⟩

theorem wake (pr : Proc Loc χ κ) : pr.Disturbed pr.wake := by
  unfold Proc.wake
  split
  · exact setState pr (by decide)
  · exact refl pr

theorem wakeOn [DecidableEq χ] (pr : Proc Loc χ κ) (c : χ) : pr.Disturbed (pr.wakeOn c) := by
  unfold Proc.wakeOn
  split
  · exact setState pr (by decide)
  · exact refl pr

theorem kill (pr : Proc Loc χ κ) : pr.Disturbed { pr.wake with killed := true } :=
  ⟨fun _ => rfl, (wake pr).state, (wake pr).ctl⟩

theorem loc {pr pr' : Proc Loc χ κ} (h : pr.Disturbed pr') : pr'.ctl.loc = pr.ctl.loc := by
  obtain heq | ⟨c, lk, next, heq, heq'⟩ := h.ctl
  · rw [heq]
  rw [heq, heq']
  rfl

theorem awake {pr pr' : Proc Loc χ κ} (h : pr.Disturbed pr') (hpr : pr.ctl.awake = true) :
    pr'.ctl.awake = true := by
  obtain heq | ⟨c, lk, next, heq, heq'⟩ := h.ctl
  · rw [heq, hpr]
  rw [heq']
  rfl

end Proc.Disturbed

variable {i : Instr σ Loc χ κ} {next : Loc} {l : Label Loc ε} {c : χ}

namespace State

/-- A change of one entry disturbs every process that it disturbs. -/
theorem disturbed_setProc {s : State σ Loc χ κ} {q : Fin NPROC} {pr : Proc Loc χ κ}
    (h : (s.proc q).Disturbed pr) (p : Fin NPROC) :
    (s.proc p).Disturbed ((s.setProc q pr).proc p) := by
  by_cases hp : p = q
  · subst hp
    rwa [setProc_self]
  · rw [setProc_of_ne s pr hp]
    exact .refl _

variable {s t : State σ Loc χ κ}

/-- What a step of process `p` leaves alone: the page tables, and where the
other processes are. -/
structure Keeps (p : Fin NPROC) (s t : State σ Loc χ κ) : Prop where
  others : ∀ q, q ≠ p → (s.proc q).Disturbed (t.proc q)
  pagetable : t.pagetable = s.pagetable

/-- Only the entry of the process itself changes. -/
theorem Keeps.of_update {p : Fin NPROC} {s t : State σ Loc χ κ} {pr : Proc Loc χ κ}
    (hproc : t.proc = Function.update s.proc p pr) (hpt : t.pagetable = s.pagetable) :
    Keeps p s t where
  others q hq := by
    rw [hproc, Function.update_of_ne hq]
    exact .refl _
  pagetable := hpt

theorem exec_keeps [DecidableEq κ] {p : Fin NPROC} (h : s.exec p i = some t) : Keeps p s t := by
  cases i with
  | acquire lk next | release lk next =>
    simp only [exec] at h
    split at h
    · cases h
      exact .of_update rfl rfl
    · cases h
  | access f =>
    simp only [exec, Option.map_eq_some_iff] at h
    obtain ⟨r, -, rfl⟩ := h
    exact .of_update rfl rfl
  | killed next | sleep chan lk next =>
    simp only [exec] at h
    split at h
    · cases h
    cases h
    exact .of_update rfl rfl
  | copyin srcva len next | copyout dstva src next | wakeup chan next =>
    cases h
    exact .of_update rfl rfl
  | ret r => cases h

/-- Only `copyout` changes user memory. -/
theorem exec_ram [DecidableEq κ] {p : Fin NPROC} (h : s.exec p i = some t) :
    t.ram = s.ram ∨ ∃ dstva src next, i = .copyout dstva src next ∧
      t.ram = (copyoutRam (s.pagetable p) s.ram dstva src).2 := by
  cases i with
  | acquire lk next | release lk next =>
    simp only [exec] at h
    split at h
    · cases h
      exact .inl rfl
    · cases h
  | access f =>
    simp only [exec, Option.map_eq_some_iff] at h
    obtain ⟨r, -, rfl⟩ := h
    exact .inl rfl
  | killed next | sleep chan lk next =>
    simp only [exec] at h
    split at h
    · cases h
    cases h
    exact .inl rfl
  | copyin srcva len next | wakeup chan next =>
    cases h
    exact .inl rfl
  | copyout dstva src next =>
    cases h
    exact .inr ⟨dstva, src, next, rfl, rfl⟩
  | ret r => cases h

theorem execSleep_keeps [DecidableEq κ] {p : Fin NPROC} {lk : κ}
    {stage : Stage} (h : s.execSleep p c lk next stage = some t) : Keeps p s t ∧ t.ram = s.ram := by
  cases stage with
  | locked | tidied =>
    simp only [execSleep] at h
    split at h
    · cases h
      exact ⟨.of_update rfl rfl, rfl⟩
    · cases h
  | released | marked | resumed =>
    cases h
    exact ⟨.of_update rfl rfl, rfl⟩
  | switched => cases h

/-- A round of `wakeup` may wake another process. -/
theorem execWakeup_keeps [DecidableEq χ] {p : Fin NPROC} {i : Nat}
    (h : s.execWakeup p c i next = some t) : Keeps p s t ∧ t.ram = s.ram := by
  unfold execWakeup at h
  split at h
  · dsimp only at h
    split at h
    · cases h
      exact ⟨.of_update rfl rfl, rfl⟩
    split at h
    · cases h
    cases h
    refine ⟨⟨fun q hq => ?_, rfl⟩, rfl⟩
    rw [setCtl, setProc_of_ne _ _ hq]
    exact disturbed_setProc (.wakeOn _ c) q
  · cases h
    exact ⟨.of_update rfl rfl, rfl⟩

theorem run_keeps [DecidableEq χ] [DecidableEq κ] {code : Code σ Loc χ κ ε} {p : Fin NPROC}
    (h : s.run code p = some t) : Keeps p s t := by
  unfold run at h
  split at h
  · split at h
    · exact exec_keeps h
    · cases h
  · split at h
    · exact (execSleep_keeps h).1
    · cases h
  · split at h
    · exact (execWakeup_keeps h).1
    · cases h

theorem schedule_disturbs {q : Fin NPROC} (h : s.schedule q = some t) (p : Fin NPROC) :
    (s.proc p).Disturbed (t.proc p) := by
  unfold schedule at h
  split at h
  · split at h
    · rename_i c lk next hctl
      cases h
      apply disturbed_setProc
      exact ⟨id, fun heq => RunState.noConfusion heq, .inr ⟨c, lk, next, hctl, rfl⟩⟩
    · cases h
      exact disturbed_setProc (.setState _ (by decide)) p
  · cases h

/-- Everything but the process's own steps and the start of a call leaves it
where it is. -/
theorem step_disturbs [DecidableEq χ] [DecidableEq κ] {code : Code σ Loc χ κ ε} {p : Fin NPROC}
    (h : s.step code l = some t) (hrun : l ≠ .run p) (hstart : ∀ loc, l ≠ .start p loc) :
    (s.proc p).Disturbed (t.proc p) := by
  cases l with
  | run q => exact (run_keeps h).others p fun heq => hrun (by rw [heq])
  | schedule q => exact schedule_disturbs h p
  | yield q =>
    simp only [step, yield] at h
    split at h
    · cases h
      exact disturbed_setProc (.setState _ (by decide)) p
    · cases h
  | kill q =>
    simp only [step, kill] at h
    split at h
    · cases h
    cases h
    exact disturbed_setProc (.kill _) p
  | expire q =>
    simp only [step, expire] at h
    split at h
    · cases h
    cases h
    exact disturbed_setProc (.wake _) p
  | start q loc =>
    have hp : p ≠ q := fun heq => hstart loc (by rw [heq])
    simp only [step, start] at h
    split at h
    · split at h
      · split at h
        · cases h
          rw [setCtl, setProc_of_ne _ _ hp]
          exact .refl _
        · cases h
      · cases h
    · cases h
  | env | user =>
    cases h
    exact .refl _

/-! ## Own steps -/

/-- After its own instruction a process is at a next location, in `sleep` or
in `wakeup`. -/
theorem exec_proc_self [DecidableEq κ] {p : Fin NPROC} (h : s.exec p i = some t) :
    (∃ next, i.Next (s.proc p).killed (s.pagetable p) s.data next ∧ i.sleeps = false ∧
        t.proc p = { s.proc p with ctl := .code next }) ∨
      (∃ c next, i.Next (s.proc p).killed (s.pagetable p) s.data next ∧ i.sleeps = false ∧
        t.proc p = { s.proc p with ctl := .wakeup c 0 next }) ∨
      ∃ c lk next, i.Next (s.proc p).killed (s.pagetable p) s.data next ∧ i.sleeps = true ∧
        t.proc p = { s.proc p with locked := true, ctl := .sleep .locked c lk next } := by
  cases i with
  | acquire lk next | release lk next =>
    simp only [exec] at h
    split at h
    · cases h
      exact .inl ⟨next, rfl, rfl, setProc_self ..⟩
    · cases h
  | access f =>
    simp only [exec, Option.map_eq_some_iff] at h
    obtain ⟨r, hr, rfl⟩ := h
    exact .inl ⟨r.2, ⟨p, r.1, hr⟩, rfl, setProc_self ..⟩
  | killed next =>
    simp only [exec] at h
    split at h
    · cases h
    cases h
    exact .inl ⟨next (s.proc p).killed, rfl, rfl, setProc_self ..⟩
  | copyin | copyout =>
    cases h
    exact .inl ⟨_, ⟨_, rfl⟩, rfl, setProc_self ..⟩
  | sleep chan lk next =>
    simp only [exec] at h
    split at h
    · cases h
    cases h
    exact .inr (.inr ⟨chan, lk, next, rfl, rfl, setProc_self ..⟩)
  | wakeup chan next =>
    cases h
    exact .inr (.inl ⟨chan, next, rfl, rfl, setProc_self ..⟩)
  | ret r => cases h

/-- `sleep` does not change where the process goes on. -/
theorem execSleep_loc [DecidableEq κ] {p : Fin NPROC} {lk : κ}
    {stage : Stage} (h : s.execSleep p c lk next stage = some t) : (t.proc p).ctl.loc = next := by
  cases stage with
  | locked | tidied =>
    simp only [execSleep] at h
    split at h
    · cases h
      rw [setCtl, setProc_self]
      rfl
    · cases h
  | released | marked | resumed =>
    cases h
    rw [setProc_self]
    rfl
  | switched => cases h

/-- A round of `wakeup` moves the process itself one entry on. -/
theorem execWakeup_proc_self [DecidableEq χ] {p : Fin NPROC} {i : Nat}
    (h : s.execWakeup p c i next = some t) :
    (i < NPROC ∧ t.proc p = { s.proc p with ctl := .wakeup c (i + 1) next }) ∨
      t.proc p = { s.proc p with ctl := .code next } := by
  unfold execWakeup at h
  split at h
  · rename_i hi
    dsimp only at h
    split at h
    · cases h
      exact .inl ⟨hi, setProc_self ..⟩
    rename_i hne
    split at h
    · cases h
    cases h
    refine .inl ⟨hi, ?_⟩
    rw [setCtl, setProc_self, setProc_of_ne _ _ (Ne.symm hne)]
  · cases h
    exact .inr (setProc_self ..)

variable [DecidableEq χ] [DecidableEq κ] {code : Code σ Loc χ κ ε} {p : Fin NPROC}

/-- An own step at a location takes an edge of the flow graph. -/
theorem run_next {loc : Loc} (hctl : (s.proc p).ctl = .code loc) (h : s.run code p = some t) :
    (code.instr loc).Next (s.proc p).killed (s.pagetable p) s.data (t.proc p).ctl.loc := by
  rw [run, hctl] at h
  dsimp only at h
  split at h
  · obtain ⟨next, hn, -, heq⟩ | ⟨c, next, hn, -, heq⟩ | ⟨c, lk, next, hn, -, heq⟩ :=
      exec_proc_self h
    · rwa [heq]
    · rwa [heq]
    · rwa [heq]
  · cases h

/-- An own step stays in `sleep` or `wakeup` or starts at a location. -/
theorem run_loc (h : s.run code p = some t) :
    (t.proc p).ctl.loc = (s.proc p).ctl.loc ∨ ∃ loc, (s.proc p).ctl = .code loc := by
  unfold run at h
  split at h
  · rename_i loc hctl
    exact .inr ⟨loc, hctl⟩
  · rename_i stage c lk next hctl
    left
    rw [hctl]
    split at h
    · rw [execSleep_loc h]
      rfl
    · cases h
  rename_i c i next hctl
  left
  rw [hctl]
  split at h
  · obtain ⟨-, heq⟩ | heq := execWakeup_proc_self h
    all_goals
      rw [heq]
      rfl
  · cases h

/-- An own step changes user memory only by a `copyout`. -/
theorem run_ram (h : s.run code p = some t) :
    t.ram = s.ram ∨ ∃ loc dstva src next, (s.proc p).ctl = .code loc ∧
      code.instr loc = .copyout dstva src next ∧
      t.ram = (copyoutRam (s.pagetable p) s.ram dstva src).2 := by
  unfold run at h
  split at h
  · rename_i loc hctl
    split at h
    · obtain heq | ⟨dstva, src, next, hi, heq⟩ := exec_ram h
      · exact .inl heq
      · exact .inr ⟨loc, dstva, src, next, hctl, hi, heq⟩
    · cases h
  · split at h
    · exact .inl (execSleep_keeps h).2
    · cases h
  · split at h
    · exact .inl (execWakeup_keeps h).2
    · cases h

theorem step_pagetable (h : s.step code l = some t) : t.pagetable = s.pagetable := by
  cases l with
  | run q => exact (run_keeps h).pagetable
  | schedule q =>
    simp only [step, schedule] at h
    split at h
    · split at h
      all_goals
        cases h
        rfl
    · cases h
  | yield q =>
    simp only [step, yield] at h
    split at h
    · cases h
      rfl
    · cases h
  | kill q =>
    simp only [step, kill] at h
    split at h
    · cases h
    cases h
    rfl
  | expire q =>
    simp only [step, expire] at h
    split at h
    · cases h
    cases h
    rfl
  | start q loc =>
    simp only [step, start] at h
    split at h
    · split at h
      · split at h
        · cases h
          rfl
        · cases h
      · cases h
    · cases h
  | env | user =>
    cases h
    rfl

end State

/-! ## Ways out -/

/-- Locations at which a killed process is on its way out of a call: it does
not sleep, and every instruction brings it nearer to the end.  `guard` is
what the data must satisfy when the process looks at them. -/
structure WayOut (code : Code σ Loc χ κ ε) where
  on : Loc → Prop
  rank : Loc → Nat
  guard : Loc → σ → Prop
  awake {loc : Loc} : on loc → (code.instr loc).sleeps = false
  next {loc loc' : Loc} {pt : PageTable} {d : σ} : on loc → guard loc d →
    (code.instr loc).Next true pt d loc' → on loc' ∧ rank loc' < rank loc

namespace WayOut

variable {code : Code σ Loc χ κ ε} (w : WayOut code)

/-- A killed process on its way out. -/
structure Leaving (pr : Proc Loc χ κ) : Prop where
  killed : pr.killed = true
  state : pr.state ≠ .sleeping
  awake : pr.ctl.awake = true
  on : w.on pr.ctl.loc

/-- A bound on the steps that a process on its way out still makes.  A
`wakeup` takes one step for each entry of the process table. -/
def left : Ctl Loc χ κ → Nat
  | .code loc => w.rank loc * (NPROC + 2)
  | .wakeup _ i next => w.rank next * (NPROC + 2) + (NPROC - i) + 1
  | .sleep .tidied _ _ next => w.rank next * (NPROC + 2) + 1
  | .sleep _ _ _ next => w.rank next * (NPROC + 2) + 2

/-- The data satisfy the guard whenever process `p` looks at them. -/
def Guarded (p : Fin NPROC) (s : State σ Loc χ κ) (l : Label Loc ε) : Prop :=
  ∀ loc, l = .run p → (s.proc p).ctl = .code loc → w.guard loc s.data

variable {w} {p : Fin NPROC} {pr pr' : Proc Loc χ κ}

theorem Leaving.disturbed (h : w.Leaving pr) (hd : pr.Disturbed pr') : w.Leaving pr' where
  killed := hd.killed h.killed
  state heq := h.state (hd.state heq)
  awake := hd.awake h.awake
  on := by
    rw [hd.loc]
    exact h.on

theorem left_disturbed (hd : pr.Disturbed pr') : w.left pr'.ctl ≤ w.left pr.ctl := by
  obtain heq | ⟨c, lk, next, heq, heq'⟩ := hd.ctl
  · rw [heq]
  rw [heq, heq']
  exact Nat.le_refl _

theorem left_next {loc next : Loc} (h : w.rank next < w.rank loc) :
    w.rank next * (NPROC + 2) + (NPROC + 2) ≤ w.rank loc * (NPROC + 2) := by
  have := Nat.mul_le_mul_right (NPROC + 2) (Nat.succ_le_of_lt h)
  rwa [Nat.succ_mul] at this

variable [DecidableEq χ] [DecidableEq κ] {s t : State σ Loc χ κ}

/-- A step of a process on its way out. -/
theorem Leaving.run (h : w.Leaving (s.proc p)) (hguard : w.Guarded p s (.run p))
    (hrun : s.run code p = some t) :
    w.Leaving (t.proc p) ∧ w.left (t.proc p).ctl + 1 ≤ w.left (s.proc p).ctl := by
  obtain ⟨hkilled, hstate, hawake, hon⟩ := h
  simp only [State.run] at hrun
  cases hctl : (s.proc p).ctl with
  | code loc =>
    rw [hctl] at hrun hon
    have hsleeps : (code.instr loc).sleeps = false := w.awake hon
    have hnext : ∀ {next},
        (code.instr loc).Next (s.proc p).killed (s.pagetable p) s.data next →
        w.on next ∧ w.rank next < w.rank loc := by
      rw [hkilled]
      exact fun h => w.next hon (hguard loc rfl hctl) h
    dsimp only at hrun
    split at hrun
    · obtain ⟨next, hn, -, heq⟩ | ⟨c, next, hn, -, heq⟩ | ⟨c, lk, next, -, hs, -⟩ :=
        State.exec_proc_self hrun
      · have hlt := left_next (hnext hn).2
        rw [heq]
        refine ⟨⟨hkilled, hstate, rfl, (hnext hn).1⟩, ?_⟩
        simp only [left]
        omega
      · have hlt := left_next (hnext hn).2
        rw [heq]
        refine ⟨⟨hkilled, hstate, rfl, (hnext hn).1⟩, ?_⟩
        simp only [left]
        omega
      · rw [hsleeps] at hs
        cases hs
    · cases hrun
  | sleep stage c lk next =>
    rw [hctl] at hrun hawake hon
    dsimp only at hrun
    split at hrun
    · cases stage with
      | locked | released | marked => cases hawake
      | switched => cases hrun
      | resumed =>
        cases hrun
        rw [State.setProc_self]
        exact ⟨⟨hkilled, hstate, rfl, hon⟩, Nat.le_refl _⟩
      | tidied =>
        simp only [State.execSleep] at hrun
        split at hrun
        · cases hrun
          rw [State.setCtl, State.setProc_self]
          exact ⟨⟨hkilled, hstate, rfl, hon⟩, Nat.le_refl _⟩
        · cases hrun
    · cases hrun
  | wakeup c i next =>
    rw [hctl] at hrun hon
    dsimp only at hrun
    split at hrun
    · obtain ⟨hi, heq⟩ | heq := State.execWakeup_proc_self hrun
      all_goals
        rw [heq]
        refine ⟨⟨hkilled, hstate, rfl, hon⟩, ?_⟩
        simp only [left]
        omega
    · cases hrun

end WayOut

/-- Whether a label is a step of process `p` itself. -/
def Label.own (p : Fin NPROC) : Label Loc ε → Bool
  | .run q => q = p
  | _ => false

/-- The steps of the system as long as process `p` stays in its call. -/
def StepsInCall [DecidableEq χ] [DecidableEq κ] (code : Code σ Loc χ κ ε) (p : Fin NPROC)
    (s : State σ Loc χ κ) (l : Label Loc ε) (t : State σ Loc χ κ) : Prop :=
  (∀ loc, l ≠ .start p loc) ∧ Steps code s l t

/-- A set of locations that every path of a process with page table `pt`
stays in. -/
def Code.Closed (code : Code σ Loc χ κ ε) (pt : PageTable) (P : Loc → Prop) : Prop :=
  ∀ ⦃loc next k d⦄, P loc → (code.instr loc).Next k pt d next → P next

/-- What is closed under the flow graph holds in every interleaving. -/
theorem Code.Closed.of_run [DecidableEq χ] [DecidableEq κ] {code : Code σ Loc χ κ ε}
    {pt : PageTable} {P : Loc → Prop} {p : Fin NPROC} {s t : State σ Loc χ κ}
    {ls : List (Label Loc ε)} (hP : code.Closed pt P) (hpt : s.pagetable p = pt)
    (hs : P (s.proc p).ctl.loc) (hrun : Run (StepsInCall code p) s ls t) :
    t.pagetable p = pt ∧ P (t.proc p).ctl.loc := by
  refine hrun.inv (I := fun t => t.pagetable p = pt ∧ P (t.proc p).ctl.loc) ⟨hpt, hs⟩ ?_
  intro t l u ⟨hpt, ht⟩ hstep
  refine ⟨by rw [State.step_pagetable hstep.2, hpt], ?_⟩
  by_cases hl : l = .run p
  · subst hl
    obtain heq | ⟨loc, hctl⟩ := State.run_loc hstep.2
    · rwa [heq]
    have hnext := State.run_next hctl hstep.2
    rw [hctl] at ht
    rw [hpt] at hnext
    exact hP ht hnext
  · rwa [(State.step_disturbs hstep.2 hl hstep.1).loc]

namespace WayOut

variable {code : Code σ Loc χ κ ε} {w : WayOut code} {p : Fin NPROC}
  {s t : State σ Loc χ κ}

/-- A kill puts a process that sleeps in the loop on its way out. -/
theorem Leaving.of_kill {lk : κ} (hstate : (s.proc p).state = .sleeping)
    (hctl : (s.proc p).ctl = .sleep .switched c lk next) (hon : w.on next)
    (hkill : s.kill p = some t) : w.Leaving (t.proc p) := by
  unfold State.kill at hkill
  split at hkill
  · cases hkill
  cases hkill
  rw [State.setProc_self, Proc.wake, if_pos hstate]
  refine ⟨rfl, ?_, ?_, ?_⟩
  · intro heq
    cases heq
  · show (s.proc p).ctl.awake = true
    rw [hctl]
    rfl
  · show w.on (s.proc p).ctl.loc
    rwa [hctl]

variable [DecidableEq χ] [DecidableEq κ]

theorem Leaving.step (h : w.Leaving (s.proc p)) (hguard : w.Guarded p s l)
    (hstep : StepsInCall code p s l t) : w.Leaving (t.proc p) ∧
      w.left (t.proc p).ctl + (if l.own p then 1 else 0) ≤ w.left (s.proc p).ctl := by
  by_cases hl : l = .run p
  · subst hl
    simpa [Label.own] using h.run hguard hstep.2
  have hown : l.own p = false := by
    cases l with
    | run q => simpa [Label.own] using fun heq => hl (by rw [heq])
    | schedule | yield | kill | expire | start | env | user => rfl
  have hd := State.step_disturbs hstep.2 hl hstep.1
  rw [hown]
  exact ⟨h.disturbed hd, left_disturbed hd⟩

/-- A killed process on its way out stays on it in every interleaving: it
never sleeps again, and its own steps are bounded. -/
theorem Leaving.of_run {ls : List (Label Loc ε)} (h : w.Leaving (s.proc p))
    (hrun : Run (fun s l t => w.Guarded p s l ∧ StepsInCall code p s l t) s ls t) :
    w.Leaving (t.proc p) ∧
      w.left (t.proc p).ctl + ls.countP (Label.own p) ≤ w.left (s.proc p).ctl := by
  induction hrun with
  | nil => exact ⟨h, Nat.le_refl _⟩
  | @snoc ls l t u _ last ih =>
    obtain ⟨hleaving, hle⟩ := ih
    obtain ⟨hnext, hle'⟩ := hleaving.step last.1 last.2
    refine ⟨hnext, ?_⟩
    rw [List.countP_append, List.countP_singleton]
    omega

end WayOut

/-! ## Code over a larger state -/

/-- The instruction over a larger state, of which `get` and `set` reach the
part that it works on. -/
def Instr.map (get : τ → σ) (set : τ → σ → τ) (loc : Loc → Loc') (chan : χ → χ')
    (lk : κ → κ') : Instr σ Loc χ κ → Instr τ Loc' χ' κ'
  | .acquire l next => .acquire (lk l) (loc next)
  | .release l next => .release (lk l) (loc next)
  | .access f => .access fun p d => (f p (get d)).map fun r => (set d r.1, loc r.2)
  | .killed next => .killed fun k => loc (next k)
  | .copyin srcva len next => .copyin srcva len fun r => loc (next r)
  | .copyout dstva src next => .copyout dstva src fun r => loc (next r)
  | .sleep c l next => .sleep (chan c) (lk l) (loc next)
  | .wakeup c next => .wakeup (chan c) (loc next)
  | .ret r => .ret r

section Map

variable {get : τ → σ} {set : τ → σ → τ} {loc : Loc → Loc'} {chan : χ → χ'} {lk : κ → κ'}

@[simp] theorem Instr.map_sleeps (i : Instr σ Loc χ κ) :
    (i.map get set loc chan lk).sleeps = i.sleeps := by
  cases i <;> rfl

theorem Instr.ret_of_map {r : Int} (h : i.map get set loc chan lk = .ret r) : i = .ret r := by
  cases i with
  | ret r' =>
    cases h
    rfl
  | acquire | release | access | killed | copyin | copyout | sleep | wakeup => cases h

theorem Instr.copyout_of_map {dstva : Nat} {src : List UInt8}
    {next : Bool → Loc'} (h : i.map get set loc chan lk = .copyout dstva src next) :
    ∃ next', i = .copyout dstva src next' := by
  cases i with
  | copyout dstva' src' next' =>
    cases h
    exact ⟨next', rfl⟩
  | acquire | release | access | killed | copyin | sleep | wakeup | ret => cases h

theorem Instr.Next.of_map {k : Bool} {pt : PageTable} {d : τ} {l : Loc'}
    (h : (i.map get set loc chan lk).Next k pt d l) :
    ∃ next, l = loc next ∧ i.Next k pt (get d) next := by
  cases i with
  | acquire l next | release l next | sleep c l next | wakeup c next => exact ⟨next, h, rfl⟩
  | killed next => exact ⟨next k, h, rfl⟩
  | access f =>
    obtain ⟨p, d', hf⟩ := h
    obtain ⟨r, hr, heq⟩ := Option.map_eq_some_iff.1 hf
    exact ⟨r.2, (congrArg Prod.snd heq).symm, p, r.1, hr⟩
  | copyin srcva len next =>
    obtain ⟨r, rfl⟩ := h
    exact ⟨next r, rfl, r, rfl⟩
  | copyout dstva src next =>
    obtain ⟨ram, rfl⟩ := h
    exact ⟨_, rfl, ram, rfl⟩
  | ret r => exact h.elim

end Map

end Xv6.Sched
