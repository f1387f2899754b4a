import Xv6.Smp.Model

/-!
# A process runs on at most one CPU

What is known of the system in every state that it can reach: who holds the
spinlocks, which thread each CPU executes, and how `p->state` and `c->proc`
agree.

`p->state` and `c->proc` disagree only while a CPU holds `p->lock`: between
the two stores of the scheduler that choose `p`, and from the store with which
`p` stops being `RUNNING` until its CPU is back in the scheduler and has
cleared `c->proc`.  `Loc.pick` and `Loc.leaving` name these places.
-/

namespace Xv6.Smp

open Lib Sched Function Loc Option State Thread

/-! ## Clauses about nothing

A clause about what a location says holds where the location says nothing. -/

section

variable {α β : Type}

theorem of_none {P : α → Prop} (a : α) (h : none = some a) : P a := by cases h

theorem of_none₂ {P : α → β → Prop} (a : α) (b : β) (h : none = some (a, b)) : P a b := by cases h

theorem of_false {P : Prop} (h : false = true) : P := by cases h

theorem of_false₁ {P : α → Prop} (a : α) (h : false = true) : P a := by cases h

theorem of_lt_zero {P : Slot → Prop} (j : Slot) (h : j.val < 0) : P j := by cases h

end

/-! ## What a location says -/

/-- The states of a process that its parent has not lost. -/
def live : RunState → Bool
  | .sleeping | .runnable | .running => true
  | .unused | .used | .zombie => false

namespace Loc

/-- The calls below a location hold the locks that it expects them to hold. -/
def Wf (me : Option Slot) : Loc → Prop
  | .sched _ _ => me = none
  | .switch _ st next =>
    me ≠ none ∧ (st = .runnable ∨ st = .sleeping) ∧ next.locks me = [] ∧ next.Wf me
  | .block _ _ _ next => me ≠ none ∧ next.locks me = [] ∧ next.Wf me
  | .sleep _ _ lk next => me ≠ none ∧ next.locks me = [lk] ∧ (∀ q, lk ≠ .proc q) ∧ next.Wf me
  | .wakeup _ _ next => (∀ q, .proc q ∉ next.locks me) ∧ next.Wf me
  | .callback _ _ next => next.locks me = [] ∧ next.Wf me
  | .user _ | .forkret | .setCpuAffinity _ _ | .waitPeriod | .setperiod _ _ | .kill _ _
  | .fork _ | .exit _ _ | .wait _ _ => me ≠ none

/-- The thread has given up `RUNNING`, and `c->proc` is not cleared yet. -/
def leaving : Loc → Bool
  | .sched _ .back | .switch .sched _ _ | .sleep .sched _ _ _ | .exit .waitUnlock _
  | .exit .sched _ => true
  | _ => false

/-- A scheduler between its choice of a process and its return to the loop. -/
def pick : Loc → Option (Slot × SchedAt)
  | .sched i .chosen => some (i, .chosen)
  | .sched i .switch => some (i, .switch)
  | .sched i .back => some (i, .back)
  | _ => none

/-- The state of an entry that the thread has looked at and keeps locked. -/
def knows : Loc → Option (Slot × RunState)
  | .fork (.allocpid np) | .fork (.used np _) => some (np, .unused)
  | .wait (.copyout q _) _ | .wait (.free q _) _ => some (q, .zombie)
  | _ => none

/-- A `fork` whose child is `USED`. -/
def making : Loc → Option Slot
  | .switch _ _ next | .block _ _ _ next | .sleep _ _ _ next | .wakeup _ _ next
  | .callback _ _ next => next.making
  | .fork (.trapframe np) | .fork (.pagetable np) | .fork (.context np) | .fork (.uvmcopy np)
  | .fork (.shmemFork np) | .fork (.undo np) | .fork (.readPid np) | .fork (.release np _)
  | .fork (.waitLock np _) | .fork (.parent np _) | .fork (.waitUnlock np _)
  | .fork (.lock np _) | .fork (.ready np _) => some np
  | _ => none

/-- A `fork` whose child has a context. -/
def made : Loc → Option Slot
  | .switch _ _ next | .block _ _ _ next | .sleep _ _ _ next | .wakeup _ _ next
  | .callback _ _ next => next.made
  | .fork (.uvmcopy np) | .fork (.shmemFork np) | .fork (.readPid np) | .fork (.release np _)
  | .fork (.waitLock np _) | .fork (.parent np _) | .fork (.waitUnlock np _)
  | .fork (.lock np _) | .fork (.ready np _) => some np
  | _ => none

/-- The end of `exit`, as long as the thread runs. -/
def dying : Loc → Bool
  | .exit .waitUnlock _ | .exit .sched _ => true
  | _ => false

/-- The end of `exit`. -/
def dead : Loc → Bool
  | .exit .dead _ => true
  | _ => false

/-- Where a process goes on when a scheduler switches to it. -/
def parked : Loc → Bool
  | .forkret | .switch .unlock _ _ | .sleep .tidy _ _ _ => true
  | _ => false

/-- All that a location says. -/
def promise (L : Loc) : Bool × Option (Slot × SchedAt) × Option (Slot × RunState) ×
    Option Slot × Option Slot × Bool :=
  (L.leaving, L.pick, L.knows, L.making, L.made, L.dying)

variable {me : Option Slot} {L : Loc}

/-- A thread that holds no `p->lock` is at none of the places at which
`p->state` and `c->proc` disagree. -/
theorem Wf.calm (hwf : L.Wf me) (h : ∀ q, .proc q ∉ L.locks me) :
    L.promise = (false, none, none, L.making, L.made, false) := by
  cases me with
  | none =>
    cases L with
    | sched i at_ => cases at_ <;> simp_all [locks, promise, leaving, pick, knows, dying]
    | wakeup | callback => rfl
    | _ => simp_all [Wf]
  | some p =>
    cases L with
    | sched => simp [Wf] at hwf
    | switch at_ | sleep at_ | fork at_ | exit at_ | wait at_ =>
      cases at_ <;> simp_all [locks, promise, leaving, pick, knows, dying]
    | _ => rfl

theorem not_live_of_knows {q : Slot} {st : RunState} (h : L.knows = some (q, st)) :
    live st = false := by
  cases L with
  | fork at_ | wait at_ => cases at_ <;> simp_all [knows] <;> simp [← h.2, live]
  | _ => simp [knows] at h

theorem making_of_made {np : Slot} (h : L.made = some np) : L.making = some np := by
  induction L with
  | fork at_ => cases at_ <;> simp_all [made, making]
  | switch _ _ _ ih | block _ _ _ _ ih | sleep _ _ _ _ ih | wakeup _ _ _ ih
  | callback _ _ _ ih => exact ih h
  | _ => simp [made] at h

end Loc

/-! ## The invariant -/

variable {n : Nat}

namespace State

variable (s : State n)

/-- The spinlocks that CPU `c` holds where it stands. -/
def locks (c : Fin n) : List Lock := (s.here c).locks (s.active c).slot

/-- CPU `c` has chosen process `p`, and is not rid of it yet. -/
def Engaged (c : Fin n) (p : Slot) : Prop :=
  s.current c = some p ∨ (s.here c).pick = some (p, .chosen)

/-- CPU `c` has made process `p` `RUNNING`, and has not made it anything else
since. -/
def Runs (c : Fin n) (p : Slot) : Prop :=
  (s.current c = some p ∧ (s.here c).leaving = false) ∨ (s.here c).pick = some (p, .chosen)

end State

structure Inv (s : State n) : Prop where
  locks : ∀ c, ∀ l ∈ s.locks c, s.lock l = some c
  wf : ∀ t, (s.loc t).Wf t.slot
  sched : ∀ c c', s.active c = .sched c' → c' = c
  active : ∀ c p, s.active c = .proc p →
    s.current c = some p ∧ (s.loc (.sched c)).pick = some (p, .back)
  idle : ∀ c p, s.active c = .sched c → (s.current c = some p ↔
    (s.loc (.sched c)).pick = some (p, .switch) ∨ (s.loc (.sched c)).pick = some (p, .back))
  engaged : ∀ c c' p, s.Engaged c p → s.Engaged c' p → c = c'
  running : ∀ p, (s.proc p).state = .running ↔ ∃ c, s.Runs c p
  parked : ∀ p, (∀ c, s.active c ≠ .proc p) → (s.loc (.proc p)).parked = true ∨
    ((s.loc (.proc p)).dead = true ∧ live (s.proc p).state = false)
  knows : ∀ t q st, (s.loc t).knows = some (q, st) → (s.proc q).state = st
  making : ∀ t np, (s.loc t).making = some np → (s.proc np).state = .used
  distinct : ∀ t t' np, (s.loc t).making = some np → (s.loc t').making = some np → t = t'
  made : ∀ t np, (s.loc t).made = some np → s.loc (.proc np) = .forkret
  dying : ∀ p, (s.loc (.proc p)).dying = true → (s.proc p).state = .zombie

namespace Inv

variable {s t : State n} {c c' : Fin n} {p q : Slot}

/-- Two CPUs do not execute the same thread. -/
theorem active_inj (h : Inv s) (heq : s.active c = s.active c') : c = c' := by
  cases hc : s.active c with
  | sched d => exact (h.sched c d hc).symm.trans (h.sched c' d (heq ▸ hc))
  | proc p => exact h.engaged c c' p (.inl (h.active c p hc).1) (.inl (h.active c' p (heq ▸ hc)).1)

theorem exclusive (h : Inv s) {l : Lock} (hc : l ∈ s.locks c) (hc' : l ∈ s.locks c') : c = c' :=
  some.inj ((h.locks c l hc).symm.trans (h.locks c' l hc'))

/-- The process that a CPU is about to leave is the one it holds the lock
of. -/
theorem lock_of_leaving (h : Inv s) (hcur : s.current c = some p)
    (hleave : (s.here c).leaving = true) : .proc p ∈ s.locks c := by
  have hwf := h.wf (s.active c)
  rw [here] at hleave
  rw [State.locks, State.here]
  cases hact : s.active c with
  | sched d =>
    obtain rfl := h.sched c d hact
    have hidle := (h.idle d p hact).1 hcur
    rw [hact] at hleave hwf
    generalize s.loc (.sched d) = L at *
    cases L with
    | sched i at_ => cases at_ <;> simp_all [Loc.pick, Loc.leaving, Loc.locks]
    | wakeup | callback => simp [leaving] at hleave
    | _ => simp [Wf, slot] at hwf
  | proc q =>
    obtain rfl : q = p := some.inj ((h.active c q hact).1.symm.trans hcur)
    rw [hact] at hleave hwf
    generalize s.loc (.proc q) = L at *
    cases L with
    | sched => simp [Wf, slot] at hwf
    | switch at_ | sleep at_ | exit at_ => cases at_ <;> simp_all [Loc.leaving, Loc.locks, slot]
    | _ => simp [leaving] at hleave

/-- A CPU that has chosen a process holds its lock until it runs. -/
theorem lock_of_chosen (h : (s.here c).pick = some (p, .chosen)) : .proc p ∈ s.locks c := by
  rw [State.locks]
  generalize s.here c = L at *
  cases L with
  | sched i at_ => cases at_ <;> simp_all [Loc.pick, Loc.locks]
  | _ => simp [pick] at h

/-- A thread that has looked at an entry is executed by the CPU that holds the
lock. -/
theorem active_of_knows (h : Inv s) {T : Thread n} {st : RunState}
    (hknows : (s.loc T).knows = some (p, st)) : ∃ c, s.active c = T ∧ .proc p ∈ s.locks c := by
  have hlock : .proc p ∈ (s.loc T).locks T.slot := by
    generalize s.loc T = L at *
    cases L with
    | fork at_ | wait at_ => cases at_ <;> simp_all [Loc.knows, Loc.locks]
    | _ => simp [Loc.knows] at hknows
  cases T with
  | sched c =>
    have hwf := h.wf (.sched c)
    generalize s.loc (.sched c) = L at *
    cases L with
    | fork | wait => simp [Wf, slot] at hwf
    | _ => simp [Loc.knows] at hknows
  | proc q =>
    by_cases hact : ∃ c, s.active c = .proc q
    · obtain ⟨c, hc⟩ := hact
      refine ⟨c, hc, ?_⟩
      rwa [State.locks, State.here, hc]
    have hpark := h.parked q fun c hc => hact ⟨c, hc⟩
    generalize s.loc (.proc q) = L at *
    cases L with
    | fork | wait => simp [Loc.parked, Loc.dead] at hpark
    | _ => simp [Loc.knows] at hknows

theorem active_of_dying (h : Inv s) (hdying : (s.loc (.proc p)).dying = true) :
    ∃ c, s.active c = .proc p ∧ .proc p ∈ s.locks c := by
  by_cases hact : ∃ c, s.active c = .proc p
  · obtain ⟨c, hc⟩ := hact
    refine ⟨c, hc, ?_⟩
    rw [State.locks, State.here, hc]
    generalize s.loc (.proc p) = L at *
    cases L with
    | exit at_ => cases at_ <;> simp_all [Loc.dying, Loc.locks, slot]
    | _ => simp [Loc.dying] at hdying
  have hpark := h.parked p fun c hc => hact ⟨c, hc⟩
  generalize s.loc (.proc p) = L at *
  cases L with
  | exit at_ => cases at_ <;> simp_all [Loc.dying, Loc.parked, Loc.dead]
  | _ => simp [Loc.dying] at hdying

/-- In a state in which `p->lock` is free, a process is `RUNNING` if and only
if it is the current process of one CPU, and of no other. -/
theorem current_iff (h : Inv s) (hfree : s.lock (.proc p) = none) :
    ((s.proc p).state = .running ↔ ∃! c, s.current c = some p) ∧
      ((s.proc p).state ≠ .running → ∀ c, s.current c ≠ some p) := by
  have hno : ∀ c, .proc p ∉ s.locks c := fun c hc => by simpa [hfree] using h.locks c _ hc
  have hruns : ∀ c, s.Runs c p ↔ s.current c = some p := fun c => by
    constructor
    · rintro (hc | hc)
      · exact hc.1
      · exact absurd (lock_of_chosen hc) (hno c)
    · intro hc
      refine .inl ⟨hc, Bool.eq_false_iff.2 fun hleave => hno c (h.lock_of_leaving hc hleave)⟩
  refine ⟨?_, fun hne c hc => hne ((h.running p).2 ⟨c, (hruns c).2 hc⟩)⟩
  rw [h.running p]
  constructor
  · rintro ⟨c, hc⟩
    exact ⟨c, (hruns c).1 hc, fun c' hc' => h.engaged c' c p (.inl hc') (.inl ((hruns c).1 hc))⟩
  · rintro ⟨c, hc, -⟩
    exact ⟨c, (hruns c).2 hc⟩

theorem running_of_current (h : Inv s) (hcur : s.current c = some p)
    (hstay : (s.here c).leaving = false) : (s.proc p).state = .running :=
  (h.running p).2 ⟨c, .inl ⟨hcur, hstay⟩⟩

/-- A child that `fork` is making does not run. -/
theorem not_active_of_made (h : Inv s) {T : Thread n} (hmade : (s.loc T).made = some p) :
    s.active c ≠ .proc p := by
  intro hact
  have hused := h.making T p (making_of_made hmade)
  have hloc := h.made T p hmade
  have hrun := h.running_of_current (h.active c p hact).1 (by rw [here, hact, hloc]; rfl)
  rw [hused] at hrun
  cases hrun

/-! ## Steps that leave the choice of processes alone -/

end Inv

/-- A step of CPU `c` after which its thread stands at `next`, and which
changes nothing that other CPUs hold. -/
structure Local (s : State n) (c : Fin n) (next : Loc) (t : State n) : Prop where
  loc : t.loc = update s.loc (s.active c) next
  active : t.active = s.active
  others : ∀ c' l, c' ≠ c → s.lock l = some c' → t.lock l = some c'
  mine : ∀ l ∈ next.locks (s.active c).slot, t.lock l = some c
  wf : next.Wf (s.active c).slot

/-- The changes of `p->state` by a CPU at `L`: by `wakeup` and the like,
`allocproc`, `wait`, a `fork` that fails or ends, the scheduler, and the
process itself. -/
inductive Swap (L : Loc) (q : Slot) : RunState → RunState → Prop where
  | wake : Swap L q .sleeping .runnable
  | alloc : Swap L q .unused .used
  | reap : Swap L q .zombie .unused
  | undo : L.making = some q → Swap L q .used .unused
  | ready : L.made = some q → Swap L q .used .runnable
  | run : Swap L q .runnable .running
  | stop (st : RunState) : Swap L q .running st

namespace Local

variable {s t : State n} {c c' : Fin n} {next : Loc}

section

variable (hl : Local s c next t)

include hl

theorem here_self : t.here c = next := by
  rw [here, hl.loc, hl.active, update_self]

theorem loc_of_ne {T : Thread n} (hT : T ≠ s.active c) : t.loc T = s.loc T := by
  rw [hl.loc, update_of_ne hT]

theorem here_of_ne (h : Inv s) (hne : c' ≠ c) : t.here c' = s.here c' := by
  rw [here, here, hl.active]
  exact hl.loc_of_ne fun heq => hne (h.active_inj heq)

theorem locks (h : Inv s) : ∀ c', ∀ l ∈ t.locks c', t.lock l = some c' := by
  intro c' l hmem
  by_cases hc : c' = c
  · subst hc
    rw [State.locks, hl.here_self, hl.active] at hmem
    exact hl.mine l hmem
  · rw [State.locks, hl.here_of_ne h hc, hl.active] at hmem
    exact hl.others c' l hc (h.locks c' l hmem)

theorem all_wf (h : Inv s) (T : Thread n) : (t.loc T).Wf T.slot := by
  by_cases hT : T = s.active c
  · rw [hl.loc, hT, update_self]
    exact hl.wf
  · rw [hl.loc_of_ne hT]
    exact h.wf T

theorem parked (h : Inv s) {p : Slot}
    (hstate : (s.loc (.proc p)).dead = true → live (s.proc p).state = false →
      live (t.proc p).state = false) (hidle : ∀ c, t.active c ≠ .proc p) :
    (t.loc (.proc p)).parked = true ∨
      ((t.loc (.proc p)).dead = true ∧ live (t.proc p).state = false) := by
  rw [hl.active] at hidle
  rw [hl.loc_of_ne fun heq => hidle c heq.symm]
  rcases h.parked p hidle with hp | ⟨hdead, hlive⟩
  · exact .inl hp
  · exact .inr ⟨hdead, hstate hdead hlive⟩

end

end Local

/-- What `next` promises about a child in the making and about the own
process. -/
structure Keeps (s : State n) (c : Fin n) (next : Loc) (t : State n) : Prop where
  knows : ∀ q st, next.knows = some (q, st) → (t.proc q).state = st
  making : ∀ np, next.making = some np → (t.proc np).state = .used ∧
    ∀ T, (s.loc T).making = some np → T = s.active c
  made : ∀ np, next.made = some np → s.loc (.proc np) = .forkret ∧ s.active c ≠ .proc np
  dying : ∀ p, next.dying = true → s.active c = .proc p → (t.proc p).state = .zombie

namespace Inv

variable {s t : State n} {c c' : Fin n} {p q : Slot} {next : Loc}

section

variable (h : Inv s)

include h

/-- A step in which no CPU starts or stops executing a thread.  What CPUs are
engaged in is left to the caller. -/
theorem of_parts (hl : Local s c next t) (hswap : ∀ q, (t.proc q).state = (s.proc q).state ∨
      (.proc q ∈ s.locks c ∧ Swap (s.here c) q (s.proc q).state (t.proc q).state))
    (hk : Keeps s c next t) (hactive : ∀ c p, s.active c = .proc p →
      t.current c = some p ∧ (s.loc (.sched c)).pick = some (p, .back))
    (hidle : ∀ c p, s.active c = .sched c → (t.current c = some p ↔
      (t.loc (.sched c)).pick = some (p, .switch) ∨ (t.loc (.sched c)).pick = some (p, .back)))
    (hengaged : ∀ c c' p, t.Engaged c p → t.Engaged c' p → c = c')
    (hrunning : ∀ p, (t.proc p).state = .running ↔ ∃ c, t.Runs c p) : Inv t := by
  -- a lock that another CPU holds protects the state of its process
  have hheld : ∀ c' q, c' ≠ c → .proc q ∈ s.locks c' → (t.proc q).state = (s.proc q).state :=
    fun c' q hc hq => (hswap q).resolve_right fun hr => hc (h.exclusive hq hr.1)
  refine ⟨hl.locks h, hl.all_wf h, ?_, ?_, ?_, hengaged, hrunning, ?_, ?_, ?_, ?_, ?_, ?_⟩
  · rw [hl.active]
    exact h.sched
  · intro c' p hact
    rw [hl.active] at hact
    rw [hl.loc_of_ne]
    · exact hactive c' p hact
    intro heq
    have hcc := h.sched c c' heq.symm
    rw [hcc, ← heq] at hact
    cases hact
  · intro c' p hact
    rw [hl.active] at hact
    exact hidle c' p hact
  · intro p hidle
    refine hl.parked h (fun hdead hlive => ?_) hidle
    rcases hswap p with heq | ⟨-, hs⟩
    · rwa [heq]
    generalize ha : (s.proc p).state = a, (t.proc p).state = b at *
    cases hs with
    | ready hm =>
      rw [h.made _ p hm] at hdead
      cases hdead
    | wake | run | stop => cases hlive
    | _ => rfl
  · intro T q st hknows
    by_cases hT : T = s.active c
    · rw [hT, hl.loc, update_self] at hknows
      exact hk.knows q st hknows
    rw [hl.loc_of_ne hT] at hknows
    obtain ⟨c', rfl, hlock⟩ := h.active_of_knows hknows
    rw [hheld c' q (fun hc => hT (by rw [hc])) hlock]
    exact h.knows _ q st hknows
  · intro T np hmaking
    by_cases hT : T = s.active c
    · rw [hT, hl.loc, update_self] at hmaking
      exact (hk.making np hmaking).1
    rw [hl.loc_of_ne hT] at hmaking
    have hused := h.making T np hmaking
    rcases hswap np with heq | ⟨-, hs⟩
    · rw [heq, hused]
    rw [hused] at hs
    generalize (t.proc np).state = b at *
    cases hs with
    | undo hm => exact absurd (h.distinct T (s.active c) np hmaking hm) hT
    | ready hm => exact absurd (h.distinct T (s.active c) np hmaking (making_of_made hm)) hT
  · intro T T' np hT hT'
    by_cases h1 : T = s.active c
    · by_cases h2 : T' = s.active c
      · rw [h1, h2]
      rw [h1, hl.loc, update_self] at hT
      rw [hl.loc_of_ne h2] at hT'
      exact absurd ((hk.making np hT).2 T' hT') h2
    rw [hl.loc_of_ne h1] at hT
    by_cases h2 : T' = s.active c
    · rw [h2, hl.loc, update_self] at hT'
      exact absurd ((hk.making np hT').2 T hT) h1
    · rw [hl.loc_of_ne h2] at hT'
      exact h.distinct T T' np hT hT'
  · intro T np hmade
    by_cases hT : T = s.active c
    · rw [hT, hl.loc, update_self] at hmade
      obtain ⟨hfork, hne⟩ := hk.made np hmade
      rw [hl.loc_of_ne hne.symm, hfork]
    rw [hl.loc_of_ne hT] at hmade
    rw [hl.loc_of_ne (h.not_active_of_made hmade).symm]
    exact h.made T np hmade
  · intro p hdying
    by_cases hp : .proc p = s.active c
    · rw [hp, hl.loc, update_self] at hdying
      exact hk.dying p hdying hp.symm
    rw [hl.loc_of_ne hp] at hdying
    obtain ⟨c', hact, hlock⟩ := h.active_of_dying hdying
    rw [hheld c' p (fun hc => hp (by rw [← hc, hact])) hlock]
    exact h.dying p hdying

/-- A step that changes neither `c->proc` nor which processes are `RUNNING`. -/
theorem of_local (hl : Local s c next t) (hcur : t.current = s.current)
    (hleave : next.leaving = (s.here c).leaving) (hpick : next.pick = (s.here c).pick)
    (hswap : ∀ q, (t.proc q).state = (s.proc q).state ∨
      (.proc q ∈ s.locks c ∧ Swap (s.here c) q (s.proc q).state (t.proc q).state ∧
        (s.proc q).state ≠ .running ∧ (t.proc q).state ≠ .running))
    (hk : Keeps s c next t) : Inv t := by
  have hhere : ∀ c', (t.here c').leaving = (s.here c').leaving ∧
      (t.here c').pick = (s.here c').pick := fun c' => by
    by_cases hc : c' = c
    · rw [hc, hl.here_self]
      exact ⟨hleave, hpick⟩
    · rw [hl.here_of_ne h hc]
      exact ⟨rfl, rfl⟩
  have hengaged : ∀ c' p, t.Engaged c' p ↔ s.Engaged c' p := fun c' p => by
    rw [Engaged, Engaged, hcur, (hhere c').2]
  have hruns : ∀ c' p, t.Runs c' p ↔ s.Runs c' p := fun c' p => by
    rw [Runs, Runs, hcur, (hhere c').1, (hhere c').2]
  refine h.of_parts hl (fun q => (hswap q).imp_right fun hq => ⟨hq.1, hq.2.1⟩) hk ?_ ?_ ?_ ?_
  · rw [hcur]
    exact h.active
  · intro c' p hact
    have hhc := (hhere c').2
    rw [here, here, hl.active, hact] at hhc
    rw [hcur, hhc]
    exact h.idle c' p hact
  · intro c1 c2 p h1 h2
    exact h.engaged c1 c2 p ((hengaged c1 p).1 h1) ((hengaged c2 p).1 h2)
  intro p
  have hstate : (t.proc p).state = .running ↔ (s.proc p).state = .running := by
    rcases hswap p with heq | ⟨-, -, hs, ht⟩
    · rw [heq]
    · exact iff_of_false ht hs
  rw [hstate, h.running p]
  exact exists_congr fun c' => (hruns c' p).symm

/-! ## Steps that choose a process or leave one -/

theorem pick_of_proc (hact : s.active c = .proc p) : (s.here c).pick = none := by
  have hwf := h.wf (.proc p)
  rw [here, hact]
  generalize s.loc (.proc p) = L at *
  cases L with
  | sched => simp [Wf, slot] at hwf
  | _ => rfl

/-- A process stops being `RUNNING`. -/
theorem of_mark (hl : Local s c next t) (hact : s.active c = .proc p)
    (hcur : t.current = s.current) (hstay : (s.here c).leaving = false)
    (hleave : next.leaving = true) (hpick : next.pick = none)
    (hlock : .proc p ∈ s.locks c) (hothers : ∀ q, q ≠ p → (t.proc q).state = (s.proc q).state)
    (hst : (t.proc p).state ≠ .running) (hk : Keeps s c next t) : Inv t := by
  have hp := (h.active c p hact).1
  have hrun := h.running_of_current hp hstay
  have hengaged : ∀ c' q, t.Engaged c' q ↔ s.Engaged c' q := fun c' q => by
    rw [Engaged, Engaged, hcur]
    by_cases hc : c' = c
    · rw [hc, hl.here_self, hpick, h.pick_of_proc hact]
    · rw [hl.here_of_ne h hc]
  refine h.of_parts hl (fun q => ?_) hk (fun c' q hq => ?_) (fun c' q hq => ?_)
    (fun c1 c2 q h1 h2 => ?_) (fun q => ?_)
  · by_cases hq : q = p
    · subst hq
      rw [hrun]
      exact .inr ⟨hlock, .stop _⟩
    · exact .inl (hothers q hq)
  · rw [hcur]
    exact h.active c' q hq
  · rw [hcur, hl.loc_of_ne]
    · exact h.idle c' q hq
    · rw [hact]
      simp
  · exact h.engaged c1 c2 q ((hengaged c1 q).1 h1) ((hengaged c2 q).1 h2)
  have hc : ¬ t.Runs c q := by
    rw [Runs, hl.here_self, hleave, hpick]
    simp
  by_cases hq : q = p
  · subst hq
    refine iff_of_false hst ?_
    rintro ⟨c', hr⟩
    have hc' : c' = c := h.engaged c' c q ((hengaged c' q).1 (hr.imp_left And.left)) (.inl hp)
    exact hc (hc' ▸ hr)
  rw [hothers q hq, h.running q]
  refine exists_congr fun c' => ?_
  by_cases hc' : c' = c
  · subst hc'
    refine iff_of_false ?_ hc
    rw [Runs, hp, h.pick_of_proc hact]
    simpa using fun heq => absurd heq.symm hq
  · rw [Runs, Runs, hcur, hl.here_of_ne h hc']

/-- A process that is `RUNNABLE` belongs to no CPU, apart from one that holds
its lock to leave it. -/
theorem not_engaged (hstate : (s.proc p).state ≠ .running)
    (hlock : .proc p ∈ s.locks c) (hstay : (s.here c).leaving = false) : ¬ s.Engaged c' p := by
  intro he
  by_cases hr : s.Runs c' p
  · exact hstate ((h.running p).2 ⟨c', hr⟩)
  have hcur : s.current c' = some p := he.resolve_right fun hp => hr (.inr hp)
  have hleave : (s.here c').leaving = true := by simpa using fun hf => hr (.inl ⟨hcur, hf⟩)
  obtain rfl := h.exclusive hlock (h.lock_of_leaving hcur hleave)
  rw [hstay] at hleave
  cases hleave

/-- The scheduler makes a process `RUNNING`. -/
theorem of_choose (hact : s.active c = .sched c)
    (hhere : s.here c = .sched p .test) (hl : Local s c (.sched p .chosen) t)
    (hcur : t.current = s.current) (hstate : (s.proc p).state = .runnable)
    (hrun : (t.proc p).state = .running)
    (hothers : ∀ q, q ≠ p → (t.proc q).state = (s.proc q).state) : Inv t := by
  have hlock : .proc p ∈ s.locks c := by
    rw [State.locks, hhere]
    simp [Loc.locks]
  have hnot : ∀ c', ¬ s.Engaged c' p := fun c' =>
    h.not_engaged (by rw [hstate]; simp) hlock (by rw [hhere]; rfl)
  have hnone : ∀ q, s.current c ≠ some q := fun q hq => by
    have hidle := (h.idle c q hact).1 hq
    rw [← hact, ← here, hhere] at hidle
    simp [pick] at hidle
  have hengaged : ∀ c' q, t.Engaged c' q ↔ s.Engaged c' q ∨ (c' = c ∧ q = p) := fun c' q => by
    rw [Engaged, Engaged, hcur]
    by_cases hc : c' = c
    · subst hc
      rw [hl.here_self, hhere]
      simp [pick, hnone, eq_comm]
    · simp [hl.here_of_ne h hc, hc]
  refine h.of_parts hl (fun q => ?_) ⟨?_, ?_, ?_, ?_⟩ (fun c' q hq => ?_) (fun c' q hq => ?_)
    (fun c1 c2 q h1 h2 => ?_) (fun q => ?_)
  · by_cases hq : q = p
    · subst hq
      rw [hstate, hrun]
      exact .inr ⟨hlock, .run⟩
    · exact .inl (hothers q hq)
  · simp [Loc.knows]
  · simp [Loc.making]
  · simp [Loc.made]
  · simp [Loc.dying]
  · rw [hcur]
    exact h.active c' q hq
  · rw [hcur]
    by_cases hc : c' = c
    · subst hc
      rw [hl.loc, hact, update_self]
      simp [pick, hnone]
    · rw [hl.loc_of_ne (by rw [hact]; simpa using hc)]
      exact h.idle c' q hq
  · rw [hengaged] at h1 h2
    rcases h1 with h1 | ⟨rfl, rfl⟩
    · rcases h2 with h2 | ⟨rfl, rfl⟩
      · exact h.engaged c1 c2 q h1 h2
      · exact absurd h1 (hnot c1)
    rcases h2 with h2 | ⟨rfl, -⟩
    · exact absurd h2 (hnot c2)
    · rfl
  · by_cases hq : q = p
    · subst hq
      refine iff_of_true hrun ⟨c, .inr ?_⟩
      rw [hl.here_self]
      rfl
    rw [hothers q hq, h.running q]
    refine exists_congr fun c' => ?_
    rw [Runs, Runs, hcur]
    by_cases hc : c' = c
    · subst hc
      rw [hl.here_self, hhere]
      simp [pick, hnone, Ne.symm hq]
    · rw [hl.here_of_ne h hc]

/-- The scheduler sets or clears `c->proc`. -/
theorem of_setProc (hact : s.active c = .sched c) (hl : Local s c next t)
    (hcur : ∀ c', c' ≠ c → t.current c' = s.current c')
    (hproc : ∀ q, (t.proc q).state = (s.proc q).state) (hidle : ∀ q, t.current c = some q ↔
      next.pick = some (q, .switch) ∨ next.pick = some (q, .back))
    (hengaged : ∀ q, t.Engaged c q → s.Engaged c q) (hruns : ∀ q, t.Runs c q ↔ s.Runs c q)
    (hk : Keeps s c next t) : Inv t := by
  have hengaged' : ∀ c' q, t.Engaged c' q → s.Engaged c' q := fun c' q hq => by
    by_cases hc : c' = c
    · exact hc ▸ hengaged q (hc ▸ hq)
    · rwa [Engaged, hcur c' hc, hl.here_of_ne h hc] at hq
  refine h.of_parts hl (fun q => .inl (hproc q)) hk (fun c' q hq => ?_) (fun c' q hq => ?_)
    (fun c1 c2 q h1 h2 => h.engaged c1 c2 q (hengaged' c1 q h1) (hengaged' c2 q h2))
    (fun q => ?_)
  · rw [hcur c' (fun hc => by rw [hc, hact] at hq; cases hq)]
    exact h.active c' q hq
  · by_cases hc : c' = c
    · subst hc
      rw [hl.loc, hact, update_self]
      exact hidle q
    · rw [hcur c' hc, hl.loc_of_ne (by rw [hact]; simpa using hc)]
      exact h.idle c' q hq
  · rw [hproc, h.running q]
    refine exists_congr fun c' => ?_
    by_cases hc : c' = c
    · exact hc ▸ (hruns q).symm
    · rw [Runs, Runs, hcur c' hc, hl.here_of_ne h hc]

/-- A CPU saves the location of its thread and goes on with another thread. -/
theorem of_switch {T : Thread n} (hactive : t.active = update s.active c T)
    (hloc : t.loc = update s.loc (s.active c) next)
    (hproc : t.proc = s.proc) (hlock : t.lock = s.lock) (hcur : t.current = s.current)
    (hT : T ≠ s.active c) (hwf : next.Wf (s.active c).slot)
    (hlocks : ∀ l ∈ (s.loc T).locks T.slot, s.lock l = some c)
    (hsched : ∀ c', T = .sched c' → c' = c)
    (hproc' : ∀ p, T = .proc p → s.current c = some p ∧ next.pick = some (p, .back))
    (hidle : ∀ p, T = .sched c → (s.current c = some p ↔
      (s.loc T).pick = some (p, .switch) ∨ (s.loc T).pick = some (p, .back)))
    (hleave : (s.loc T).leaving = (s.here c).leaving)
    (hpick : ∀ p, (s.loc T).pick = some (p, .chosen) ↔ (s.here c).pick = some (p, .chosen))
    (hparked : ∀ p, s.active c = .proc p →
      next.parked = true ∨ (next.dead = true ∧ live (s.proc p).state = false))
    (hknows : next.knows = none) (hmaking : next.making = (s.here c).making)
    (hmade : next.made = (s.here c).made) (hdying : next.dying = false) : Inv t := by
  have hactive_ne : ∀ c', c' ≠ c → t.active c' = s.active c' := fun c' hc => by
    rw [hactive, update_of_ne hc]
  have hactive_self : t.active c = T := by rw [hactive, update_self]
  have hloc_ne : ∀ T', T' ≠ s.active c → t.loc T' = s.loc T' := fun T' hT' => by
    rw [hloc, update_of_ne hT']
  have hloc_self : t.loc (s.active c) = next := by rw [hloc, update_self]
  have hhere_self : t.here c = s.loc T := by rw [here, hactive_self, hloc_ne T hT]
  have hhere_ne : ∀ c', c' ≠ c → t.here c' = s.here c' := fun c' hc => by
    rw [here, hactive_ne c' hc, hloc_ne _ fun heq => hc (h.active_inj heq), here]
  have hengaged : ∀ c' p, t.Engaged c' p ↔ s.Engaged c' p := fun c' p => by
    rw [Engaged, Engaged, hcur]
    by_cases hc : c' = c
    · rw [hc, hhere_self, hpick]
    · rw [hhere_ne c' hc]
  have hruns : ∀ c' p, t.Runs c' p ↔ s.Runs c' p := fun c' p => by
    rw [Runs, Runs, hcur]
    by_cases hc : c' = c
    · rw [hc, hhere_self, hpick, hleave]
    · rw [hhere_ne c' hc]
  have hmaking' : ∀ T', (t.loc T').making = (s.loc T').making := fun T' => by
    by_cases hT' : T' = s.active c
    · rw [hT', hloc_self, hmaking, here]
    · rw [hloc_ne T' hT']
  refine ⟨?_, ?_, ?_, ?_, ?_, ?_, ?_, ?_, ?_, ?_, ?_, ?_, ?_⟩
  · intro c' l hmem
    rw [hlock]
    by_cases hc : c' = c
    · subst hc
      rw [State.locks, hhere_self, hactive_self] at hmem
      exact hlocks l hmem
    · rw [State.locks, hhere_ne c' hc, hactive_ne c' hc] at hmem
      exact h.locks c' l hmem
  · intro T'
    by_cases hT' : T' = s.active c
    · rwa [hT', hloc_self]
    rw [hloc_ne T' hT']
    exact h.wf T'
  · intro c' c'' hact
    by_cases hc : c' = c
    · subst hc
      exact hsched c'' (hactive_self.symm.trans hact)
    · exact h.sched c' c'' ((hactive_ne c' hc).symm.trans hact)
  · intro c' p hact
    rw [hcur]
    by_cases hc : c' = c
    · subst hc
      have hTp : T = .proc p := hactive_self.symm.trans hact
      obtain ⟨hp, hnext⟩ := hproc' p hTp
      -- the thread that the CPU leaves is its scheduler
      have hself : s.active c' = .sched c' := by
        cases hs : s.active c' with
        | sched d => rw [h.sched c' d hs]
        | proc q =>
          have hq := (h.active c' q hs).1
          rw [hp, some.injEq] at hq
          exact absurd (hTp.trans (hq ▸ hs.symm)) hT
      rw [← hself, hloc_self]
      exact ⟨hp, hnext⟩
    · rw [hactive_ne c' hc] at hact
      rw [hloc_ne]
      · exact h.active c' p hact
      · intro heq
        exact hc (h.sched c c' heq.symm)
  · intro c' p hact
    rw [hcur]
    by_cases hc : c' = c
    · subst hc
      have hTc : T = .sched c' := hactive_self.symm.trans hact
      rw [← hTc, hloc_ne T hT]
      exact hidle p hTc
    · rw [hactive_ne c' hc] at hact
      rw [hloc_ne _ fun heq => hc (h.sched c c' heq.symm)]
      exact h.idle c' p hact
  · intro c1 c2 p h1 h2
    exact h.engaged c1 c2 p ((hengaged c1 p).1 h1) ((hengaged c2 p).1 h2)
  · intro p
    rw [hproc, h.running p]
    exact exists_congr fun c' => (hruns c' p).symm
  · intro p hidle'
    rw [hproc]
    by_cases hp : .proc p = s.active c
    · rw [hp, hloc_self]
      exact hparked p hp.symm
    rw [hloc_ne _ hp]
    refine h.parked p fun c' hact => ?_
    by_cases hc : c' = c
    · exact hp (hc ▸ hact).symm
    · exact hidle' c' ((hactive_ne c' hc).trans hact)
  · intro T' q st hq
    rw [hproc]
    by_cases hT' : T' = s.active c
    · rw [hT', hloc_self, hknows] at hq
      cases hq
    · rw [hloc_ne T' hT'] at hq
      exact h.knows T' q st hq
  · intro T' np hm
    rw [hproc]
    exact h.making T' np (hmaking' T' ▸ hm)
  · intro T1 T2 np h1 h2
    exact h.distinct T1 T2 np (hmaking' T1 ▸ h1) (hmaking' T2 ▸ h2)
  · intro T' np hm
    have hm' : (s.loc T').made = some np := by
      by_cases hT' : T' = s.active c
      · rw [hT', hloc_self, hmade, here] at hm
        rw [hT', hm]
      · rwa [hloc_ne T' hT'] at hm
    rw [hloc_ne _ (h.not_active_of_made hm').symm]
    exact h.made T' np hm'
  · intro p hd
    rw [hproc]
    by_cases hp : .proc p = s.active c
    · rw [hp, hloc_self, hdying] at hd
      cases hd
    · rw [hloc_ne _ hp] at hd
      exact h.dying p hd

/-- The thread of a process that no CPU executes starts anew. -/
theorem of_forkret (hq : ∀ c, s.active c ≠ .proc q)
    (hloc : t.loc = update s.loc (.proc q) .forkret) (hactive : t.active = s.active)
    (hproc : t.proc = s.proc) (hlock : t.lock = s.lock) (hcur : t.current = s.current) : Inv t := by
  have hloc_ne : ∀ T, T ≠ .proc q → t.loc T = s.loc T := fun T hT => by rw [hloc, update_of_ne hT]
  have hhere : ∀ c, t.here c = s.here c := fun c => by rw [here, hactive, hloc_ne _ (hq c), here]
  have hsched : ∀ c, t.loc (.sched c) = s.loc (.sched c) := fun c => hloc_ne _ (by simp)
  -- a location that says something is not the one that was replaced
  have hold : ∀ T, t.loc T = .forkret ∨ t.loc T = s.loc T := fun T => by
    by_cases hT : T = .proc q
    · exact .inl (by rw [hloc, hT, update_self])
    · exact .inr (hloc_ne T hT)
  have hmaking : ∀ T np, (t.loc T).making = some np → (s.loc T).making = some np :=
    fun T np hm => by
      rcases hold T with hf | hf <;> rw [hf] at hm
      · cases hm
      · exact hm
  constructor
  case locks =>
    intro c l hmem
    rw [State.locks, hhere, hactive] at hmem
    rw [hlock]
    exact h.locks c l hmem
  case wf =>
    intro T
    by_cases hT : T = .proc q
    · rw [hloc, hT, update_self]
      simp [Wf, slot]
    · rw [hloc_ne T hT]
      exact h.wf T
  case sched =>
    rw [hactive]
    exact h.sched
  case active =>
    intro c p hact
    rw [hactive] at hact
    rw [hsched, hcur]
    exact h.active c p hact
  case idle =>
    intro c p hact
    rw [hactive] at hact
    rw [hsched, hcur]
    exact h.idle c p hact
  case engaged =>
    intro c1 c2 p h1 h2
    rw [Engaged, hhere, hcur] at h1 h2
    exact h.engaged c1 c2 p h1 h2
  case running =>
    intro p
    rw [hproc, h.running p]
    refine exists_congr fun c => ?_
    rw [Runs, Runs, hhere, hcur]
  case parked =>
    intro p hidle
    rw [hactive] at hidle
    rw [hproc]
    by_cases hp : p = q
    · rw [hloc, hp, update_self]
      exact .inl rfl
    · rw [hloc_ne _ (by simpa using hp)]
      exact h.parked p hidle
  case knows =>
    intro T q st hq
    rw [hproc]
    rcases hold T with hT | hT <;> rw [hT] at hq
    · cases hq
    · exact h.knows T q st hq
  case making =>
    intro T np hm
    rw [hproc]
    exact h.making T np (hmaking T np hm)
  case distinct =>
    exact fun T1 T2 np h1 h2 => h.distinct T1 T2 np (hmaking T1 np h1) (hmaking T2 np h2)
  case made =>
    intro T np hm
    rcases hold (.proc np) with hnp | hnp
    · exact hnp
    rcases hold T with hT | hT <;> rw [hT] at hm
    · cases hm
    · exact hnp.trans (h.made T np hm)
  case dying =>
    intro p hd
    rw [hproc]
    rcases hold (.proc p) with hp | hp <;> rw [hp] at hd
    · cases hd
    · exact h.dying p hd

/-- A child in the making is not executed while its maker holds its lock. -/
theorem not_active_of_making (hmaking : (s.here c).making = some q)
    (hlock : .proc q ∈ s.locks c) (hstay : (s.here c).leaving = false) (c' : Fin n) :
    s.active c' ≠ .proc q := by
  intro hact
  have hengaged : s.Engaged c' q := .inl (h.active c' q hact).1
  have hused := h.making _ q hmaking
  exact h.not_engaged (by rw [hused]; simp) hlock hstay hengaged

end

end Inv

/-! ## Instructions -/

/-- `next` promises no more than `L` about a child in the making and about the
own process. -/
structure Modest (L next : Loc) : Prop where
  knows : ∀ q st, next.knows = some (q, st) → L.knows = some (q, st)
  making : ∀ np, next.making = some np → L.making = some np
  made : ∀ np, next.made = some np → L.made = some np
  dying : next.dying = true → L.dying = true

/-- Moving from `L` to `next` promises nothing new. -/
structure Calm (L next : Loc) : Prop extends Modest L next where
  leaving : next.leaving = L.leaving
  pick : next.pick = L.pick

namespace Calm

/-- Both locations say the same. -/
theorem of_eq {L next : Loc} (h : next.promise = L.promise) : Calm L next := by
  simp only [promise, Prod.mk.injEq] at h
  obtain ⟨hleave, hpick, hknows, hmaking, hmade, hdying⟩ := h
  exact ⟨⟨fun _ _ h => hknows ▸ h, fun _ h => hmaking ▸ h, fun _ h => hmade ▸ h,
    fun h => hdying ▸ h⟩, hleave, hpick⟩

/-- A call returns to a location that holds no `p->lock`. -/
theorem to_next {me : Option Slot} {L next : Loc} (hwf : next.Wf me)
    (hlocks : ∀ q, .proc q ∉ next.locks me)
    (hL : L.promise = (false, none, none, next.making, next.made, false)) : Calm L next :=
  .of_eq ((hwf.calm hlocks).trans hL.symm)

end Calm

/-- A thread goes from `L` to `next` without another lock. -/
structure Onward (me : Option Slot) (L next : Loc) : Prop extends Calm L next where
  wf : next.Wf me
  locks : ∀ l ∈ next.locks me, l ∈ L.locks me

section

variable {s t : State n} {c : Fin n} {q : Slot} {L next : Loc} {l : Lock} {T : Thread n}

theorem Local.setLoc (h : Inv s) (hwf : next.Wf (s.active c).slot)
    (hlocks : ∀ l ∈ next.locks (s.active c).slot, l ∈ s.locks c)
    (hloc : t.loc = update s.loc (s.active c) next) (hactive : t.active = s.active)
    (hlock : t.lock = s.lock) : Local s c next t where
  loc := hloc
  active := hactive
  others _ _ _ hl := hlock ▸ hl
  mine l hl := hlock ▸ h.locks c l (hlocks l hl)
  wf := hwf

theorem Local.acquire (h : Inv s) (hwf : next.Wf (s.active c).slot) (hfree : s.lock l = none)
    (hlocks : ∀ l' ∈ next.locks (s.active c).slot, l' = l ∨ l' ∈ s.locks c) :
    Local s c next ((s.setLock l (some c)).setLoc c next) where
  loc := rfl
  active := rfl
  others c' l' _ hl' := by
    have hne : l' ≠ l := fun heq => by rw [heq, hfree] at hl'; cases hl'
    simpa [State.setLoc, State.setLock, hne] using hl'
  mine l' hl' := by
    rcases hlocks l' hl' with rfl | hmem
    · simp [State.setLoc, State.setLock]
    have hheld := h.locks c l' hmem
    have hne : l' ≠ l := fun heq => by rw [heq, hfree] at hheld; cases hheld
    simpa [State.setLoc, State.setLock, hne] using hheld
  wf := hwf

theorem Local.release (h : Inv s) (hwf : next.Wf (s.active c).slot) (hheld : s.lock l = some c)
    (hlocks : ∀ l' ∈ next.locks (s.active c).slot, l' ≠ l ∧ l' ∈ s.locks c) :
    Local s c next ((s.setLock l none).setLoc c next) where
  loc := rfl
  active := rfl
  others c' l' hc hl' := by
    have hne : l' ≠ l := fun heq => by
      rw [heq, hheld, some.injEq] at hl'
      exact hc hl'.symm
    simpa [State.setLoc, State.setLock, hne] using hl'
  mine l' hl' := by
    obtain ⟨hne, hmem⟩ := hlocks l' hl'
    simpa [State.setLoc, State.setLock, hne] using h.locks c l' hmem
  wf := hwf

namespace Inv

theorem keeps_of_modest (h : Inv s) (hcalm : Modest (s.here c) next)
    (hproc : ∀ q, (t.proc q).state = (s.proc q).state ∨ live (s.proc q).state = true) :
    Keeps s c next t := by
  -- what a location promises is a state in which nobody is alive
  have hsame : ∀ q st, (s.proc q).state = st → live st = false → (t.proc q).state = st :=
    fun q st hq hlive => by
      rcases hproc q with heq | hl
      · rw [heq, hq]
      rw [hq, hlive] at hl
      cases hl
  refine ⟨fun q st hq => ?_, fun np hm => ⟨?_, fun T hT => ?_⟩, fun np hm => ⟨?_, ?_⟩,
    fun p hd hact => ?_⟩
  · exact hsame q _ (h.knows _ q st (hcalm.knows q st hq)) (not_live_of_knows hq)
  · exact hsame np _ (h.making _ np (hcalm.making np hm)) rfl
  · exact h.distinct T _ np hT (hcalm.making np hm)
  · exact h.made _ np (hcalm.made np hm)
  · exact h.not_active_of_made (hcalm.made np hm)
  · refine hsame p _ (h.dying p ?_) rfl
    rw [← hact]
    exact hcalm.dying hd

/-- A step that changes no `p->state`. -/
theorem of_calm (h : Inv s) (hl : Local s c next t) (hcalm : Calm (s.here c) next)
    (hcur : t.current = s.current) (hproc : ∀ q, (t.proc q).state = (s.proc q).state) : Inv t :=
  h.of_local hl hcur hcalm.leaving hcalm.pick (fun q => .inl (hproc q))
    (h.keeps_of_modest hcalm.toModest fun q => .inl (hproc q))

variable {b : Bool}

section

variable (h : Inv s) (hact : s.active c = T) (hL : s.here c = L)

include h hact hL

theorem of_choose_loc
    {f : Bool → Loc} (hstep : s.exec c b (.choose f) = some t) (hgo : Onward T.slot L (f b)) :
    Inv t := by
  subst hact hL
  cases hstep
  exact h.of_calm (.setLoc h hgo.wf hgo.locks rfl rfl rfl) hgo.toCalm rfl fun _ => rfl

theorem of_acquire (hstep : s.exec c b (.acquire l next) = some t) (hcalm : Calm L next)
    (hwf : next.Wf T.slot)
    (hlocks : ∀ l' ∈ next.locks T.slot, l' = l ∨ l' ∈ L.locks T.slot) : Inv t := by
  subst hact hL
  obtain ⟨hfree, rfl⟩ := exec_acquire.1 hstep
  exact h.of_calm (.acquire h hwf hfree hlocks) hcalm rfl fun _ => rfl

theorem of_release (hstep : s.exec c b (.release l next) = some t) (hcalm : Calm L next)
    (hwf : next.Wf T.slot)
    (hlocks : ∀ l' ∈ next.locks T.slot, l' ≠ l ∧ l' ∈ L.locks T.slot) : Inv t := by
  subst hact hL
  obtain ⟨hheld, rfl⟩ := exec_release.1 hstep
  exact h.of_calm (.release h hwf hheld hlocks) hcalm rfl fun _ => rfl

theorem of_holding {yes no : Loc} (hstep : s.exec c b (.holding l yes no) = some t)
    (hyes : Onward T.slot L yes) (hno : Onward T.slot L no) : Inv t := by
  subst hact hL
  cases hstep
  split
  · exact h.of_calm (.setLoc h hyes.wf hyes.locks rfl rfl rfl) hyes.toCalm rfl fun _ => rfl
  · exact h.of_calm (.setLoc h hno.wf hno.locks rfl rfl rfl) hno.toCalm rfl fun _ => rfl

theorem of_allocpid {f : Nat → Loc} (hstep : s.exec c b (.allocpid f) = some t)
    (hgo : ∀ pid, Onward T.slot L (f pid)) : Inv t := by
  subst hact hL
  cases hstep
  exact h.of_calm (.setLoc h (hgo _).wf (hgo _).locks rfl rfl rfl) (hgo _).toCalm rfl fun _ => rfl

end

theorem state_setEntry {pr : Proc} (hstate : pr.state = (s.proc q).state) (q' : Slot) :
    (((s.setEntry q pr).setLoc c next).proc q').state = (s.proc q').state := by
  by_cases hq : q' = q
  · subst hq
    simpa [setEntry, setLoc] using hstate
  · simp [setEntry, setLoc, hq]

/-- An access that does not change the state of the entry. -/
theorem of_access (h : Inv s) (hact : s.active c = T) (hL : s.here c = L)
    {f : Proc → Proc × Loc} (hstep : s.exec c b (.access q f) = some t)
    (hstate : (f (s.proc q)).1.state = (s.proc q).state)
    (hgo : Onward T.slot L (f (s.proc q)).2) : Inv t := by
  subst hact hL
  cases hstep
  exact h.of_calm (.setLoc h hgo.wf hgo.locks rfl rfl rfl) hgo.toCalm rfl (state_setEntry hstate)

/-- A step that changes the state of an entry whose lock the CPU holds. -/
theorem of_swap (h : Inv s) {pr : Proc} (hlock : .proc q ∈ s.locks c)
    (hswap : Swap (s.here c) q (s.proc q).state pr.state)
    (hs : (s.proc q).state ≠ .running) (ht : pr.state ≠ .running)
    (hleave : next.leaving = (s.here c).leaving) (hpick : next.pick = (s.here c).pick)
    (hwf : next.Wf (s.active c).slot) (hlocks : ∀ l ∈ next.locks (s.active c).slot, l ∈ s.locks c)
    (hk : Keeps s c next ((s.setEntry q pr).setLoc c next)) :
    Inv ((s.setEntry q pr).setLoc c next) := by
  refine h.of_local (.setLoc h hwf hlocks rfl rfl rfl) rfl hleave hpick (fun q' => ?_) hk
  by_cases hq : q' = q
  · subst hq
    refine .inr ⟨hlock, ?_, hs, ?_⟩ <;> simpa [setEntry, setLoc]
  · exact .inl (by simp [setEntry, setLoc, hq])

/-- An access that may wake the entry. -/
theorem of_wake (h : Inv s) (hact : s.active c = T) (hL : s.here c = L)
    {f : Proc → Proc × Loc} (hstep : s.exec c b (.access q f) = some t)
    (hlock : .proc q ∈ L.locks T.slot) (hstate : (f (s.proc q)).1.state = (s.proc q).state ∨
      ((s.proc q).state = .sleeping ∧ (f (s.proc q)).1.state = .runnable))
    (hgo : Onward T.slot L (f (s.proc q)).2) : Inv t := by
  rcases hstate with hsame | ⟨hs, ht⟩
  · exact h.of_access hact hL hstep hsame hgo
  subst hact hL
  cases hstep
  refine h.of_swap hlock ?_ (by rw [hs]; decide) (by rw [ht]; decide) hgo.leaving hgo.pick
    hgo.wf hgo.locks (h.keeps_of_modest hgo.toModest fun q' => ?_)
  · rw [hs, ht]
    exact .wake
  by_cases hq : q' = q
  · subst hq
    rw [hs]
    exact .inr rfl
  · exact .inl (by simp [setEntry, setLoc, hq])

end Inv

end

end Xv6.Smp
