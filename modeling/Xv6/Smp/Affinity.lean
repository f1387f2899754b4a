import Xv6.Smp.Custody

/-!
# Which process a scheduler dispatches

The test of `scheduler` in `kernel/proc.c`, against two documented orders: the
mask of `set_cpu_affinity` as a set of CPUs, the way `test_affinity` uses it,
and rate-monotonic scheduling, the way the README describes it.

The scheduler looks at the entries one after the other, and dispatches the
first one that is `RUNNABLE` and whose mask is -1 or the number of the CPU.
It reads neither the bits of the mask nor the timers.
-/

namespace Xv6.Smp

open Lib Sched Smp.Proc State

variable {n : Nat} {s t : State n} {c : Fin n} {p q : Slot}

/-- The scheduler of CPU `c`, which looks at process `p`, dispatches it. -/
def State.Dispatches (s : State n) (c : Fin n) (p : Slot) : Prop :=
  ∃ t, s.step (.run c false) = some t ∧ t.here c = .sched p .chosen ∧ (t.proc p).state = .running

/-- `RUNNABLE`, and allowed to run on CPU `c` by the scheduler's test. -/
def State.Eligible (s : State n) (c : Fin n) (p : Slot) : Prop :=
  (s.proc p).state = .runnable ∧ (s.proc p).mayRun c

instance (s : State n) (c : Fin n) (p : Slot) : Decidable (s.Eligible c p) :=
  inferInstanceAs (Decidable (_ ∧ _))

/-- The scheduler dispatches the entry that it looks at if it is eligible. -/
theorem dispatches_iff (hat : s.here c = .sched p .test) : s.Dispatches c p ↔ s.Eligible c p := by
  by_cases hok : s.Eligible c p
  · refine iff_of_true ⟨_, by rw [State.step, hat]; rfl, ?_, ?_⟩ hok
    · simp [here, setLoc, setEntry, hok.1, hok.2]
    · simp [setLoc, setEntry, hok.1, hok.2]
  refine iff_of_false ?_ hok
  rintro ⟨t, hstep, hchosen, -⟩
  rw [State.step, hat] at hstep
  rw [Eligible] at hok
  simp only [instr, scheduler, State.exec, if_neg hok, Option.some.injEq] at hstep
  subst hstep
  simp [here, setLoc, setEntry] at hchosen

/-! ## Affinity -/

/-- Bit `cpu` of a mask. -/
def maskBit (mask : Int32) (cpu : Nat) : Bool := mask.toBitVec.getLsbD cpu

theorem maskBit_neg_one {cpu : Nat} (h : cpu < NCPU) : maskBit (-1) cpu = true :=
  (by decide : ∀ cpu : Fin NCPU, maskBit (-1) cpu = true) ⟨cpu, h⟩

/-- The number of a CPU, read as a mask, does not have the bit of the CPU. -/
theorem maskBit_self {cpu : Nat} (h : cpu < NCPU) : maskBit (Int32.ofNat cpu) cpu = false :=
  (by decide : ∀ cpu : Fin NCPU, maskBit (Int32.ofNat cpu) cpu = false) ⟨cpu, h⟩

/-- The process has set no affinity, or the mask that it last set has the bit
of the CPU. -/
def Proc.Allows (pr : Proc) (cpu : Nat) : Prop :=
  match pr.affinity with
  | none => True
  | some mask => maskBit mask cpu = true

theorem masked_of_run {ls : List (Label n)} (hrun : Run Steps (boot n) ls s) (p : Slot) :
    (s.proc p).Masked := by
  refine (hrun.inv (I := fun s => Inv s ∧ ∀ p, (s.proc p).Masked) ⟨Inv.boot n, fun p => ?_⟩
    fun s l t hs hstep => ⟨hs.1.step hstep, fun p => ?_⟩).2 p
  · by_cases hp : p = initproc
    · subst hp
      simp [boot, Masked, zero]
    · simp [boot, Masked, zero, hp]
  rcases edit_of_step hs.1 hstep p with heq | ⟨c, b, -, -, hmask⟩
  · rw [heq]
    exact hs.2 p
  · exact hmask (hs.2 p)

/-- For every CPU and every `RUNNABLE` process that its scheduler looks at:
the process is dispatched just when its affinity says so if and only if the
mask that it set is -1 or is another number than that of the CPU and lacks its
bit, or, where it set none, the mask that its entry holds from boot or from an
earlier process is -1 or the number of the CPU. -/
theorem dispatch_follows_affinity_iff (hn : n ≤ NCPU) {ls : List (Label n)}
    (hrun : Run Steps (State.boot n) ls s) (hat : s.here c = .sched p .test)
    (hstate : (s.proc p).state = .runnable) :
    (s.Dispatches c p ↔ (s.proc p).Allows c) ↔
      match (s.proc p).affinity with
      | none => (s.proc p).cpuMask = -1 ∨ (s.proc p).cpuMask = Int32.ofNat c
      | some mask => mask = -1 ∨ (mask ≠ Int32.ofNat c ∧ maskBit mask c = false) := by
  rw [dispatches_iff hat, State.Eligible]
  have hmasked := masked_of_run hrun p
  cases haff : (s.proc p).affinity with
  | none => simp [Proc.Allows, Proc.mayRun, haff, hstate]
  | some mask =>
    have hc : (c : Nat) < NCPU := lt_of_lt_of_le c.isLt hn
    simp only [hstate, true_and, Proc.mayRun, hmasked mask haff, Proc.Allows, haff,
      Bool.or_eq_true, decide_eq_true_eq]
    by_cases hall : mask = -1
    · simp [hall, maskBit_neg_one hc]
    · by_cases hself : mask = Int32.ofNat c
      · rw [hself] at hall
        simp [hself, hall, maskBit_self hc]
      · simp [hall, hself]

/-- Init sets a mask and gives up CPU `c`; then CPU `d` looks at it. -/
def pinInit (c d : Fin n) (mask : Int32) : List (Label n) :=
  dispatchInit c ++ [.call c (.setCpuAffinity mask)] ++ List.replicate 3 (.run c false) ++
    [.interrupt c .yield] ++ List.replicate 5 (.run c false) ++ [.run d false]

/-- Init pins itself to CPU 0 with `1 << 0`, the way `test_affinity` does. -/
theorem pinInit_other_cpu :
    ∃ s : State 2, Run Steps (State.boot 2) (pinInit 0 1 1) s ∧ s.here 1 = .sched initproc .test ∧
      (s.proc initproc).state = .runnable ∧ (s.proc initproc).affinity = some 1 ∧
      maskBit 1 1 = false ∧ s.Dispatches 1 initproc := by
  have hrun : Run Steps (State.boot 2) (pinInit 0 1 1)
      (after State.step (State.boot 2) (pinInit 0 1 1)) := Run.of_after (by decide +kernel)
  refine ⟨_, hrun, by decide +kernel, by decide +kernel, by decide +kernel, by decide, ?_⟩
  rw [dispatches_iff (by decide +kernel)]
  decide +kernel

/-- CPU 1 leaves init alone, which asked for CPU 2. -/
theorem dispatch_follows_affinity_init : ∃ s : State 2, Run Steps (State.boot 2) (pinInit 0 1 4) s ∧
      (s.proc initproc).affinity = some 4 ∧
      (s.Dispatches 1 initproc ↔ (s.proc initproc).Allows 1) := by
  have hrun : Run Steps (State.boot 2) (pinInit 0 1 4)
      (after State.step (State.boot 2) (pinInit 0 1 4)) := Run.of_after (by decide +kernel)
  have haff : ((after State.step (State.boot 2) (pinInit 0 1 4)).proc initproc).affinity =
      some 4 := by decide +kernel
  refine ⟨_, hrun, haff, (dispatch_follows_affinity_iff (c := 1) (by decide) hrun
    (by decide +kernel) (by decide +kernel)).2 ?_⟩
  rw [haff]
  exact .inr (by decide)

/-! ## Rate-monotonic order -/

/-- A shorter period; a process without a timer has an infinite one. -/
def Shorter : Option Int → Option Int → Prop
  | some a, some b => a < b
  | some _, none => True
  | none, _ => False

/-- Two periods are equal if neither is shorter. -/
theorem eq_of_not_shorter {a b : Option Int} (hab : ¬ Shorter a b) (hba : ¬ Shorter b a) :
    a = b := by
  cases a with
  | none =>
    cases b with
    | none => rfl
    | some b => exact absurd trivial hba
  | some a =>
    cases b with
    | none => exact absurd trivial hab
    | some b =>
      simp only [Shorter, not_lt] at hab hba
      rw [le_antisymm hba hab]

theorem not_shorter_self (a : Option Int) : ¬ Shorter a a := by cases a <;> simp [Shorter]

/-- No other process that may run on CPU `c` has a shorter period than `p`. -/
def State.RateMonotonic (s : State n) (c : Fin n) (p : Slot) : Prop :=
  ∀ q, q ≠ p → s.Eligible c q → ¬ Shorter (s.proc q).timer (s.proc p).timer

/-- Whatever entry the sweep of CPU `c` has come to: it dispatches in
rate-monotonic order if and only if all processes that may run there have the
same period. -/
theorem dispatch_rateMonotonic_iff (s : State n) (c : Fin n) :
    (∀ p, (s.setLoc c (.sched p .test)).Dispatches c p → s.RateMonotonic c p) ↔
      ∀ p q, s.Eligible c p → s.Eligible c q → (s.proc p).timer = (s.proc q).timer := by
  have hdisp : ∀ p, (s.setLoc c (.sched p .test)).Dispatches c p ↔ s.Eligible c p := fun p =>
    dispatches_iff (by simp [State.here, State.setLoc])
  constructor
  · intro hrm p q hp hq
    by_cases hpq : q = p
    · rw [hpq]
    · refine eq_of_not_shorter ?_ ?_
      · exact hrm q ((hdisp q).2 hq) p (Ne.symm hpq) hp
      · exact hrm p ((hdisp p).2 hp) q hpq hq
  · intro heq p hd q _ hq
    rw [heq q p hq ((hdisp p).1 hd)]
    exact not_shorter_self _

/-- Init sets a period of 5 ticks, forks, and gives up the CPU; the sweep of
CPU `c` goes on to the child. -/
def forkPeriodic (c : Fin n) : List (Label n) :=
  dispatchInit c ++ [.call c (.setperiod 5)] ++ List.replicate 3 (.run c false) ++
    [.call c .fork] ++ List.replicate 20 (.run c false) ++ [.interrupt c .yield] ++
    List.replicate 6 (.run c false)

theorem forkPeriodic_child_first :
    ∃ s : State 2, Run Steps (State.boot 2) (forkPeriodic 0) s ∧ s.here 0 = .sched 1 .test ∧
      s.Dispatches 0 1 ∧ (s.proc 1).timer = none ∧
      s.Eligible 0 initproc ∧ (s.proc initproc).timer = some 5 ∧ ¬ s.RateMonotonic 0 1 := by
  have hrun : Run Steps (State.boot 2) (forkPeriodic 0)
      (after State.step (State.boot 2) (forkPeriodic 0)) := Run.of_after (by decide +kernel)
  generalize hs : after State.step (State.boot 2) (forkPeriodic 0) = s at hrun
  have hat : s.here 0 = .sched 1 .test := by rw [← hs]; decide +kernel
  have hchild : s.Eligible 0 1 ∧ (s.proc 1).timer = none := by rw [← hs]; decide +kernel
  have hinit : s.Eligible 0 initproc ∧ (s.proc initproc).timer = some 5 := by
    rw [← hs]; decide +kernel
  refine ⟨s, hrun, hat, (dispatches_iff hat).2 hchild.1, hchild.2, hinit.1, hinit.2, ?_⟩
  intro hrm
  refine hrm initproc (by decide) hinit.1 ?_
  rw [hinit.2, hchild.2]
  trivial

end Xv6.Smp
