import Xv6.Kern.Model

/-!
# Killed processes leave the kernel

A process that sleeps in a system call and is killed is to return from the
call.  For each call the locations through which a killed process leaves it
form a `WayOut`: the loops of `piperead`, `pipewrite`, `sys_sleep`, `wait` and
`consoleread` test `p->killed` before they sleep again.

The loop of `pipe_rt_read` does not.  Its way out has a guard: when the
process tests the condition of the loop, the queue must hold a task, or the
pipe must be inactive or without writers.
-/

namespace Xv6

open Lib Sched

/-! ## The ways out of the calls -/

variable {pt : PageTable}

namespace Pipe

/-- The locations from which a killed process leaves. -/
def leaving : Loc → Bool
  | .write _ _ _ .loop | .write _ _ _ .killed | .write _ _ _ .done => true
  | .read _ _ _ .wait | .read _ _ _ .killed | .read _ _ _ .loop
  | .read _ _ _ (.copyout _) | .read _ _ _ .done => true
  | .release _ | .returned _ => true
  | _ => false

/-- How many instructions a killed process still carries out at most. -/
def rank : Loc → Nat
  | .returned _ => 0
  | .release _ => 1
  | .write _ _ _ .loop => 3
  | .write .. => 2
  | .read _ n i .wait => 2 * (n - i).toNat + 5
  | .read _ n i .killed => 2 * (n - i).toNat + 4
  | .read _ n i .loop => 2 * (n - i).toNat + 3
  | .read _ n i (.copyout _) => 2 * (n - (i + 1 : Nat)).toNat + 4
  | .read .. => 2
  | .close .. => 0

theorem leaving_awake {loc : Loc} (h : leaving loc = true) : (code.instr loc).sleeps = false := by
  unfold leaving at h
  split at h <;> first | rfl | cases h

theorem leaving_next {loc next : Loc} {d : Pipe} (h : leaving loc = true)
    (hnext : (code.instr loc).Next true pt d next) :
    leaving next = true ∧ rank next < rank loc := by
  unfold leaving at h
  split at h
  · -- the loop of `pipewrite`
    obtain ⟨p, d', heq⟩ := hnext
    cases heq
    split
    · split <;> exact ⟨rfl, by simp [rank]⟩
    · exact ⟨rfl, by simp [rank]⟩
  · cases hnext
    exact ⟨rfl, by simp [rank]⟩
  · cases hnext
    exact ⟨rfl, by simp [rank]⟩
  · -- the test of `piperead`
    obtain ⟨p, d', heq⟩ := hnext
    cases heq
    split <;> exact ⟨rfl, by simp [rank]⟩
  · cases hnext
    exact ⟨rfl, by simp [rank]⟩
  · -- the loop of `piperead`: one byte less to copy
    rename_i addr n i
    obtain ⟨p, d', heq⟩ := hnext
    simp only [Option.some.injEq] at heq
    split at heq
    · rename_i hlt
      cases heq
      refine ⟨rfl, ?_⟩
      simp only [rank]
      omega
    · cases heq
      exact ⟨rfl, by simp [rank]⟩
  · obtain ⟨ram, rfl⟩ := hnext
    dsimp only
    split <;> exact ⟨rfl, by simp [rank]⟩
  · cases hnext
    exact ⟨rfl, by simp [rank]⟩
  · cases hnext
    exact ⟨rfl, by simp [rank]⟩
  · cases hnext
  · cases h

end Pipe

namespace PipeRt

/-- The locations from which a killed reader leaves. -/
def leaving : Loc → Bool
  | .read _ _ .test | .read _ _ .remove | .read _ _ (.copyout _) => true
  | .release _ | .returned _ => true
  | _ => false

def rank : Loc → Nat
  | .returned _ => 0
  | .release _ => 1
  | .read _ _ .test => 4
  | .read _ _ .remove => 3
  | _ => 2

/-- What a process that is about to test the loop's condition has to see. -/
def Retests : Loc → Data → Prop
  | .read _ _ .test, d => ¬ Waits d
  | _, _ => True

theorem leaving_awake {loc : Loc} (h : leaving loc = true) : (code.instr loc).sleeps = false := by
  unfold leaving at h
  split at h <;> first | rfl | cases h

theorem leaving_next {loc next : Loc} {d : Data} (h : leaving loc = true)
    (hguard : Retests loc d) (hnext : (code.instr loc).Next true pt d next) :
    leaving next = true ∧ rank next < rank loc := by
  unfold leaving at h
  split at h
  · obtain ⟨p, d', heq⟩ := hnext
    cases heq
    have hwaits : ¬ (d.pipe.head = [] ∧ d.pipe.active = true ∧ d.pipe.nwrite > 0) := hguard
    rw [if_neg hwaits]
    exact ⟨rfl, by simp [rank]⟩
  · obtain ⟨p, d', heq⟩ := hnext
    dsimp only at heq
    split at heq
    · cases heq
      exact ⟨rfl, by simp [rank]⟩
    split at heq
    · cases heq
    cases heq
    exact ⟨rfl, by simp [rank]⟩
  · obtain ⟨ram, rfl⟩ := hnext
    exact ⟨rfl, by simp [rank]⟩
  · cases hnext
    exact ⟨rfl, by simp [rank]⟩
  · cases hnext
  · cases h

end PipeRt

namespace Console

/-- The locations from which a killed reader leaves. -/
def leaving : Loc → Bool
  | .read _ _ _ .enter | .read _ _ _ .sleep => false
  | _ => true

def rank : Loc → Nat
  | .returned _ => 0
  | .release _ => 1
  | .read _ _ n .loop => 5 * n.toNat + 2
  | .read _ _ n .wait => 5 * (n - 1).toNat + 6
  | .read _ _ n .fetch => 5 * (n - 1).toNat + 5
  | .read _ _ n (.copyout _) => 5 * (n - 1).toNat + 4
  | .read .. => 2

theorem leaving_awake {loc : Loc} (h : leaving loc = true) : (code.instr loc).sleeps = false := by
  cases loc with
  | read target dst n a => cases a <;> first | rfl | cases h
  | release | returned => rfl

theorem leaving_next {loc next : Loc} {d : Cons} (h : leaving loc = true)
    (hnext : (code.instr loc).Next true pt d next) :
    leaving next = true ∧ rank next < rank loc := by
  cases loc with
  | release r =>
    cases hnext
    exact ⟨rfl, by simp [rank]⟩
  | returned r => cases hnext
  | read target dst n a =>
    cases a with
    | enter | sleep => cases h
    | loop =>
      obtain ⟨p, d', heq⟩ := hnext
      cases heq
      split
      · refine ⟨rfl, ?_⟩
        simp only [rank]
        omega
      · exact ⟨rfl, by simp [rank]⟩
    | wait =>
      obtain ⟨p, d', heq⟩ := hnext
      cases heq
      split <;> exact ⟨rfl, by simp [rank]⟩
    | killed =>
      cases hnext
      exact ⟨rfl, by simp [rank]⟩
    | fetch =>
      obtain ⟨p, d', heq⟩ := hnext
      simp only [fetch, Option.some.injEq] at heq
      split at heq
      all_goals
        cases heq
        exact ⟨rfl, by simp [rank]⟩
    | copyout c =>
      obtain ⟨ram, rfl⟩ := hnext
      dsimp only
      split
      · split <;> exact ⟨rfl, by simp [rank]⟩
      · exact ⟨rfl, by simp [rank]⟩

end Console

namespace SysSleep

/-- The locations from which a killed process leaves. -/
def leaving : Loc → Bool
  | .sleep _ (.test _) | .sleep _ (.killed _) | .release _ | .returned _ => true
  | _ => false

def rank : Loc → Nat
  | .returned _ => 0
  | .release _ => 1
  | .sleep _ (.test _) => 3
  | _ => 2

theorem leaving_awake {loc : Loc} (h : leaving loc = true) : (code.instr loc).sleeps = false := by
  unfold leaving at h
  split at h <;> first | rfl | cases h

theorem leaving_next {loc next : Loc} {d : UInt32} (h : leaving loc = true)
    (hnext : (code.instr loc).Next true pt d next) :
    leaving next = true ∧ rank next < rank loc := by
  unfold leaving at h
  split at h
  · obtain ⟨p, d', heq⟩ := hnext
    cases heq
    split <;> exact ⟨rfl, by simp [rank]⟩
  · cases hnext
    exact ⟨rfl, by simp [rank]⟩
  · cases hnext
    exact ⟨rfl, by simp [rank]⟩
  · cases hnext
  · cases h

end SysSleep

namespace Wait

/-- The locations from which a killed process leaves. -/
def leaving : Loc → Bool
  | .wait _ _ .enter | .wait _ _ .sleep => false
  | _ => true

def rank : Loc → Nat
  | .returned _ => 0
  | .release _ => 1
  | .wait _ _ (.scan i _) => NPROC - i + 4
  | .wait _ _ (.copyout ..) => 3
  | .wait .. => 2

theorem leaving_awake {loc : Loc} (h : leaving loc = true) : (code.instr loc).sleeps = false := by
  cases loc with
  | wait self addr a => cases a <;> first | rfl | cases h
  | release | returned => rfl

theorem leaving_next {loc next : Loc} {d : Table} (h : leaving loc = true)
    (hnext : (code.instr loc).Next true pt d next) :
    leaving next = true ∧ rank next < rank loc := by
  cases loc with
  | release r =>
    cases hnext
    exact ⟨rfl, by simp [rank]⟩
  | returned r => cases hnext
  | wait self addr a =>
    cases a with
    | enter | sleep => cases h
    | scan i havekids =>
      obtain ⟨p, d', heq⟩ := hnext
      cases heq
      split
      · dsimp only
        split
        · split
          · split <;> exact ⟨rfl, by simp [rank]⟩
          refine ⟨rfl, ?_⟩
          simp only [rank]
          omega
        · refine ⟨rfl, ?_⟩
          simp only [rank]
          omega
      · split <;> exact ⟨rfl, by simp [rank]⟩
    | copyout i pid xstate =>
      obtain ⟨ram, rfl⟩ := hnext
      dsimp only
      split <;> exact ⟨rfl, by simp [rank]⟩
    | free i pid =>
      obtain ⟨p, d', heq⟩ := hnext
      cases heq
      exact ⟨rfl, by simp [rank]⟩
    | killed =>
      cases hnext
      exact ⟨rfl, by simp [rank]⟩

end Wait

namespace Kern

/-! ## The way out of the kernel -/

/-- The locations from which a killed process leaves. -/
def leaving : Loc → Bool
  | .pipe _ loc => Pipe.leaving loc
  | .pipeRt _ loc => PipeRt.leaving loc
  | .cons loc => Console.leaving loc
  | .ticks loc => SysSleep.leaving loc
  | .wait loc => Wait.leaving loc
  | .fileread .. => false
  | .returned _ => true

def rank : Loc → Nat
  | .pipe _ loc => Pipe.rank loc
  | .pipeRt _ loc => PipeRt.rank loc
  | .cons loc => Console.rank loc
  | .ticks loc => SysSleep.rank loc
  | .wait loc => Wait.rank loc
  | .fileread .. | .returned _ => 0

/-- What the data must satisfy when a killed process looks at them: only
`pipe_rt_read` asks for anything. -/
def Retests : Loc → Data → Prop
  | .pipeRt page loc, d => PipeRt.Retests loc (d.getPipeRt page)
  | _, _ => True

/-- The way of a killed process out of the kernel. -/
def wayOut : WayOut code where
  on loc := leaving loc = true
  rank := rank
  guard := Retests
  awake {loc} h := by
    cases loc with
    | pipe page loc => simpa [code] using Pipe.leaving_awake h
    | pipeRt page loc => simpa [code] using PipeRt.leaving_awake h
    | cons loc => simpa [code] using Console.leaving_awake h
    | ticks loc => simpa [code] using SysSleep.leaving_awake h
    | wait loc => simpa [code] using Wait.leaving_awake h
    | fileread => cases h
    | returned r => rfl
  next {loc loc' pt d} h hguard hnext := by
    cases loc with
    | pipe page loc =>
      simp only [code] at hnext
      obtain ⟨next, rfl, hn⟩ := hnext.of_map
      exact Pipe.leaving_next h hn
    | pipeRt page loc =>
      simp only [code] at hnext
      obtain ⟨next, rfl, hn⟩ := hnext.of_map
      exact PipeRt.leaving_next h hguard hn
    | cons loc =>
      simp only [code] at hnext
      obtain ⟨next, rfl, hn⟩ := hnext.of_map
      exact Console.leaving_next h hn
    | ticks loc =>
      simp only [code] at hnext
      obtain ⟨next, rfl, hn⟩ := hnext.of_map
      exact SysSleep.leaving_next h hn
    | wait loc =>
      simp only [code] at hnext
      obtain ⟨next, rfl, hn⟩ := hnext.of_map
      exact Wait.leaving_next h hn
    | fileread => cases h
    | returned r => cases hnext

/-- Where the six calls go on after their `sleep`. -/
def afterSleep : Loc → Bool
  | .pipeRt _ (.read _ _ .test) => true
  | .pipe _ (.read _ _ _ .wait) | .pipe _ (.write _ _ _ .loop) => true
  | .ticks (.sleep _ (.test _)) => true
  | .wait (.wait _ _ (.scan 0 false)) => true
  | .cons (.read _ _ _ .wait) => true
  | _ => false

theorem leaving_of_afterSleep {loc : Loc} (h : afterSleep loc = true) : leaving loc = true := by
  unfold afterSleep at h
  split at h <;> first | rfl | cases h

theorem returned_of_rank {loc : Loc} (h : leaving loc = true) (hrank : rank loc = 0) :
    ∃ r, code.instr loc = .ret r := by
  cases loc with
  | pipe page loc =>
    cases loc with
    | returned r => exact ⟨r, rfl⟩
    | write _ _ _ a | read _ _ _ a => cases a <;> cases hrank
    | release => cases hrank
    | close => cases h
  | pipeRt page loc =>
    cases loc with
    | returned r => exact ⟨r, rfl⟩
    | read _ _ a => cases a <;> cases hrank
    | release => cases hrank
    | write | close => cases h
  | cons loc =>
    cases loc with
    | returned r => exact ⟨r, rfl⟩
    | read _ _ _ a => cases a <;> cases hrank
    | release => cases hrank
  | ticks loc =>
    cases loc with
    | returned r => exact ⟨r, rfl⟩
    | sleep _ a => cases a <;> cases hrank
    | release => cases hrank
  | wait loc =>
    cases loc with
    | returned r => exact ⟨r, rfl⟩
    | wait _ _ a => cases a <;> cases hrank
    | release => cases hrank
  | fileread => cases h
  | returned r => exact ⟨r, rfl⟩

/-- Process `p` is asleep, and goes on at `next`. -/
structure Asleep (s : State) (p : Fin NPROC) (next : Loc) : Prop where
  state : (s.proc p).state = .sleeping
  ctl : ∃ c lk, (s.proc p).ctl = .sleep .switched c lk next

/-- When process `p` tests the condition of the loop of `pipe_rt_read`, it
does not hold: there is a task in the queue, or no writer, or the pipe is not
active. -/
def FindsChange (p : Fin NPROC) (s : State) (l : Label) : Prop :=
  ∀ page addr n, l = .run p → (s.proc p).ctl = .code (.pipeRt page (.read addr n .test)) →
    ¬ PipeRt.Waits (s.data.getPipeRt page)

theorem FindsChange.guarded {p : Fin NPROC} {s : State} {l : Label} (h : FindsChange p s l) :
    wayOut.Guarded p s l := by
  intro loc hl hctl
  show Retests loc s.data
  cases loc with
  | pipeRt page loc =>
    show PipeRt.Retests loc (s.data.getPipeRt page)
    unfold PipeRt.Retests
    split
    · exact h _ _ _ hl hctl
    · trivial
  | pipe | cons | ticks | wait | fileread | returned => trivial

/-- Process `p` has come to the end of its call. -/
def Returned (s : State) (p : Fin NPROC) : Prop :=
  ∃ loc r, (s.proc p).ctl = .code loc ∧ code.instr loc = .ret r

/-- A process on its way out that has no step left has returned. -/
theorem returned_of_left {s : State} {p : Fin NPROC} (h : wayOut.Leaving (s.proc p))
    (hleft : wayOut.left (s.proc p).ctl = 0) : Returned s p := by
  have hon : leaving (s.proc p).ctl.loc = true := h.on
  cases hctl : (s.proc p).ctl with
  | code loc =>
    rw [hctl] at hleft hon
    have hrank : rank loc = 0 := (Nat.mul_eq_zero.1 hleft).resolve_right (by decide)
    obtain ⟨r, hr⟩ := returned_of_rank hon hrank
    exact ⟨loc, r, hctl, hr⟩
  | sleep stage c lk next =>
    rw [hctl] at hleft
    cases stage <;> cases hleft
  | wakeup c i next =>
    rw [hctl] at hleft
    cases hleft

/-- The kernel after boot, with a file of the given type. -/
def boot (type : FdType) : State :=
  State.idle (Data.boot type) (.returned 0) (fun _ => 7) (onePage 0x87000000)

/-- Process 1 calls `sys_sleep(5)`, sleeps and is killed. -/
def sleeper : State :=
  after (State.step code) (boot .none) (.start 1 (.ticks (.sleep 5 .enter)) :: runs 8 1)

def killedSleeper : State := after (State.step code) sleeper [.kill 1]

/-- The killed process goes on up to the end of its call. -/
def sleeperLeaves : List Label := .schedule 1 :: runs 5 1

/-- Whether a process is about to test the condition of `pipe_rt_read`. -/
def testsQueue : Ctl Loc Chan Lock → Bool
  | .code (.pipeRt _ (.read _ _ .test)) => true
  | _ => false

/-- A step of the system in which process 1 does not test that condition. -/
def quietStep (s : State) (l : Label) : Option State :=
  if testsQueue (s.proc 1).ctl then none else s.step code l

theorem quietStep_spec {s t : State} {l : Label} (h : quietStep s l = some t) :
    FindsChange 1 s l ∧ Steps code s l t := by
  unfold quietStep at h
  split at h
  · cases h
  rename_i htest
  refine ⟨fun page addr n _ hctl => ?_, h⟩
  rw [hctl] at htest
  exact absurd rfl htest

/-- Process 1 calls `pipe_rt_read` on an empty queue, sleeps and is killed. -/
def reader : State :=
  after (State.step code) (boot .pipeRt) (.start 1 (.pipeRt 0 (.read 0 40 .enter)) :: runs 6 1)

def killedReader : State := after (State.step code) reader [.kill 1]

/-- The killed reader goes on. -/
def readerGoesOn : List Label := .schedule 1 :: runs 7 1

end Kern

end Xv6
