import Xv6.Sched.Wakeup

/-!
# Sleep locks

`acquiresleep` sleeps while the lock is held, and `releasesleep` wakes whoever
waits.  `inside` is a ghost: the processes that have taken the lock and not
given it back.  A process that is not among them does not call `releasesleep`;
`brelse` and `iunlock` panic before they would.
-/

namespace Xv6.Sleep

open Lib Sched

/-- `struct sleeplock`. -/
structure Sleeplock where
  locked : Bool
  pid : Int
  inside : List (Fin NPROC)

/-- The points of the functions. -/
inductive Loc where
  | acquiresleep | test | sleep | take
  | releasesleep | clear | wakeup
  | holdingsleep | look
  | release (r : Int)
  | returned (r : Int)

variable (pid : Fin NPROC → Int)

/-- `initsleeplock`. -/
def init : Sleeplock := ⟨false, 0, []⟩

/-- The code of the three functions. -/
def code : Code Sleeplock Loc Unit Unit Empty where
  instr
    | .acquiresleep => .acquire () .test
    | .test => .access fun _ lk => some (lk, if lk.locked then .sleep else .take)
    | .sleep => .sleep () () .test
    | .take => .access fun p lk => some (⟨true, pid p, p :: lk.inside⟩, .release 0)
    | .releasesleep => .acquire () .clear
    | .clear => .access fun p lk =>
      if p ∈ lk.inside then some (⟨false, 0, lk.inside.erase p⟩, .wakeup) else none
    | .wakeup => .wakeup () (.release 0)
    | .holdingsleep => .acquire () .look
    | .look => .access fun p lk =>
      some (lk, .release (if lk.locked ∧ lk.pid = pid p then 1 else 0))
    | .release r => .release () (.returned r)
    | .returned r => .ret r
  entry
    | .acquiresleep | .releasesleep | .holdingsleep => true
    | _ => false
  env e := e.elim

/-- The lock is free, or one process has it. -/
def Exclusive (lk : Sleeplock) : Prop := lk = init ∨ ∃ q, lk = ⟨true, pid q, [q]⟩

/-- What the holder of `lk->lk` has learnt. -/
def knows (lk : Sleeplock) : Loc → Prop
  | .sleep => lk.locked = true
  | .take => lk.locked = false
  | _ => True

def monitor : Monitor Sleeplock Loc Unit where
  holds
    | .acquiresleep | .releasesleep | .holdingsleep | .returned _ => false
    | _ => true
  inv := Exclusive pid
  cond _ lk := lk.locked = true
  pre loc _ lk := Exclusive pid lk ∧ knows lk loc
  owes loc _ _ _ := loc = .wakeup

theorem monitor_sound : (monitor pid).Sound (code pid) where
  instr loc := by
    cases loc with
    | acquiresleep | releasesleep | holdingsleep => exact ⟨rfl, rfl, fun _ _ h => ⟨h, trivial⟩⟩
    | test =>
      apply Monitor.ok_access rfl
      rintro p lk _ _ ⟨⟩
      split
      · rename_i hlocked
        exact ⟨rfl, fun _ h => ⟨⟨h.1, hlocked⟩, fun _ _ => .inl hlocked⟩⟩
      rename_i hfree
      refine ⟨rfl, fun _ h => ⟨⟨h.1, Bool.eq_false_of_not_eq_true hfree⟩, ?_⟩⟩
      rintro _ (hcond | ⟨⟨⟩⟩)
      exact .inl hcond
    | sleep => exact ⟨rfl, ⟨rfl, fun _ _ h => ⟨h, trivial⟩⟩, fun _ _ h =>
      ⟨h.1, h.2, fun _ howes => by cases howes⟩⟩
    | take =>
      apply Monitor.ok_access rfl
      rintro p lk _ _ ⟨⟩
      refine ⟨rfl, fun _ h => ⟨⟨?_, trivial⟩, fun _ _ => .inl rfl⟩⟩
      obtain ⟨rfl | ⟨q, rfl⟩, hfree⟩ := h
      · exact .inr ⟨p, rfl⟩
      · cases hfree
    | clear =>
      apply Monitor.ok_access rfl
      intro p lk lk' next hf
      split at hf
      · rename_i hmem
        cases hf
        refine ⟨rfl, fun _ h => ⟨⟨?_, trivial⟩, fun _ _ => .inr rfl⟩⟩
        obtain ⟨rfl | ⟨q, rfl⟩, -⟩ := h
        · cases hmem
        obtain rfl := List.mem_singleton.1 hmem
        exact .inl (by simp [init])
      · cases hf
    | wakeup => exact ⟨rfl, fun _ _ _ h => ⟨h, fun _ _ => .inl rfl⟩⟩
    | look =>
      apply Monitor.ok_access rfl
      rintro p lk _ _ ⟨⟩
      refine ⟨rfl, fun _ h => ⟨⟨h.1, trivial⟩, ?_⟩⟩
      rintro _ (hcond | ⟨⟨⟩⟩)
      exact .inl hcond
    | release r => exact ⟨rfl, rfl, fun _ _ h => ⟨h.1, fun _ howes => by cases howes⟩⟩
    | returned r => rfl
  entry loc h := by
    cases loc with
    | acquiresleep | releasesleep | holdingsleep => rfl
    | _ => cases h
  env_inv e := e.elim
  env_cond e := e.elim
  env_pre e := e.elim
  env_owes e := e.elim

/-- In every run the lock is free or exactly one process has it, and the lock
says which; and whenever `lk->lk` is free, whoever sleeps on the lock waits for
a process that has it. -/
theorem sleeplock_exclusive {s t : State Sleeplock Loc Unit Unit} {ls : List (Label Loc Empty)}
    (hstart : Quiescent (code pid) s) (hinit : s.data = init)
    (hrun : Run (Steps (code pid)) s ls t) :
    Exclusive pid t.data ∧ ∀ p, t.holder () = none → (t.proc p).state = .sleeping →
      (t.proc p).chan = some () → ∃ q, t.data.inside = [q] := by
  have hinv : (monitor pid).Inv s := .start (monitor_sound pid) hstart (.inl hinit)
  have hkill : ∀ loc, (monitor pid).Killable loc := fun _ _ _ h => ⟨h, fun _ => .inr⟩
  have ht := hinv.of_run (monitor_sound pid)
    (hrun.mono fun s l t hstep => And.intro (Monitor.allows_of_killable hkill s l) hstep)
  have hexcl := ht.holds_always fun _ _ _ h => h.1
  refine ⟨hexcl, fun p hfree hp hchan => ?_⟩
  have hlocked := ht.cond_of_sleeping hfree hp hchan
  obtain hdata | ⟨q, hdata⟩ := hexcl <;> rw [hdata] at hlocked ⊢
  · cases hlocked
  · exact ⟨q, rfl⟩

/-- Two processes want a free lock. -/
def contended : List (Label Loc Empty) :=
  .start 0 .acquiresleep :: runs 4 0 ++ .start 1 .acquiresleep :: runs 6 1

/-- Process 0 has the lock, and process 1 sleeps. -/
theorem sleeplock_exclusive_contended : ∃ t, Run (Steps (code fun p => p + 1))
      (State.idle init (.returned 0) (fun _ => 0) (onePage 0)) contended t ∧
    (t.proc 1).state = .sleeping ∧ ∃ q, t.data.inside = [q] := by
  have hrun : (follow (State.step (code fun p => p + 1))
      (State.idle init (.returned 0) (fun _ => 0) (onePage 0)) contended).any (fun t =>
        t.holder () = none ∧ (t.proc 1).state = .sleeping ∧ (t.proc 1).chan = some ()) = true := by
    decide +kernel
  obtain ⟨t, ht, hend⟩ := (Option.any_eq_true _ _).1 hrun
  obtain ⟨hfree, hstate, hchan⟩ := of_decide_eq_true hend
  have hrun := Run.of_follow ht
  obtain ⟨-, hsleep⟩ := sleeplock_exclusive _ (State.idle_quiescent rfl) rfl hrun
  exact ⟨t, hrun, hstate, hsleep 1 hfree hstate hchan⟩

end Xv6.Sleep
