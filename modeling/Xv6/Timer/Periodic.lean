import Xv6.Timer.Model

/-!
# When timers expire, and whom they wake

`step_cases` says what a step can do to one process: something happens to its
entry, it calls `setperiod`, or `clockintr` looks at its timer or wakes it
from `&ticks`.  The results are read off it.

* `period_callbacks`: the callback of a process that has called
  `setperiod(P)` comes every `P` ticks, and a process that waits for its next
  period sleeps until then.
* `clockintr_wakes_iff`: `period_callback` does not look at what the process
  sleeps on, so `clockintr` wakes the wrong process exactly when one with an
  expired timer sleeps on another channel than `&ticks`.
-/

namespace Xv6.Timer

open Lib Sched List Nat Option State UInt32

/-! ## The process table -/

/-- What holds of every entry: its timer points back to it and has a
callback, and only a process in `sleep` has a channel. -/
structure Entry.Ok (p : Fin NPROC) (e : Entry) : Prop where
  timer : ∀ t, e.timer = some t → t.proc = p ∧ t.callback = true
  chan : e.chan ≠ none → e.place = .sleep
  place : e.state ≠ .sleeping → e.state ≠ .runnable → e.place = .other

theorem Entry.Ok.act {p : Fin NPROC} {e e' : Entry} {a : Action} (h : e.Ok p)
    (ha : e.act a = some e') : e'.Ok p := by
  obtain ⟨htimer, hchan, hplace⟩ := h
  cases a with
  | waitPeriod =>
    simp only [Entry.act] at ha
    split at ha
    · rename_i hrun
      cases ha
      split
      · exact ⟨htimer, hchan, hplace⟩
      refine ⟨htimer, fun hc => ?_, fun hs => absurd rfl hs⟩
      -- a running process has no channel
      have hsleep := hchan hc
      rw [hplace (by rw [hrun]; decide) (by rw [hrun]; decide)] at hsleep
      cases hsleep
    · cases ha
  | sleep c =>
    simp only [Entry.act] at ha
    split at ha
    · cases ha
      exact ⟨htimer, fun _ => rfl, fun hs => absurd rfl hs⟩
    · cases ha
  | wakeup c =>
    simp only [Entry.act] at ha
    cases ha
    split
    · exact ⟨htimer, hchan, fun _ hs => absurd rfl hs⟩
    · exact ⟨htimer, hchan, hplace⟩
  | kill =>
    simp only [Entry.act] at ha
    cases ha
    refine ⟨htimer, hchan, ?_⟩
    split
    · exact fun _ hs => absurd rfl hs
    · exact hplace
  | schedule =>
    simp only [Entry.act] at ha
    split at ha
    · cases ha
      refine ⟨htimer, fun hc => ?_, fun _ _ => rfl⟩
      split at hc
      · exact absurd rfl hc
      rename_i hne
      exact absurd (hchan hc) hne
    · cases ha
  | yield | ready =>
    simp only [Entry.act] at ha
    split at ha
    · cases ha
      exact ⟨htimer, hchan, fun _ hs => absurd rfl hs⟩
    · cases ha
  | exit =>
    simp only [Entry.act] at ha
    split at ha
    · rename_i hrun
      cases ha
      exact ⟨htimer, hchan, fun _ _ => hplace (by rw [hrun]; decide) (by rw [hrun]; decide)⟩
    · cases ha
  | free =>
    simp only [Entry.act] at ha
    split at ha
    · rename_i hstate
      cases ha
      refine ⟨htimer, fun hc => absurd rfl hc, fun _ _ => ?_⟩
      obtain hz | hu := hstate
      · exact hplace (by rw [hz]; decide) (by rw [hz]; decide)
      · exact hplace (by rw [hu]; decide) (by rw [hu]; decide)
    · cases ha
  | alloc =>
    simp only [Entry.act] at ha
    split at ha
    · rename_i hstate
      cases ha
      exact ⟨htimer, hchan, fun _ _ => hplace (by rw [hstate]; decide) (by rw [hstate]; decide)⟩
    · cases ha

/-- The ticks at which the callback of process `p` has been invoked. -/
def State.callsOf (s : State) (p : Fin NPROC) : List Nat :=
  (s.calls.filter fun c => c.1 = p).map Prod.snd

/-- The entries of all processes are in order. -/
def State.Ok (s : State) : Prop := ∀ p, (s.entry p).Ok p

/-- What a step does to process `p`. -/
inductive Effect (s : State) (l : Label) (t : State) (p : Fin NPROC) : Prop where
  /-- Something happens to its entry. -/
  | act (a : Action)
      (hl : l = .act p a ∨ l = .clock ∧ s.clock = some (.wakeup p) ∧ a = .wakeup .ticks)
      (ht : (s.entry p).act a = some (t.entry p)) (hcalls : t.callsOf p = s.callsOf p)
  /-- It calls `setperiod`. -/
  | setperiod (period : Int) (hl : l = .setperiod p period)
      (hrun : (s.entry p).state = .running) (ht : t = (s.setperiod p period).2)
  /-- `clockintr` looks at its timer, which has expired. -/
  | expire (timer : Xv6Timer) (hl : l = .clock) (hclock : s.clock = some (.timers p))
      (hstate : (s.entry p).state ≠ .unused) (hdue : s.Due p timer)
      (ht : t.entry p = { periodCallback (s.entry p) with
        timer := some { timer with nextTick := s.ticks + uintOfInt timer.expiry } })
      (hcalls : t.callsOf p = s.callsOf p ++ [s.ticks.toNat])
  /-- Nothing; if `clockintr` looks at its timer, that has not expired. -/
  | none (ht : t.entry p = s.entry p) (hcalls : t.callsOf p = s.callsOf p)
      (hdue : l = .clock → s.clock = some (.timers p) → (s.entry p).state ≠ .unused →
        ∀ timer, ¬ s.Due p timer)

namespace State

variable {s t : State} {l : Label} {p q : Fin NPROC}

@[simp] theorem setEntry_self (s : State) (p : Fin NPROC) (e : Entry) :
    (s.setEntry p e).entry p = e := Function.update_self ..

theorem setEntry_of_ne (s : State) (e : Entry) (h : p ≠ q) :
    (s.setEntry q e).entry p = s.entry p := Function.update_of_ne h ..

/-- Without a timer of its own process that has expired, a round of
`clockintr` does nothing to process `p`. -/
theorem checkTimer_of_ne (hok : s.Ok) (h : p ≠ q) :
    (s.checkTimer q).entry p = s.entry p ∧ (s.checkTimer q).callsOf p = s.callsOf p := by
  unfold checkTimer
  split
  · exact ⟨rfl, rfl⟩
  rename_i timer htimer
  split
  · have hproc := ((hok q).timer timer htimer).1
    constructor
    · show ((s.setEntry timer.proc _).setTimer q _).entry p = s.entry p
      rw [setTimer, setEntry_of_ne _ _ h, hproc, setEntry_of_ne _ _ h]
    · simp [callsOf, expire, filter_append, Ne.symm h]
  · exact ⟨rfl, rfl⟩

theorem expire_self (hok : s.Ok) {timer : Xv6Timer} (htimer : (s.entry p).timer = some timer) :
    (s.expire p timer).entry p = { periodCallback (s.entry p) with
      timer := some { timer with nextTick := s.ticks + uintOfInt timer.expiry } } := by
  show ((s.setEntry timer.proc _).setTimer p _).entry p = _
  rw [setTimer, ((hok p).timer timer htimer).1, setEntry_self, setEntry_self]

/-- The timer that `setperiod` leaves. -/
def freshTimer (s : State) (p : Fin NPROC) (period : Int) : Xv6Timer :=
  { expiry := period, nextTick := s.ticks + uintOfInt period, proc := p, callback := true }

/-- `setperiod` fails and changes nothing, or it sets the timer. -/
theorem setperiod_cases (hok : s.Ok) (p : Fin NPROC) (period : Int) :
    s.setperiod p period = (-1, s) ∨ 1 ≤ period ∧ ∃ k,
      s.setperiod p period = (0, { s with kmem := k }.setTimer p (s.freshTimer p period)) := by
  unfold setperiod
  split
  · exact .inl rfl
  rename_i hperiod
  split
  · rename_i timer htimer
    obtain ⟨hproc, hcallback⟩ := (hok p).timer timer htimer
    refine .inr ⟨by omega, s.kmem, ?_⟩
    rw [xv6timerForward, hproc, hcallback]
    rfl
  · split
    · exact .inl rfl
    rename_i page k hk
    exact .inr ⟨by omega, k, rfl⟩

/-- A round of `clockintr` for the process itself. -/
theorem effect_checkTimer (hok : s.Ok) {c : Option Clock} (hclock : s.clock = some (.timers p)) :
    Effect s .clock { s.checkTimer p with clock := c } p := by
  cases htimer : (s.entry p).timer with
  | none =>
    have hcheck : s.checkTimer p = s := by rw [checkTimer, htimer]
    rw [hcheck]
    refine .none rfl rfl fun _ _ _ timer hdue => ?_
    rw [hdue.1] at htimer
    cases htimer
  | some timer =>
    have hcheck : s.checkTimer p =
        if (s.entry p).state ≠ .unused ∧ s.Due p timer then s.expire p timer else s := by
      rw [checkTimer, htimer]
    by_cases hdue : (s.entry p).state ≠ .unused ∧ s.Due p timer
    · rw [hcheck, if_pos hdue]
      refine .expire timer rfl hclock hdue.1 hdue.2 (expire_self hok htimer) ?_
      simp [callsOf, expire, filter_append]
    rw [hcheck, if_neg hdue]
    refine .none rfl rfl fun _ _ hstate timer' hdue' => ?_
    have hsame : timer' = timer := by
      have := hdue'.1
      rw [htimer, some.injEq] at this
      exact this.symm
    rw [hsame] at hdue'
    exact hdue ⟨hstate, hdue'⟩

/-- A step does one of the listed things to each process. -/
theorem effect (hok : s.Ok) (h : Steps s l t) (p : Fin NPROC) : Effect s l t p := by
  cases l with
  | act q a =>
    obtain ⟨e, he, rfl⟩ := map_eq_some_iff.1 h
    by_cases hp : p = q
    · subst hp
      exact .act a (.inl rfl) (by rw [setEntry_self, he]) rfl
    · exact .none (setEntry_of_ne s e hp) rfl (fun hl => by cases hl)
  | setperiod q period =>
    simp only [Steps, step] at h
    split at h
    · rename_i hrun
      cases h
      by_cases hp : p = q
      · subst hp
        exact .setperiod period rfl hrun rfl
      obtain heq | ⟨-, k, heq⟩ := setperiod_cases hok q period
      · rw [heq]
        exact .none rfl rfl (fun hl => by cases hl)
      · rw [heq]
        exact .none (setEntry_of_ne _ _ hp) rfl (fun hl => by cases hl)
    · cases h
  | tick =>
    simp only [Steps, step] at h
    split at h
    · cases h
      exact .none rfl rfl (fun hl => by cases hl)
    · cases h
  | pages k =>
    cases h
    exact .none rfl rfl (fun hl => by cases hl)
  | clock =>
    simp only [Steps, step, clockStep] at h
    split at h
    · cases h
    · rename_i i hclock
      split at h
      · rename_i hi
        cases h
        by_cases hp : p = ⟨i, hi⟩
        · subst hp
          exact effect_checkTimer hok hclock
        obtain ⟨hentry, hcalls⟩ := checkTimer_of_ne hok hp
        refine .none hentry hcalls fun _ hclock' => ?_
        rw [hclock, some.injEq, Clock.timers.injEq] at hclock'
        exact absurd (Fin.ext hclock'.symm) hp
      · rename_i hi
        cases h
        refine .none rfl rfl fun _ hclock' => ?_
        rw [hclock, some.injEq, Clock.timers.injEq] at hclock'
        exact absurd (hclock' ▸ p.isLt) hi
    rename_i i hclock
    have hnot : s.clock ≠ some (.timers p) := by
      rw [hclock]
      simp
    split at h
    · rename_i hi
      obtain ⟨e, he, rfl⟩ := map_eq_some_iff.1 h
      by_cases hp : p = ⟨i, hi⟩
      · subst hp
        refine .act (.wakeup .ticks) (.inr ⟨rfl, hclock, rfl⟩) ?_ rfl
        rw [he]
        exact congrArg some (setEntry_self s _ e).symm
      · exact .none (setEntry_of_ne s e hp) rfl fun _ hclock' => absurd hclock' hnot
    · cases h
      exact .none rfl rfl fun _ hclock' => absurd hclock' hnot

theorem periodCallback_ok {e : Entry} (h : e.Ok p) : (periodCallback e).Ok p := by
  unfold periodCallback
  split
  · exact ⟨h.timer, h.chan, fun _ hs => absurd rfl hs⟩
  · exact h

/-- Every step keeps the process table in order. -/
theorem Ok.step (hok : s.Ok) (h : Steps s l t) : t.Ok := by
  intro p
  cases effect hok h p with
  | act a hl ht hcalls => exact (hok p).act ht
  | none ht hcalls hdue =>
    rw [ht]
    exact hok p
  | expire timer hl hclock hstate hdue ht hcalls =>
    have hcb := periodCallback_ok (hok p)
    rw [ht]
    refine ⟨fun t htimer => ?_, hcb.chan, hcb.place⟩
    cases htimer
    exact (hok p).timer timer hdue.1
  | setperiod period hl hrun ht =>
    rw [ht]
    obtain heq | ⟨-, k, heq⟩ := setperiod_cases hok p period
    · rw [heq]
      exact hok p
    rw [heq, setTimer, setEntry_self]
    refine ⟨fun t htimer => ?_, (hok p).chan, (hok p).place⟩
    cases htimer
    exact ⟨rfl, rfl⟩

end State

/-- The process table is in order in every state that can be reached. -/
theorem Reachable.ok {s : State} (h : Reachable s) : s.Ok := by
  obtain ⟨k, ls, hrun⟩ := h
  refine hrun.inv (I := Ok) (fun p => ?_) fun t l u ht hstep => ht.step hstep
  exact ⟨fun t ht => (by cases ht), fun hc => absurd rfl hc, fun _ _ => rfl⟩

/-! ## Callbacks -/

namespace State

/-- The last tick for which `clockintr` has looked at process `p`. -/
def looked (s : State) (p : Fin NPROC) : Nat :=
  match s.clock with
  | some (.timers i) => if i ≤ p.val then s.ticks.toNat - 1 else s.ticks.toNat
  | _ => s.ticks.toNat

variable {s t : State} {l : Label} {p : Fin NPROC}

@[simp] theorem checkTimer_ticks (s : State) (q : Fin NPROC) :
    (s.checkTimer q).ticks = s.ticks := by
  unfold checkTimer
  split
  · rfl
  · split <;> rfl

/-- `clockintr` comes to process `p` once in every tick. -/
theorem looked_step (hok : s.Ok) (h : Steps s l t)
    (htick : l = .tick → s.ticks.toNat + 1 < 2 ^ 32) :
    if l = .clock ∧ s.clock = some (.timers p) then
      s.looked p = s.ticks.toNat - 1 ∧ t.looked p = s.ticks.toNat else t.looked p = s.looked p := by
  cases l with
  | act q a =>
    obtain ⟨e, he, rfl⟩ := map_eq_some_iff.1 h
    rw [if_neg (by simp)]
    rfl
  | setperiod q period =>
    simp only [Steps, step] at h
    split at h
    · cases h
      rw [if_neg (by simp)]
      obtain heq | ⟨-, k, heq⟩ := setperiod_cases hok q period
      · rw [heq]
      rw [heq]
      rfl
    · cases h
  | tick =>
    simp only [Steps, step] at h
    split at h
    · rename_i hclock
      cases h
      have hsucc : (s.ticks + 1).toNat = s.ticks.toNat + 1 := by
        rw [UInt32.toNat_add]
        exact mod_eq_of_lt (htick rfl)
      rw [if_neg (by simp)]
      simp [looked, hclock, hsucc]
    · cases h
  | pages k =>
    cases h
    rw [if_neg (by simp)]
    rfl
  | clock =>
    simp only [Steps, step, clockStep] at h
    split at h
    · cases h
    · rename_i i hclock
      split at h
      · rename_i hi
        cases h
        by_cases hp : i = p.val
        · rw [if_pos ⟨rfl, by rw [hclock, hp]⟩]
          simp [looked, hclock, hp]
        rw [if_neg (by rw [hclock]; simpa using hp)]
        simp only [looked, hclock, checkTimer_ticks]
        have hle : i + 1 ≤ p.val ↔ i ≤ p.val := by omega
        simp only [hle]
      · rename_i hi
        cases h
        rw [if_neg (by rw [hclock]; simp; omega)]
        simp only [looked, hclock]
        rw [if_neg (by omega)]
    · rename_i i hclock
      rw [if_neg (by rw [hclock]; simp)]
      split at h
      · obtain ⟨e, he, rfl⟩ := map_eq_some_iff.1 h
        simp [looked, hclock, setEntry]
      · cases h
        simp [looked, hclock]

/-- Only a clock interrupt changes the tick counter. -/
theorem ticks_step (hok : s.Ok) (h : Steps s l t) :
    t.ticks = if l = .tick then s.ticks + 1 else s.ticks := by
  cases l with
  | act q a =>
    obtain ⟨e, he, rfl⟩ := map_eq_some_iff.1 h
    rfl
  | setperiod q period =>
    simp only [Steps, step] at h
    split at h
    · cases h
      obtain heq | ⟨-, k, heq⟩ := setperiod_cases hok q period
      all_goals
        rw [heq]
        rfl
    · cases h
  | tick =>
    simp only [Steps, step] at h
    split at h
    · cases h
      rfl
    · cases h
  | pages k =>
    cases h
    rfl
  | clock =>
    simp only [Steps, step, clockStep] at h
    split at h
    · cases h
    · split at h
      · cases h
        exact checkTimer_ticks s _
      · cases h
        rfl
    split at h
    · obtain ⟨e, he, rfl⟩ := map_eq_some_iff.1 h
      rfl
    · cases h
      rfl

end State

namespace Entry

variable {e e' : Entry} {a : Action}

/-- No action changes the timer of a process. -/
theorem act_timer (h : e.act a = some e') : e'.timer = e.timer := by
  cases a with
  | wakeup c =>
    simp only [act] at h
    cases h
    split <;> rfl
  | kill =>
    cases h
    rfl
  | waitPeriod =>
    simp only [act] at h
    split at h
    · cases h
      split <;> rfl
    · cases h
  | sleep | schedule | yield | exit | free | alloc | ready =>
    simp only [act] at h
    split at h
    · cases h
      rfl
    · cases h

/-- A process exists until `freeproc`. -/
theorem act_state (h : e.act a = some e') (ha : a ≠ .free) (he : e.state ≠ .unused) :
    e'.state ≠ .unused := by
  cases a with
  | wakeup c =>
    simp only [act] at h
    cases h
    split
    · intro heq
      cases heq
    · exact he
  | kill =>
    cases h
    dsimp only
    split
    · decide
    · exact he
  | waitPeriod =>
    simp only [act] at h
    split at h
    · cases h
      split
      · exact he
      intro heq
      cases heq
    · cases h
  | sleep | schedule | yield | exit | alloc | ready =>
    simp only [act] at h
    split at h
    · cases h
      intro heq
      cases heq
    · cases h
  | free => exact absurd rfl ha

/-- The process sleeps in `sys_wait_until_next_period`. -/
structure Waiting (e : Entry) : Prop where
  state : e.state = .sleeping
  place : e.place = .period
  chan : e.chan = none

/-- Only a kill takes a process out of its wait, apart from the callback. -/
theorem Waiting.act (hw : e.Waiting) (h : e.act a = some e') (ha : a ≠ .kill) : e'.Waiting := by
  have hstate := hw.state
  cases a with
  | wakeup c =>
    simp only [Entry.act, hw.chan] at h
    cases h
    simpa using hw
  | kill => exact absurd rfl ha
  | waitPeriod | sleep | schedule | yield | exit | free | alloc | ready =>
    simp [Entry.act, hstate] at h

/-- A running process that has a timer and calls
`sys_wait_until_next_period` waits. -/
theorem Waiting.of_waitPeriod {p : Fin NPROC} (hok : e.Ok p) (htimer : e.timer ≠ none)
    (h : e.act .waitPeriod = some e') : e'.Waiting := by
  simp only [Entry.act] at h
  split at h
  · rename_i hrun
    have hplace : e.place = .other :=
      hok.place (by rw [hrun]; decide) (by rw [hrun]; decide)
    have hchan : e.chan = none := by
      by_contra hc
      rw [hok.chan hc] at hplace
      cases hplace
    cases h
    exact ⟨rfl, rfl, hchan⟩
  · cases h

end Entry

/-- The ticks `t₀ + P`, `t₀ + 2 * P`, ..., `t₀ + k * P`. -/
def periods (t₀ P k : Nat) : List Nat := (List.range k).map fun j => t₀ + (j + 1) * P

/-- The labels of a run in which process `p` exists and does not call
`setperiod`, and the tick counter stays below `2 ^ 32 - P`. -/
def Undisturbed (p : Fin NPROC) (P : Int) (s : State) : Label → Prop
  | .setperiod q _ => q ≠ p
  | .act q .free => q ≠ p
  | .tick => (s.ticks.toNat : Int) + 1 < 2 ^ 32 - P
  | _ => True

/-- The timer of process `p` with period `P` that expires at tick `next`. -/
def timerAt (p : Fin NPROC) (P next : Nat) : Xv6Timer :=
  { expiry := P, nextTick := UInt32.ofNat next, proc := p, callback := true }

/-- Process `p` has called `setperiod(P)` at tick `t₀`, and `k` callbacks have
come since. -/
structure Periodic (p : Fin NPROC) (P t₀ : Nat) (base : List Nat) (k : Nat) (s : State) :
    Prop where
  ok : s.Ok
  state : (s.entry p).state ≠ .unused
  timer : (s.entry p).timer = some (timerAt p P (t₀ + (k + 1) * P))
  calls : s.callsOf p = base ++ periods t₀ P k
  above : k = 0 ∨ t₀ + k * P ≤ s.looked p
  below : s.looked p < t₀ + (k + 1) * P
  room : s.ticks.toNat + P < 2 ^ 32
  next : t₀ + (k + 1) * P < 2 ^ 32

variable {ls : List Label}

namespace Periodic

variable {p : Fin NPROC} {P t₀ k : Nat} {base : List Nat} {s t : State} {l : Label}

variable (h : Periodic p P t₀ base k s)

include h

/-- The timer has expired when the next period is over. -/
theorem due_iff : (∃ timer, s.Due p timer) ↔ t₀ + (k + 1) * P ≤ s.ticks.toNat := by
  have hnext : (ofNat (t₀ + (k + 1) * P)).toNat = t₀ + (k + 1) * P :=
    toNat_ofNat_of_lt' h.next
  constructor
  · rintro ⟨timer, htimer, hdue, -⟩
    rw [h.timer, some.injEq] at htimer
    rwa [← htimer, ge_iff_le, le_iff_toNat_le, timerAt, hnext] at hdue
  intro hle
  refine ⟨_, h.timer, ?_, rfl⟩
  rwa [ge_iff_le, le_iff_toNat_le, timerAt, hnext]

/-- The tick counter still has room after a step. -/
theorem room_step (hl : Undisturbed p P s l)
    (hstep : Steps s l t) : t.ticks.toNat + P < 2 ^ 32 := by
  have hroom := h.room
  rw [ticks_step h.ok hstep]
  split
  · rename_i htick
    rw [htick] at hl
    have hlt : (s.ticks.toNat : Int) + 1 < 2 ^ 32 - P := hl
    rw [UInt32.toNat_add]
    have hone : (1 : UInt32).toNat = 1 := rfl
    omega
  · exact hroom

/-- A step in which `clockintr` does not invoke the callback. -/
theorem keep (hl : Undisturbed p P s l) (hstep : Steps s l t)
    (htimer : (t.entry p).timer = (s.entry p).timer) (hstate : (t.entry p).state ≠ .unused)
    (hcalls : t.callsOf p = s.callsOf p)
    (hdue : l = .clock → s.clock = some (.timers p) → ∀ timer, ¬ s.Due p timer) :
    Periodic p P t₀ base k t := by
  have htick : l = .tick → s.ticks.toNat + 1 < 2 ^ 32 := by
    intro heq
    rw [heq] at hl
    have hlt : (s.ticks.toNat : Int) + 1 < 2 ^ 32 - P := hl
    omega
  have hlooked := looked_step (p := p) h.ok hstep htick
  have hbound : (k = 0 ∨ t₀ + k * P ≤ t.looked p) ∧ t.looked p < t₀ + (k + 1) * P := by
    have habove := h.above
    have hbelow := h.below
    by_cases hc : l = .clock ∧ s.clock = some (.timers p)
    · have hnot : ¬ t₀ + (k + 1) * P ≤ s.ticks.toNat := by
        rw [← h.due_iff]
        rintro ⟨timer, hd⟩
        exact hdue hc.1 hc.2 timer hd
      rw [if_pos hc] at hlooked
      omega
    · rw [if_neg hc] at hlooked
      omega
  exact ⟨h.ok.step hstep, hstate, by rw [htimer, h.timer], by rw [hcalls, h.calls], hbound.1,
    hbound.2, h.room_step hl hstep, h.next⟩

/-- A step in which `clockintr` invokes the callback. -/
theorem fire (hP : 0 < P) (hstep : Steps s .clock t)
    {timer : Xv6Timer} (hclock : s.clock = some (.timers p)) (hdue : s.Due p timer)
    (ht : t.entry p = { periodCallback (s.entry p) with
      timer := some { timer with nextTick := s.ticks + uintOfInt timer.expiry } })
    (hcalls : t.callsOf p = s.callsOf p ++ [s.ticks.toNat]) : Periodic p P t₀ base (k + 1) t := by
  have hbelow := h.below
  have hroom := h.room
  obtain ⟨hlast, hlooked⟩ : s.looked p = s.ticks.toNat - 1 ∧ t.looked p = s.ticks.toNat := by
    have hlooked := looked_step (p := p) h.ok hstep (fun heq => by cases heq)
    rwa [if_pos ⟨rfl, hclock⟩] at hlooked
  -- the period is over, and it was not at the tick before
  have hnow : s.ticks.toNat = t₀ + (k + 1) * P := by
    have hle := h.due_iff.1 ⟨timer, hdue⟩
    omega
  have hmul : (k + 1 + 1) * P = (k + 1) * P + P := succ_mul _ _
  have htimer : timer = timerAt p P (t₀ + (k + 1) * P) := by
    have := hdue.1
    rw [h.timer, some.injEq] at this
    exact this.symm
  have hnext : s.ticks + uintOfInt P = ofNat (t₀ + (k + 1 + 1) * P) := by
    have hmod : ((P : Int) % 2 ^ 32).toNat = P := by omega
    have hticks : s.ticks = ofNat (t₀ + (k + 1) * P) := by rw [← hnow, UInt32.ofNat_toNat]
    rw [uintOfInt, hmod, hticks, ← ofNat_add, hmul, add_assoc]
  refine ⟨h.ok.step hstep, ?_, ?_, ?_, ?_, ?_, ?_, ?_⟩
  · rw [ht]
    show (periodCallback (s.entry p)).state ≠ .unused
    unfold periodCallback
    split
    · intro heq
      cases heq
    · exact h.state
  · rw [ht, htimer, timerAt, timerAt, ← hnext]
  · rw [hcalls, h.calls, hnow, periods, periods, range_succ, map_append, append_assoc]
    rfl
  · right
    rw [hlooked, hnow]
  · rw [hlooked, hnow, hmul]
    omega
  · rwa [ticks_step h.ok hstep]
  · rw [hmul]
    omega

/-- Every step keeps the schedule. -/
theorem step (hP : 0 < P) (hl : Undisturbed p P s l)
    (hstep : Steps s l t) : ∃ k', Periodic p P t₀ base k' t := by
  cases effect h.ok hstep p with
  | act a hl' ht hcalls =>
    have hfree : a ≠ .free := by
      rintro rfl
      obtain rfl | ⟨-, -, heq⟩ := hl'
      · exact hl rfl
      · cases heq
    refine ⟨k, h.keep hl hstep (Entry.act_timer ht) (Entry.act_state ht hfree h.state) hcalls ?_⟩
    intro hclock htimers
    obtain rfl | ⟨-, hwakeup, -⟩ := hl'
    · cases hclock
    rw [hwakeup] at htimers
    cases htimers
  | setperiod period hl' hrun ht =>
    rw [hl'] at hl
    exact absurd rfl hl
  | expire timer hl' hclock hstate hdue ht hcalls =>
    subst hl'
    exact ⟨k + 1, h.fire hP hstep hclock hdue ht hcalls⟩
  | none ht hcalls hdue =>
    refine ⟨k, h.keep hl hstep (by rw [ht]) (by rw [ht]; exact h.state) hcalls ?_⟩
    exact fun hclock htimers => hdue hclock htimers h.state

/-- `k` is the number of periods that are over. -/
theorem count_eq (hP : 0 < P) : (s.looked p - t₀) / P = k := by
  have habove := h.above
  have hbelow := h.below
  have hmul : (k + 1) * P = k * P + P := succ_mul _ _
  apply Nat.div_eq_of_lt_le
  · obtain rfl | hle := habove
    · simp
    · omega
  · omega

omit h in
/-- The first state of the schedule. -/
theorem start {period : Int} (hok : s.Ok) (hrun : (s.entry p).state = .running)
    (hroom : (s.ticks.toNat : Int) < 2 ^ 32 - period) (hset : s.setperiod p period = (0, t)) :
    0 < period.toNat ∧ Periodic p period.toNat s.ticks.toNat (s.callsOf p) 0 t := by
  obtain heq | ⟨hpos, m, heq⟩ := setperiod_cases hok p period
  · rw [heq] at hset
    cases hset
  rw [heq] at hset
  cases hset
  have hpos' : 0 < period.toNat := by omega
  have hlooked : s.looked p ≤ s.ticks.toNat := by
    unfold looked
    split
    · split <;> omega
    · omega
  have hentry : ({ s with kmem := m }.setTimer p (s.freshTimer p period)).entry p =
      { s.entry p with timer := some (s.freshTimer p period) } := setEntry_self ..
  refine ⟨hpos', ?_, ?_, ?_, ?_, .inl rfl, ?_, ?_, ?_⟩
  · apply Ok.step hok (l := .setperiod p period)
    rw [Steps, State.step, if_pos hrun, heq]
  · rw [hentry]
    show (s.entry p).state ≠ .unused
    rw [hrun]
    decide
  · rw [hentry]
    have hmod : (period % 2 ^ 32).toNat = period.toNat := by omega
    have hcast : ((period.toNat : Nat) : Int) = period := by omega
    rw [State.freshTimer, timerAt, uintOfInt, hmod, Nat.zero_add, Nat.one_mul, hcast,
      ofNat_add, UInt32.ofNat_toNat]
  · simp [periods, setTimer, callsOf, setEntry]
  · show s.looked p < s.ticks.toNat + (0 + 1) * period.toNat
    omega
  · show s.ticks.toNat + period.toNat < 2 ^ 32
    omega
  · omega

/-- The schedule over a run. -/
theorem of_run (hP : 0 < P) (hrun : Run (fun s l t => Undisturbed p P s l ∧ Steps s l t) s ls t) :
    ∃ k', Periodic p P t₀ base k' t := by
  refine hrun.inv (I := fun t => ∃ k', Periodic p P t₀ base k' t) ⟨k, h⟩ ?_
  rintro t l u ⟨k', ht⟩ ⟨hl, hstep⟩
  exact ht.step hP hl hstep

/-! ## Waiting for the next period -/

/-- A step while the process waits: nothing happens to it, or its callback
makes it runnable. -/
theorem waiting_step (hl : Undisturbed p P s l)
    (hkill : l ≠ .act p .kill) (hstep : Steps s l t) (hw : (s.entry p).Waiting) :
    (t.callsOf p = s.callsOf p ∧ (t.entry p).Waiting) ∨
      (t.callsOf p = s.callsOf p ++ [s.ticks.toNat] ∧ (t.entry p).state = .runnable) := by
  cases effect h.ok hstep p with
  | act a hl' ht hcalls =>
    have ha : a ≠ .kill := by
      rintro rfl
      obtain heq | ⟨-, -, heq⟩ := hl'
      · exact hkill heq
      · cases heq
    exact .inl ⟨hcalls, hw.act ht ha⟩
  | setperiod period hl' hrun ht =>
    rw [hl'] at hl
    exact absurd rfl hl
  | expire timer hl' hclock hstate hdue ht hcalls =>
    refine .inr ⟨hcalls, ?_⟩
    rw [ht]
    show (periodCallback (s.entry p)).state = .runnable
    rw [periodCallback, if_pos hw.state]
  | none ht hcalls hdue =>
    rw [ht]
    exact .inl ⟨hcalls, hw⟩

omit h in
/-- Callbacks only accumulate. -/
theorem callsOf_step (hok : s.Ok) (hstep : Steps s l t) :
    t.callsOf p = s.callsOf p ∨ t.callsOf p = s.callsOf p ++ [s.ticks.toNat] := by
  cases effect hok hstep p with
  | act a hl ht hcalls => exact .inl hcalls
  | none ht hcalls hdue => exact .inl hcalls
  | expire timer hl hclock hstate hdue ht hcalls => exact .inr hcalls
  | setperiod period hl hrun ht =>
    left
    rw [ht]
    obtain heq | ⟨-, m, heq⟩ := setperiod_cases hok p period
    · rw [heq]
    rw [heq]
    rfl

/-- As long as no callback comes, the process waits. -/
theorem waiting_of_run (hP : 0 < P) (hw : (s.entry p).Waiting)
    (hrun : Run (fun s l t => (Undisturbed p P s l ∧ l ≠ .act p .kill) ∧ Steps s l t) s ls t) :
    (∃ k', Periodic p P t₀ base k' t) ∧ (t.callsOf p = s.callsOf p → (t.entry p).Waiting) := by
  have hinv : (∃ k', Periodic p P t₀ base k' t) ∧
      (s.callsOf p).length ≤ (t.callsOf p).length ∧
      (t.callsOf p = s.callsOf p → (t.entry p).Waiting) := by
    refine hrun.inv (I := fun t => (∃ k', Periodic p P t₀ base k' t) ∧
      (s.callsOf p).length ≤ (t.callsOf p).length ∧
      (t.callsOf p = s.callsOf p → (t.entry p).Waiting)) ⟨⟨k, h⟩, le_refl _, fun _ => hw⟩ ?_
    rintro t l u ⟨⟨k', ht⟩, hlen, hwait⟩ ⟨⟨hl, hkill⟩, hstep⟩
    refine ⟨ht.step hP hl hstep, ?_, fun hsame => ?_⟩
    · obtain heq | heq := callsOf_step (p := p) ht.ok hstep
      · rwa [heq]
      rw [heq, length_append]
      exact le_trans hlen (le_add_right _ _)
    obtain heq | heq := callsOf_step (p := p) ht.ok hstep
    · rw [heq] at hsame
      obtain ⟨-, hnext⟩ | ⟨hmore, -⟩ := ht.waiting_step hl hkill hstep (hwait hsame)
      · exact hnext
      rw [heq] at hmore
      simp at hmore
    -- a callback has come since
    rw [heq] at hsame
    have hlen' := congrArg length hsame
    rw [length_append, length_singleton] at hlen'
    omega
  exact ⟨hinv.1, hinv.2.2⟩

end Periodic

/-- A process calls `setperiod(P)` at tick `t₀`, successfully, and not again.
As long as it exists and the tick counter stays below `2 ^ 32 - P`, `clockintr`
invokes its callback at the ticks `t₀ + P`, `t₀ + 2 * P`, ... up to the one for
which it has looked at the process last, and at no others.  If the process
then calls `wait_until_next_period` and is not killed, it sleeps until its
next callback, which makes it runnable. -/
theorem period_callbacks {s s' t : State} {p : Fin NPROC} {P : Int} {ls : List Label}
    (hreach : Reachable s) (hrunning : (s.entry p).state = .running)
    (hset : s.setperiod p P = (0, s')) (hroom : (s.ticks.toNat : Int) < 2 ^ 32 - P)
    (hrun : Run (fun s l t => Undisturbed p P s l ∧ Steps s l t) s' ls t) :
    t.callsOf p = s.callsOf p ++
        periods s.ticks.toNat P.toNat ((t.looked p - s.ticks.toNat) / P.toNat) ∧
      ∀ v ls' w, Steps t (.act p .waitPeriod) v →
        Run (fun s l t => (Undisturbed p P s l ∧ l ≠ .act p .kill) ∧ Steps s l t) v ls' w →
        w.callsOf p = v.callsOf p →
        (w.entry p).state = .sleeping ∧
        ∀ l w', (Undisturbed p P w l ∧ l ≠ .act p .kill) ∧ Steps w l w' →
          w'.callsOf p ≠ w.callsOf p → (w'.entry p).state = .runnable := by
  obtain ⟨hpos, hstart⟩ := Periodic.start hreach.ok hrunning hroom hset
  have hcast : ((P.toNat : Nat) : Int) = P := by omega
  rw [← hcast] at hrun
  obtain ⟨k, ht⟩ := hstart.of_run hpos hrun
  refine ⟨by rw [ht.count_eq hpos, ht.calls], ?_⟩
  intro v ls' w hwait hrun' hsame
  rw [← hcast] at hrun' ⊢
  obtain ⟨k', hv⟩ := ht.step (l := .act p .waitPeriod) hpos trivial hwait
  have hwaiting : (v.entry p).Waiting := by
    obtain ⟨e, he, rfl⟩ := Option.map_eq_some_iff.1 hwait
    rw [State.setEntry_self]
    exact .of_waitPeriod (ht.ok p) (by rw [ht.timer]; simp) he
  obtain ⟨⟨k'', hw⟩, hsleeps⟩ := hv.waiting_of_run hpos hwaiting hrun'
  refine ⟨(hsleeps hsame).state, ?_⟩
  rintro l w' ⟨⟨hl, hkill⟩, hstep⟩ hmore
  obtain ⟨heq, -⟩ | ⟨-, hstate⟩ := hw.waiting_step hl hkill hstep (hsleeps hsame)
  · exact absurd heq hmore
  · exact hstate

/-- Process 0 is created and runs. -/
def firstRuns : List Label := [.act 0 .alloc, .act 0 .ready, .act 0 .schedule]

/-- Process 0 runs, and there are the given free pages. -/
def running (pages : List Nat) : State :=
  after State.step (State.boot ⟨0x80000000, pages⟩) firstRuns

theorem running_reachable (pages : List Nat) : Reachable (running pages) :=
  ⟨_, firstRuns, Run.of_after rfl⟩

theorem Reachable.after {s : State} (h : Reachable s)
    (hls : (follow step s ls).isSome = true) : Reachable (after step s ls) := by
  obtain ⟨k, front, hrun⟩ := h
  exact ⟨k, front ++ ls, hrun.append (Run.of_after hls)⟩

/-- A tick in which `clockintr` has looked at process 0. -/
def oneTick (s : State) : State := after State.step (after State.step s [.tick]) [.clock]

theorem oneTick_run {s : State} (hroom : (s.ticks.toNat : Int) + 1 < 2 ^ 32 - 1)
    (htick : (s.step .tick).isSome = true)
    (hclock : ((after step s [.tick]).step .clock).isSome = true) :
    Run (fun s l t => Undisturbed 0 1 s l ∧ Steps s l t) s [.tick, .clock] (oneTick s) :=
  Run.cons ⟨hroom, step_after htick⟩ (Run.single ⟨trivial, step_after hclock⟩)

/-- Process 0 has called `setperiod(1)`. -/
def withPeriod : State := after State.step (running [0x80001000]) [.setperiod 0 1]

theorem withPeriod_reachable : Reachable withPeriod :=
  (running_reachable _).after (by decide +kernel)

/-- After one tick, it waits for its next period. -/
def waiter : State := after State.step (oneTick withPeriod) [.act 0 .waitPeriod]

theorem period_callbacks_first :
    (oneTick withPeriod).callsOf 0 = (running [0x80001000]).callsOf 0 ++ periods 0 1 1 ∧
      Steps (oneTick withPeriod) (.act 0 .waitPeriod) waiter ∧
      (waiter.entry 0).state = .sleeping := by
  have hset : (running [0x80001000]).setperiod 0 1 = (0, withPeriod) := rfl
  have hrun := oneTick_run (s := withPeriod) (by decide +kernel) rfl (by decide +kernel)
  have hwait : Steps (oneTick withPeriod) (.act 0 .waitPeriod) waiter :=
    step_after (by decide +kernel)
  have h := period_callbacks (running_reachable _) (by decide +kernel) hset (by decide +kernel)
    hrun
  exact ⟨h.1, hwait, (h.2 waiter [] waiter hwait .nil rfl).1⟩

/-- Without a free page `setperiod(1)` fails, and no callback comes at the
next tick. -/
theorem no_callback_without_page :
    Reachable (running []) ∧ (running []).setperiod 0 1 = (-1, running []) ∧
      Run (fun s l t => Undisturbed 0 1 s l ∧ Steps s l t) (running []) [.tick, .clock]
        (oneTick (running [])) ∧
      (oneTick (running [])).looked 0 = 1 ∧ (oneTick (running [])).callsOf 0 = [] :=
  ⟨running_reachable _, rfl, oneTick_run (by decide +kernel) rfl (by decide +kernel),
    by decide +kernel, by decide +kernel⟩

/-! ## Wrong wakeups -/

/-- `clockintr` may wake process `p`: it sleeps on `&ticks`, or it waits for
its next period and its timer has expired. -/
def State.MayWake (s : State) (p : Fin NPROC) : Prop :=
  (s.entry p).chan = some .ticks ∨ (s.entry p).place = .period ∧ ∃ timer, s.Due p timer

/-- A step of `clockintr` turns process `p` from `SLEEPING` to `RUNNABLE`. -/
def Wakes (s t : State) (p : Fin NPROC) : Prop :=
  (s.entry p).state = .sleeping ∧ (t.entry p).state = .runnable

/-- In every state that can be reached, a step of `clockintr` wakes only
processes that it may wake if and only if the process whose timer it looks at
does not sleep, or its timer has not expired, or it sleeps in
`wait_until_next_period` or on `&ticks`. -/
theorem clockintr_wakes_iff {s t : State} (hreach : Reachable s) (hstep : Steps s .clock t) :
    (∀ p, Wakes s t p → s.MayWake p) ↔
      ∀ p : Fin NPROC, s.clock = some (.timers p) → (s.entry p).state = .sleeping →
        (∃ timer, s.Due p timer) →
          (s.entry p).place = .period ∨ (s.entry p).chan = some .ticks := by
  constructor
  · intro h p hclock hsleep hdue
    cases State.effect hreach.ok hstep p with
    | act a hl ht hcalls =>
      obtain heq | ⟨-, hwakeup, -⟩ := hl
      · cases heq
      · rw [hwakeup] at hclock
        cases hclock
    | setperiod period hl hrun ht => cases hl
    | expire timer hl hclock' hstate hdue' ht hcalls =>
      have hwakes : Wakes s t p := by
        refine ⟨hsleep, ?_⟩
        rw [ht]
        show (periodCallback (s.entry p)).state = .runnable
        rw [periodCallback, if_pos hsleep]
      exact (h p hwakes).elim .inr fun hperiod => .inl hperiod.1
    | none ht hcalls hnot =>
      obtain ⟨timer, hd⟩ := hdue
      exact absurd hd (hnot rfl hclock (by rw [hsleep]; decide) timer)
  · rintro h p ⟨hsleep, hrunnable⟩
    cases State.effect hreach.ok hstep p with
    | act a hl ht hcalls =>
      obtain heq | ⟨-, -, rfl⟩ := hl
      · cases heq
      · -- `wakeup(&ticks)`
        simp only [Entry.act, Option.some.injEq] at ht
        split at ht
        · rename_i hticks
          exact .inl hticks.2
        · rw [← ht, hsleep] at hrunnable
          cases hrunnable
    | setperiod period hl hrun ht => cases hl
    | expire timer hl hclock hstate hdue ht hcalls =>
      obtain hperiod | hticks := h p hclock hsleep ⟨timer, hdue⟩
      · exact .inr ⟨hperiod, timer, hdue⟩
      · exact .inl hticks
    | none ht hcalls hnot =>
      rw [ht, hsleep] at hrunnable
      cases hrunnable

/-- A process with period 1 that waits for its next period, at the next
tick. -/
def dueWaiter : State := after State.step withPeriod [.act 0 .waitPeriod, .tick]

theorem clockintr_wakes_iff_waiter :
    ∃ t, Steps dueWaiter .clock t ∧ Wakes dueWaiter t 0 ∧ dueWaiter.MayWake 0 := by
  have hreach : Reachable dueWaiter := withPeriod_reachable.after (by decide +kernel)
  have hstep : Steps dueWaiter .clock _ := step_after (by decide +kernel)
  have hwakes : Wakes dueWaiter (after State.step dueWaiter [.clock]) 0 :=
    ⟨by decide +kernel, by decide +kernel⟩
  refine ⟨_, hstep, hwakes, (clockintr_wakes_iff hreach hstep).2 ?_ 0 hwakes⟩
  intro p hclock _ _
  have hfirst : dueWaiter.clock = some (.timers 0) := by decide +kernel
  rw [hfirst, Option.some.injEq, Clock.timers.injEq] at hclock
  have hp : p = 0 := Fin.ext hclock.symm
  rw [hp]
  exact .inl (by decide +kernel)

/-- A process with period 1 that sleeps on a pipe, at the next tick. -/
def pipeReader : State :=
  after State.step withPeriod [.act 0 (.sleep (.other 0x80005000)), .tick]

/-- The timer of a process that sleeps on a pipe wakes it. -/
theorem clockintr_wakes_pipe_reader :
    Reachable pipeReader ∧ ∃ t, Steps pipeReader .clock t ∧ Wakes pipeReader t 0 ∧
      ¬ pipeReader.MayWake 0 := by
  refine ⟨withPeriod_reachable.after (by decide +kernel), _, step_after (by decide +kernel),
    ⟨by decide +kernel, by decide +kernel⟩, ?_⟩
  have hchan : (pipeReader.entry 0).chan ≠ some .ticks := by decide +kernel
  have hplace : (pipeReader.entry 0).place ≠ .period := by decide +kernel
  rintro (hticks | ⟨hperiod, -⟩)
  · exact hchan hticks
  · exact hplace hperiod

end Xv6.Timer
