import Xv6.Smp.Current

/-!
# Parents, children and zombies

What holds of the `parent` fields and of the processes in `fork`, `exit` and
`wait` between any two steps of the system.  It is a property of the process
table and of the locations of the processes alone.

`wait_lock` orders three things: an exiting process that gives its children
away and wakes its parent, a parent that has looked at its children and is
about to sleep, and a zombie that comes into being or gets another parent.
A parent is `Committed` from the moment at which it has looked at all its
children and given `wait_lock` back until somebody wakes it.
-/

namespace Xv6.Smp

open Lib Sched Function

/-! ## What a location says about the family -/

namespace Loc

/-- Inside `wait`. -/
def inWait : Loc → Bool
  | .wait _ _ => true
  | .switch _ _ next | .block _ _ _ next | .sleep _ _ _ next | .wakeup _ _ next
  | .callback _ _ next => next.inWait
  | _ => false

/-- Who sleeps, and where: `exit` is not for init, a process that waits for
its period is in no other call, only `wait` sleeps with `wait_lock`, and only
`exit` wakes others with it. -/
def Shape (me : Option Slot) : Loc → Prop
  | .exit _ _ => me ≠ some initproc
  | .switch _ st next => (st = .sleeping → next.inWait = false) ∧ next.Shape me
  | .block _ _ _ next => next.inWait = false ∧ next.Shape me
  | .sleep _ chan lk next =>
    (lk = .wait → ∃ p addr, me = some p ∧ chan = .proc p ∧ next = .wait (.scan 0 false) addr) ∧
      (lk ≠ .wait → next.inWait = false) ∧ next.Shape me
  | .wakeup _ _ next =>
    (.wait ∈ next.locks me → ∃ at_ status, next = .exit at_ status ∧
      ((∃ i, at_ = .reparent i) ∨ at_ = .lock)) ∧ next.Shape me
  | .callback _ _ next => next.Shape me
  | _ => True

/-- A process that has started and has not become a zombie. -/
def busy : Loc → Bool
  | .forkret | .exit .waitUnlock _ | .exit .sched _ | .exit .dead _ => false
  | _ => true

/-- A `fork` that has set the parent of its child. -/
def adopted : Loc → Option Slot
  | .switch _ _ next | .block _ _ _ next | .sleep _ _ _ next | .wakeup _ _ next
  | .callback _ _ next => next.adopted
  | .fork (.waitUnlock np _) | .fork (.lock np _) | .fork (.ready np _) => some np
  | _ => none

/-- How many entries an `exit` has gone through to give its children away. -/
def bereft : Loc → Nat
  | .exit (.reparent i) _ | .wakeup _ _ (.exit (.reparent i) _) => i
  | .exit .wakeup _ | .exit .lock _ | .exit .mark _ | .wakeup _ _ (.exit .lock _) => NPROC
  | _ => 0

/-- How many entries a `wait` has looked at without finding a zombie. -/
def scanned : Loc → Nat
  | .wait (.scan i _) _ => i
  | .wait (.lock q) _ | .wait (.test q) _ => q
  | .wait (.skip q) _ => q + 1
  | .wait .killed _ | .wait .readKilled _ | .wait (.gotKilled _) _ | .wait .sleep _
  | .sleep .enter _ .wait _ | .sleep .lock _ .wait _ | .sleep .release _ .wait _ => NPROC
  | _ => 0

/-- The child that a `wait` looks at. -/
def child : Loc → Option Slot
  | .wait (.lock q) _ | .wait (.test q) _ | .wait (.copyout q _) _ | .wait (.free q _) _ => some q
  | _ => none

/-- The zombie that a `wait` has found, and its pid. -/
def found : Loc → Option (Slot × Nat)
  | .wait (.copyout q pid) _ | .wait (.free q pid) _ => some (q, pid)
  | _ => none

/-- A process that has marked itself `SLEEPING` and has not run since. -/
def asleep : Loc → Bool
  | .switch .sched .sleeping _ | .switch .unlock .sleeping _ | .sleep .sched _ _ _
  | .sleep .tidy _ _ _ => true
  | _ => false

/-- The channel of a process that is asleep. -/
def sleepsOn : Loc → Option Chan
  | .sleep .sched chan _ _ | .sleep .tidy chan _ _ => some chan
  | _ => none

/-- The channel that an `exit` wakes for its parent. -/
def target : Loc → Option (Option Chan)
  | .wakeup _ chan (.exit .lock _) => some chan
  | _ => none

/-- An `exit` that wakes a parent, and how many entries it has gone through. -/
def waking : Loc → Option (Slot × Nat)
  | .wakeup at_ (some (.proc x)) (.exit (.reparent _) _)
  | .wakeup at_ (some (.proc x)) (.exit .lock _) =>
    match at_ with
    | .scan i => some (x, i)
    | .test q => some (x, q)
    | .unlock q => some (x, q + 1)
  | _ => none

/-- An `exit` that has woken its parent and is not a zombie yet. -/
def final : Loc → Bool
  | .exit .lock _ | .exit .mark _ => true
  | _ => false

/-- A `wait` that has given `wait_lock` back to sleep, and that nobody has
woken since. -/
def committed (st : RunState) : Loc → Bool
  | .sleep .mark _ .wait _ | .sleep .sched _ .wait _ => true
  | .sleep .tidy _ .wait _ => st = .sleeping
  | _ => false

end Loc

/-! ## The invariant -/

/-- The family of a process table `P` whose processes stand at `A`. -/
structure Kin (P : Slot → Proc) (A : Slot → Loc) : Prop where
  shape : ∀ p, (A p).Shape (some p)
  alive : ∀ p, (A p).busy = true → live (P p).state = true
  parent_live : ∀ r q, (P r).parent = some q → live (P q).state = true
  has_parent : ∀ r, r ≠ initproc → live (P r).state = true ∨ (P r).state = .zombie →
    (P r).parent ≠ none
  init : live (P initproc).state = true
  unborn : ∀ r, (P r).state = .unused → (P r).parent = none
  used : ∀ r x, (P r).state = .used → (P r).parent = some x → (A x).making = some r
  adopted : ∀ p np, (A p).adopted = some np → (P np).parent = some p
  bereft : ∀ p j, j.val < (A p).bereft → (P j).parent ≠ some p
  scanned : ∀ p j, j.val < (A p).scanned → (P j).parent = some p → (P j).state ≠ .zombie
  child : ∀ p q, (A p).child = some q → (P q).parent = some p
  found : ∀ p q pid, (A p).found = some (q, pid) → (P q).pid = pid
  asleep : ∀ p, (P p).state = .sleeping → (A p).asleep = true
  chan : ∀ p ch, (A p).sleepsOn = some ch → (P p).chan = some ch
  target : ∀ p ch, (A p).target = some ch → ch = (P p).parent.map .proc
  woken : ∀ p x k, (A p).waking = some (x, k) → x.val < k → (A x).committed (P x).state = false
  final : ∀ p x, (A p).final = true → (P p).parent = some x → (A x).committed (P x).state = false
  pending : ∀ p r, (A p).committed (P p).state = true → (P r).parent = some p →
    (P r).state = .zombie → ∃ q k, (A q).waking = some (p, k) ∧ k ≤ p.val

namespace Kin

variable {P : Slot → Proc} {A : Slot → Loc} {p q r : Slot} {L : Loc}

/-- A process that sleeps in `wait` has gone to sleep and nobody has woken
it. -/
theorem committed_of_sleeping (h : Kin P A) (hstate : (P p).state = .sleeping)
    (hin : (A p).inWait = true) : (A p).committed (P p).state = true := by
  have hasleep := h.asleep p hstate
  have hshape := h.shape p
  rw [hstate]
  generalize A p = L at *
  cases L with
  | switch at_ st next =>
    obtain ⟨hst, -⟩ := hshape
    cases at_ <;> cases st <;> simp_all [Loc.asleep, Loc.inWait]
  | sleep at_ chan lk next =>
    obtain ⟨-, hlk, -⟩ := hshape
    have hwait : lk = .wait := by
      by_contra hne
      rw [Loc.inWait, hlk hne] at hin
      cases hin
    subst hwait
    cases at_ <;> simp_all [Loc.asleep, Loc.committed]
  | _ => cases hasleep

end Kin

/-! ## A process moves -/

/-- What `next` says holds when process `p` gets there. -/
structure Moves (P : Slot → Proc) (A : Slot → Loc) (p : Slot) (next : Loc) : Prop where
  shape : next.Shape (some p)
  alive : next.busy = true → live (P p).state = true
  making : ∀ r, (A p).making = some r → next.making = some r ∨ (P r).state ≠ .used
  adopted : ∀ np, next.adopted = some np → (P np).parent = some p
  bereft : ∀ j : Slot, j.val < next.bereft → (P j).parent ≠ some p
  scanned : ∀ j : Slot, j.val < next.scanned → (P j).parent = some p → (P j).state ≠ .zombie
  child : ∀ q, next.child = some q → (P q).parent = some p
  found : ∀ q pid, next.found = some (q, pid) → (P q).pid = pid
  asleep : (P p).state = .sleeping → next.asleep = true
  chan : ∀ ch, next.sleepsOn = some ch → (P p).chan = some ch
  target : ∀ ch, next.target = some ch → ch = (P p).parent.map .proc
  woken : ∀ x k, next.waking = some (x, k) → x.val < k → x ≠ p → (A x).committed (P x).state = false
  final : ∀ x, next.final = true → (P p).parent = some x → x ≠ p →
    (A x).committed (P x).state = false
  /-- A parent that commits itself has looked at all its children, and nobody
  is between its wakeup and the zombie that it announces. -/
  commits : next.committed (P p).state = true → (A p).committed (P p).state = true ∨
    ((∀ q k, (A q).waking = some (p, k) → q ≠ p → k ≤ p.val) ∧
      (∀ q, (A q).final = true → q ≠ p → (P q).parent ≠ some p) ∧
      ∀ r, (P r).parent = some p → (P r).state ≠ .zombie)
  /-- A wakeup goes on until the parent is awake. -/
  pending : ∀ x k, (A p).waking = some (x, k) → k ≤ x.val →
    (∃ k', next.waking = some (x, k') ∧ k' ≤ x.val) ∨ (A x).committed (P x).state = false

namespace Loc

theorem not_committed_of_waking {L : Loc} {st : RunState} (h : L.waking ≠ none) :
    L.committed st = false := by
  cases L with
  | sleep => exact absurd rfl h
  | _ => rfl

theorem not_committed_of_final {L : Loc} {st : RunState} (h : L.final = true) :
    L.committed st = false := by
  cases L with
  | sleep => cases h
  | _ => rfl

section

variable {L : Loc} {me : Option Slot}

/-- What only a holder of `wait_lock` can say. -/
theorem wait_mem_locks (h : 0 < L.scanned ∨ L.child ≠ none ∨ L.target ≠ none ∨
    L.waking ≠ none ∨ L.final = true ∨ 0 < L.bereft) : .wait ∈ L.locks me := by
  cases L with
  | wait at_ | exit at_ =>
    cases at_ <;> simp_all [scanned, child, target, waking, final, bereft, locks]
  | sleep at_ chan lk next =>
    cases lk <;> cases at_ <;> simp_all [scanned, child, target, waking, final, bereft, locks]
  | wakeup at_ chan next =>
    cases next with
    | exit e =>
      cases e <;> cases at_ <;> simp_all [scanned, child, target, waking, final, bereft, locks]
    | _ => simp [scanned, child, target, waking, final, bereft] at h
  | _ => simp [scanned, child, target, waking, final, bereft] at h

/-- A location that says nothing about parents, children and sleep. -/
structure Silent (L : Loc) : Prop where
  bereft : L.bereft = 0
  scanned : L.scanned = 0
  child : L.child = none
  sleepsOn : L.sleepsOn = none
  target : L.target = none
  waking : L.waking = none
  final : L.final = false
  committed : ∀ st, L.committed st = false

theorem idle_of_not_busy (h : L.busy = false) : L.Silent ∧ L.making = none ∧ L.adopted = none := by
  cases L with
  | forkret => exact ⟨⟨rfl, rfl, rfl, rfl, rfl, rfl, rfl, fun _ => rfl⟩, rfl, rfl⟩
  | exit at_ =>
    cases at_ with
    | waitUnlock | sched | dead =>
      exact ⟨⟨rfl, rfl, rfl, rfl, rfl, rfl, rfl, fun _ => rfl⟩, rfl, rfl⟩
    | _ => cases h
  | _ => cases h

theorem child_of_found {q : Slot} {pid : Nat} (h : L.found = some (q, pid)) : L.child = some q := by
  cases L with
  | wait at_ => cases at_ <;> simp_all [found, child]
  | _ => cases h

end

end Loc

namespace Kin

variable {P : Slot → Proc} {A : Slot → Loc} {p q r : Slot} {next : Loc}

theorem move (h : Kin P A) (m : Moves P A p next) : Kin P (update A p next) := by
  -- every clause is about one process: the one that moves, or another one
  have hself : update A p next p = next := update_self _ _ _
  have hother : ∀ {q}, q ≠ p → update A p next q = A q := fun hq =>
    update_of_ne hq _ _
  have hsplit : ∀ {C : Slot → Loc → Prop}, (∀ q, C q (A q)) → C p next →
      ∀ q, C q (update A p next q) := fun hA hnext q => by
    by_cases hq : q = p
    · rwa [hq, hself]
    rw [hother hq]
    exact hA q
  -- nobody is committed now who was not before, or who has a waker to fear
  have hcommitted : ∀ x, x ≠ p → ∀ b, (A x).committed (P x).state = b →
      (update A p next x).committed (P x).state = b := fun x hx b hb => by
    rwa [hother hx]
  constructor
  case shape => exact hsplit (C := fun q L => L.Shape (some q)) h.shape m.shape
  case alive =>
    exact hsplit (C := fun q L => L.busy = true → live (P q).state = true) h.alive m.alive
  case parent_live => exact h.parent_live
  case has_parent => exact h.has_parent
  case init => exact h.init
  case unborn => exact h.unborn
  case used =>
    intro r x hused hpar
    have hmaking := h.used r x hused hpar
    by_cases hx : x = p
    · rw [hx] at hmaking ⊢
      rw [hself]
      exact (m.making r hmaking).resolve_right fun hne => hne hused
    · rwa [hother hx]
  case adopted =>
    exact hsplit (C := fun q L => ∀ np, L.adopted = some np → (P np).parent = some q) h.adopted
      m.adopted
  case bereft =>
    exact hsplit (C := fun q L => ∀ j : Slot, j.val < L.bereft → (P j).parent ≠ some q) h.bereft
      m.bereft
  case scanned =>
    exact hsplit (C := fun q L => ∀ j : Slot, j.val < L.scanned → (P j).parent = some q →
      (P j).state ≠ .zombie) h.scanned m.scanned
  case child =>
    exact hsplit (C := fun q L => ∀ j, L.child = some j → (P j).parent = some q) h.child m.child
  case found =>
    exact hsplit (C := fun _ L => ∀ j pid, L.found = some (j, pid) → (P j).pid = pid) h.found
      m.found
  case asleep =>
    exact hsplit (C := fun q L => (P q).state = .sleeping → L.asleep = true) h.asleep m.asleep
  case chan =>
    exact hsplit (C := fun q L => ∀ ch, L.sleepsOn = some ch → (P q).chan = some ch) h.chan m.chan
  case target =>
    exact hsplit (C := fun q L => ∀ ch, L.target = some ch → ch = (P q).parent.map .proc) h.target
      m.target
  case woken =>
    intro q x k hw hk
    by_cases hq : q = p
    · rw [hq, hself] at hw
      by_cases hx : x = p
      · rw [hx, hself]
        exact Loc.not_committed_of_waking (by rw [hw]; rintro ⟨⟩)
      · exact hcommitted x hx _ (m.woken x k hw hk hx)
    rw [hother hq] at hw
    by_cases hx : x = p
    · subst hx
      rw [hself]
      by_contra hc
      rcases m.commits (by simpa using hc) with hold | ⟨hno, -, -⟩
      · rw [h.woken q x k hw hk] at hold
        cases hold
      · exact absurd hk (Nat.not_lt.2 (hno q k hw hq))
    · exact hcommitted x hx _ (h.woken q x k hw hk)
  case final =>
    intro q x hf hpar
    by_cases hq : q = p
    · rw [hq, hself] at hf
      rw [hq] at hpar
      by_cases hx : x = p
      · rw [hx, hself]
        exact Loc.not_committed_of_final hf
      · exact hcommitted x hx _ (m.final x hf hpar hx)
    rw [hother hq] at hf
    by_cases hx : x = p
    · subst hx
      rw [hself]
      by_contra hc
      rcases m.commits (by simpa using hc) with hold | ⟨-, hno, -⟩
      · rw [h.final q x hf hpar] at hold
        cases hold
      · exact hno q hf hq hpar
    · exact hcommitted x hx _ (h.final q x hf hpar)
  case pending =>
    intro x r hc hpar hz
    have hold : (A x).committed (P x).state = true := by
      by_cases hx : x = p
      · subst hx
        rw [hself] at hc
        rcases m.commits hc with hold | ⟨-, -, hno⟩
        · exact hold
        · exact absurd hz (hno r hpar)
      · rwa [hother hx] at hc
    obtain ⟨q, k, hw, hk⟩ := h.pending x r hold hpar hz
    by_cases hq : q = p
    · subst hq
      rcases m.pending x k hw hk with ⟨k', hw', hk'⟩ | hnot
      · exact ⟨q, k', by rw [hself]; exact hw', hk'⟩
      rw [hold] at hnot
      cases hnot
    · exact ⟨q, k, by rw [hother hq]; exact hw, hk⟩

end Kin

/-! ## An entry changes -/

/-- What has to hold of an entry `pr` that takes the place of entry `q`. -/
structure Edits (P : Slot → Proc) (A : Slot → Loc) (q : Slot) (pr : Proc) : Prop where
  alive : (A q).busy = true → live pr.state = true
  init : q = initproc → live pr.state = true
  parent : ∀ x, pr.parent = some x →
    (P q).parent = some x ∨ (live (P x).state = true ∧ (x = q → live pr.state = true))
  children : ∀ r, (P r).parent = some q → live pr.state = true
  has_parent : q ≠ initproc → live pr.state = true ∨ pr.state = .zombie → pr.parent ≠ none
  unborn : pr.state = .unused → pr.parent = none
  used : ∀ x, pr.state = .used → pr.parent = some x → (A x).making = some q
  adopted : ∀ p, (A p).adopted = some q → pr.parent = some p
  bereft : ∀ p, q.val < (A p).bereft → pr.parent ≠ some p
  scanned : ∀ p, q.val < (A p).scanned → pr.parent = some p → pr.state ≠ .zombie
  child : ∀ p, (A p).child = some q → pr.parent = some p
  found : ∀ p pid, (A p).found = some (q, pid) → pr.pid = pid
  asleep : pr.state = .sleeping → (A q).asleep = true
  chan : ∀ ch, (A q).sleepsOn = some ch → pr.chan = some ch
  target : ∀ ch, (A q).target = some ch → ch = pr.parent.map .proc
  committed : (A q).committed pr.state = true → (A q).committed (P q).state = true
  final : ∀ x, (A q).final = true → pr.parent = some x → (A x).committed (P x).state = false
  pending : pr.state = .zombie → ∀ p, pr.parent = some p →
    (A p).committed (P p).state = true → ∃ r k, (A r).waking = some (p, k) ∧ k ≤ p.val

namespace Kin

variable {P : Slot → Proc} {A : Slot → Loc} {p q r : Slot} {pr : Proc} {next : Loc}

/-- What an update of one entry leaves alone. -/
theorem update_cases {C : Slot → Proc → Prop} (hself : C q pr) (hother : ∀ r, r ≠ q → C r (P r))
    (r : Slot) : C r (update P q pr r) :=
  (forall_update_iff P C).2 ⟨hself, hother⟩ r

section

variable (h : Kin P A)

include h

theorem edit (e : Edits P A q pr) : Kin (update P q pr) A := by
  -- nobody is committed now who was not before
  have hcommitted : ∀ r, (A r).committed (update P q pr r).state = true →
      (A r).committed (P r).state = true :=
    update_cases (C := fun r x => (A r).committed x.state = true →
      (A r).committed (P r).state = true) e.committed fun _ _ hr => hr
  have hfree : ∀ r, (A r).committed (P r).state = false →
      (A r).committed (update P q pr r).state = false := fun r hr =>
    Bool.eq_false_iff.2 fun hc => by rw [hcommitted r hc] at hr; cases hr
  have hlive : ∀ r x, (P r).parent = some x → live (update P q pr x).state = true := fun r =>
    update_cases (C := fun x y => (P r).parent = some x → live y.state = true) (e.children r)
      fun x _ => h.parent_live r x
  constructor
  case shape => exact h.shape
  case alive =>
    exact update_cases (C := fun r x => (A r).busy = true → live x.state = true) e.alive
      fun r _ => h.alive r
  case parent_live =>
    refine update_cases (C := fun r y => ∀ x, y.parent = some x →
      live (update P q pr x).state = true) (fun x hx => ?_) fun r _ => hlive r
    rcases e.parent x hx with hold | ⟨hlx, hself⟩
    · exact hlive q x hold
    exact update_cases (C := fun r y => r = x → live y.state = true) (fun hq => hself hq.symm)
      (fun r _ hr => hr ▸ hlx) x rfl
  case has_parent =>
    exact update_cases (C := fun r y => r ≠ initproc →
      live y.state = true ∨ y.state = .zombie → y.parent ≠ none) e.has_parent
      fun r _ => h.has_parent r
  case init =>
    exact update_cases (C := fun r x => r = initproc → live x.state = true) e.init
      (fun r _ hr => hr ▸ h.init) initproc rfl
  case unborn =>
    exact update_cases (C := fun r x => x.state = .unused → x.parent = none) e.unborn
      fun r _ => h.unborn r
  case used =>
    exact update_cases (C := fun r y => ∀ x, y.state = .used → y.parent = some x →
      (A x).making = some r) e.used fun r _ => h.used r
  case adopted =>
    exact fun p => update_cases (C := fun r x => (A p).adopted = some r → x.parent = some p)
      (e.adopted p) fun r _ => h.adopted p r
  case bereft =>
    exact fun p => update_cases (C := fun r x => r.val < (A p).bereft → x.parent ≠ some p)
      (e.bereft p) fun r _ => h.bereft p r
  case scanned =>
    exact fun p => update_cases (C := fun r x => r.val < (A p).scanned → x.parent = some p →
      x.state ≠ .zombie) (e.scanned p) fun r _ => h.scanned p r
  case child =>
    exact fun p => update_cases (C := fun r x => (A p).child = some r → x.parent = some p)
      (e.child p) fun r _ => h.child p r
  case found =>
    exact fun p => update_cases (C := fun r x => ∀ pid, (A p).found = some (r, pid) →
      x.pid = pid) (e.found p) fun r _ => h.found p r
  case asleep =>
    exact update_cases (C := fun r x => x.state = .sleeping → (A r).asleep = true) e.asleep
      fun r _ => h.asleep r
  case chan =>
    exact update_cases (C := fun r x => ∀ ch, (A r).sleepsOn = some ch → x.chan = some ch)
      e.chan fun r _ => h.chan r
  case target =>
    exact update_cases (C := fun r x => ∀ ch, (A r).target = some ch →
      ch = x.parent.map .proc) e.target fun r _ => h.target r
  case woken => exact fun p x k hw hk => hfree x (h.woken p x k hw hk)
  case final =>
    exact update_cases (C := fun r y => ∀ x, (A r).final = true → y.parent = some x →
      (A x).committed (update P q pr x).state = false)
      (fun x hf hx => hfree x (e.final x hf hx)) fun r _ x hf hx => hfree x (h.final r x hf hx)
  case pending =>
    refine fun p => update_cases (C := fun r y =>
      (A p).committed (update P q pr p).state = true → y.parent = some p → y.state = .zombie →
      ∃ q k, (A q).waking = some (p, k) ∧ k ≤ p.val) (fun hc hp hz => ?_) fun r _ hc hp hz => ?_
    · exact e.pending hz p hp (hcommitted p hc)
    · exact h.pending p r (hcommitted p hc) hp hz

/-- Only the state and fields of no concern change. -/
theorem editState (hpar : pr.parent = (P q).parent) (hpid : pr.pid = (P q).pid)
    (hchan : ∀ ch, (A q).sleepsOn = some ch → pr.chan = some ch)
    (halive : (A q).busy = true → live pr.state = true)
    (hinit : q = initproc → live pr.state = true)
    (hchildren : ∀ r, (P r).parent = some q → live pr.state = true)
    (hhas : q ≠ initproc → live pr.state = true ∨ pr.state = .zombie → (P q).parent ≠ none)
    (hunborn : pr.state = .unused → (P q).parent = none)
    (hused : ∀ x, pr.state = .used → (P q).parent = some x → (A x).making = some q)
    (hscan : pr.state = .zombie → ∀ x, (P q).parent = some x → ¬ q.val < (A x).scanned)
    (hasleep : pr.state = .sleeping → (A q).asleep = true)
    (hcommit : (A q).committed pr.state = true → (A q).committed (P q).state = true)
    (hpending : pr.state = .zombie → ∀ x, (P q).parent = some x →
      (A x).committed (P x).state = true → ∃ r k, (A r).waking = some (x, k) ∧ k ≤ x.val) :
    Kin (update P q pr) A := by
  refine h.edit ⟨halive, hinit, fun x hx => .inl (hpar ▸ hx), hchildren, ?_, ?_, ?_,
    fun p hp => hpar.trans (h.adopted p q hp), fun p hp => hpar ▸ h.bereft p q hp,
    fun p hp hx hz => hscan hz p (hpar ▸ hx) hp, fun p hp => hpar.trans (h.child p q hp),
    fun p pid hp => hpid.trans (h.found p q pid hp), hasleep, hchan,
    fun ch hch => hpar ▸ h.target q ch hch, hcommit, fun x hf hx => h.final q x hf (hpar ▸ hx), ?_⟩
  all_goals rw [hpar]
  · exact hhas
  · exact hunborn
  · exact hused
  · exact hpending

/-- An entry becomes alive, or stays so. -/
theorem setState (hlive : live pr.state = true) (hpar : pr.parent = (P q).parent)
    (hchan : pr.chan = (P q).chan) (hpid : pr.pid = (P q).pid)
    (hhas : q ≠ initproc → (P q).parent ≠ none)
    (hasleep : pr.state = .sleeping → (A q).asleep = true)
    (hcommit : (A q).committed pr.state = true → (A q).committed (P q).state = true) :
    Kin (update P q pr) A := by
  have hst : ∀ {st}, live st = false → pr.state ≠ st := fun hl heq => by
    rw [heq, hl] at hlive
    cases hlive
  exact h.editState hpar hpid (fun ch hch => hchan.trans (h.chan q ch hch)) (fun _ => hlive)
    (fun _ => hlive) (fun _ _ => hlive) (fun hne _ => hhas hne) (fun hu => absurd hu (hst rfl))
    (fun _ hu => absurd hu (hst rfl)) (fun hz => absurd hz (hst rfl)) hasleep hcommit
    (fun hz => absurd hz (hst rfl))

/-- The channel and fields of no concern change. -/
theorem setChan (hstate : pr.state = (P q).state) (hpar : pr.parent = (P q).parent)
    (hpid : pr.pid = (P q).pid)
    (hchan : ∀ ch, (A q).sleepsOn = some ch → pr.chan = some ch) : Kin (update P q pr) A := by
  refine h.editState hpar hpid hchan ?_ ?_ ?_ ?_ ?_ ?_ ?_ ?_ ?_ ?_ <;> rw [hstate]
  · exact h.alive q
  · exact fun hq => hq ▸ h.init
  · exact fun r hr => h.parent_live r q hr
  · exact h.has_parent q
  · exact h.unborn q
  · exact fun x => h.used q x
  · exact fun hz x hx hlt => h.scanned x q hlt hx hz
  · exact h.asleep q
  · exact id
  · exact fun hz x hx hc => h.pending x q hc hx hz

/-- An entry that is not alive says nothing. -/
theorem silent (hold : live (P q).state = false) : (A q).busy = false ∧ (A q).Silent := by
  have hidle : (A q).busy = false := Bool.eq_false_iff.2 fun hb => by
    rw [h.alive q hb] at hold
    cases hold
  exact ⟨hidle, (Loc.idle_of_not_busy hidle).1⟩

/-- An entry that is neither alive nor a zombie before and after. -/
theorem setUnborn (hlive : live pr.state = false) (hz : pr.state ≠ .zombie)
    (hold : live (P q).state = false) (hparent : pr.parent = none ∨ pr.parent = (P q).parent)
    (hunused : pr.state = .unused → pr.parent = none)
    (hused : ∀ x, pr.state = .used → pr.parent = some x → (A x).making = some q)
    (hadopted : ∀ p, (A p).adopted = some q → pr.parent = (P q).parent)
    (hchild : ∀ p, (A p).child ≠ some q) : Kin (update P q pr) A := by
  obtain ⟨hidle, hs⟩ := h.silent hold
  have hpar : ∀ x, pr.parent = some x → (P q).parent = some x := fun x hx => by
    rcases hparent with hp | hp <;> rw [hp] at hx
    · cases hx
    · exact hx
  refine h.edit ?_
  constructor
  case alive => rw [hidle]; exact of_false
  case init => exact fun hq => by rw [hq, h.init] at hold; cases hold
  case parent => exact fun x hx => .inl (hpar x hx)
  case children => exact fun r hr => by rw [h.parent_live r q hr] at hold; cases hold
  case has_parent =>
    rintro - (hl | hl)
    · rw [hlive] at hl
      cases hl
    · exact absurd hl hz
  case unborn => exact hunused
  case used => exact hused
  case adopted => exact fun p hp => (hadopted p hp).trans (h.adopted p q hp)
  case bereft => exact fun p hp hx => h.bereft p q hp (hpar p hx)
  case scanned => exact fun _ _ _ => hz
  case child => exact fun p hp => absurd hp (hchild p)
  case found => exact fun p pid hp => absurd (Loc.child_of_found hp) (hchild p)
  case asleep => exact fun hs => by rw [hs] at hlive; cases hlive
  case chan => rw [hs.sleepsOn]; exact of_none
  case target => rw [hs.target]; exact of_none
  case committed => rw [hs.committed]; exact of_false
  case final => rw [hs.final]; exact of_false₁
  case pending => exact fun hzombie => absurd hzombie hz

/-- A process that has given its children away becomes a zombie. -/
theorem setZombie (hz : pr.state = .zombie) (hpar : pr.parent = (P q).parent)
    (hchan : pr.chan = (P q).chan) (hpid : pr.pid = (P q).pid) (hold : live (P q).state = true)
    (hinit : q ≠ initproc) (hchildren : ∀ r, (P r).parent ≠ some q) (hbusy : (A q).busy = false)
    (hscan : ∀ x, (P q).parent = some x → (A x).scanned = 0)
    (hfinal : ∀ x, (P q).parent = some x → (A x).committed (P x).state = false) :
    Kin (update P q pr) A := by
  refine h.editState hpar hpid (fun ch hch => hchan.trans (h.chan q ch hch)) ?_
    (fun hq => absurd hq hinit) (fun r hr => absurd hr (hchildren r))
    (fun hne _ => h.has_parent q hne (.inl hold)) ?_ ?_ (fun _ x hx => ?_) ?_ ?_
    fun _ x hx hc => ?_
  · rw [hbusy]
    exact of_false
  · rw [hz]
    rintro ⟨⟩
  · rw [hz]
    rintro _ ⟨⟩
  · rw [hscan x hx]
    exact Nat.not_lt_zero _
  · rw [hz]
    rintro ⟨⟩
  · rw [(Loc.idle_of_not_busy hbusy).1.committed]
    exact of_false
  · rw [hfinal x hx] at hc
    cases hc

/-- `fork` sets the parent of its child. -/
theorem setParent (hpr : pr = { P q with parent := some p })
    (hlive : live (P p).state = true) (hused : (P q).state = .used)
    (hmaking : (A p).making = some q) (hbereft : (A p).bereft = 0)
    (hadopted : ∀ x, (A x).adopted = some q → x = p) (hchild : ∀ x, (A x).child ≠ some q) :
    Kin (update P q pr) A := by
  have hs := (h.silent (q := q) (by rw [hused]; rfl)).2
  have hst : pr.state = .used := by rw [hpr]; exact hused
  subst hpr
  refine h.edit ?_
  constructor
  case alive => exact h.alive q
  case init => exact fun hq => hq ▸ h.init
  case parent =>
    rintro x ⟨⟩
    exact .inr ⟨hlive, fun hq => hq ▸ hlive⟩
  case children => exact fun r hr => h.parent_live r q hr
  case has_parent => exact fun _ _ => Option.some_ne_none _
  case unborn => rw [hst]; rintro ⟨⟩
  case used =>
    rintro x - ⟨⟩
    exact hmaking
  case adopted => exact fun x hx => by rw [hadopted x hx]
  case bereft =>
    rintro x hx ⟨⟩
    rw [hbereft] at hx
    cases hx
  case scanned => rw [hst]; exact fun _ _ _ => by decide
  case child => exact fun x hx => absurd hx (hchild x)
  case found => exact fun x pid hx => h.found x q pid hx
  case asleep => exact h.asleep q
  case chan => exact h.chan q
  case target => rw [hs.target]; exact of_none
  case committed => exact id
  case final => rw [hs.final]; exact of_false₁
  case pending => rw [hst]; rintro ⟨⟩

/-- `reparent` gives a child to init and starts to wake init. -/
theorem reparent {status : Int} {i : Slot}
    (hA : A p = .exit (.reparent i) status) (hlive : live (P p).state = true)
    (hpar : (P i).parent = some p) (hpr : pr = { P i with parent := some initproc })
    (hex : ∀ x, x ≠ p → .wait ∉ (A x).locks (some x)) : Kin (update P i pr) (update A p
      (.wakeup (.scan 0) (some (.proc initproc)) (.exit (.reparent (i + 1)) status))) := by
  have hshape := h.shape p
  rw [hA] at hshape
  have hinit : p ≠ initproc := fun heq => hshape (by rw [heq])
  have hawake : (P p).state ≠ .sleeping := fun hs => by
    have ha := h.asleep p hs
    rw [hA] at ha
    cases ha
  -- the process starts to wake init, gives the child away, and counts it
  have h1 : Kin P (update A p (.wakeup (.scan 0) (some (.proc initproc))
      (.exit (.reparent i) status))) := by
    refine h.move ⟨⟨fun _ => ⟨_, _, rfl, .inl ⟨_, rfl⟩⟩, hshape⟩, fun _ => hlive, ?_, of_none,
      fun j hj => h.bereft p j (by rw [hA]; exact hj), of_lt_zero, of_none, of_none₂,
      fun hs => absurd hs hawake, of_none, of_none, ?_, of_false₁, of_false, ?_⟩
    · rw [hA]
      exact of_none
    · rintro x k ⟨⟩
      rintro ⟨⟩
    · rw [hA]
      exact of_none₂
  have hself : update A p (.wakeup (.scan 0) (some (.proc initproc))
    (.exit (.reparent i) status)) p = _ := update_self _ _ _
  have hother : ∀ {x}, x ≠ p → update A p (.wakeup (.scan 0) (some (.proc initproc))
    (.exit (.reparent i) status)) x = A x := fun hx => update_of_ne hx _ _
  generalize hB : update A p (.wakeup (.scan 0) (some (.proc initproc))
    (.exit (.reparent i) status)) = B at *
  -- only `p` can say what takes `wait_lock`
  have hclaims : ∀ x, (B x).scanned = 0 ∧ (B x).child = none ∧ (B x).target = none ∧
      (B x).final = false ∧ (x = p ∨ (B x).bereft = 0) := fun x => by
    by_cases hx : x = p
    · rw [hx, hself]
      exact ⟨rfl, rfl, rfl, rfl, .inl rfl⟩
    rw [hother hx]
    refine ⟨?_, ?_, ?_, ?_, .inr ?_⟩ <;> by_contra hne <;>
      refine hex x hx (Loc.wait_mem_locks ?_) <;> simp_all [Nat.pos_iff_ne_zero]
  have hmaking : (B p).making = none := by rw [hself]; rfl
  have h2 : Kin (update P i pr) B := by
    subst hpr
    refine h1.edit ?_
    constructor
    case alive => exact h1.alive i
    case init => exact fun hi => hi ▸ h.init
    case parent =>
      rintro x ⟨⟩
      exact .inr ⟨h.init, fun hi => hi ▸ h.init⟩
    case children => exact fun r hr => h.parent_live r i hr
    case has_parent => exact fun _ _ => Option.some_ne_none _
    case unborn =>
      intro hu
      rw [h.unborn i hu] at hpar
      cases hpar
    case used =>
      intro x hu
      rw [h1.used i p hu hpar] at hmaking
      cases hmaking
    case adopted =>
      intro x hx
      have hxp := h1.adopted x i hx
      rw [hpar, Option.some.injEq] at hxp
      rw [← hxp, hself] at hx
      cases hx
    case bereft =>
      rintro x hx ⟨⟩
      rcases (hclaims initproc).2.2.2.2 with heq | h0
      · exact hinit heq.symm
      rw [h0] at hx
      cases hx
    case scanned => exact fun x hx => by rw [(hclaims x).1] at hx; cases hx
    case child => exact fun x hx => by rw [(hclaims x).2.1] at hx; cases hx
    case found => exact fun x pid hx => h1.found x i pid hx
    case asleep => exact h1.asleep i
    case chan => exact h1.chan i
    case target => rw [(hclaims i).2.2.1]; exact of_none
    case committed => exact id
    case final => rw [(hclaims i).2.2.2.1]; exact of_false₁
    case pending =>
      rintro - x ⟨⟩ -
      exact ⟨p, 0, by rw [hself]; rfl, Nat.zero_le _⟩
  have hstate : (update P i pr p).state = (P p).state :=
    update_cases (C := fun r x => x.state = (P r).state) (by rw [hpr]) (fun _ _ => rfl) p
  have h3 := h2.move (show Moves _ _ p (.wakeup (.scan 0) (some (.proc initproc))
      (.exit (.reparent (i + 1)) status)) from
    ⟨⟨fun _ => ⟨_, _, rfl, .inl ⟨_, rfl⟩⟩, hshape⟩, fun _ => by rw [hstate]; exact hlive,
      by rw [hmaking]; exact of_none, of_none, fun j hj => ?_, of_lt_zero, of_none, of_none₂,
      fun hs => absurd (hstate ▸ hs) hawake, of_none, of_none, ?_, of_false₁, of_false, ?_⟩)
  · rwa [← hB, update_idem] at h3
  · by_cases hji : j = i
    · rw [hji, update_self, hpr]
      exact fun heq => hinit (Option.some.inj heq).symm
    refine h2.bereft p j ?_
    rw [hself]
    exact Nat.lt_of_le_of_ne (Nat.lt_succ_iff.1 hj) fun heq => hji (Fin.ext heq)
  · rintro x k ⟨⟩
    rintro ⟨⟩
  · rw [hself]
    rintro x k ⟨⟩ -
    exact .inl ⟨0, rfl, Nat.zero_le _⟩

end

end Kin

end Xv6.Smp
