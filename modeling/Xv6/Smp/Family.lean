import Xv6.Smp.Kin

/-!
# No child is lost and no wakeup of a parent

Every step of the system keeps the family invariant, one lemma for each
function, and with it: a zombie is freed only by the `wait` of its parent,
which returns its pid; every process but init has a parent that can still call
`wait`; and no process sleeps in `wait` while it has a zombie child.
-/

namespace Xv6.Smp

open Lib Sched Function Loc Nat Smp.Proc State

variable {n : Nat} {s t : State n} {c : Fin n} {b : Bool} {p q : Slot} {L next : Loc} {l : Lock}

/-- Where the processes stand. -/
def State.places (s : State n) : Slot → Loc := fun p => s.loc (.proc p)

/-- The family invariant of a state. -/
def State.Family (s : State n) : Prop := Kin s.proc s.places

theorem places_eq (hact : s.active c = .proc p) (hL : s.here c = L) : s.places p = L := by
  rwa [places, ← hact]

/-! ## Locations that say nothing -/

namespace Loc

/-- A location at which a process holds neither `wait_lock` nor a `p->lock`. -/
theorem silent_of_locks (hwait : .wait ∉ L.locks (some p))
    (hproc : ∀ q, .proc q ∉ L.locks (some p)) : L.Silent := by
  have hclaims : ¬ (0 < L.scanned ∨ L.child ≠ none ∨ L.target ≠ none ∨ L.waking ≠ none ∨
      L.final = true ∨ 0 < L.bereft) := fun h => hwait (wait_mem_locks h)
  simp only [not_or, not_lt, le_zero, not_not, Bool.not_eq_true] at hclaims
  obtain ⟨hscan, hchild, htarget, hwaking, hfinal, hbereft⟩ := hclaims
  have hsleep : L.sleepsOn = none ∧ ∀ st, L.committed st = false := by
    cases L with
    | sleep at_ chan lk next => cases at_ <;> simp_all [locks, sleepsOn, committed]
    | _ => exact ⟨rfl, fun _ => rfl⟩
  exact ⟨hbereft, hscan, hchild, hsleep.1, htarget, hwaking, hfinal, hsleep.2⟩

theorem silent_of_nil (h : L.locks (some p) = []) : L.Silent :=
  silent_of_locks (p := p) (by rw [h]; decide) (by rw [h]; decide)

end Loc

variable {P : Slot → Proc} {A : Slot → Loc}

/-- A process that runs goes to a location that says nothing. -/
theorem Moves.quiet (hA : A p = L)
    (hrun : (P p).state = .running) (hw : L.waking = none) (hs : next.Silent)
    (hshape : next.Shape (some p))
    (hm : ∀ r, L.making = some r → next.making = some r ∨ (P r).state ≠ .used)
    (had : ∀ np, next.adopted = some np → (P np).parent = some p) : Moves P A p next where
  shape := hshape
  alive _ := by rw [hrun]; rfl
  making := by rw [hA]; exact hm
  adopted := had
  bereft j hj := by rw [hs.bereft] at hj; cases hj
  scanned j hj := by rw [hs.scanned] at hj; cases hj
  child q hq := by rw [hs.child] at hq; cases hq
  found q pid hq := by
    have hc := child_of_found hq
    rw [hs.child] at hc
    cases hc
  asleep h := by rw [hrun] at h; cases h
  chan ch hch := by rw [hs.sleepsOn] at hch; cases hch
  target ch hch := by rw [hs.target] at hch; cases hch
  woken x k hx := by rw [hs.waking] at hx; cases hx
  final x hx := by rw [hs.final] at hx; cases hx
  commits hc := by rw [hs.committed] at hc; cases hc
  pending x k hx := by rw [hA, hw] at hx; cases hx

/-! ## Instructions -/

theorem places_of_loc (hact : s.active c = .proc p)
    (hloc : t.loc = update s.loc (s.active c) next) : t.places = update s.places p next := by
  funext q
  by_cases hq : q = p
  · subst hq
    simp [places, hloc, hact]
  · simp [places, hloc, hact, hq]

namespace State.Family

theorem of_move (hk : s.Family) (hproc : t.proc = s.proc)
    (hplaces : t.places = update s.places p next) (m : Moves s.proc s.places p next) :
    t.Family := by
  rw [Family, hproc, hplaces]
  exact hk.move m

/-- An instruction that touches no entry. -/
theorem of_plain (hk : s.Family) (hact : s.active c = .proc p) {i : Instr}
    (hstep : s.exec c b i = some t) (hi : i.plain = true)
    (m : Moves s.proc s.places p (i.next s c b)) : t.Family :=
  hk.of_move (exec_plain hstep hi).1 (places_of_loc hact (exec_plain hstep hi).2) m

/-- An access that changes the entry first, in the eyes of the family. -/
theorem of_edit (hact : s.active c = .proc p) {f : Proc → Proc × Loc}
    (hstep : s.exec c b (.access q f) = some t) (hedit : Kin (update s.proc q (f (s.proc q)).1)
      (update s.places p (f (s.proc q)).2)) : t.Family := by
  cases hstep
  rwa [Family, places_of_loc hact rfl]

/-- An access that changes no field of concern. -/
theorem of_access (hk : s.Family) (hact : s.active c = .proc p) {f : Proc → Proc × Loc}
    (hstep : s.exec c b (.access q f) = some t) (hf : (f (s.proc q)).1.state = (s.proc q).state ∧
      (f (s.proc q)).1.parent = (s.proc q).parent ∧ (f (s.proc q)).1.chan = (s.proc q).chan ∧
      (f (s.proc q)).1.pid = (s.proc q).pid)
    (m : Moves s.proc s.places p (f (s.proc q)).2) : t.Family := by
  refine .of_edit hact hstep ((hk.move m).setChan hf.1 hf.2.1 hf.2.2.2 fun ch hch => ?_)
  exact hf.2.2.1.trans ((hk.move m).chan q ch hch)

end State.Family

/-! ## Locks -/

namespace Inv

/-- A process that stands at a location with `wait_lock` is executed by the
CPU that holds it. -/
theorem active_of_wait (h : Inv s) {x : Slot} (hmem : .wait ∈ (s.places x).locks (some x)) :
    ∃ c, s.active c = .proc x ∧ .wait ∈ s.locks c := by
  by_cases hactive : ∃ c, s.active c = .proc x
  · obtain ⟨c, hc⟩ := hactive
    refine ⟨c, hc, ?_⟩
    rwa [State.locks, State.here, hc]
  have hpark := h.parked x fun c hc => hactive ⟨c, hc⟩
  rw [places] at hmem
  generalize s.loc (.proc x) = M at *
  cases M with
  | switch at_ => cases at_ <;> simp_all [Loc.locks]
  | sleep at_ | exit at_ => cases at_ <;> simp_all [Loc.parked, Loc.dead, Loc.locks]
  | forkret => simp [Loc.locks] at hmem
  | _ => simp [Loc.parked, Loc.dead] at hpark

/-- It is the only one. -/
theorem wait_exclusive (h : Inv s) (hact : s.active c = .proc p) (hwait : .wait ∈ s.locks c)
    (x : Slot) (hx : x ≠ p) : .wait ∉ (s.places x).locks (some x) := by
  intro hmem
  obtain ⟨c', hc', hlocks⟩ := h.active_of_wait hmem
  obtain rfl := h.exclusive hlocks hwait
  rw [hact] at hc'
  cases hc'
  exact hx rfl

end Inv

/-- CPU `c` executes process `p`, which stands at `L`. -/
structure At (s : State n) (c : Fin n) (p : Slot) (L : Loc) : Prop where
  inv : Inv s
  kin : s.Family
  act : s.active c = .proc p
  here : s.here c = L

namespace At

section

variable (a : At s c p L)

include a

theorem place : s.places p = L := places_eq a.act a.here

theorem shape : L.Shape (some p) := a.place ▸ a.kin.shape p

theorem wf : L.Wf (some p) := a.inv.wf_here a.act a.here

theorem running (h : L.leaving = false) : (s.proc p).state = .running :=
  a.inv.running_of_current (a.inv.active c p a.act).1 (a.here ▸ h)

theorem locks : s.locks c = L.locks (some p) := Inv.locks_here a.act a.here

theorem exclusive (h : .wait ∈ L.locks (some p)) (x : Slot) (hx : x ≠ p) :
    .wait ∉ (s.places x).locks (some x) :=
  a.inv.wait_exclusive a.act (a.locks ▸ h) x hx

/-- Only the holder of `wait_lock` says what takes `wait_lock`. -/
theorem alone (h : .wait ∈ L.locks (some p)) (x : Slot) (hx : x ≠ p) :
    (s.places x).scanned = 0 ∧ (s.places x).child = none ∧ (s.places x).waking = none ∧
      (s.places x).final = false := by
  have hno := a.exclusive h x hx
  refine ⟨?_, ?_, ?_, ?_⟩ <;> by_contra hne <;> refine hno (wait_mem_locks ?_) <;>
    simp_all [pos_iff_ne_zero]

theorem used (h : L.making = some q) : (s.proc q).state = .used :=
  a.inv.making (s.active c) q (by rw [← State.here, a.here]; exact h)

theorem makes (h : next.making = L.making) {C : Slot → Prop} (r : Slot)
    (hr : (s.places p).making = some r) : next.making = some r ∨ C r :=
  .inl (h.trans (a.place ▸ hr))

theorem adopts (h : next.adopted = L.adopted) (np : Slot)
    (hnp : next.adopted = some np) : (s.proc np).parent = some p :=
  a.kin.adopted p np (by rw [a.place, ← h]; exact hnp)

theorem still (h : L.waking = none) {C : Slot → Nat → Prop} (x : Slot) (k : Nat)
    (hw : (s.places p).waking = some (x, k)) : C x k := by
  rw [a.place, h] at hw
  cases hw

/-- A move that keeps a child in the making. -/
theorem quiet (hleave : L.leaving = false) (hw : L.waking = none)
    (hs : next.Silent) (hshape : next.Shape (some p)) (hm : next.making = L.making)
    (had : next.adopted = L.adopted) : Moves s.proc s.places p next :=
  .quiet a.place (a.running hleave) hw hs hshape (fun r hr => .inl (hm.trans hr))
    fun np hnp => a.kin.adopted p np (by rw [a.place, ← had]; exact hnp)

/-- A move that has nothing to do with `fork`. -/
theorem plain (hleave : L.leaving = false) (hw : L.waking = none)
    (hs : next.Silent) (hshape : next.Shape (some p)) (hm : L.making = none)
    (had : next.adopted = none) : Moves s.proc s.places p next :=
  .quiet a.place (a.running hleave) hw hs hshape (hm ▸ of_none) (had ▸ of_none)

end

end At

/-! ## The functions -/

section

theorem Loc.silent_switch (at_ : SwitchAt) (st : RunState) (next : Loc) :
    (switch at_ st next).Silent :=
  ⟨rfl, rfl, rfl, rfl, rfl, rfl, rfl, fun _ => rfl⟩

theorem Loc.silent_fork (at_ : ForkAt) : (fork at_).Silent :=
  ⟨rfl, rfl, rfl, rfl, rfl, rfl, rfl, fun _ => rfl⟩

theorem Loc.silent_kill (at_ : KillAt) (pid : Int) : (kill at_ pid).Silent :=
  ⟨rfl, rfl, rfl, rfl, rfl, rfl, rfl, fun _ => rfl⟩

theorem Loc.silent_user (a0 : Int) : (user a0).Silent :=
  ⟨rfl, rfl, rfl, rfl, rfl, rfl, rfl, fun _ => rfl⟩

/-- `yield` and `sys_wait_until_next_period`. -/
theorem At.switch {at_ : SwitchAt} {st : RunState} (a : At s c p (.switch at_ st next))
    (hstep : s.exec c b (switch st next p at_) = some t) : t.Family := by
  have hshape : ∀ at_, (Loc.switch at_ st next).Shape (some p) := fun _ => a.shape
  obtain ⟨-, hst, hnext, -⟩ := a.wf
  have hmoves : ∀ at_', at_ ≠ .sched →
      Moves s.proc s.places p (.switch at_' st next) := fun at_' hne =>
    a.quiet (by cases at_ <;> simp_all [leaving]) rfl (silent_switch _ _ _) (hshape at_')
      rfl rfl
  cases at_ with
  | lock => exact a.kin.of_plain a.act hstep rfl (hmoves .mark (by decide))
  | mark =>
    refine .of_edit a.act hstep
      ((a.kin.move (hmoves .sched (by decide))).setState ?_ rfl rfl rfl ?_ ?_ ?_)
    · rcases hst with rfl | rfl <;> rfl
    · intro hne
      exact a.kin.has_parent p hne (.inl (by rw [a.running rfl]; rfl))
    · rintro rfl
      rw [update_self]
      rfl
    · rw [update_self]
      exact of_false
  | sched =>
    refine a.kin.of_plain a.act hstep rfl ?_
    have hlive := a.kin.alive p (by rw [a.place]; rfl)
    refine ⟨hshape .unlock, fun _ => hlive, a.makes rfl, a.adopts rfl, of_lt_zero, of_lt_zero,
      of_none, of_none₂, fun hs => ?_, of_none, of_none, of_none₂, of_false₁, of_false, a.still rfl⟩
    · have hasleep := a.kin.asleep p hs
      rw [a.place] at hasleep
      show (Loc.switch .unlock st next).asleep = true
      cases st <;> simp_all [asleep]
  | unlock =>
    exact a.kin.of_plain a.act hstep rfl
      (a.quiet rfl rfl (silent_of_nil hnext) a.shape.2 rfl rfl)

/-- `sleep`. -/
theorem At.sleep {at_ : SleepAt} {chan : Chan} {lk : Lock} (a : At s c p (.sleep at_ chan lk next))
    (hstep : s.exec c b (sleep chan lk next p at_) = some t) : t.Family := by
  have hshape : ∀ at_, (Loc.sleep at_ chan lk next).Shape (some p) := fun _ => a.shape
  obtain ⟨hwait, hother, hnshape⟩ := a.shape
  obtain ⟨-, hnext, hlk, -⟩ := a.wf
  -- `wait` goes on with the start of its scan, which says nothing
  have hsilent : next.Silent := by
    by_cases hl : lk = .wait
    · obtain ⟨-, addr, -, -, rfl⟩ := hwait hl
      exact ⟨rfl, rfl, rfl, rfl, rfl, rfl, rfl, fun _ => rfl⟩
    refine silent_of_locks (p := p) ?_ ?_ <;> rw [hnext]
    · simpa using Ne.symm hl
    · simpa using fun q => (hlk q).symm
  have hawake : ∀ at_, (at_ = .unlock ∨ at_ = .relock) → (Loc.sleep at_ chan lk next).Silent := by
    rintro at_ (rfl | rfl) <;>
      exact ⟨rfl, by cases lk <;> rfl, rfl, rfl, rfl, rfl, rfl, fun _ => by cases lk <;> rfl⟩
  -- the points at which the process still holds `wait_lock`
  have hhold : ∀ at_', (at_' = .enter ∨ at_' = .lock ∨ at_' = .release) →
      (at_ = .enter ∨ at_ = .lock) → Moves s.proc s.places p (.sleep at_' chan lk next) := by
    intro at_' h' hat
    have hleave : (Loc.sleep at_ chan lk next).leaving = false := by
      rcases hat with rfl | rfl <;> rfl
    have hscan : (Loc.sleep at_' chan lk next).scanned = (Loc.sleep at_ chan lk next).scanned := by
      rcases hat with rfl | rfl <;> rcases h' with rfl | rfl | rfl <;> cases lk <;> rfl
    refine ⟨hshape at_', fun _ => by rw [a.running hleave]; rfl, a.makes rfl, a.adopts rfl,
      of_lt_zero, fun j hj => ?_, of_none, of_none₂, fun hs => ?_, ?_, of_none, of_none₂,
      of_false₁, ?_, a.still rfl⟩
    · refine a.kin.scanned p j ?_
      rwa [a.place, ← hscan]
    · rw [a.running hleave] at hs
      cases hs
    · rcases h' with rfl | rfl | rfl <;> exact of_none
    · rcases h' with rfl | rfl | rfl <;> exact of_false
  cases at_ with
  | enter =>
    simp only [Smp.sleep, State.exec, Option.some.injEq] at hstep
    subst hstep
    refine a.kin.of_move rfl (places_of_loc a.act rfl) ?_
    split
    · exact a.quiet rfl rfl hsilent hnshape rfl rfl
    · exact hhold .lock (.inr (.inl rfl)) (.inl rfl)
  | lock => exact a.kin.of_plain a.act hstep rfl (hhold .release (.inr (.inr rfl)) (.inr rfl))
  | release =>
    refine a.kin.of_plain a.act hstep rfl ?_
    have hrun := a.running rfl
    refine ⟨hshape .mark, fun _ => by rw [hrun]; rfl, a.makes rfl, a.adopts rfl, of_lt_zero,
      of_lt_zero, of_none, of_none₂, fun hs => (by rw [hrun] at hs; cases hs), of_none, of_none,
      of_none₂, of_false₁, fun hc => ?_, a.still rfl⟩
    -- `wait_lock` is held up to here, and all children have been looked at
    have hl : lk = .wait := by
      cases lk with
      | wait => rfl
      | _ => cases hc
    subst hl
    have halone := a.alone (by simp [Loc.locks])
    refine .inr ⟨fun q k hw hq => ?_, fun q hf hq => ?_, fun r hr hz => ?_⟩
    · rw [(halone q hq).2.2.1] at hw
      cases hw
    · rw [(halone q hq).2.2.2] at hf
      cases hf
    · exact a.kin.scanned p r (by rw [a.place]; exact r.isLt) hr hz
  | mark =>
    have hrun := a.running rfl
    -- the process sets its channel, goes on, and sets its state
    let pr : Proc := { s.proc p with chan := some chan }
    have h1 : Kin (update s.proc p pr) s.places :=
      a.kin.setChan rfl rfl rfl (by rw [a.place]; exact of_none)
    have hself : update s.proc p pr p = pr := update_self _ _ _
    have m : Moves (update s.proc p pr) s.places p (.sleep .sched chan lk next) := by
      refine ⟨hshape .sched, fun _ => ?_, a.makes rfl,
        fun np hnp => h1.adopted p np (by rw [a.place]; exact hnp), of_lt_zero, of_lt_zero,
        of_none, of_none₂, fun hs => ?_, fun ch hch => ?_, of_none, of_none₂, of_false₁,
        fun hc => .inl ?_, a.still rfl⟩
      · rw [hself, show pr.state = .running from hrun]
        rfl
      · rw [hself, show pr.state = .running from hrun] at hs
        cases hs
      · rwa [hself]
      · rw [a.place]
        cases lk with
        | wait => rfl
        | _ => cases hc
    have h3 : Kin (update (update s.proc p pr) p { pr with state := .sleeping })
        (update s.places p (.sleep .sched chan lk next)) := by
      refine (h1.move m).setState rfl (by rw [hself]) (by rw [hself]) (by rw [hself])
        (fun hne => ?_) (fun _ => by rw [update_self]; rfl) (fun hc => ?_)
      · rw [hself]
        exact a.kin.has_parent p hne (.inl (by rw [hrun]; rfl))
      simp only [update_self] at hc ⊢
      cases lk with
      | wait => rfl
      | _ => cases hc
    rw [update_idem] at h3
    exact .of_edit a.act hstep h3
  | sched =>
    refine a.kin.of_plain a.act hstep rfl ?_
    refine ⟨hshape .tidy, fun _ => a.kin.alive p (by rw [a.place]; rfl), a.makes rfl,
      a.adopts rfl, of_lt_zero, of_lt_zero, of_none, of_none₂, fun _ => rfl,
      fun ch hch => a.kin.chan p ch (by rw [a.place]; exact hch), of_none, of_none₂,
      of_false₁, fun hc => .inl ?_, a.still rfl⟩
    rw [a.place]
    cases lk with
    | wait => rfl
    | _ => cases hc
  | tidy =>
    have m : Moves s.proc s.places p (.sleep .unlock chan lk next) :=
      a.quiet rfl rfl (hawake .unlock (.inl rfl)) (hshape .unlock) rfl rfl
    exact .of_edit a.act hstep
      ((a.kin.move m).setChan rfl rfl rfl (by rw [update_self]; exact of_none))
  | unlock =>
    exact a.kin.of_plain a.act hstep rfl
      (a.quiet rfl rfl (hawake .relock (.inr rfl)) (hshape .relock) rfl rfl)
  | relock => exact a.kin.of_plain a.act hstep rfl (a.quiet rfl rfl hsilent hnshape rfl rfl)

/-- Code that sleeps with a spinlock of its own. -/
theorem At.block {slept : Bool} {chan : Chan} {addr : Nat}
    (a : At s c p (.block slept chan addr next))
    (hstep : s.exec c b (instr c (some p) (.block slept chan addr next)) = some t) : t.Family := by
  obtain ⟨-, hnext, -⟩ := a.wf
  cases slept with
  | false =>
    refine a.kin.of_plain a.act hstep rfl (a.quiet rfl rfl ?_ ?_ rfl rfl)
    · exact ⟨rfl, rfl, rfl, rfl, rfl, rfl, rfl, fun _ => rfl⟩
    · exact ⟨by simp, fun _ => a.shape.1, a.shape⟩
  | true =>
    exact a.kin.of_plain a.act hstep rfl
      (a.quiet rfl rfl (silent_of_nil hnext) a.shape.2 rfl rfl)

/-! ### Waking others -/

/-- An entry that is woken, and fields of no concern. -/
theorem Kin.wake {pr : Proc} (h : Kin P A)
    (hstate : pr.state = (P q).state ∨ (P q).state = .sleeping ∧ pr.state = .runnable)
    (hpar : pr.parent = (P q).parent) (hchan : pr.chan = (P q).chan)
    (hpid : pr.pid = (P q).pid) : Kin (update P q pr) A := by
  rcases hstate with hst | ⟨hold, hst⟩
  · exact h.setChan hst hpar hpid fun ch hch => hchan.trans (h.chan q ch hch)
  refine h.setState (by rw [hst]; rfl) hpar hchan hpid
    (fun hne => h.has_parent q hne (.inl (by rw [hold]; rfl))) (by rw [hst]; rintro ⟨⟩) ?_
  rw [hst, hold]
  intro hc
  generalize A q = L at hc ⊢
  cases L with
  | sleep at_ _ lk => cases at_ <;> cases lk <;> first | rfl | cases hc
  | _ => cases hc

theorem Proc.wake_state (pr : Proc) : pr.wake.state = pr.state ∨
    pr.state = .sleeping ∧ pr.wake.state = .runnable := by
  rw [wake]
  split
  · exact .inr ⟨‹_›, rfl⟩
  · exact .inl rfl

theorem Proc.wake_rest (pr : Proc) :
    pr.wake.parent = pr.parent ∧ pr.wake.chan = pr.chan ∧ pr.wake.pid = pr.pid := by
  rw [wake]
  split <;> exact ⟨rfl, rfl, rfl⟩

theorem Proc.wakeOn_state (pr : Proc) (chan : Option Chan) : (pr.wakeOn chan).state = pr.state ∨
      pr.state = .sleeping ∧ (pr.wakeOn chan).state = .runnable := by
  rw [wakeOn]
  split
  · exact .inr ⟨(‹_› : _ ∧ _).1, rfl⟩
  · exact .inl rfl

theorem Proc.wakeOn_rest (pr : Proc) (chan : Option Chan) :
    (pr.wakeOn chan).parent = pr.parent ∧ (pr.wakeOn chan).chan = pr.chan ∧
      (pr.wakeOn chan).pid = pr.pid := by
  rw [wakeOn]
  split <;> exact ⟨rfl, rfl, rfl⟩

/-- How many entries a `wakeup` has gone through. -/
def WakeupAt.done : WakeupAt → Nat
  | .scan i => i
  | .test q => q
  | .unlock q => q + 1

variable {chan : Option Chan} {at_ : WakeupAt}

theorem Loc.waking_wakeup {x : Slot} {k : Nat}
    (h : (wakeup at_ chan next).waking = some (x, k)) (at_' : WakeupAt) :
    chan = some (.proc x) ∧ k = at_.done ∧
      (wakeup at_' chan next).waking = some (x, at_'.done) := by
  cases next with
  | exit e =>
    cases chan with
    | none => cases e <;> cases h
    | some ch =>
      cases ch with
      | other => cases e <;> cases h
      | proc y => cases e <;> cases at_ <;> cases h <;> cases at_' <;> exact ⟨rfl, rfl, rfl⟩
  | _ => simp [waking] at h

/-- A `wakeup` goes on, past entries that are awake. -/
theorem Kin.wakeup_moves (h : Kin P A) (hA : A p = .wakeup at_ chan next)
    (hrun : (P p).state = .running) (at_' : WakeupAt)
    (hw : ∀ x, at_.done ≤ x.val → x.val < at_'.done → x ≠ p → chan = some (.proc x) →
      (A x).committed (P x).state = false) : Moves P A p (.wakeup at_' chan next) := by
  have hwoken : ∀ x k, (Loc.wakeup at_' chan next).waking = some (x, k) → x.val < k → x ≠ p →
      (A x).committed (P x).state = false := fun x k hx hk hne => by
    obtain ⟨hchan, rfl, hold⟩ := Loc.waking_wakeup hx at_
    by_cases hlt : x.val < at_.done
    · exact h.woken p x _ (by rw [hA]; exact hold) hlt
    · exact hw x (not_lt.1 hlt) hk hne hchan
  have hshape := h.shape p
  rw [hA] at hshape
  have hbereft : (Loc.wakeup at_' chan next).bereft = (A p).bereft := by
    rw [hA]
    cases next with
    | exit e => cases e <;> rfl
    | _ => rfl
  have htarget : (Loc.wakeup at_' chan next).target = (A p).target := by
    rw [hA]
    cases next with
    | exit e => cases e <;> rfl
    | _ => rfl
  refine ⟨hshape, fun _ => by rw [hrun]; rfl, fun r hr => .inl (by rw [hA] at hr; exact hr),
    fun np hnp => h.adopted p np (by rw [hA]; exact hnp),
    fun j hj => h.bereft p j (by rwa [← hbereft]), of_lt_zero, of_none, of_none₂,
    fun hs => (by rw [hrun] at hs; cases hs), of_none,
    fun ch hch => h.target p ch (by rwa [← htarget]), hwoken, of_false₁, of_false,
    fun x k hx hk => ?_⟩
  rw [hA] at hx
  obtain ⟨-, rfl, hnew⟩ := waking_wakeup hx at_'
  by_cases hlt : x.val < at_'.done
  · right
    by_cases hne : x = p
    · rw [hne, hA]
      rfl
    · exact hwoken x _ hnew hlt hne
  · exact .inl ⟨_, hnew, not_lt.1 hlt⟩

/-- A process that has gone to sleep in `wait`, and whose lock somebody else
holds, is asleep. -/
theorem Inv.tidy_of_committed (h : Inv s) {st : RunState} (hlock : .proc q ∈ s.locks c)
    (hact : s.active c ≠ .proc q) (hc : (s.places q).committed st = true) :
    st = .sleeping ∧ ∃ chan next, s.places q = .sleep .tidy chan .wait next := by
  -- at the other places the process itself holds its lock
  have hno : .proc q ∉ (s.places q).locks (some q) ∨ (s.places q).parked = true := by
    by_cases hactive : ∃ c', s.active c' = .proc q
    · obtain ⟨c', hc'⟩ := hactive
      refine .inl fun hmem => hact ?_
      have hlocks : .proc q ∈ s.locks c' := by rwa [State.locks, State.here, hc']
      rwa [h.exclusive hlock hlocks]
    refine .inr ((h.parked q fun c' hc' => hactive ⟨c', hc'⟩).resolve_right fun hd => ?_)
    have hdead := hd.1
    rw [State.places] at hc
    generalize s.loc (.proc q) = L at hc hdead
    cases L with
    | sleep => cases hdead
    | _ => cases hc
  generalize s.places q = L at hc hno ⊢
  cases L with
  | sleep at_ chan lk next =>
    cases at_ <;> cases lk <;> simp_all [Loc.committed, Loc.locks, Loc.parked]
  | _ => cases hc

/-- `wakeup`, by a process. -/
theorem At.wakeup (a : At s c p (.wakeup at_ chan next))
    (hstep : s.exec c b (wakeup (some p) chan next at_) = some t) : t.Family := by
  have hrun := a.running rfl
  have hmoves := a.kin.wakeup_moves a.place hrun
  cases at_ with
  | scan i =>
    simp only [Smp.wakeup, forSlots] at hstep
    by_cases hi : i < NPROC
    · rw [dif_pos hi] at hstep
      by_cases hme : some (⟨i, hi⟩ : Slot) = some p
      · rw [if_pos hme] at hstep
        refine a.kin.of_plain a.act hstep rfl (hmoves _ fun x hle hlt hne => ?_)
        have hxi : x.val = i := le_antisymm (le_of_lt_succ hlt) hle
        exact absurd (Fin.ext hxi) (Option.some.inj hme ▸ hne)
      · rw [if_neg hme] at hstep
        exact a.kin.of_plain a.act hstep rfl
          (hmoves _ fun x hle hlt => absurd hlt (not_lt.2 hle))
    rw [dif_neg hi] at hstep
    refine a.kin.of_plain a.act hstep rfl ?_
    obtain ⟨hexit, hshape⟩ := a.shape
    have hlt : ∀ x : Slot, x.val < i := fun x => lt_of_lt_of_le x.isLt (not_lt.1 hi)
    have hpending : ∀ x k, (s.places p).waking = some (x, k) → ¬ k ≤ x.val := fun x k hx => by
      rw [a.place] at hx
      obtain ⟨-, rfl, -⟩ := waking_wakeup hx (.scan i)
      exact not_le.2 (hlt x)
    by_cases hwait : .wait ∈ next.locks (some p)
    · obtain ⟨e, status, rfl, hat⟩ := hexit hwait
      have hbereft : (Loc.exit e status).bereft = (s.places p).bereft := by
        rw [a.place]
        rcases hat with ⟨j, rfl⟩ | rfl <;> rfl
      refine ⟨hshape, fun _ => by rw [hrun]; rfl, fun r hr => (by rw [a.place] at hr; cases hr),
        of_none, fun j hj => a.kin.bereft p j (by rwa [← hbereft]), of_lt_zero, of_none, of_none₂,
        fun hs => (by rw [hrun] at hs; cases hs), of_none, of_none, of_none₂,
        fun x hf hpar _ => ?_, of_false, fun x k hx hk => absurd hk (hpending x k hx)⟩
      -- the wakeup was for the parent, and has gone through all entries
      rcases hat with ⟨j, rfl⟩ | rfl
      · cases hf
      have hchan := a.kin.target p chan (by rw [a.place]; rfl)
      rw [hpar] at hchan
      refine a.kin.woken p x i ?_ (hlt x)
      rw [a.place, hchan]
      rfl
    · have hw : (Loc.wakeup (.scan i) chan next).waking = none := by
        by_contra hne
        have hmem : .wait ∈ (Loc.wakeup (.scan i) chan next).locks (some p) :=
          wait_mem_locks (.inr (.inr (.inr (.inl hne))))
        exact hwait hmem
      exact a.quiet rfl hw (silent_of_locks hwait a.wf.1) hshape rfl rfl
  | test q =>
    have hpq : (s.proc q).wakeOn chan = s.proc q ∨ q ≠ p := by
      by_cases hq : q = p
      · left
        rw [hq, Proc.wakeOn, if_neg]
        rw [hrun]
        exact fun hc => absurd hc.1 (by decide)
      · exact .inr hq
    have hself : update s.proc q ((s.proc q).wakeOn chan) p = s.proc p := by
      rcases hpq with heq | hne
      · rw [heq, update_eq_self]
      · exact update_of_ne hne.symm _ _
    have hkin : Kin (update s.proc q ((s.proc q).wakeOn chan)) s.places :=
      a.kin.wake (wakeOn_state _ _) (wakeOn_rest _ _).1 (wakeOn_rest _ _).2.1
        (wakeOn_rest _ _).2.2
    refine .of_edit a.act hstep (hkin.move
      (hkin.wakeup_moves a.place (by rw [hself]; exact hrun) (.unlock q) ?_))
    intro x hle hlt hne hchan
    obtain rfl : x = q := Fin.ext (le_antisymm (le_of_lt_succ hlt) hle)
    rw [update_self]
    by_contra hc
    have hlock : .proc x ∈ s.locks c := by
      rw [a.locks]
      simp [Loc.locks]
    obtain ⟨hst, ch, next', htidy⟩ := a.inv.tidy_of_committed hlock
      (by rw [a.act]; simpa using hne.symm) (by simpa using hc)
    -- it sleeps on its own entry, which is the one that is woken
    have hch := a.kin.chan x ch (by rw [htidy]; rfl)
    have hshape := a.kin.shape x
    rw [htidy] at hshape
    obtain ⟨y, addr, hy, rfl, -⟩ := hshape.1 rfl
    cases hy
    rw [Proc.wakeOn] at hst
    split at hst
    · cases hst
    rename_i hno
    exact hno ⟨hst, by rw [hch, hchan]⟩
  | unlock q =>
    exact a.kin.of_plain a.act hstep rfl (hmoves _ fun x hle hlt => absurd hlt (not_lt.2 hle))

/-- `period_callback`, by a process. -/
theorem At.callback {at_ : LookAt} (a : At s c p (.callback at_ q next))
    (hstep : s.exec c b (periodCallback q next at_) = some t) : t.Family := by
  have hsilent : ∀ at_, (Loc.callback at_ q next).Silent := fun _ =>
    ⟨rfl, rfl, rfl, rfl, rfl, rfl, rfl, fun _ => rfl⟩
  have hmoves : ∀ at_', Moves s.proc s.places p (.callback at_' q next) := fun at_' =>
    a.quiet rfl rfl (hsilent at_') a.shape rfl rfl
  cases at_ with
  | lock => exact a.kin.of_plain a.act hstep rfl (hmoves .look)
  | look =>
    exact .of_edit a.act hstep ((a.kin.move (hmoves .unlock)).wake (wake_state _)
      (wake_rest _).1 (wake_rest _).2.1 (wake_rest _).2.2)
  | unlock =>
    exact a.kin.of_plain a.act hstep rfl
      (a.quiet rfl rfl (silent_of_nil a.wf.1) a.shape rfl rfl)

/-! ### Calls that have nothing to do with the family -/

/-- `sys_set_cpu_affinity`. -/
theorem At.setCpuAffinity {at_ : LookAt} {mask : Int32} (a : At s c p (.setCpuAffinity at_ mask))
    (hstep : s.exec c b (sysSetCpuAffinity mask p at_) = some t) : t.Family := by
  have hmoves : ∀ at_', Moves s.proc s.places p (.setCpuAffinity at_' mask) := fun _ =>
    a.plain rfl rfl ⟨rfl, rfl, rfl, rfl, rfl, rfl, rfl, fun _ => rfl⟩ trivial rfl rfl
  cases at_ with
  | lock => exact a.kin.of_plain a.act hstep rfl (hmoves .look)
  | look => exact a.kin.of_access a.act hstep ⟨rfl, rfl, rfl, rfl⟩ (hmoves .unlock)
  | unlock => exact a.kin.of_plain a.act hstep rfl (a.plain rfl rfl (silent_user 0) trivial rfl rfl)

/-- `sys_wait_until_next_period`. -/
theorem At.waitPeriod (a : At s c p .waitPeriod)
    (hstep : s.exec c b (sysWaitUntilNextPeriod p) = some t) : t.Family := by
  refine a.kin.of_access a.act hstep ⟨rfl, rfl, rfl, rfl⟩ ?_
  by_cases htimer : (s.proc p).timer = none
  · rw [if_pos htimer]
    exact a.plain rfl rfl (silent_user _) trivial rfl rfl
  · rw [if_neg htimer]
    exact a.plain rfl rfl (silent_switch _ _ _) ⟨fun _ => rfl, trivial⟩ rfl rfl

/-- `sys_setperiod`. -/
theorem At.setperiod {at_ : PeriodAt} {period : Int} (a : At s c p (.setperiod at_ period))
    (hstep : s.exec c b (sysSetperiod period p at_) = some t) : t.Family := by
  have hmoves : ∀ at_', Moves s.proc s.places p (.setperiod at_' period) := fun _ =>
    a.plain rfl rfl ⟨rfl, rfl, rfl, rfl, rfl, rfl, rfl, fun _ => rfl⟩ trivial rfl rfl
  have huser : ∀ a0, Moves s.proc s.places p (.user a0) := fun a0 =>
    a.plain rfl rfl (silent_user a0) trivial rfl rfl
  cases at_ with
  | enter =>
    refine a.kin.of_access a.act hstep ⟨rfl, rfl, rfl, rfl⟩ ?_
    by_cases hperiod : period < 1
    · rw [if_pos hperiod]
      exact huser _
    rw [if_neg hperiod]
    split
    · exact hmoves .kalloc
    · exact hmoves .forward
  | kalloc =>
    refine a.kin.of_plain a.act hstep rfl ?_
    cases b
    · exact hmoves .forward
    · exact huser _
  | forward => exact a.kin.of_access a.act hstep ⟨rfl, rfl, rfl, rfl⟩ (huser 0)

/-- `kill`. -/
theorem At.kill {at_ : KillAt} {pid : Int} (a : At s c p (.kill at_ pid))
    (hstep : s.exec c b (kill pid at_) = some t) : t.Family := by
  have hmoves : ∀ at_', Moves s.proc s.places p (.kill at_' pid) := fun _ =>
    a.plain rfl rfl (silent_kill _ _) trivial rfl rfl
  have huser : ∀ a0, Moves s.proc s.places p (.user a0) := fun a0 =>
    a.plain rfl rfl (silent_user a0) trivial rfl rfl
  cases at_ with
  | scan i =>
    simp only [Smp.kill, forSlots] at hstep
    by_cases hi : i < NPROC
    · rw [dif_pos hi] at hstep
      exact a.kin.of_plain a.act hstep rfl (hmoves _)
    · rw [dif_neg hi] at hstep
      exact a.kin.of_plain a.act hstep rfl (huser _)
  | test q =>
    by_cases hpid : (((s.proc q).pid : Nat) : Int) = pid
    · refine .of_edit a.act hstep ?_
      rw [if_pos hpid]
      exact (a.kin.move (hmoves (.hit q))).wake (wake_state (s.proc q))
        (wake_rest (s.proc q)).1 (wake_rest (s.proc q)).2.1
        (wake_rest (s.proc q)).2.2
    · refine a.kin.of_access a.act hstep ?_ ?_ <;> rw [if_neg hpid]
      · exact ⟨rfl, rfl, rfl, rfl⟩
      · exact hmoves (.miss q)
  | hit q => exact a.kin.of_plain a.act hstep rfl (huser 0)
  | miss q => exact a.kin.of_plain a.act hstep rfl (hmoves _)

end

end Xv6.Smp
