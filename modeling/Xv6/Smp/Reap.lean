import Xv6.Smp.Family

/-!
# `fork`, `exit` and `wait`

The three functions that change parents, children and zombies keep the family
invariant, and so does every step of the system.
-/

namespace Xv6.Smp

open Lib Sched Function Loc Nat Option Smp.Proc State

variable {n : Nat} {s t : State n} {c : Fin n} {b : Bool} {p q : Slot} {L next : Loc} {l : Lock}

/-! ## Threads that do not run -/

namespace Loc

theorem making_of_adopted (h : L.adopted = some q) : L.making = some q := by
  induction L with
  | fork at_ => cases at_ <;> simp_all [adopted, making]
  | switch _ _ _ ih | block _ _ _ _ ih | sleep _ _ _ _ ih | wakeup _ _ _ ih
  | callback _ _ _ ih => exact ih h
  | _ => simp [adopted] at h

theorem not_making_of_child (h : L.child = some q) : L.making = none := by
  cases L with
  | wait => rfl
  | _ => cases h

end Loc

/-- A process that is not busy and not asleep goes to another such place. -/
theorem Moves.idle {P : Slot → Proc} {A : Slot → Loc} (hA : (A p).busy = false)
    (hstate : (P p).state ≠ .sleeping) (hbusy : next.busy = false)
    (hshape : next.Shape (some p)) : Moves P A p next := by
  obtain ⟨hs, -, had⟩ := idle_of_not_busy hbusy
  obtain ⟨hold, hmake, -⟩ := idle_of_not_busy hA
  constructor
  case shape => exact hshape
  case alive => rw [hbusy]; exact of_false
  case making => rw [hmake]; exact of_none
  case adopted => rw [had]; exact of_none
  case bereft => rw [hs.bereft]; exact of_lt_zero
  case scanned => rw [hs.scanned]; exact of_lt_zero
  case child => rw [hs.child]; exact of_none
  case found =>
    intro q pid hq
    have hc := child_of_found hq
    rw [hs.child] at hc
    cases hc
  case asleep => exact fun h => absurd h hstate
  case chan => rw [hs.sleepsOn]; exact of_none
  case target => rw [hs.target]; exact of_none
  case woken => rw [hs.waking]; exact of_none₂
  case final => rw [hs.final]; exact of_false₁
  case commits => rw [hs.committed]; exact of_false
  case pending => rw [hold.waking]; exact of_none₂

/-! ## `fork` -/

section Fork

variable {np : Slot} {pid : Nat}

/-- An entry whose parent is making it has no one else who speaks of it. -/
theorem At.no_child (a : At s c p L) (hmake : L.making = some np) (x : Slot) :
    (s.places x).child ≠ some np := by
  intro hchild
  have hmaking := a.kin.used np x (a.used hmake) (a.kin.child x np hchild)
  rw [not_making_of_child hchild] at hmaking
  cases hmaking

theorem At.adopter (a : At s c p L) (hmake : L.making = some np) (x : Slot)
    (hx : (s.places x).adopted = some np) : x = p := by
  have hp : (s.loc (.proc p)).making = some np := by
    have hplace := a.place
    rw [places] at hplace
    rwa [hplace]
  have hT := a.inv.distinct (.proc x) (.proc p) np (making_of_adopted hx) hp
  exact Thread.proc.inj hT

theorem At.ne_child (a : At s c p L) (hleave : L.leaving = false)
    (hst : (s.proc np).state ≠ .running) : p ≠ np := by
  rintro rfl
  exact hst (a.running hleave)

/-- `allocproc` has found an entry. -/
theorem At.fork_used (a : At s c p (.fork (.used np pid)))
    (hstep : s.exec c b (fork p (.used np pid)) = some t) : t.Family := by
  have hunused : (s.proc np).state = .unused :=
    a.inv.knows (s.active c) np .unused (by rw [← State.here, a.here]; rfl)
  have hnone := a.kin.unborn np hunused
  have hne : p ≠ np := a.ne_child rfl (by rw [hunused]; decide)
  have hkin : Kin (update s.proc np
      { s.proc np with pid := pid, state := .used, affinity := none }) s.places := by
    refine a.kin.setUnborn rfl (by simp) (by rw [hunused]; rfl) (.inr rfl) (by simp)
      (fun x _ hx => ?_) (fun _ _ => rfl) (fun x hx => ?_)
    · have hx' : (s.proc np).parent = some x := hx
      rw [hnone] at hx'
      cases hx'
    have hpar := a.kin.child x np hx
    rw [hnone] at hpar
    cases hpar
  refine .of_edit a.act hstep (hkin.move (.quiet a.place ?_ rfl (silent_fork _) trivial
    of_none of_none))
  rw [update_of_ne hne]
  exact a.running rfl

/-- The child gets a context. -/
theorem At.fork_context (a : At s c p (.fork (.context np)))
    (hstep : s.exec c b (fork p (.context np)) = some t) : t.Family := by
  have hused := a.used (q := np) rfl
  have hne : p ≠ np := a.ne_child rfl (by rw [hused]; decide)
  have hidle : (s.places np).busy = false := Bool.eq_false_iff.2 fun hb => by
    have hlive := a.kin.alive np hb
    rw [hused] at hlive
    cases hlive
  have hkin : Kin s.proc (update s.places np .forkret) :=
    a.kin.move (.idle hidle (by rw [hused]; decide) rfl trivial)
  have hplace : update s.places np .forkret p = .fork (.context np) := by
    rw [update_of_ne hne]
    exact a.place
  have hmoves : Moves s.proc (update s.places np .forkret) p (.fork (.uvmcopy np)) :=
    .quiet hplace (a.running rfl) rfl (silent_fork _) trivial (fun r hr => .inl hr) of_none
  let s' : State n := { s with loc := update s.loc (.proc np) .forkret }
  have hplaces : s'.places = update s.places np .forkret := by
    funext x
    by_cases hx : x = np
    · subst hx
      simp [places, s']
    · simp [places, s', hx]
  cases hstep
  have hact : s'.active c = .proc p := a.act
  rw [Family, places_of_loc hact rfl, hplaces]
  exact hkin.move hmoves

/-- `fork` gives the entry back. -/
theorem At.fork_undo (a : At s c p (.fork (.undo np)))
    (hstep : s.exec c b (fork p (.undo np)) = some t) : t.Family := by
  have hused := a.used (q := np) rfl
  have hne : p ≠ np := a.ne_child rfl (by rw [hused]; decide)
  have hkin : Kin (update s.proc np (s.proc np).freeproc) s.places := by
    refine a.kin.setUnborn rfl (by rintro ⟨⟩) (by rw [hused]; rfl) (.inl rfl) (fun _ => rfl)
      (by rintro _ ⟨⟩) (fun x hx => ?_) (a.no_child rfl)
    rw [a.adopter rfl x hx, a.place] at hx
    cases hx
  refine .of_edit a.act hstep (hkin.move (.quiet a.place ?_ rfl (silent_fork _) trivial
    (fun r hr => ?_) of_none))
  · rw [update_of_ne hne]
    exact a.running rfl
  obtain rfl : np = r := some.inj hr
  rw [update_self]
  exact .inr (by rintro ⟨⟩)

/-- `fork` sets the parent of the child. -/
theorem At.fork_parent (a : At s c p (.fork (.parent np pid)))
    (hstep : s.exec c b (fork p (.parent np pid)) = some t) : t.Family := by
  have hused := a.used (q := np) rfl
  have hne : p ≠ np := a.ne_child rfl (by rw [hused]; decide)
  have hkin : Kin (update s.proc np { s.proc np with parent := some p }) s.places :=
    a.kin.setParent rfl (by rw [a.running rfl]; rfl) hused (by rw [a.place]; rfl)
      (by rw [a.place]; rfl) (a.adopter rfl) (a.no_child rfl)
  refine .of_edit a.act hstep (hkin.move (.quiet a.place ?_ rfl (silent_fork _) trivial
    (fun r hr => .inl hr) (fun r hr => ?_)))
  · rw [update_of_ne hne]
    exact a.running rfl
  · obtain rfl : np = r := some.inj hr
    rw [update_self]

/-- The child becomes `RUNNABLE`. -/
theorem At.fork_ready (a : At s c p (.fork (.ready np pid)))
    (hstep : s.exec c b (fork p (.ready np pid)) = some t) : t.Family := by
  have hused := a.used (q := np) rfl
  have hne : p ≠ np := a.ne_child rfl (by rw [hused]; decide)
  have hparent : (s.proc np).parent = some p := a.kin.adopted p np (by rw [a.place]; rfl)
  have hforkret : s.places np = .forkret :=
    a.inv.made (.proc p) np (by
      have hplace := a.place
      rw [places] at hplace
      rw [hplace]
      rfl)
  have hkin : Kin (update s.proc np { s.proc np with state := .runnable }) s.places :=
    a.kin.setState rfl rfl rfl rfl (fun _ => by rw [hparent]; rintro ⟨⟩) (by simp)
      (by rw [hforkret]; exact of_false)
  refine .of_edit a.act hstep (hkin.move (.quiet a.place ?_ rfl (silent_fork _) trivial
    (fun r hr => ?_) of_none))
  · rw [update_of_ne hne]
    exact a.running rfl
  obtain rfl : np = r := some.inj hr
  rw [update_self]
  exact .inr (by simp)

/-- `fork`. -/
theorem At.fork {at_ : ForkAt} (a : At s c p (.fork at_))
    (hstep : s.exec c b (fork p at_) = some t) : t.Family := by
  have hkeep : ∀ at_', (Loc.fork at_').making = (Loc.fork at_).making →
      (Loc.fork at_').adopted = (Loc.fork at_).adopted →
      Moves s.proc s.places p (.fork at_') := fun at_' hm had =>
    a.quiet rfl rfl (silent_fork _) trivial hm had
  have huser : ∀ a0, (Loc.fork at_).making = none → Moves s.proc s.places p (.user a0) :=
    fun a0 hm => a.plain rfl rfl (silent_user a0) trivial hm rfl
  cases at_ with
  | scan i =>
    simp only [Smp.fork, forSlots] at hstep
    by_cases hi : i < NPROC
    · rw [dif_pos hi] at hstep
      exact a.kin.of_plain a.act hstep rfl (hkeep _ rfl rfl)
    · rw [dif_neg hi] at hstep
      exact a.kin.of_plain a.act hstep rfl (huser _ rfl)
  | test np =>
    refine a.kin.of_access a.act hstep ⟨rfl, rfl, rfl, rfl⟩ ?_
    by_cases hu : (s.proc np).state = .unused
    · rw [if_pos hu]
      exact hkeep _ rfl rfl
    · rw [if_neg hu]
      exact hkeep _ rfl rfl
  | skip | allocpid | release | waitLock | waitUnlock | lock =>
    exact a.kin.of_plain a.act hstep rfl (hkeep _ rfl rfl)
  | used np pid => exact a.fork_used hstep
  | trapframe np | pagetable np | uvmcopy np | shmemFork np =>
    refine a.kin.of_plain a.act hstep rfl ?_
    cases b <;> exact hkeep _ rfl rfl
  | context np => exact a.fork_context hstep
  | undo np => exact a.fork_undo hstep
  | fail np | unlock np pid => exact a.kin.of_plain a.act hstep rfl (huser _ rfl)
  | readPid np => exact a.kin.of_access a.act hstep ⟨rfl, rfl, rfl, rfl⟩ (hkeep _ rfl rfl)
  | parent np pid => exact a.fork_parent hstep
  | ready np pid => exact a.fork_ready hstep

end Fork

/-! ## `exit` -/

section Exit

variable {status : Int}

/-- An `exit` that holds `wait_lock` goes on. -/
theorem At.exit_moves {at_ : ExitAt} (a : At s c p (.exit at_ status))
    (hleave : (Loc.exit at_ status).leaving = false)
    (hother : next.adopted = none ∧ next.scanned = 0 ∧ next.child = none ∧
      next.sleepsOn = none ∧ ∀ st, next.committed st = false) (hshape : next.Shape (some p))
    (hbereft : ∀ j : Slot, j.val < next.bereft → (s.proc j).parent ≠ some p)
    (htarget : ∀ ch, next.target = some ch → ch = (s.proc p).parent.map .proc)
    (hwoken : ∀ x k, next.waking = some (x, k) → k = 0)
    (hfinal : ∀ x, next.final = true → (s.proc p).parent = some x →
      (s.places x).committed (s.proc x).state = false) : Moves s.proc s.places p next := by
  obtain ⟨had, hscan, hchild, hsleep, hcommit⟩ := hother
  have hrun := a.running hleave
  constructor
  case shape => exact hshape
  case alive => exact fun _ => by rw [hrun]; rfl
  case making => rw [a.place]; exact of_none
  case adopted => rw [had]; exact of_none
  case bereft => exact hbereft
  case scanned => rw [hscan]; exact of_lt_zero
  case child => rw [hchild]; exact of_none
  case found =>
    intro q pid hq
    have hc := child_of_found hq
    rw [hchild] at hc
    cases hc
  case asleep => exact fun h => by rw [hrun] at h; cases h
  case chan => rw [hsleep]; exact of_none
  case target => exact htarget
  case woken =>
    intro x k hx hk
    rw [hwoken x k hx] at hk
    cases hk
  case final => exact fun x hf hx _ => hfinal x hf hx
  case commits => rw [hcommit]; exact of_false
  case pending => rw [a.place]; exact of_none₂

/-- `reparent`. -/
theorem At.exit_reparent {i : Nat} (a : At s c p (.exit (.reparent i) status))
    (hstep : s.exec c b (exit status p (.reparent i)) = some t) : t.Family := by
  have hbereft : ∀ j : Slot, j.val < i → (s.proc j).parent ≠ some p := fun j hj =>
    a.kin.bereft p j (by rw [a.place]; exact hj)
  simp only [Smp.exit, forSlots] at hstep
  by_cases hi : i < NPROC
  · rw [dif_pos hi] at hstep
    by_cases hpar : (s.proc ⟨i, hi⟩).parent = some p
    · refine .of_edit a.act hstep ?_
      rw [if_pos hpar]
      exact a.kin.reparent (i := ⟨i, hi⟩) a.place (by rw [a.running rfl]; rfl) hpar rfl
        (a.exclusive (by simp [Loc.locks]))
    refine a.kin.of_access a.act hstep ?_ ?_ <;> rw [if_neg hpar]
    · exact ⟨rfl, rfl, rfl, rfl⟩
    refine a.exit_moves rfl ⟨rfl, rfl, rfl, rfl, fun _ => rfl⟩ a.shape (fun j hj => ?_)
      of_none of_none₂ of_false₁
    rcases Nat.lt_succ_iff_lt_or_eq.1 hj with hlt | heq
    · exact hbereft j hlt
    obtain rfl : j = ⟨i, hi⟩ := Fin.ext heq
    exact hpar
  · rw [dif_neg hi] at hstep
    exact a.kin.of_plain a.act hstep rfl (a.exit_moves rfl ⟨rfl, rfl, rfl, rfl, fun _ => rfl⟩
      a.shape (fun j _ => hbereft j (lt_of_lt_of_le j.isLt (not_lt.1 hi)))
      of_none of_none₂ of_false₁)

/-- A process that has woken its parent becomes a zombie. -/
theorem At.exit_mark (a : At s c p (.exit .mark status))
    (hstep : s.exec c b (exit status p .mark) = some t) : t.Family := by
  have hrun := a.running rfl
  have hmoves : Moves s.proc s.places p (.exit .waitUnlock status) :=
    a.plain rfl rfl ⟨rfl, rfl, rfl, rfl, rfl, rfl, rfl, fun _ => rfl⟩ a.shape rfl rfl
  refine .of_edit a.act hstep ((a.kin.move hmoves).setZombie rfl rfl rfl rfl
    (by rw [hrun]; rfl) (fun heq => a.shape (by rw [heq]))
    (fun r => a.kin.bereft p r (by rw [a.place]; exact r.isLt))
    (by rw [update_self]; rfl) (fun x hx => ?_) (fun x hx => ?_))
  · by_cases hxp : x = p
    · rw [hxp, update_self]
      rfl
    · rw [update_of_ne hxp]
      exact (a.alone (by simp [Loc.locks]) x hxp).1
  by_cases hxp : x = p
  · rw [hxp, update_self]
    rfl
  · rw [update_of_ne hxp]
    exact a.kin.final p x (by rw [a.place]; rfl) hx

/-- `exit`. -/
theorem At.exit {at_ : ExitAt} (a : At s c p (.exit at_ status))
    (hstep : s.exec c b (exit status p at_) = some t) : t.Family := by
  have hshape : ∀ at_, (Loc.exit at_ status).Shape (some p) := fun _ => a.shape
  have hdying : (Loc.exit at_ status).dying = true → (s.proc p).state ≠ .sleeping := fun hd => by
    have hz := a.inv.dying p (by
      have hplace := a.place
      rw [places] at hplace
      rw [hplace]
      exact hd)
    rw [hz]
    decide
  cases at_ with
  | close | waitLock =>
    exact a.kin.of_plain a.act hstep rfl (a.plain rfl rfl
      ⟨rfl, rfl, rfl, rfl, rfl, rfl, rfl, fun _ => rfl⟩ (hshape _) rfl rfl)
  | reparent i => exact a.exit_reparent hstep
  | wakeup =>
    refine a.kin.of_access a.act hstep ⟨rfl, rfl, rfl, rfl⟩ (a.exit_moves rfl
      ⟨rfl, rfl, rfl, rfl, fun _ => rfl⟩ ⟨fun _ => ⟨_, _, rfl, .inr rfl⟩, hshape _⟩
      (fun j hj => a.kin.bereft p j (by rw [a.place]; exact hj))
      (fun ch hch => (some.inj hch).symm) (fun x k hx => ?_) of_false₁)
    exact (waking_wakeup hx (.scan 0)).2.1
  | lock =>
    exact a.kin.of_plain a.act hstep rfl (a.exit_moves rfl ⟨rfl, rfl, rfl, rfl, fun _ => rfl⟩
      (hshape _) (fun j hj => a.kin.bereft p j (by rw [a.place]; exact hj)) of_none of_none₂
      fun x _ => a.kin.final p x (by rw [a.place]; rfl))
  | mark => exact a.exit_mark hstep
  | waitUnlock | sched =>
    exact a.kin.of_plain a.act hstep rfl (.idle (by rw [a.place]; rfl) (hdying rfl) rfl (hshape _))
  | dead => cases hstep

end Exit

/-! ## `wait` -/

section Wait

variable {addr : Nat}

/-- A `wait` that holds `wait_lock` goes on. -/
theorem At.wait_moves {at_ : WaitAt} (a : At s c p (.wait at_ addr))
    (hnext : next.adopted = none ∧ next.bereft = 0 ∧ next.target = none ∧ next.waking = none ∧
      next.final = false ∧ next.sleepsOn = none ∧ ∀ st, next.committed st = false)
    (hshape : next.Shape (some p))
    (hscan : ∀ j : Slot, j.val < next.scanned → (s.proc j).parent = some p →
      (s.proc j).state ≠ .zombie) (hchild : ∀ q, next.child = some q → (s.proc q).parent = some p)
    (hfound : ∀ q pid, next.found = some (q, pid) → (s.proc q).pid = pid) :
    Moves s.proc s.places p next := by
  obtain ⟨had, hbereft, htarget, hwaking, hfinal, hsleep, hcommit⟩ := hnext
  have hrun := a.running rfl
  constructor
  case shape => exact hshape
  case alive => exact fun _ => by rw [hrun]; rfl
  case making => rw [a.place]; exact of_none
  case adopted => rw [had]; exact of_none
  case bereft => rw [hbereft]; exact of_lt_zero
  case scanned => exact hscan
  case child => exact hchild
  case found => exact hfound
  case asleep => exact fun h => by rw [hrun] at h; cases h
  case chan => rw [hsleep]; exact of_none
  case target => rw [htarget]; exact of_none
  case woken => rw [hwaking]; exact of_none₂
  case final => rw [hfinal]; exact of_false₁
  case commits => rw [hcommit]; exact of_false
  case pending => rw [a.place]; exact of_none₂

/-- `wait` looks for a child. -/
theorem At.wait_scan {i : Nat} {havekids : Bool} (a : At s c p (.wait (.scan i havekids) addr))
    (hstep : s.exec c b (wait addr p (.scan i havekids)) = some t) : t.Family := by
  have hscan : ∀ j : Slot, j.val < i → (s.proc j).parent = some p →
      (s.proc j).state ≠ .zombie := fun j hj => a.kin.scanned p j (by rw [a.place]; exact hj)
  simp only [Smp.wait, forSlots] at hstep
  by_cases hi : i < NPROC
  · rw [dif_pos hi] at hstep
    refine a.kin.of_access a.act hstep ⟨rfl, rfl, rfl, rfl⟩ ?_
    by_cases hpar : (s.proc ⟨i, hi⟩).parent = some p
    · rw [if_pos hpar]
      refine a.wait_moves ⟨rfl, rfl, rfl, rfl, rfl, rfl, fun _ => rfl⟩ trivial hscan ?_ of_none₂
      rintro q ⟨⟩
      exact hpar
    rw [if_neg hpar]
    refine a.wait_moves ⟨rfl, rfl, rfl, rfl, rfl, rfl, fun _ => rfl⟩ trivial (fun j hj hp => ?_)
      of_none of_none₂
    rcases Nat.lt_succ_iff_lt_or_eq.1 hj with hlt | heq
    · exact hscan j hlt hp
    obtain rfl : j = ⟨i, hi⟩ := Fin.ext heq
    exact absurd hp hpar
  · rw [dif_neg hi] at hstep
    refine a.kin.of_plain a.act hstep rfl ?_
    cases havekids
    · exact a.wait_moves ⟨rfl, rfl, rfl, rfl, rfl, rfl, fun _ => rfl⟩ trivial of_lt_zero of_none
        of_none₂
    · exact a.wait_moves ⟨rfl, rfl, rfl, rfl, rfl, rfl, fun _ => rfl⟩ trivial
        (fun j _ => hscan j (lt_of_lt_of_le j.isLt (not_lt.1 hi))) of_none of_none₂

/-- `wait` frees a zombie. -/
theorem At.wait_free {pid : Nat} (a : At s c p (.wait (.free q pid) addr))
    (hstep : s.exec c b (wait addr p (.free q pid)) = some t) : t.Family := by
  have hzombie : (s.proc q).state = .zombie :=
    a.inv.knows (s.active c) q .zombie (by rw [← State.here, a.here]; rfl)
  have hmoves : Moves s.proc s.places p (.wait (.unlock q pid) addr) :=
    a.wait_moves ⟨rfl, rfl, rfl, rfl, rfl, rfl, fun _ => rfl⟩ trivial of_lt_zero of_none of_none₂
  refine .of_edit a.act hstep ((a.kin.move hmoves).setUnborn rfl (by rintro ⟨⟩)
    (by rw [hzombie]; rfl) (.inl rfl) (fun _ => rfl) (by rintro _ ⟨⟩) (fun x hx => ?_)
    (fun x hx => ?_))
  · by_cases hxp : x = p
    · rw [hxp, update_self] at hx
      cases hx
    rw [update_of_ne hxp] at hx
    have hused := a.inv.making (.proc x) q (making_of_adopted hx)
    rw [hzombie] at hused
    cases hused
  by_cases hxp : x = p
  · rw [hxp, update_self] at hx
    cases hx
  · rw [update_of_ne hxp, (a.alone (by simp [Loc.locks]) x hxp).2.1] at hx
    cases hx

/-- `wait`. -/
theorem At.wait {at_ : WaitAt} (a : At s c p (.wait at_ addr))
    (hstep : s.exec c b (wait addr p at_) = some t) : t.Family := by
  -- what the location says stays true where the next one says no more
  have hkeep : ∀ at_', ((Loc.wait at_' addr).scanned = 0 ∨
        (Loc.wait at_' addr).scanned = (Loc.wait at_ addr).scanned) →
      ((Loc.wait at_' addr).child = none ∨ (Loc.wait at_' addr).child = (Loc.wait at_ addr).child) →
      ((Loc.wait at_' addr).found = none ∨ (Loc.wait at_' addr).found = (Loc.wait at_ addr).found) →
      Moves s.proc s.places p (.wait at_' addr) := by
    intro at_' hscan hchild hfound
    refine a.wait_moves ⟨rfl, rfl, rfl, rfl, rfl, rfl, fun _ => rfl⟩ trivial
      (fun j hj => ?_) (fun q hq => ?_) (fun q pid hq => ?_)
    · rcases hscan with h0 | heq
      · rw [h0] at hj
        cases hj
      · exact a.kin.scanned p j (by rw [a.place, ← heq]; exact hj)
    · rcases hchild with h0 | heq
      · rw [h0] at hq
        cases hq
      · exact a.kin.child p q (by rw [a.place, ← heq]; exact hq)
    · rcases hfound with h0 | heq
      · rw [h0] at hq
        cases hq
      · exact a.kin.found p q pid (by rw [a.place, ← heq]; exact hq)
  have huser : ∀ a0, Moves s.proc s.places p (.user a0) := fun a0 =>
    a.plain rfl rfl (silent_user a0) trivial rfl rfl
  cases at_ with
  | waitLock | bad q | unlock q pid =>
    exact a.kin.of_plain a.act hstep rfl (hkeep _ (.inl rfl) (.inl rfl) (.inl rfl))
  | scan i havekids => exact a.wait_scan hstep
  | lock q => exact a.kin.of_plain a.act hstep rfl (hkeep _ (.inr rfl) (.inr rfl) (.inl rfl))
  | test q =>
    refine a.kin.of_access a.act hstep ⟨rfl, rfl, rfl, rfl⟩ ?_
    by_cases hz : (s.proc q).state = .zombie
    · rw [if_pos hz]
      refine a.wait_moves ⟨rfl, rfl, rfl, rfl, rfl, rfl, fun _ => rfl⟩ trivial of_lt_zero
        (fun r hr => a.kin.child p r (by rw [a.place]; exact hr)) ?_
      rintro r pid ⟨⟩
      rfl
    rw [if_neg hz]
    refine a.wait_moves ⟨rfl, rfl, rfl, rfl, rfl, rfl, fun _ => rfl⟩ trivial (fun j hj hp => ?_)
      of_none of_none₂
    rcases Nat.lt_succ_iff_lt_or_eq.1 hj with hlt | heq
    · exact a.kin.scanned p j (by rw [a.place]; exact hlt) hp
    obtain rfl : j = q := Fin.ext heq
    exact hz
  | skip q | killed =>
    exact a.kin.of_plain a.act hstep rfl (hkeep _ (.inr rfl) (.inl rfl) (.inl rfl))
  | copyout q pid =>
    refine a.kin.of_plain a.act hstep rfl ?_
    show Moves _ _ _ (.wait (if addr ≠ 0 ∧ b then .bad q else .free q pid) addr)
    split
    · exact hkeep _ (.inl rfl) (.inl rfl) (.inl rfl)
    · exact hkeep _ (.inl rfl) (.inr rfl) (.inr rfl)
  | free q pid => exact a.wait_free hstep
  | waitUnlock | fail => exact a.kin.of_plain a.act hstep rfl (huser _)
  | readKilled =>
    exact a.kin.of_access a.act hstep ⟨rfl, rfl, rfl, rfl⟩
      (hkeep _ (.inr rfl) (.inl rfl) (.inl rfl))
  | gotKilled k =>
    refine a.kin.of_plain a.act hstep rfl ?_
    cases k
    · exact hkeep _ (.inr rfl) (.inl rfl) (.inl rfl)
    · exact hkeep _ (.inl rfl) (.inl rfl) (.inl rfl)
  | sleep =>
    exact a.kin.of_plain a.act hstep rfl (a.wait_moves ⟨rfl, rfl, rfl, rfl, rfl, rfl, fun _ => rfl⟩
      ⟨fun _ => ⟨p, addr, rfl, rfl, rfl⟩, fun h => absurd rfl h, trivial⟩
      (fun j hj => a.kin.scanned p j (by rw [a.place]; exact hj)) of_none of_none₂)

end Wait

/-! ## Every step -/

namespace State.Family

variable {d : Fin n}

/-- A scheduler moves no process. -/
theorem of_unmoved (hact : s.active c = .sched d)
    (hloc : t.loc = update s.loc (s.active c) next) (hkin : Kin t.proc s.places) : t.Family := by
  have hplaces : t.places = s.places := by
    funext x
    simp [places, hloc, hact]
  rwa [Family, hplaces]

theorem of_scheduler (hk : s.Family) {i : Instr} (hact : s.active c = .sched d)
    (hstep : s.exec c b i = some t) (hcontext : ∀ q next, i ≠ .context q next)
    (haccess : ∀ q f, i = .access q f →
      Kin (update s.proc q (f (s.proc q)).1) s.places) : t.Family := by
  cases i with
  | access q f =>
    cases hstep
    exact of_unmoved hact rfl (haccess q f rfl)
  | context q next => exact absurd rfl (hcontext q next)
  | _ =>
    obtain ⟨hproc, hloc⟩ := exec_plain hstep rfl
    exact of_unmoved hact hloc (hproc ▸ hk)

/-- A step of a scheduler, and of an interrupt that came there. -/
theorem idle_run (hk : s.Family) (hact : s.active c = .sched d) (hwf : L.Wf none)
    {me : Option Slot} (hstep : s.exec c b (instr c me L) = some t) : t.Family := by
  cases L with
  | sched i at_ =>
    refine hk.of_scheduler hact hstep (by cases at_ <;> rintro _ _ ⟨⟩) fun q f hf => ?_
    cases at_ with
    | test =>
      cases hf
      dsimp only
      by_cases hrun : (s.proc i).state = .runnable ∧ (s.proc i).mayRun c = true
      · rw [if_pos hrun]
        refine hk.setState rfl rfl rfl rfl
          (fun hne => hk.has_parent i hne (.inl (by rw [hrun.1]; rfl))) (by simp) fun hc => ?_
        generalize s.places i = M at hc ⊢
        cases M with
        | sleep at_ _ lk => cases at_ <;> cases lk <;> first | rfl | cases hc
        | _ => cases hc
      · rwa [if_neg hrun, update_eq_self]
    | _ => cases hf
  | wakeup at_ chan next =>
    refine hk.of_scheduler hact hstep ?_ fun q f hf => ?_
    · cases at_ with
      | scan i =>
        simp only [instr, wakeup, forSlots, goto]
        split
        · split <;> rintro _ _ ⟨⟩
        · rintro _ _ ⟨⟩
      | _ => rintro _ _ ⟨⟩
    cases at_ with
    | scan i =>
      simp only [instr, wakeup, forSlots, goto] at hf
      split at hf
      · split at hf <;> cases hf
      · cases hf
    | test r =>
      cases hf
      exact hk.wake (wakeOn_state _ _) (wakeOn_rest _ _).1 (wakeOn_rest _ _).2.1
        (wakeOn_rest _ _).2.2
    | unlock r => cases hf
  | callback at_ r next =>
    refine hk.of_scheduler hact hstep (by cases at_ <;> rintro _ _ ⟨⟩) fun q f hf => ?_
    cases at_ with
    | look =>
      cases hf
      exact hk.wake (wake_state _) (wake_rest _).1 (wake_rest _).2.1
        (wake_rest _).2.2
    | _ => cases hf
  | _ => simp [Wf] at hwf

theorem run (h : Inv s) (hk : s.Family) (hstep : s.step (.run c b) = some t) : t.Family := by
  rw [step] at hstep
  cases hact : s.active c with
  | sched d =>
    have hwf := h.wf_here hact (L := s.here c) rfl
    exact hk.idle_run hact hwf hstep
  | proc p =>
    have hcur := (h.active c p hact).1
    have hwf := h.wf_here hact (L := s.here c) rfl
    rw [hcur] at hstep
    generalize hL : s.here c = L at hstep hwf
    have a : At s c p L := ⟨h, hk, hact, hL⟩
    cases L with
    | user => cases hstep
    | sched => cases hwf
    | forkret => exact hk.of_plain hact hstep rfl (a.plain rfl rfl (silent_user 0) trivial rfl rfl)
    | switch => exact a.switch hstep
    | block => exact a.block hstep
    | sleep => exact a.sleep hstep
    | wakeup => exact a.wakeup hstep
    | callback => exact a.callback hstep
    | setCpuAffinity => exact a.setCpuAffinity hstep
    | waitPeriod => exact a.waitPeriod hstep
    | setperiod => exact a.setperiod hstep
    | kill => exact a.kill hstep
    | fork => exact a.fork hstep
    | exit => exact a.exit hstep
    | wait => exact a.wait hstep

theorem setLoc_sched (hk : s.Family) (hact : s.active c = .sched d) : (s.setLoc c next).Family :=
  of_unmoved hact rfl hk

theorem setLoc_proc (hk : s.Family) (hact : s.active c = .proc p)
    (m : Moves s.proc s.places p next) : (s.setLoc c next).Family :=
  hk.of_move rfl (places_of_loc hact rfl) m

/-- A call starts without locks. -/
theorem enter_moves {a0 : Int} {k : Call} (a : At s c p (.user a0))
    (henter : enter (some p) (.user a0) k = some L) : Moves s.proc s.places p L := by
  cases k with
  | exit status =>
    simp only [enter] at henter
    split at henter
    · cases henter
    rename_i hne
    cases henter
    exact a.plain rfl rfl ⟨rfl, rfl, rfl, rfl, rfl, rfl, rfl, fun _ => rfl⟩ hne rfl rfl
  | block chan addr =>
    cases henter
    exact a.plain rfl rfl ⟨rfl, rfl, rfl, rfl, rfl, rfl, rfl, fun _ => rfl⟩ ⟨rfl, trivial⟩ rfl rfl
  | wakeup chan =>
    cases henter
    exact a.plain rfl rfl (silent_of_nil (p := p) rfl) ⟨by rintro ⟨⟩, trivial⟩ rfl rfl
  | _ =>
    cases henter
    exact a.plain rfl rfl ⟨rfl, rfl, rfl, rfl, rfl, rfl, rfl, fun _ => rfl⟩ trivial rfl rfl

theorem call (h : Inv s) (hk : s.Family) {k : Call} (hstep : s.step (.call c k) = some t) :
    t.Family := by
  cases hact : s.active c with
  | sched d =>
    obtain ⟨M, rfl⟩ := proc_of_call hstep
    exact hk.setLoc_sched hact
  | proc p =>
    have hcur := (h.active c p hact).1
    simp only [State.step, State.call] at hstep
    split at hstep
    · rename_i hL
      obtain ⟨L, henter, rfl⟩ := Option.map_eq_some_iff.1 hstep
      rw [hcur] at henter
      exact hk.setLoc_proc hact (enter_moves ⟨h, hk, hact, hL⟩ henter)
    · rename_i status chan addr hL
      cases hstep
      have a : At s c p (.exit .close status) := ⟨h, hk, hact, hL⟩
      exact hk.setLoc_proc hact (a.plain rfl rfl
        ⟨rfl, rfl, rfl, rfl, rfl, rfl, rfl, fun _ => rfl⟩ ⟨rfl, a.shape⟩ rfl rfl)
    · rename_i status chan hL
      cases hstep
      have a : At s c p (.exit .close status) := ⟨h, hk, hact, hL⟩
      exact hk.setLoc_proc hact
        (a.plain rfl rfl (Loc.silent_of_nil (p := p) rfl) ⟨by rintro ⟨⟩, a.shape⟩ rfl rfl)
    · cases hstep

theorem interrupt (h : Inv s) (hk : s.Family) {i : Intr}
    (hstep : s.step (.interrupt c i) = some t) : t.Family := by
  obtain ⟨hlocks, hcases⟩ := interrupt_cases hstep
  cases hact : s.active c with
  | sched d => obtain ⟨_, rfl⟩ | ⟨_, rfl⟩ | ⟨-, rfl⟩ := hcases <;> exact hk.setLoc_sched hact
  | proc p =>
    have a : At s c p (s.here c) := ⟨h, hk, hact, rfl⟩
    rw [hact] at hlocks
    have hnil : (s.here c).locks (some p) = [] := hlocks
    have hleave : (s.here c).leaving = false :=
      congrArg Prod.fst (a.wf.calm fun q => by rw [hnil]; rintro ⟨⟩)
    have hw := (silent_of_nil hnil).waking
    rcases hcases with ⟨chan, rfl⟩ | ⟨q, rfl⟩ | ⟨-, rfl⟩
    · exact hk.setLoc_proc hact (a.quiet hleave hw (silent_of_nil (p := p) hnil)
        ⟨fun hmem => (by rw [hnil] at hmem; cases hmem), a.shape⟩ rfl rfl)
    · exact hk.setLoc_proc hact (a.quiet hleave hw
        ⟨rfl, rfl, rfl, rfl, rfl, rfl, rfl, fun _ => rfl⟩ a.shape rfl rfl)
    · exact hk.setLoc_proc hact (a.quiet hleave hw (silent_switch _ _ _) ⟨by simp, a.shape⟩ rfl rfl)

theorem step (h : Inv s) (hk : s.Family) {l : Label n} (hstep : Steps s l t) : t.Family := by
  cases l with
  | run c b => exact hk.run h hstep
  | call c k => exact hk.call h hstep
  | interrupt c i => exact hk.interrupt h hstep

theorem boot (n : Nat) : (State.boot n).Family := by
  have hparent : ∀ p, ((State.boot n).proc p).parent = none := fun p => by
    by_cases hp : p = initproc
    · subst hp
      simp [State.boot, Proc.zero]
    · simp [State.boot, hp, Proc.zero]
  have hstate : ∀ p, p ≠ initproc → ((State.boot n).proc p).state = .unused := fun p hp => by
    simp [State.boot, hp, Proc.zero]
  have hinit : ((State.boot n).proc initproc).state = .runnable := by simp [State.boot]
  have hno : ∀ p x, ((State.boot n).proc p).parent ≠ some x := fun p x hx => by
    rw [hparent] at hx
    cases hx
  constructor
  case shape => exact fun _ => trivial
  case alive => exact of_false₁
  case parent_live => exact fun r q hq => absurd hq (hno r q)
  case has_parent =>
    intro r hr hs
    rw [hstate r hr] at hs
    rcases hs with hs | hs <;> cases hs
  case init => rw [hinit]; rfl
  case unborn => exact fun r _ => hparent r
  case used => exact fun r x _ hx => absurd hx (hno r x)
  case adopted | bereft | scanned | child | chan | target | final | pending => rintro _ _ ⟨⟩
  case found | woken => rintro _ _ _ ⟨⟩
  case asleep =>
    intro p hp
    by_cases heq : p = initproc
    · rw [heq, hinit] at hp
      cases hp
    · rw [hstate p heq] at hp
      cases hp

theorem of_run {ls : List (Label n)} (hrun : Run Steps (State.boot n) ls s) : s.Family :=
  (hrun.inv (I := fun s => Inv s ∧ s.Family) ⟨.boot n, boot n⟩
    fun _ _ _ h hstep => ⟨h.1.step hstep, h.2.step h.1 hstep⟩).2

end State.Family

end Xv6.Smp
