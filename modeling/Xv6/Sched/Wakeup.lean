import Xv6.Sched.Model

/-!
# No lost wakeups

Processes that share one spinlock and sleep until a condition on the data
changes.  A `Monitor` annotates their code: which locations hold the lock,
what is known of the data there, and which wakeups the process still owes
because it may have ended the condition that a channel stands for.  If every
instruction agrees with the annotations (`Monitor.Sound`), then a process
that sleeps on a channel while the lock is free finds the condition of the
channel true (`Monitor.cond_of_sleeping`).

The invariant looks at a process from the moment at which it has decided to
sleep.  Until it has released `p->lock` no `wakeup` can pass it, so every
wakeup that is owed still reaches it.
-/

namespace Xv6.Sched

open Function Lib Option

variable {σ Loc χ ε : Type}

/-- Annotations for code that uses one spinlock.  `pre` and `owes` may depend
on `p->killed`. -/
structure Monitor (σ Loc χ : Type) where
  /-- A process at this location holds the lock. -/
  holds : Loc → Bool
  /-- What is known of the data while the lock is free. -/
  inv : σ → Prop
  /-- What a process that sleeps on the channel waits to see changed. -/
  cond : χ → σ → Prop
  /-- What the holder knows at a location. -/
  pre : Loc → Bool → σ → Prop
  /-- The wakeups that the holder owes at a location. -/
  owes : Loc → Bool → σ → χ → Prop

namespace Monitor

variable (m : Monitor σ Loc χ)

/-- A process that has just acquired the lock can go on at `next`. -/
def Enters (next : Loc) : Prop :=
  m.holds next = true ∧ ∀ k d, m.inv d → m.pre next k d

/-- Going from `loc` to `next` drops neither knowledge nor debts. -/
def Moves (loc next : Loc) (k : Bool) : Prop :=
  m.holds next = m.holds loc ∧ (m.holds loc = true → ∀ d, m.pre loc k d →
    m.pre next k d ∧ ∀ c, m.owes loc k d c → m.cond c d ∨ m.owes next k d c)

/-- The instruction at `loc` agrees with the annotations. -/
def Ok (loc : Loc) : Instr σ Loc χ Unit → Prop
  | .acquire _ next => m.holds loc = false ∧ m.Enters next
  | .release _ next => m.holds loc = true ∧ m.holds next = false ∧
      ∀ k d, m.pre loc k d → m.inv d ∧ ∀ c, m.owes loc k d c → m.cond c d
  | .access f => ∀ p d d' next, f p d = some (d', next) →
      m.holds next = m.holds loc ∧ (m.holds loc = false → d' = d) ∧
      (m.holds loc = true → ∀ k, m.pre loc k d → m.pre next k d' ∧
        ∀ c, m.cond c d ∨ m.owes loc k d c → m.cond c d' ∨ m.owes next k d' c)
  | .killed next => ∀ k, m.Moves loc (next k) k
  | .copyin _ _ next => ∀ r k, m.Moves loc (next r) k
  | .copyout _ _ next => ∀ r k, m.Moves loc (next r) k
  | .sleep c _ next => m.holds loc = true ∧ m.Enters next ∧
      ∀ k d, m.pre loc k d → m.inv d ∧ m.cond c d ∧ ∀ c', m.owes loc k d c' → m.cond c' d
  | .wakeup c next => m.holds next = m.holds loc ∧ (m.holds loc = true →
      ∀ k d, m.pre loc k d → m.pre next k d ∧
        ∀ c', m.owes loc k d c' → c' = c ∨ m.cond c' d ∨ m.owes next k d c')
  | .ret _ => m.holds loc = false

variable {m} in
/-- The rule for an access by the holder. -/
theorem ok_access {loc : Loc} {f : Fin NPROC → σ → Option (σ × Loc)} (hloc : m.holds loc = true)
    (h : ∀ p d d' next, f p d = some (d', next) → m.holds next = true ∧
      ∀ k, m.pre loc k d → m.pre next k d' ∧
        ∀ c, m.cond c d ∨ m.owes loc k d c → m.cond c d' ∨ m.owes next k d' c) :
    m.Ok loc (.access f) := by
  intro p d d' next hf
  obtain ⟨hnext, hknows⟩ := h p d d' next hf
  refine ⟨hnext.trans hloc.symm, ?_, fun _ => hknows⟩
  intro hno
  exact absurd hno (by simp [hloc])

/-- Killing a process at `loc` drops neither knowledge nor debts. -/
def Killable (loc : Loc) : Prop :=
  m.holds loc = true → ∀ d, m.pre loc false d →
    m.pre loc true d ∧ ∀ c, m.owes loc false d c → m.cond c d ∨ m.owes loc true d c

/-- All the code agrees with the annotations. -/
structure Sound (code : Code σ Loc χ Unit ε) : Prop where
  instr : ∀ loc, m.Ok loc (code.instr loc)
  entry : ∀ loc, code.entry loc = true → m.holds loc = false
  env_inv : ∀ e d, m.inv d → m.inv (code.env e d)
  env_cond : ∀ e d c, m.cond c d → m.cond c (code.env e d)
  env_pre : ∀ e d loc k, m.pre loc k d → m.pre loc k (code.env e d)
  env_owes : ∀ e d loc k c, m.owes loc k d c → m.owes loc k (code.env e d) c

end Monitor

/-! ## The invariant -/

namespace Proc

variable (m : Monitor σ Loc χ) (pr : Proc Loc χ Unit)

/-- The process is not in the part of `sleep` that uses `p->chan`. -/
structure Awake : Prop where
  chan : pr.chan = none
  locked : pr.locked = false
  state : pr.state ≠ .sleeping

/-- The entry of the process table agrees with where the process stands. -/
def Ok : Prop :=
  match pr.ctl with
  | .code _ | .wakeup _ _ _ => pr.Awake
  | .sleep stage c _ next => m.Enters next ∧
    match stage with
    | .locked | .released => pr.chan = none ∧ pr.locked = true ∧ pr.state ≠ .sleeping
    | .marked => pr.chan = some c ∧ pr.locked = true
    | .switched => pr.chan = some c ∧ pr.locked = false
    | .resumed => pr.chan = some c ∧ pr.locked = true ∧ pr.state ≠ .sleeping
    | .tidied => pr.Awake

/-- The process holds the lock. -/
def holds : Bool :=
  match pr.ctl with
  | .code loc => m.holds loc
  | .wakeup _ _ next => m.holds next
  | .sleep .locked _ _ _ => true
  | .sleep _ _ _ _ => false

/-- What the holder knows. -/
def Knows (d : σ) : Prop :=
  match pr.ctl with
  | .code loc => m.pre loc pr.killed d
  | .wakeup _ _ next => m.pre next pr.killed d
  | .sleep .locked c _ _ => m.inv d ∧ m.cond c d
  | .sleep _ _ _ _ => True

/-- The process sleeps on `c`, or has decided to. -/
def Committed (c : χ) : Prop :=
  match pr.ctl with
  | .sleep .locked c' _ _ | .sleep .released c' _ _ | .sleep .marked c' _ _ => c' = c
  | .sleep .switched c' _ _ => c' = c ∧ pr.state = .sleeping
  | _ => False

/-- The process owes a wakeup on `c` that will reach process `q`. -/
def Owes (d : σ) (q : Fin NPROC) (c : χ) : Prop :=
  match pr.ctl with
  | .code loc => m.owes loc pr.killed d c
  | .wakeup c' i next => (c' = c ∧ i ≤ q.val) ∨ m.owes next pr.killed d c
  | .sleep _ _ _ _ => False

variable {m pr}

/-- A process in `sleep` owes nothing. -/
theorem Committed.not_owes {c c' : χ} {d : σ} {q : Fin NPROC} (h : pr.Committed c) :
    ¬ pr.Owes m d q c' := by
  unfold Committed at h
  unfold Owes
  split at h <;> simp_all

end Proc

/-- What holds in every state. -/
structure Monitor.Inv (m : Monitor σ Loc χ) (s : State σ Loc χ Unit) : Prop where
  procs : ∀ p, (s.proc p).Ok m
  mutex : ∀ p, s.holder () = some p ↔ (s.proc p).holds m = true
  free : s.holder () = none → m.inv s.data
  knows : ∀ p, s.holder () = some p → (s.proc p).Knows m s.data
  waits : ∀ p c, (s.proc p).Committed c →
    m.cond c s.data ∨ ∃ q, s.holder () = some q ∧ (s.proc q).Owes m s.data p c

namespace State

variable (s : State σ Loc χ Unit) (p q : Fin NPROC) (pr : Proc Loc χ Unit)

@[simp] theorem setProc_holder : (s.setProc p pr).holder = s.holder := rfl

end State

/-! ## What one process can do to the invariant -/

namespace Monitor.Inv

variable {m : Monitor σ Loc χ} {s : State σ Loc χ Unit} {p : Fin NPROC} {pr : Proc Loc χ Unit}

theorem procs_setProc (h : ∀ q, (s.proc q).Ok m) (hok : pr.Ok m) (q : Fin NPROC) :
    ((s.setProc p pr).proc q).Ok m := by
  by_cases hq : q = p
  · subst hq
    simpa using hok
  · rw [s.setProc_of_ne pr hq]
    exact h q

/-- One process changes; the lock and the data stay. -/
theorem setProc (h : m.Inv s) (hok : pr.Ok m) (hholds : pr.holds m = (s.proc p).holds m)
    (hknows : s.holder () = some p → (s.proc p).Knows m s.data → pr.Knows m s.data)
    (hcom : ∀ c, pr.Committed c → (s.proc p).Committed c ∨ m.cond c s.data)
    (hdebt : s.holder () = some p → ∀ q c, q ≠ p → (s.proc q).Committed c →
      (s.proc p).Owes m s.data q c → m.cond c s.data ∨ pr.Owes m s.data q c) :
    m.Inv (s.setProc p pr) where
  procs := procs_setProc h.procs hok
  mutex q := by
    by_cases hq : q = p
    · subst hq
      rw [State.setProc_self, State.setProc_holder, hholds]
      exact h.mutex q
    · rw [s.setProc_of_ne pr hq]
      exact h.mutex q
  free hfree := h.free hfree
  knows q hq := by
    by_cases hqp : q = p
    · subst hqp
      rw [State.setProc_self]
      exact hknows hq (h.knows q hq)
    · rw [s.setProc_of_ne pr hqp]
      exact h.knows q hq
  waits q c hc := by
    have hold : (s.proc q).Committed c ∨ m.cond c s.data := by
      by_cases hqp : q = p
      · subst hqp
        rw [State.setProc_self] at hc
        exact hcom c hc
      · rw [s.setProc_of_ne pr hqp] at hc
        exact .inl hc
    obtain hold | hcond := hold
    · obtain hcond | ⟨r, hr, howes⟩ := h.waits q c hold
      · exact .inl hcond
      by_cases hrp : r = p
      · subst hrp
        have hqr : q ≠ r := by
          intro heq
          subst heq
          exact hold.not_owes howes
        obtain hcond | howes' := hdebt hr q c hqr hold howes
        · exact .inl hcond
        · exact .inr ⟨r, hr, by rwa [State.setProc_self]⟩
      · exact .inr ⟨r, hr, by rwa [s.setProc_of_ne pr hrp]⟩
    · exact .inl hcond

/-- A process that does not hold the lock changes, and does not decide to
sleep. -/
theorem setProc_of_not_holds (h : m.Inv s) (hok : pr.Ok m)
    (hno : (s.proc p).holds m = false) (hholds : pr.holds m = false)
    (hcom : ∀ c, pr.Committed c → (s.proc p).Committed c) : m.Inv (s.setProc p pr) := by
  have hnot : s.holder () ≠ some p := by
    intro hp
    rw [h.mutex p, hno] at hp
    cases hp
  exact h.setProc hok (hholds.trans hno.symm) (fun hp => absurd hp hnot)
    (fun c hc => .inl (hcom c hc)) (fun hp => absurd hp hnot)

/-- The holder changes the data. -/
theorem setData (h : m.Inv s) {d : σ} (hp : s.holder () = some p) (hok : pr.Ok m)
    (hholds : pr.holds m = true) (hknows : pr.Knows m d) (hcom : ∀ c, ¬ pr.Committed c)
    (hdebt : ∀ q c, m.cond c s.data ∨ (s.proc p).Owes m s.data q c →
      m.cond c d ∨ pr.Owes m d q c) : m.Inv ({ s with data := d }.setProc p pr) where
  procs := procs_setProc h.procs hok
  mutex q := by
    by_cases hq : q = p
    · subst hq
      rw [State.setProc_self, State.setProc_holder, hholds]
      simpa using hp
    · rw [State.setProc_of_ne _ pr hq]
      exact h.mutex q
  free hfree := by
    rw [State.setProc_holder] at hfree
    exact absurd (hp.symm.trans hfree) (by simp)
  knows q hq := by
    rw [State.setProc_holder] at hq
    cases hp.symm.trans hq
    rwa [State.setProc_self]
  waits q c hc := by
    have hqp : q ≠ p := by
      intro heq
      subst heq
      rw [State.setProc_self] at hc
      exact hcom c hc
    rw [State.setProc_of_ne _ pr hqp] at hc
    have hold : m.cond c s.data ∨ (s.proc p).Owes m s.data q c := by
      obtain hcond | ⟨r, hr, howes⟩ := h.waits q c hc
      · exact .inl hcond
      cases hp.symm.trans hr
      exact .inr howes
    obtain hcond | howes := hdebt q c hold
    · exact .inl hcond
    · exact .inr ⟨p, hp, by rwa [State.setProc_self]⟩

/-- The data change in a way that keeps all that is known. -/
theorem env {code : Code σ Loc χ Unit ε} (hs : m.Sound code) (h : m.Inv s) (e : ε) :
    m.Inv { s with data := code.env e s.data } where
  procs := h.procs
  mutex := h.mutex
  free hfree := hs.env_inv e _ (h.free hfree)
  knows p hp := by
    have hknow := h.knows p hp
    unfold Proc.Knows at hknow ⊢
    cases hctl : (s.proc p).ctl with
    | code | wakeup =>
      rw [hctl] at hknow
      exact hs.env_pre e _ _ _ hknow
    | sleep stage c lk next =>
      rw [hctl] at hknow
      cases stage with
      | locked => exact ⟨hs.env_inv e _ hknow.1, hs.env_cond e _ _ hknow.2⟩
      | released | marked | switched | resumed | tidied => trivial
  waits p c hc := by
    obtain hcond | ⟨q, hq, howes⟩ := h.waits p c hc
    · exact .inl (hs.env_cond e _ c hcond)
    refine .inr ⟨q, hq, ?_⟩
    unfold Proc.Owes at howes ⊢
    cases hctl : (s.proc q).ctl with
    | code loc =>
      rw [hctl] at howes
      exact hs.env_owes e _ _ _ _ howes
    | wakeup c' i next =>
      rw [hctl] at howes
      exact howes.imp_right (hs.env_owes e _ _ _ _)
    | sleep stage c' lk next => rwa [hctl] at howes

/-- A process acquires the lock. -/
theorem acquire (h : m.Inv s) (hfree : s.holder () = none) (hok : pr.Ok m)
    (hholds : pr.holds m = true) (hknows : m.inv s.data → pr.Knows m s.data)
    (hcom : ∀ c, ¬ pr.Committed c) : m.Inv ((s.setHolder () (some p)).setProc p pr) where
  procs := procs_setProc h.procs hok
  mutex q := by
    by_cases hq : q = p
    · subst hq
      rw [State.setProc_self, hholds]
      simp [State.setHolder]
    rw [State.setProc_of_ne _ pr hq]
    have hno := (h.mutex q).not.mp (by simp [hfree])
    simp only [State.setProc_holder, State.setHolder, update_self, some.injEq]
    exact iff_of_false (fun heq => hq heq.symm) hno
  free hnone := by simp [State.setHolder] at hnone
  knows q hq := by
    simp only [State.setProc_holder, State.setHolder, update_self, some.injEq] at hq
    subst hq
    rw [State.setProc_self]
    exact hknows (h.free hfree)
  waits q c hc := by
    have hqp : q ≠ p := by
      intro heq
      subst heq
      rw [State.setProc_self] at hc
      exact hcom c hc
    rw [State.setProc_of_ne _ pr hqp] at hc
    obtain hcond | ⟨r, hr, -⟩ := h.waits q c hc
    · exact .inl hcond
    · exact absurd (hfree.symm.trans hr) (by simp)

/-- The holder releases the lock, with all its debts paid. -/
theorem release (h : m.Inv s) (hp : s.holder () = some p) (hok : pr.Ok m)
    (hholds : pr.holds m = false) (hinv : m.inv s.data)
    (hcom : ∀ c, pr.Committed c → m.cond c s.data)
    (hdebt : ∀ q c, (s.proc p).Owes m s.data q c → m.cond c s.data) :
    m.Inv ((s.setHolder () none).setProc p pr) where
  procs := procs_setProc h.procs hok
  mutex q := by
    simp only [State.setProc_holder, State.setHolder, update_self]
    by_cases hq : q = p
    · subst hq
      rw [State.setProc_self, hholds]
      simp
    rw [State.setProc_of_ne _ pr hq]
    have hno : ¬ ((s.proc q).holds m = true) := by
      intro hq'
      have heq := hp.symm.trans ((h.mutex q).mpr hq')
      exact hq (some.inj heq).symm
    exact iff_of_false (by simp) hno
  free _ := hinv
  knows q hq := by simp [State.setHolder] at hq
  waits q c hc := by
    refine .inl ?_
    by_cases hqp : q = p
    · subst hqp
      rw [State.setProc_self] at hc
      exact hcom c hc
    rw [State.setProc_of_ne _ pr hqp] at hc
    obtain hcond | ⟨r, hr, howes⟩ := h.waits q c hc
    · exact hcond
    cases hp.symm.trans hr
    exact hdebt q c howes

end Monitor.Inv

/-! ## Steps and runs -/

section Steps

variable {m : Monitor σ Loc χ} {code : Code σ Loc χ Unit ε} {s t : State σ Loc χ Unit}
  {p : Fin NPROC} {loc next : Loc}

theorem Proc.Awake.setCtl {pr : Proc Loc χ Unit} (h : pr.Awake) (ctl : Ctl Loc χ Unit) :
    ({ pr with ctl := ctl } : Proc Loc χ Unit).Awake := ⟨h.chan, h.locked, h.state⟩

/-- Going to another location with the lock as it is. -/
theorem Monitor.Inv.moves (h : m.Inv s) (hctl : (s.proc p).ctl = .code loc)
    (hm : m.Moves loc next (s.proc p).killed) : m.Inv (s.setCtl p (.code next)) := by
  have hawake : (s.proc p).Awake := by simpa [Proc.Ok, hctl] using h.procs p
  have hloc : (s.proc p).holds m = m.holds loc := by simp [Proc.holds, hctl]
  obtain ⟨hholds, hmove⟩ := hm
  have hpre : s.holder () = some p → m.holds loc = true ∧ m.pre loc (s.proc p).killed s.data := by
    intro hp
    refine ⟨?_, ?_⟩
    · rw [← hloc]
      exact (h.mutex p).mp hp
    · simpa [Proc.Knows, hctl] using h.knows p hp
  apply h.setProc
  · exact hawake.setCtl _
  · rwa [hloc]
  · intro hp _
    exact (hmove (hpre hp).1 _ (hpre hp).2).1
  · intro c hc
    exact hc.elim
  · intro hp q c _ _ howes
    have howes' : m.owes loc (s.proc p).killed s.data c := by simpa [Proc.Owes, hctl] using howes
    exact (hmove (hpre hp).1 _ (hpre hp).2).2 c howes'

/-- An instruction keeps the invariant. -/
theorem Monitor.Inv.exec [DecidableEq χ] (hs : m.Sound code) (h : m.Inv s)
    (hctl : (s.proc p).ctl = .code loc) (hstep : s.exec p (code.instr loc) = some t) : m.Inv t := by
  have hok := hs.instr loc
  have hawake : (s.proc p).Awake := by simpa [Proc.Ok, hctl] using h.procs p
  have hloc : (s.proc p).holds m = m.holds loc := by simp [Proc.holds, hctl]
  have hpre : m.holds loc = true → s.holder () = some p ∧ m.pre loc (s.proc p).killed s.data := by
    intro hl
    have hp := (h.mutex p).mpr (hloc.trans hl)
    exact ⟨hp, by simpa [Proc.Knows, hctl] using h.knows p hp⟩
  have hdebt : ∀ q c, (s.proc p).Owes m s.data q c → m.owes loc (s.proc p).killed s.data c := by
    intro q c howes
    simpa [Proc.Owes, hctl] using howes
  cases hi : code.instr loc with
  | acquire lk next =>
    rw [hi] at hok hstep
    obtain ⟨hno, henter⟩ := hok
    simp only [State.exec] at hstep
    split at hstep
    · rename_i hfree
      cases hstep
      exact h.acquire hfree (hawake.setCtl _) henter.1 (henter.2 _ _) (fun c hc => hc)
    · cases hstep
  | release lk next =>
    rw [hi] at hok hstep
    obtain ⟨hl, hno, hrel⟩ := hok
    simp only [State.exec] at hstep
    split at hstep
    · rename_i hp
      cases hstep
      obtain ⟨hinv, hpaid⟩ := hrel _ _ (hpre hl).2
      exact h.release hp (hawake.setCtl _) hno hinv (fun c hc => hc.elim)
        (fun q c howes => hpaid c (hdebt q c howes))
    · cases hstep
  | access f =>
    rw [hi] at hok hstep
    simp only [State.exec, map_eq_some_iff] at hstep
    obtain ⟨⟨d, next⟩, hf, rfl⟩ := hstep
    obtain ⟨hholds, houtside, hinside⟩ := hok _ _ _ _ hf
    cases hl : m.holds loc with
    | false =>
      have hd : d = s.data := houtside hl
      subst hd
      apply h.setProc_of_not_holds
      · exact hawake.setCtl _
      · exact hloc.trans hl
      · exact hholds.trans hl
      · intro c hc
        exact hc.elim
    | true =>
      obtain ⟨hp, hknow⟩ := hpre hl
      obtain ⟨hknow', howes'⟩ := hinside hl _ hknow
      apply h.setData hp
      · exact hawake.setCtl _
      · exact hholds.trans hl
      · exact hknow'
      · intro c hc
        exact hc
      · intro q c hold
        exact howes' c (hold.imp_right (hdebt q c))
  | killed next =>
    rw [hi] at hok hstep
    simp only [State.exec] at hstep
    split at hstep
    · cases hstep
    cases hstep
    exact h.moves hctl (hok _)
  | copyin srcva len next =>
    rw [hi] at hok hstep
    simp only [State.exec, some.injEq] at hstep
    subst hstep
    exact h.moves hctl (hok _ _)
  | copyout dstva src next =>
    rw [hi] at hok hstep
    simp only [State.exec, some.injEq] at hstep
    subst hstep
    have hmoved := h.moves hctl (hok (copyoutRam (s.pagetable p) s.ram dstva src).1 _)
    exact ⟨hmoved.procs, hmoved.mutex, hmoved.free, hmoved.knows, hmoved.waits⟩
  | sleep chan lk next =>
    rw [hi] at hok hstep
    obtain ⟨hl, henter, hsleep⟩ := hok
    simp only [State.exec] at hstep
    split at hstep
    · cases hstep
    cases hstep
    obtain ⟨hp, hknow⟩ := hpre hl
    obtain ⟨hinv, hcond, hpaid⟩ := hsleep _ _ hknow
    apply h.setProc
    · exact ⟨henter, hawake.chan, rfl, hawake.state⟩
    · exact (hloc.trans hl).symm
    · intro _ _
      exact ⟨hinv, hcond⟩
    · intro c hc
      cases hc
      exact .inr hcond
    · intro _ q c _ _ howes
      exact .inl (hpaid c (hdebt q c howes))
  | wakeup chan next =>
    rw [hi] at hok hstep
    obtain ⟨hholds, hwake⟩ := hok
    simp only [State.exec, some.injEq] at hstep
    subst hstep
    apply h.setProc
    · exact hawake.setCtl _
    · exact hholds.trans hloc.symm
    · intro hp _
      have hl := hloc.symm.trans ((h.mutex p).mp hp)
      exact (hwake hl _ _ (hpre hl).2).1
    · intro c hc
      exact hc.elim
    intro hp q c _ _ howes
    have hl := hloc.symm.trans ((h.mutex p).mp hp)
    obtain rfl | hcond | howes' := (hwake hl _ _ (hpre hl).2).2 c (hdebt q c howes)
    · exact .inr (.inl ⟨rfl, Nat.zero_le _⟩)
    · exact .inl hcond
    · exact .inr (.inr howes')
  | ret r =>
    rw [hi] at hstep
    cases hstep

/-- A stage of `sleep` keeps the invariant. -/
theorem Monitor.Inv.execSleep [DecidableEq χ] (h : m.Inv s) {stage : Stage} {c : χ} {lk : Unit}
    (hctl : (s.proc p).ctl = .sleep stage c lk next)
    (hstep : s.execSleep p c lk next stage = some t) : m.Inv t := by
  have hok : (s.proc p).Ok m := h.procs p
  simp only [Proc.Ok, hctl] at hok
  obtain ⟨henter, hok⟩ := hok
  cases stage with
  | locked =>
    simp only [State.execSleep] at hstep
    split at hstep
    · rename_i hp
      cases hstep
      have hknow : m.inv s.data ∧ m.cond c s.data := by simpa [Proc.Knows, hctl] using h.knows p hp
      apply h.release hp
      · exact ⟨henter, hok⟩
      · rfl
      · exact hknow.1
      · intro c' hc
        cases hc
        exact hknow.2
      · intro q c' howes
        simp [Proc.Owes, hctl] at howes
    · cases hstep
  | released =>
    cases hstep
    apply h.setProc_of_not_holds
    · exact ⟨henter, rfl, hok.2.1⟩
    · simp [Proc.holds, hctl]
    · rfl
    · intro c' hc
      simpa [Proc.Committed, hctl] using hc
  | marked =>
    cases hstep
    apply h.setProc_of_not_holds
    · exact ⟨henter, hok.1, rfl⟩
    · simp [Proc.holds, hctl]
    · rfl
    · intro c' hc
      simpa [Proc.Committed, hctl] using hc.1
  | switched => cases hstep
  | resumed =>
    cases hstep
    apply h.setProc_of_not_holds
    · exact ⟨henter, rfl, rfl, hok.2.2⟩
    · simp [Proc.holds, hctl]
    · rfl
    · intro c' hc
      exact hc.elim
  | tidied =>
    simp only [State.execSleep] at hstep
    split at hstep
    · rename_i hfree
      cases hstep
      exact h.acquire hfree (Proc.Awake.setCtl hok _) henter.1 (henter.2 _ _) (fun c hc => hc)
    · cases hstep

/-- The entry still agrees when the process has not fallen asleep. -/
theorem Proc.Ok.update {pr pr' : Proc Loc χ Unit} (h : pr.Ok m) (hctl : pr'.ctl = pr.ctl)
    (hchan : pr'.chan = pr.chan) (hlocked : pr'.locked = pr.locked)
    (hstate : pr'.state = .sleeping → pr.state = .sleeping) : pr'.Ok m := by
  unfold Proc.Ok at h ⊢
  have hawake : pr.Awake → pr'.Awake := fun ha =>
    ⟨hchan.trans ha.chan, hlocked.trans ha.locked, fun hst => ha.state (hstate hst)⟩
  cases hpr : pr.ctl with
  | code | wakeup =>
    rw [hpr] at h
    rw [hctl, hpr]
    exact hawake h
  | sleep stage c lk next =>
    rw [hpr] at h
    rw [hctl, hpr]
    refine ⟨h.1, ?_⟩
    cases stage with
    | locked | released | resumed =>
      exact ⟨hchan.trans h.2.1, hlocked.trans h.2.2.1, fun hst => h.2.2.2 (hstate hst)⟩
    | marked | switched => exact ⟨hchan.trans h.2.1, hlocked.trans h.2.2⟩
    | tidied => exact hawake h.2

/-- A process leaves `SLEEPING`, or changes between other states. -/
theorem Monitor.Inv.setState (h : m.Inv s) {st : RunState} (hst : st ≠ .sleeping) :
    m.Inv (s.setProc p { s.proc p with state := st }) := by
  apply h.setProc
  · exact (h.procs p).update rfl rfl rfl fun heq => absurd heq hst
  · rfl
  · intro _ hknow
    exact hknow
  · intro c hc
    unfold Proc.Committed at hc ⊢
    split at hc <;> simp_all
  · intro _ q c _ _ howes
    exact .inr howes

/-- Where the holder can be killed without forgetting anything. -/
def Monitor.KillableAt (m : Monitor σ Loc χ) : Ctl Loc χ Unit → Prop
  | .code loc => m.Killable loc
  | .wakeup _ _ next => m.Killable next
  | .sleep _ _ _ _ => True

/-- Setting `p->killed`. -/
theorem Monitor.Inv.setKilled (h : m.Inv s) (hkill : m.KillableAt (s.proc p).ctl) :
    m.Inv (s.setProc p { s.proc p with killed := true }) := by
  apply h.setProc
  · exact (h.procs p).update rfl rfl rfl id
  · rfl
  · intro hp hknow
    have hholds := (h.mutex p).mp hp
    unfold Proc.Knows at hknow ⊢
    unfold Proc.holds at hholds
    cases hctl : (s.proc p).ctl with
    | code | wakeup =>
      simp only [hctl, Monitor.KillableAt] at hknow hholds hkill ⊢
      cases hk : (s.proc p).killed with
      | true => rwa [hk] at hknow
      | false => exact (hkill hholds _ (hk ▸ hknow)).1
    | sleep stage c lk next =>
      rw [hctl] at hknow
      cases stage <;> exact hknow
  · intro c hc
    exact .inl hc
  intro hp q c _ _ howes
  have hholds := (h.mutex p).mp hp
  have hknow := h.knows p hp
  unfold Proc.Knows at hknow
  unfold Proc.holds at hholds
  unfold Proc.Owes at howes ⊢
  cases hctl : (s.proc p).ctl with
  | code loc =>
    simp only [hctl, Monitor.KillableAt] at hknow hholds hkill howes ⊢
    cases hk : (s.proc p).killed with
    | true => exact .inr (by rwa [hk] at howes)
    | false => exact (hkill hholds _ (hk ▸ hknow)).2 c (hk ▸ howes)
  | wakeup c' i next =>
    simp only [hctl, Monitor.KillableAt] at hknow hholds hkill howes ⊢
    obtain hlater | howes := howes
    · exact .inr (.inl hlater)
    cases hk : (s.proc p).killed with
    | true => exact .inr (.inr (by rwa [hk] at howes))
    | false => exact ((hkill hholds _ (hk ▸ hknow)).2 c (hk ▸ howes)).imp_right Or.inr
  | sleep stage c lk next => simp [hctl] at howes

/-- Nobody who has been looked at sleeps on the channel. -/
theorem Proc.Ok.not_committed_wakeOn [DecidableEq χ] {pr : Proc Loc χ Unit} (h : pr.Ok m)
    (hfree : pr.locked = false) (c : χ) : ¬ (pr.wakeOn c).Committed c := by
  intro hcom
  have hctl : (pr.wakeOn c).ctl = pr.ctl := by
    unfold Proc.wakeOn
    split <;> rfl
  unfold Proc.Ok at h
  unfold Proc.Committed at hcom
  rw [hctl] at hcom
  cases hpr : pr.ctl with
  | code loc => simp [hpr] at hcom
  | wakeup c' i next => simp [hpr] at hcom
  | sleep stage c' lk next =>
    rw [hpr] at h hcom
    cases stage with
    | switched =>
      obtain ⟨rfl, hstate⟩ := hcom
      have hchan : pr.chan = some c' := h.2.1
      unfold Proc.wakeOn at hstate
      split at hstate
      · cases hstate
      rename_i hno
      exact hno ⟨hstate, hchan⟩
    | locked | released | marked => simp_all
    | resumed | tidied => exact hcom

/-- One round of `wakeup` keeps the invariant: the process that it looks at
does not sleep on the channel afterwards. -/
theorem Monitor.Inv.execWakeup [DecidableEq χ] (h : m.Inv s) {c : χ} {i : Nat}
    (hctl : (s.proc p).ctl = .wakeup c i next)
    (hstep : s.execWakeup p c i next = some t) : m.Inv t := by
  have hawake : (s.proc p).Awake := by simpa [Proc.Ok, hctl] using h.procs p
  -- `p` itself goes on to the next entry, in a state in which entry `i` is done
  have hround : ∀ s' : State σ Loc χ Unit, m.Inv s' → s'.proc p = s.proc p →
      (∀ q : Fin NPROC, q.val = i → q ≠ p → ¬ (s'.proc q).Committed c) →
      m.Inv (s'.setCtl p (.wakeup c (i + 1) next)) := by
    intro s' h' hp' hdone
    have hctl' : (s'.proc p).ctl = .wakeup c i next := by rw [hp', hctl]
    apply h'.setProc
    · rw [hp']
      exact hawake.setCtl _
    · simp [Proc.holds, hctl']
    · intro _ hknow
      simpa [Proc.Knows, hctl'] using hknow
    · intro c' hc
      exact hc.elim
    intro _ q c' hqp hcom howes
    refine .inr ?_
    simp only [Proc.Owes, hctl'] at howes
    obtain ⟨rfl, hle⟩ | howes := howes
    · have hne : i ≠ q.val := fun heq => hdone q heq.symm hqp hcom
      exact .inl ⟨rfl, by omega⟩
    · exact .inr howes
  unfold State.execWakeup at hstep
  split at hstep
  · rename_i hi
    simp only at hstep
    split at hstep
    · rename_i hself
      cases hstep
      apply hround s h rfl
      intro q hq hqp
      exact absurd (Fin.ext (hq.trans (congrArg Fin.val hself))) hqp
    rename_i hne
    split at hstep
    · cases hstep
    rename_i hfree
    cases hstep
    have hlocked : (s.proc ⟨i, hi⟩).locked = false := by simpa using hfree
    have hwoken : m.Inv (s.setProc ⟨i, hi⟩ ((s.proc ⟨i, hi⟩).wakeOn c)) := by
      unfold Proc.wakeOn
      split
      · exact h.setState (by simp)
      · simpa [State.setProc] using h
    apply hround _ hwoken
    · exact s.setProc_of_ne _ (Ne.symm hne)
    intro q hq _
    rw [show q = ⟨i, hi⟩ from Fin.ext hq, State.setProc_self]
    exact (h.procs _).not_committed_wakeOn hlocked c
  · cases hstep
    apply h.setProc
    · exact hawake.setCtl _
    · simp [Proc.holds, hctl]
    · intro _ hknow
      simpa [Proc.Knows, hctl] using hknow
    · intro c' hc
      exact hc.elim
    intro _ q c' _ _ howes
    simp only [Proc.Owes, hctl] at howes
    obtain ⟨-, hle⟩ | howes := howes
    · have := q.isLt
      omega
    · exact .inr howes

/-- The scheduler keeps the invariant. -/
theorem Monitor.Inv.schedule (h : m.Inv s) (hstep : s.schedule p = some t) : m.Inv t := by
  unfold State.schedule at hstep
  split at hstep
  · split at hstep
    · rename_i c lk next hctl
      cases hstep
      have hok := h.procs p
      simp only [Proc.Ok, hctl] at hok
      apply h.setProc_of_not_holds
      · exact ⟨hok.1, hok.2.1, rfl, by simp⟩
      · simp [Proc.holds, hctl]
      · rfl
      · intro c' hc
        exact hc.elim
    · cases hstep
      exact h.setState (by simp)
  · cases hstep

/-- Waking a process keeps the invariant. -/
theorem Monitor.Inv.wake (h : m.Inv s) (p : Fin NPROC) : m.Inv (s.setProc p (s.proc p).wake) := by
  unfold Proc.wake
  split
  · exact h.setState (by simp)
  · simpa [State.setProc] using h

/-- A process that sleeps while the lock is free waits for a good reason. -/
theorem Monitor.Inv.cond_of_sleeping (h : m.Inv s) (hfree : s.holder () = none) {c : χ}
    (hstate : (s.proc p).state = .sleeping) (hchan : (s.proc p).chan = some c) :
    m.cond c s.data := by
  have hok := h.procs p
  have hcom : (s.proc p).Committed c := by
    unfold Proc.Ok at hok
    unfold Proc.Committed
    cases hctl : (s.proc p).ctl with
    | code loc | wakeup c' i next =>
      rw [hctl] at hok
      exact absurd hstate hok.state
    | sleep stage c' lk next =>
      rw [hctl] at hok
      cases stage with
      | locked | released | resumed => exact absurd hstate hok.2.2.2
      | marked => exact some.inj (hok.2.1.symm.trans hchan)
      | switched => exact ⟨some.inj (hok.2.1.symm.trans hchan), hstate⟩
      | tidied => exact absurd hstate hok.2.state
  obtain hcond | ⟨q, hq, -⟩ := h.waits p c hcom
  · exact hcond
  · exact absurd (hfree.symm.trans hq) (by simp)

/-- A kill keeps the invariant where it makes the holder forget nothing. -/
theorem Monitor.Inv.kill (h : m.Inv s) (hkill : m.KillableAt (s.proc p).ctl)
    (hstep : s.kill p = some t) : m.Inv t := by
  unfold State.kill at hstep
  split at hstep
  · cases hstep
  cases hstep
  have hwoken := h.wake p
  have hctl : (s.proc p).wake.ctl = (s.proc p).ctl := by
    unfold Proc.wake
    split <;> rfl
  have hkilled := hwoken.setKilled (p := p) (by rwa [State.setProc_self, hctl])
  simpa [State.setProc] using hkilled

variable [DecidableEq χ]

/-- A step of process `p` keeps the invariant. -/
theorem Monitor.Inv.run (hs : m.Sound code) (h : m.Inv s) (hstep : s.run code p = some t) :
    m.Inv t := by
  unfold State.run at hstep
  split at hstep
  · rename_i loc hctl
    split at hstep
    · exact h.exec hs hctl hstep
    · cases hstep
  · rename_i stage c lk next hctl
    split at hstep
    · exact h.execSleep hctl hstep
    · cases hstep
  · rename_i c i next hctl
    split at hstep
    · exact h.execWakeup hctl hstep
    · cases hstep

/-- The steps in which a kill makes no holder forget anything. -/
def Monitor.Allows (m : Monitor σ Loc χ) (s : State σ Loc χ Unit) : Label Loc ε → Prop
  | .kill p => m.KillableAt (s.proc p).ctl
  | _ => True

/-- Every step keeps the invariant. -/
theorem Monitor.Inv.step (hs : m.Sound code) (h : m.Inv s) {l : Label Loc ε}
    (hallow : m.Allows s l) (hstep : Steps code s l t) : m.Inv t := by
  unfold Steps at hstep
  cases l with
  | run p => exact h.run hs hstep
  | schedule p => exact h.schedule hstep
  | yield p =>
    simp only [State.step, State.yield] at hstep
    split at hstep
    · cases hstep
      exact h.setState (by simp)
    · cases hstep
  | kill p => exact h.kill hallow hstep
  | expire p =>
    simp only [State.step, State.expire] at hstep
    split at hstep
    · cases hstep
    cases hstep
    exact h.wake p
  | start p loc =>
    simp only [State.step, State.start] at hstep
    split at hstep
    · rename_i l hctl
      split at hstep
      · rename_i r hret
        split at hstep
        · rename_i hentry
          cases hstep
          have hawake : (s.proc p).Awake := by simpa [Proc.Ok, hctl] using h.procs p
          have hno : m.holds l = false := by
            have hok := hs.instr l
            rwa [hret] at hok
          apply h.setProc_of_not_holds
          · exact hawake.setCtl _
          · simpa [Proc.holds, hctl] using hno
          · exact hs.entry loc hentry.2
          · intro c hc
            exact hc.elim
        · cases hstep
      · cases hstep
    · cases hstep
  | env e =>
    cases hstep
    exact h.env hs e
  | user ram =>
    cases hstep
    exact ⟨h.procs, h.mutex, h.free, h.knows, h.waits⟩

/-- No process is in a call, and the lock is free. -/
structure Quiescent (code : Code σ Loc χ Unit ε) (s : State σ Loc χ Unit) : Prop where
  holder : s.holder () = none
  outside : ∀ p, ∃ loc r, (s.proc p).ctl = .code loc ∧ code.instr loc = .ret r
  awake : ∀ p, (s.proc p).Awake

omit [DecidableEq χ] in
theorem State.idle_quiescent {d : σ} {ram : Ram} {pt : PageTable} {r : Int}
    (h : code.instr loc = .ret r) :
    Quiescent code (State.idle d loc ram pt : State σ Loc χ Unit) where
  holder := rfl
  outside _ := ⟨loc, r, rfl, h⟩
  awake _ := ⟨rfl, rfl, by simp [State.idle]⟩

omit [DecidableEq χ] in
/-- The invariant holds before the first call. -/
theorem Monitor.Inv.start (hs : m.Sound code) (hquiet : Quiescent code s)
    (hinv : m.inv s.data) : m.Inv s where
  procs p := by
    obtain ⟨loc, r, hctl, -⟩ := hquiet.outside p
    simpa [Proc.Ok, hctl] using hquiet.awake p
  mutex p := by
    obtain ⟨loc, r, hctl, hret⟩ := hquiet.outside p
    have hno : m.holds loc = false := by
      have hok := hs.instr loc
      rwa [hret] at hok
    simp [hquiet.holder, Proc.holds, hctl, hno]
  free _ := hinv
  knows p hp := by
    rw [hquiet.holder] at hp
    cases hp
  waits p c hc := by
    obtain ⟨loc, r, hctl, -⟩ := hquiet.outside p
    simp [Proc.Committed, hctl] at hc

omit [DecidableEq χ] in
/-- Where no holder ever forgets anything, every step is allowed. -/
theorem Monitor.allows_of_killable (hkill : ∀ loc, m.Killable loc) (s : State σ Loc χ Unit)
    (l : Label Loc ε) : m.Allows s l := by
  cases l with
  | kill p =>
    show m.KillableAt (s.proc p).ctl
    cases (s.proc p).ctl with
    | code loc => exact hkill loc
    | wakeup c i next => exact hkill next
    | sleep stage c lk next => trivial
  | run | schedule | yield | expire | start | env | user => trivial

omit [DecidableEq χ] in
/-- What the holder of the lock keeps at each of its locations holds in every
state. -/
theorem Monitor.Inv.holds_always (h : m.Inv s) (hpre : ∀ loc k d, m.pre loc k d → m.inv d) :
    m.inv s.data := by
  cases hholder : s.holder () with
  | none => exact h.free hholder
  | some p =>
    have hknow := h.knows p hholder
    have hholds := (h.mutex p).mp hholder
    unfold Proc.Knows at hknow
    unfold Proc.holds at hholds
    cases hctl : (s.proc p).ctl with
    | code | wakeup =>
      rw [hctl] at hknow
      exact hpre _ _ _ hknow
    | sleep stage c lk next =>
      rw [hctl] at hknow hholds
      cases stage with
      | locked => exact hknow.1
      | released | marked | switched | resumed | tidied => cases hholds

/-- The invariant holds along every run whose kills make no holder forget
anything. -/
theorem Monitor.Inv.of_run (hs : m.Sound code) (h : m.Inv s) {ls : List (Label Loc ε)}
    (hrun : Run (fun s l t => m.Allows s l ∧ Steps code s l t) s ls t) : m.Inv t :=
  hrun.inv h fun _ _ _ h hstep => h.step hs hstep.1 hstep.2

end Steps

end Xv6.Sched
