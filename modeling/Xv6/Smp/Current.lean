import Xv6.Smp.Invariant

/-!
# Every step keeps the invariant

One lemma for each function of `kernel/proc.c` and `proj3`, with one case for
each of its locations, and from them the agreement of `p->state` and `c->proc`
in every reachable state.
-/

namespace Xv6.Smp

open Function Lib Loc Option Sched State Thread

attribute [local simp] Loc.locks

variable {n : Nat} {s t : State n} {c : Fin n} {b : Bool} {p q : Slot} {L next : Loc}
  {l : Lock} {T : Thread n}

/-! ## Instructions of a process that leaves its CPU -/

namespace Inv

theorem wf_here (h : Inv s) (hact : s.active c = T) (hL : s.here c = L) : L.Wf T.slot := by
  have hwf := h.wf (s.active c)
  rwa [← here, hL, hact] at hwf

theorem locks_here (hact : s.active c = T) (hL : s.here c = L) : s.locks c = L.locks T.slot := by
  rw [State.locks, hL, hact]

/-- An access with which a process stops being `RUNNING`. -/
theorem of_stop (h : Inv s) (hact : s.active c = .proc p) (hL : s.here c = L)
    {f : Proc → Proc × Loc} (hstep : s.exec c b (.access p f) = some t)
    (hlock : .proc p ∈ L.locks (some p)) (hstay : L.leaving = false)
    (hleave : (f (s.proc p)).2.leaving = true) (hpick : (f (s.proc p)).2.pick = none)
    (hst : (f (s.proc p)).1.state ≠ .running) (hwf : (f (s.proc p)).2.Wf (some p))
    (hlocks : ∀ l ∈ (f (s.proc p)).2.locks (some p), l ∈ L.locks (some p))
    (hknows : (f (s.proc p)).2.knows = none) (hmaking : (f (s.proc p)).2.making = L.making)
    (hmade : (f (s.proc p)).2.made = L.made)
    (hdying : (f (s.proc p)).2.dying = true → (f (s.proc p)).1.state = .zombie) : Inv t := by
  cases hstep
  generalize (f (s.proc p)).1 = pr, (f (s.proc p)).2 = next at *
  have hself : ((s.setEntry p pr).setLoc c next).proc p = pr := by simp [setEntry, setLoc]
  have hother : ∀ q, q ≠ p → ((s.setEntry p pr).setLoc c next).proc q = s.proc q := fun q hq => by
    simp [setEntry, setLoc, hq]
  have hrun := h.running_of_current (h.active c p hact).1 (hL ▸ hstay)
  have hslot : (s.active c).slot = some p := by rw [hact]; rfl
  refine h.of_mark (.setLoc h (hslot ▸ hwf) ?_ rfl rfl rfl) hact rfl (hL ▸ hstay) hleave hpick ?_
    (fun q hq => by rw [hother q hq]) (by rwa [hself]) ⟨?_, ?_, ?_, ?_⟩
  · rwa [hslot, locks_here hact hL]
  · rwa [locks_here hact hL]
  · rw [hknows]
    exact of_none₂
  · intro np hm
    rw [hmaking, ← hL] at hm
    refine ⟨?_, fun T hT => h.distinct T _ np hT hm⟩
    have hused := h.making _ np hm
    rw [hother np fun heq => by rw [heq, hrun] at hused; cases hused]
    exact hused
  · intro np hm
    rw [hmade, ← hL] at hm
    exact ⟨h.made _ np hm, h.not_active_of_made hm⟩
  · intro q hd hq
    obtain rfl : p = q := by rw [hact] at hq; cases hq; rfl
    rw [hself]
    exact hdying hd

/-- `sched` switches to the scheduler of the CPU. -/
theorem of_sched (h : Inv s) (hact : s.active c = .proc p) (hL : s.here c = L)
    (hstep : s.exec c b (.sched next) = some t) (hleave : L.leaving = true) (hwf : next.Wf (some p))
    (hparked : next.parked = true ∨ (next.dead = true ∧ L.dying = true))
    (hknows : next.knows = none) (hmaking : next.making = L.making)
    (hmade : next.made = L.made) (hdying : next.dying = false) : Inv t := by
  obtain ⟨hcur, hback⟩ := h.active c p hact
  have ht : { s.setLoc c next with active := update s.active c (.sched c) } = t := by
    simp only [State.exec, hcur] at hstep
    split at hstep
    · simpa using hstep
    · cases hstep
  subst ht
  have hsched : s.loc (.sched c) = .sched p .back := by
    generalize s.loc (.sched c) = M at *
    cases M with
    | sched i at_ => cases at_ <;> simp_all [pick]
    | _ => simp [pick] at hback
  have hpick : (s.here c).pick = none := h.pick_of_proc hact
  subst hL
  refine h.of_switch (T := .sched c) rfl rfl rfl rfl rfl (by rw [hact]; rintro ⟨⟩)
    (by rw [hact]; exact hwf) ?_ (fun c' hc' => (sched.inj hc').symm) (by simp)
    (fun q _ => ?_) ?_ (fun q => ?_) (fun q hq => ?_) hknows hmaking hmade hdying
  · rw [hsched]
    simp only [Loc.locks, reduceCtorEq, if_false, List.mem_singleton, forall_eq]
    exact h.locks c _ (h.lock_of_leaving hcur hleave)
  · rw [hsched, hcur]
    simp [pick]
  · rw [hsched, hleave]
    rfl
  · rw [hsched, hpick]
    simp [pick]
  · obtain rfl : p = q := by rw [hact] at hq; cases hq; rfl
    refine hparked.imp_right fun hd => ⟨hd.1, ?_⟩
    rw [h.dying p (by rw [← hact]; exact hd.2)]
    rfl

end Inv

/-! ## The functions -/

/-- `yield` and `sys_wait_until_next_period`. -/
theorem Inv.switch (h : Inv s) {at_ : SwitchAt} {st : RunState} (hact : s.active c = .proc p)
    (hL : s.here c = .switch at_ st next)
    (hstep : s.exec c b (switch st next p at_) = some t) : Inv t := by
  obtain ⟨hme, hst, hnext, hwf⟩ := h.wf_here hact hL
  have hwf' : ∀ at_, (Loc.switch at_ st next).Wf (some p) := fun _ => ⟨hme, hst, hnext, hwf⟩
  cases at_ with
  | lock =>
    exact h.of_acquire hact hL hstep (.of_eq rfl) (hwf' .mark) (by simp [slot])
  | mark =>
    exact h.of_stop hact hL hstep (by simp) rfl rfl rfl
      (by rcases hst with rfl | rfl <;> simp) (hwf' .sched) (by simp) rfl rfl rfl
      of_false
  | sched => exact h.of_sched hact hL hstep rfl (hwf' .unlock) (.inl rfl) rfl rfl rfl rfl
  | unlock =>
    exact h.of_release hact hL hstep (.to_next hwf (by simp [hnext]) rfl) hwf
      (by simp only [slot] at hnext ⊢; simp [hnext])

/-- `sleep`. -/
theorem Inv.sleep (h : Inv s) {at_ : SleepAt} {chan : Chan} {lk : Lock}
    (hact : s.active c = .proc p) (hL : s.here c = .sleep at_ chan lk next)
    (hstep : s.exec c b (sleep chan lk next p at_) = some t) : Inv t := by
  obtain ⟨hme, hnext, hlk, hwf⟩ := h.wf_here hact hL
  have hwf' : ∀ at_, (Loc.sleep at_ chan lk next).Wf (some p) := fun _ => ⟨hme, hnext, hlk, hwf⟩
  have hno : ∀ q, .proc q ∉ next.locks (some p) := by
    intro q hq
    simp only [slot] at hnext
    rw [hnext, List.mem_singleton] at hq
    exact hlk q hq.symm
  simp only [slot] at hnext
  cases at_ with
  | enter =>
    exact h.of_holding hact hL hstep
      ⟨.to_next hwf hno rfl, hwf, by simp [slot, hnext]⟩
      ⟨.of_eq rfl, hwf' .lock, by simp⟩
  | lock =>
    exact h.of_acquire hact hL hstep (.of_eq rfl) (hwf' .release) (by simp [slot])
  | release =>
    exact h.of_release hact hL hstep (.of_eq rfl) (hwf' .mark)
      (by simp [slot, (hlk p).symm])
  | mark =>
    exact h.of_stop hact hL hstep (by simp) rfl rfl rfl (by simp) (hwf' .sched)
      (by simp) rfl rfl rfl of_false
  | sched => exact h.of_sched hact hL hstep rfl (hwf' .tidy) (.inl rfl) rfl rfl rfl rfl
  | tidy => exact h.of_access hact hL hstep rfl ⟨.of_eq rfl, hwf' .unlock, by simp⟩
  | unlock => exact h.of_release hact hL hstep (.of_eq rfl) (hwf' .relock) (by simp)
  | relock => exact h.of_acquire hact hL hstep (.to_next hwf hno rfl) hwf (by simp [slot, hnext])

/-- Code that sleeps with a spinlock of its own. -/
theorem Inv.block (h : Inv s) {slept : Bool} {chan : Chan} {addr : Nat}
    (hact : s.active c = .proc p) (hL : s.here c = .block slept chan addr next)
    (hstep : s.exec c b (instr c (some p) (.block slept chan addr next)) = some t) : Inv t := by
  obtain ⟨hme, hnext, hwf⟩ := h.wf_here hact hL
  simp only [slot] at hnext
  cases slept with
  | false =>
    have hblock : (Loc.block true chan addr next).Wf (some p) := ⟨hme, hnext, hwf⟩
    exact h.of_acquire hact hL hstep (.of_eq rfl) ⟨hme, rfl, by simp, hblock⟩ (by simp)
  | true =>
    exact h.of_release hact hL hstep (.to_next hwf (by simp [slot, hnext]) rfl) hwf
      (by simp [slot, hnext])

/-- `wakeup`. -/
theorem Inv.wakeup (h : Inv s) {at_ : WakeupAt} {chan : Option Chan} {me : Option Slot}
    (hact : s.active c = T) (hL : s.here c = .wakeup at_ chan next)
    (hstep : s.exec c b (wakeup me chan next at_) = some t) : Inv t := by
  obtain ⟨hno, hwf⟩ := h.wf_here hact hL
  have hwf' : ∀ at_, (Loc.wakeup at_ chan next).Wf T.slot := fun _ => ⟨hno, hwf⟩
  cases at_ with
  | scan i =>
    rw [Smp.wakeup, forSlots] at hstep
    split at hstep
    · split at hstep
      · exact h.of_choose_loc hact hL hstep ⟨.of_eq rfl, hwf' _, by simp⟩
      · exact h.of_acquire hact hL hstep (.of_eq rfl) (hwf' (.test _)) (by simp)
    · exact h.of_choose_loc hact hL hstep ⟨.to_next hwf hno rfl, hwf, by simp⟩
  | test q =>
    refine h.of_wake hact hL hstep (by simp) ?_
      ⟨.of_eq rfl, hwf' (.unlock q), by simp⟩
    simp only [Proc.wakeOn]
    split
    · exact .inr ⟨by simp_all, rfl⟩
    · exact .inl rfl
  | unlock q =>
    exact h.of_release hact hL hstep (.of_eq rfl) (hwf' (.scan _)) (by
        intro l hl
        exact ⟨fun heq => hno q (heq ▸ hl), by simp only [Loc.locks] at hl ⊢; simp [hl]⟩)

/-- A function that looks at one entry under its lock. -/
theorem Inv.look (h : Inv s) {f : Proc → Proc} {loc : LookAt → Loc} {at_ : LookAt}
    (hact : s.active c = T) (hL : s.here c = loc at_)
    (hstep : s.exec c b (look q f loc next at_) = some t)
    (hf : ∀ pr, (f pr).state = pr.state ∨ (pr.state = .sleeping ∧ (f pr).state = .runnable))
    (hlocks : ∀ at_, (loc at_).locks T.slot = if at_ = .lock then [] else [.proc q])
    (hcalm : ∀ at_ at_', Calm (loc at_) (loc at_')) (hwf : ∀ at_, (loc at_).Wf T.slot)
    (hnext : Calm (loc .unlock) next) (hnwf : next.Wf T.slot) (hnlocks : next.locks T.slot = []) :
    Inv t := by
  cases at_ with
  | lock => exact h.of_acquire hact hL hstep (hcalm _ _) (hwf _) (by simp [hlocks])
  | look =>
    exact h.of_wake hact hL hstep (by simp [hlocks]) (hf _) ⟨hcalm _ _, hwf _, by simp [hlocks]⟩
  | unlock => exact h.of_release hact hL hstep hnext hnwf (by simp [hnlocks])

/-- `period_callback`. -/
theorem Inv.callback (h : Inv s) {at_ : LookAt} (hact : s.active c = T)
    (hL : s.here c = .callback at_ q next)
    (hstep : s.exec c b (periodCallback q next at_) = some t) : Inv t := by
  obtain ⟨hnext, hwf⟩ := h.wf_here hact hL
  refine h.look hact hL hstep (fun pr => ?_) (fun at_ => rfl)
    (fun _ _ => .of_eq rfl) (fun _ => ⟨hnext, hwf⟩)
    (.to_next hwf (by simp [hnext]) rfl) hwf hnext
  rw [Proc.wake]
  split
  · exact .inr ⟨‹_›, rfl⟩
  · exact .inl rfl

section

variable (h : Inv s) (hact : s.active c = .proc p)

include h hact

/-- `sys_set_cpu_affinity`. -/
theorem Inv.setCpuAffinity {at_ : LookAt} {mask : Int32} (hL : s.here c = .setCpuAffinity at_ mask)
    (hstep : s.exec c b (sysSetCpuAffinity mask p at_) = some t) : Inv t := by
  have hme := h.wf_here hact hL
  exact h.look hact hL hstep (fun _ => .inl rfl) (fun _ => rfl)
    (fun _ _ => .of_eq rfl) (fun _ => hme) (.of_eq rfl)
    hme rfl

/-- `sys_wait_until_next_period`, up to the switch. -/
theorem Inv.waitPeriod (hL : s.here c = .waitPeriod)
    (hstep : s.exec c b (sysWaitUntilNextPeriod p) = some t) : Inv t := by
  have hme := h.wf_here hact hL
  refine h.of_access hact hL hstep rfl ?_
  split
  · exact ⟨.of_eq rfl, hme, by simp⟩
  · exact ⟨.of_eq rfl, ⟨hme, .inr rfl, rfl, hme⟩, by simp⟩

/-- `sys_setperiod`. -/
theorem Inv.setperiod {at_ : PeriodAt} {period : Int} (hL : s.here c = .setperiod at_ period)
    (hstep : s.exec c b (sysSetperiod period p at_) = some t) : Inv t := by
  have hme := h.wf_here hact hL
  -- all the locations that follow hold no lock and promise nothing
  have huser : ∀ a0, Onward (some p) (.setperiod at_ period) (.user a0) := fun _ =>
    ⟨.of_eq rfl, hme, by simp⟩
  have hnext : ∀ a, Onward (some p) (.setperiod at_ period) (.setperiod a period) := fun _ =>
    ⟨.of_eq rfl, hme, by simp⟩
  cases at_ with
  | enter =>
    refine h.of_access hact hL hstep rfl ?_
    split
    · exact huser _
    · split <;> exact hnext _
  | kalloc =>
    refine h.of_choose_loc hact hL hstep ?_
    split
    · exact huser _
    · exact hnext _
  | forward => exact h.of_access hact hL hstep rfl (huser 0)

/-- `kill`. -/
theorem Inv.kill {at_ : KillAt} {pid : Int}
    (hL : s.here c = .kill at_ pid) (hstep : s.exec c b (kill pid at_) = some t) : Inv t := by
  have hme := h.wf_here hact hL
  cases at_ with
  | scan i =>
    rw [Smp.kill, forSlots] at hstep
    split at hstep
    · exact h.of_acquire hact hL hstep (.of_eq rfl) hme (by simp)
    · exact h.of_choose_loc hact hL hstep ⟨.of_eq rfl, hme, by simp⟩
  | test q =>
    refine h.of_wake hact hL hstep (by simp) ?_ ?_ <;> dsimp only <;>
      by_cases hpid : ((s.proc q).pid : Int) = pid
    · rw [if_pos hpid, Proc.wake]
      by_cases hsleep : (s.proc q).state = .sleeping
      · exact .inr ⟨hsleep, by simp [hsleep]⟩
      · exact .inl (by simp [hsleep])
    · rw [if_neg hpid]
      exact .inl rfl
    · rw [if_pos hpid]
      exact ⟨.of_eq rfl, hme, by simp⟩
    · rw [if_neg hpid]
      exact ⟨.of_eq rfl, hme, by simp⟩
  | hit q | miss q => exact h.of_release hact hL hstep (.of_eq rfl) hme (by simp)

end

/-! ## `fork` -/

section Fork

variable {np : Slot}

section

variable (h : Inv s) (hact : s.active c = .proc p)

include h hact

/-- `allocproc` finds an unused entry. -/
theorem Inv.fork_found (hL : s.here c = .fork (.test np)) (hfree : (s.proc np).state = .unused) :
    Inv ((s.setEntry np (s.proc np)).setLoc c (.fork (.allocpid np))) := by
  have hme := h.wf_here hact hL
  refine h.of_local (.setLoc h (by rw [hact]; exact hme) ?_ rfl rfl rfl) rfl (by rw [hL]; rfl)
    (by rw [hL]; rfl) (fun q => .inl (state_setEntry rfl q))
    ⟨fun q st hq => ?_, of_none, of_none, of_false₁⟩
  · rw [locks_here hact hL, hact]
    simp
  · obtain ⟨rfl, rfl⟩ : np = q ∧ RunState.unused = st := by simpa [Loc.knows] using hq
    rwa [state_setEntry rfl]

/-- `allocproc` takes the entry. -/
theorem Inv.fork_used {pid : Nat}
    (hL : s.here c = .fork (.used np pid)) {pr : Proc} (hpr : pr.state = .used) :
    Inv ((s.setEntry np pr).setLoc c (.fork (.trapframe np))) := by
  have hme := h.wf_here hact hL
  have hfree : (s.proc np).state = .unused :=
    h.knows (s.active c) np _ (by rw [← here, hL]; rfl)
  have hlock : .proc np ∈ s.locks c := by
    rw [locks_here hact hL]
    simp
  refine h.of_swap hlock ?_ (by rw [hfree]; decide) (by rw [hpr]; decide) (by rw [hL]; rfl)
    (by rw [hL]; rfl) (by rw [hact]; exact hme) ?_
    ⟨of_none₂, fun np' hnp' => ⟨?_, fun T hT => ?_⟩, of_none, of_false₁⟩
  · rw [hfree, hpr]
    exact .alloc
  · rw [locks_here hact hL, hact]
    simp
  · obtain rfl : np = np' := by simpa [Loc.making] using hnp'
    simpa [setEntry, setLoc] using hpr
  · obtain rfl : np = np' := by simpa [Loc.making] using hnp'
    have hused := h.making T np hT
    rw [hfree] at hused
    cases hused

/-- `fork` gives its child up, or lets it run. -/
theorem Inv.fork_done (hL : s.here c = .fork at_) (hlock : .proc np ∈ (Loc.fork at_).locks (some p))
    (hmaking : (Loc.fork at_).making = some np) {pr : Proc}
    (hswap : pr.state = .unused ∨ (pr.state = .runnable ∧ (Loc.fork at_).made = some np))
    {at_' : ForkAt}
    (hlocks : ∀ l ∈ (Loc.fork at_').locks (some p), l ∈ (Loc.fork at_).locks (some p))
    (hquiet : (Loc.fork at_').knows = none ∧ (Loc.fork at_').making = none ∧
      (Loc.fork at_').made = none) : Inv ((s.setEntry np pr).setLoc c (.fork at_')) := by
  have hme := h.wf_here hact hL
  have hused : (s.proc np).state = .used :=
    h.making (s.active c) np (by rw [← here, hL]; exact hmaking)
  refine h.of_swap (by rw [locks_here hact hL]; exact hlock) ?_ (by rw [hused]; decide) ?_
    (by rw [hL]; rfl) (by rw [hL]; rfl) (by rw [hact]; exact hme) ?_ ⟨?_, ?_, ?_, of_false₁⟩
  · rw [hused]
    rcases hswap with hpr | ⟨hpr, hmade⟩ <;> rw [hpr]
    · exact .undo (by rw [hL]; exact hmaking)
    · exact .ready (by rw [hL]; exact hmade)
  · rcases hswap with hpr | ⟨hpr, -⟩ <;> rw [hpr] <;> decide
  · rwa [locks_here hact hL, hact]
  · rw [hquiet.1]
    exact of_none₂
  · rw [hquiet.2.1]
    exact of_none
  · rw [hquiet.2.2]
    exact of_none

/-- `allocproc` sets up the context of the child. -/
theorem Inv.fork_context (hL : s.here c = .fork (.context np)) :
    Inv ({ s with loc := update s.loc (.proc np) .forkret }.setLoc c (.fork (.uvmcopy np))) := by
  have hme := h.wf_here hact hL
  have hmaking : (s.here c).making = some np := by rw [hL]; rfl
  have hidle := h.not_active_of_making hmaking
    (by rw [locks_here hact hL]; simp) (by rw [hL]; rfl)
  generalize hs1 : { s with loc := update s.loc (.proc np) .forkret } = s1
  have h1 : Inv s1 := by
    subst hs1
    exact h.of_forkret hidle rfl rfl rfl rfl rfl
  have hact1 : s1.active c = .proc p := by rw [← hs1]; exact hact
  have hL1 : s1.here c = .fork (.context np) := by
    rw [← hL, here, here, ← hs1]
    exact update_of_ne (hidle c) _ _
  refine h1.of_local (.setLoc h1 (by rw [hact1]; exact hme) ?_ rfl rfl rfl) rfl
    (by rw [hL1]; rfl) (by rw [hL1]; rfl) (fun q => .inl rfl)
    ⟨of_none₂, fun np' hnp' => ⟨?_, fun T hT => ?_⟩, fun np' hnp' => ⟨?_, ?_⟩, of_false₁⟩
  · rw [locks_here hact1 hL1, hact1]
    simp
  · obtain rfl : np = np' := by simpa [Loc.making] using hnp'
    exact h1.making (s1.active c) np (by rw [← here, hL1]; rfl)
  · obtain rfl : np = np' := by simpa [Loc.making] using hnp'
    exact h1.distinct T _ np hT (by rw [← here, hL1]; rfl)
  · obtain rfl : np = np' := by simpa [Loc.made] using hnp'
    rw [← hs1]
    exact update_self _ _ _
  · obtain rfl : np = np' := by simpa [Loc.made] using hnp'
    rw [← hs1]
    exact hidle c

/-- `fork`. -/
theorem Inv.fork {at_ : ForkAt}
    (hL : s.here c = .fork at_) (hstep : s.exec c b (fork p at_) = some t) : Inv t := by
  have hme := h.wf_here hact hL
  cases at_ with
  | scan i =>
    rw [Smp.fork, forSlots] at hstep
    split at hstep
    · exact h.of_acquire hact hL hstep (.of_eq rfl) hme (by simp)
    · exact h.of_choose_loc hact hL hstep ⟨.of_eq rfl, hme, by simp⟩
  | test np =>
    by_cases hfree : (s.proc np).state = .unused
    · simp only [Smp.fork, State.exec, if_pos hfree, some.injEq] at hstep
      exact hstep ▸ h.fork_found hact hL hfree
    refine h.of_access hact hL hstep rfl ?_
    simp only [if_neg hfree]
    exact ⟨.of_eq rfl, hme, by simp⟩
  | allocpid np => exact h.of_allocpid hact hL hstep fun _ => ⟨.of_eq rfl, hme, by simp⟩
  | used np pid =>
    simp only [Smp.fork, State.exec, some.injEq] at hstep
    exact hstep ▸ h.fork_used hact hL rfl
  | trapframe np | pagetable np =>
    refine h.of_choose_loc hact hL hstep ?_
    cases b <;> exact ⟨.of_eq rfl, hme, by simp⟩
  | context np =>
    simp only [Smp.fork, State.exec, some.injEq] at hstep
    exact hstep ▸ h.fork_context hact hL
  | uvmcopy np | shmemFork np =>
    refine h.of_choose_loc hact hL hstep ?_
    cases b
    · exact ⟨.of_eq rfl, hme, by simp⟩
    · exact ⟨⟨⟨of_none₂, fun _ h => h, of_none, of_false⟩, rfl, rfl⟩, hme, by simp⟩
  | undo np =>
    simp only [Smp.fork, State.exec, some.injEq] at hstep
    exact hstep ▸ h.fork_done hact hL (by simp) rfl (.inl rfl) (by simp)
      ⟨rfl, rfl, rfl⟩
  | ready np pid =>
    simp only [Smp.fork, State.exec, some.injEq] at hstep
    exact hstep ▸ h.fork_done hact hL (by simp) rfl (.inr ⟨rfl, rfl⟩)
      (by simp) ⟨rfl, rfl, rfl⟩
  | readPid np | parent np pid =>
    exact h.of_access hact hL hstep rfl ⟨.of_eq rfl, hme, by simp⟩
  | skip np | fail np | release np pid | waitUnlock np pid | unlock np pid =>
    exact h.of_release hact hL hstep (.of_eq rfl) hme (by simp)
  | waitLock np pid | lock np pid =>
    exact h.of_acquire hact hL hstep (.of_eq rfl) hme (by simp)

end

end Fork

/-! ## `exit` and `wait` -/

/-- `exit`. -/
theorem Inv.exit (h : Inv s) {at_ : ExitAt} {status : Int} (hact : s.active c = .proc p)
    (hL : s.here c = .exit at_ status) (hstep : s.exec c b (exit status p at_) = some t) :
    Inv t := by
  have hme := h.wf_here hact hL
  cases at_ with
  | close => exact h.of_choose_loc hact hL hstep ⟨.of_eq rfl, hme, by simp⟩
  | waitLock | lock =>
    exact h.of_acquire hact hL hstep (.of_eq rfl) hme (by simp [slot])
  | reparent i =>
    rw [Smp.exit, forSlots] at hstep
    split at hstep
    · rename_i hi
      by_cases hpar : (s.proc ⟨i, hi⟩).parent = some p
      · refine h.of_access hact hL hstep ?_ ?_ <;> simp only [if_pos hpar]
        exact ⟨.of_eq rfl, ⟨by simp, hme⟩, by simp⟩
      · refine h.of_access hact hL hstep ?_ ?_ <;> simp only [if_neg hpar]
        exact ⟨.of_eq rfl, hme, by simp⟩
    · exact h.of_choose_loc hact hL hstep ⟨.of_eq rfl, hme, by simp⟩
  | wakeup =>
    exact h.of_access hact hL hstep rfl
      ⟨.of_eq rfl, ⟨by simp, hme⟩, by simp⟩
  | mark =>
    exact h.of_stop hact hL hstep (by simp) rfl rfl rfl (by simp) hme
      (by simp) rfl rfl rfl fun _ => rfl
  | waitUnlock =>
    exact h.of_release hact hL hstep (.of_eq rfl) hme (by simp [slot])
  | sched => exact h.of_sched hact hL hstep rfl hme (.inr ⟨rfl, rfl⟩) rfl rfl rfl rfl
  | dead => cases hstep

/-- `wait`. -/
theorem Inv.wait (h : Inv s) {at_ : WaitAt} {addr : Nat} (hact : s.active c = .proc p)
    (hL : s.here c = .wait at_ addr) (hstep : s.exec c b (wait addr p at_) = some t) : Inv t := by
  have hme := h.wf_here hact hL
  cases at_ with
  | waitLock => exact h.of_acquire hact hL hstep (.of_eq rfl) hme (by simp)
  | scan i havekids =>
    rw [Smp.wait, forSlots] at hstep
    split at hstep
    · rename_i hi
      refine h.of_access hact hL hstep rfl ?_
      by_cases hpar : (s.proc ⟨i, hi⟩).parent = some p
      · simp only [if_pos hpar]
        exact ⟨.of_eq rfl, hme, by simp⟩
      · simp only [if_neg hpar]
        exact ⟨.of_eq rfl, hme, by simp⟩
    · refine h.of_choose_loc hact hL hstep ?_
      cases havekids <;> exact ⟨.of_eq rfl, hme, by simp⟩
  | lock q | killed =>
    exact h.of_acquire hact hL hstep (.of_eq rfl) hme (by simp [slot])
  | test q =>
    by_cases hz : (s.proc q).state = .zombie
    · simp only [Smp.wait, State.exec, if_pos hz, some.injEq] at hstep
      subst hstep
      refine h.of_local (.setLoc h (by rw [hact]; exact hme) ?_ rfl rfl rfl) rfl (by rw [hL]; rfl)
        (by rw [hL]; rfl) (fun q => .inl (state_setEntry rfl q))
        ⟨fun q' st hq => ?_, of_none, of_none, of_false₁⟩
      · rw [locks_here hact hL, hact]
        simp
      · obtain ⟨rfl, rfl⟩ : q = q' ∧ RunState.zombie = st := by simpa [Loc.knows] using hq
        rwa [state_setEntry rfl]
    · refine h.of_access hact hL hstep rfl ?_
      simp only [if_neg hz]
      exact ⟨.of_eq rfl, hme, by simp⟩
  | copyout q pid =>
    refine h.of_choose_loc hact hL hstep ?_
    split
    · exact ⟨⟨⟨of_none₂, of_none, of_none, of_false⟩, rfl, rfl⟩, hme, by simp⟩
    · exact ⟨.of_eq rfl, hme, by simp⟩
  | free q pid =>
    have hz : (s.proc q).state = .zombie :=
      h.knows (s.active c) q _ (by rw [← here, hL]; rfl)
    simp only [Smp.wait, State.exec, some.injEq] at hstep
    subst hstep
    refine h.of_swap (by rw [locks_here hact hL]; simp) ?_ (by rw [hz]; decide)
      (by rintro ⟨⟩) (by rw [hL]; rfl) (by rw [hL]; rfl) (by rw [hact]; exact hme) ?_
      ⟨of_none₂, of_none, of_none, of_false₁⟩
    · rw [hz]
      exact .reap
    · rw [locks_here hact hL, hact]
      simp
  | readKilled => exact h.of_access hact hL hstep rfl ⟨.of_eq rfl, hme, by simp⟩
  | gotKilled k =>
    refine h.of_release hact hL hstep ?_ hme ?_ <;> cases k
    · exact .of_eq rfl
    · exact .of_eq rfl
    · simp [slot]
    · simp [slot]
  | skip q | bad q | unlock q pid | waitUnlock pid | fail =>
    exact h.of_release hact hL hstep (.of_eq rfl) hme (by simp)
  | sleep =>
    exact h.of_choose_loc hact hL hstep
      ⟨.of_eq rfl, ⟨hme, rfl, by decide, hme⟩, by simp⟩

/-! ## `scheduler` -/

theorem Inv.active_of_slot (h : Inv s) (hslot : (s.active c).slot = none) :
    s.active c = .sched c := by
  cases hc : s.active c with
  | sched d => rw [h.sched c d hc]
  | proc p => rw [hc] at hslot; cases hslot

/-- The scheduler switches to the process that it has chosen. -/
theorem Inv.swtch (h : Inv s) (hact : s.active c = .sched c) (hL : s.here c = .sched p .switch) :
    Inv { s.setLoc c (.sched p .back) with active := update s.active c (.proc p) } := by
  have hloc : s.loc (.sched c) = .sched p .switch := by rw [← hact]; exact hL
  have hcur : s.current c = some p := (h.idle c p hact).2 (.inl (by rw [hloc]; rfl))
  have hidle : ∀ c', s.active c' ≠ .proc p := fun c' hc' => by
    obtain rfl := h.engaged c' c p (.inl (h.active c' p hc').1) (.inl hcur)
    rw [hact] at hc'
    cases hc'
  have hrun := h.running_of_current hcur (by rw [hL]; rfl)
  have hparked : (s.loc (.proc p)).parked = true :=
    (h.parked p hidle).resolve_right fun hd => by rw [hrun] at hd; cases hd.2
  have hheld : s.lock (.proc p) = some c :=
    h.locks c _ (by rw [locks_here hact hL]; simp)
  have hmoved : (s.setLoc c (.sched p .back)).loc =
      update s.loc (s.active c) (.sched p .back) := rfl
  refine h.of_switch (T := .proc p) rfl hmoved rfl rfl rfl (by rw [hact]; rintro ⟨⟩)
    (by rw [hact]; rfl) ?_ (by simp) (fun q hq => ?_) (by simp) ?_ (fun q => ?_)
    (fun q hq => by rw [hact] at hq; cases hq) rfl (by rw [hL]; rfl) (by rw [hL]; rfl) rfl
  · intro l hl
    have hl' : l = .proc p := by
      generalize s.loc (.proc p) = M at *
      cases M with
      | forkret => simpa [Loc.locks, slot] using hl
      | switch at_ | sleep at_ => cases at_ <;> simp_all [Loc.parked, slot]
      | _ => cases hparked
    rwa [hl']
  · cases hq
    exact ⟨hcur, rfl⟩
  · rw [hL]
    generalize s.loc (.proc p) = M at *
    cases M with
    | forkret => rfl
    | switch at_ | sleep at_ => cases at_ <;> simp_all [Loc.parked, leaving]
    | _ => cases hparked
  · rw [hL]
    generalize s.loc (.proc p) = M at *
    cases M with
    | sched => cases hparked
    | _ => simp [pick]

/-- `scheduler`. -/
theorem Inv.scheduler (h : Inv s) {at_ : SchedAt} (hL : s.here c = .sched p at_)
    (hstep : s.exec c b (scheduler c p at_) = some t) : Inv t := by
  have hact : s.active c = .sched c := h.active_of_slot (h.wf_here rfl hL)
  have hloc : s.loc (.sched c) = .sched p at_ := by rw [← hact]; exact hL
  cases at_ with
  | scan => exact h.of_acquire hact hL hstep (.of_eq rfl) rfl (by simp)
  | test =>
    by_cases hok : (s.proc p).state = .runnable ∧ (s.proc p).mayRun c
    · simp only [Smp.scheduler, State.exec, if_pos hok, some.injEq] at hstep
      subst hstep
      refine h.of_choose hact hL (.setLoc h ?_ ?_ rfl rfl rfl) rfl hok.1 ?_ fun q hq => ?_
      · rw [hact]
        rfl
      · rw [locks_here hact hL, hact]
        simp
      · simp [setEntry, setLoc]
      · simp [setEntry, setLoc, hq]
    · refine h.of_access hact hL hstep ?_ ?_ <;> simp only [if_neg hok]
      exact ⟨.of_eq rfl, rfl, by simp⟩
  | chosen =>
    simp only [Smp.scheduler, State.exec, some.injEq] at hstep
    subst hstep
    have hnone : ∀ q, s.current c ≠ some q := fun q hq => by
      have hidle := (h.idle c q hact).1 hq
      rw [hloc] at hidle
      simp [pick] at hidle
    have hl : Local s c (.sched p .switch)
        ({ s with current := update s.current c (some p) }.setLoc c (.sched p .switch)) :=
      .setLoc h (by rw [hact]; rfl) (by rw [locks_here hact hL, hact]; simp) rfl rfl rfl
    refine h.of_setProc hact hl (fun c' hc => update_of_ne hc _ _) (fun q => rfl)
      (fun q => ?_) (fun q hq => ?_) (fun q => ?_) ⟨of_none₂, of_none, of_none, of_false₁⟩
    · simp [setLoc, pick]
    · right
      rw [Engaged, hl.here_self] at hq
      simpa [setLoc, pick, hL] using hq
    · rw [Runs, Runs, hl.here_self, hL]
      simp [setLoc, pick, leaving, hnone]
  | switch =>
    simp only [Smp.scheduler, State.exec, some.injEq] at hstep
    exact hstep ▸ h.swtch hact hL
  | back =>
    simp only [Smp.scheduler, State.exec, some.injEq] at hstep
    subst hstep
    have hl : Local s c (.sched p .release)
        ({ s with current := update s.current c none }.setLoc c (.sched p .release)) :=
      .setLoc h (by rw [hact]; rfl) (by rw [locks_here hact hL, hact]; simp) rfl rfl rfl
    refine h.of_setProc hact hl (fun c' hc => update_of_ne hc _ _) (fun q => rfl)
      (fun q => ?_) (fun q hq => ?_) (fun q => ?_) ⟨of_none₂, of_none, of_none, of_false₁⟩
    · simp [setLoc, pick]
    · rw [Engaged, hl.here_self] at hq
      simp [setLoc, pick] at hq
    · rw [Runs, Runs, hl.here_self, hL]
      simp [setLoc, pick, leaving]
  | release => exact h.of_release hact hL hstep (.of_eq rfl) rfl (by simp)

/-! ## Runs -/

/-- A process that is not in the scheduler executes the code of a process. -/
theorem Inv.proc_of_slot (h : Inv s) (hme : (s.active c).slot ≠ none) :
    ∃ p, s.active c = .proc p ∧ s.current c = some p := by
  cases hc : s.active c with
  | sched d => rw [hc] at hme; exact absurd rfl hme
  | proc p => exact ⟨p, rfl, (h.active c p hc).1⟩

theorem Inv.run (h : Inv s) (hstep : s.step (.run c b) = some t) : Inv t := by
  rw [State.step] at hstep
  have hwf := h.wf_here rfl (L := s.here c) rfl
  -- the code of a process runs with `myproc()` set
  have hown : ∀ {f : Slot → Instr}, (s.active c).slot ≠ none →
      s.exec c b (own (s.current c) f) = some t →
      ∃ p, s.active c = .proc p ∧ s.exec c b (f p) = some t := fun hme hf => by
    obtain ⟨p, hact, hcur⟩ := h.proc_of_slot hme
    rw [hcur] at hf
    exact ⟨p, hact, hf⟩
  generalize hL : s.here c = L at hstep hwf
  cases L with
  | user => cases hstep
  | sched i at_ => exact h.scheduler hL hstep
  | wakeup => exact h.wakeup rfl hL hstep
  | callback => exact h.callback rfl hL hstep
  | kill =>
    obtain ⟨p, hact, -⟩ := h.proc_of_slot hwf
    exact h.kill hact hL hstep
  | block =>
    obtain ⟨p, hact, hcur⟩ := h.proc_of_slot hwf.1
    rw [hcur] at hstep
    exact h.block hact hL hstep
  | forkret =>
    obtain ⟨p, hact, hf⟩ := hown hwf hstep
    rw [hact] at hwf
    exact h.of_release hact hL hf (.of_eq rfl) hwf (by simp)
  | switch =>
    obtain ⟨p, hact, hf⟩ := hown hwf.1 hstep
    exact h.switch hact hL hf
  | sleep =>
    obtain ⟨p, hact, hf⟩ := hown hwf.1 hstep
    exact h.sleep hact hL hf
  | setCpuAffinity =>
    obtain ⟨p, hact, hf⟩ := hown hwf hstep
    exact h.setCpuAffinity hact hL hf
  | waitPeriod =>
    obtain ⟨p, hact, hf⟩ := hown hwf hstep
    exact h.waitPeriod hact hL hf
  | setperiod =>
    obtain ⟨p, hact, hf⟩ := hown hwf hstep
    exact h.setperiod hact hL hf
  | fork =>
    obtain ⟨p, hact, hf⟩ := hown hwf hstep
    exact h.fork hact hL hf
  | exit =>
    obtain ⟨p, hact, hf⟩ := hown hwf hstep
    exact h.exit hact hL hf
  | wait =>
    obtain ⟨p, hact, hf⟩ := hown hwf hstep
    exact h.wait hact hL hf

/-- Going to a location that holds the same locks. -/
theorem Inv.setLoc (h : Inv s) (hcalm : Calm (s.here c) next) (hwf : next.Wf (s.active c).slot)
    (hlocks : next.locks (s.active c).slot = (s.here c).locks (s.active c).slot) :
    Inv (s.setLoc c next) :=
  h.of_calm (.setLoc h hwf (fun _ hl => by rw [State.locks, ← hlocks]; exact hl) rfl rfl rfl)
    hcalm rfl fun _ => rfl

/-- A call starts without locks. -/
theorem enter_calm {me cur : Option Slot} {a0 : Int} {k : Call} (hme : me ≠ none)
    (henter : enter cur (.user a0) k = some L) : Calm (.user a0) L ∧ L.Wf me ∧ L.locks me = [] := by
  cases k with
  | exit status =>
    simp only [enter] at henter
    split at henter
    · cases henter
    cases henter
    exact ⟨.of_eq rfl, hme, rfl⟩
  | block chan addr =>
    cases henter
    exact ⟨.of_eq rfl, ⟨hme, rfl, hme⟩, rfl⟩
  | wakeup chan =>
    cases henter
    exact ⟨.of_eq rfl, ⟨by simp, hme⟩, rfl⟩
  | _ =>
    cases henter
    exact ⟨.of_eq rfl, hme, rfl⟩

theorem Inv.call (h : Inv s) {k : Call} (hstep : s.step (.call c k) = some t) : Inv t := by
  have hwf := h.wf_here rfl (L := s.here c) rfl
  simp only [State.step, State.call] at hstep
  split at hstep
  · rename_i hL
    rw [hL] at hwf
    obtain ⟨L, henter, rfl⟩ := map_eq_some_iff.1 hstep
    obtain ⟨hcalm, hLwf, hlocks⟩ := enter_calm hwf henter
    exact h.setLoc (hL ▸ hcalm) hLwf (by rw [hlocks, hL]; rfl)
  · rename_i status chan addr hL
    rw [hL] at hwf
    cases hstep
    exact h.setLoc (by rw [hL]; exact .of_eq rfl) ⟨hwf, rfl, hwf⟩ (by rw [hL]; rfl)
  · rename_i status chan hL
    rw [hL] at hwf
    cases hstep
    exact h.setLoc (by rw [hL]; exact .of_eq rfl) ⟨by simp, hwf⟩ (by rw [hL]; rfl)
  · cases hstep

theorem Inv.interrupt (h : Inv s) {i : Intr} (hstep : s.step (.interrupt c i) = some t) :
    Inv t := by
  have hwf := h.wf_here rfl (L := s.here c) rfl
  obtain ⟨hlocks, hcases⟩ := interrupt_cases hstep
  have hcalm := hwf.calm (by simp [hlocks])
  rcases hcases with ⟨chan, rfl⟩ | ⟨q, rfl⟩ | ⟨hcur, rfl⟩
  · exact h.setLoc (.of_eq hcalm.symm) ⟨by simp [hlocks], hwf⟩ rfl
  · exact h.setLoc (.of_eq hcalm.symm) ⟨hlocks, hwf⟩ (by rw [hlocks]; rfl)
  have hme : (s.active c).slot ≠ none := fun hslot => by
    have hact := h.active_of_slot hslot
    obtain ⟨p, hp⟩ := ne_none_iff_exists'.1 hcur
    have hidle := (h.idle c p hact).1 hp
    have hpick : (s.here c).pick = none := congrArg (·.2.1) hcalm
    rw [← hact, ← here, hpick] at hidle
    simp at hidle
  exact h.setLoc (.of_eq hcalm.symm) ⟨hme, .inl rfl, hlocks, hwf⟩ (by rw [hlocks]; rfl)

theorem Inv.step (h : Inv s) {l : Label n} (hstep : Steps s l t) : Inv t := by
  cases l with
  | run c b => exact h.run hstep
  | call c k => exact h.call hstep
  | interrupt c i => exact h.interrupt hstep

theorem Inv.boot (n : Nat) : Inv (State.boot n) := by
  have hproc : ∀ p, ((State.boot n).proc p).state = .runnable ∨
      ((State.boot n).proc p).state = .unused := fun p => by
    by_cases hp : p = initproc
    · subst hp
      left
      simp [State.boot]
    · right
      simp [State.boot, hp, Proc.zero]
  have hloc : ∀ T, (State.boot n).loc T = .forkret ∨ (State.boot n).loc T = .sched 0 .scan := by
    rintro (c | p)
    · exact .inr rfl
    · exact .inl rfl
  constructor
  case locks => exact fun c l hl => by simp [State.locks, State.here, State.boot] at hl
  case wf =>
    rintro (c | p)
    · rfl
    · rintro ⟨⟩
  case sched => exact fun c c' hc => (Thread.sched.inj hc).symm
  case active => rintro _ _ ⟨⟩
  case idle => exact fun c p _ => by simp [State.boot, pick]
  case engaged =>
    intro c c' p hc
    simp [State.Engaged, State.here, State.boot, pick] at hc
  case running =>
    intro p
    refine iff_of_false ?_ ?_
    · rcases hproc p with hp | hp <;> rw [hp] <;> decide
    · rintro ⟨c, hc⟩
      simp [State.Runs, State.here, State.boot, pick] at hc
  case parked => exact fun p _ => .inl rfl
  case knows =>
    intro T q st hq
    rcases hloc T with hT | hT <;> rw [hT] at hq <;> cases hq
  case making =>
    intro T q hq
    rcases hloc T with hT | hT <;> rw [hT] at hq <;> cases hq
  case distinct =>
    intro T T' q hq
    rcases hloc T with hT | hT <;> rw [hT] at hq <;> cases hq
  case made =>
    intro T q hq
    rcases hloc T with hT | hT <;> rw [hT] at hq <;> cases hq
  case dying => exact of_false₁

theorem Inv.of_run {ls : List (Label n)} (hrun : Run Steps (State.boot n) ls s) : Inv s :=
  hrun.inv (.boot n) fun _ _ _ h hstep => h.step hstep

/-- For any number of CPUs and any interleaving: in a state in which `p->lock`
is free, process `p` is `RUNNING` if and only if it is the current process of
exactly one CPU, and in any other state it is the current process of none. -/
theorem running_iff_current {ls : List (Label n)} (hrun : Run Steps (State.boot n) ls s) (p : Slot)
    (hfree : s.lock (.proc p) = none) :
    ((s.proc p).state = .running ↔ ∃! c, s.current c = some p) ∧
      ((s.proc p).state ≠ .running → ∀ c, s.current c ≠ some p) :=
  (Inv.of_run hrun).current_iff hfree

/-- CPU `c` dispatches init, which leaves `forkret`. -/
def dispatchInit (c : Fin n) : List (Label n) := List.replicate 5 (.run c false)

theorem running_iff_current_dispatchInit :
    ∃ s : State 2, Run Steps (State.boot 2) (dispatchInit 0) s ∧ s.lock (.proc initproc) = none ∧
      (s.proc initproc).state = .running ∧ ∃! c, s.current c = some initproc := by
  have hrun : Run Steps (State.boot 2) (dispatchInit 0)
      (after State.step (State.boot 2) (dispatchInit 0)) := Run.of_after (by decide)
  have hfree : (after State.step (State.boot 2) (dispatchInit 0)).lock (.proc initproc) = none := by
    decide
  have hstate :
      ((after State.step (State.boot 2) (dispatchInit 0)).proc initproc).state = .running := by
    decide
  exact ⟨_, hrun, hfree, hstate, (running_iff_current hrun initproc hfree).1.1 hstate⟩

end Xv6.Smp
