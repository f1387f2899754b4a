import Xv6.Smp.Reap

/-!
# Every child is returned once

What one step can do to a process and to a `wait` that is about to return: a
zombie is freed only by the `wait` of its parent, which then returns its pid,
and a `wait` returns a pid only after it has freed a zombie with that pid.
-/

namespace Xv6.Smp

open Lib Sched Function Loc State

variable {me : Option Slot} {cpuid : Nat} {x : Slot}

variable {n : Nat} {s t : State n} {c : Fin n} {b : Bool} {p q r : Slot} {L M next : Loc}
  {pid : Nat} {l : Label n}

/-! ## Changes of an entry -/

/-- The changes of the state and the parent of entry `q` by a thread with the
given `myproc()` at `L`. -/
inductive Edit (me : Option Slot) (L : Loc) (q : Slot) (pr pr' : Proc) : Prop where
  | keep (state : pr'.state = pr.state) (parent : pr'.parent = pr.parent)
  /-- `wakeup`, `kill` and `period_callback` wake it, and the scheduler
  dispatches it. -/
  | alive (old : live pr.state = true) (new : live pr'.state = true)
      (parent : pr'.parent = pr.parent)
  /-- Its own thread gives up the CPU. -/
  | stop (own : me = some q) (stay : L.leaving = false)
      (state : live pr'.state = true ∨ pr'.state = .zombie) (parent : pr'.parent = pr.parent)
  | alloc (knows : L.knows = some (q, .unused))
  /-- `fork` gives it up, sets its parent, or lets it run. -/
  | making (making : L.making = some q)
  | reparent (i : Nat) (status : Int) (at_ : L = .exit (.reparent i) status)
      (state : pr'.state = pr.state) (old : pr.parent = me) (new : pr'.parent = some initproc)
  | reap (pid addr : Nat) (at_ : L = .wait (.free q pid) addr) (free : pr' = pr.freeproc)

theorem Edit.of_wake {pr pr' : Proc}
    (hstate : pr'.state = pr.state ∨ pr.state = .sleeping ∧ pr'.state = .runnable)
    (hparent : pr'.parent = pr.parent) : Edit me L q pr pr' := by
  rcases hstate with heq | ⟨hold, hnew⟩
  · exact .keep heq hparent
  · exact .alive (by rw [hold]; rfl) (by rw [hnew]; rfl) hparent

/-- The mask of a process that has set one is the one that it set last. -/
def Proc.Masked (pr : Proc) : Prop := ∀ mask, pr.affinity = some mask → pr.cpuMask = mask

theorem Proc.Masked.wake {pr : Proc} (h : pr.Masked) : pr.wake.Masked := by
  rw [Proc.wake]
  split <;> exact h

theorem Proc.Masked.wakeOn {pr : Proc} (chan : Option Chan) (h : pr.Masked) :
    (pr.wakeOn chan).Masked := by
  rw [Proc.wakeOn]
  split <;> exact h

theorem edit_of_access {f : Proc → Proc × Loc}
    (h : instr cpuid me L = .access q f) (hwf : L.Wf me) (pr : Proc) :
    Edit me L q pr (f pr).1 ∧ (pr.Masked → (f pr).1.Masked) := by
  cases L with
  | user => cases h
  | block slept => cases slept <;> cases h
  | forkret =>
    obtain ⟨p, -, hf⟩ := own_eq_access h
    cases hf
  | sched i at_ =>
    cases at_ <;> cases h
    by_cases hrun : pr.state = .runnable ∧ pr.mayRun cpuid = true
    · simp only [if_pos hrun]
      exact ⟨.alive (by rw [hrun.1]; rfl) rfl rfl, id⟩
    · simp only [if_neg hrun]
      exact ⟨.keep rfl rfl, id⟩
  | switch at_ =>
    obtain ⟨p, rfl, hf⟩ := own_eq_access h
    obtain ⟨-, hst, -⟩ := hwf
    cases at_ <;> cases hf
    refine ⟨.stop rfl rfl (.inl ?_) rfl, id⟩
    rcases hst with rfl | rfl <;> rfl
  | sleep at_ =>
    obtain ⟨p, rfl, hf⟩ := own_eq_access h
    cases at_ <;> cases hf
    · exact ⟨.stop rfl rfl (.inl rfl) rfl, id⟩
    · exact ⟨.keep rfl rfl, id⟩
  | wakeup at_ =>
    cases at_ with
    | scan i =>
      rw [instr, wakeup] at h
      obtain ⟨q', hq⟩ := forSlots_eq_access h
      split at hq <;> cases hq
    | test q =>
      cases h
      exact ⟨.of_wake (pr.wakeOn_state _) (pr.wakeOn_rest _).1, Proc.Masked.wakeOn _⟩
    | unlock q => cases h
  | callback at_ =>
    cases at_ <;> cases h
    exact ⟨.of_wake pr.wake_state pr.wake_rest.1, Proc.Masked.wake⟩
  | setCpuAffinity at_ mask =>
    obtain ⟨p, -, hf⟩ := own_eq_access h
    cases at_ <;> cases hf
    exact ⟨.keep rfl rfl, fun _ _ hmask => Option.some.inj hmask⟩
  | waitPeriod =>
    obtain ⟨p, -, hf⟩ := own_eq_access h
    cases hf
    exact ⟨.keep rfl rfl, id⟩
  | setperiod at_ =>
    obtain ⟨p, -, hf⟩ := own_eq_access h
    cases at_ <;> cases hf <;> exact ⟨.keep rfl rfl, id⟩
  | kill at_ pid =>
    cases at_ with
    | scan i =>
      rw [instr, kill] at h
      obtain ⟨q', hq⟩ := forSlots_eq_access h
      cases hq
    | test q =>
      cases h
      by_cases hpid : (pr.pid : Int) = pid
      · simp only [if_pos hpid]
        exact ⟨.of_wake pr.wake_state pr.wake_rest.1, Proc.Masked.wake⟩
      · simp only [if_neg hpid]
        exact ⟨.keep rfl rfl, id⟩
    | hit | miss => cases h
  | fork at_ =>
    obtain ⟨p, -, hf⟩ := own_eq_access h
    cases at_ with
    | scan i =>
      rw [fork] at hf
      obtain ⟨q', hq⟩ := forSlots_eq_access hf
      cases hq
    | used np pid =>
      cases hf
      exact ⟨.alloc rfl, fun _ => of_none⟩
    | undo | ready | parent =>
      cases hf
      exact ⟨.making rfl, id⟩
    | test | readPid =>
      cases hf
      exact ⟨.keep rfl rfl, id⟩
    | _ => cases hf
  | exit at_ status =>
    obtain ⟨p, rfl, hf⟩ := own_eq_access h
    cases at_ with
    | reparent i =>
      rw [exit] at hf
      obtain ⟨q', hq⟩ := forSlots_eq_access hf
      cases hq
      by_cases hpar : pr.parent = some p
      · simp only [if_pos hpar]
        exact ⟨.reparent i status rfl rfl hpar rfl, id⟩
      · simp only [if_neg hpar]
        exact ⟨.keep rfl rfl, id⟩
    | mark =>
      cases hf
      exact ⟨.stop rfl rfl (.inr rfl) rfl, id⟩
    | wakeup =>
      cases hf
      exact ⟨.keep rfl rfl, id⟩
    | _ => cases hf
  | wait at_ addr =>
    obtain ⟨p, rfl, hf⟩ := own_eq_access h
    cases at_ with
    | scan i =>
      rw [wait] at hf
      obtain ⟨q', hq⟩ := forSlots_eq_access hf
      cases hq
      exact ⟨.keep rfl rfl, id⟩
    | free q pid =>
      cases hf
      exact ⟨.reap pid addr rfl rfl, id⟩
    | test | readKilled =>
      cases hf
      exact ⟨.keep rfl rfl, id⟩
    | _ => cases hf

/-- What a scheduler thread does is not the doing of a process. -/
theorem access_of_sched {f : Proc → Proc × Loc}
    (hwf : L.Wf none) (h : instr cpuid me L = .access q f) : instr cpuid none L = .access q f := by
  cases L with
  | sched | callback => exact h
  | wakeup at_ =>
    cases at_ with
    | scan i =>
      rw [instr, wakeup] at h
      obtain ⟨q', hq⟩ := forSlots_eq_access h
      split at hq <;> cases hq
    | test | unlock => exact h
  | _ => simp [Wf] at hwf

/-- A step leaves an entry alone, or is such a change by a CPU. -/
theorem edit_of_step (h : Inv s) (hstep : Steps s l t) (q : Slot) :
    t.proc q = s.proc q ∨ ∃ c b, l = .run c b ∧
      Edit (s.active c).slot (s.here c) q (s.proc q) (t.proc q) ∧
        ((s.proc q).Masked → (t.proc q).Masked) := by
  rcases entry_of_step hstep q with heq | ⟨c, b, f, rfl, hf, heq⟩
  · exact .inl heq
  refine .inr ⟨c, b, rfl, ?_⟩
  rw [heq]
  cases hact : s.active c with
  | sched d =>
    have hwf := h.wf_here hact (L := s.here c) rfl
    exact edit_of_access (access_of_sched hwf hf) hwf _
  | proc p =>
    have hwf := h.wf_here hact (L := s.here c) rfl
    rw [(h.active c p hact).1] at hf
    exact edit_of_access hf hwf _

/-! ## The result of `wait` -/

/-- The pid that a `wait` is about to return. -/
def Loc.returning : Loc → Option Nat
  | .wait (.unlock _ pid) _ | .wait (.waitUnlock pid) _ => some pid
  | _ => none

theorem Loc.wait_mem_locks_of_returning (h : L.returning = some pid) : .wait ∈ L.locks me := by
  cases L with
  | wait at_ => cases at_ <;> simp_all [returning, locks]
  | _ => cases h

/-- Where an instruction leads. -/
def Instr.Next : Instr → Loc → Prop
  | .choose next, M => ∃ b, M = next b
  | .acquire _ next, M | .release _ next, M | .context _ next, M | .setProc _ next, M
  | .swtch _ next, M | .sched next, M => M = next
  | .holding _ yes no, M => M = yes ∨ M = no
  | .access _ f, M => ∃ pr, M = (f pr).2
  | .allocpid next, M => ∃ pid, M = next pid
  | .stop, _ => False

theorem next_of_exec {i : Instr} (hact : s.active c = .proc p) (h : s.exec c b i = some t) :
    i.Next (t.loc (.proc p)) := by
  have hnext : t.loc (.proc p) = i.next s c b := by
    cases i with
    | access | context =>
      cases h
      simp [setLoc, setEntry, Instr.next, hact]
    | _ => rw [(exec_plain h rfl).2, hact, update_self]
  rw [hnext]
  cases i with
  | stop => cases h
  | holding l yes no =>
    simp only [Instr.next]
    split
    · exact .inl rfl
    · exact .inr rfl
  | choose | access | allocpid => exact ⟨_, rfl⟩
  | _ => rfl

/-- What a step does to the location of process `x`. -/
inductive Goes (s t : State n) (l : Label n) (x : Slot) : Prop where
  | stay (place : t.places x = s.places x)
  | run (c : Fin n) (b : Bool) (label : l = .run c b) (act : s.active c = .proc x)
      (next : (instr c (some x) (s.places x)).Next (t.places x))
  /-- `fork` lets a new process start. -/
  | start (T : Thread n) (making : (s.loc T).making = some x) (place : t.places x = .forkret)
  /-- A call or an interrupt. -/
  | frame (locks : (s.places x).locks (some x) = []) (returning : (t.places x).returning = none)
      (user : ∀ a0, t.places x ≠ .user a0)

theorem places_of_ne (hx : s.active c ≠ .proc x)
    (hloc : t.loc = update s.loc (s.active c) next) : t.places x = s.places x := by
  rw [places, hloc, update_of_ne (Ne.symm hx)]
  rfl

theorem places_of_eq (hx : s.active c = .proc x)
    (hloc : t.loc = update s.loc (s.active c) next) : t.places x = next := by
  rw [places, hloc, hx, update_self]

theorem goes_of_exec {i : Instr} (hstep : s.exec c b i = some t) {x : Slot}
    (hx : s.active c ≠ .proc x) :
    t.places x = s.places x ∨ (∃ next, i = .context x next) ∧ t.places x = .forkret := by
  cases i with
  | access =>
    cases hstep
    exact .inl (places_of_ne hx rfl)
  | context q next =>
    cases hstep
    by_cases hq : x = q
    · subst hq
      refine .inr ⟨⟨next, rfl⟩, ?_⟩
      simp [places, setLoc, Ne.symm hx]
    · left
      simp [places, setLoc, Ne.symm hx, hq]
  | _ => exact .inl (places_of_ne hx (exec_plain hstep rfl).2)

/-- Only `fork` starts a thread, the one of the child that it makes. -/
theorem making_of_context (h : instr cpuid me L = .context x next) : L.making = some x := by
  have hown : ∀ {g : Slot → Instr}, own me g = .context x next →
      ∃ p, g p = .context x next := fun hg => by
    cases me with
    | none => cases hg
    | some p => exact ⟨p, hg⟩
  have hfor : ∀ {i : Nat} {body : Slot → Instr} {M : Loc},
      forSlots i body (goto M) = .context x next → ∃ q, body q = .context x next := fun hg => by
    rw [forSlots] at hg
    split at hg
    · exact ⟨_, hg⟩
    · cases hg
  cases L with
  | user => cases h
  | sched i at_ => cases at_ <;> cases h
  | block slept => cases slept <;> cases h
  | wakeup at_ =>
    cases at_ with
    | scan i =>
      rw [instr, wakeup] at h
      obtain ⟨q, hq⟩ := hfor h
      split at hq <;> cases hq
    | _ => cases h
  | callback at_ => cases at_ <;> cases h
  | kill at_ =>
    cases at_ with
    | scan i =>
      rw [instr, kill] at h
      obtain ⟨q, hq⟩ := hfor h
      cases hq
    | _ => cases h
  | forkret | waitPeriod =>
    obtain ⟨p, hp⟩ := hown h
    cases hp
  | switch at_ | sleep at_ | setCpuAffinity at_ | setperiod at_ =>
    obtain ⟨p, hp⟩ := hown h
    cases at_ <;> cases hp
  | fork at_ =>
    obtain ⟨p, hp⟩ := hown h
    cases at_ with
    | scan i =>
      rw [fork] at hp
      obtain ⟨q, hq⟩ := hfor hp
      cases hq
    | context np =>
      cases hp
      rfl
    | _ => cases hp
  | exit at_ =>
    obtain ⟨p, hp⟩ := hown h
    cases at_ with
    | reparent i =>
      rw [exit] at hp
      obtain ⟨q, hq⟩ := hfor hp
      cases hq
    | _ => cases hp
  | wait at_ =>
    obtain ⟨p, hp⟩ := hown h
    cases at_ with
    | scan i =>
      rw [wait] at hp
      obtain ⟨q, hq⟩ := hfor hp
      cases hq
    | _ => cases hp

theorem enter_frame {a0 : Int} {k : Call} (henter : enter me (.user a0) k = some L) :
    L.returning = none ∧ ∀ a0, L ≠ .user a0 := by
  cases k with
  | exit status =>
    simp only [enter] at henter
    split at henter
    · cases henter
    cases henter
    exact ⟨rfl, by simp⟩
  | _ =>
    cases henter
    exact ⟨rfl, by simp⟩

/-- A call or an interrupt starts where its CPU holds no spinlock. -/
theorem frame_of_call {k : Call} (hstep : s.call c k = some t) :
    ∃ M, t = s.setLoc c M ∧ (s.here c).locks me = [] ∧ M.returning = none ∧ ∀ a0, M ≠ .user a0 := by
  simp only [call] at hstep
  split at hstep
  · rename_i hL
    obtain ⟨L, henter, rfl⟩ := Option.map_eq_some_iff.1 hstep
    exact ⟨L, rfl, by rw [hL]; rfl, enter_frame henter⟩
  · rename_i hL
    cases hstep
    exact ⟨_, rfl, by rw [hL]; rfl, rfl, by simp⟩
  · rename_i hL
    cases hstep
    exact ⟨_, rfl, by rw [hL]; rfl, rfl, by simp⟩
  · cases hstep

theorem frame_of_interrupt {i : Intr} (hstep : s.interrupt c i = some t) :
    ∃ M, t = s.setLoc c M ∧ (s.here c).locks (s.active c).slot = [] ∧ M.returning = none ∧
      ∀ a0, M ≠ .user a0 := by
  obtain ⟨hlocks, ⟨_, rfl⟩ | ⟨_, rfl⟩ | ⟨-, rfl⟩⟩ := interrupt_cases hstep <;>
    exact ⟨_, rfl, hlocks, rfl, by simp⟩

theorem goes_of_step (h : Inv s) (hstep : Steps s l t) (x : Slot) : Goes s t l x := by
  have hframe : ∀ {c M}, t = s.setLoc c M → (s.active c = .proc x →
      (s.here c).locks (some x) = []) → M.returning = none → (∀ a0, M ≠ .user a0) →
      Goes s t l x := by
    rintro c M rfl hlocks hret huser
    by_cases hx : s.active c = .proc x
    · have hM : (s.setLoc c M).places x = M := places_of_eq hx rfl
      exact .frame (by rw [places_eq hx rfl]; exact hlocks hx) (by rw [hM]; exact hret)
        (by rw [hM]; exact huser)
    · exact .stay (places_of_ne hx rfl)
  cases l with
  | run c b =>
    rw [Steps, State.step] at hstep
    by_cases hx : s.active c = .proc x
    · have hnext := next_of_exec hx hstep
      rw [(h.active c x hx).1] at hnext
      exact .run c b rfl hx (by rw [places_eq hx rfl]; exact hnext)
    rcases goes_of_exec hstep hx with hstay | ⟨⟨next, hi⟩, hforkret⟩
    · exact .stay hstay
    · exact .start (s.active c) (making_of_context hi) hforkret
  | call c k =>
    obtain ⟨M, ht, hlocks, hret, huser⟩ := frame_of_call hstep
    exact hframe ht (fun _ => hlocks) hret huser
  | interrupt c i =>
    obtain ⟨M, ht, hlocks, hret, huser⟩ := frame_of_interrupt hstep
    exact hframe ht (fun hx => by rw [hx] at hlocks; exact hlocks) hret huser

/-- A `wait` gets to a pid that it returns by freeing a zombie. -/
theorem returning_of_next (hwf : L.Wf (some p)) (hshape : L.Shape (some p))
    (h : (instr cpuid (some p) L).Next M) (hM : M.returning = some pid) :
    (∃ r addr, L = .wait (.free r pid) addr) ∨ L.returning = some pid := by
  -- a call or an interrupt goes back to a place without `wait_lock`
  have hback : ∀ {next : Loc}, .wait ∉ next.locks (some p) → M ≠ next := by
    rintro next hno rfl
    exact hno (wait_mem_locks_of_returning hM)
  cases L with
  | user => cases h
  | sched => cases hwf
  | forkret =>
    cases h
    cases hM
  | switch at_ st next =>
    obtain ⟨-, -, hnext, -⟩ := hwf
    cases at_ with
    | unlock => exact absurd h (hback (by rw [hnext]; decide))
    | mark =>
      obtain ⟨pr, rfl⟩ := h
      cases hM
    | _ =>
      cases h
      cases hM
  | block slept chan addr next =>
    obtain ⟨-, hnext, -⟩ := hwf
    cases slept with
    | false =>
      cases h
      cases hM
    | true => exact absurd h (hback (by rw [hnext]; decide))
  | sleep at_ chan lk next =>
    obtain ⟨-, hnext, -, -⟩ := hwf
    obtain ⟨hwait, -, -⟩ := hshape
    have hgo : M ≠ next := by
      by_cases hl : lk = .wait
      · obtain ⟨-, addr, -, -, rfl⟩ := hwait hl
        rintro rfl
        cases hM
      · exact hback (by rw [hnext]; simpa using Ne.symm hl)
    cases at_ with
    | enter =>
      rcases h with h | rfl
      · exact absurd h hgo
      · cases hM
    | relock => exact absurd h hgo
    | mark | tidy =>
      obtain ⟨pr, rfl⟩ := h
      cases hM
    | _ =>
      cases h
      cases hM
  | wakeup at_ chan next =>
    obtain ⟨hexit, -⟩ := hshape
    have hgo : M ≠ next := by
      rintro rfl
      obtain ⟨e, status, rfl, -⟩ := hexit (wait_mem_locks_of_returning hM)
      cases hM
    cases at_ with
    | scan i =>
      simp only [instr, wakeup, forSlots] at h
      split at h
      · split at h
        · obtain ⟨_, rfl⟩ := h
          cases hM
        · cases h
          cases hM
      · obtain ⟨_, h⟩ := h
        exact absurd h hgo
    | test =>
      obtain ⟨pr, rfl⟩ := h
      cases hM
    | unlock =>
      cases h
      cases hM
  | callback at_ q next =>
    obtain ⟨hnext, -⟩ := hwf
    cases at_ with
    | lock =>
      cases h
      cases hM
    | look =>
      obtain ⟨pr, rfl⟩ := h
      cases hM
    | unlock => exact absurd h (hback (by rw [hnext]; decide))
  | setCpuAffinity at_ =>
    cases at_ with
    | look =>
      obtain ⟨pr, rfl⟩ := h
      cases hM
    | _ =>
      cases h
      cases hM
  | waitPeriod =>
    obtain ⟨pr, rfl⟩ := h
    dsimp only at hM
    split at hM <;> cases hM
  | setperiod at_ =>
    cases at_ with
    | enter =>
      obtain ⟨pr, rfl⟩ := h
      dsimp only at hM
      split at hM
      · cases hM
      · split at hM <;> cases hM
    | kalloc =>
      obtain ⟨b, rfl⟩ := h
      cases b <;> cases hM
    | forward =>
      obtain ⟨pr, rfl⟩ := h
      cases hM
  | kill at_ =>
    cases at_ with
    | scan i =>
      simp only [instr, kill, forSlots] at h
      split at h
      · cases h
        cases hM
      · obtain ⟨_, rfl⟩ := h
        cases hM
    | test =>
      obtain ⟨pr, rfl⟩ := h
      dsimp only at hM
      split at hM <;> cases hM
    | _ =>
      cases h
      cases hM
  | fork at_ =>
    cases at_ with
    | scan i =>
      simp only [instr, own, fork, forSlots] at h
      split at h
      · cases h
        cases hM
      · obtain ⟨_, rfl⟩ := h
        cases hM
    | test | used | undo | readPid | parent | ready | allocpid | trapframe | pagetable | uvmcopy
    | shmemFork =>
      obtain ⟨_, rfl⟩ := h
      cases hM
    | _ =>
      cases h
      cases hM
  | exit at_ =>
    cases at_ with
    | reparent i =>
      simp only [instr, own, exit, forSlots] at h
      split at h
      · obtain ⟨pr, rfl⟩ := h
        dsimp only at hM
        split at hM <;> cases hM
      · obtain ⟨_, rfl⟩ := h
        cases hM
    | close | wakeup | mark =>
      obtain ⟨_, rfl⟩ := h
      cases hM
    | dead => cases h
    | _ =>
      cases h
      cases hM
  | wait at_ addr =>
    cases at_ with
    | scan i =>
      simp only [instr, own, wait, forSlots] at h
      split at h
      · obtain ⟨pr, rfl⟩ := h
        dsimp only at hM
        split at hM <;> cases hM
      obtain ⟨_, rfl⟩ := h
      dsimp only at hM
      split at hM <;> cases hM
    | test =>
      obtain ⟨pr, rfl⟩ := h
      dsimp only at hM
      split at hM <;> cases hM
    | copyout =>
      obtain ⟨b, rfl⟩ := h
      dsimp only at hM
      split at hM <;> cases hM
    | free q pid' =>
      obtain ⟨pr, rfl⟩ := h
      cases hM
      exact .inl ⟨q, addr, rfl⟩
    | unlock q pid' =>
      cases h
      cases hM
      exact .inr rfl
    | gotKilled k =>
      cases h
      cases k <;> cases hM
    | readKilled =>
      obtain ⟨pr, rfl⟩ := h
      cases hM
    | sleep =>
      obtain ⟨_, rfl⟩ := h
      cases hM
    | _ =>
      cases h
      cases hM

/-- What `wait` returns: -1, or the pid that it was about to return. -/
theorem result_of_next {at_ : WaitAt} {addr : Nat} {a0 : Int}
    (h : (instr cpuid (some p) (.wait at_ addr)).Next (.user a0)) :
    a0 = -1 ∨ ∃ pid : Nat, (Loc.wait at_ addr).returning = some pid ∧ a0 = pid := by
  cases at_ with
  | scan i =>
    simp only [instr, own, wait, forSlots] at h
    split at h
    · obtain ⟨pr, hpr⟩ := h
      cases hpr
    · obtain ⟨_, h⟩ := h
      cases h
  | test | copyout | free | readKilled | sleep =>
    obtain ⟨_, h⟩ := h
    cases h
  | waitUnlock pid =>
    cases h
    exact .inr ⟨pid, rfl, rfl⟩
  | fail =>
    cases h
    exact .inl rfl
  | _ => cases h

/-! ## Children -/

/-- In the step from `s` to `t` the `wait` of `p` frees the zombie `r`, its
child, and from then on is about to return the pid of that child. -/
structure State.Reaps (s t : State n) (p r : Slot) (pid : Nat) : Prop where
  parent : (s.proc r).parent = some p
  zombie : (s.proc r).state = .zombie
  pid_eq : (s.proc r).pid = pid
  freed : (t.proc r).state = .unused
  before : (s.loc (.proc p)).returning = none
  after : (t.loc (.proc p)).returning = some pid

/-- What a step may do to a process and to the one that waits for it. -/
structure State.Custody (s t : State n) : Prop where
  /-- A zombie is freed only by its parent's `wait`. -/
  freed : ∀ r, (s.proc r).state = .zombie → (t.proc r).state ≠ .zombie →
    ∃ p, s.Reaps t p r (s.proc r).pid
  /-- A process stays alive until it is a zombie. -/
  kept : ∀ r, live (s.proc r).state = true →
    live (t.proc r).state = true ∨ (t.proc r).state = .zombie
  /-- It keeps its parent until the parent exits, and then gets init. -/
  parent : ∀ r p, live (s.proc r).state = true ∨ (s.proc r).state = .zombie →
    (s.proc r).parent = some p → (t.proc r).parent = some p ∨ (t.proc r).state = .unused ∨
      ((t.proc r).parent = some initproc ∧ ∃ i status, s.loc (.proc p) = .exit (.reparent i) status)
  /-- A `wait` is about to return a pid only because it has freed a zombie. -/
  starts : ∀ p pid, (t.loc (.proc p)).returning = some pid →
    (s.loc (.proc p)).returning = some pid ∨ ∃ r, s.Reaps t p r pid
  /-- It does so. -/
  returns : ∀ p pid, (s.loc (.proc p)).returning = some pid →
    (t.loc (.proc p)).returning = some pid ∨ t.loc (.proc p) = .user pid
  /-- Otherwise it returns -1. -/
  result : ∀ p at_ addr a0, s.loc (.proc p) = .wait at_ addr → t.loc (.proc p) = .user a0 →
    a0 = -1 ∨ ∃ pid : Nat, (s.loc (.proc p)).returning = some pid ∧ a0 = pid

/-- A CPU that is about to free an entry does so for the parent. -/
theorem At.reaps {addr : Nat} (a : At s c p (.wait (.free r pid) addr))
    (hstep : s.step (.run c b) = some t) : s.Reaps t p r pid := by
  have hplace : s.loc (.proc p) = .wait (.free r pid) addr := a.place
  rw [State.step, (a.inv.active c p a.act).1, a.here] at hstep
  cases hstep
  refine ⟨a.kin.child p r (by rw [a.place]; rfl), ?_, a.kin.found p r pid (by rw [a.place]; rfl),
    ?_, by rw [hplace]; rfl, ?_⟩
  · exact a.inv.knows (.proc p) r .zombie (by rw [hplace]; rfl)
  · simp [setLoc, setEntry, Proc.freeproc]
  · simp [setLoc, setEntry, a.act, returning]

/-- Only an entry that is neither alive nor a zombie is in the making. -/
theorem Inv.not_unborn (h : Inv s) (c : Fin n)
    (hq : live (s.proc q).state = true ∨ (s.proc q).state = .zombie) :
    (s.here c).knows ≠ some (q, .unused) ∧ (s.here c).making ≠ some q := by
  refine ⟨fun hk => ?_, fun hm => ?_⟩
  · have hst := h.knows (s.active c) q _ hk
    rcases hq with hq | hq <;> rw [hst] at hq <;> cases hq
  · have hst := h.making (s.active c) q hm
    rcases hq with hq | hq <;> rw [hst] at hq <;> cases hq

theorem proc_of_slot {T : Thread n} (h : T.slot = some p) : T = .proc p := by
  cases T with
  | sched => cases h
  | proc q =>
    cases h
    rfl

/-- Every step takes care of the children. -/
theorem custody_of_step (h : Inv s) (hk : s.Family) (hstep : Steps s l t) : s.Custody t := by
  -- a CPU that reaps is at the `wait` of a process
  have hreap : ∀ {c b r pid addr}, l = .run c b → s.here c = .wait (.free r pid) addr →
      ∃ p, s.active c = .proc p ∧ s.Reaps t p r pid := by
    rintro c b r pid addr rfl hL
    obtain ⟨p, hact, -⟩ := h.proc_of_slot (c := c) (by
      have hwf := h.wf_here (c := c) rfl hL
      exact hwf)
    exact ⟨p, hact, At.reaps ⟨h, hk, hact, hL⟩ hstep⟩
  constructor
  case freed =>
    intro r hz hne
    rcases edit_of_step h hstep r with heq | ⟨c, b, hl, he, -⟩
    · exact absurd (heq ▸ hz) hne
    obtain ⟨hk', hm'⟩ := h.not_unborn c (.inr hz)
    cases he with
    | keep hst _ | reparent i status _ hst _ _ => exact absurd (hst.trans hz) hne
    | alive hold _ _ =>
      rw [hz] at hold
      cases hold
    | stop hown hstay _ _ =>
      have hrun := h.running_of_current (h.active c r (proc_of_slot hown)).1 hstay
      rw [hz] at hrun
      cases hrun
    | alloc hknows => exact absurd hknows hk'
    | making hm => exact absurd hm hm'
    | reap pid addr hat _ =>
      obtain ⟨p, -, hreaps⟩ := hreap hl hat
      exact ⟨p, hreaps.pid_eq ▸ hreaps⟩
  case kept =>
    intro r hlive
    rcases edit_of_step h hstep r with heq | ⟨c, b, hl, he, -⟩
    · exact .inl (heq ▸ hlive)
    obtain ⟨hk', hm'⟩ := h.not_unborn c (.inl hlive)
    cases he with
    | keep hst _ => exact .inl (hst ▸ hlive)
    | alive _ hnew _ => exact .inl hnew
    | stop _ _ hst _ => exact hst
    | alloc hknows => exact absurd hknows hk'
    | making hm => exact absurd hm hm'
    | reparent i status _ hst _ _ => exact .inl (hst ▸ hlive)
    | reap pid addr hat _ =>
      obtain ⟨p, -, hreaps⟩ := hreap hl hat
      rw [hreaps.zombie] at hlive
      cases hlive
  case parent =>
    intro r p hst hpar
    rcases edit_of_step h hstep r with heq | ⟨c, b, hl, he, -⟩
    · exact .inl (heq ▸ hpar)
    obtain ⟨hk', hm'⟩ := h.not_unborn c hst
    cases he with
    | keep _ hp | alive _ _ hp | stop _ _ _ hp => exact .inl (hp.trans hpar)
    | alloc hknows => exact absurd hknows hk'
    | making hm => exact absurd hm hm'
    | reparent i status hat _ hold hnew =>
      have hact := proc_of_slot (hold.symm.trans hpar)
      exact .inr (.inr ⟨hnew, i, status, by rw [← hact]; exact hat⟩)
    | reap pid addr hat _ =>
      obtain ⟨_, -, hreaps⟩ := hreap hl hat
      exact .inr (.inl hreaps.freed)
  case starts =>
    intro p pid hret
    have hret' : (t.places p).returning = some pid := hret
    cases goes_of_step h hstep p with
    | stay hplace =>
      left
      rwa [hplace] at hret'
    | run c b hl hact hnext =>
      rcases returning_of_next (h.wf (.proc p)) (hk.shape p) hnext hret' with ⟨r, addr, hL⟩ | hold
      · right
        have hhere : s.here c = .wait (.free r pid) addr := by rwa [here, hact]
        obtain ⟨q, hq, hreaps⟩ := hreap hl hhere
        rw [hact] at hq
        cases hq
        exact ⟨r, hreaps⟩
      · exact .inl hold
    | start T _ hplace =>
      rw [hplace] at hret'
      cases hret'
    | frame _ hnone _ =>
      rw [hnone] at hret'
      cases hret'
  case returns =>
    intro p pid hret
    have hret' : (s.places p).returning = some pid := hret
    cases goes_of_step h hstep p with
    | stay hplace =>
      left
      rwa [← hplace] at hret'
    | run c b _ hact hnext =>
      have hcases : (t.places p).returning = some pid ∨ t.places p = .user pid := by
        generalize s.places p = L, t.places p = M at hret' hnext ⊢
        cases L with
        | wait at_ addr =>
          cases at_ with
          | unlock q pid' =>
            cases hret'
            cases hnext
            exact .inl rfl
          | waitUnlock pid' =>
            cases hret'
            cases hnext
            exact .inr rfl
          | _ => cases hret'
        | _ => cases hret'
      exact hcases
    | start T hmaking _ =>
      -- a process that waits is no child in the making
      have hused := h.making T p hmaking
      have hlive := hk.alive p (by
        generalize s.places p = L at hret'
        cases L with
        | wait => rfl
        | _ => cases hret')
      rw [hused] at hlive
      cases hlive
    | frame hlocks _ _ =>
      have hmem : .wait ∈ (s.places p).locks (some p) := wait_mem_locks_of_returning hret'
      rw [hlocks] at hmem
      cases hmem
  case result =>
    intro p at_ addr a0 hL hM
    have hL' : s.places p = .wait at_ addr := hL
    have hM' : t.places p = .user a0 := hM
    cases goes_of_step h hstep p with
    | stay hplace =>
      rw [hplace, hL'] at hM'
      cases hM'
    | run c b _ hact hnext =>
      rw [hL', hM'] at hnext
      rw [hL]
      exact result_of_next hnext
    | start T _ hplace =>
      rw [hplace] at hM'
      cases hM'
    | frame _ _ huser => exact absurd hM' (huser a0)

/-- When `wait_lock` is free, no process has a parent that sleeps in `wait`
while the process is a zombie. -/
theorem State.Family.awake (h : Inv s) (hk : s.Family) (hfree : s.lock .wait = none)
    (hsleep : (s.proc p).state = .sleeping) (hin : (s.loc (.proc p)).inWait = true)
    (hpar : (s.proc r).parent = some p) : (s.proc r).state ≠ .zombie := by
  intro hz
  obtain ⟨q, k, hwaking, -⟩ :=
    hk.pending p r (hk.committed_of_sleeping hsleep hin) hpar hz
  -- the one that is to wake it holds `wait_lock`
  have hmem : .wait ∈ (s.places q).locks (some q) :=
    wait_mem_locks (.inr (.inr (.inr (.inl (by rw [hwaking]; rintro ⟨⟩)))))
  obtain ⟨c, -, hlock⟩ := h.active_of_wait hmem
  rw [h.locks c .wait hlock] at hfree
  cases hfree

/-- For any number of CPUs and any interleaving: every step from a reachable
state takes care of the children, and in a reachable state in which `wait_lock`
and the process locks are free, every process that is alive or a zombie, other
than init, has a parent that is neither a zombie nor gone, and no process
sleeps in `wait` while it has a zombie child. -/
theorem children_are_waited_for {ls : List (Label n)} (hrun : Run Steps (State.boot n) ls s) :
    (∀ l t, Steps s l t → s.Custody t) ∧ (s.lock .wait = none → (∀ q, s.lock (.proc q) = none) →
        (∀ r, r ≠ initproc → live (s.proc r).state = true ∨ (s.proc r).state = .zombie →
          ∃ q, (s.proc r).parent = some q ∧ (s.proc q).state ≠ .zombie ∧
            (s.proc q).state ≠ .unused) ∧
        ∀ p r, (s.proc p).state = .sleeping → (s.loc (.proc p)).inWait = true →
          (s.proc r).parent = some p → (s.proc r).state ≠ .zombie) := by
  have h := Inv.of_run hrun
  have hk := State.Family.of_run hrun
  refine ⟨fun l t hstep => custody_of_step h hk hstep, fun hfree _ => ⟨fun r hr hst => ?_, ?_⟩⟩
  · obtain ⟨q, hq⟩ := Option.ne_none_iff_exists'.1 (hk.has_parent r hr hst)
    have hlive := hk.parent_live r q hq
    refine ⟨q, hq, fun hz => ?_, fun hu => ?_⟩
    · rw [hz] at hlive
      cases hlive
    · rw [hu] at hlive
      cases hlive
  · exact fun p r hsleep hin hpar => hk.awake h hfree hsleep hin hpar

/-- Init forks and waits; its child is dispatched and returns from `fork`. -/
def forkAndWait (c : Fin n) : List (Label n) :=
  dispatchInit c ++ [.call c .fork] ++ List.replicate 20 (.run c false) ++
    [.call c (.wait 0)] ++ List.replicate 85 (.run c false)

theorem children_are_waited_for_forkAndWait :
    ∃ s : State 2, Run Steps (State.boot 2) (forkAndWait 0) s ∧
      (s.proc initproc).state = .sleeping ∧ (s.loc (.proc initproc)).inWait = true ∧
      (s.proc 1).state = .running ∧ (∀ l t, Steps s l t → s.Custody t) ∧
      (∃ q, (s.proc 1).parent = some q ∧ (s.proc q).state ≠ .zombie ∧ (s.proc q).state ≠ .unused) ∧
      ∀ r, (s.proc r).parent = some initproc → (s.proc r).state ≠ .zombie := by
  have hrun : Run Steps (State.boot 2) (forkAndWait 0)
      (after State.step (State.boot 2) (forkAndWait 0)) := Run.of_after (by decide +kernel)
  generalize hs : after State.step (State.boot 2) (forkAndWait 0) = s at hrun
  have hfree : s.lock .wait = none := by rw [← hs]; decide +kernel
  have hprocs : ∀ q, s.lock (.proc q) = none := by rw [← hs]; decide +kernel
  have hsleep : (s.proc initproc).state = .sleeping := by rw [← hs]; decide +kernel
  have hin : (s.loc (.proc initproc)).inWait = true := by rw [← hs]; decide +kernel
  have hchild : (s.proc 1).state = .running := by rw [← hs]; decide +kernel
  obtain ⟨hcustody, hquiet⟩ := children_are_waited_for hrun
  obtain ⟨hparent, hawake⟩ := hquiet hfree hprocs
  exact ⟨s, hrun, hsleep, hin, hchild, hcustody,
    hparent 1 (by decide) (.inl (by rw [hchild]; rfl)), fun r => hawake initproc r hsleep hin⟩

end Xv6.Smp
