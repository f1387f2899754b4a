import Xv6.Lib.Family
import Xv6.Lib.Run
import Xv6.Log.Recovery

/-!
# Admission to the log

Any number of processes call `begin_op`, `log_write` and `end_op`.
`begin_op` admits an operation when the blocks logged so far and
`MAXOPBLOCKS` for every open operation and the new one come to at most
`LOGSIZE`; `log_write` panics when the header already holds `log.size - 1`
blocks.  With the `log.size` that `mkfs` writes, which is `LOGSIZE`, the two
limits differ by one, and the check of `log_write` comes before the search
for a block to absorb.

An open operation that has logged `s` may log `MAXOPBLOCKS - |s|` further
blocks, and the sum of these allowances is what the log must still have
room for.  `World.Room` says that it has, after one more admission.  A run
whose admissions all find room never panics, and an admission that does
not find room can be followed by log writes that do.
-/

namespace Xv6

open Function Lib Option

namespace Admission

variable {log : Log} {c : Pc} {s : Finset Nat} {b : Nat}

/-! ## The system -/

/-- Where a process stands: outside, in an operation that has logged the
given blocks, or in the part of `end_op` that commits, before and after the
call of `commit`. -/
inductive Pc where
  | idle
  | inOp (logged : Finset Nat)
  | committing
  | committed
  deriving DecidableEq

/-- The log, the device and the processes. -/
structure World (Pid : Type) where
  log : Log
  dev : Dev
  pc : Pid → Pc

/-- One step of one process. -/
inductive Call (Pid : Type) where
  | beginOp (p : Pid)
  | logWrite (p : Pid) (b : Nat)
  | endOp (p : Pid)
  | commit (p : Pid)
  | endCommit (p : Pid)
  deriving DecidableEq

variable {Pid : Type} [DecidableEq Pid]

/-- Process `p` moves to `c` and the log becomes `log`. -/
def World.move (w : World Pid) (p : Pid) (c : Pc) (log : Log) : World Pid :=
  { w with log := log, pc := update w.pc p c }

/-- One step, `none` when the process is elsewhere or has to sleep.  An
operation logs at most `MAXOPBLOCKS` distinct blocks. -/
def step (w : World Pid) : Call Pid → Option (Except Panic (World Pid))
  | .beginOp p =>
    match w.pc p with
    | .idle => (beginOp w.log).map fun log => .ok (w.move p (.inOp ∅) log)
    | _ => none
  | .logWrite p b =>
    match w.pc p with
    | .inOp s =>
      if (insert b s).card ≤ MAXOPBLOCKS then
        some ((logWrite w.log b).map fun log => w.move p (.inOp (insert b s)) log)
      else
        none
    | _ => none
  | .endOp p =>
    match w.pc p with
    | .inOp _ =>
      some ((endOp w.log).map fun r =>
        w.move p (if r.1 then .committing else .idle) r.2)
    | _ => none
  | .commit p =>
    match w.pc p with
    | .committing =>
      let r := commit w.log w.dev
      some (.ok { w.move p .committed r.1 with dev := r.2 })
    | _ => none
  | .endCommit p =>
    match w.pc p with
    | .committed => some (.ok (w.move p .idle (endCommit w.log)))
    | _ => none

/-- The system after `initlog`, with the log size that `mkfs` writes. -/
def World.init (start : Nat) (dev : Dev) : World Pid :=
  { log := Log.init start LOGSIZE, dev := dev, pc := fun _ => .idle }

/-- A step that does not panic. -/
def Step (w : World Pid) (l : Call Pid) (w' : World Pid) : Prop :=
  step w l = some (.ok w')

/-! ## Reservations -/

/-- How many further blocks the process may log. -/
def Pc.allowance : Pc → Nat
  | .idle => 0
  | .inOp s => MAXOPBLOCKS - s.card
  | .committing => 0
  | .committed => 0

/-- One for a process in an operation. -/
def Pc.open : Pc → Nat
  | .idle => 0
  | .inOp _ => 1
  | .committing => 0
  | .committed => 0

variable [Fintype Pid]

/-- The blocks that the open operations may still log. -/
def World.reserved (w : World Pid) : Nat := ∑ p, (w.pc p).allowance

/-- The log has room for the open operations and one more. -/
def World.Room (w : World Pid) : Prop :=
  w.log.lh.length + w.reserved + MAXOPBLOCKS < LOGSIZE - 1

instance (w : World Pid) : Decidable w.Room := inferInstanceAs (Decidable (_ < _))

/-- A step that does not panic and, if it admits an operation, finds room
for it. -/
def RoomyStep (w : World Pid) (l : Call Pid) (w' : World Pid) : Prop :=
  Step w l w' ∧ ∀ p, l = .beginOp p → w.Room

/-- A step that does not panic and admits no operation. -/
def QuietStep (w : World Pid) (l : Call Pid) (w' : World Pid) : Prop :=
  Step w l w' ∧ ∀ p, l ≠ .beginOp p

/-! ## What a step does -/

omit [Fintype Pid] in
theorem step_cases {w : World Pid} {l : Call Pid} {r : Except Panic (World Pid)}
    (h : step w l = some r) :
    (∃ p log, l = .beginOp p ∧ w.pc p = .idle ∧ beginOp w.log = some log ∧
      r = .ok (w.move p (.inOp ∅) log)) ∨
    (∃ p b s, l = .logWrite p b ∧ w.pc p = .inOp s ∧ (insert b s).card ≤ MAXOPBLOCKS ∧
      r = (logWrite w.log b).map fun log => w.move p (.inOp (insert b s)) log) ∨
    (∃ p s, l = .endOp p ∧ w.pc p = .inOp s ∧
      r = (endOp w.log).map fun r => w.move p (if r.1 then .committing else .idle) r.2) ∨
    (∃ p, l = .commit p ∧ w.pc p = .committing ∧
      r = .ok { w.move p .committed (commit w.log w.dev).1 with
        dev := (commit w.log w.dev).2 }) ∨
    (∃ p, l = .endCommit p ∧ w.pc p = .committed ∧ r = .ok (w.move p .idle (endCommit w.log))) := by
  cases l with
  | beginOp p =>
    simp only [step] at h
    split at h
    · rename_i hpc
      obtain ⟨log, hlog, rfl⟩ := map_eq_some_iff.1 h
      exact .inl ⟨p, log, rfl, hpc, hlog, rfl⟩
    · cases h
  | logWrite p b =>
    simp only [step] at h
    split at h
    · rename_i s hpc
      split at h
      · rename_i hcard
        exact .inr (.inl ⟨p, b, s, rfl, hpc, hcard, (some.inj h).symm⟩)
      · cases h
    · cases h
  | endOp p =>
    simp only [step] at h
    split at h
    · rename_i s hpc
      exact .inr (.inr (.inl ⟨p, s, rfl, hpc, (some.inj h).symm⟩))
    · cases h
  | commit p =>
    simp only [step] at h
    split at h
    · rename_i hpc
      exact .inr (.inr (.inr (.inl ⟨p, rfl, hpc, (some.inj h).symm⟩)))
    · cases h
  | endCommit p =>
    simp only [step] at h
    split at h
    · rename_i hpc
      exact .inr (.inr (.inr (.inr ⟨p, rfl, hpc, (some.inj h).symm⟩)))
    · cases h

theorem beginOp_eq_some {log' : Log} (h : beginOp log = some log') : log.committing = false ∧
      (log.lh.length : Int) + (log.outstanding + 1) * MAXOPBLOCKS ≤ LOGSIZE ∧
      log' = { log with outstanding := log.outstanding + 1 } := by
  unfold beginOp at h
  split at h
  · cases h
  rename_i hc
  split at h
  · cases h
  rename_i hfit
  exact ⟨by simpa using hc, by omega, (some.inj h).symm⟩

theorem endOp_eq_ok {r : Bool × Log} (h : endOp log = .ok r) : log.committing = false ∧
      ((log.outstanding = 1 ∧ r = (true, { log with outstanding := 0, committing := true })) ∨
      (log.outstanding ≠ 1 ∧ r = (false, { log with outstanding := log.outstanding - 1 }))) := by
  unfold endOp at h
  split at h
  · cases h
  rename_i hc
  refine ⟨by simpa using hc, ?_⟩
  split at h
  · rename_i hlast
    left
    refine ⟨by omega, ?_⟩
    rw [← Except.ok.inj h, hlast]
  · rename_i hlast
    exact .inr ⟨by omega, (Except.ok.inj h).symm⟩

/-- `commit` empties the header and leaves the rest of the log alone. -/
theorem commit_fst (log : Log) (d : Dev) : (commit log d).1 = { log with lh := [] } := by
  unfold commit
  split
  · rfl
  rename_i h
  have hnil : log.lh = [] := List.length_eq_zero_iff.1 (by omega)
  obtain ⟨start, size, outstanding, committing, lh⟩ := log
  simp only at hnil
  rw [hnil]

/-- One for a process in the committing part of `end_op`. -/
def Pc.commits : Pc → Nat
  | .idle => 0
  | .inOp _ => 0
  | .committing => 1
  | .committed => 1

omit [Fintype Pid] in
@[simp] theorem World.move_log (w : World Pid) (p : Pid) (c : Pc) (log : Log) :
    (w.move p c log).log = log := rfl

/-- How a move of one process from `c₀` to `c` changes a sum over the
processes. -/
theorem World.sum_move (w : World Pid) {p : Pid} {c₀ : Pc} {g : Pc → Nat} {m n : Nat}
    (hpc : w.pc p = c₀) (hm : g c₀ = m) (hn : g c = n) (log : Log) :
    ∑ q, g ((w.move p c log).pc q) + m = ∑ q, g (w.pc q) + n := by
  subst hpc hm hn
  exact sum_update w.pc g p c

/-! ## The invariant of every run -/

/-- The counters of the log agree with the processes, nobody is in an
operation while the log commits, and what an open operation logged is in
the header. -/
structure Inv (w : World Pid) : Prop where
  size : w.log.size = LOGSIZE
  outstanding : w.log.outstanding = ((∑ p, (w.pc p).open : Nat) : Int)
  committers : ∑ p, (w.pc p).commits = if w.log.committing then 1 else 0
  quiet : w.log.committing = true → ∑ p, (w.pc p).open = 0
  logged : ∀ p s, w.pc p = .inOp s → s.card ≤ MAXOPBLOCKS ∧ ∀ b ∈ s, b ∈ w.log.lh

omit [DecidableEq Pid] in
theorem Inv.init (start : Nat) (dev : Dev) : Inv (World.init start dev : World Pid) where
  size := rfl
  outstanding := by simp [World.init, Log.init, Pc.open]
  committers := by simp [World.init, Log.init, Pc.commits]
  quiet := by simp [World.init, Log.init]
  logged := by simp [World.init]

section Inv

variable {w w' : World Pid} {p : Pid}

omit [DecidableEq Pid] in
theorem Inv.one_le_outstanding (hinv : Inv w) (hpc : w.pc p = .inOp s) : 1 ≤ w.log.outstanding := by
  have hle := le_sum w.pc Pc.open p
  rw [hpc, Pc.open] at hle
  rw [hinv.outstanding]
  omega

omit [DecidableEq Pid] in
theorem Inv.not_committing (hinv : Inv w) (hpc : w.pc p = .inOp s) : w.log.committing = false := by
  by_contra hc
  have hzero := hinv.quiet (by simpa using hc)
  have hone := hinv.one_le_outstanding hpc
  rw [hinv.outstanding] at hone
  omega

omit [DecidableEq Pid] in
theorem Inv.committing_of (hinv : Inv w) (hpc : (w.pc p).commits = 1) :
    w.log.committing = true := by
  by_contra hc
  have hle := le_sum w.pc Pc.commits p
  have hsum := hinv.committers
  rw [if_neg hc] at hsum
  omega

section

variable (hinv : Inv w)

include hinv

/-- Moving a process keeps what the other open operations logged, if the
header keeps it. -/
theorem Inv.logged_move (hlh : ∀ q s, w.pc q = .inOp s → ∀ b ∈ s, b ∈ log.lh)
    (hc : ∀ s, c = .inOp s → s.card ≤ MAXOPBLOCKS ∧ ∀ b ∈ s, b ∈ log.lh) :
    ∀ q s, (w.move p c log).pc q = .inOp s →
      s.card ≤ MAXOPBLOCKS ∧ ∀ b ∈ s, b ∈ (w.move p c log).log.lh := by
  intro q s hq
  simp only [World.move] at hq ⊢
  by_cases hqp : q = p
  · subst hqp
    rw [update_self] at hq
    exact hc s hq
  · rw [update_of_ne hqp] at hq
    exact ⟨(hinv.logged q s hq).1, hlh q s hq⟩

theorem Inv.of_beginOp (hpc : w.pc p = .idle)
    (h : beginOp w.log = some log) : Inv (w.move p (.inOp ∅) log) := by
  obtain ⟨hc, -, rfl⟩ := beginOp_eq_some h
  have hopen := w.sum_move hpc (show Pc.open .idle = 0 from rfl)
    (show Pc.open (.inOp ∅) = 1 from rfl)
  have hcom := w.sum_move hpc (show Pc.commits .idle = 0 from rfl)
    (show Pc.commits (.inOp ∅) = 0 from rfl)
  refine ⟨hinv.size, ?_, ?_, ?_, ?_⟩
  · rw [Nat.add_right_cancel (hopen _), World.move_log, hinv.outstanding]
    simp
  · rw [Nat.add_right_cancel (hcom _)]
    exact hinv.committers
  · simp [hc]
  · apply hinv.logged_move (fun q s hq => (hinv.logged q s hq).2)
    intro s hs
    obtain rfl := Pc.inOp.inj hs
    simp

theorem Inv.of_logWrite (hpc : w.pc p = .inOp s) (hcard : (insert b s).card ≤ MAXOPBLOCKS)
    (h : logWrite w.log b = .ok log) : Inv (w.move p (.inOp (insert b s)) log) := by
  obtain ⟨-, -, -, rfl⟩ := logWrite_eq_ok h
  have hc := hinv.not_committing hpc
  have hopen := w.sum_move hpc (show Pc.open (.inOp s) = 1 from rfl)
    (show Pc.open (.inOp (insert b s)) = 1 from rfl)
  have hcom := w.sum_move hpc (show Pc.commits (.inOp s) = 0 from rfl)
    (show Pc.commits (.inOp (insert b s)) = 0 from rfl)
  have hgrow : ∀ c ∈ w.log.lh, c ∈ if b ∈ w.log.lh then w.log.lh else w.log.lh ++ [b] := by
    intro c hcmem
    split
    · exact hcmem
    · exact List.mem_append_left _ hcmem
  refine ⟨hinv.size, ?_, ?_, ?_, ?_⟩
  · rw [Nat.add_right_cancel (hopen _)]
    exact hinv.outstanding
  · rw [Nat.add_right_cancel (hcom _)]
    exact hinv.committers
  · simp [hc]
  apply hinv.logged_move (fun q t hq c hct => hgrow c ((hinv.logged q t hq).2 c hct))
  intro t ht
  obtain rfl := Pc.inOp.inj ht
  refine ⟨hcard, ?_⟩
  intro c hct
  rcases Finset.mem_insert.1 hct with rfl | hcs
  · by_cases hmem : c ∈ w.log.lh <;> simp [hmem]
  · exact hgrow c ((hinv.logged p s hpc).2 c hcs)

/-- The last operation ends: its process goes on to commit. -/
theorem Inv.endLast (hpc : w.pc p = .inOp s) (hone : w.log.outstanding = 1)
    (hlog : log = { w.log with outstanding := 0, committing := true }) :
    Inv (w.move p .committing log) := by
  have hopen := w.sum_move hpc (show Pc.open (.inOp s) = 1 from rfl)
    (show Pc.open .committing = 0 from rfl) log
  have hcom := w.sum_move hpc (show Pc.commits (.inOp s) = 0 from rfl)
    (show Pc.commits .committing = 1 from rfl) log
  have hcommit := hinv.committers
  rw [hinv.not_committing hpc] at hcommit
  simp only [Bool.false_eq_true, if_false] at hcommit
  rw [hinv.outstanding] at hone
  have hzero : ∑ q, ((w.move p .committing log).pc q).open = 0 := by omega
  have hout : log.outstanding = 0 := by rw [hlog]
  have hc : log.committing = true := by rw [hlog]
  refine ⟨by rw [World.move_log, hlog]; exact hinv.size, ?_, ?_, fun _ => hzero, ?_⟩
  · rw [World.move_log, hout, hzero]
    rfl
  · rw [World.move_log, hc, if_pos rfl]
    omega
  apply hinv.logged_move
  · rw [hlog]
    exact fun q t hq => (hinv.logged q t hq).2
  · simp

/-- An operation ends while others are open. -/
theorem Inv.endMore (hpc : w.pc p = .inOp s)
    (hlog : log = { w.log with outstanding := w.log.outstanding - 1 }) :
    Inv (w.move p .idle log) := by
  have hopen := w.sum_move hpc (show Pc.open (.inOp s) = 1 from rfl)
    (show Pc.open .idle = 0 from rfl) log
  have hcom := w.sum_move hpc (show Pc.commits (.inOp s) = 0 from rfl)
    (show Pc.commits .idle = 0 from rfl) log
  have hout : log.outstanding = w.log.outstanding - 1 := by rw [hlog]
  have hc : log.committing = w.log.committing := by rw [hlog]
  refine ⟨by rw [World.move_log, hlog]; exact hinv.size, ?_, ?_, ?_, ?_⟩
  · rw [World.move_log, hout, hinv.outstanding]
    omega
  · rw [World.move_log, hc, Nat.add_right_cancel hcom]
    exact hinv.committers
  · rw [World.move_log, hc, hinv.not_committing hpc]
    simp
  · apply hinv.logged_move
    · rw [hlog]
      exact fun q t hq => (hinv.logged q t hq).2
    · simp

theorem Inv.of_endOp {r : Bool × Log} (hpc : w.pc p = .inOp s) (h : endOp w.log = .ok r) :
    Inv (w.move p (if r.1 then .committing else .idle) r.2) := by
  obtain ⟨-, ⟨hlast, rfl⟩ | ⟨-, rfl⟩⟩ := endOp_eq_ok h
  · exact hinv.endLast hpc hlast rfl
  · exact hinv.endMore hpc rfl

theorem Inv.of_commit (hpc : w.pc p = .committing) (d : Dev) :
    Inv { w.move p .committed { w.log with lh := [] } with dev := d } := by
  have hc : w.log.committing = true := hinv.committing_of (by rw [hpc]; rfl)
  have hzero := hinv.quiet hc
  have hopen := w.sum_move hpc (show Pc.open .committing = 0 from rfl)
    (show Pc.open .committed = 0 from rfl)
  have hcom := w.sum_move hpc (show Pc.commits .committing = 1 from rfl)
    (show Pc.commits .committed = 1 from rfl)
  refine ⟨hinv.size, ?_, ?_, ?_, ?_⟩
  · rw [Nat.add_right_cancel (hopen _)]
    exact hinv.outstanding
  · rw [Nat.add_right_cancel (hcom _)]
    exact hinv.committers
  · intro _
    rwa [Nat.add_right_cancel (hopen _)]
  -- nobody is in an operation
  intro q s hq
  have hle := le_sum (w.move p .committed { w.log with lh := [] }).pc Pc.open q
  rw [Nat.add_right_cancel (hopen _), hzero, hq, Pc.open] at hle
  omega

theorem Inv.of_endCommit (hpc : w.pc p = .committed) : Inv (w.move p .idle (endCommit w.log)) := by
  have hc : w.log.committing = true := hinv.committing_of (by rw [hpc]; rfl)
  have hcommit := hinv.committers
  have hopen := w.sum_move hpc (show Pc.open .committed = 0 from rfl)
    (show Pc.open .idle = 0 from rfl)
  have hcom := w.sum_move hpc (show Pc.commits .committed = 1 from rfl)
    (show Pc.commits .idle = 0 from rfl) (endCommit w.log)
  refine ⟨hinv.size, ?_, ?_, ?_, ?_⟩
  · rw [Nat.add_right_cancel (hopen _)]
    exact hinv.outstanding
  · rw [hc, if_pos rfl] at hcommit
    rw [World.move_log, if_neg (by simp [endCommit])]
    omega
  · simp [endCommit]
  · apply hinv.logged_move (fun q t hq => (hinv.logged q t hq).2)
    simp

/-- Every step keeps the invariant. -/
theorem Inv.of_step {l : Call Pid} (h : Step w l w') : Inv w' := by
  rcases step_cases h with ⟨p, log, -, hpc, hlog, hr⟩ | ⟨p, b, s, -, hpc, hcard, hr⟩ |
    ⟨p, s, -, hpc, hr⟩ | ⟨p, -, hpc, hr⟩ | ⟨p, -, hpc, hr⟩
  · cases hr
    exact hinv.of_beginOp hpc hlog
  · obtain ⟨log, hlog, rfl⟩ := map_eq_ok.1 hr.symm
    exact hinv.of_logWrite hpc hcard hlog
  · obtain ⟨r, hend, rfl⟩ := map_eq_ok.1 hr.symm
    exact hinv.of_endOp hpc hend
  · cases hr
    rw [commit_fst]
    exact hinv.of_commit hpc _
  · cases hr
    exact hinv.of_endCommit hpc

end

end Inv

/-! ## Room -/

/-- The invariant of a run whose admissions all find room: the log has room
for everything that the open operations may still log. -/
structure RoomInv (w : World Pid) : Prop extends Inv w where
  room : w.log.lh.length + w.reserved < LOGSIZE - 1

section Room

variable {w w' : World Pid} {p : Pid} {l : Call Pid}

theorem World.reserved_move (w : World Pid) {c₀ : Pc} {m n : Nat} (hpc : w.pc p = c₀)
    (hm : c₀.allowance = m) (hn : c.allowance = n) (log : Log) :
    (w.move p c log).reserved + m = w.reserved + n :=
  w.sum_move hpc hm hn log

/-- A write to a block that is new in the header uses up one block of its
operation's allowance; an absorbed one may do so too. -/
theorem Inv.reserved_logWrite (hinv : Inv w)
    (hpc : w.pc p = .inOp s) (hcard : (insert b s).card ≤ MAXOPBLOCKS)
    (h : logWrite w.log b = .ok log) :
    log.lh.length + (w.move p (.inOp (insert b s)) log).reserved ≤
      w.log.lh.length + w.reserved := by
  obtain ⟨-, -, -, hlog⟩ := logWrite_eq_ok h
  have hres := w.reserved_move hpc (show Pc.allowance (.inOp s) = MAXOPBLOCKS - s.card from rfl)
    (show Pc.allowance (.inOp (insert b s)) = MAXOPBLOCKS - (insert b s).card from rfl) log
  have hgrow : s.card ≤ (insert b s).card := Finset.card_le_card (Finset.subset_insert b s)
  by_cases hmem : b ∈ w.log.lh
  · have hlen : log.lh.length = w.log.lh.length := by simp [hlog, hmem]
    omega
  -- a block that is not in the header is new to the operation
  have hnew : b ∉ s := fun hb => hmem ((hinv.logged p s hpc).2 b hb)
  have hone : (insert b s).card = s.card + 1 := Finset.card_insert_of_notMem hnew
  have hlen : log.lh.length = w.log.lh.length + 1 := by simp [hlog, hmem]
  omega

/-- A step that finds room for what it admits keeps the invariant. -/
theorem RoomInv.of_step (hinv : RoomInv w) (h : RoomyStep w l w') : RoomInv w' := by
  refine ⟨hinv.toInv.of_step h.1, ?_⟩
  have hroom := hinv.room
  rcases step_cases h.1 with ⟨p, log, hl, hpc, hlog, hr⟩ | ⟨p, b, s, -, hpc, hcard, hr⟩ |
    ⟨p, s, -, hpc, hr⟩ | ⟨p, -, hpc, hr⟩ | ⟨p, -, hpc, hr⟩
  · cases hr
    have hnew : w.Room := h.2 p hl
    have hres := w.reserved_move hpc (show Pc.allowance .idle = 0 from rfl)
      (show Pc.allowance (.inOp ∅) = MAXOPBLOCKS from rfl) log
    have hlen : log.lh.length = w.log.lh.length := by rw [(beginOp_eq_some hlog).2.2]
    unfold World.Room at hnew
    rw [World.move_log]
    omega
  · obtain ⟨log, hlog, rfl⟩ := map_eq_ok.1 hr.symm
    exact lt_of_le_of_lt (hinv.toInv.reserved_logWrite hpc hcard hlog) hroom
  · obtain ⟨⟨last, log⟩, hend, rfl⟩ := map_eq_ok.1 hr.symm
    have hlen : log.lh.length = w.log.lh.length := by
      obtain ⟨-, ⟨-, heq⟩ | ⟨-, heq⟩⟩ := endOp_eq_ok hend <;> rw [(Prod.mk.inj heq).2]
    have hzero : Pc.allowance (if last then .committing else .idle) = 0 := by cases last <;> rfl
    have hres := w.reserved_move hpc (show Pc.allowance (.inOp s) = _ from rfl) hzero log
    show log.lh.length + (w.move p (if last then .committing else .idle) log).reserved < _
    omega
  · cases hr
    rw [commit_fst]
    have hres := w.reserved_move hpc (show Pc.allowance .committing = 0 from rfl)
      (show Pc.allowance .committed = 0 from rfl) { w.log with lh := [] }
    show 0 + (w.move p .committed { w.log with lh := [] }).reserved < _
    omega
  · cases hr
    have hres := w.reserved_move hpc (show Pc.allowance .committed = 0 from rfl)
      (show Pc.allowance .idle = 0 from rfl) (endCommit w.log)
    show w.log.lh.length + _ < _
    omega

/-- With room left no step panics. -/
theorem RoomInv.no_panic (hinv : RoomInv w) (l : Call Pid) (e : Panic) :
    step w l ≠ some (.error e) := by
  intro h
  rcases step_cases h with ⟨p, log, -, -, -, hr⟩ | ⟨p, b, s, -, hpc, -, hr⟩ |
    ⟨p, s, -, hpc, hr⟩ | ⟨p, -, -, hr⟩ | ⟨p, -, -, hr⟩
  · cases hr
  · have hsize := hinv.size
    have hroom := hinv.room
    have hone := hinv.toInv.one_le_outstanding hpc
    have hfit : ¬ (w.log.lh.length ≥ LOGSIZE ∨
        (w.log.lh.length : Int) ≥ (w.log.size : Int) - 1) := by
      rw [hsize]
      omega
    rw [logWrite, if_neg hfit, if_neg (by omega)] at hr
    split at hr <;> cases hr
  · rw [endOp, hinv.toInv.not_committing hpc] at hr
    simp only [Bool.false_eq_true, if_false] at hr
    split at hr <;> cases hr
  · cases hr
  · cases hr

end Room

/-! ## Admissions that find no room -/

section NoRoom

variable {w : World Pid} {p : Pid}

/-- A block that is not in the header. -/
theorem exists_notMem (lh : List Nat) : ∃ b, b ∉ lh := by
  obtain ⟨b, hb⟩ := Infinite.exists_notMem_finset lh.toFinset
  exact ⟨b, by simpa using hb⟩

/-- While the log is below its limit, an operation with allowance left can
log a block that is new in the header. -/
theorem Inv.fresh_logWrite (hinv : Inv w) (hpc : w.pc p = .inOp s)
    (hallow : 0 < Pc.allowance (.inOp s)) (hlen : w.log.lh.length < LOGSIZE - 1) :
    ∃ b w', QuietStep w (.logWrite p b) w' ∧ w'.pc p = .inOp (insert b s) ∧
      w'.log.lh.length = w.log.lh.length + 1 ∧ w'.reserved + 1 = w.reserved := by
  obtain ⟨b, hb⟩ := exists_notMem w.log.lh
  have hnew : b ∉ s := fun hbs => hb ((hinv.logged p s hpc).2 b hbs)
  have hone : (insert b s).card = s.card + 1 := Finset.card_insert_of_notMem hnew
  have hout := hinv.one_le_outstanding hpc
  have hfit : ¬ (w.log.lh.length ≥ LOGSIZE ∨ (w.log.lh.length : Int) ≥ (w.log.size : Int) - 1) := by
    rw [hinv.size]
    omega
  have hlog : logWrite w.log b = .ok { w.log with lh := w.log.lh ++ [b] } := by
    rw [logWrite, if_neg hfit, if_neg (by omega), if_neg hb]
  have hcard : (insert b s).card ≤ MAXOPBLOCKS := by
    rw [Pc.allowance] at hallow
    omega
  refine ⟨b, w.move p (.inOp (insert b s)) { w.log with lh := w.log.lh ++ [b] },
    ⟨?_, by simp⟩, ?_, ?_, ?_⟩
  · simp only [Step, step, hpc, if_pos hcard, hlog]
    rfl
  · simp [World.move]
  · simp
  have hres := w.reserved_move hpc (show Pc.allowance (.inOp s) = MAXOPBLOCKS - s.card from rfl)
    (show Pc.allowance (.inOp (insert b s)) = MAXOPBLOCKS - (insert b s).card from rfl)
    { w.log with lh := w.log.lh ++ [b] }
  rw [Pc.allowance] at hallow
  omega

/-- When an operation has logged a block and the log is at its limit,
logging that block again panics. -/
theorem Inv.full_logWrite (hinv : Inv w)
    (hpc : w.pc p = .inOp s) (hb : b ∈ s) (hlen : w.log.lh.length = LOGSIZE - 1) :
    step w (.logWrite p b) = some (.error .tooBigATransaction) := by
  have hfull : w.log.lh.length ≥ LOGSIZE ∨ (w.log.lh.length : Int) ≥ (w.log.size : Int) - 1 := by
    rw [hinv.size, hlen]
    right
    decide
  have hcard := (hinv.logged p s hpc).1
  simp only [step, hpc, Finset.insert_eq_of_mem hb, if_pos hcard, logWrite, if_pos hfull]
  rfl

/-- When the allowances exceed the room, log writes alone lead to the
panic. -/
theorem Inv.exists_panic (hinv : Inv w) (hlen : w.log.lh.length < LOGSIZE - 1)
    (hover : LOGSIZE - 1 ≤ w.log.lh.length + w.reserved) :
    ∃ ls u l, Run QuietStep w ls u ∧ step u l = some (.error .tooBigATransaction) := by
  obtain ⟨k, hk⟩ : ∃ k, w.log.lh.length + (k + 1) = LOGSIZE - 1 :=
    ⟨LOGSIZE - 1 - w.log.lh.length - 1, by omega⟩
  -- on the number of blocks that fit before the limit is reached
  induction k generalizing w with
  | zero =>
    obtain ⟨p, hp⟩ := exists_pos_of_sum_pos w.pc Pc.allowance (by
      show 0 < w.reserved
      omega)
    cases hpc : w.pc p with
    | inOp s =>
      obtain ⟨b, w', hstep, hpc', hlen', -⟩ :=
        hinv.fresh_logWrite hpc (by rwa [hpc] at hp) hlen
      refine ⟨_, w', .logWrite p b, Run.single hstep, ?_⟩
      exact (hinv.of_step hstep.1).full_logWrite hpc' (Finset.mem_insert_self b s) (by omega)
    | idle | committing | committed => simp [hpc, Pc.allowance] at hp
  | succ k ih =>
    obtain ⟨p, hp⟩ := exists_pos_of_sum_pos w.pc Pc.allowance (by
      show 0 < w.reserved
      omega)
    cases hpc : w.pc p with
    | inOp s =>
      obtain ⟨b, w', hstep, hpc', hlen', hres⟩ :=
        hinv.fresh_logWrite hpc (by rwa [hpc] at hp) hlen
      obtain ⟨ls, u, l, hrun, hpanic⟩ :=
        ih (hinv.of_step hstep.1) (by omega) (by omega) (by omega)
      exact ⟨_, u, l, Run.cons hstep hrun, hpanic⟩
    | idle | committing | committed => simp [hpc, Pc.allowance] at hp

end NoRoom

/-! ## The reservation -/

/-- In a run whose admissions all find room, no call panics in any state;
and an admission keeps `log_write` from panicking with `too big a
transaction` until the next one exactly when it finds room. -/
theorem log_never_overflows_of_room {start : Nat} {dev : Dev} {ls : List (Call Pid)}
    {w : World Pid} (hrun : Run RoomyStep (World.init start dev) ls w) :
    (∀ l e, step w l ≠ some (.error e)) ∧ ∀ p w', step w (.beginOp p) = some (.ok w') →
        ((∀ ls' u l, Run QuietStep w' ls' u →
          step u l ≠ some (.error .tooBigATransaction)) ↔ w.Room) := by
  have hstart : RoomInv (World.init start dev : World Pid) :=
    ⟨Inv.init start dev, by simp [World.init, Log.init, World.reserved, Pc.allowance]; decide⟩
  have hinv : RoomInv w := hrun.inv hstart fun _ _ _ => RoomInv.of_step
  refine ⟨hinv.no_panic, ?_⟩
  intro p w' hbegin
  constructor
  · intro hsafe
    by_contra hroom
    have hinv' : Inv w' := hinv.toInv.of_step hbegin
    rcases step_cases hbegin with ⟨q, log, hq, hpc, hlog, hr⟩ | ⟨_, _, _, hl, _⟩ |
      ⟨_, _, hl, _⟩ | ⟨_, hl, _⟩ | ⟨_, hl, _⟩
    · cases hr
      obtain ⟨-, hadmit, heq⟩ := beginOp_eq_some hlog
      have hlen : log.lh.length = w.log.lh.length := by rw [heq]
      have hres := w.reserved_move hpc (show Pc.allowance .idle = 0 from rfl)
        (show Pc.allowance (.inOp ∅) = MAXOPBLOCKS from rfl) log
      have hout := hinv.outstanding
      have hsmall : log.lh.length < LOGSIZE - 1 := by
        unfold LOGSIZE MAXOPBLOCKS at *
        omega
      have hover : LOGSIZE - 1 ≤ log.lh.length + (w.move q (.inOp ∅) log).reserved := by
        unfold World.Room at hroom
        omega
      obtain ⟨ls', u, l, hquiet, hpanic⟩ := hinv'.exists_panic hsmall hover
      exact hsafe ls' u l hquiet hpanic
    all_goals cases hl
  · intro hroom ls' u l hquiet
    have hinv' : RoomInv w' := hinv.of_step ⟨hbegin, fun _ _ => hroom⟩
    have hu : RoomInv u := hquiet.inv hinv' fun _ l _ ht hs =>
      ht.of_step ⟨hs.1, fun q hq => absurd hq (hs.2 q)⟩
    exact hu.no_panic l _

/-- A device of empty blocks. -/
def blankDev : Dev := Dev.boot fun _ _ => 0

/-- The next state of a step that does not panic and finds room. -/
def next (w : World Pid) (l : Call Pid) : Option (World Pid) :=
  if ∀ p, l = .beginOp p → w.Room then (step w l).bind Except.toOption else none

omit [Fintype Pid] in
theorem step_of_toOption {w w' : World Pid} {l : Call Pid}
    (h : (step w l).bind Except.toOption = some w') : Step w l w' := eq_ok_of_toOption h

theorem roomyStep_of_next {w w' : World Pid} {l : Call Pid} (h : next w l = some w') :
    RoomyStep w l w' := by
  unfold next at h
  split at h
  · rename_i hroom
    exact ⟨step_of_toOption h, hroom⟩
  · cases h

/-- Two operations find room, and the run that admits them cannot panic. -/
theorem log_never_overflows_of_room_two : ∃ w : World (Fin 2),
      Run RoomyStep (World.init 2 blankDev) [.beginOp 0, .logWrite 0 100, .beginOp 1] w ∧
        w.log.outstanding = 2 ∧ ∀ l e, step w l ≠ some (.error e) := by
  obtain ⟨w, hrun, hout⟩ : ∃ w : World (Fin 2),
      Run (fun w l w' => next w l = some w') (World.init 2 blankDev)
        [.beginOp 0, .logWrite 0 100, .beginOp 1] w ∧ w.log.outstanding = 2 :=
    ⟨_, Run.of_follow rfl, rfl⟩
  have hroomy := hrun.mono fun _ _ _ => roomyStep_of_next
  exact ⟨w, hroomy, hout, (log_never_overflows_of_room hroomy).1⟩

/-- Three operations begin, and two of them log ten blocks each and the
third nine. -/
def threeOps : List (Call (Fin 3)) :=
  [.beginOp 0, .beginOp 1, .beginOp 2] ++ (List.range 10).map (fun i => .logWrite 0 (100 + i)) ++
    (List.range 10).map (fun i => .logWrite 1 (110 + i)) ++
    (List.range 9).map (fun i => .logWrite 2 (120 + i))

/-- `begin_op` admits all three, and the tenth block of the third panics. -/
theorem log_overflows_three_ops : ∃ w, Run Step (World.init 2 blankDev) threeOps w ∧
      step w (.logWrite 2 129) = some (.error .tooBigATransaction) :=
  ⟨_, (Run.of_follow rfl).mono fun _ _ _ => step_of_toOption, rfl⟩

end Admission

end Xv6
