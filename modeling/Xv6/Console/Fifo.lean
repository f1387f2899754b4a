import Xv6.Console
import Xv6.Sched.Wakeup

/-!
# The console ring is a queue of committed bytes

The ring of the console has three counters.  The bytes from `r` to `w` are
committed: a whole line, an end of file, or a full ring has made them
readable.  The bytes from `w` to `e` are being typed and can still be erased.

`tracedCode` is the code of the console with two histories on the side: the
bytes that `consoleintr` has committed, and those over which readers have
moved `r`.  In every run of any number of readers and interrupts the counters
keep their order, also when they wrap, and the consumed bytes followed by the
committed bytes in the ring are all the committed bytes.

`consoleintr` holds `cons.lock` while it works.  Here it is one step that can
happen at any time, also while a reader holds the lock, and a sleeping reader
can be woken at any time: both only add runs.
-/

namespace Xv6.Console

open Lib Sched List Ring State

/-! ## The indices -/

/-- The counters are in order, and what they count fits in the ring. -/
structure Indices (cons : Cons) : Prop where
  order : Ring.size cons.r cons.w ≤ Ring.size cons.r cons.e
  fits : Ring.size cons.r cons.e ≤ INPUT_BUF_SIZE

/-- The committed bytes that nobody has read. -/
def Cons.ready (cons : Cons) : List UInt8 := Ring.contents cons.buf cons.r cons.w

/-- The bytes that are being typed. -/
def Cons.typed (cons : Cons) : List UInt8 := Ring.contents cons.buf cons.w cons.e

theorem dvd_wrap : INPUT_BUF_SIZE ∣ 2 ^ 32 := by decide

/-- Some of the last typed bytes are erased. -/
structure Erased (cons cons' : Cons) : Prop where
  buf : cons'.buf = cons.buf
  r : cons'.r = cons.r
  w : cons'.w = cons.w
  back : Ring.size cons.w cons'.e ≤ Ring.size cons.w cons.e

namespace Erased

variable {cons cons' cons'' : Cons}

theorem refl (cons : Cons) : Erased cons cons := ⟨rfl, rfl, rfl, le_refl _⟩

theorem trans (h : Erased cons cons') (h' : Erased cons' cons'') : Erased cons cons'' where
  buf := h'.buf.trans h.buf
  r := h'.r.trans h.r
  w := h'.w.trans h.w
  back := by
    have hback := h'.back
    rw [h.w] at hback
    exact le_trans hback h.back

/-- Erasing one byte. -/
theorem one (hne : cons.e ≠ cons.w) : Erased cons { cons with e := cons.e - 1 } where
  buf := rfl
  r := rfl
  w := rfl
  back := by
    have hsize := size_back (Ne.symm hne)
    show size cons.w (cons.e - 1) ≤ _
    omega

theorem indices (h : Erased cons cons') (hi : Indices cons) : Indices cons' := by
  have hsize := size_le_of_back hi.order h.back
  have hfits := hi.fits
  constructor
  · rw [h.r, h.w]
    exact hsize.1
  · rw [h.r]
    omega

theorem ready_eq (h : Erased cons cons') : cons'.ready = cons.ready := by
  rw [Cons.ready, h.buf, h.r, h.w, Cons.ready]

/-- What is left was typed first. -/
theorem typed_prefix (h : Erased cons cons') : cons'.typed <+: cons.typed := by
  rw [Cons.typed, h.buf, h.w, Cons.typed, contents_append cons.buf h.back]
  exact prefix_append _ _

end Erased

theorem eraseLine_erased (n : Nat) (cons : Cons) : Erased cons (eraseLine n cons) := by
  induction n generalizing cons with
  | zero => exact Erased.refl cons
  | succ n ih =>
    rw [eraseLine]
    split
    · rename_i h
      exact (Erased.one h.1).trans (ih _)
    · exact Erased.refl cons

/-- Kill line, backspace and delete. -/
def Edits (c : UInt8) : Prop := c = C 85 ∨ c = C 72 ∨ c = 127

variable {c : UInt8}

theorem consoleintr_edits (hc : Edits c) (cons : Cons) : Erased cons (consoleintr c cons) := by
  have hback : ∀ c, c ≠ C 80 → c ≠ C 85 → c = C 72 ∨ c = 127 →
      Erased cons (consoleintr c cons) := by
    intro c h80 h85 hc
    rw [consoleintr, if_neg h80, if_neg h85, if_pos hc]
    split
    · rename_i hne
      exact Erased.one hne
    · exact Erased.refl cons
  rcases hc with rfl | rfl | rfl
  · rw [consoleintr, if_neg (by decide), if_pos rfl]
    exact eraseLine_erased _ cons
  · exact hback _ (by decide) (by decide) (.inl rfl)
  · exact hback _ (by decide) (by decide) (.inr rfl)

/-- A key keeps the committed bytes, and commits the bytes up to the new
`w`. -/
structure Typed (cons cons' : Cons) : Prop where
  indices : Indices cons'
  r : cons'.r = cons.r
  kept : Ring.contents cons'.buf cons.r cons.w = cons.ready
  ahead : Ring.size cons.r cons.w ≤ Ring.size cons.r cons'.w

theorem Erased.typed {cons cons' : Cons} (h : Erased cons cons') (hi : Indices cons) :
    Typed cons cons' where
  indices := h.indices hi
  r := h.r
  kept := by rw [h.buf, Cons.ready]
  ahead := by rw [h.w]

/-- A byte is stored behind those that are being typed. -/
theorem Indices.store {cons : Cons} (h : Indices cons)
    (hroom : size cons.r cons.e < INPUT_BUF_SIZE) (c : UInt8) {w : UInt32}
    (hw : w = cons.w ∨ w = cons.e + 1) : Typed cons { cons with
      buf := Function.update cons.buf (slot cons.e) c, e := cons.e + 1, w := w } := by
  have hbound : INPUT_BUF_SIZE < 2 ^ 32 := by decide
  have horder := h.order
  have hsucc : size cons.r (cons.e + 1) = size cons.r cons.e + 1 :=
    size_succ (by omega)
  refine ⟨⟨?_, ?_⟩, rfl, contents_update dvd_wrap cons.buf horder hroom c, ?_⟩
  · show size cons.r w ≤ size cons.r (cons.e + 1)
    rcases hw with rfl | rfl
    · omega
    · exact le_refl _
  · show size cons.r (cons.e + 1) ≤ _
    omega
  · show _ ≤ size cons.r w
    rcases hw with rfl | rfl
    · exact le_refl _
    · omega

theorem consoleintr_typed (c : UInt8) {cons : Cons} (h : Indices cons) :
    Typed cons (consoleintr c cons) := by
  by_cases hc : Edits c
  · exact (consoleintr_edits hc cons).typed h
  have h85 : c ≠ C 85 := fun heq => hc (.inl heq)
  have hback : ¬ (c = C 72 ∨ c = 127) := fun heq => hc (.inr heq)
  rw [consoleintr, if_neg h85, if_neg hback]
  split
  · exact (Erased.refl cons).typed h
  split
  · rename_i hstore
    have hroom : size cons.r cons.e < INPUT_BUF_SIZE := UInt32.lt_iff_toNat_lt.1 hstore.2
    extract_lets c' cons'
    split
    · exact h.store hroom c' (.inr rfl)
    · exact h.store hroom c' (.inl rfl)
  · exact (Erased.refl cons).typed h

/-! ## The histories -/

/-- The console with the bytes that were committed and those that readers have
consumed. -/
structure Traced where
  cons : Cons
  committed : List UInt8
  consumed : List UInt8

namespace Traced

/-- A reader changes the console: it has consumed the bytes over which `r` has
moved. -/
def advance (t : Traced) (cons : Cons) : Traced :=
  { t with
    cons := cons
    consumed := t.consumed ++ Ring.contents t.cons.buf t.cons.r cons.r }

/-- `consoleintr(c)`: it has committed the bytes over which `w` has moved. -/
def key (c : UInt8) (t : Traced) : Traced :=
  { t with
    cons := consoleintr c t.cons
    committed := t.committed ++
      Ring.contents (consoleintr c t.cons).buf t.cons.w (consoleintr c t.cons).w }

theorem advance_self (t : Traced) : t.advance t.cons = t := by
  unfold advance
  rw [contents, size_self, range_zero, map_nil, append_nil]

end Traced

/-- The code of the console over the histories. -/
def tracedCode : Code Traced Loc Unit Unit UInt8 where
  instr loc := (code.instr loc).map Traced.cons Traced.advance id id id
  entry := code.entry
  env := Traced.key

/-- The ring is a queue of the committed bytes. -/
structure Queue (t : Traced) : Prop where
  indices : Indices t.cons
  fifo : t.consumed ++ t.cons.ready = t.committed

variable {t : Traced}

theorem Queue.key (h : Queue t) (c : UInt8) : Queue (t.key c) := by
  have htyped := consoleintr_typed c h.indices
  refine ⟨htyped.indices, ?_⟩
  show t.consumed ++ (consoleintr c t.cons).ready = t.committed ++ _
  rw [Cons.ready, htyped.r, contents_append _ htyped.ahead, htyped.kept, ← append_assoc, h.fifo]

/-- A reader that changes nothing. -/
theorem Queue.advance_self (h : Queue t) : Queue (t.advance t.cons) := by
  rwa [t.advance_self]

/-- A reader takes the first committed byte. -/
theorem Queue.advance_one (h : Queue t) (hne : t.cons.r ≠ t.cons.w) :
    Queue (t.advance { t.cons with r := t.cons.r + 1 }) := by
  have horder := h.indices.order
  have hfits := h.indices.fits
  have hw := size_pred hne
  have he : t.cons.r ≠ t.cons.e := by
    intro heq
    rw [heq, size_self] at horder
    rw [heq] at hw
    omega
  have hpred := size_pred he
  refine ⟨⟨?_, ?_⟩, ?_⟩
  · show size (t.cons.r + 1) t.cons.w ≤ size (t.cons.r + 1) t.cons.e
    omega
  · show size (t.cons.r + 1) t.cons.e ≤ _
    omega
  show t.consumed ++ contents t.cons.buf t.cons.r (t.cons.r + 1) ++
    contents t.cons.buf (t.cons.r + 1) t.cons.w = t.committed
  have hone : size t.cons.r (t.cons.r + 1) ≤ size t.cons.r t.cons.w := by
    have hsize : size t.cons.r (t.cons.r + 1) = 1 := (size_eq_iff (by decide)).2 rfl
    omega
  rw [append_assoc, ← contents_append _ hone]
  exact h.fifo

/-! ## Every interleaving -/

/-- The locations at which a reader holds `cons.lock`. -/
def holds : Loc → Bool
  | .read _ _ _ .enter | .returned _ => false
  | _ => true

/-- A reader that is about to fetch a byte knows that there is one. -/
def Sees (t : Traced) : Loc → Prop
  | .read _ _ _ .fetch => t.cons.r ≠ t.cons.w
  | _ => True

/-- The annotations that carry the queue through the code. -/
def monitor : Monitor Traced Loc Unit where
  holds := holds
  inv := Queue
  cond _ _ := True
  pre loc _ t := Queue t ∧ Sees t loc
  owes _ _ _ _ := False

theorem monitor_enters {next : Loc} (hholds : holds next = true) (hsees : ∀ t, Sees t next) :
    monitor.Enters next := ⟨hholds, fun _ t hinv => ⟨hinv, hsees t⟩⟩

theorem monitor_moves {loc next : Loc} (k : Bool) (hholds : holds next = holds loc)
    (hsees : ∀ t, Sees t next) : monitor.Moves loc next k :=
  ⟨hholds, fun _ t hpre => ⟨⟨hpre.1, hsees t⟩, fun _ howes => howes.elim⟩⟩

/-- An instruction of `consoleread` under the lock that looks at the console
or changes it. -/
theorem monitor_access {loc : Loc} {g : Cons → Cons × Loc} (hloc : holds loc = true)
    (hnext : ∀ cons, holds (g cons).2 = true)
    (h : ∀ t, Queue t → Sees t loc → Queue (t.advance (g t.cons).1) ∧
      Sees (t.advance (g t.cons).1) (g t.cons).2) :
    monitor.Ok loc ((Instr.access fun _ cons => some (g cons)).map Traced.cons Traced.advance
      id id id : Instr Traced Loc Unit Unit) := by
  apply Monitor.ok_access hloc
  intro p t t' next hf
  simp only [Option.map_some, Option.some.injEq, Prod.mk.injEq, id_eq] at hf
  obtain ⟨rfl, rfl⟩ := hf
  exact ⟨hnext _, fun k hpre => ⟨h t hpre.1 hpre.2, fun _ _ => .inl trivial⟩⟩

theorem consoleread_ok (target : Int) (dst : Nat) (n : Int) (a : ReadAt) :
    monitor.Ok (.read target dst n a) (tracedCode.instr (.read target dst n a)) := by
  cases a with
  | enter => exact ⟨rfl, monitor_enters rfl fun _ => trivial⟩
  | loop =>
    refine monitor_access (g := fun cons => (cons, if n > 0 then .read target dst n .wait
      else .release (target - n))) rfl (fun cons => ?_) fun t hq _ => ?_
    · dsimp only
      split <;> rfl
    · refine ⟨hq.advance_self, ?_⟩
      split <;> trivial
  | wait =>
    refine monitor_access (g := fun cons => (cons, if cons.r = cons.w then
      .read target dst n .killed else .read target dst n .fetch)) rfl (fun cons => ?_)
      fun t hq _ => ?_
    · dsimp only
      split <;> rfl
    refine ⟨hq.advance_self, ?_⟩
    split
    · trivial
    rename_i hne
    exact hne
  | killed =>
    intro k
    cases k with
    | true => exact monitor_moves true rfl fun _ => trivial
    | false => exact monitor_moves false rfl fun _ => trivial
  | sleep =>
    refine ⟨rfl, monitor_enters rfl fun _ => trivial, ?_⟩
    intro k t hpre
    exact ⟨hpre.1, trivial, fun _ h => h.elim⟩
  | fetch =>
    refine monitor_access (g := fetch target dst n) rfl (fun cons => ?_) fun t hq hne => ?_
    · rw [fetch]
      split <;> rfl
    rw [fetch]
    split
    · refine ⟨?_, trivial⟩
      split
      · exact hq.advance_self
      · exact hq.advance_one hne
    · exact ⟨hq.advance_one hne, trivial⟩
  | copyout c =>
    intro r k
    show monitor.Moves _ (if r then _ else _) k
    split
    · show monitor.Moves _ (if c = newline then _ else _) k
      split <;> exact monitor_moves k rfl fun _ => trivial
    · exact monitor_moves k rfl fun _ => trivial

theorem Sees.key {loc : Loc} (h : Sees t loc) (hq : Indices t.cons) (c : UInt8) :
    Sees (t.key c) loc := by
  unfold Sees at *
  split
  · have htyped := consoleintr_typed c hq
    intro heq
    have hw : (t.key c).cons.w = t.cons.r := heq.symm.trans htyped.r
    have hahead := htyped.ahead
    have hzero : size t.cons.r (consoleintr c t.cons).w = 0 := size_eq_zero.2 hw.symm
    exact h (size_eq_zero.1 (by omega))
  · trivial

theorem monitor_sound : monitor.Sound tracedCode where
  instr loc := by
    cases loc with
    | read target dst n a => exact consoleread_ok target dst n a
    | release r => exact ⟨rfl, rfl, fun k t hpre => ⟨hpre.1, fun _ h => h.elim⟩⟩
    | returned r => rfl
  entry loc h := by
    simp only [tracedCode, code] at h
    split at h
    · rfl
    · cases h
  env_inv c t h := h.key c
  env_cond _ _ _ _ := trivial
  env_pre c t loc k h := ⟨h.1.key c, h.2.key h.1.indices c⟩
  env_owes _ _ _ _ _ h := h

theorem monitor_allows (s : State Traced Loc Unit Unit) (l : Label Loc UInt8) :
    monitor.Allows s l := by
  have hkill : ∀ loc, monitor.Killable loc :=
    fun _ _ _ hpre => ⟨hpre, fun _ howes => howes.elim⟩
  exact Monitor.allows_of_killable hkill s l

/-- Nobody is in a call, the ring is empty, and nothing has been typed.  The
counters can have any value. -/
structure Start (s : State Traced Loc Unit Unit) : Prop where
  quiet : Quiescent tracedCode s
  w : s.data.cons.w = s.data.cons.r
  e : s.data.cons.e = s.data.cons.r
  committed : s.data.committed = []
  consumed : s.data.consumed = []

theorem Start.queue {s : State Traced Loc Unit Unit} (h : Start s) : Queue s.data where
  indices := by
    constructor
    · rw [h.w, h.e]
    · rw [h.e, size_self]
      exact Nat.zero_le _
  fifo := by
    rw [Cons.ready, h.w, h.committed, h.consumed, contents, size_self]
    rfl

theorem inv_of_run {s t : State Traced Loc Unit Unit} {ls : List (Label Loc UInt8)}
    (hstart : Start s) (hrun : Run (Steps tracedCode) s ls t) : monitor.Inv t := by
  have hinv : monitor.Inv s := .start monitor_sound hstart.quiet hstart.queue
  have hrun' := hrun.mono fun s l t hstep => And.intro (monitor_allows s l) hstep
  exact hinv.of_run monitor_sound hrun'

/-- An editing key only takes back bytes that are not committed. -/
structure KeepsCommitted (t t' : Traced) : Prop where
  buf : t'.cons.buf = t.cons.buf
  ready : t'.cons.ready = t.cons.ready
  typed : t'.cons.typed <+: t.cons.typed
  committed : t'.committed = t.committed
  consumed : t'.consumed = t.consumed

theorem key_keepsCommitted (hc : Edits c) (t : Traced) : KeepsCommitted t (t.key c) := by
  have herased := consoleintr_edits hc t.cons
  refine ⟨herased.buf, herased.ready_eq, herased.typed_prefix, ?_, rfl⟩
  show t.committed ++ contents _ t.cons.w (consoleintr c t.cons).w = _
  rw [herased.w, contents, size_self, range_zero, map_nil, append_nil]

/-- A reader that has `n` of `target` bytes left fetches the first of the
committed bytes and goes on at `next`. -/
def Fetches (target : Int) (dst : Nat) (n : Int) (t t' : Traced) (next : Loc) : Prop :=
  ∃ c rest, t.cons.ready = c :: rest ∧
    if c = C 68 ∧ n < target then
      -- the end of file stays for the next call
      t' = t ∧ next = .release (target - n)
    else
      t'.cons.ready = rest ∧ t'.consumed = t.consumed ++ [c] ∧
        next = if c = C 68 then .release (target - n) else .read target dst n (.copyout c)

/-- Moving `r` over the first committed byte. -/
theorem advance_one {rest : List UInt8} (hne : t.cons.r ≠ t.cons.w)
    (hready : t.cons.ready = c :: rest) :
    (t.advance { t.cons with r := t.cons.r + 1 }).cons.ready = rest ∧
      (t.advance { t.cons with r := t.cons.r + 1 }).consumed = t.consumed ++ [c] := by
  have hne' : t.cons.r ≠ t.cons.r + 1 := by
    intro heq
    have hsize : size t.cons.r (t.cons.r + 1) = 1 := (size_eq_iff (by decide)).2 rfl
    rw [size_eq_zero.2 heq] at hsize
    cases hsize
  rw [Cons.ready, contents_take _ hne, cons.injEq] at hready
  obtain ⟨rfl, rfl⟩ := hready
  refine ⟨rfl, ?_⟩
  show t.consumed ++ contents t.cons.buf t.cons.r (t.cons.r + 1) = _
  rw [contents_take _ hne', contents, size_self]
  rfl

theorem fetch_fetches (target : Int) (dst : Nat) (n : Int) (hne : t.cons.r ≠ t.cons.w) :
    Fetches target dst n t (t.advance (fetch target dst n t.cons).1)
      (fetch target dst n t.cons).2 := by
  have hready : t.cons.ready = _ := contents_take t.cons.buf hne
  have hone := advance_one hne hready
  refine ⟨_, _, hready, ?_⟩
  rw [fetch]
  by_cases hc : t.cons.buf (slot t.cons.r) = C 68
  · by_cases hn : n < target
    · rw [if_pos ⟨hc, hn⟩, if_pos hc, if_pos hn]
      exact ⟨t.advance_self, rfl⟩
    · rw [if_neg (fun h => hn h.2), if_pos hc, if_neg hn, if_pos hc]
      exact ⟨hone.1, hone.2, rfl⟩
  · rw [if_neg (fun h => hc h.1), if_neg hc, if_neg hc]
    exact ⟨hone.1, hone.2, rfl⟩

theorem run_fetches {t t' : State Traced Loc Unit Unit} {p : Fin NPROC} {target n : Int}
    {dst : Nat} (hinv : monitor.Inv t) (hctl : (t.proc p).ctl = .code (.read target dst n .fetch))
    (hstep : Steps tracedCode t (.run p) t') :
    ∃ next, (t'.proc p).ctl = .code next ∧ Fetches target dst n t.data t'.data next := by
  have hne : t.data.cons.r ≠ t.data.cons.w := by
    have hholds : (t.proc p).holds monitor = true := by
      rw [Proc.holds, hctl]
      rfl
    have hknow := hinv.knows p ((hinv.mutex p).mpr hholds)
    rw [Proc.Knows, hctl] at hknow
    exact hknow.2
  have hrun : t.run tracedCode p = some t' := hstep
  rw [run, hctl] at hrun
  dsimp only at hrun
  split at hrun
  · cases hrun
    refine ⟨(fetch target dst n t.data.cons).2, ?_, fetch_fetches target dst n hne⟩
    show ((setProc _ p _).proc p).ctl = _
    rw [setProc_self]
    rfl
  · cases hrun

/-- In every run of readers and of keys on an empty console, wherever its
counters stand: the counters are in order and the ring is not overrun; what
readers have consumed, followed by what is ready, is what was committed; an
editing key changes only what is not committed; and a reader fetches the first
committed byte, but leaves an end of file that comes after other bytes. -/
theorem console_fifo {s t : State Traced Loc Unit Unit} {ls : List (Label Loc UInt8)}
    (hstart : Start s) (hrun : Run (Steps tracedCode) s ls t) :
    (Ring.size t.data.cons.r t.data.cons.w ≤ Ring.size t.data.cons.r t.data.cons.e ∧
      Ring.size t.data.cons.r t.data.cons.e ≤ INPUT_BUF_SIZE) ∧
    t.data.consumed ++ t.data.cons.ready = t.data.committed ∧
    (∀ c, Edits c → KeepsCommitted t.data (t.data.key c)) ∧
    ∀ p target dst n t', (t.proc p).ctl = .code (.read target dst n .fetch) →
      Steps tracedCode t (.run p) t' →
      ∃ next, (t'.proc p).ctl = .code next ∧ Fetches target dst n t.data t'.data next := by
  have hinv := inv_of_run hstart hrun
  have hqueue : Queue t.data := hinv.holds_always fun _ _ _ hpre => hpre.1
  exact ⟨⟨hqueue.indices.order, hqueue.indices.fits⟩, hqueue.fifo,
    fun c hc => key_keepsCommitted hc t.data,
    fun p target dst n t' hctl hstep => run_fetches hinv hctl hstep⟩

/-- An empty console whose counters are about to wrap. -/
def aboutToWrap : State Traced Loc Unit Unit :=
  State.idle ⟨⟨fun _ => 0, 4294967295, 4294967295, 4294967295⟩, [], []⟩ (.returned 0)
    (fun _ => 0) (onePage 0x87000000)

theorem aboutToWrap_start : Start aboutToWrap where
  quiet := idle_quiescent rfl
  w := rfl
  e := rfl
  committed := rfl
  consumed := rfl

/-- The keys `a`, `b`, delete and end of file, and a reader that asks for three
bytes. -/
def typeAndRead : List (Label Loc UInt8) :=
  [.env 97, .env 98, .env 127, .env (C 68), .start 0 (.read 3 0 3 .enter)] ++ runs 9 0

/-- The reader gets the byte, and the end of file stays. -/
theorem console_fifo_about_to_wrap : ∃ t, Run (Steps tracedCode) aboutToWrap typeAndRead t ∧
      t.data.consumed = [97] ∧ t.data.cons.ready = [C 68] ∧
      (Ring.size t.data.cons.r t.data.cons.w ≤ Ring.size t.data.cons.r t.data.cons.e ∧
        Ring.size t.data.cons.r t.data.cons.e ≤ INPUT_BUF_SIZE) ∧
      t.data.consumed ++ t.data.cons.ready = t.data.committed := by
  have hrun : (follow (State.step tracedCode) aboutToWrap typeAndRead).any
      (fun t => t.data.consumed = [97] ∧ t.data.cons.ready = [C 68]) = true := by decide +kernel
  obtain ⟨t, ht, hend⟩ := (Option.any_eq_true _ _).1 hrun
  have hrun : Run (Steps tracedCode) aboutToWrap typeAndRead t := Run.of_follow ht
  have hlaw := console_fifo aboutToWrap_start hrun
  exact ⟨t, hrun, (of_decide_eq_true hend).1, (of_decide_eq_true hend).2, hlaw.1, hlaw.2.1⟩

end Xv6.Console
