import Xv6.Timer.Model

/-!
# Timers as `clockintr` finds them

Two things that the steps of `Xv6.Timer.State` leave out.  `next_tick` and
`ticks` are 32-bit numbers that are compared as they are, so a deadline beyond
the wrap-around counts as past.  And `sys_setperiod` stores the pointer to a
new timer before it fills in the timer, with interrupts enabled: a clock
interrupt in between finds what `kalloc` has left in the page.
-/

namespace Xv6.Timer

/-! ## Deadlines -/

/-- The comparison in `clockintr` and in `xv6timer_interrupt`. -/
def Xv6Timer.Expired (t : Xv6Timer) (ticks : UInt32) : Prop := ticks ≥ t.nextTick

instance (t : Xv6Timer) (ticks : UInt32) : Decidable (t.Expired ticks) :=
  inferInstanceAs (Decidable (_ ≥ _))

/-- `xv6timer_interrupt`, on the timer of process `p`. -/
def State.xv6timerInterrupt (s : State) (p : Fin NPROC) (t : Xv6Timer) : State :=
  if t.callback = true ∧ t.Expired s.ticks then s.expire p t else s

theorem State.due_iff {s : State} {p : Fin NPROC} {t : Xv6Timer} :
    s.Due p t ↔ (s.entry p).timer = some t ∧ t.Expired s.ticks ∧ t.callback = true :=
  Iff.rfl

theorem toNat_add_ofNat (t0 : UInt32) {d : Nat} (h : d < 2 ^ 31) :
    (t0 + UInt32.ofNat d).toNat = (t0.toNat + d) % 2 ^ 32 := by
  rw [UInt32.toNat_add, UInt32.toNat_ofNat', Nat.mod_eq_of_lt (a := d) (by omega)]

theorem elapsed_lt_iff (t0 : UInt32) {d n : Nat} (hd : d < 2 ^ 31) (hn : n < 2 ^ 31) :
    t0 + UInt32.ofNat d - t0 < UInt32.ofNat n ↔ d < n := by
  have hsub : t0 + UInt32.ofNat d - t0 = UInt32.ofNat d := by
    rw [UInt32.add_comm, UInt32.add_sub_cancel]
  rw [hsub, UInt32.lt_iff_toNat_lt, UInt32.toNat_ofNat', UInt32.toNat_ofNat']
  omega

/-- A timer that is set to go off after `period` ticks does so then, and not
before, as a `sleep` for that time ends, exactly when `ticks` does not wrap
around until then. -/
theorem forward_expires_iff (t0 : UInt32) (t : Xv6Timer) {period : Int} (hpos : 1 ≤ period)
    (hlt : period < 2 ^ 31) :
    (∀ d : Nat, d < 2 ^ 31 → d ≤ period →
        ((xv6timerForward t0 t period).Expired (t0 + UInt32.ofNat d) ↔ d = period) ∧
        ((xv6timerForward t0 t period).Expired (t0 + UInt32.ofNat d) ↔
          ¬ t0 + UInt32.ofNat d - t0 < uintOfInt period)) ↔
      t0.toNat + period < 2 ^ 32 := by
  obtain ⟨n, rfl⟩ : ∃ n : Nat, period = n := ⟨period.toNat, by omega⟩
  have huint : uintOfInt n = UInt32.ofNat n := by
    rw [uintOfInt, Int.emod_eq_of_lt (by omega) (by omega), Int.toNat_natCast]
  have hexpired : ∀ d : Nat, d < 2 ^ 31 →
      ((xv6timerForward t0 t n).Expired (t0 + UInt32.ofNat d) ↔
        (t0.toNat + n) % 2 ^ 32 ≤ (t0.toNat + d) % 2 ^ 32) := by
    intro d hd
    show t0 + uintOfInt n ≤ t0 + UInt32.ofNat d ↔ _
    rw [UInt32.le_iff_toNat_le, huint, toNat_add_ofNat t0 (by omega), toNat_add_ofNat t0 hd]
  have ht0 := t0.toNat_lt
  constructor
  · intro h
    -- before the first tick the timer has not gone off
    have hzero := (hexpired 0 (by omega)).symm.trans (h 0 (by omega) (by omega)).1
    omega
  · intro hwrap d hd hle
    rw [hexpired d hd, huint, elapsed_lt_iff t0 hd (by omega)]
    omega

theorem forward_expires_five :
    (xv6timerForward 100 (xv6timerInit 1) 5).Expired (100 + UInt32.ofNat 5) :=
  ((forward_expires_iff 100 (xv6timerInit 1) (by decide) (by decide)).2 (by decide) 5
    (by decide) (by decide)).1.2 rfl

/-- Two ticks before the wrap-around a timer for 5 ticks has expired at once. -/
theorem forward_expires_early :
    (xv6timerForward 4294967294 (xv6timerInit 1) 5).Expired (4294967294 + UInt32.ofNat 0) := by
  decide

/-! ## The stores of `sys_setperiod` -/

/-- The functions that store to a timer. -/
inductive Writer where
  | init
  | registerCallback
  | forward
  deriving DecidableEq, Repr

/-- A pointer. -/
inductive Ptr (α : Type) where
  | null
  | to (a : α)
  | wild (addr : UInt64)
  deriving DecidableEq, Repr

/-- A field of a timer, and who has stored it last. -/
structure Field (α : Type) where
  val : α
  writer : Option Writer
  deriving DecidableEq, Repr

/-- `struct xv6timer_t` in memory.  `period_callback` is the only callback. -/
structure Memory where
  expiry : Field UInt32
  nextTick : Field UInt32
  proc : Field (Ptr (Fin NPROC))
  callback : Field (Ptr Unit)
  deriving DecidableEq, Repr

/-- A timer in a page from `kalloc`, which fills it with the byte 5. -/
def Memory.fresh : Memory where
  expiry := ⟨0x05050505, none⟩
  nextTick := ⟨0x05050505, none⟩
  proc := ⟨.wild 0x0505050505050505, none⟩
  callback := ⟨.wild 0x0505050505050505, none⟩

/-- A call of `sys_setperiod` by process `p`: its argument, `p->timer` at the
start, whether `kalloc` has a page, and `ticks` at the last store. -/
structure Call where
  p : Fin NPROC
  period : Int
  timer : Option Memory
  page : Bool
  ticks : UInt32

namespace Call

variable (c : Call)

/-- The stores of `xv6timer_init` and `xv6timer_register_callback`. -/
def initStores : List (Memory → Memory) :=
  [fun m => { m with proc := ⟨.to c.p, some .init⟩ },
    fun m => { m with expiry := ⟨0, some .init⟩ },
    fun m => { m with nextTick := ⟨0, some .init⟩ },
    fun m => { m with callback := ⟨.null, some .init⟩ },
    fun m => { m with callback := ⟨.to (), some .registerCallback⟩ }]

/-- The stores of `xv6timer_forward`. -/
def forwardStores : List (Memory → Memory) :=
  [fun m => { m with expiry := ⟨uintOfInt c.period, some .forward⟩ },
    fun m => { m with nextTick := ⟨c.ticks + uintOfInt c.period, some .forward⟩ }]

/-- The stores of the call, the one to `p->timer` included. -/
def stores : List (Option Memory → Option Memory) :=
  if c.period < 1 then
    []
  else
    match c.timer with
    | some _ => c.forwardStores.map Option.map
    | none =>
      if c.page then
        (fun _ => some .fresh) :: (c.initStores ++ c.forwardStores).map Option.map
      else
        [fun _ => none]

/-- `p->timer` after the first `k` stores. -/
def after (k : Nat) : Option Memory := (c.stores.take k).foldl (fun m f => f m) c.timer

end Call

/-- A timer of process `p` that `clockintr` may look at. -/
structure Memory.Initialised (p : Fin NPROC) (m : Memory) : Prop where
  proc : m.proc.val = .to p
  callback : m.callback.val = .null ∨ m.callback.val = .to ()
  expiry : m.expiry.writer = some .init ∨ m.expiry.writer = some .forward
  nextTick : m.nextTick.writer = some .init ∨ m.nextTick.writer = some .forward

/-- What `clockintr` finds in `p->timer` is no timer or an initialised one. -/
def Safe (p : Fin NPROC) (o : Option Memory) : Prop := ∀ m, o = some m → m.Initialised p

variable {p : Fin NPROC} {o : Option Memory}

theorem safe_none : Safe p none := fun _ h => by cases h

theorem Safe.foldl {fs : List (Option Memory → Option Memory)} (ho : Safe p o)
    (hfs : ∀ f ∈ fs, ∀ o, Safe p o → Safe p (f o)) : Safe p (fs.foldl (fun o f => f o) o) := by
  induction fs generalizing o with
  | nil => exact ho
  | cons f fs ih => exact ih (hfs f (by simp) o ho) fun g hg => hfs g (List.mem_cons_of_mem f hg)

theorem Safe.map {f : Memory → Memory} (ho : Safe p o)
    (hf : ∀ m, m.Initialised p → (f m).Initialised p) : Safe p (o.map f) := by
  intro m' hm'
  obtain ⟨m, hm, rfl⟩ := Option.map_eq_some_iff.1 hm'
  exact hf m (ho m hm)

/-- `xv6timer_register_callback` and `xv6timer_forward` keep a timer
initialised. -/
theorem Safe.store {c : Call} (ho : Safe c.p o) {f : Memory → Memory}
    (hf : f ∈ c.initStores.drop 4 ++ c.forwardStores) : Safe c.p (o.map f) := by
  refine ho.map fun m h => ?_
  simp only [Call.initStores, Call.forwardStores, List.drop_succ_cons, List.drop_zero,
    List.cons_append, List.nil_append, List.mem_cons, List.not_mem_nil, or_false] at hf
  obtain rfl | rfl | rfl := hf
  · exact ⟨h.proc, .inr rfl, h.expiry, h.nextTick⟩
  · exact ⟨h.proc, h.callback, .inr rfl, h.nextTick⟩
  · exact ⟨h.proc, h.callback, h.expiry, .inr rfl⟩

/-- The store of the pointer and the four of `xv6timer_init` leave an
initialised timer, and no fewer. -/
theorem safe_new_iff {c : Call} (hpos : ¬ c.period < 1) (htimer : c.timer = none)
    (hpage : c.page = true) (k : Nat) : Safe c.p (c.after k) ↔ ¬ (1 ≤ k ∧ k ≤ 4) := by
  rw [Call.after, Call.stores, if_neg hpos, htimer]
  simp only [hpage, if_true]
  match k with
  | 0 => exact ⟨fun _ => by omega, fun _ => safe_none⟩
  | 1 | 2 | 3 =>
    refine ⟨fun h => ?_, fun h => absurd ⟨by omega, by omega⟩ h⟩
    obtain hw | hw := (h _ rfl).nextTick <;> cases hw
  | 4 =>
    -- the deadline has passed, and the callback is still what was in the page
    refine ⟨fun h => ?_, fun h => absurd ⟨by omega, by omega⟩ h⟩
    obtain hc | hc := (h _ rfl).callback <;> cases hc
  | k + 5 =>
    refine ⟨fun _ => by omega, fun _ => ?_⟩
    have hinit : Safe c.p (some ⟨⟨0, some .init⟩, ⟨0, some .init⟩, ⟨.to c.p, some .init⟩,
        ⟨.null, some .init⟩⟩) := by
      rintro m ⟨⟩
      exact ⟨rfl, .inl rfl, .inl rfl, .inl rfl⟩
    have hrest : ∀ f ∈ ((c.initStores.drop 4 ++ c.forwardStores).map Option.map).take k,
        ∀ o, Safe c.p o → Safe c.p (f o) := by
      intro f hf o ho
      obtain ⟨g, hg, rfl⟩ := List.mem_map.1 (List.mem_of_mem_take hf)
      exact ho.store hg
    exact hinit.foldl hrest

/-- The first `setperiod(3)` of process 1. -/
def firstCall : Call := { p := 1, period := 3, timer := none, page := true, ticks := 7 }

end Xv6.Timer
