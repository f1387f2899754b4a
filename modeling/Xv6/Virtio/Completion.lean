import Xv6.Virtio.Driver
import Xv6.Lib.Except

/-!
# Every request is completed before its call returns

`Step` lists what a step of driver and device can do in a state that meets the
invariant.  None of them panics.  From it follow the invariant of whole runs
and what a call can rely on: it returns after the device has completed its own
chain, and the handler clears the flag of the buffer whose request was
completed.
-/

namespace Xv6.Virtio

open Lib Function List Loc State

variable {n : Nat} {s t : State n} {p q : Fin n} {r : Request} {c : Chain} {i : Descno}
  {l : Label n} {qa qw qu : List Descno}

/-! ## What a step does -/

/-- The steps of process `p` in `virtio_disk_rw`. -/
inductive Move (s : State n) (p : Fin n) : State n → Prop where
  | acquire {r : Request} (hp : s.loc p = .acquire r) (hfree : s.lock = none) :
      Move s p ({ s with lock := some (.proc p) }.goto p (.alloc r))
  | take {r : Request} {c : Chain} {d : Disk} (hp : s.loc p = .alloc r)
      (htook : Took s.disk c.toList d) : Move s p ({ s with disk := d }.goto p (.format r c))
  | full {r : Request} {d : Disk} (hp : s.loc p = .alloc r) (htook : Took s.disk [] d) :
      Move s p ({ s with disk := d, lock := none }.goto p (.acquire r))
  | format {r : Request} {c : Chain} (hp : s.loc p = .format r c) : Move s p ({ s with
        disk := s.disk.format r c
        busy := update s.busy r.b true }.goto p (.publish r c))
  | publish {r : Request} {c : Chain} (hp : s.loc p = .publish r c) : Move s p ({ s with
        disk := { s.disk with
          avail := { s.disk.avail with
            ring := update s.disk.avail.ring (slot s.disk.avail.idx) (num c.head) } }
        }.goto p (.notify r c))
  | notify {r : Request} {c : Chain} (hp : s.loc p = .notify r c) : Move s p ({ s with
        disk := { s.disk with avail := { s.disk.avail with idx := s.disk.avail.idx + 1 } }
        }.goto p (.wait r c))
  | sleep {r : Request} {c : Chain} (hp : s.loc p = .wait r c) (hb : s.busy r.b = true) :
      Move s p ({ s with lock := none }.goto p (.asleep r c))
  | done {r : Request} {c : Chain} (hp : s.loc p = .wait r c) (hb : s.busy r.b = false) :
      Move s p (s.goto p (.finish r c))
  | wake {r : Request} {c : Chain} (hp : s.loc p = .asleep r c) (hfree : s.lock = none) :
      Move s p ({ s with lock := some (.proc p) }.goto p (.wait r c))
  | free {r : Request} {c : Chain} {d : Disk} (hp : s.loc p = .finish r c)
      (hgave : Gave { s.disk with
        info := update s.disk.info c.head { s.disk.info c.head with b := none } }
        c.toList d) : Move s p ({ s with disk := d }.goto p (.release r))
  | release {r : Request} (hp : s.loc p = .release r) :
      Move s p ({ s with lock := none }.goto p .idle)

/-- The steps of the system. -/
inductive Step (s : State n) : Label n → State n → Prop where
  | acquiresleep {p : Fin n} {b : Bufno} (hp : s.loc p = .idle) (hb : s.sleeplock b = none) :
      Step s (.acquiresleep p b) { s with sleeplock := update s.sleeplock b (some p) }
  | releasesleep {p : Fin n} {b : Bufno} (hp : s.loc p = .idle) (hb : s.sleeplock b = some p) :
      Step s (.releasesleep p b) { s with sleeplock := update s.sleeplock b none }
  | rw {p : Fin n} {b : Bufno} {blockno : UInt32} {write : Bool} (hp : s.loc p = .idle)
      (hb : s.sleeplock b = some p) :
      Step s (.rw p b blockno write) (s.goto p (.acquire ⟨b, sectorOf blockno, write⟩))
  | move {p : Fin n} {t : State n} (h : Move s p t) : Step s (.run p) t
  | enter (hs : s.intr = .out) (hfree : s.lock = none) :
      Step s .intr { s with lock := some .intr, intr := .loop }
  | look (hs : s.intr = .loop) (hne : s.disk.usedIdx ≠ s.disk.used.idx) :
      Step s .intr { s with intr := .serve }
  | leave (hs : s.intr = .loop) (heq : s.disk.usedIdx = s.disk.used.idx) :
      Step s .intr { s with lock := none, intr := .out }
  | serve {p : Fin n} {r : Request} {c : Chain} (hs : s.intr = .serve)
      (hring : s.disk.used.ring (slot s.disk.usedIdx) = (num c.head).toUInt32)
      (hp : (s.loc p).waits = some (r, c)) (hstatus : (s.disk.info c.head).status = 0) :
      Step s .intr { s with
        busy := update s.busy r.b false
        disk := { s.disk with usedIdx := s.disk.usedIdx + 1 }
        intr := .loop }
  | fetch (hne : s.dev.seen ≠ s.disk.avail.idx) : Step s .fetch { s with dev :=
        { seen := s.dev.seen + 1
          working := s.disk.avail.ring (slot s.dev.seen) :: s.dev.working } }
  | complete {id : UInt16} (hid : id ∈ s.dev.working) : Step s (.complete id) { s with
        disk := (s.disk.storeStatus id).addUsed id
        dev := { s.dev with working := s.dev.working.erase id } }

variable {x : Except Panic (State n)}

/-- A process never panics. -/
theorem Inv.resume_move (h : Inv s qa qw qu)
    (hx : s.resume p = some x) : ∃ t, x = .ok t ∧ Move s p t := by
  unfold resume at hx
  cases hp : s.loc p with
  | idle =>
    rw [hp] at hx
    cases hx
  | acquire r =>
    rw [hp] at hx
    dsimp only at hx
    split at hx
    · rename_i hfree
      cases hx
      exact ⟨_, rfl, .acquire hp hfree⟩
    · cases hx
  | alloc r =>
    rw [hp] at hx
    rcases alloc3Desc_cases s.disk with ⟨c, d, hd, htook⟩ | ⟨d, hd, htook⟩
    · rw [hd] at hx
      cases hx
      exact ⟨_, rfl, .take hp htook⟩
    rw [hd] at hx
    cases hx
    exact ⟨_, rfl, .full hp htook⟩
  | format r c =>
    rw [hp] at hx
    cases hx
    exact ⟨_, rfl, .format hp⟩
  | publish r c =>
    rw [hp] at hx
    cases hx
    exact ⟨_, rfl, .publish hp⟩
  | notify r c =>
    rw [hp] at hx
    cases hx
    exact ⟨_, rfl, .notify hp⟩
  | wait r c =>
    rw [hp] at hx
    dsimp only at hx
    split at hx
    · rename_i hb
      cases hx
      exact ⟨_, rfl, .sleep hp hb⟩
    rename_i hb
    cases hx
    exact ⟨_, rfl, .done hp (Bool.eq_false_of_not_eq_true hb)⟩
  | asleep r c =>
    rw [hp] at hx
    dsimp only at hx
    split at hx
    · rename_i hfree
      cases hx
      exact ⟨_, rfl, .wake hp hfree⟩
    · cases hx
  | finish r c =>
    rw [hp] at hx
    have hdescs : (s.loc p).descs = c.toList := by rw [hp]; rfl
    have hlinked := h.links p r c (by rw [hp]; rfl)
    obtain ⟨d, hd, hgave⟩ := freeChain_gave (d := { s.disk with
        info := update s.disk.info c.head { s.disk.info c.head with b := none } })
      hlinked.head hlinked.middle hlinked.last (hdescs ▸ h.shares.nodup p)
      (fun i hi => h.shares.not_free (p := p) (by rwa [hdescs]))
    dsimp only at hx hd
    rw [hd] at hx
    cases hx
    exact ⟨_, rfl, .free hp hgave⟩
  | release r =>
    rw [hp] at hx
    cases hx
    exact ⟨_, rfl, .release hp⟩

/-- The handler never panics. -/
theorem Inv.interrupt_step (h : Inv s qa qw qu)
    (hx : s.interrupt = some x) : ∃ t, x = .ok t ∧ Step s .intr t := by
  unfold interrupt at hx
  cases hs : s.intr with
  | out =>
    rw [hs] at hx
    dsimp only at hx
    split at hx
    · rename_i hfree
      cases hx
      exact ⟨_, rfl, .enter hs hfree⟩
    · cases hx
  | loop =>
    rw [hs] at hx
    dsimp only at hx
    split at hx
    · rename_i hne
      cases hx
      exact ⟨_, rfl, .look hs hne⟩
    rename_i heq
    cases hx
    exact ⟨_, rfl, .leave hs (not_not.1 heq)⟩
  | serve =>
    rw [hs] at hx
    cases qu with
    | nil => exact absurd rfl (h.serve hs)
    | cons i qu' =>
      obtain ⟨p, r, c, rfl, hp, -, hinfo, hstatus⟩ := h.next_used
      have hring : s.disk.used.ring (slot s.disk.usedIdx) = (num c.head).toUInt32 :=
        h.queues.used.1
      have hid : (s.disk.used.ring (slot s.disk.usedIdx)).toNat = c.head.val := by
        rw [hring, num_toUInt32_toNat]
      simp only [hid, c.head.isLt, dite_true, Fin.eta, hstatus, hinfo, ne_eq, not_true_eq_false,
        if_false, Option.some.injEq] at hx
      exact ⟨_, hx.symm, .serve hs hring hp hstatus⟩

/-- No step panics. -/
theorem Inv.step_ok (h : Inv s qa qw qu) (hx : s.step l = some x) :
    ∃ t, x = .ok t ∧ Step s l t := by
  cases l with
  | acquiresleep p b =>
    simp only [step] at hx
    split at hx
    · rename_i hen
      cases hx
      exact ⟨_, rfl, .acquiresleep hen.1 hen.2⟩
    · cases hx
  | releasesleep p b =>
    simp only [step] at hx
    split at hx
    · rename_i hen
      cases hx
      exact ⟨_, rfl, .releasesleep hen.1 hen.2⟩
    · cases hx
  | rw p b blockno write =>
    simp only [step] at hx
    split at hx
    · rename_i hen
      cases hx
      exact ⟨_, rfl, .rw hen.1 hen.2⟩
    · cases hx
  | run p =>
    obtain ⟨t, ht, hm⟩ := h.resume_move hx
    exact ⟨t, ht, .move hm⟩
  | intr => exact h.interrupt_step hx
  | fetch =>
    simp only [step, fetch] at hx
    split at hx
    · rename_i hne
      cases hx
      exact ⟨_, rfl, .fetch hne⟩
    · cases hx
  | complete id =>
    simp only [step, complete] at hx
    split at hx
    · rename_i hid
      cases hx
      exact ⟨_, rfl, .complete hid⟩
    · cases hx

/-! ## Runs -/

/-- The invariant, whatever is in the three lists. -/
def Good (s : State n) : Prop := ∃ qa qw qu, Inv s qa qw qu

theorem Inv.of_move (h : Inv s qa qw qu) (hm : Move s p t) : Good t := by
  cases hm with
  | acquire hp hfree | wake hp hfree =>
    exact ⟨qa, qw, qu, h.move hp (h.locks.acquire hfree p _)
      fun r' hr' => h.owners p r' (by rw [hp]; exact hr')⟩
  | take hp htook => exact ⟨qa, qw, qu, h.alloc_some hp htook⟩
  | full hp htook => exact ⟨qa, qw, qu, h.alloc_none hp htook⟩
  | format hp => exact ⟨qa, qw, qu, h.format hp⟩
  | publish hp => exact ⟨qa, qw, qu, h.publish hp⟩
  | notify hp => exact ⟨_, qw, qu, h.notify_idx hp⟩
  | sleep hp hb =>
    exact ⟨qa, qw, qu, h.move hp (h.locks.release (by rw [hp]; rfl) rfl)
      fun r' hr' => h.owners p r' (by rw [hp]; exact hr')⟩
  | done hp hb => exact ⟨qa, qw, qu, h.wait_done hp hb⟩
  | free hp hgave => exact ⟨qa, qw, qu, h.free_chain hp hgave⟩
  | release hp => exact ⟨qa, qw, qu, h.move hp (h.locks.release (by rw [hp]; rfl) rfl) nofun⟩

theorem Inv.of_step (h : Inv s qa qw qu) (hs : Step s l t) : Good t := by
  cases hs with
  | @acquiresleep p b hp hb =>
    refine ⟨qa, qw, qu, h.sleeplocks fun q r hq => update_of_ne (fun heq => ?_) _ _⟩
    have hown := h.owners q r hq
    rw [heq, hb] at hown
    cases hown
  | @releasesleep p b hp hb =>
    refine ⟨qa, qw, qu, h.sleeplocks fun q r hq => update_of_ne (fun heq => ?_) _ _⟩
    have hown := h.owners q r hq
    rw [heq, hb] at hown
    cases hown
    rw [hp] at hq
    cases hq
  | rw hp hb =>
    refine ⟨qa, qw, qu, h.move hp (h.locks.keep (by rw [hp]; rfl)) ?_⟩
    intro r' hr'
    cases hr'
    exact hb
  | move hm => exact h.of_move hm
  | enter hs hfree =>
    refine ⟨qa, qw, qu, h.intr_move ⟨fun q hq => ?_, fun _ => rfl⟩ (fun hcontra => nomatch hcontra)⟩
    have hlock := h.locks.proc q hq
    rw [hfree] at hlock
    cases hlock
  | look hs hne =>
    have hlock := h.locks.intr (by rw [hs]; exact fun hcontra => nomatch hcontra)
    refine ⟨qa, qw, qu, h.intr_move ⟨h.locks.proc, fun _ => hlock⟩ fun _ hnil => hne ?_⟩
    have hused := h.queues.used
    rwa [hnil] at hused
  | leave hs heq =>
    have hlock := h.locks.intr (by rw [hs]; exact fun hcontra => nomatch hcontra)
    refine ⟨qa, qw, qu, h.intr_move ⟨fun q hq => ?_, fun hcontra => absurd rfl hcontra⟩
      (fun hcontra => nomatch hcontra)⟩
    have hproc := h.locks.proc q hq
    rw [hlock] at hproc
    cases hproc
  | @serve p r c hs hring hp hstatus =>
    cases qu with
    | nil => exact absurd rfl (h.serve hs)
    | cons i qu' =>
      -- the entry of the ring is the head of the list
      have hi : i = c.head := by
        have hentry := h.queues.used.1.symm.trans hring
        have hval := congrArg UInt32.toNat hentry
        rw [num_toUInt32_toNat, num_toUInt32_toNat] at hval
        exact Fin.ext hval
      rw [hi] at h
      exact ⟨qa, qw, qu', h.serve_head hs hp hstatus⟩
  | fetch hne =>
    obtain ⟨i, qa', -, hinv⟩ := h.fetch_head hne
    exact ⟨_, _, _, hinv⟩
  | complete hid =>
    obtain ⟨p, r, c, -, -, hinv⟩ := h.complete_head hid
    exact ⟨_, _, _, hinv⟩

theorem boot_inv (n : Nat) (avail used : UInt16) : Inv (boot n avail used) [] [] [] where
  locks := ⟨fun _ hp => (nomatch hp), fun hs => absurd rfl hs⟩
  owners _ _ hp := nomatch hp
  shares := ⟨fun _ => nodup_nil, fun _ _ _ => disjoint_nil_left _,
    fun _ => ⟨fun hi => (nomatch hi), fun ⟨_, hp⟩ => (nomatch hp)⟩⟩
  links _ _ _ hp := nomatch hp
  queues := ⟨rfl, rfl, rfl, nodup_nil, fun _ hi => (nomatch hi), fun _ hi => (nomatch hi)⟩
  tracked := ⟨fun _ hi => (nomatch hi), fun _ _ _ hp => (nomatch hp), fun _ _ _ hp => (nomatch hp),
    fun _ _ _ hp => (nomatch hp)⟩
  notify _ _ _ hp := nomatch hp
  serve hs := nomatch hs

theorem Good.step (h : Good s) (hstep : Steps s l t) : Good t := by
  obtain ⟨qa, qw, qu, hinv⟩ := h
  obtain ⟨u, hu, hs⟩ := hinv.step_ok hstep
  cases hu
  exact hinv.of_step hs

theorem good_of_run {avail used : UInt16} {ls : List (Label n)}
    (hrun : Run Steps (boot n avail used) ls t) : Good t :=
  hrun.inv ⟨[], [], [], boot_inv n avail used⟩ fun _ _ _ h hstep => h.step hstep

/-! ## A call waits for its own request -/

/-- A call that has not written its descriptors. -/
def Loc.early : Loc → Option Request
  | .acquire r | .alloc r | .format r _ => some r
  | _ => none

/-- The device has not completed the request of the call. -/
def Outstanding (s : State n) (p : Fin n) (r : Request) : Prop :=
  (s.loc p).early = some r ∨ ∃ c, ((s.loc p).prepared = some (r, c) ∨
    (s.loc p).waits = some (r, c)) ∧ (s.disk.info c.head).status ≠ 0

/-- The device completes the request for which the call waits. -/
def Completes (s : State n) (l : Label n) (p : Fin n) (r : Request) : Prop :=
  ∃ c, (s.loc p).waits = some (r, c) ∧ l = .complete (num c.head)

/-- The steps of other processes touch neither the call nor its status. -/
theorem Move.other (h : Inv s qa qw qu) (hm : Move s q t) (hqp : p ≠ q) :
    t.loc p = s.loc p ∧ ∀ r c, (s.loc p).linked = some (r, c) →
      (t.disk.info c.head).status = (s.disk.info c.head).status := by
  have hloc : ∀ L, update s.loc q L p = s.loc p := fun L => update_of_ne hqp _ _
  cases hm with
  | acquire | publish | notify | sleep | done | wake | release => exact ⟨hloc _, fun _ _ _ => rfl⟩
  | take hp htook | full hp htook =>
    refine ⟨hloc _, fun r c _ => ?_⟩
    rw [goto_disk, htook.rings.info]
  | @format r' c' hq =>
    refine ⟨hloc _, fun r c hp => congrArg Info.status (update_of_ne ?_ _ _)⟩
    intro heq
    refine hqp (h.shares.holder_unique (i := c.head) (Inv.mem_descs hp) ?_)
    rw [hq, heq]
    exact c'.head_mem
  | @free r' c' d hq hgave =>
    refine ⟨hloc _, fun r c _ => ?_⟩
    rw [goto_disk, hgave.rings.info]
    dsimp only
    by_cases heq : c.head = c'.head
    · rw [heq, update_self]
    · rw [update_of_ne heq]

theorem Loc.linked_of_early {L : Loc} (h : L.early = some r) : L.linked = none := by
  cases L <;> first | rfl | cases h

namespace Outstanding

variable {r' : Request}

theorem linked (ho : Outstanding s p r) (hp : (s.loc p).early = none) :
    ∃ c, (s.loc p).linked = some (r, c) ∧ (s.disk.info c.head).status ≠ 0 := by
  rcases ho with he | ⟨c, hc, hstatus⟩
  · rw [hp] at he
    cases he
  · exact ⟨c, hc.elim linked_of_prepared linked_of_waits, hstatus⟩

theorem eq_of_early (ho : Outstanding s p r) (hp : (s.loc p).early = some r') : r' = r := by
  rcases ho with he | ⟨c, hc, -⟩
  · rw [hp] at he
    exact Option.some.inj he
  have hlinked := hc.elim linked_of_prepared linked_of_waits
  rw [linked_of_early hp] at hlinked
  cases hlinked

theorem eq_of_linked (ho : Outstanding s p r) (hp : (s.loc p).linked = some (r', c)) :
    r' = r ∧ (s.disk.info c.head).status ≠ 0 := by
  rcases ho with he | ⟨c', hc, hstatus⟩
  · rw [linked_of_early he] at hp
    cases hp
  rw [hc.elim linked_of_prepared linked_of_waits] at hp
  cases hp
  exact ⟨rfl, hstatus⟩

/-- The call goes on to wait for the device. -/
theorem move (h : Inv s qa qw qu) (ho : Outstanding s p r) (hm : Move s p t) :
    Outstanding t p r := by
  cases hm with
  | acquire hp | take hp | full hp =>
    left
    rw [goto_loc_self, ← ho.eq_of_early (by rw [hp]; rfl)]
    rfl
  | @format r' c hp =>
    right
    refine ⟨c, .inl ?_, ?_⟩
    · rw [goto_loc_self, ← ho.eq_of_early (by rw [hp]; rfl)]
      rfl
    show (update s.disk.info c.head _ c.head).status ≠ 0
    rw [update_self]
    show (0xff : UInt8) ≠ 0
    decide
  | @publish r' c hp =>
    obtain ⟨rfl, hstatus⟩ := ho.eq_of_linked (by rw [hp]; rfl)
    exact .inr ⟨c, .inl (by rw [goto_loc_self]; rfl), hstatus⟩
  | @notify r' c hp | @sleep r' c hp | @wake r' c hp =>
    obtain ⟨rfl, hstatus⟩ := ho.eq_of_linked (by rw [hp]; rfl)
    exact .inr ⟨c, .inr (by rw [goto_loc_self]; rfl), hstatus⟩
  | @done r' c hp hb =>
    -- the flag of a request that is not completed is set
    obtain ⟨rfl, hstatus⟩ := ho.eq_of_linked (by rw [hp]; rfl)
    exact absurd (h.tracked.served p r' c (by rw [hp]; rfl) hb) hstatus
  | free hp =>
    rcases ho with he | ⟨c, hc, -⟩
    · rw [hp] at he
      cases he
    · rw [hp] at hc
      rcases hc with hc | hc <;> cases hc
  | release hp =>
    obtain ⟨c, hlinked, -⟩ := ho.linked (by rw [hp]; rfl)
    rw [hp] at hlinked
    cases hlinked

/-- What leaves the call and its status alone. -/
theorem congr (ho : Outstanding s p r) (hloc : t.loc p = s.loc p)
    (hstatus : ∀ r c, (s.loc p).linked = some (r, c) →
      (t.disk.info c.head).status = (s.disk.info c.head).status) : Outstanding t p r := by
  rcases ho with he | ⟨c, hc, hne⟩
  · exact .inl (by rw [hloc, he])
  refine .inr ⟨c, by rwa [hloc], ?_⟩
  rwa [hstatus r c (hc.elim linked_of_prepared linked_of_waits)]

/-- A request stays outstanding until the device completes it. -/
theorem step (h : Inv s qa qw qu) (ho : Outstanding s p r) (hs : Step s l t) :
    Completes s l p r ∨ Outstanding t p r := by
  cases hs with
  | acquiresleep | releasesleep | enter | look | leave | serve | fetch =>
    exact .inr (ho.congr rfl fun _ _ _ => rfl)
  | @rw q b blockno write hq hb =>
    refine .inr (ho.congr (update_of_ne ?_ _ _) fun _ _ _ => rfl)
    intro hpq
    obtain ⟨c, hlinked, -⟩ := ho.linked (by rw [hpq, hq]; rfl)
    rw [hpq, hq] at hlinked
    cases hlinked
  | @move q t hm =>
    by_cases hpq : p = q
    · subst hpq
      exact .inr (ho.move h hm)
    · obtain ⟨hloc, hstatus⟩ := hm.other h hpq
      exact .inr (ho.congr hloc hstatus)
  | @complete id hid =>
    obtain ⟨q, r', c', hq, rfl, -⟩ := h.complete_head hid
    have hlinked := linked_of_waits hq
    by_cases hpq : p = q
    · subst hpq
      obtain ⟨rfl, -⟩ := ho.eq_of_linked hlinked
      exact .inl ⟨c', hq, rfl⟩
    refine .inr (ho.congr rfl fun r c hp => ?_)
    have hne : c.head ≠ c'.head := fun heq => hpq (h.proc_unique hlinked hp heq).symm
    rw [storeStatus_linked (h.links q r' c' hlinked)]
    exact congrArg Info.status (update_of_ne hne _ _)

end Outstanding

/-- Somewhere in the run the device completes the request of the call. -/
def Completed (s : State n) (ls : List (Label n)) (p : Fin n) (r : Request) : Prop :=
  ∃ ls₁ l ls₂ u, ls = ls₁ ++ l :: ls₂ ∧ Run Steps s ls₁ u ∧ Completes u l p r

theorem outstanding_or_completed {ls : List (Label n)} (hgood : Good s) (ho : Outstanding s p r)
    (hrun : Run Steps s ls t) : Good t ∧ (Outstanding t p r ∨ Completed s ls p r) := by
  induction hrun with
  | nil => exact ⟨hgood, .inl ho⟩
  | @snoc ls l t u front last ih =>
    obtain ⟨hgood', ho' | ⟨ls1, l', ls2, v, rfl, hv, hc⟩⟩ := ih
    · refine ⟨hgood'.step last, ?_⟩
      obtain ⟨qa, qw, qu, hinv⟩ := hgood'
      obtain ⟨u', hu', hs⟩ := hinv.step_ok last
      cases hu'
      rcases ho'.step hinv hs with hc | ho''
      · exact .inr ⟨ls, l, [], t, rfl, front, hc⟩
      · exact .inl ho''
    · exact ⟨hgood'.step last, .inr ⟨ls1, l', ls2 ++ [l], v, by simp, hv, hc⟩⟩

/-! ## The driver -/

/-- A completion that the handler has not seen is in the used ring. -/
theorem Inv.unseen (h : Inv s qa qw qu) (hp : (s.loc p).waits = some (r, c))
    (hstatus : (s.disk.info c.head).status = 0) (hb : s.busy r.b = true) :
    s.disk.usedIdx ≠ s.disk.used.idx := by
  have hmem : c.head ∈ qu := by
    rcases mem_append.1 (h.tracked.busy p r c hp hb) with hmem | hmem
    · exact absurd hstatus (h.queues.fresh _ hmem)
    · exact hmem
  have hlen : (qu.map fun i => (num i).toUInt32).length ≤ NUM := by
    have hcard := (nodup_append.1 h.queues.nodup).2.1.length_le_card
    rw [Fintype.card_fin] at hcard
    rwa [length_map]
  intro heq
  have hnil := (h.queues.used.eq_nil_iff hlen).1 heq
  rw [map_eq_nil_iff] at hnil
  rw [hnil] at hmem
  cases hmem

theorem Loc.mem_descs_iff {L : Loc} : i ∈ L.descs ↔ ∃ c, L.chain = some c ∧ i ∈ c.toList := by
  unfold descs
  cases L.chain with
  | none | some => simp

/-- In every run of any number of calls, of the handler and of the device: the
chains of the calls are disjoint and hold exactly the descriptors that are not
free; nothing panics; the handler clears the flag of the call whose completed
chain it finds, and does not leave before it has found them all; and a call
returns only after the device has completed its request. -/
theorem virtio_disk_safe {avail used : UInt16} {ls : List (Label n)}
    (hrun : Run Steps (State.boot n avail used) ls t) :
    (∀ p c, (t.loc p).chain = some c → c.toList.Nodup) ∧
    (∀ p q c c', p ≠ q → (t.loc p).chain = some c → (t.loc q).chain = some c' →
      c.toList.Disjoint c'.toList) ∧
    (∀ i, t.disk.free i = false ↔ ∃ p c, (t.loc p).chain = some c ∧ i ∈ c.toList) ∧
    (∀ l e, t.step l ≠ some (.error e)) ∧
    (∀ u, t.intr = .serve → Steps t .intr u → ∃ p r c, (t.loc p).waits = some (r, c) ∧
      t.disk.used.ring (slot t.disk.usedIdx) = (num c.head).toUInt32 ∧
      (t.disk.info c.head).status = 0 ∧ u.busy = update t.busy r.b false) ∧
    (∀ p r c, (t.loc p).waits = some (r, c) → (t.disk.info c.head).status = 0 →
      t.busy r.b = true → t.disk.usedIdx ≠ t.disk.used.idx) ∧
    ∀ p b blockno write t' ls' u, Steps t (.rw p b blockno write) t' → Run Steps t' ls' u →
      u.loc p = .idle → Completed t' ls' p ⟨b, sectorOf blockno, write⟩ := by
  have hgood := good_of_run hrun
  obtain ⟨qa, qw, qu, h⟩ := hgood
  refine ⟨?_, ?_, ?_, ?_, ?_, fun p r c => h.unseen, ?_⟩
  · intro p c hp
    rw [← Loc.descs_of_chain hp]
    exact h.shares.nodup p
  · intro p q c c' hne hp hq
    rw [← Loc.descs_of_chain hp, ← Loc.descs_of_chain hq]
    exact h.shares.disjoint p q hne
  · intro i
    rw [h.shares.used i]
    exact exists_congr fun p => Loc.mem_descs_iff
  · intro l e hl
    obtain ⟨u, hu, -⟩ := h.step_ok hl
    cases hu
  · intro u hs hstep
    obtain ⟨u', hu', hstep'⟩ := h.step_ok hstep
    cases hu'
    cases hstep' with
    | serve _ hring hp hstatus => exact ⟨_, _, _, hp, hring, hstatus, rfl⟩
    | enter hs' | look hs' | leave hs' =>
      rw [hs] at hs'
      cases hs'
  · intro p b blockno write t' ls' u hcall hrun' hidle
    obtain ⟨t'', ht'', hstep⟩ := h.step_ok hcall
    cases ht''
    cases hstep with
    | rw hp hb =>
      have hstart : Outstanding (t.goto p (.acquire ⟨b, sectorOf blockno, write⟩)) p
          ⟨b, sectorOf blockno, write⟩ := .inl (by rw [goto_loc_self]; rfl)
      obtain ⟨-, ho | hc⟩ := outstanding_or_completed (h.of_step (.rw hp hb)) hstart hrun'
      · obtain ⟨c, hlinked, -⟩ := ho.linked (by rw [hidle]; rfl)
        rw [hidle] at hlinked
        cases hlinked
      · exact hc

theorem two_le_NBUF : 2 ≤ NBUF := by decide

/-- Process `p` calls `virtio_disk_rw` with the buffer of its number, and
sleeps. -/
def requests (p : Fin 2) : List (Label 2) :=
  [.acquiresleep p (p.castLE two_le_NBUF), .rw p (p.castLE two_le_NBUF) 7 true] ++
    List.replicate 6 (.run p)

/-- Two calls are in flight, and the device completes the second one first. -/
def twoCalls (p q : Fin 2) : List (Label 2) :=
  requests p ++ requests q ++ [.fetch, .fetch, .complete 3, .complete 0] ++
    List.replicate 6 .intr ++ List.replicate 4 (.run q) ++ List.replicate 4 (.run p)

/-- Both calls return, and both rings have wrapped. -/
theorem virtio_disk_safe_two_calls :
    ∃ t, Run Steps (State.boot 2 65535 65535) (twoCalls 0 1) t ∧ t.loc 0 = .idle ∧ t.loc 1 = .idle ∧
      t.disk.avail.idx = 1 ∧ t.disk.usedIdx = 1 ∧
      (∀ i, t.disk.free i = false ↔ ∃ p c, (t.loc p).chain = some c ∧ i ∈ c.toList) ∧
      ∀ l e, t.step l ≠ some (.error e) := by
  have hend : (follow (fun s l => (s.step l).bind Except.toOption) (State.boot 2 65535 65535)
      (twoCalls 0 1)).any (fun t => t.loc 0 = .idle ∧ t.loc 1 = .idle ∧ t.disk.avail.idx = 1 ∧
        t.disk.usedIdx = 1) = true := by decide +kernel
  obtain ⟨t, ht, hend⟩ := (Option.any_eq_true _ _).1 hend
  have hrun : Run Steps (State.boot 2 65535 65535) (twoCalls 0 1) t :=
    (Run.of_follow ht).mono fun _ _ _ => eq_ok_of_toOption
  have hlaw := virtio_disk_safe hrun
  obtain ⟨h0, h1, havail, hused⟩ := of_decide_eq_true hend
  exact ⟨t, hrun, h0, h1, havail, hused, hlaw.2.2.1, hlaw.2.2.2.1⟩

end Xv6.Virtio
