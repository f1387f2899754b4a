import Xv6.Virtio.Desc

/-!
# What driver and device keep

The invariant over every run.  The processes in `virtio_disk_rw` share out the
descriptors that are not free.  A chain that was published is in one of three
places: in the available ring, with the device, or in the used ring.  These
three lists hold the heads of exactly those requests whose `b->disk` is set
and which wait, each once, so that no ring can overflow.  The status byte of a
request says whether the device has completed it.
-/

namespace Xv6.Virtio

open Lib Function List Loc State

variable {n : Nat} {s t : State n} {p q : Fin n} {r : Request} {c : Chain} {i : Descno}
  {l qa qw qu : List Descno}

/-! ## What a location says -/

namespace Loc

variable {L : Loc}

/-- The request of a call. -/
def req : Loc → Option Request
  | .idle => none
  | .acquire r | .alloc r | .format r _ | .publish r _ | .notify r _ | .wait r _ | .asleep r _
  | .finish r _ | .release r => some r

/-- The chain that a call has allocated. -/
def chain : Loc → Option Chain
  | .format _ c | .publish _ c | .notify _ c | .wait _ c | .asleep _ c | .finish _ c => some c
  | _ => none

/-- The descriptors that a call has allocated. -/
def descs (L : Loc) : List Descno :=
  match L.chain with
  | some c => c.toList
  | none => []

/-- The process holds `vdisk_lock`. -/
def locked : Loc → Bool
  | .idle | .acquire _ | .asleep _ _ => false
  | _ => true

/-- The descriptors are written. -/
def linked : Loc → Option (Request × Chain)
  | .publish r c | .notify r c | .wait r c | .asleep r c | .finish r c => some (r, c)
  | _ => none

/-- The descriptors are written and the device has not been told. -/
def prepared : Loc → Option (Request × Chain)
  | .publish r c | .notify r c => some (r, c)
  | _ => none

/-- The device has been told, and the call waits. -/
def waits : Loc → Option (Request × Chain)
  | .wait r c | .asleep r c => some (r, c)
  | _ => none

theorem linked_of_prepared (h : L.prepared = some (r, c)) : L.linked = some (r, c) := by
  cases L <;> first | exact h | cases h

theorem linked_of_waits (h : L.waits = some (r, c)) : L.linked = some (r, c) := by
  cases L <;> first | exact h | cases h

theorem waits_of_prepared {x : Request × Chain} (h : L.prepared = some x) : L.waits = none := by
  cases L <;> first | rfl | cases h

theorem req_of_linked (h : L.linked = some (r, c)) : L.req = some r := by
  cases L <;> cases h <;> rfl

theorem chain_of_linked (h : L.linked = some (r, c)) : L.chain = some c := by
  cases L <;> cases h <;> rfl

theorem descs_of_chain (h : L.chain = some c) : L.descs = c.toList := by rw [descs, h]

theorem descs_of_linked (h : L.linked = some (r, c)) : L.descs = c.toList :=
  descs_of_chain (chain_of_linked h)

end Loc

@[simp] theorem goto_disk (s : State n) (p : Fin n) (L : Loc) : (s.goto p L).disk = s.disk := rfl

@[simp] theorem goto_loc_self (s : State n) (p : Fin n) (L : Loc) : (s.goto p L).loc p = L :=
  update_self ..

/-- A move that keeps what a location says. -/
theorem update_keeps {β : Type} (f : Loc → β) (loc : Fin n → Loc) {L : Loc}
    (h : f L = f (loc p)) (q : Fin n) : f (update loc p L q) = f (loc q) := by
  by_cases hq : q = p
  · rw [hq, update_self, h]
  · rw [update_of_ne hq]

/-! ## The invariant -/

/-- At most one process or the handler is between `acquire` and `release`. -/
structure Locks (s : State n) : Prop where
  proc : ∀ p, (s.loc p).locked = true → s.lock = some (.proc p)
  intr : s.intr ≠ .out → s.lock = some .intr

namespace Locks

variable {L : Loc}

theorem acquire (h : Locks s) (hfree : s.lock = none) (p : Fin n) (L : Loc) :
    Locks { s with lock := some (.proc p), loc := update s.loc p L } where
  proc q hq := by
    dsimp only at hq ⊢
    by_cases hqp : q = p
    · rw [hqp]
    rw [update_of_ne hqp] at hq
    have hlock := h.proc q hq
    rw [hfree] at hlock
    cases hlock
  intr hs := by
    have hlock := h.intr hs
    rw [hfree] at hlock
    cases hlock

theorem release (h : Locks s) (hp : (s.loc p).locked = true) (hL : L.locked = false) :
    Locks { s with lock := none, loc := update s.loc p L } where
  proc q hq := by
    dsimp only at hq
    by_cases hqp : q = p
    · rw [hqp, update_self, hL] at hq
      cases hq
    rw [update_of_ne hqp] at hq
    have hlock := h.proc q hq
    rw [h.proc p hp] at hlock
    cases hlock
    exact absurd rfl hqp
  intr hs := by
    have hlock := h.intr hs
    rw [h.proc p hp] at hlock
    cases hlock

theorem keep (h : Locks s) (hL : L.locked = (s.loc p).locked) :
    Locks { s with loc := update s.loc p L } where
  proc q hq := by
    dsimp only at hq ⊢
    rw [update_keeps locked s.loc hL] at hq
    exact h.proc q hq
  intr := h.intr

end Locks

/-- A call has the sleep lock of its buffer. -/
def Owners (s : State n) : Prop :=
  ∀ p r, (s.loc p).req = some r → s.sleeplock r.b = some p

/-- The chains are as `virtio_disk_rw` has written them. -/
def Links (s : State n) : Prop :=
  ∀ p r c, (s.loc p).linked = some (r, c) → Linked s.disk r c

/-- The heads in the available ring, those with the device and those in the
used ring. -/
structure Queues (d : Disk) (dev : Device) (qa qw qu : List Descno) : Prop where
  avail : Spells counter d.avail.ring dev.seen d.avail.idx (qa.map num)
  working : dev.working = qw.map num
  used : Spells counter d.used.ring d.usedIdx d.used.idx (qu.map fun i => (num i).toUInt32)
  nodup : (qa ++ qw ++ qu).Nodup
  fresh : ∀ i ∈ qa ++ qw, (d.info i).status ≠ 0
  done : ∀ i ∈ qu, (d.info i).status = 0

/-- The heads in `l` are those of the waiting calls with `b->disk` set. -/
structure Tracked (s : State n) (l : List Descno) : Prop where
  mem : ∀ i ∈ l, ∃ p r c, (s.loc p).waits = some (r, c) ∧ c.head = i ∧ s.busy r.b = true
  busy : ∀ p r c, (s.loc p).waits = some (r, c) → s.busy r.b = true → c.head ∈ l
  served : ∀ p r c, (s.loc p).waits = some (r, c) → s.busy r.b = false →
    (s.disk.info c.head).status = 0
  prepared : ∀ p r c, (s.loc p).prepared = some (r, c) →
    s.busy r.b = true ∧ (s.disk.info c.head).status ≠ 0

structure Inv (s : State n) (qa qw qu : List Descno) : Prop where
  locks : Locks s
  owners : Owners s
  shares : Shares s.disk.free fun p => (s.loc p).descs
  links : Links s
  queues : Queues s.disk s.dev qa qw qu
  tracked : Tracked s (qa ++ qw ++ qu)
  notify : ∀ p r c, s.loc p = .notify r c → s.disk.avail.ring (slot s.disk.avail.idx) = num c.head
  serve : s.intr = .serve → qu ≠ []

/-! ## Frames -/

theorem Linked.congr {d d' : Disk} (h : Linked d r c) (hdesc : ∀ i ∈ c.toList, d'.desc i = d.desc i)
    (hinfo : (d'.info c.head).b = (d.info c.head).b) : Linked d' r c where
  head := by rw [hdesc _ (by simp [Chain.toList]), h.head]
  middle := by rw [hdesc _ (by simp [Chain.toList]), h.middle]
  last := by rw [hdesc _ (by simp [Chain.toList]), h.last]
  info := by rw [hinfo, h.info]

theorem Owners.congr (h : Owners s) (hreq : ∀ q, (t.loc q).req = (s.loc q).req)
    (hlock : t.sleeplock = s.sleeplock) : Owners t := by
  intro q r hr
  rw [hreq] at hr
  rw [hlock]
  exact h q r hr

theorem Links.congr (h : Links s) (hlinked : ∀ q, (t.loc q).linked = (s.loc q).linked)
    (hdesc : ∀ q r c, (s.loc q).linked = some (r, c) → Linked s.disk r c → Linked t.disk r c) :
    Links t := by
  intro q r c hq
  rw [hlinked] at hq
  exact hdesc q r c hq (h q r c hq)

theorem Queues.congr {d d' : Disk} {dev : Device} (h : Queues d dev qa qw qu)
    (havail : d'.avail = d.avail) (hused : d'.used = d.used) (hidx : d'.usedIdx = d.usedIdx)
    (hstatus : ∀ i ∈ qa ++ qw ++ qu, (d'.info i).status = (d.info i).status) :
    Queues d' dev qa qw qu where
  avail := by rw [havail]; exact h.avail
  working := h.working
  used := by rw [hused, hidx]; exact h.used
  nodup := h.nodup
  fresh i hi := by
    rw [hstatus i (mem_append_left qu hi)]
    exact h.fresh i hi
  done i hi := by
    rw [hstatus i (mem_append_right _ hi)]
    exact h.done i hi

theorem Tracked.congr (h : Tracked s l) (hwaits : ∀ q, (t.loc q).waits = (s.loc q).waits)
    (hprepared : ∀ q, (t.loc q).prepared = (s.loc q).prepared) (hbusy : t.busy = s.busy)
    (hstatus : ∀ i, (t.disk.info i).status = (s.disk.info i).status) : Tracked t l where
  mem i hi := by
    obtain ⟨q, r, c, hq, hc, hb⟩ := h.mem i hi
    exact ⟨q, r, c, by rw [hwaits, hq], hc, by rw [hbusy, hb]⟩
  busy q r c hq hb := by
    rw [hwaits] at hq
    rw [hbusy] at hb
    exact h.busy q r c hq hb
  served q r c hq hb := by
    rw [hwaits] at hq
    rw [hbusy] at hb
    rw [hstatus]
    exact h.served q r c hq hb
  prepared q r c hq := by
    rw [hprepared] at hq
    rw [hbusy, hstatus]
    exact h.prepared q r c hq

/-- A step that changes one call, or the flag or the status of one call. -/
theorem Tracked.change {l' : List Descno} (h : Tracked s l) (p : Fin n)
    (hloc : ∀ q, q ≠ p → t.loc q = s.loc q)
    (hbusy : ∀ q, q ≠ p → ∀ r, (s.loc q).req = some r → t.busy r.b = s.busy r.b)
    (hstatus : ∀ q, q ≠ p → ∀ r c, (s.loc q).linked = some (r, c) →
      (t.disk.info c.head).status = (s.disk.info c.head).status)
    (hsub : ∀ q, q ≠ p → ∀ r c, (s.loc q).waits = some (r, c) → c.head ∈ l → c.head ∈ l')
    (hmem : ∀ i ∈ l', (∃ r c, (t.loc p).waits = some (r, c) ∧ c.head = i ∧ t.busy r.b = true) ∨
      i ∈ l ∧ ∀ r c, (s.loc p).waits = some (r, c) → c.head = i → s.busy r.b = false)
    (hwaits : ∀ r c, (t.loc p).waits = some (r, c) → (t.busy r.b = true → c.head ∈ l') ∧
      (t.busy r.b = false → (t.disk.info c.head).status = 0))
    (hprepared : ∀ r c, (t.loc p).prepared = some (r, c) →
      t.busy r.b = true ∧ (t.disk.info c.head).status ≠ 0) : Tracked t l' where
  mem i hi := by
    rcases hmem i hi with ⟨r, c, hp⟩ | ⟨hil, hother⟩
    · exact ⟨p, r, c, hp⟩
    obtain ⟨q, r, c, hq, hc, hb⟩ := h.mem i hil
    have hqp : q ≠ p := by
      intro heq
      rw [heq] at hq
      rw [hother r c hq hc] at hb
      cases hb
    have hreq := req_of_linked (linked_of_waits hq)
    exact ⟨q, r, c, by rw [hloc q hqp, hq], hc, by rw [hbusy q hqp r hreq, hb]⟩
  busy q r c hq hb := by
    by_cases hqp : q = p
    · rw [hqp] at hq
      exact (hwaits r c hq).1 hb
    rw [hloc q hqp] at hq
    rw [hbusy q hqp r (req_of_linked (linked_of_waits hq))] at hb
    exact hsub q hqp r c hq (h.busy q r c hq hb)
  served q r c hq hb := by
    by_cases hqp : q = p
    · rw [hqp] at hq
      exact (hwaits r c hq).2 hb
    rw [hloc q hqp] at hq
    have hlinked := linked_of_waits hq
    rw [hbusy q hqp r (req_of_linked hlinked)] at hb
    rw [hstatus q hqp r c hlinked]
    exact h.served q r c hq hb
  prepared q r c hq := by
    by_cases hqp : q = p
    · rw [hqp] at hq
      exact hprepared r c hq
    rw [hloc q hqp] at hq
    have hlinked := linked_of_prepared hq
    rw [hbusy q hqp r (req_of_linked hlinked), hstatus q hqp r c hlinked]
    exact h.prepared q r c hq

namespace Inv

/-! ## Who is who -/

theorem mem_descs (hp : (s.loc p).linked = some (r, c)) : c.head ∈ (s.loc p).descs := by
  rw [descs_of_linked hp]
  exact c.head_mem

variable (h : Inv s qa qw qu)

include h

/-- A chain tells whose it is. -/
theorem proc_unique {r' : Request} {c' : Chain}
    (hp : (s.loc p).linked = some (r, c)) (hq : (s.loc q).linked = some (r', c'))
    (hhead : c'.head = c.head) : p = q :=
  h.shares.holder_unique (mem_descs hp) (hhead ▸ mem_descs hq)

/-- A buffer tells whose it is. -/
theorem buf_unique {r' : Request} (hp : (s.loc p).req = some r)
    (hq : (s.loc q).req = some r') (hb : r'.b = r.b) : p = q := by
  have hsp := h.owners p r hp
  have hsq := h.owners q r' hq
  rw [hb, hsp] at hsq
  exact Option.some.inj hsq

/-- A call that has not told the device is not in the three lists. -/
theorem head_notMem (hp : (s.loc p).chain = some c)
    (hwaits : (s.loc p).waits = none) : c.head ∉ qa ++ qw ++ qu := by
  intro hmem
  obtain ⟨q, r', c', hq, hhead, -⟩ := h.tracked.mem _ hmem
  have hpc : c.head ∈ (s.loc p).descs := by
    rw [descs_of_chain hp]
    exact c.head_mem
  have hpq : p = q :=
    h.shares.holder_unique hpc (hhead ▸ mem_descs (linked_of_waits hq))
  rw [← hpq, hwaits] at hq
  cases hq

/-- There are fewer heads than descriptors where a call has not told the device
yet. -/
theorem length_lt (hp : (s.loc p).prepared = some (r, c)) :
    c.head ∉ qa ++ qw ++ qu ∧ (qa ++ qw ++ qu).length < NUM := by
  have hnot := h.head_notMem (chain_of_linked (linked_of_prepared hp))
    (waits_of_prepared hp)
  have hcons : (c.head :: (qa ++ qw ++ qu)).Nodup := nodup_cons.2 ⟨hnot, h.queues.nodup⟩
  have hcard := hcons.length_le_card
  rw [Fintype.card_fin, length_cons] at hcard
  exact ⟨hnot, hcard⟩

/-- A call that does not go to `notify` leaves the entry for the others. -/
theorem notify_of_update {L : Loc} (hL : ∀ r c, L ≠ .notify r c)
    (hq : update s.loc p L q = .notify r c) :
    s.disk.avail.ring (slot s.disk.avail.idx) = num c.head := by
  by_cases hqp : q = p
  · rw [hqp, update_self] at hq
    exact absurd hq (hL r c)
  · rw [update_of_ne hqp] at hq
    exact h.notify q r c hq

/-! ## The steps of `virtio_disk_rw` -/

variable {lock : Option (Holder n)} {d : Disk}

/-- A step that changes marks, descriptors and the lock, but neither the rings
nor what waits. -/
theorem reshare {L : Loc} (hlocks : Locks { s with lock := lock, loc := update s.loc p L })
    (hreq : ∀ r, L.req = some r → s.sleeplock r.b = some p)
    (hshares : Shares d.free fun q => (update s.loc p L q).descs)
    (hself : ∀ r c, L.linked = some (r, c) → Linked d r c)
    (hother : ∀ q, q ≠ p → ∀ r c, (s.loc q).linked = some (r, c) → Linked s.disk r c → Linked d r c)
    (havail : d.avail = s.disk.avail) (hused : d.used = s.disk.used)
    (hidx : d.usedIdx = s.disk.usedIdx)
    (hstatus : ∀ i, (d.info i).status = (s.disk.info i).status)
    (hprepared : L.prepared = (s.loc p).prepared) (hwaits : L.waits = (s.loc p).waits)
    (hnotify : ∀ r c, L ≠ .notify r c) :
    Inv { s with disk := d, lock := lock, loc := update s.loc p L } qa qw qu where
  locks := ⟨hlocks.proc, hlocks.intr⟩
  owners q r hq := by
    dsimp only at hq ⊢
    by_cases hqp : q = p
    · rw [hqp, update_self] at hq
      rw [hqp]
      exact hreq r hq
    · rw [update_of_ne hqp] at hq
      exact h.owners q r hq
  shares := hshares
  links q r c hq := by
    dsimp only at hq ⊢
    by_cases hqp : q = p
    · rw [hqp, update_self] at hq
      exact hself r c hq
    · rw [update_of_ne hqp] at hq
      exact hother q hqp r c hq (h.links q r c hq)
  queues := h.queues.congr havail hused hidx fun i _ => hstatus i
  tracked := h.tracked.congr (update_keeps waits s.loc hwaits)
    (update_keeps prepared s.loc hprepared) rfl hstatus
  notify q r c hq := by
    dsimp only at hq ⊢
    rw [havail]
    exact h.notify_of_update hnotify hq
  serve := h.serve

/-- A step that changes only where a process stands, and the lock. -/
theorem move {L L0 : Loc} (hp : s.loc p = L0)
    (hlocks : Locks { s with lock := lock, loc := update s.loc p L })
    (hreq : ∀ r, L.req = some r → s.sleeplock r.b = some p) (hdescs : L.descs = L0.descs := by rfl)
    (hlinked : L.linked = L0.linked := by rfl) (hprepared : L.prepared = L0.prepared := by rfl)
    (hwaits : L.waits = L0.waits := by rfl) (hnotify : ∀ r c, L ≠ .notify r c := by nofun) :
    Inv { s with lock := lock, loc := update s.loc p L } qa qw qu := by
  subst hp
  refine h.reshare hlocks hreq (h.shares.congr (update_keeps descs s.loc hdescs)) ?_
    (fun _ _ _ _ _ => id) rfl rfl rfl (fun _ => rfl) hprepared hwaits hnotify
  intro r c hL
  rw [hlinked] at hL
  exact h.links p r c hL

/-- `alloc3_desc` has taken the descriptors `l`. -/
theorem took (hp : s.loc p = .alloc r) (htook : Took s.disk l d) {L : Loc}
    (hlocks : Locks { s with lock := lock, loc := update s.loc p L })
    (hreq : L.req = some r) (hdescs : L.descs = l) (hlinked : L.linked = none)
    (hprepared : L.prepared = none) (hwaits : L.waits = none) (hnotify : ∀ r c, L ≠ .notify r c) :
    Inv { s with disk := d, lock := lock, loc := update s.loc p L } qa qw qu := by
  have hshares := h.shares.give (p := p) (by rw [hp]; rfl) htook.nodup htook.free
  refine h.reshare hlocks ?_ ?_ ?_ ?_ htook.rings.avail htook.rings.used htook.rings.usedIdx ?_
    (by rw [hp, hprepared]; rfl) (by rw [hp, hwaits]; rfl) hnotify
  · intro r' hr'
    rw [hreq] at hr'
    cases hr'
    exact h.owners p r (by rw [hp]; rfl)
  · rw [htook.marks]
    refine hshares.congr fun q => ?_
    rw [apply_update (fun _ => descs), hdescs]
  · intro r' c' hL
    rw [hlinked] at hL
    cases hL
  · intro q _ r' c' hq hlinked
    refine hlinked.congr (fun i hi => htook.desc i ?_) (by rw [htook.rings.info])
    exact h.shares.not_free (p := q) (by rwa [descs_of_linked hq])
  · intro i
    rw [htook.rings.info]

theorem alloc_some (hp : s.loc p = .alloc r) (htook : Took s.disk c.toList d) :
    Inv ({ s with disk := d }.goto p (.format r c)) qa qw qu :=
  h.took hp htook (h.locks.keep (by rw [hp]; rfl)) rfl rfl rfl rfl rfl (fun _ _ => by simp)

theorem alloc_none (hp : s.loc p = .alloc r) (htook : Took s.disk [] d) :
    Inv ({ s with disk := d, lock := none }.goto p (.acquire r)) qa qw qu :=
  h.took hp htook (h.locks.release (by rw [hp]; rfl) rfl) rfl rfl rfl rfl rfl (fun _ _ => by simp)

theorem format (hp : s.loc p = .format r c) : Inv ({ s with
      disk := s.disk.format r c
      busy := update s.busy r.b true }.goto p (.publish r c)) qa qw qu := by
  have hdescs : (s.loc p).descs = c.toList := by rw [hp]; rfl
  have hhead : c.head ∉ qa ++ qw ++ qu := h.head_notMem (by rw [hp]; rfl) (by rw [hp]; rfl)
  -- other calls have other descriptors and other buffers
  have hdisj : ∀ q, q ≠ p → ∀ i ∈ (s.loc q).descs, i ∉ c.toList := by
    intro q hqp i hi hmem
    exact hqp (h.shares.holder_unique hi (by rwa [hdescs]))
  have hbuf : ∀ q, q ≠ p → ∀ r', (s.loc q).req = some r' → r'.b ≠ r.b := by
    intro q hqp r' hr' hb
    exact hqp (h.buf_unique (r := r) (by rw [hp]; rfl) hr' hb).symm
  have hinfo : ∀ q, q ≠ p → ∀ r' c', (s.loc q).linked = some (r', c') →
      (s.disk.format r c).info c'.head = s.disk.info c'.head := by
    intro q hqp r' c' hq
    have hne : c'.head ≠ c.head := by
      intro heq
      exact hdisj q hqp _ (mem_descs hq) (heq ▸ c.head_mem)
    exact update_of_ne hne _ _
  constructor
  · exact ⟨(h.locks.keep (p := p) (L := .publish r c) (by rw [hp]; rfl)).proc, h.locks.intr⟩
  · exact h.owners.congr (update_keeps req s.loc (by rw [hp]; rfl)) rfl
  · exact h.shares.congr (update_keeps descs s.loc (by rw [hp]; rfl))
  · intro q r' c' hq
    by_cases hqp : q = p
    · rw [hqp] at hq
      simp only [goto, update_self] at hq
      cases hq
      exact format_linked s.disk r (hdescs ▸ h.shares.nodup p)
    · simp only [goto, update_of_ne hqp] at hq
      refine (h.links q r' c' hq).congr (fun i hi => ?_) (by rw [← hinfo q hqp r' c' hq]; rfl)
      exact format_desc_of_notMem s.disk r (hdisj q hqp i (by rwa [descs_of_linked hq]))
  · refine h.queues.congr rfl rfl rfl fun i hi => ?_
    have hne : i ≠ c.head := fun heq => hhead (heq ▸ hi)
    exact congrArg Info.status (update_of_ne hne _ _)
  · apply h.tracked.change p
    · exact fun q hqp => update_of_ne hqp _ _
    · exact fun q hqp r' hr' => update_of_ne (hbuf q hqp r' hr') _ _
    · exact fun q hqp r' c' hq => congrArg Info.status (hinfo q hqp r' c' hq)
    · exact fun _ _ _ _ _ hmem => hmem
    · refine fun i hi => .inr ⟨hi, fun r' c' hw => ?_⟩
      rw [hp] at hw
      cases hw
    · intro r' c' hw
      simp only [goto, update_self] at hw
      cases hw
    intro r' c' hprep
    simp only [goto, update_self] at hprep
    cases hprep
    refine ⟨update_self .., ?_⟩
    show (update s.disk.info c.head _ c.head).status ≠ 0
    rw [update_self]
    show (0xff : UInt8) ≠ 0
    decide
  · exact fun q r' c' => h.notify_of_update (fun _ _ => by simp)
  · exact h.serve

/-- Two calls that hold `vdisk_lock` are one. -/
theorem locked_unique (hp : (s.loc p).locked = true) (hq : (s.loc q).locked = true) : p = q := by
  have hlock := h.locks.proc p hp
  rw [h.locks.proc q hq] at hlock
  cases hlock
  rfl

theorem publish (hp : s.loc p = .publish r c) : Inv ({ s with
      disk := { s.disk with
        avail := { s.disk.avail with
          ring := update s.disk.avail.ring (slot s.disk.avail.idx) (num c.head) } }
      }.goto p (.notify r c)) qa qw qu := by
  have hprep : (s.loc p).prepared = some (r, c) := by rw [hp]; rfl
  have hlen : (qa.map num).length < NUM := by
    have hlt := (h.length_lt hprep).2
    simp only [length_append, length_map] at hlt ⊢
    omega
  constructor
  · exact ⟨(h.locks.keep (p := p) (L := .notify r c) (by rw [hp]; rfl)).proc, h.locks.intr⟩
  · exact h.owners.congr (update_keeps req s.loc (by rw [hp]; rfl)) rfl
  · exact h.shares.congr (update_keeps descs s.loc (by rw [hp]; rfl))
  · exact h.links.congr (update_keeps linked s.loc (by rw [hp]; rfl))
      fun _ _ _ _ hl => ⟨hl.head, hl.middle, hl.last, hl.info⟩
  · have hq := h.queues
    exact ⟨hq.avail.store hlen _, hq.working, hq.used, hq.nodup, hq.fresh, hq.done⟩
  · exact h.tracked.congr (update_keeps waits s.loc (by rw [hp]; rfl))
      (update_keeps prepared s.loc (by rw [hp]; rfl)) rfl fun _ => rfl
  · intro q r' c' hq
    by_cases hqp : q = p
    · rw [hqp] at hq
      simp only [goto, update_self] at hq
      cases hq
      exact update_self ..
    · simp only [goto, update_of_ne hqp] at hq
      -- only the holder of the lock can be here
      exact absurd (h.locked_unique (by rw [hq]; rfl) (by rw [hp]; rfl)) hqp
  · exact h.serve

theorem notify_idx (hp : s.loc p = .notify r c) : Inv ({ s with
      disk := { s.disk with avail := { s.disk.avail with idx := s.disk.avail.idx + 1 } }
      }.goto p (.wait r c)) (qa ++ [c.head]) qw qu := by
  have hprep : (s.loc p).prepared = some (r, c) := by rw [hp]; rfl
  obtain ⟨hbusy, hstatus⟩ := h.tracked.prepared p r c hprep
  have hperm : (qa ++ [c.head] ++ qw ++ qu).Perm (c.head :: (qa ++ qw ++ qu)) := by
    simp only [append_assoc, singleton_append]
    exact perm_middle
  constructor
  · exact ⟨(h.locks.keep (p := p) (L := .wait r c) (by rw [hp]; rfl)).proc, h.locks.intr⟩
  · exact h.owners.congr (update_keeps req s.loc (by rw [hp]; rfl)) rfl
  · exact h.shares.congr (update_keeps descs s.loc (by rw [hp]; rfl))
  · exact h.links.congr (update_keeps linked s.loc (by rw [hp]; rfl))
      fun _ _ _ _ hl => ⟨hl.head, hl.middle, hl.last, hl.info⟩
  · have hq := h.queues
    have havail := hq.avail.snoc
    rw [show s.disk.avail.ring (counter.slot s.disk.avail.idx) = num c.head from
      h.notify p r c hp, ← map_singleton, ← map_append] at havail
    refine ⟨havail, hq.working, hq.used, ?_, ?_, hq.done⟩
    · rw [hperm.nodup_iff]
      exact nodup_cons.2 ⟨(h.length_lt hprep).1, hq.nodup⟩
    intro i hi
    simp only [mem_append, mem_singleton] at hi
    rcases hi with (hi | rfl) | hi
    · exact hq.fresh i (mem_append_left _ hi)
    · exact hstatus
    · exact hq.fresh i (mem_append_right _ hi)
  · apply h.tracked.change p
    · exact fun q hqp => update_of_ne hqp _ _
    · exact fun _ _ _ _ => rfl
    · exact fun _ _ _ _ _ => rfl
    · exact fun q _ r' c' _ hmem => hperm.mem_iff.2 (mem_cons_of_mem _ hmem)
    · intro i hi
      rcases mem_cons.1 (hperm.mem_iff.1 hi) with rfl | hi
      · refine .inl ⟨r, c, ?_, rfl, hbusy⟩
        simp only [goto, update_self]
        rfl
      refine .inr ⟨hi, fun r' c' hw => ?_⟩
      rw [hp] at hw
      cases hw
    · intro r' c' hw
      simp only [goto, update_self] at hw
      cases hw
      refine ⟨fun _ => hperm.mem_iff.2 mem_cons_self, fun hb => ?_⟩
      have hb' : s.busy r.b = false := hb
      rw [hbusy] at hb'
      cases hb'
    · intro r' c' hprep'
      simp only [goto, update_self] at hprep'
      cases hprep'
  · intro q r' c' hq
    by_cases hqp : q = p
    · rw [hqp] at hq
      simp only [goto, update_self] at hq
      cases hq
    · simp only [goto, update_of_ne hqp] at hq
      exact absurd (h.locked_unique (by rw [hq]; rfl) (by rw [hp]; rfl)) hqp
  · exact h.serve

/-- The loop of `virtio_disk_rw` ends. -/
theorem wait_done (hp : s.loc p = .wait r c) (hb : s.busy r.b = false) :
    Inv (s.goto p (.finish r c)) qa qw qu := by
  constructor
  · exact h.locks.keep (by rw [hp]; rfl)
  · exact h.owners.congr (update_keeps req s.loc (by rw [hp]; rfl)) rfl
  · exact h.shares.congr (update_keeps descs s.loc (by rw [hp]; rfl))
  · exact h.links.congr (update_keeps linked s.loc (by rw [hp]; rfl)) fun _ _ _ _ => id
  · exact h.queues
  · apply h.tracked.change p
    · exact fun q hqp => update_of_ne hqp _ _
    · exact fun _ _ _ _ => rfl
    · exact fun _ _ _ _ _ => rfl
    · exact fun _ _ _ _ _ hmem => hmem
    · refine fun i hi => .inr ⟨hi, fun r' c' hw _ => ?_⟩
      rw [hp] at hw
      cases hw
      exact hb
    · intro r' c' hw
      simp only [goto, update_self] at hw
      cases hw
    · intro r' c' hprep
      simp only [goto, update_self] at hprep
      cases hprep
  · exact fun q r' c' => h.notify_of_update (fun _ _ => by simp)
  · exact h.serve

theorem free_chain (hp : s.loc p = .finish r c)
    (hgave : Gave { s.disk with
      info := update s.disk.info c.head { s.disk.info c.head with b := none } }
      c.toList d) :
    Inv ({ s with disk := d }.goto p (.release r)) qa qw qu := by
  have hdescs : (s.loc p).descs = c.toList := by rw [hp]; rfl
  refine h.reshare (h.locks.keep (by rw [hp]; rfl)) ?_ ?_ ?_ ?_ ?_ ?_ ?_ ?_ (by rw [hp]; rfl)
    (by rw [hp]; rfl) (fun _ _ => by simp)
  · intro r' hr'
    cases hr'
    exact h.owners p r (by rw [hp]; rfl)
  · have hshares := h.shares.back p
    rw [hdescs] at hshares
    rw [hgave.marks]
    exact hshares.congr fun q => apply_update (fun _ => descs) s.loc p _ q
  · intro r' c' hL
    cases hL
  · intro q hqp r' c' hq hlinked
    have hdisj : ∀ i ∈ c'.toList, i ∉ c.toList := by
      intro i hi hmem
      exact hqp (h.shares.holder_unique (by rwa [descs_of_linked hq]) (by rwa [hdescs]))
    refine hlinked.congr (fun i hi => ?_) ?_
    · rw [hgave.desc i (hdisj i hi)]
    have hne : c'.head ≠ c.head := fun heq => hdisj _ c'.head_mem (heq ▸ c.head_mem)
    rw [hgave.rings.info]
    exact congrArg Info.b (update_of_ne hne _ _)
  · rw [hgave.rings.avail]
  · rw [hgave.rings.used]
  · rw [hgave.rings.usedIdx]
  · intro i
    rw [hgave.rings.info]
    dsimp only
    by_cases hi : i = c.head
    · rw [hi, update_self]
    · rw [update_of_ne hi]

/-- A change of sleep locks that no call holds. -/
theorem sleeplocks {sleeplock : Bufno → Option (Fin n)}
    (hkeep : ∀ q r, (s.loc q).req = some r → sleeplock r.b = s.sleeplock r.b) :
    Inv { s with sleeplock := sleeplock } qa qw qu where
  locks := ⟨h.locks.proc, h.locks.intr⟩
  owners q r hq := by
    show sleeplock r.b = some q
    rw [hkeep q r hq]
    exact h.owners q r hq
  shares := h.shares
  links := h.links
  queues := h.queues
  tracked := ⟨h.tracked.mem, h.tracked.busy, h.tracked.served, h.tracked.prepared⟩
  notify := h.notify
  serve := h.serve

/-! ## The steps of `virtio_disk_intr` -/

/-- The handler takes the lock or gives it up. -/
theorem intr_move {intr : IntrLoc} (hlocks : Locks { s with lock := lock, intr := intr })
    (hserve : intr = .serve → qu ≠ []) :
    Inv { s with lock := lock, intr := intr } qa qw qu :=
  ⟨hlocks, h.owners, h.shares, h.links, h.queues,
    ⟨h.tracked.mem, h.tracked.busy, h.tracked.served, h.tracked.prepared⟩, h.notify, hserve⟩

omit h in
/-- What the handler finds in the used ring: the head of a waiting request that
the device has completed. -/
theorem next_used {qu' : List Descno} (h : Inv s qa qw (i :: qu')) :
    ∃ p r c, c.head = i ∧ (s.loc p).waits = some (r, c) ∧ s.busy r.b = true ∧
      (s.disk.info c.head).b = some r.b ∧ (s.disk.info c.head).status = 0 := by
  obtain ⟨p, r, c, hp, rfl, hb⟩ := h.tracked.mem i (by simp)
  exact ⟨p, r, c, rfl, hp, hb, (h.links p r c (linked_of_waits hp)).info, h.queues.done _ (by simp)⟩

omit h in
theorem serve_head {qu' : List Descno} (h : Inv s qa qw (c.head :: qu')) (hs : s.intr = .serve)
    (hp : (s.loc p).waits = some (r, c)) (hstatus : (s.disk.info c.head).status = 0) :
    Inv { s with
      busy := update s.busy r.b false
      disk := { s.disk with usedIdx := s.disk.usedIdx + 1 }
      intr := .loop } qa qw qu' := by
  have hlinked := linked_of_waits hp
  have hperm : (qa ++ qw ++ c.head :: qu').Perm (c.head :: (qa ++ qw ++ qu')) := perm_middle
  have hnodup := hperm.nodup_iff.1 h.queues.nodup
  have hnot := (nodup_cons.1 hnodup).1
  constructor
  · refine ⟨h.locks.proc, fun _ => h.locks.intr ?_⟩
    rw [hs]
    exact fun hcontra => (by cases hcontra)
  · exact h.owners
  · exact h.shares
  · exact h.links.congr (fun _ => rfl) fun _ _ _ _ hl => ⟨hl.head, hl.middle, hl.last, hl.info⟩
  · have hq := h.queues
    exact ⟨hq.avail, hq.working, hq.used.2, (nodup_cons.1 hnodup).2, hq.fresh,
      fun i hi => hq.done i (mem_cons_of_mem _ hi)⟩
  · apply h.tracked.change p
    · exact fun _ _ => rfl
    · intro q hqp r' hr'
      refine update_of_ne (fun hb => hqp ?_) _ _
      exact (h.buf_unique (req_of_linked hlinked) hr' hb).symm
    · exact fun _ _ _ _ _ => rfl
    · intro q hqp r' c' hq hmem
      refine (mem_cons.1 (hperm.mem_iff.1 hmem)).resolve_left fun heq => hqp ?_
      exact (h.proc_unique hlinked (linked_of_waits hq) heq).symm
    · refine fun i hi => .inr ⟨hperm.mem_iff.2 (mem_cons_of_mem _ hi), ?_⟩
      intro r' c' hw heq
      rw [hp] at hw
      cases hw
      exact absurd (heq ▸ hi) hnot
    · intro r' c' hw
      have hw' : (s.loc p).waits = some (r', c') := hw
      rw [hp] at hw'
      cases hw'
      refine ⟨fun hb => ?_, fun _ => hstatus⟩
      have hb' : update s.busy r.b false r.b = true := hb
      rw [update_self] at hb'
      cases hb'
    · intro r' c' hprep
      have hnone := waits_of_prepared hprep
      rw [show (s.loc p).waits = none from hnone] at hp
      cases hp
  · exact h.notify
  · intro hcontra
    cases hcontra

/-! ## The steps of the device -/

theorem fetch_head (hne : s.dev.seen ≠ s.disk.avail.idx) :
    ∃ i qa', qa = i :: qa' ∧ Inv { s with dev :=
      { seen := s.dev.seen + 1
        working := s.disk.avail.ring (slot s.dev.seen) :: s.dev.working } } qa' (i :: qw) qu := by
  obtain ⟨l', hl', hspells⟩ := h.queues.avail.take hne
  cases qa with
  | nil => cases hl'
  | cons i qa' =>
    rw [map_cons, cons.injEq] at hl'
    obtain ⟨hi, rfl⟩ := hl'
    have hperm : (qa' ++ i :: qw ++ qu).Perm (i :: qa' ++ qw ++ qu) := by
      simp only [append_assoc, cons_append]
      exact perm_middle
    have hq := h.queues
    refine ⟨i, qa', rfl, ⟨h.locks.proc, h.locks.intr⟩, h.owners, h.shares, h.links, ?_, ?_,
      h.notify, h.serve⟩
    · refine ⟨hspells, ?_, hq.used, hperm.nodup_iff.2 hq.nodup, ?_, hq.done⟩
      · show s.disk.avail.ring (slot s.dev.seen) :: s.dev.working = _
        rw [map_cons, hq.working, hi]
        rfl
      intro j hj
      apply hq.fresh j
      simp only [mem_append, mem_cons] at hj ⊢
      tauto
    · have ht := h.tracked
      exact ⟨fun j hj => ht.mem j (hperm.mem_iff.1 hj),
        fun q r c hw hb => hperm.mem_iff.2 (ht.busy q r c hw hb), ht.served, ht.prepared⟩

theorem complete_head {id : UInt16} (hid : id ∈ s.dev.working) :
    ∃ p r c, (s.loc p).waits = some (r, c) ∧ id = num c.head ∧ Inv { s with
        disk := (s.disk.storeStatus id).addUsed id
        dev := { s.dev with working := s.dev.working.erase id } }
        qa (qw.erase c.head) (qu ++ [c.head]) := by
  have hq := h.queues
  rw [hq.working] at hid
  obtain ⟨i, hi, rfl⟩ := mem_map.1 hid
  have hmem : i ∈ qa ++ qw ++ qu := by simp [hi]
  obtain ⟨p, r, c, hp, rfl, hb⟩ := h.tracked.mem i hmem
  have hlinked := linked_of_waits hp
  have hlinks := h.links p r c hlinked
  refine ⟨p, r, c, hp, rfl, ?_⟩
  -- the head goes from the device to the used ring
  have hperm : (qa ++ qw.erase c.head ++ (qu ++ [c.head])).Perm (qa ++ qw ++ qu) :=
    calc Perm (qa ++ qw.erase c.head ++ (qu ++ [c.head]))
          (qa ++ qw.erase c.head ++ c.head :: qu) := (perm_append_singleton _ qu).append_left _
      Perm _ (c.head :: (qa ++ qw.erase c.head ++ qu)) := perm_middle
      Perm _ (qa ++ c.head :: qw.erase c.head ++ qu) := by
        simp only [append_assoc, cons_append]
        exact perm_middle.symm
      Perm _ (qa ++ qw ++ qu) :=
        ((perm_cons_erase hi).symm.append_left qa).append_right qu
  have hnodup := hperm.nodup_iff.2 hq.nodup
  have hlen : (qu.map fun i => (num i).toUInt32).length < NUM := by
    have hcard := hnodup.length_le_card
    rw [Fintype.card_fin] at hcard
    simp only [length_append, length_singleton, length_map] at hcard ⊢
    omega
  have hother : ∀ j, j ∈ qa ++ qw.erase c.head ++ qu → j ≠ c.head := by
    intro j hj heq
    rw [← append_assoc] at hnodup
    exact (nodup_append.1 hnodup).2.2 j hj c.head (by simp) heq
  rw [storeStatus_linked hlinks]
  constructor
  · exact ⟨h.locks.proc, h.locks.intr⟩
  · exact h.owners
  · exact h.shares
  · refine h.links.congr (fun _ => rfl) fun q r' c' hq hl => hl.congr (fun _ _ => rfl) ?_
    show (update s.disk.info c.head _ c'.head).b = _
    by_cases hne : c'.head = c.head
    · rw [hne, update_self]
    · rw [update_of_ne hne]
  · have hspells := hq.used.push hlen (num c.head).toUInt32
    refine ⟨hq.avail, ?_, ?_, hnodup, ?_, ?_⟩
    · show s.dev.working.erase (num c.head) = _
      rw [hq.working, map_erase num_injective]
    · rwa [map_append]
    · intro j hj
      show (update s.disk.info c.head _ j).status ≠ 0
      rw [update_of_ne (hother j (mem_append_left qu hj))]
      apply hq.fresh j
      rcases mem_append.1 hj with hj | hj
      · exact mem_append_left _ hj
      · exact mem_append_right _ (mem_of_mem_erase hj)
    · intro j hj
      show (update s.disk.info c.head _ j).status = 0
      rcases mem_append.1 hj with hj | hj
      · rw [update_of_ne (hother j (mem_append_right _ hj))]
        exact hq.done j hj
      · rw [mem_singleton.1 hj, update_self]
  · apply h.tracked.change p
    · exact fun _ _ => rfl
    · exact fun _ _ _ _ => rfl
    · intro q hqp r' c' hq'
      have hne : c'.head ≠ c.head := by
        intro heq
        exact hqp (h.proc_unique hlinked hq' heq).symm
      exact congrArg Info.status (update_of_ne hne _ _)
    · exact fun _ _ _ _ _ hmem' => hperm.mem_iff.2 hmem'
    · intro j hj
      by_cases hjc : c.head = j
      · exact .inl ⟨r, c, hp, hjc, hb⟩
      refine .inr ⟨hperm.mem_iff.1 hj, fun r' c' hw heq => ?_⟩
      rw [hp] at hw
      cases hw
      exact absurd heq hjc
    · intro r' c' hw
      have hw' : (s.loc p).waits = some (r', c') := hw
      rw [hp] at hw'
      cases hw'
      refine ⟨fun _ => hperm.mem_iff.2 hmem, fun hb' => ?_⟩
      have hb'' : s.busy r.b = false := hb'
      rw [hb] at hb''
      cases hb''
    · intro r' c' hprep
      have hnone := waits_of_prepared hprep
      rw [show (s.loc p).waits = none from hnone] at hp
      cases hp
  · exact h.notify
  · intro _ hnil
    simp at hnil

end Inv

end Xv6.Virtio
