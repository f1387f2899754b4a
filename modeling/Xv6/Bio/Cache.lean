import Xv6.Bio.Model

/-!
# What the buffer cache keeps

The invariant of the cache over every run: the list holds every buffer once,
no two buffers are for one block of a real device, `refcnt` counts the
processes and pins that use a buffer, and a buffer that nobody has open holds
what its last user left, or nothing yet.
-/

namespace Xv6.Bio

open Lib Function List Loc Option Prod State

variable {n : Nat} {D : Type} {s t : State n D} {p q : Fin n} {b c : Bufno} {dev blockno : UInt32}

/-! ## What a location says -/

namespace Loc

/-- The buffer to which a process without its sleep lock refers. -/
def refers : Loc → Option Bufno
  | .lock b _ _ | .relse b => some b
  | _ => none

/-- The buffer that a `bread` has locked and not returned yet. -/
def fetches : Loc → Option Bufno
  | .check b _ _ | .read b _ _ => some b
  | _ => none

/-- The buffer and the block of a `bread`. -/
def wants : Loc → Option (Bufno × UInt32 × UInt32)
  | .lock b dev blockno | .check b dev blockno | .read b dev blockno => some (b, dev, blockno)
  | _ => none

/-- A `bread` that has found its buffer without contents. -/
def reads : Loc → Option Bufno
  | .read b _ _ => some b
  | _ => none

theorem refers_or_fetches {L : Loc} (h : L.wants = some (b, dev, blockno)) :
    L.refers = some b ∨ L.fetches = some b := by
  cases L <;> simp_all [wants, refers, fetches]

end Loc

namespace State

/-- The processes and pins that use a buffer. -/
def refs (s : State n D) (b : Bufno) : Nat :=
  (s.lock b).toList.length + holders (fun p => (s.loc p).refers) b + s.pins b

/-- A process has the buffer, from `bread` to `brelse`. -/
def Open (s : State n D) (b : Bufno) : Prop :=
  ∃ p, s.lock b = some p ∧ (s.loc p).fetches ≠ some b

end State

/-- The list holds every buffer once. -/
def Complete (k : Links Node) : Prop :=
  ∃ l : List Bufno, l.Nodup ∧ (∀ b, b ∈ l) ∧ k.Cycle .head (l.map .buf)

structure Inv (s : State n D) : Prop where
  list : Complete s.links
  unique : ∀ b c, (s.buf b).dev ≠ 0 → (s.buf b).key = (s.buf c).key → b = c
  refcnt : ∀ b, (s.buf b).refcnt = s.refs b
  fetches : ∀ p b, (s.loc p).fetches = some b → s.lock b = some p
  wants : ∀ p b dev blockno, (s.loc p).wants = some (b, dev, blockno) →
    (s.buf b).key = (dev, blockno) ∧ dev ≠ 0
  reads : ∀ p b, (s.loc p).reads = some b → (s.buf b).valid = false
  opened : ∀ b, s.Open b → (s.buf b).valid = true ∧ (s.buf b).dev ≠ 0
  closed : ∀ b, (s.buf b).dev ≠ 0 → ¬ s.Open b →
    s.left (s.buf b).key = if (s.buf b).valid then some (s.buf b).data else none
  cached : ∀ k d, s.left k = some d → ∃ b, (s.buf b).key = k

/-! ## The list -/

namespace Complete

variable {k : Links Node}

theorem length_of_nodup {l : List Bufno} (hl : l.Nodup) (hmem : ∀ b, b ∈ l) : l.length = NBUF := by
  have hcard := Finset.card_univ (α := Bufno)
  have huniv : l.toFinset = Finset.univ := by
    ext b
    simp [hmem b]
  rwa [← huniv, toFinset_card_of_nodup hl, Fintype.card_fin] at hcard

/-- `brelse` moves a buffer to the front. -/
theorem touch (hk : Complete k) (b : Bufno) :
    Complete ((k.unlink (.buf b)).pushFront .head (.buf b)) := by
  obtain ⟨l, hl, hmem, hcycle⟩ := hk
  have herase : (l.map Node.buf).erase (.buf b) = (l.erase b).map .buf := by
    rw [map_erase]
    exact fun _ _ h => Node.buf.inj h
  have hcycle' := hcycle.unlink (b := .buf b) (mem_map.2 ⟨b, hmem b, rfl⟩)
  rw [herase] at hcycle'
  refine ⟨b :: l.erase b, ?_, fun c => ?_, hcycle'.pushFront ?_⟩
  · exact nodup_cons.2 ⟨fun h => (hl.mem_erase_iff.1 h).1 rfl, hl.erase b⟩
  · by_cases hcb : c = b
    · simp [hcb]
    · exact mem_cons_of_mem b (hl.mem_erase_iff.2 ⟨hcb, hmem c⟩)
  · simp [hl.mem_erase_iff]

/-- Every buffer is put into the list that `binit` makes. -/
theorem binit (k : Links Node) : Complete (binit k) := by
  -- after the first buffers, the list holds them in reverse
  have hloop : ∀ (l done : List Bufno) (k : Links Node), (done ++ l).Nodup →
      k.Cycle .head (done.reverse.map .buf) →
      (l.foldl (fun k b => k.pushFront .head (.buf b)) k).Cycle .head
        ((done ++ l).reverse.map .buf) := by
    intro l
    induction l with
    | nil =>
      intro done k _ hk
      simpa using hk
    | cons b l ih =>
      intro done k hnodup hk
      have hb : b ∉ done := by
        rw [nodup_append] at hnodup
        exact fun hm => hnodup.2.2 b hm b (by simp) rfl
      have hk' := hk.pushFront (b := .buf b) (by simpa using hb)
      have hstep := ih (done ++ [b]) (k.pushFront .head (.buf b)) (by simpa using hnodup)
        (by simpa using hk')
      simpa using hstep
  refine ⟨(finRange NBUF).reverse, ?_, ?_, ?_⟩
  · exact nodup_reverse.2 (nodup_finRange NBUF)
  · exact fun b => mem_reverse.2 (mem_finRange b)
  rw [Bio.binit]
  have hstart := Links.cycle_self k Node.head
  simpa using hloop (finRange NBUF) [] _ (nodup_finRange NBUF) hstart

end Complete

/-! ## The loops of `bget` -/

/-- A search of the list from either end finds a buffer that passes the test,
or there is none. -/
theorem search_spec {f : Node → Bool} {r : Option Node} {l : List Node}
    (hr : r = l.find? f) (hl : ∀ b, Node.buf b ∈ l) (hhead : f .head = false) :
    (∃ b, r = some (.buf b) ∧ f (.buf b) = true) ∨ (r = none ∧ ∀ b, f (.buf b) = false) := by
  cases hr' : r with
  | none =>
    right
    refine ⟨rfl, fun b => ?_⟩
    rw [hr'] at hr
    simpa using find?_eq_none.1 hr.symm (.buf b) (hl b)
  | some x =>
    left
    rw [hr'] at hr
    have hx := find?_some hr.symm
    cases x with
    | head =>
      rw [hhead] at hx
      cases hx
    | buf b => exact ⟨b, rfl, hx⟩

theorem cached_spec (h : Complete s.links) (dev blockno : UInt32) :
    (∃ b, s.cached dev blockno = some (.buf b) ∧ (s.buf b).key = (dev, blockno)) ∨
      (s.cached dev blockno = none ∧ ∀ b, (s.buf b).key ≠ (dev, blockno)) := by
  obtain ⟨l, hl, hmem, hcycle⟩ := h
  have hwalk := hcycle.walk_next (s.test fun x => x.dev = dev && x.blockno = blockno)
    (n := NBUF + 1) (by rw [length_map, Complete.length_of_nodup hl hmem]; omega)
  rcases search_spec hwalk (fun b => mem_map.2 ⟨b, hmem b, rfl⟩) rfl with
    ⟨b, hb, hf⟩ | ⟨hnone, hf⟩
  · refine .inl ⟨b, hb, ?_⟩
    simp only [test, Bool.and_eq_true, decide_eq_true_eq] at hf
    rw [Buf.key, hf.1, hf.2]
  refine .inr ⟨hnone, fun b hb => ?_⟩
  have hfb := hf b
  rw [Buf.key, Prod.mk.injEq] at hb
  simp [test, hb.1, hb.2] at hfb

theorem unused_spec (h : Complete s.links) :
    (∃ b, s.unused = some (.buf b) ∧ (s.buf b).refcnt = 0) ∨ s.unused = none := by
  obtain ⟨l, hl, hmem, hcycle⟩ := h
  have hwalk := hcycle.walk_prev (s.test fun x => x.refcnt = 0)
    (n := NBUF + 1) (by rw [length_map, Complete.length_of_nodup hl hmem]; omega)
  have hmem' : ∀ b, Node.buf b ∈ (l.map Node.buf).reverse := fun b =>
    mem_reverse.2 (mem_map.2 ⟨b, hmem b, rfl⟩)
  rcases search_spec hwalk hmem' rfl with ⟨b, hb, hf⟩ | ⟨hnone, -⟩
  · exact .inl ⟨b, hb, by simpa [test] using hf⟩
  · exact .inr hnone

/-! ## Steps -/

variable {next : Loc}

namespace Loc

/-- The buffer that a location is about. -/
def bufno : Loc → Option Bufno
  | .idle => none
  | .lock b _ _ | .check b _ _ | .read b _ _ | .relse b => some b

/-- A location, as far as it is about buffer `c`. -/
def about (L : Loc) (c : Bufno) : Loc := if L.bufno = some c then L else .idle

theorem about_iff (L : Loc) : ((L.about c).refers = some c ↔ L.refers = some c) ∧
    ((L.about c).fetches = some c ↔ L.fetches = some c) ∧
    (∀ dev blockno, (L.about c).wants = some (c, dev, blockno) ↔ L.wants = some (c, dev, blockno)) ∧
    ((L.about c).reads = some c ↔ L.reads = some c) := by
  rw [about]
  split
  · simp
  · cases L <;> simp_all [bufno, refers, fetches, wants, reads]

/-- A move from and to locations about `b` is no concern of other buffers. -/
theorem about_update {loc : Fin n → Loc} (hold : (loc p).bufno = none ∨ (loc p).bufno = some b)
    (hnew : next.bufno = none ∨ next.bufno = some b) (hc : c ≠ b) (q : Fin n) :
    (update loc p next q).about c = (loc q).about c := by
  have hidle : ∀ {L : Loc}, (L.bufno = none ∨ L.bufno = some b) → L.about c = .idle := by
    rintro L (h | h) <;> simp [about, h, Ne.symm hc]
  by_cases hq : q = p
  · rw [hq, update_self, hidle hnew, hidle hold]
  · rw [update_of_ne hq]

end Loc

/-- What the invariant says about one buffer. -/
structure Good (s : State n D) (b : Bufno) : Prop where
  refcnt : (s.buf b).refcnt = s.refs b
  fetches : ∀ p, (s.loc p).fetches = some b → s.lock b = some p
  wants : ∀ p dev blockno, (s.loc p).wants = some (b, dev, blockno) →
    (s.buf b).key = (dev, blockno) ∧ dev ≠ 0
  reads : ∀ p, (s.loc p).reads = some b → (s.buf b).valid = false
  opened : s.Open b → (s.buf b).valid = true ∧ (s.buf b).dev ≠ 0
  closed : (s.buf b).dev ≠ 0 → ¬ s.Open b →
    s.left (s.buf b).key = if (s.buf b).valid then some (s.buf b).data else none

theorem Inv.good (h : Inv s) (b : Bufno) : Good s b :=
  ⟨h.refcnt b, fun p => h.fetches p b, fun p => h.wants p b, fun p => h.reads p b, h.opened b,
    h.closed b⟩

theorem not_open_of_free (hb : s.lock b = none) : ¬ s.Open b := by
  rintro ⟨q, hq, -⟩
  rw [hb] at hq
  cases hq

theorem not_open_of_fetches (hl : s.lock b = some p) (hf : (s.loc p).fetches = some b) :
    ¬ s.Open b := by
  rintro ⟨q, hq, hne⟩
  rw [hl] at hq
  cases hq
  exact hne hf

theorem Inv.not_open (h : Inv s) (hf : (s.loc p).fetches = some b) : ¬ s.Open b :=
  not_open_of_fetches (h.fetches p b hf) hf

/-- A step that is no concern of a buffer. -/
theorem Good.congr (h : Good s c) (hloc : ∀ q, (t.loc q).about c = (s.loc q).about c)
    (hbuf : t.buf c = s.buf c) (hlock : t.lock c = s.lock c) (hpins : t.pins c = s.pins c)
    (hleft : (s.buf c).dev ≠ 0 → t.left (s.buf c).key = s.left (s.buf c).key) : Good t c := by
  have hiff := fun q => (hloc q ▸ about_iff (c := c) (t.loc q))
  have hrefers : ∀ q, (t.loc q).refers = some c ↔ (s.loc q).refers = some c := fun q =>
    (hiff q).1.symm.trans (about_iff _).1
  have hfetches : ∀ q, (t.loc q).fetches = some c ↔ (s.loc q).fetches = some c := fun q =>
    (hiff q).2.1.symm.trans (about_iff _).2.1
  have hopen : t.Open c ↔ s.Open c := by simp only [Open, hlock, ne_eq, hfetches]
  constructor
  case refcnt =>
    rw [hbuf, h.refcnt]
    simp only [refs, holders, hlock, hpins, hrefers]
  case fetches =>
    intro q hq
    rw [hlock]
    exact h.fetches q ((hfetches q).1 hq)
  case wants =>
    intro q dev blockno hq
    rw [hbuf]
    exact h.wants q dev blockno (((hiff q).2.2.1 _ _).symm.trans ((about_iff _).2.2.1 _ _) |>.1 hq)
  case reads =>
    intro q hq
    rw [hbuf]
    exact h.reads q ((hiff q).2.2.2.symm.trans (about_iff _).2.2.2 |>.1 hq)
  case opened =>
    rw [hopen, hbuf]
    exact h.opened
  case closed =>
    rw [hopen, hbuf]
    intro hdev hno
    rw [hleft hdev]
    exact h.closed hdev hno

namespace Inv

/-- A buffer without references is used by nobody. -/
theorem unused_of_refcnt (h : Inv s) (hb : (s.buf b).refcnt = 0) :
    s.lock b = none ∧ (∀ p, (s.loc p).refers ≠ some b) ∧ s.pins b = 0 := by
  rw [h.refcnt b, refs] at hb
  have hlock : s.lock b = none := by
    cases hl : s.lock b with
    | none => rfl
    | some p =>
      rw [hl, toList_some, length_singleton] at hb
      omega
  exact ⟨hlock, holders_eq_zero.1 (by omega), by omega⟩

/-- A step that is about one buffer. -/
theorem of_good (h : Inv s) (hlist : Complete t.links)
    (hloc : ∀ c, c ≠ b → ∀ q, (t.loc q).about c = (s.loc q).about c)
    (hother : ∀ c, c ≠ b → t.buf c = s.buf c ∧ t.lock c = s.lock c ∧ t.pins c = s.pins c)
    (hkey : ∀ c, c ≠ b → (s.buf c).dev ≠ 0 → (t.buf b).key ≠ (s.buf c).key)
    (hleft : ∀ c, c ≠ b → (s.buf c).dev ≠ 0 → t.left (s.buf c).key = s.left (s.buf c).key)
    (hcached : ∀ k d, t.left k = some d → ∃ c, (t.buf c).key = k) (hgood : Good t b) : Inv t := by
  have hall : ∀ c, Good t c := by
    intro c
    by_cases hc : c = b
    · rwa [hc]
    obtain ⟨hbuf, hlock, hpins⟩ := hother c hc
    exact (h.good c).congr (hloc c hc) hbuf hlock hpins (hleft c hc)
  refine ⟨hlist, fun c d hc hcd => ?_, fun c => (hall c).refcnt, fun q c => (hall c).fetches q,
    fun q c => (hall c).wants q, fun q c => (hall c).reads q, fun c => (hall c).opened,
    fun c => (hall c).closed, hcached⟩
  by_cases hcb : c = b
  · by_cases hdb : d = b
    · rw [hcb, hdb]
    rw [hcb, (hother d hdb).1] at hcd
    have hdev : (t.buf b).dev = (s.buf d).dev := congrArg fst hcd
    rw [hcb, hdev] at hc
    exact absurd hcd (hkey d hdb hc)
  rw [(hother c hcb).1] at hc hcd
  by_cases hdb : d = b
  · rw [hdb] at hcd
    exact absurd hcd.symm (hkey c hcb hc)
  · rw [(hother d hdb).1] at hcd
    exact h.unique c d hc hcd

end Inv

/-! ### One process moves -/

/-- What a step of `p` to `next` does to the locations of all. -/
theorem loc_cases {C : Fin n → Loc → Prop} {loc : Fin n → Loc} (hself : C p next)
    (hother : ∀ q, q ≠ p → C q (loc q)) (q : Fin n) : C q (update loc p next q) := by
  by_cases hq : q = p
  · rwa [hq, update_self]
  rw [update_of_ne hq]
  exact hother q hq

variable {x : Buf D}

/-- What a change of buffer `b` does to all buffers. -/
theorem buf_cases {C : Bufno → Buf D → Prop} {f : Bufno → Buf D} (hself : C b x)
    (hother : ∀ c, c ≠ b → C c (f c)) (c : Bufno) : C c (update f b x c) := by
  by_cases hc : c = b
  · rwa [hc, update_self]
  rw [update_of_ne hc]
  exact hother c hc

/-- The references of a buffer when `p` moves. -/
theorem refs_of_move (hloc : t.loc = update s.loc p next) (c : Bufno) :
    t.refs c + (if (s.loc p).refers = some c then 1 else 0) + (s.lock c).toList.length + s.pins c =
      s.refs c + (if next.refers = some c then 1 else 0) + (t.lock c).toList.length + t.pins c := by
  have hupdate : (fun q => (update s.loc p next q).refers) =
      update (fun q => (s.loc q).refers) p next.refers :=
    funext fun q => apply_update (fun _ => refers) s.loc p next q
  have hcount := holders_update (fun q => (s.loc q).refers) p next.refers c
  rw [refs, refs, hloc, hupdate]
  omega

/-- Who has a buffer open when a process moves that does not fetch it. -/
theorem open_iff (hloc : t.loc = update s.loc p next) (hlock : t.lock b = s.lock b)
    (hold : (s.loc p).fetches ≠ some b) (hnew : next.fetches ≠ some b) : t.Open b ↔ s.Open b := by
  have hfetches : ∀ q, (t.loc q).fetches = some b ↔ (s.loc q).fetches = some b := by
    rw [hloc]
    exact loc_cases (C := fun q L => L.fetches = some b ↔ (s.loc q).fetches = some b)
      (iff_of_false hnew hold) fun _ _ => Iff.rfl
  simp only [Open, hlock, ne_eq, hfetches]

namespace Inv

section

variable (h : Inv s)

include h

/-- A step of `p` that is about buffer `b`, which becomes `x`, with `l` as its
lock and `v` as what was last left of its block.  The lock of another process
is respected, and only a buffer without references gets another block. -/
theorem of_turn {l : Option (Fin n)} {v : Option D}
    (hlist : Complete t.links) (hloc : t.loc = update s.loc p next)
    (hbuf : t.buf = update s.buf b x) (hlock : t.lock = update s.lock b l) (hpins : t.pins = s.pins)
    (hleft : t.left = update s.left (s.buf b).key v)
    (hold : (s.loc p).bufno = none ∨ (s.loc p).bufno = some b)
    (hnew : next.bufno = none ∨ next.bufno = some b) (hkey : x.key = (s.buf b).key ∨
      (s.buf b).refcnt = 0 ∧ v = none ∧ ∀ c, (s.buf c).key ≠ x.key)
    (hothers : ∀ q, q ≠ p → s.lock b = some q → l = some q ∧ x.valid = (s.buf b).valid)
    (hrefcnt : x.refcnt + (if (s.loc p).refers = some b then 1 else 0) + (s.lock b).toList.length =
        (s.buf b).refcnt + (if next.refers = some b then 1 else 0) + l.toList.length)
    (hfetches : next.fetches = some b → l = some p)
    (hwants : ∀ dev blockno, next.wants = some (b, dev, blockno) →
      x.key = (dev, blockno) ∧ dev ≠ 0) (hreads : next.reads = some b → x.valid = false)
    (hopened : t.Open b → x.valid = true ∧ x.dev ≠ 0) (hclosed : x.dev ≠ 0 → ¬ t.Open b →
      t.left x.key = if x.valid then some x.data else none) : Inv t := by
  have hg := h.good b
  have hself : t.buf b = x := by rw [hbuf, update_self]
  have hlself : t.lock b = l := by rw [hlock, update_self]
  have hne : ∀ c, c ≠ b → (s.buf c).dev ≠ 0 → (s.buf c).key ≠ (s.buf b).key :=
    fun c hc hdev heq => hc (h.unique c b hdev heq)
  refine h.of_good hlist (fun c hc => hloc ▸ about_update hold hnew hc)
    (fun c hc => ⟨by rw [hbuf, update_of_ne hc], by rw [hlock, update_of_ne hc], by rw [hpins]⟩)
    (fun c hc hdev => ?_) (fun c hc hdev => by rw [hleft, update_of_ne (hne c hc hdev)])
    (fun k d hk => ?_) (b := b) ⟨?_, ?_, ?_, ?_, hself ▸ hopened, hself ▸ hclosed⟩
  · rw [hself]
    rcases hkey with hkey | ⟨-, -, hmiss⟩
    · exact hkey ▸ (hne c hc hdev).symm
    · exact (hmiss c).symm
  · rw [hleft] at hk
    by_cases hkb : k = (s.buf b).key
    · rw [hkb, update_self] at hk
      rcases hkey with hkey | ⟨-, hv, -⟩
      · exact ⟨b, by rw [hself, hkey, hkb]⟩
      rw [hv] at hk
      cases hk
    rw [update_of_ne hkb] at hk
    obtain ⟨c, hc⟩ := h.cached k d hk
    have hcb : c ≠ b := by
      rintro rfl
      exact hkb hc.symm
    exact ⟨c, by rw [hbuf, update_of_ne hcb, hc]⟩
  · have hcount := refs_of_move hloc b
    have hrefs := hg.refcnt
    rw [hlself, hpins] at hcount
    rw [hself]
    omega
  · rw [hloc, hlself]
    exact loc_cases (C := fun q L => L.fetches = some b → l = some q) hfetches
      fun q hq hf => (hothers q hq (hg.fetches q hf)).1
  · rw [hloc, hself]
    refine loc_cases (C := fun _ L => ∀ dev blockno, L.wants = some (b, dev, blockno) →
      x.key = (dev, blockno) ∧ dev ≠ 0) hwants fun q _ dev blockno hq => ?_
    rcases hkey with hkey | ⟨hfree, -⟩
    · rw [hkey]
      exact hg.wants q dev blockno hq
    obtain ⟨hnolock, hnoref, -⟩ := h.unused_of_refcnt hfree
    rcases refers_or_fetches hq with hr | hf
    · exact absurd hr (hnoref q)
    rw [hg.fetches q hf] at hnolock
    cases hnolock
  · rw [hloc, hself]
    refine loc_cases (C := fun _ L => L.reads = some b → x.valid = false) hreads fun q hq hr => ?_
    have hf : (s.loc q).fetches = some b := by
      cases hL : s.loc q <;> rw [hL] at hr <;> first | exact hr | cases hr
    rw [(hothers q hq (hg.fetches q hf)).2]
    exact hg.reads q hr

/-- `bget` finds the block. -/
theorem bget_hit (hidle : s.loc p = .idle) (hdev : dev ≠ 0) (hb : (s.buf b).key = (dev, blockno)) :
    Inv ((s.setBuf b { s.buf b with refcnt := (s.buf b).refcnt + 1 }).setLoc p
      (.lock b dev blockno)) := by
  have hopen := open_iff (s := s) (t := (s.setBuf b { s.buf b with
    refcnt := (s.buf b).refcnt + 1 }).setLoc p (.lock b dev blockno)) (b := b) rfl rfl
    (by rw [hidle]; nofun) nofun
  refine h.of_turn h.list rfl rfl (update_eq_self ..).symm rfl (update_eq_self ..).symm
    (.inl (by rw [hidle]; rfl)) (.inr rfl) (.inl rfl) (fun _ _ hq => ⟨hq, rfl⟩) ?_ nofun ?_ nofun
    (fun ho => h.opened b (hopen.1 ho)) fun hd hno => h.closed b hd fun ho => hno (hopen.2 ho)
  · simp [hidle, refers, setLoc, setBuf]
  · rintro dev' blockno' ⟨⟩
    exact ⟨hb, hdev⟩

/-- `bread` looks at `b->valid`. -/
theorem check (hloc : s.loc p = .check b dev blockno) :
    Inv (s.setLoc p (if (s.buf b).valid then .idle else .read b dev blockno)) := by
  obtain ⟨hkey, hdev⟩ := h.wants p b dev blockno (by rw [hloc]; rfl)
  have hmine := h.fetches p b (by rw [hloc]; rfl)
  have hdev' : (s.buf b).dev ≠ 0 := by rwa [show (s.buf b).dev = dev from congrArg fst hkey]
  refine h.of_turn (x := s.buf b) (l := s.lock b) h.list rfl (update_eq_self ..).symm
    (update_eq_self ..).symm rfl (update_eq_self ..).symm (.inr (by rw [hloc]; rfl)) ?_ (.inl rfl)
    (fun _ _ hq => ⟨hq, rfl⟩) ?_ (fun _ => hmine) ?_ ?_ ?_
    fun _ _ => h.closed b hdev' (h.not_open (by rw [hloc]; rfl))
  all_goals by_cases hvalid : (s.buf b).valid = true <;> simp only [hvalid, Bool.false_eq_true,
    if_true, if_false]
  · exact .inl rfl
  · exact .inr rfl
  · simp [hloc, refers]
  · simp [hloc, refers]
  · nofun
  · rintro dev' blockno' ⟨⟩
    exact ⟨hkey, hdev⟩
  · nofun
  · exact fun _ => trivial
  · exact fun _ => ⟨trivial, hdev'⟩
  · exact fun ho => absurd ho (not_open_of_fetches hmine (by simp only [setLoc, update_self]; rfl))

/-- The end of `brelse`. -/
theorem relse (hloc : s.loc p = .relse b) : Inv ((s.drop b).setLoc p .idle) := by
  -- the process itself is one of the references
  have hpos : 0 < (s.buf b).refcnt := by
    rw [h.refcnt b, refs]
    have hholds : 0 < holders (fun q => (s.loc q).refers) b :=
      holders_pos.2 ⟨p, by rw [hloc]; rfl⟩
    omega
  obtain ⟨k, hk, hdrop⟩ : ∃ k, Complete k ∧ s.drop b =
      { s.setBuf b { s.buf b with refcnt := (s.buf b).refcnt - 1 } with links := k } := by
    rw [State.drop]
    split
    · exact ⟨_, h.list.touch b, rfl⟩
    · exact ⟨_, h.list, rfl⟩
  rw [hdrop]
  have hopen := open_iff (s := s) (t := State.setLoc { s.setBuf b { s.buf b with
    refcnt := (s.buf b).refcnt - 1 } with links := k } p .idle) (b := b) rfl rfl
    (by rw [hloc]; nofun) nofun
  refine h.of_turn hk rfl rfl (update_eq_self ..).symm rfl (update_eq_self ..).symm
    (.inr (by rw [hloc]; rfl)) (.inl rfl) (.inl rfl) (fun _ _ hq => ⟨hq, rfl⟩) ?_ nofun nofun nofun
    (fun ho => h.opened b (hopen.1 ho)) fun hd hno => h.closed b hd fun ho => hno (hopen.2 ho)
  simp only [hloc, refers, setLoc, setBuf, if_true, reduceCtorEq, if_false]
  omega

/-- `acquiresleep`. -/
theorem acquire (hloc : s.loc p = .lock b dev blockno) (hfree : s.lock b = none)
    (hbuf : t.buf = s.buf) (hlinks : t.links = s.links) (hleft : t.left = s.left)
    (hpins : t.pins = s.pins) (hlock : t.lock = update s.lock b (some p))
    (hmove : t.loc = update s.loc p (.check b dev blockno)) : Inv t := by
  obtain ⟨hkey, hdev⟩ := h.wants p b dev blockno (by rw [hloc]; rfl)
  refine h.of_turn (hlinks ▸ h.list) hmove (hbuf.trans (update_eq_self b _).symm) hlock hpins
    (hleft.trans (update_eq_self ..).symm) (.inr (by rw [hloc]; rfl)) (.inr rfl) (.inl rfl) ?_ ?_
    (fun _ => rfl) ?_ nofun (fun ho => ?_) fun hd _ => ?_
  · simp [hfree]
  · simp [hloc, hfree, refers]
  · rintro dev' blockno' ⟨⟩
    exact ⟨hkey, hdev⟩
  · exact absurd ho (not_open_of_fetches (p := p) (by rw [hlock, update_self])
      (by rw [hmove, update_self]; rfl))
  · rw [hleft]
    exact h.closed b hd (not_open_of_free hfree)

/-- `bread` reads the block. -/
theorem read (hloc : s.loc p = .read b dev blockno) (hbuf : t.buf = update s.buf b x)
    (hx : x.key = (s.buf b).key ∧ x.valid = true ∧ x.refcnt = (s.buf b).refcnt)
    (hlinks : t.links = s.links) (hleft : t.left = s.left) (hpins : t.pins = s.pins)
    (hlock : t.lock = s.lock) (hmove : t.loc = update s.loc p .idle) : Inv t := by
  obtain ⟨hkey, hdev⟩ := h.wants p b dev blockno (by rw [hloc]; rfl)
  have hmine := h.fetches p b (by rw [hloc]; rfl)
  have hdev' : x.dev ≠ 0 := by rwa [show x.dev = dev from congrArg fst (hx.1.trans hkey)]
  refine h.of_turn (hlinks ▸ h.list) hmove hbuf (hlock.trans (update_eq_self b _).symm) hpins
    (hleft.trans (update_eq_self ..).symm) (.inr (by rw [hloc]; rfl)) (.inl rfl) (.inl hx.1)
    (fun q hq hl => ?_) ?_ nofun nofun nofun (fun _ => ⟨hx.2.1, hdev'⟩) fun _ hno => ?_
  · rw [hmine] at hl
    exact absurd (some.inj hl).symm hq
  · simp [hloc, hx.2.2, refers]
  · exact absurd ⟨p, by rwa [hlock], by rw [hmove, update_self]; nofun⟩ hno

/-- `brelse` up to `releasesleep`. -/
theorem release (hidle : s.loc p = .idle) (hmine : s.lock b = some p)
    (hbuf : t.buf = s.buf) (hlinks : t.links = s.links)
    (hleft : t.left = update s.left (s.buf b).key (some (s.buf b).data))
    (hpins : t.pins = s.pins) (hlock : t.lock = update s.lock b none)
    (hmove : t.loc = update s.loc p (.relse b)) : Inv t := by
  obtain ⟨hvalid, -⟩ := h.opened b ⟨p, hmine, by rw [hidle]; nofun⟩
  refine h.of_turn (hlinks ▸ h.list) hmove (hbuf.trans (update_eq_self b _).symm) hlock hpins
    hleft (.inl (by rw [hidle]; rfl)) (.inr rfl) (.inl rfl) (fun q hq hl => ?_) ?_ nofun nofun nofun
    (fun ho => ?_) fun _ _ => ?_
  · rw [hmine] at hl
    exact absurd (some.inj hl).symm hq
  · simp [hidle, hmine, refers]
  · exact absurd ho (not_open_of_free (by rw [hlock, update_self]))
  · rw [hleft, update_self, if_pos hvalid]

/-- `bget` recycles a buffer. -/
theorem recycle (hidle : s.loc p = .idle) (hdev : dev ≠ 0)
    (hmiss : ∀ c, (s.buf c).key ≠ (dev, blockno)) (hfree : (s.buf b).refcnt = 0)
    (hx : x.key = (dev, blockno) ∧ x.valid = false ∧ x.refcnt = 1)
    (hbuf : t.buf = update s.buf b x) (hlinks : t.links = s.links)
    (hleft : t.left = update s.left (s.buf b).key none)
    (hpins : t.pins = s.pins) (hlock : t.lock = s.lock)
    (hmove : t.loc = update s.loc p (.lock b dev blockno)) : Inv t := by
  obtain ⟨hnolock, -, -⟩ := h.unused_of_refcnt hfree
  refine h.of_turn (hlinks ▸ h.list) hmove hbuf (hlock.trans (update_eq_self b _).symm) hpins
    hleft (.inl (by rw [hidle]; rfl)) (.inr rfl) (.inr ⟨hfree, rfl, hx.1 ▸ hmiss⟩)
    (fun q _ hl => ?_) ?_ nofun ?_ nofun (fun ho => ?_) fun _ _ => ?_
  · rw [hnolock] at hl
    cases hl
  · simp [hidle, hfree, hx.2.2, refers]
  · rintro dev' blockno' ⟨⟩
    exact ⟨hx.1, hdev⟩
  · exact absurd ho (not_open_of_free (by rw [hlock]; exact hnolock))
  have hnone : s.left (dev, blockno) = none := by
    by_contra hne
    obtain ⟨d, hd⟩ := ne_none_iff_exists'.1 hne
    obtain ⟨c, hc⟩ := h.cached _ d hd
    exact hmiss c hc
  rw [hleft, hx.1, hx.2.1, update_of_ne (hmiss b).symm, hnone]
  rfl

/-- The holder of a buffer changes its contents. -/
theorem store (hhold : s.Holds p b) (d : D) : Inv (s.setBuf b { s.buf b with data := d }) := by
  have hown : s.Open b := ⟨p, hhold.2, by rw [hhold.1]; nofun⟩
  have hidle : (s.loc p).bufno = none := by rw [hhold.1]; rfl
  exact h.of_turn h.list (update_eq_self p _).symm rfl (update_eq_self ..).symm rfl
    (update_eq_self ..).symm (.inl hidle) (.inl hidle) (.inl rfl)
    (fun _ _ hq => ⟨hq, rfl⟩) rfl (h.fetches p b) (h.wants p b) (h.reads p b) (h.opened b)
    fun _ hno => absurd hown hno

/-- `bpin` and `bunpin`. -/
theorem pin {r k : Nat} (hr : r + s.pins b = (s.buf b).refcnt + k) :
    Inv { s.setBuf b { s.buf b with refcnt := r } with pins := update s.pins b k } := by
  have hsame := buf_cases (C := fun c x => x.key = (s.buf c).key ∧ x.dev = (s.buf c).dev ∧
    x.valid = (s.buf c).valid ∧ x.data = (s.buf c).data) (f := s.buf) (b := b)
    (x := { s.buf b with refcnt := r }) ⟨rfl, rfl, rfl, rfl⟩ fun _ _ => ⟨rfl, rfl, rfl, rfl⟩
  constructor <;> simp only [setBuf, hsame]
  case refcnt =>
    intro c
    have hold := h.refcnt c
    rw [refs] at hold ⊢
    by_cases hcb : c = b
    · subst hcb
      simp only [update_self]
      omega
    · simp only [update_of_ne hcb]
      exact hold
  case list => exact h.list
  case unique => exact h.unique
  case fetches => exact h.fetches
  case wants => exact h.wants
  case reads => exact h.reads
  case opened => exact h.opened
  case closed => exact h.closed
  case cached => exact h.cached

theorem bget (hidle : s.loc p = .idle) (hdev : dev ≠ 0)
    (hstep : s.bget p dev blockno = some t) : Inv t := by
  rw [State.bget] at hstep
  rcases cached_spec h.list dev blockno with ⟨b, hb, hkey⟩ | ⟨hnone, hmiss⟩
  · rw [hb] at hstep
    cases hstep
    exact h.bget_hit hidle hdev hkey
  rw [hnone] at hstep
  rcases unused_spec h.list with ⟨b, hb, hfree⟩ | hnone'
  · rw [hb] at hstep
    cases hstep
    exact h.recycle hidle hdev hmiss hfree ⟨rfl, rfl, rfl⟩ rfl rfl rfl rfl rfl rfl
  · rw [hnone'] at hstep
    cases hstep

theorem resume (hstep : s.resume p = some t) : Inv t := by
  rw [State.resume] at hstep
  cases hloc : s.loc p with
  | idle =>
    rw [hloc] at hstep
    cases hstep
  | lock b dev blockno =>
    rw [hloc] at hstep
    obtain ⟨hfree, rfl⟩ : s.lock b = none ∧ _ = t := by simpa using hstep
    exact h.acquire hloc hfree rfl rfl rfl rfl rfl rfl
  | check b dev blockno =>
    rw [hloc] at hstep
    cases hstep
    exact h.check hloc
  | read b dev blockno =>
    rw [hloc] at hstep
    cases hstep
    exact h.read hloc rfl ⟨rfl, rfl, rfl⟩ rfl rfl rfl rfl rfl
  | relse b =>
    rw [hloc] at hstep
    cases hstep
    exact h.relse hloc

theorem step {l : Label n D} (hstep : Steps s l t) : Inv t := by
  cases l with
  | bread p dev blockno =>
    obtain ⟨⟨hidle, hdev⟩, hget⟩ : (s.loc p = .idle ∧ dev ≠ 0) ∧ s.bget p dev blockno = some t := by
      simpa [Steps, State.step] using hstep
    exact h.bget hidle hdev hget
  | run p => exact h.resume hstep
  | store p b d =>
    obtain ⟨hhold, rfl⟩ : s.Holds p b ∧ _ = t := by simpa [Steps, State.step] using hstep
    exact h.store hhold d
  | bwrite p b =>
    obtain ⟨-, rfl⟩ : s.Holds p b ∧ _ = t := by simpa [Steps, State.step] using hstep
    exact ⟨h.list, h.unique, h.refcnt, h.fetches, h.wants, h.reads, h.opened, h.closed, h.cached⟩
  | brelse p b =>
    obtain ⟨hhold, rfl⟩ : s.Holds p b ∧ _ = t := by simpa [Steps, State.step] using hstep
    exact h.release hhold.1 hhold.2 rfl rfl rfl rfl rfl rfl
  | bpin p b =>
    obtain ⟨-, rfl⟩ : (s.Holds p b ∧ s.pins b + n + 1 < 2 ^ 32) ∧ _ = t := by
      simpa [Steps, State.step] using hstep
    exact h.pin (by omega)
  | bunpin p b =>
    obtain ⟨⟨-, hpins⟩, rfl⟩ : (s.loc p = .idle ∧ 0 < s.pins b) ∧ _ = t := by
      simpa [Steps, State.step] using hstep
    have hrefs := h.refcnt b
    rw [refs] at hrefs
    exact h.pin (by omega)

end

theorem boot (n : Nat) (k : Links Node) (disk : UInt32 → D) (zeroes : D) :
    Inv (boot n k disk zeroes) := by
  constructor
  case list => exact .binit k
  case unique => exact fun b c hb => absurd rfl hb
  case refcnt =>
    intro b
    have hzero : holders (fun _ : Fin n => idle.refers) b = 0 := holders_eq_zero.2 nofun
    simpa [State.refs, State.boot] using hzero.symm
  case fetches => exact nofun
  case wants => exact nofun
  case reads => exact nofun
  case opened => exact fun b hb => absurd hb (not_open_of_free rfl)
  case closed => exact fun b hb => absurd rfl hb
  case cached => exact nofun

theorem of_run {k : Links Node} {disk : UInt32 → D} {zeroes : D} {ls : List (Label n D)}
    (hrun : Run Steps (State.boot n k disk zeroes) ls s) : Inv s :=
  hrun.inv (.boot n k disk zeroes) fun _ _ _ h hstep => h.step hstep

end Inv

/-! ## Coherence -/

/-- In the step from `s` to `t` the call `bread(dev, blockno)` of `p` returns
buffer `b`. -/
def Returns (s t : State n D) (p : Fin n) (dev blockno : UInt32) (b : Bufno) : Prop :=
  (s.loc p = .check b dev blockno ∨ s.loc p = .read b dev blockno) ∧ t.loc p = .idle

/-- `bread` returns, locked, what the last user of the block's buffer left in
it, and the contents of the disk if there is no such buffer any more. -/
theorem Inv.returned (h : Inv s) (hstep : s.step (.run p) = some t)
    (hret : Returns s t p dev blockno b) : (t.buf b).key = (dev, blockno) ∧ t.lock b = some p ∧
      (t.buf b).data = (s.left (dev, blockno)).getD (s.disk (sector blockno)) := by
  obtain ⟨hloc, hidle⟩ := hret
  have hwants : (s.buf b).key = (dev, blockno) ∧ dev ≠ 0 :=
    h.wants p b dev blockno (by rcases hloc with hl | hl <;> rw [hl] <;> rfl)
  have hfetch : (s.loc p).fetches = some b := by rcases hloc with hl | hl <;> rw [hl] <;> rfl
  have hdev : (s.buf b).dev ≠ 0 := by
    rw [show (s.buf b).dev = dev from congrArg fst hwants.1]
    exact hwants.2
  have hleft := h.closed b hdev (h.not_open hfetch)
  rw [hwants.1] at hleft
  have hlock := h.fetches p b hfetch
  rw [State.step, State.resume] at hstep
  rcases hloc with hl | hl <;> rw [hl] at hstep <;> cases hstep
  · have hvalid : (s.buf b).valid = true := by
      by_contra hv
      simp [setLoc, hv] at hidle
    rw [if_pos hvalid] at hleft
    rw [hleft]
    exact ⟨hwants.1, hlock, rfl⟩
  have hvalid := h.reads p b (by rw [hl]; rfl)
  rw [hleft, hvalid]
  refine ⟨?_, hlock, ?_⟩
  · simpa [setLoc, setBuf, Buf.key] using hwants.1
  · have hblock : (s.buf b).blockno = blockno := congrArg snd hwants.1
    simp [setLoc, setBuf, hblock]

/-- A step changes the block of a buffer only if nobody uses the buffer. -/
theorem Inv.recycled (h : Inv s) {l : Label n D} (hstep : Steps s l t) (b : Bufno)
    (hb : 0 < (s.buf b).refcnt) :
    (t.buf b).key = (s.buf b).key ∧ ((s.buf b).valid = true → (t.buf b).valid = true) := by
  have hset : ∀ (c : Bufno) (x : Buf D), x.key = (s.buf c).key →
      ((s.buf c).valid = true → x.valid = true) →
      (update s.buf c x b).key = (s.buf b).key ∧
        ((s.buf b).valid = true → (update s.buf c x b).valid = true) :=
    fun c x hkey hvalid => buf_cases (C := fun c y => y.key = (s.buf c).key ∧
      ((s.buf c).valid = true → y.valid = true)) ⟨hkey, hvalid⟩ (fun _ _ => ⟨rfl, id⟩) b
  cases l with
  | bread p dev blockno =>
    obtain ⟨-, hget⟩ : (s.loc p = .idle ∧ dev ≠ 0) ∧ s.bget p dev blockno = some t := by
      simpa [Steps, State.step] using hstep
    rw [State.bget] at hget
    split at hget
    · cases hget
      exact hset _ _ rfl id
    rcases unused_spec h.list with ⟨c, hc, hfree⟩ | hnone
    · rw [hc] at hget
      cases hget
      have hbc : b ≠ c := by
        rintro rfl
        omega
      have hsame : ∀ x, update s.buf c x b = s.buf b := fun x =>
        update_of_ne hbc _ _
      simp [setLoc, setBuf, hsame]
    · rw [hnone] at hget
      cases hget
  | run p =>
    rw [Steps, State.step, State.resume] at hstep
    split at hstep
    · cases hstep
    · obtain ⟨-, rfl⟩ : _ ∧ _ = t := by simpa using hstep
      exact ⟨rfl, id⟩
    · cases hstep
      exact ⟨rfl, id⟩
    · cases hstep
      exact hset _ _ rfl fun _ => rfl
    cases hstep
    rename_i c _
    have hdrop : (s.drop c).buf =
        update s.buf c { s.buf c with refcnt := (s.buf c).refcnt - 1 } := by
      simp only [State.drop]
      split <;> rfl
    simp only [setLoc, hdrop]
    exact hset _ _ rfl id
  | store p c d =>
    obtain ⟨-, rfl⟩ : s.Holds p c ∧ _ = t := by simpa [Steps, State.step] using hstep
    exact hset _ _ rfl id
  | bwrite p c | brelse p c =>
    obtain ⟨-, rfl⟩ : s.Holds p c ∧ _ = t := by simpa [Steps, State.step] using hstep
    exact ⟨rfl, id⟩
  | bpin p c =>
    obtain ⟨-, rfl⟩ : (s.Holds p c ∧ s.pins c + n + 1 < 2 ^ 32) ∧ _ = t := by
      simpa [Steps, State.step] using hstep
    exact hset _ _ rfl id
  | bunpin p c =>
    obtain ⟨-, rfl⟩ : (s.loc p = .idle ∧ 0 < s.pins c) ∧ _ = t := by
      simpa [Steps, State.step] using hstep
    exact hset _ _ rfl id

/-- For any number of processes and any interleaving of their calls: at most
one buffer is for a block of a real device, the list holds every buffer once,
`refcnt` counts the users of a buffer and a buffer with users is not recycled,
and `bread` returns what the last user left in the block's buffer if that was
not recycled since, and the contents of the disk otherwise. -/
theorem buffer_cache_coherent {k : Links Node} {disk : UInt32 → D} {zeroes : D}
    {ls : List (Label n D)} (hrun : Run Steps (State.boot n k disk zeroes) ls s) :
    (∀ b c, (s.buf b).dev ≠ 0 → (s.buf b).key = (s.buf c).key → b = c) ∧ Complete s.links ∧
      (∀ b, (s.buf b).refcnt = s.refs b) ∧
      (∀ l t b, Steps s l t → 0 < (s.buf b).refcnt →
        (t.buf b).key = (s.buf b).key ∧ ((s.buf b).valid = true → (t.buf b).valid = true)) ∧
      ∀ p t dev blockno b, Steps s (.run p) t → Returns s t p dev blockno b →
        (t.buf b).key = (dev, blockno) ∧ t.lock b = some p ∧
          (t.buf b).data = (s.left (dev, blockno)).getD (s.disk (sector blockno)) := by
  have h := Inv.of_run hrun
  exact ⟨h.unique, h.list, h.refcnt, fun l t b hstep => h.recycled hstep b,
    fun p t dev blockno b hstep hret => h.returned hstep hret⟩

/-- A block is read, changed and released, and read again. -/
def rereads : List (Label 1 Nat) :=
  [.bread 0 1 5, .run 0, .run 0, .run 0, .store 0 0 7, .brelse 0 0, .run 0, .bread 0 1 5, .run 0]

/-- A cache whose pointers are set by `binit`, and a disk full of zeroes. -/
def fresh : State 1 Nat := .boot 1 ⟨fun _ => .head, fun _ => .head⟩ (fun _ => 0) 0

/-- The second `bread` returns what the first user left, although the disk
still holds 0. -/
theorem buffer_cache_coherent_rereads : ∃ s t : State 1 Nat, Run Steps fresh rereads s ∧
      Steps s (.run 0) t ∧ s.disk (sector 5) = 0 ∧ (t.buf 0).key = (1, 5) ∧
      t.lock 0 = some 0 ∧ (t.buf 0).data = 7 := by
  generalize hs : after State.step fresh rereads = s
  have hrun : Run Steps fresh rereads s := by
    rw [← hs]
    exact .of_after (by decide +kernel)
  have hstep : Steps s (.run 0) (after State.step s [.run 0]) := by
    rw [← hs]
    exact step_after (by decide +kernel)
  have hret : Returns s (after State.step s [.run 0]) 0 1 5 0 := by
    rw [← hs]
    exact ⟨.inl (by decide +kernel), by decide +kernel⟩
  obtain ⟨hkey, hlock, hdata⟩ :=
    (buffer_cache_coherent hrun).2.2.2.2 0 _ 1 5 0 hstep hret
  have hleft : s.left (1, 5) = some 7 := by
    rw [← hs]
    decide +kernel
  have hdisk : s.disk (sector 5) = 0 := by
    rw [← hs]
    decide +kernel
  rw [hleft] at hdata
  exact ⟨s, _, hrun, hstep, hdisk, hkey, hlock, hdata⟩

end Xv6.Bio
