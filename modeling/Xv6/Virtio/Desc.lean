import Xv6.Virtio.Model
import Xv6.Lib.Counter
import Xv6.Lib.Shares

/-!
# What the driver does with descriptors

`alloc3_desc` takes three free descriptors or leaves the marks as they were.
`free_chain` follows the chain that `virtio_disk_rw` has written and frees its
three descriptors.  The device follows the same chain to the status byte.
-/

namespace Xv6.Virtio

open Function Lib List

variable {d d' : Disk} {r : Request} {c : Chain} {i : Descno}

/-! ## Indices and numbers -/

theorem num_toNat (i : Descno) : (num i).toNat = i.val := by
  have hsize : NUM ≤ UInt16.size := by decide
  rw [num, UInt16.toNat_ofNat_of_lt' (Nat.lt_of_lt_of_le i.isLt hsize)]

theorem num_toUInt32_toNat (i : Descno) : (num i).toUInt32.toNat = i.val := by
  rw [UInt16.toNat_toUInt32, num_toNat]

theorem num_injective : Function.Injective num := by
  intro i j h
  have hval := congrArg UInt16.toNat h
  rw [num_toNat, num_toNat] at hval
  exact Fin.ext hval

theorem iterate_succ_toNat (c : UInt16) (n : Nat) :
    ((· + 1)^[n] c).toNat = (c.toNat + n) % 2 ^ 16 := by
  induction n generalizing c with
  | zero => exact (Nat.mod_eq_of_lt c.toNat_lt).symm
  | succ n ih =>
    rw [Function.iterate_succ_apply, ih, UInt16.toNat_add]
    simp only [UInt16.toNat_one]
    omega

/-- The 16-bit indices of the two rings. -/
def counter : Counter UInt16 NUM where
  slot := slot
  next := (· + 1)
  slot_next c := by
    show (c + 1).toNat % 8 = (c.toNat % 8 + 1) % 8
    rw [UInt16.toNat_add, UInt16.toNat_one]
    omega
  period c n hpos hle := by
    intro heq
    have hval := congrArg UInt16.toNat heq
    have hlt := c.toNat_lt
    have hnum : NUM = 8 := rfl
    rw [iterate_succ_toNat] at hval
    omega

/-! ## Allocation -/

/-- The descriptors of a chain. -/
def Chain.toList (c : Chain) : List Descno := [c.head, c.middle, c.last]

theorem Chain.head_mem (c : Chain) : c.head ∈ c.toList := List.mem_cons_self

theorem allocDesc_eq_some {d' : Disk} (h : d.allocDesc = some (i, d')) :
    d.free i = true ∧ d' = { d with free := update d.free i false } := by
  rw [Disk.allocDesc, Option.map_eq_some_iff] at h
  obtain ⟨j, hj, heq⟩ := h
  cases heq
  exact ⟨List.find?_some hj, rfl⟩

theorem freeDesc_ok (h : d.free i = false) : d.freeDesc i.val = .ok { d with
      desc := update d.desc i ⟨.null, 0, 0, 0⟩
      free := update d.free i true } := by
  rw [Disk.freeDesc, dif_pos i.isLt]
  simp only [Fin.eta, h, Bool.false_eq_true, if_false]

/-- The rings and `disk.info` are the same. -/
structure SameRings (d d' : Disk) : Prop where
  avail : d'.avail = d.avail
  used : d'.used = d.used
  usedIdx : d'.usedIdx = d.usedIdx
  info : d'.info = d.info

theorem SameRings.refl (d : Disk) : SameRings d d := ⟨rfl, rfl, rfl, rfl⟩

/-- Some free descriptors are allocated. -/
structure Took (d : Disk) (l : List Descno) (d' : Disk) : Prop where
  nodup : l.Nodup
  free : ∀ i ∈ l, d.free i = true
  marks : d'.free = mark d.free l false
  desc : ∀ i, d.free i = false → d'.desc i = d.desc i
  rings : SameRings d d'

theorem Took.refl (d : Disk) : Took d [] d :=
  ⟨nodup_nil, fun _ h => (nomatch h), rfl, fun _ _ => rfl, SameRings.refl d⟩

variable {l : List Descno}

theorem Took.alloc {d'' : Disk} (h : Took d l d')
    (halloc : d'.allocDesc = some (i, d'')) : Took d (l ++ [i]) d'' := by
  obtain ⟨hfree, rfl⟩ := allocDesc_eq_some halloc
  rw [h.marks, mark] at hfree
  have hi : i ∉ l := by
    intro hi
    rw [if_pos hi] at hfree
    cases hfree
  rw [if_neg hi] at hfree
  refine ⟨?_, ?_, ?_, h.desc, h.rings.avail, h.rings.used, h.rings.usedIdx, h.rings.info⟩
  · refine nodup_append.2 ⟨h.nodup, nodup_singleton i, ?_⟩
    intro j hj j' hj' heq
    rw [heq, mem_singleton.1 hj'] at hj
    exact hi hj
  · intro j hj
    rcases mem_append.1 hj with hj | hj
    · exact h.free j hj
    · rwa [mem_singleton.1 hj]
  · show update d'.free i false = _
    rw [h.marks, mark_concat]

/-- A descriptor that was just allocated is freed again. -/
theorem Took.undo (h : Took d l d') (hi : i ∈ l) :
    ∃ d'', d'.freeDesc i.val = .ok d'' ∧ Took d (l.erase i) d'' := by
  have hused : d'.free i = false := by rw [h.marks, mark, if_pos hi]
  refine ⟨_, freeDesc_ok hused, h.nodup.erase i, ?_, ?_, ?_, h.rings.avail, h.rings.used,
    h.rings.usedIdx, h.rings.info⟩
  · exact fun j hj => h.free j (mem_of_mem_erase hj)
  · show update d'.free i true = _
    rw [h.marks, mark_erase h.nodup (h.free i hi)]
  intro j hj
  have hne : j ≠ i := by
    intro heq
    rw [heq, h.free i hi] at hj
    cases hj
  show update d'.desc i _ j = d.desc j
  rw [update_of_ne hne, h.desc j hj]

/-- `alloc3_desc` takes three free descriptors or none, and never panics. -/
theorem alloc3Desc_cases (d : Disk) :
    (∃ c d', d.alloc3Desc = .ok (some c, d') ∧ Took d c.toList d') ∨
      ∃ d', d.alloc3Desc = .ok (none, d') ∧ Took d [] d' := by
  unfold Disk.alloc3Desc
  cases h0 : d.allocDesc with
  | none => exact .inr ⟨d, rfl, Took.refl d⟩
  | some x0 =>
    obtain ⟨i0, d0⟩ := x0
    have ht0 := (Took.refl d).alloc h0
    dsimp only
    cases h1 : d0.allocDesc with
    | none =>
      obtain ⟨d', hd', htook⟩ := ht0.undo (i := i0) (by simp)
      rw [hd']
      exact .inr ⟨d', rfl, by simpa using htook⟩
    | some x1 =>
      obtain ⟨i1, d1⟩ := x1
      have ht1 := ht0.alloc h1
      dsimp only
      cases h2 : d1.allocDesc with
      | none =>
        obtain ⟨d', hd', htook⟩ := ht1.undo (i := i0) (by simp)
        have hrest : ([] ++ [i0] ++ [i1]).erase i0 = [i1] := by simp
        rw [hrest] at htook
        obtain ⟨d'', hd'', htook'⟩ := htook.undo (i := i1) (by simp)
        dsimp only
        rw [hd']
        dsimp only [bind, Except.bind]
        rw [hd'']
        exact Or.inr ⟨d'', rfl, by simpa using htook'⟩
      | some x2 =>
        obtain ⟨i2, d2⟩ := x2
        exact Or.inl ⟨⟨i0, i1, i2⟩, d2, rfl, ht1.alloc h2⟩

/-! ## Chains -/

/-- The descriptors of a request are as `virtio_disk_rw` writes them. -/
structure Linked (d : Disk) (r : Request) (c : Chain) : Prop where
  head : d.desc c.head = Request.desc₀ c
  middle : d.desc c.middle = r.desc₁ c
  last : d.desc c.last = Request.desc₂ c
  info : (d.info c.head).b = some r.b

theorem Chain.nodup_iff (c : Chain) :
    c.toList.Nodup ↔ c.head ≠ c.middle ∧ c.head ≠ c.last ∧ c.middle ≠ c.last := by
  simp [Chain.toList, and_assoc]

theorem format_linked (d : Disk) (r : Request) (h : c.toList.Nodup) :
    Linked (d.format r c) r c := by
  obtain ⟨hhm, hhl, hml⟩ := c.nodup_iff.1 h
  constructor
  · show update _ c.last _ c.head = _
    rw [update_of_ne hhl, update_of_ne hhm, update_self]
  · show update _ c.last _ c.middle = _
    rw [update_of_ne hml, update_self]
  · show update _ c.last _ c.last = _
    rw [update_self]
  · show (update d.info c.head _ c.head).b = _
    rw [update_self]

/-- The other descriptors stay as they are. -/
theorem format_desc_of_notMem (d : Disk) (r : Request) (h : i ∉ c.toList) :
    (d.format r c).desc i = d.desc i := by
  simp only [Chain.toList, mem_cons, not_mem_nil, or_false, not_or] at h
  show update _ c.last _ i = _
  rw [update_of_ne h.2.2, update_of_ne h.2.1, update_of_ne h.1]

theorem desc₀_flags (c : Chain) : (Request.desc₀ c).flags &&& VRING_DESC_F_NEXT ≠ 0 := by
  show VRING_DESC_F_NEXT &&& VRING_DESC_F_NEXT ≠ 0
  decide

theorem desc₂_flags (c : Chain) : (Request.desc₂ c).flags &&& VRING_DESC_F_NEXT = 0 := by
  show VRING_DESC_F_WRITE &&& VRING_DESC_F_NEXT = 0
  decide

theorem desc₁_flags (r : Request) (c : Chain) : (r.desc₁ c).flags &&& VRING_DESC_F_NEXT ≠ 0 := by
  show ((if r.write then 0 else VRING_DESC_F_WRITE) ||| VRING_DESC_F_NEXT) &&& VRING_DESC_F_NEXT ≠ 0
  cases r.write <;> decide

/-- Some descriptors are freed. -/
structure Gave (d : Disk) (l : List Descno) (d' : Disk) : Prop where
  marks : d'.free = mark d.free l true
  desc : ∀ i, i ∉ l → d'.desc i = d.desc i
  rings : SameRings d d'

theorem Gave.refl (d : Disk) : Gave d [] d := ⟨rfl, fun _ _ => rfl, SameRings.refl d⟩

theorem Gave.freeDesc (h : Gave d l d') (hi : i ∉ l) (hused : d.free i = false) :
    ∃ d'', d'.freeDesc i.val = .ok d'' ∧ Gave d (l ++ [i]) d'' := by
  have hused' : d'.free i = false := by rw [h.marks, mark, if_neg hi, hused]
  refine ⟨_, freeDesc_ok hused', ?_, ?_, h.rings.avail, h.rings.used, h.rings.usedIdx, h.rings.info⟩
  · show update d'.free i true = _
    rw [h.marks, mark_concat]
  intro j hj
  simp only [mem_append, mem_singleton, not_or] at hj
  show update d'.desc i _ j = d.desc j
  rw [update_of_ne hj.2, h.desc j hj.1]

theorem freeChainFrom_next (n : Nat) (hd : d.freeDesc i.val = .ok d')
    (hflags : (d.desc i).flags &&& VRING_DESC_F_NEXT ≠ 0) :
    Disk.freeChainFrom (n + 1) i.val d = Disk.freeChainFrom n (d.desc i).next.toNat d' := by
  rw [Disk.freeChainFrom, dif_pos i.isLt, hd]
  exact if_pos hflags

theorem freeChainFrom_last (n : Nat) (hd : d.freeDesc i.val = .ok d')
    (hflags : (d.desc i).flags &&& VRING_DESC_F_NEXT = 0) :
    Disk.freeChainFrom (n + 1) i.val d = .ok d' := by
  rw [Disk.freeChainFrom, dif_pos i.isLt, hd]
  exact if_neg (not_not.2 hflags)

/-- `free_chain` frees the three descriptors of a request. -/
theorem freeChain_gave (hhead : d.desc c.head = Request.desc₀ c)
    (hmiddle : d.desc c.middle = r.desc₁ c) (hlast : d.desc c.last = Request.desc₂ c)
    (hc : c.toList.Nodup) (hused : ∀ i ∈ c.toList, d.free i = false) :
    ∃ d', d.freeChain c.head = .ok d' ∧ Gave d c.toList d' := by
  obtain ⟨hhm, hhl, hml⟩ := c.nodup_iff.1 hc
  obtain ⟨d1, hd1, hg1⟩ := (Gave.refl d).freeDesc (i := c.head) (by simp)
    (hused _ (by simp [Chain.toList]))
  obtain ⟨d2, hd2, hg2⟩ := hg1.freeDesc (i := c.middle) (by simpa using hhm.symm)
    (hused _ (by simp [Chain.toList]))
  obtain ⟨d3, hd3, hg3⟩ := hg2.freeDesc (i := c.last)
    (by simpa using ⟨hhl.symm, hml.symm⟩) (hused _ (by simp [Chain.toList]))
  -- each descriptor is read before the round that frees it
  rw [← hg1.desc _ (by simpa using hhm.symm)] at hmiddle
  rw [← hg2.desc _ (by simpa using ⟨hhl.symm, hml.symm⟩)] at hlast
  refine ⟨d3, ?_, hg3⟩
  show Disk.freeChainFrom 8 c.head d = _
  rw [freeChainFrom_next 7 hd1 (by rw [hhead]; exact desc₀_flags c), hhead]
  show Disk.freeChainFrom 7 (num c.middle).toNat d1 = _
  rw [num_toNat, freeChainFrom_next 6 hd2 (by rw [hmiddle]; exact desc₁_flags r c), hmiddle]
  show Disk.freeChainFrom 6 (num c.last).toNat d2 = _
  rw [num_toNat, freeChainFrom_last 5 hd3 (by rw [hlast]; exact desc₂_flags c)]

theorem lastDesc_num (d : Disk) (n : Nat) (i : Descno) : d.lastDesc (n + 1) (num i) =
      if (d.desc i).flags &&& VRING_DESC_F_NEXT ≠ 0 then d.lastDesc n (d.desc i).next
      else some (d.desc i) := by
  have hi : (⟨(num i).toNat, by rw [num_toNat]; exact i.isLt⟩ : Descno) = i :=
    Fin.ext (num_toNat i)
  rw [Disk.lastDesc, dif_pos (by rw [num_toNat]; exact i.isLt)]
  simp only [hi]

/-- The device finds the last descriptor of a request. -/
theorem lastDesc_linked (h : Linked d r c) :
    d.lastDesc NUM (num c.head) = some (Request.desc₂ c) := by
  show d.lastDesc 8 (num c.head) = _
  rw [lastDesc_num, h.head, if_pos (desc₀_flags c)]
  show d.lastDesc 7 (num c.middle) = _
  rw [lastDesc_num, h.middle, if_pos (desc₁_flags r c)]
  show d.lastDesc 6 (num c.last) = _
  rw [lastDesc_num, h.last, if_neg (not_not.2 (desc₂_flags c))]

/-- The device stores the status of the request that it completes. -/
theorem storeStatus_linked (h : Linked d r c) : d.storeStatus (num c.head) =
      { d with info := update d.info c.head { d.info c.head with status := 0 } } := by
  rw [Disk.storeStatus, lastDesc_linked h]
  rfl

end Xv6.Virtio
