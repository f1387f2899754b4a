import Xv6.Fs.Accounts

/-!
# What the block layer does

Specifications of `balloc`, `bfree`, `iupdate` and `bmap` for a program that
runs alone.  The panic of `bfree` on a free block is the one that must not
happen.  Each specification gives the events too, since a later bound on
the size of a transaction counts them.
-/

namespace Xv6

open Function Lib List

namespace Fs

/-- The panic of `bfree`. -/
def DoubleFree (e : Panic) : Prop := e = .freeingFreeBlock

/-- The kernel after changes to blocks and to the inode in the table entry
`ip`. -/
def Kernel.put (s : Kernel) (ip : Nat) (c : Nat → Block) (d : Dinode) : Kernel :=
  { s with
    cache := c
    itable := update s.itable ip { s.itable ip with toDinode := d } }

namespace Kernel

variable (s : Kernel) (ip : Nat) (c c' : Nat → Block) (d d' : Dinode)

@[simp] theorem put_sb : (s.put ip c d).sb = s.sb := rfl

@[simp] theorem put_cache : (s.put ip c d).cache = c := rfl

@[simp] theorem put_itable_self :
    (s.put ip c d).itable ip = { s.itable ip with toDinode := d } := by
  simp [put]

@[simp] theorem put_put : (s.put ip c d).put ip c' d' = s.put ip c' d' := by simp [put]

theorem put_self (h : (s.itable ip).toDinode = d) : s.put ip s.cache d = s := by
  subst h
  simp [put]

end Kernel

variable {I : List Event → Prop} {s : Kernel} {f : Nat → Dinode} {i ip : Nat}

/-! ## The allocator -/

/-- One group of bits: the first free block of the group, or none. -/
theorem ballocIn_spec {b m : Nat} (hm : b = BPB * m)
    (hres : ∀ b, b < s.sb.nmeta → used s.sb s.cache b = true) :
    Spec I DoubleFree (ballocIn b) s fun r s' u => (r = none ∧ s' = s ∧ u = []) ∨
      ∃ blk, r = some blk ∧ s.sb.IsData blk ∧ used s.sb s.cache blk ≠ true ∧
        s' = s.setBlock (s.sb.BBLOCK blk) ((s.cache (s.sb.BBLOCK blk)).markBit (blk % BPB)) ∧
        u = [.logWrite (s.sb.BBLOCK blk)] := by
  apply Spec.act
  dsimp only
  cases hfind : (range (min BPB (s.sb.size - b))).find? fun bi =>
      !(s.cache (s.sb.BBLOCK b)).bit bi with
  | none => exact .inl ⟨rfl, rfl, rfl⟩
  | some bi =>
    have hbit := List.find?_some hfind
    have hmem := mem_range.1 (mem_of_find?_eq_some hfind)
    have hpos : 0 < BPB := by decide
    have hbi : bi < BPB := by omega
    have hmod : (b + bi) % BPB = bi := by rw [hm, Nat.mul_add_mod, Nat.mod_eq_of_lt hbi]
    have hblock : s.sb.BBLOCK (b + bi) = s.sb.BBLOCK b := by
      unfold Superblock.BBLOCK
      rw [hm, Nat.mul_add_div hpos, Nat.div_eq_of_lt hbi, Nat.mul_div_cancel_left _ hpos,
        Nat.add_zero]
    have hfree : used s.sb s.cache (b + bi) ≠ true := by
      rw [used, hblock, hmod]
      simpa using hbit
    have hdata : s.sb.IsData (b + bi) := by
      refine ⟨?_, by omega⟩
      by_contra hlt
      exact hfree (hres _ (by omega))
    refine .inr ⟨b + bi, rfl, hdata, hfree, ?_, ?_⟩
    · rw [hblock, hmod]
    · rw [hblock]
      rfl

/-- `balloc` returns a cleared block that was free, or 0. -/
theorem balloc_spec (hres : ∀ b, b < s.sb.nmeta → used s.sb s.cache b = true) :
    Spec I DoubleFree balloc s fun b s' u => (b = 0 ∧ s' = s ∧ u = []) ∨
      s.sb.IsData b ∧ used s.sb s.cache b ≠ true ∧
        s' = { s with cache := allocBlock s.sb s.cache b } ∧
        u = [.logWrite (s.sb.BBLOCK b), .logWrite b] := by
  have hfrom : ∀ n b m (I : List Event → Prop), b = BPB * m →
      Spec I DoubleFree (ballocFrom b n) s fun b s' u =>
      (b = 0 ∧ s' = s ∧ u = []) ∨
      s.sb.IsData b ∧ used s.sb s.cache b ≠ true ∧
        s' = { s with cache := allocBlock s.sb s.cache b } ∧
        u = [.logWrite (s.sb.BBLOCK b), .logWrite b] := by
    intro n
    induction n with
    | zero =>
      intro b m I _
      exact .pure (.inl ⟨rfl, rfl, rfl⟩)
    | succ n ih =>
      intro b m I hm
      refine (ballocIn_spec hm hres).bind ?_
      rintro r s' u (⟨rfl, rfl, rfl⟩ | ⟨blk, rfl, hdata, hfree, rfl, rfl⟩)
      · exact ih _ (m + 1) _ (by rw [hm, Nat.mul_succ])
      refine .bind (P := fun _ s'' u => s'' = { s with
          cache := allocBlock s.sb s.cache blk } ∧ u = [.logWrite blk])
        (Spec.act ⟨rfl, rfl⟩) ?_
      rintro _ s'' u ⟨rfl, rfl⟩
      exact .pure (.inr ⟨hdata, hfree, rfl, rfl⟩)
  refine .read_bind rfl ?_
  exact hfrom _ 0 0 _ rfl

/-! ## `bmap` -/

/-- Slot `k` of inode `i` has been looked up, and filled if it was empty and
there was a block: the result is `b`, and `c'` and `f'` are the new blocks
and inodes.  `tail` are the events after those of `balloc`. -/
structure Filled (s : Kernel) (f : Nat → Dinode) (ip i : Nat) (k : Slot) (tail : List Event)
    (b : Nat) (s' : Kernel) (u : List Event) (c' : Nat → Block) (f' : Nat → Dinode) : Prop where
  state : s' = s.put ip c' (f' i)
  grows : Grows s.sb i s.cache f c' f'
  bytes : ∀ x, byteAt c' (f' i) x = byteAt s.cache (f i) x
  block : slotAt c' (f' i) k = b
  others : ∀ k', k' ≠ k → slotAt c' (f' i) k' = slotAt s.cache (f i) k'
  events : slotAt s.cache (f i) k ≠ 0 ∧ u = [] ∨ slotAt s.cache (f i) k = 0 ∧ b = 0 ∧ u = [.hole] ∨
    slotAt s.cache (f i) k = 0 ∧ s.sb.IsData b ∧
      u = .hole :: .logWrite (s.sb.BBLOCK b) :: .logWrite b :: tail
  same : b = 0 ∨ slotAt s.cache (f i) k ≠ 0 → c' = s.cache ∧ f' = f

/-- Nothing was filled. -/
theorem Filled.refl (k : Slot) (tail : List Event) {u : List Event}
    (h : Accounts s.sb s.cache f) (hip : (s.itable ip).toDinode = f i)
    (hu : slotAt s.cache (f i) k ≠ 0 ∧ u = [] ∨ slotAt s.cache (f i) k = 0 ∧ u = [.hole]) :
    Filled s f ip i k tail (slotAt s.cache (f i) k) s u s.cache f where
  state := (s.put_self ip _ hip).symm
  grows := Grows.refl h
  bytes _ := rfl
  block := rfl
  others _ _ := rfl
  events := by
    rcases hu with hu | ⟨h0, hu⟩
    · exact .inl hu
    · exact .inr (.inl ⟨h0, h0, hu⟩)
  same _ := ⟨rfl, rfl⟩

/-- Reading a slot, which is an event when it is empty. -/
theorem readSlot_spec (g : Kernel → UInt32) : Spec I DoubleFree
      (Prog.act fun s => .done (g s).toNat s (if g s = 0 then some .hole else none)) s
      fun addr s' u => addr = (g s).toNat ∧ s' = s ∧ u = if addr = 0 then [.hole] else [] := by
  refine Spec.act ⟨rfl, rfl, ?_⟩
  by_cases h0 : g s = 0
  · simp [h0]
  have hne : (g s).toNat ≠ 0 := fun hn => h0 (UInt32.toNat_inj.1 hn)
  simp [h0, hne]

section

variable (h : Accounts s.sb s.cache f) (hi : i < s.sb.ninodes) (ht : (f i).type ≠ 0)
  (hip : (s.itable ip).toDinode = f i)

include h hi ht hip

theorem bmapAddr_spec (j : Fin (NDIRECT + 1)) : Spec I DoubleFree (bmapAddr ip j) s fun b s' u =>
      ∃ c' f', Filled s f ip i (.addr j) [] b s' u c' f' := by
  have haddr : slotAt s.cache (f i) (.addr j) = ((s.itable ip).addrs j).toNat := by
    rw [slotAt, ← hip]
  refine (readSlot_spec fun s => (s.itable ip).addrs j).bind ?_
  rintro addr s' u ⟨rfl, rfl, rfl⟩
  rw [← haddr]
  by_cases h0 : slotAt s'.cache (f i) (.addr j) = 0
  · rw [if_pos h0, if_pos h0]
    refine (balloc_spec h.reserved).bind ?_
    rintro b s1 u (⟨rfl, rfl, rfl⟩ | ⟨hdata, hfree, rfl, rfl⟩)
    · rw [if_pos rfl]
      refine .pure ⟨s1.cache, f, ?_⟩
      have hsame := Filled.refl (.addr j) [] h hip (.inr ⟨h0, rfl⟩)
      rwa [h0] at hsame
    rw [if_neg hdata.ne_zero]
    have hempty : (f i).addrs j = 0 := UInt32.toNat_inj.1 h0
    obtain ⟨hgrows, hbytes, hnew, hold⟩ := h.giveAddr hi ht hempty hdata hfree rfl
    refine .modify_bind (t := s'.put ip (allocBlock s'.sb s'.cache b)
      ((f i).setAddr j (UInt32.ofNat b))) ?_ ?_
    · rw [← hip]
      rfl
    refine .pure ⟨_, _, ⟨?_, hgrows, hbytes, hnew, hold, ?_, ?_⟩⟩
    · rw [update_self]
    · exact .inr (.inr ⟨h0, hdata, rfl⟩)
    rintro (hb | hne)
    · exact absurd hb hdata.ne_zero
    · exact absurd h0 hne
  · rw [if_neg h0, if_neg h0]
    exact .pure ⟨s'.cache, f, Filled.refl _ _ h hip (Or.inl ⟨h0, rfl⟩)⟩

theorem bmapEntry_spec {ind : Nat}
    (hind : slotAt s.cache (f i) .indirect = ind) (hind0 : ind ≠ 0) (e : Fin NINDIRECT) :
    Spec I DoubleFree (bmapEntry ind e) s fun b s' u =>
      ∃ c' f', Filled s f ip i (.entry e) [.logWrite ind] b s' u c' f' := by
  have hentry := slotAt_entry hind hind0 e
  refine (readSlot_spec fun s => getEntry (s.cache ind) e).bind ?_
  rintro addr s' u ⟨rfl, rfl, rfl⟩
  rw [← hentry]
  by_cases h0 : slotAt s'.cache (f i) (.entry e) = 0
  · rw [if_pos h0, if_pos h0]
    refine (balloc_spec h.reserved).bind ?_
    rintro b s1 u (⟨rfl, rfl, rfl⟩ | ⟨hdata, hfree, rfl, rfl⟩)
    · rw [if_pos rfl]
      refine .pure ⟨s1.cache, f, ?_⟩
      have hsame := Filled.refl (.entry e) [.logWrite ind] h hip (.inr ⟨h0, rfl⟩)
      rwa [h0] at hsame
    rw [if_neg hdata.ne_zero]
    obtain ⟨hgrows, hbytes, hnew, hold⟩ :=
      h.giveEntry hi ht hind hind0 h0 hdata hfree rfl
    refine .bind (P := fun _ s2 u => s2 = s'.put ip (update (allocBlock s'.sb s'.cache b) ind
        (putEntry (allocBlock s'.sb s'.cache b ind) e (UInt32.ofNat b))) (f i) ∧
        u = [.logWrite ind]) (Spec.act ⟨?_, rfl⟩) ?_
    · rw [← hip]
      simp [Kernel.put, Kernel.setBlock]
    rintro _ s2 u ⟨rfl, rfl⟩
    refine .pure ⟨_, f, ⟨rfl, hgrows, hbytes, hnew, hold, ?_, ?_⟩⟩
    · exact .inr (.inr ⟨h0, hdata, rfl⟩)
    rintro (hb | hne)
    · exact absurd hb hdata.ne_zero
    · exact absurd h0 hne
  · rw [if_neg h0, if_neg h0]
    exact .pure ⟨s'.cache, f, Filled.refl _ _ h hip (.inl ⟨h0, rfl⟩)⟩

end

/-- The bitmap blocks. -/
def Superblock.IsBitmap (sb : Superblock) (b : Nat) : Prop := sb.bmapstart ≤ b ∧ b < sb.nmeta

theorem Superblock.isBitmap_BBLOCK {sb : Superblock} {b : Nat} (hb : sb.IsData b) :
    sb.IsBitmap (sb.BBLOCK b) := ⟨sb.le_BBLOCK b, BBLOCK_lt hb.2⟩

/-- Block number `bn` of file `i` has been looked up, and allocated if it
was missing and there was room: the result is `b`, and `c'` and `f'` are
the new blocks and inodes. -/
structure Mapped (s : Kernel) (f : Nat → Dinode) (ip i bn b : Nat) (s' : Kernel)
    (u : List Event) (c' : Nat → Block) (f' : Nat → Dinode) : Prop where
  state : s' = s.put ip c' (f' i)
  grows : Grows s.sb i s.cache f c' f'
  bytes : ∀ x, byteAt c' (f' i) x = byteAt s.cache (f i) x
  block : blockOf c' (f' i) bn = b
  others : ∀ bn', bn' ≠ bn → blockOf c' (f' i) bn' = blockOf s.cache (f i) bn'
  present : blockOf s.cache (f i) bn ≠ 0 → c' = s.cache ∧ f' = f ∧ u = []
  plain : ∀ e ∈ u, e = .hole ∨ ∃ x, e = .logWrite x
  logs : ∀ x, .logWrite x ∈ u → blockOf s.cache (f i) bn = 0 ∧
    (s.sb.IsBitmap x ∨ x ≠ 0 ∧ (x = b ∨ NDIRECT ≤ bn ∧ x = slotAt c' (f' i) .indirect))
  logged : blockOf s.cache (f i) bn = 0 → b ≠ 0 →
    (∃ x, s.sb.IsBitmap x ∧ .logWrite x ∈ u) ∧ .logWrite b ∈ u ∧
    (NDIRECT ≤ bn → .logWrite (slotAt c' (f' i) .indirect) ∈ u)

theorem slotAt_entry_of_indirect {c : Nat → Block} {d : Dinode}
    (h : slotAt c d .indirect = 0) (e : Fin NINDIRECT) : slotAt c d (.entry e) = 0 := by
  have haddr : d.addrs (Fin.last NDIRECT) = 0 := UInt32.toNat_inj.1 h
  rw [slotAt, if_pos haddr]

namespace Filled

variable {k : Slot} {tail u : List Event} {b bn : Nat} {s' : Kernel} {c' : Nat → Block}
  {f' : Nat → Dinode} (h : Filled s f ip i k tail b s' u c' f')
include h

theorem present (hne : slotAt s.cache (f i) k ≠ 0) : c' = s.cache ∧ f' = f ∧ u = [] := by
  obtain ⟨hc, hf⟩ := h.same (.inr hne)
  rcases h.events with ⟨_, hu⟩ | ⟨h0, _⟩ | ⟨h0, _⟩
  · exact ⟨hc, hf, hu⟩
  · exact absurd h0 hne
  · exact absurd h0 hne

theorem mem_events {e : Event} (he : e ∈ u) : slotAt s.cache (f i) k = 0 ∧
    (e = .hole ∨ (∃ x, s.sb.IsBitmap x ∧ e = .logWrite x) ∨
      b ≠ 0 ∧ e = .logWrite b ∨ e ∈ tail) := by
  rcases h.events with ⟨_, rfl⟩ | ⟨h0, _, rfl⟩ | ⟨h0, hdata, rfl⟩
  · cases he
  · exact ⟨h0, .inl (mem_singleton.1 he)⟩
  refine ⟨h0, ?_⟩
  simp only [mem_cons] at he
  rcases he with rfl | rfl | rfl | he
  · exact .inl rfl
  · exact .inr (.inl ⟨_, Superblock.isBitmap_BBLOCK hdata, rfl⟩)
  · exact .inr (.inr (.inl ⟨hdata.ne_zero, rfl⟩))
  · exact .inr (.inr (.inr he))

theorem logged (h0 : slotAt s.cache (f i) k = 0) (hb : b ≠ 0) :
    (∃ x, s.sb.IsBitmap x ∧ .logWrite x ∈ u) ∧ .logWrite b ∈ u ∧ ∀ e ∈ tail, e ∈ u := by
  rcases h.events with ⟨hne, _⟩ | ⟨_, hb0, _⟩ | ⟨_, hdata, rfl⟩
  · exact absurd h0 hne
  · exact absurd hb0 hb
  refine ⟨⟨_, Superblock.isBitmap_BBLOCK hdata, by simp⟩, by simp, ?_⟩
  intro e he
  simp [he]

/-- A file block in another slot stays as it is. -/
theorem blockOf_others (hbn : blockSlot bn ≠ some k) :
    blockOf c' (f' i) bn = blockOf s.cache (f i) bn := by
  cases hk' : blockSlot bn with
  | none => simp [blockOf, hk']
  | some k' =>
    rw [blockOf_eq hk', blockOf_eq hk']
    refine h.others k' ?_
    rintro rfl
    exact hbn hk'

end Filled

/-- A direct block. -/
theorem Filled.mapped_direct {bn b : Nat} {k : Slot} {s' : Kernel} {u : List Event}
    {c' : Nat → Block} {f' : Nat → Dinode} (hk : blockSlot bn = some k) (hbn : bn < NDIRECT)
    (h : Filled s f ip i k [] b s' u c' f') : Mapped s f ip i bn b s' u c' f' where
  state := h.state
  grows := h.grows
  bytes := h.bytes
  block := by rw [blockOf_eq hk, h.block]
  others bn' hne := h.blockOf_others fun hk' => hne (blockSlot_inj hk' hk)
  present hne := h.present (by rwa [blockOf_eq hk] at hne)
  plain e he := by
    rcases (h.mem_events he).2 with rfl | ⟨x, _, rfl⟩ | ⟨_, rfl⟩ | he
    · exact .inl rfl
    · exact .inr ⟨x, rfl⟩
    · exact .inr ⟨b, rfl⟩
    · cases he
  logs x hx := by
    rw [blockOf_eq hk]
    obtain ⟨h0, he | ⟨y, hy, he⟩ | ⟨hb, he⟩ | he⟩ := h.mem_events hx
    · cases he
    · cases he
      exact ⟨h0, .inl hy⟩
    · cases he
      exact ⟨h0, .inr ⟨hb, .inl rfl⟩⟩
    · cases he
  logged h0 hb := by
    rw [blockOf_eq hk] at h0
    obtain ⟨hbitmap, hblock, _⟩ := h.logged h0 hb
    refine ⟨hbitmap, hblock, fun hle => ?_⟩
    omega

/-- No indirect block, and no room for one. -/
theorem Filled.mapped_no_indirect {bn : Nat} {e : Fin NINDIRECT} {s' : Kernel} {u : List Event}
    {c' : Nat → Block} {f' : Nat → Dinode} (hk : blockSlot bn = some (.entry e))
    (h : Filled s f ip i .indirect [] 0 s' u c' f') : Mapped s f ip i bn 0 s' u c' f' := by
  obtain ⟨rfl, rfl⟩ := h.same (.inl rfl)
  have h0 : blockOf s.cache (f' i) bn = 0 := by rw [blockOf_eq hk, slotAt_entry_of_indirect h.block]
  refine ⟨h.state, h.grows, h.bytes, h0, fun _ _ => rfl, fun hne => absurd h0 hne, ?_, ?_,
    fun _ hb => absurd rfl hb⟩
  · intro ev hev
    rcases (h.mem_events hev).2 with rfl | ⟨x, _, rfl⟩ | ⟨hb, _⟩ | hev
    · exact .inl rfl
    · exact .inr ⟨x, rfl⟩
    · exact absurd rfl hb
    · cases hev
  intro x hx
  refine ⟨h0, ?_⟩
  obtain ⟨_, hev | ⟨y, hy, hev⟩ | ⟨hb, _⟩ | hev⟩ := h.mem_events hx
  · cases hev
  · cases hev
    exact .inl hy
  · exact absurd rfl hb
  · cases hev

/-- A block behind the indirect block. -/
theorem Filled.mapped_indirect {bn b ind : Nat} {e : Fin NINDIRECT} {s1 s2 : Kernel}
    {u1 u2 : List Event} {c1 c2 : Nat → Block} {f₁ f2 : Nat → Dinode}
    (hk : blockSlot bn = some (.entry e)) (hbn : NDIRECT ≤ bn) (hind : ind ≠ 0)
    (h1 : Filled s f ip i .indirect [] ind s1 u1 c1 f₁)
    (h2 : Filled s1 f₁ ip i (.entry e) [.logWrite ind] b s2 u2 c2 f2) :
    Mapped s f ip i bn b s2 (u1 ++ u2) c2 f2 := by
  have hsb : s1.sb = s.sb := by rw [h1.state, Kernel.put_sb]
  have hcache : s1.cache = c1 := by rw [h1.state, Kernel.put_cache]
  have hentry : slotAt c1 (f₁ i) (.entry e) = slotAt s.cache (f i) (.entry e) :=
    h1.others _ (by simp [Slot.indirect])
  have hptr : slotAt c2 (f2 i) .indirect = ind := by
    rw [h2.others _ (by simp [Slot.indirect]), hcache, h1.block]
  -- the first lookup fills the pointer only, so it changes no file block
  have hsame : ∀ bn', blockOf c1 (f₁ i) bn' = blockOf s.cache (f i) bn' :=
    fun bn' => h1.blockOf_others (blockSlot_ne_indirect bn')
  refine ⟨?_, ?_, ?_, ?_, ?_, ?_, ?_, ?_, ?_⟩
  · rw [h2.state, h1.state, Kernel.put_put]
  · have hgrows := h2.grows
    rw [hsb, hcache] at hgrows
    exact h1.grows.trans hgrows
  · intro x
    rw [h2.bytes x, hcache, h1.bytes x]
  · rw [blockOf_eq hk, h2.block]
  · intro bn' hne
    rw [h2.blockOf_others fun hk' => hne (blockSlot_inj hk' hk), hcache, hsame]
  · intro hne
    rw [blockOf_eq hk] at hne
    have hptr0 : slotAt s.cache (f i) .indirect ≠ 0 :=
      fun h0 => hne (slotAt_entry_of_indirect h0 e)
    obtain ⟨rfl, rfl, rfl⟩ := h1.present hptr0
    obtain ⟨rfl, rfl, rfl⟩ := h2.present (by rw [hcache]; exact hne)
    exact ⟨hcache, rfl, rfl⟩
  · intro ev hev
    rcases mem_append.1 hev with hev | hev
    · rcases (h1.mem_events hev).2 with rfl | ⟨x, _, rfl⟩ | ⟨_, rfl⟩ | hev
      · exact .inl rfl
      · exact .inr ⟨x, rfl⟩
      · exact .inr ⟨ind, rfl⟩
      · cases hev
    rcases (h2.mem_events hev).2 with rfl | ⟨x, _, rfl⟩ | ⟨_, rfl⟩ | hev
    · exact .inl rfl
    · exact .inr ⟨x, rfl⟩
    · exact .inr ⟨b, rfl⟩
    · exact .inr ⟨ind, mem_singleton.1 hev⟩
  · intro x hx
    rw [blockOf_eq hk, hptr]
    rcases mem_append.1 hx with hx | hx
    · obtain ⟨h0, hev | ⟨y, hy, hev⟩ | ⟨_, hev⟩ | hev⟩ := h1.mem_events hx
      · cases hev
      · cases hev
        exact ⟨slotAt_entry_of_indirect h0 e, .inl hy⟩
      · cases hev
        exact ⟨slotAt_entry_of_indirect h0 e, .inr ⟨hind, .inr ⟨hbn, rfl⟩⟩⟩
      · cases hev
    obtain ⟨h0, hev | ⟨y, hy, hev⟩ | ⟨hb, hev⟩ | hev⟩ := h2.mem_events hx
    · cases hev
    · cases hev
      rw [hcache, hentry] at h0
      rw [hsb] at hy
      exact ⟨h0, .inl hy⟩
    · cases hev
      rw [hcache, hentry] at h0
      exact ⟨h0, .inr ⟨hb, .inl rfl⟩⟩
    · have hx : x = ind := by simpa using hev
      rw [hcache, hentry] at h0
      exact ⟨h0, .inr ⟨hx ▸ hind, .inr ⟨hbn, hx⟩⟩⟩
  · intro h0 hb
    rw [blockOf_eq hk, ← hentry, ← hcache] at h0
    obtain ⟨⟨x, hx, hxu⟩, hblock, htail⟩ := h2.logged h0 hb
    rw [hptr]
    refine ⟨⟨x, hsb ▸ hx, mem_append_right _ hxu⟩, mem_append_right _ hblock,
      fun _ => mem_append_right _ (htail _ (mem_singleton_self _))⟩

/-- `bmap` on an inode in the table. -/
theorem bmap_spec {bn : Nat} (h : Accounts s.sb s.cache f) (hi : i < s.sb.ninodes)
    (ht : (f i).type ≠ 0) (hip : (s.itable ip).toDinode = f i) (hbn : bn < MAXFILE) :
    Spec I DoubleFree (bmap ip bn) s fun b s' u => ∃ c' f', Mapped s f ip i bn b s' u c' f' := by
  unfold bmap
  by_cases hdirect : bn < NDIRECT
  · rw [dif_pos hdirect]
    refine (bmapAddr_spec h hi ht hip _).mono ?_
    rintro b s' u ⟨c', f', hfilled⟩
    exact ⟨c', f', hfilled.mapped_direct (by rw [blockSlot, dif_pos hdirect]) hdirect⟩
  have hin : bn - NDIRECT < NINDIRECT := by
    unfold MAXFILE at hbn
    omega
  have hk : blockSlot bn = some (.entry ⟨bn - NDIRECT, hin⟩) := by
    rw [blockSlot, dif_neg hdirect, dif_pos hin]
  rw [dif_neg hdirect, if_pos hin]
  refine (bmapAddr_spec h hi ht hip _).bind ?_
  rintro ind s1 u1 ⟨c1, f₁, h1⟩
  by_cases hind : ind = 0
  · subst hind
    rw [if_pos rfl]
    refine .pure ⟨c1, f₁, ?_⟩
    rw [append_nil]
    exact Filled.mapped_no_indirect hk h1
  rw [if_neg hind]
  have hsb : s1.sb = s.sb := by rw [h1.state, Kernel.put_sb]
  have hcache : s1.cache = c1 := by rw [h1.state, Kernel.put_cache]
  have hinode : (s1.itable ip).toDinode = f₁ i := by rw [h1.state, Kernel.put_itable_self]
  refine (bmapEntry_spec (f := f₁) (i := i) ?_ ?_ ?_ hinode ?_ hind ⟨bn - NDIRECT, hin⟩).mono ?_
  · rw [hsb, hcache]
    exact h1.grows.accounts
  · rwa [hsb]
  · rwa [h1.grows.type_eq]
  · rw [hcache]
    exact h1.block
  · rintro b s2 u2 ⟨c2, f2, h2⟩
    exact ⟨c2, f2, Filled.mapped_indirect hk (by omega) hind h1 h2⟩

/-! ## A full disk -/

/-- No block is free. -/
def DiskFull (sb : Superblock) (c : Nat → Block) : Prop :=
  ∀ b, b < sb.size → used sb c b = true

/-- A group of bits without a free block. -/
theorem ballocIn_none {b m : Nat} (hm : b = BPB * m) :
    Spec I DoubleFree (ballocIn b) s fun r _ _ => r = none →
      ∀ x, b ≤ x → x < b + BPB → x < s.sb.size → used s.sb s.cache x = true := by
  apply Spec.act
  dsimp only
  cases hfind : (range (min BPB (s.sb.size - b))).find? fun bi =>
      !(s.cache (s.sb.BBLOCK b)).bit bi with
  | some bi =>
    intro h
    cases h
  | none =>
    intro _ x hlo hhi hx
    have hpos : 0 < BPB := by decide
    have hbit := List.find?_eq_none.1 hfind (x - b) (mem_range.2 (by omega))
    have hmod : x % BPB = x - b := by
      rw [← Nat.add_sub_cancel' hlo, hm, Nat.mul_add_mod, Nat.mod_eq_of_lt (by omega),
        Nat.add_sub_cancel_left]
    have hblock : s.sb.BBLOCK x = s.sb.BBLOCK b := by
      unfold Superblock.BBLOCK
      rw [← Nat.add_sub_cancel' hlo, hm, Nat.mul_add_div hpos, Nat.div_eq_of_lt (by omega),
        Nat.mul_div_cancel_left _ hpos, Nat.add_zero]
    rw [used, hblock, hmod]
    simpa using hbit

section

variable (hres : ∀ b, b < s.sb.nmeta → used s.sb s.cache b = true)

include hres

/-- `balloc` finds a free block if there is one. -/
theorem balloc_full : Spec I DoubleFree balloc s fun b _ _ => b = 0 → DiskFull s.sb s.cache := by
  have hfrom : ∀ n b m (I : List Event → Prop), b = BPB * m →
      Spec I DoubleFree (ballocFrom b n) s fun r _ _ => r = 0 →
        ∀ x, b ≤ x → x < b + BPB * n → x < s.sb.size → used s.sb s.cache x = true := by
    intro n
    induction n with
    | zero =>
      intro b m I _
      refine .pure fun _ x hlo hhi => ?_
      omega
    | succ n ih =>
      intro b m I hm
      refine ((ballocIn_spec hm hres).and (ballocIn_none hm)).bind ?_
      rintro r s' u ⟨⟨rfl, rfl, rfl⟩ | ⟨blk, rfl, hdata, _, rfl, rfl⟩, hnone⟩
      · refine (ih _ (m + 1) _ (by rw [hm, Nat.mul_succ])).mono fun r s' u hrest h0 x hlo hhi => ?_
        rw [Nat.mul_succ] at hhi
        by_cases hx : x < b + BPB
        · exact hnone rfl x hlo hx
        · exact hrest h0 x (by omega) (by omega)
      · refine .bind (P := fun _ _ _ => True) (Spec.act trivial) ?_
        intro _ _ _ _
        exact .pure fun h0 => absurd h0 hdata.ne_zero
  refine .read_bind rfl ?_
  refine (hfrom _ 0 0 _ rfl).mono fun r _ _ hr h0 x hx => hr h0 x (Nat.zero_le x) ?_ hx
  unfold BPB BSIZE at *
  omega

theorem bmapFill_full {m : Nat → FsM Unit}
    (hm : ∀ {I} b s, Spec I DoubleFree (m b) s fun _ _ _ => True) (addr : Nat) :
    Spec I DoubleFree (if addr = 0 then balloc >>= fun b => if b = 0 then pure 0 else
        m b >>= fun _ => pure b else pure addr) s fun b s' _ => b = 0 → DiskFull s.sb s'.cache := by
  by_cases h0 : addr = 0
  · rw [if_pos h0]
    refine ((balloc_spec hres).and (balloc_full hres)).bind ?_
    rintro b s1 u ⟨⟨rfl, rfl, rfl⟩ | ⟨hdata, _, rfl, rfl⟩, hfull⟩
    · rw [if_pos rfl]
      exact .pure fun _ => hfull rfl
    rw [if_neg hdata.ne_zero]
    refine (hm b _).bind fun _ _ _ _ => ?_
    exact .pure fun hb => absurd hb hdata.ne_zero
  · rw [if_neg h0]
    exact .pure fun hb => absurd hb h0

theorem bmapAddr_full (j : Fin (NDIRECT + 1)) :
    Spec I DoubleFree (bmapAddr ip j) s fun b s' _ => b = 0 → DiskFull s.sb s'.cache := by
  unfold bmapAddr
  refine .bind (P := fun _ s' _ => s' = s) (Spec.act rfl) ?_
  rintro addr s' u rfl
  exact bmapFill_full hres (fun _ _ => Spec.modify trivial) addr

theorem bmapEntry_full (ind j : Nat) :
    Spec I DoubleFree (bmapEntry ind j) s fun b s' _ => b = 0 → DiskFull s.sb s'.cache := by
  unfold bmapEntry
  refine .bind (P := fun _ s' _ => s' = s) (Spec.act rfl) ?_
  rintro addr s' u rfl
  exact bmapFill_full hres (fun _ _ => Spec.act trivial) addr

end

section

variable (h : Accounts s.sb s.cache f) (hi : i < s.sb.ninodes) (ht : (f i).type ≠ 0)
  (hip : (s.itable ip).toDinode = f i)

include h hi ht hip

/-- `bmap` finds or allocates a block unless the disk is full. -/
theorem bmap_full {bn : Nat} (hbn : bn < MAXFILE) :
    Spec I DoubleFree (bmap ip bn) s fun b s' _ => b = 0 → DiskFull s.sb s'.cache := by
  unfold bmap
  by_cases hdirect : bn < NDIRECT
  · rw [dif_pos hdirect]
    exact bmapAddr_full h.reserved _
  have hin : bn - NDIRECT < NINDIRECT := by
    unfold MAXFILE at hbn
    omega
  rw [dif_neg hdirect, if_pos hin]
  refine ((bmapAddr_spec h hi ht hip _).and (bmapAddr_full h.reserved _)).bind ?_
  rintro ind s1 u1 ⟨⟨c1, f₁, h1⟩, hfull⟩
  by_cases hind : ind = 0
  · rw [if_pos hind]
    exact .pure fun _ => hfull hind
  rw [if_neg hind]
  have hsb : s1.sb = s.sb := by rw [h1.state, Kernel.put_sb]
  have hcache : s1.cache = c1 := by rw [h1.state, Kernel.put_cache]
  have hres : ∀ b, b < s1.sb.nmeta → used s1.sb s1.cache b = true := by
    rw [hsb, hcache]
    exact h1.grows.accounts.reserved
  refine (bmapEntry_full hres ind _).mono fun b s2 _ hb h0 => ?_
  rw [← hsb]
  exact hb h0

/-- Looking up a direct block leaves the indirect block alone. -/
theorem bmap_direct {bn : Nat} (hbn : bn < MAXFILE) :
    Spec I DoubleFree (bmap ip bn) s fun _ s' _ => bn < NDIRECT →
      slotAt s'.cache (s'.itable ip).toDinode .indirect = slotAt s.cache (f i) .indirect := by
  by_cases hdirect : bn < NDIRECT
  · unfold bmap
    rw [dif_pos hdirect]
    refine (bmapAddr_spec h hi ht hip _).mono ?_
    rintro b s' u ⟨c', f', hfilled⟩ _
    rw [hfilled.state, Kernel.put_cache, Kernel.put_itable_self]
    apply hfilled.others
    intro heq
    have hval : NDIRECT = bn := by simpa [Slot.indirect, Fin.ext_iff] using heq
    omega
  · exact (bmap_spec h hi ht hip hbn).mono fun _ _ _ _ hlt => absurd hlt hdirect

end

end Fs

end Xv6
