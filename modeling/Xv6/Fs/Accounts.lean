import Xv6.Fs.Inode
import Xv6.Lib.Owners

/-!
# Who owns a block

The free bitmap says which blocks are used.  The blocks of a file are in the
slots of its inode: the direct addresses, the indirect pointer and the
entries of the indirect block.  `Accounts` says that the used data blocks
are exactly those in the slots of allocated inodes, each in one slot.

The inodes are given by a function `f` from inode numbers to inodes.  While
an inode is changed in memory it is ahead of its copy on the disk, and `f`
is the newest version of each.

The module says what one step of the allocator does to the accounts and to
the bytes of the files: a block goes into an empty slot, data is written,
the blocks of an inode are given back.
-/

namespace Xv6

open Lib Function

namespace Fs

/-! ## The view of the disk -/

/-- The bit of block `b` in the free bitmap. -/
def used (sb : Superblock) (c : Nat → Block) (b : Nat) : Bool :=
  (c (sb.BBLOCK b)).bit (b % BPB)

/-- Inode number `i` as it lies on the disk. -/
def dinodeAt (sb : Superblock) (c : Nat → Block) (i : Nat) : Dinode :=
  getDinode (c (sb.IBLOCK i)) (i % IPB)

/-- A place in an inode, or in its indirect block, that holds a block
number. -/
inductive Slot where
  | addr (j : Fin (NDIRECT + 1))
  | entry (j : Fin NINDIRECT)
  deriving DecidableEq

/-- The slot with the number of the indirect block. -/
def Slot.indirect : Slot := .addr (Fin.last NDIRECT)

/-- The block number in a slot.  Without an indirect block its entries are
empty. -/
def slotAt (c : Nat → Block) (d : Dinode) : Slot → Nat
  | .addr j => (d.addrs j).toNat
  | .entry j =>
    if d.addrs (Fin.last NDIRECT) = 0 then
      0
    else
      (getEntry (c (d.addrs (Fin.last NDIRECT)).toNat) j).toNat

/-- The block numbers in the slots of all allocated inodes. -/
def owners (sb : Superblock) (c : Nat → Block) (f : Nat → Dinode) (o : Nat × Slot) : Nat :=
  if o.1 < sb.ninodes ∧ (f o.1).type ≠ 0 then slotAt c (f o.1) o.2 else 0

/-- The slot of block number `bn` of a file. -/
def blockSlot (bn : Nat) : Option Slot :=
  if h : bn < NDIRECT then
    some (.addr ⟨bn, Nat.lt_succ_of_lt h⟩)
  else if h : bn - NDIRECT < NINDIRECT then
    some (.entry ⟨bn - NDIRECT, h⟩)
  else
    none

/-- The block that holds block number `bn` of a file, or 0. -/
def blockOf (c : Nat → Block) (d : Dinode) (bn : Nat) : Nat :=
  match blockSlot bn with
  | some k => slotAt c d k
  | none => 0

/-- Byte number `x` of a file.  A hole reads as zeros. -/
def byteAt (c : Nat → Block) (d : Dinode) (x : Nat) : UInt8 :=
  if blockOf c d (x / BSIZE) = 0 then 0 else (c (blockOf c d (x / BSIZE))).get (x % BSIZE)

section View

variable {c c' : Nat → Block} {d d' : Dinode}

theorem blockSlot_ne_indirect (bn : Nat) : blockSlot bn ≠ some .indirect := by
  unfold blockSlot Slot.indirect
  split
  · rename_i h
    intro heq
    have hval : bn = NDIRECT := by simpa [Fin.ext_iff] using heq
    omega
  · split <;> simp

theorem blockSlot_inj {bn bn' : Nat} {k : Slot} (h : blockSlot bn = some k)
    (h' : blockSlot bn' = some k) : bn = bn' := by
  unfold blockSlot at h h'
  split at h
  · cases h
    split at h'
    · simpa [Fin.ext_iff, eq_comm] using h'
    · split at h' <;> simp at h'
  split at h
  · cases h
    split at h'
    · simp at h'
    split at h'
    · have hval : bn' - NDIRECT = bn - NDIRECT := by simpa [Fin.ext_iff] using h'
      omega
    · cases h'
  · cases h

theorem blockOf_eq {bn : Nat} {k : Slot} (h : blockSlot bn = some k) :
    blockOf c d bn = slotAt c d k := by
  rw [blockOf, h]

/-- A block of a file is in some slot that is not the indirect pointer. -/
theorem exists_slot_of_blockOf_ne {bn : Nat} (h : blockOf c d bn ≠ 0) :
    ∃ k, blockSlot bn = some k ∧ k ≠ .indirect ∧ blockOf c d bn = slotAt c d k := by
  cases hk : blockSlot bn with
  | none => simp [blockOf, hk] at h
  | some k =>
    refine ⟨k, rfl, ?_, blockOf_eq hk⟩
    rintro rfl
    exact blockSlot_ne_indirect bn hk

theorem slotAt_entry {ind : Nat} (h : slotAt c d .indirect = ind) (h0 : ind ≠ 0)
    (e : Fin NINDIRECT) : slotAt c d (.entry e) = (getEntry (c ind) e).toNat := by
  have hval : (d.addrs (Fin.last NDIRECT)).toNat = ind := h
  have haddr : d.addrs (Fin.last NDIRECT) ≠ 0 := by
    intro hzero
    rw [hzero] at hval
    exact h0 hval.symm
  rw [slotAt, if_neg haddr, hval]

/-- Entries depend on the indirect block only. -/
theorem slotAt_entry_congr (haddr : d'.addrs (Fin.last NDIRECT) = d.addrs (Fin.last NDIRECT))
    (h : slotAt c d .indirect ≠ 0 → c' (slotAt c d .indirect) = c (slotAt c d .indirect))
    (e : Fin NINDIRECT) : slotAt c' d' (.entry e) = slotAt c d (.entry e) := by
  simp only [slotAt, haddr]
  split
  · rfl
  rename_i hne
  have hblock : c' (d.addrs (Fin.last NDIRECT)).toNat = c (d.addrs (Fin.last NDIRECT)).toNat :=
    h fun h0 => hne (UInt32.toNat_inj.1 h0)
  rw [hblock]

theorem slotAt_congr (haddrs : d'.addrs = d.addrs)
    (h : slotAt c d .indirect ≠ 0 → c' (slotAt c d .indirect) = c (slotAt c d .indirect))
    (k : Slot) : slotAt c' d' k = slotAt c d k := by
  cases k with
  | addr j => simp only [slotAt, haddrs]
  | entry e => exact slotAt_entry_congr (by rw [haddrs]) h e

/-- The bytes of a file depend on the blocks in its slots only, and an empty
slot is as good as one with a cleared block. -/
theorem byteAt_congr (h : ∀ k, k ≠ .indirect →
      slotAt c' d' k = slotAt c d k ∧ (slotAt c d k ≠ 0 → c' (slotAt c d k) = c (slotAt c d k)) ∨
      slotAt c d k = 0 ∧ c' (slotAt c' d' k) = fun _ => 0) (x : Nat) :
    byteAt c' d' x = byteAt c d x := by
  unfold byteAt
  cases hk : blockSlot (x / BSIZE) with
  | none => simp [blockOf, hk]
  | some k =>
    rw [blockOf_eq hk, blockOf_eq hk]
    rcases h k fun heq => blockSlot_ne_indirect _ (heq ▸ hk) with ⟨heq, hblock⟩ | ⟨h0, hzero⟩
    · rw [heq]
      split
      · rfl
      rename_i hne
      rw [hblock hne]
    · rw [if_pos h0, hzero]
      simp [Buf.get]

end View

/-! ## The areas of the disk -/

section Areas

variable {sb : Superblock} (h : sb.WellFormed)
include h

theorem Superblock.WellFormed.IBLOCK_lt {i : Nat} (hi : i < sb.ninodes) :
    sb.IBLOCK i < sb.bmapstart := by
  have hle : i / IPB ≤ sb.ninodes / IPB := Nat.div_le_div_right hi.le
  have harea := h.inodes
  unfold Superblock.IBLOCK
  omega

theorem Superblock.WellFormed.toNat_ofNat {b : Nat} (hb : sb.IsData b) :
    (UInt32.ofNat b).toNat = b := by
  have hlt : b < 2 ^ 32 := lt_trans hb.2 h.uint
  rw [UInt32.toNat_ofNat', Nat.mod_eq_of_lt hlt]

end Areas

theorem Superblock.le_BBLOCK (sb : Superblock) (b : Nat) : sb.bmapstart ≤ sb.BBLOCK b :=
  Nat.le_add_left _ _

theorem Superblock.bmapstart_lt (sb : Superblock) : sb.bmapstart < sb.nmeta :=
  Nat.lt_succ_of_le (Nat.le_add_right _ _)

theorem Superblock.BBLOCK_lt {sb : Superblock} {b : Nat} (hb : b < sb.size) :
    sb.BBLOCK b < sb.nmeta := by
  have hle : b / BPB ≤ sb.size / BPB := Nat.div_le_div_right hb.le
  unfold Superblock.BBLOCK Superblock.nmeta
  omega

theorem Superblock.IsData.ne_zero {sb : Superblock} {b : Nat} (hb : sb.IsData b) : b ≠ 0 := by
  have hpos : 0 < sb.nmeta := Nat.succ_pos _
  have hlo := hb.1
  omega

/-- Two blocks with the same bit are the same. -/
theorem BBLOCK_mod_inj {sb : Superblock} {a b : Nat} (h : sb.BBLOCK a = sb.BBLOCK b)
    (hmod : a % BPB = b % BPB) : a = b := by
  have hdiv : a / BPB = b / BPB := by
    unfold Superblock.BBLOCK at h
    omega
  rw [← Nat.div_add_mod a BPB, ← Nat.div_add_mod b BPB, hdiv, hmod]

/-! ## Changing the bitmap -/

/-- Mark block `b` as used, and clear it. -/
def allocBlock (sb : Superblock) (c : Nat → Block) (b : Nat) : Nat → Block :=
  update (update c (sb.BBLOCK b) ((c (sb.BBLOCK b)).markBit (b % BPB))) b fun _ => 0

/-- Mark block `b` as free. -/
def freeBlock (sb : Superblock) (c : Nat → Block) (b : Nat) : Nat → Block :=
  update c (sb.BBLOCK b) ((c (sb.BBLOCK b)).clearBit (b % BPB))

section Bitmap

variable {sb : Superblock} {c c' : Nat → Block}

/-- Bits of the bitmap depend on the bitmap blocks only. -/
theorem used_congr {x : Nat} (h : c' (sb.BBLOCK x) = c (sb.BBLOCK x)) :
    used sb c' x = used sb c x := by
  rw [used, used, h]

/-- One bit of the bitmap is set to `v`. -/
theorem used_update {b x : Nat} {v : Bool} {block : Block} (hblock : ∀ j < 8 * BSIZE,
      block.bit j = if j = b % BPB then v else (c (sb.BBLOCK b)).bit j) :
    used sb (update c (sb.BBLOCK b) block) x = if x = b then v else used sb c x := by
  unfold used
  by_cases hsame : sb.BBLOCK x = sb.BBLOCK b
  · rw [hsame, update_self, hblock (x % BPB) (Nat.mod_lt x (by decide : 0 < BPB))]
    by_cases hmod : x % BPB = b % BPB
    · rw [if_pos hmod, if_pos (BBLOCK_mod_inj hsame hmod)]
    · rw [if_neg hmod, if_neg fun heq => hmod (by rw [heq])]
  · rw [update_of_ne hsame, if_neg fun heq => hsame (by rw [heq])]

theorem used_allocBlock {b x : Nat} (hb : sb.IsData b) (hx : x < sb.size) :
    used sb (allocBlock sb c b) x = true ↔ used sb c x = true ∨ x = b := by
  have hne : sb.BBLOCK x ≠ b := by
    have hlt := Superblock.BBLOCK_lt hx
    have hlo := hb.1
    omega
  rw [allocBlock, used_congr (update_of_ne hne _ _), used_update fun _ => Buf.bit_markBit _]
  by_cases hxb : x = b <;> simp [hxb]

theorem used_freeBlock {b x : Nat} :
    used sb (freeBlock sb c b) x = true ↔ used sb c x = true ∧ x ≠ b := by
  rw [freeBlock, used_update fun _ => Buf.bit_clearBit _]
  by_cases hxb : x = b <;> simp [hxb]

/-- Allocating touches the bitmap and the block. -/
theorem allocBlock_of_ne {b x : Nat} (hb : sb.IsData b)
    (hx : x < sb.bmapstart ∨ sb.nmeta ≤ x) (hne : x ≠ b) : allocBlock sb c b x = c x := by
  have hlt := Superblock.BBLOCK_lt hb.2
  have hlo := sb.le_BBLOCK b
  rw [allocBlock, update_of_ne hne, update_of_ne (by omega)]

theorem freeBlock_of_ne {b x : Nat} (hb : sb.IsData b)
    (hx : x < sb.bmapstart ∨ sb.nmeta ≤ x) : freeBlock sb c b x = c x := by
  have hlt := Superblock.BBLOCK_lt hb.2
  have hlo := sb.le_BBLOCK b
  rw [freeBlock, update_of_ne (by omega)]

end Bitmap

/-! ## The accounts -/

/-- The used data blocks are those in the slots of allocated inodes, each in
one slot, and the blocks before the data are never free. -/
structure Accounts (sb : Superblock) (c : Nat → Block) (f : Nat → Dinode) : Prop where
  wf : sb.WellFormed
  reserved : ∀ b, b < sb.nmeta → used sb c b = true
  exact : Exact sb.IsData (fun b => used sb c b = true) (owners sb c f)

namespace Accounts

variable {sb : Superblock} {c c' : Nat → Block} {f f' : Nat → Dinode} {i i' : Nat} {k k' : Slot}

theorem owners_eq (hi : i < sb.ninodes) (ht : (f i).type ≠ 0) (k : Slot) :
    owners sb c f (i, k) = slotAt c (f i) k := by
  rw [owners, if_pos ⟨hi, ht⟩]

section

variable (h : Accounts sb c f) (hi : i < sb.ninodes) (ht : (f i).type ≠ 0)

include h hi ht

/-- What is in a slot is a data block that is used. -/
theorem slot_sound (hne : slotAt c (f i) k ≠ 0) :
    sb.IsData (slotAt c (f i) k) ∧ used sb c (slotAt c (f i) k) = true := by
  have hs := h.exact.sound (i, k)
  rw [owners_eq hi ht] at hs
  exact hs hne

/-- No block is in two slots. -/
theorem slot_inj (hi' : i' < sb.ninodes) (ht' : (f i').type ≠ 0) (hne : slotAt c (f i) k ≠ 0)
    (heq : slotAt c (f i) k = slotAt c (f i') k') : i = i' ∧ k = k' := by
  have hinj := h.exact.inj (i, k) (i', k')
  rw [owners_eq hi ht, owners_eq hi' ht'] at hinj
  have hpair := hinj hne heq
  exact ⟨congrArg Prod.fst hpair, congrArg Prod.snd hpair⟩

/-- A block in a slot is not one that is free. -/
theorem slot_ne_of_free (hne : slotAt c (f i) k ≠ 0) {b : Nat} (hfree : used sb c b ≠ true) :
    slotAt c (f i) k ≠ b := by
  intro heq
  exact hfree (heq ▸ (h.slot_sound hi ht hne).2)

end

/-- A cache that differs only in blocks that no slot holds. -/
theorem frame (h : Accounts sb c f) (hused : ∀ x, x < sb.size → used sb c' x = used sb c x)
    (hc : ∀ b, sb.IsData b → used sb c b = true → c' b = c b) : Accounts sb c' f where
  wf := h.wf
  reserved b hb := by
    rw [hused b (lt_of_lt_of_le hb h.wf.data)]
    exact h.reserved b hb
  exact := by
    refine h.exact.congr (fun b hb => by rw [hused b hb.2]) ?_
    intro o
    unfold owners
    split
    · rename_i ho
      refine slotAt_congr rfl (fun hne => ?_) o.2
      have hs := h.slot_sound ho.1 ho.2 hne
      exact hc _ hs.1 hs.2
    · rfl

/-- The bytes of a file do not change when only blocks change that none of
its slots holds. -/
theorem byteAt_frame (hc : ∀ k, slotAt c (f i) k ≠ 0 →
      c' (slotAt c (f i) k) = c (slotAt c (f i) k)) (x : Nat) :
    byteAt c' (f i) x = byteAt c (f i) x :=
  byteAt_congr (fun k _ => .inl ⟨slotAt_congr rfl (hc .indirect) k, hc k⟩) x

end Accounts

/-! ## Blocks for a file -/

/-- Store a block number in an inode. -/
def Dinode.setAddr (d : Dinode) (j : Fin (NDIRECT + 1)) (v : UInt32) : Dinode :=
  { d with addrs := update d.addrs j v }

@[simp] theorem Dinode.setAddr_addrs (d : Dinode) (j : Fin (NDIRECT + 1)) (v : UInt32) :
    (d.setAddr j v).addrs = update d.addrs j v := rfl

/-- Inode `i` gets blocks or data: from `c` and `f` to `c'` and `f'`.  Its
slots keep the blocks they have, no other file changes, and neither does
anything before the bitmap. -/
structure Grows (sb : Superblock) (i : Nat) (c : Nat → Block) (f : Nat → Dinode)
    (c' : Nat → Block) (f' : Nat → Dinode) : Prop where
  accounts : Accounts sb c' f'
  others : ∀ j, j ≠ i → f' j = f j
  info : f' i = { f i with addrs := (f' i).addrs }
  below : ∀ b, b < sb.bmapstart → c' b = c b
  slots : ∀ k, slotAt c (f i) k ≠ 0 → slotAt c' (f' i) k = slotAt c (f i) k
  keeps : ∀ j, j < sb.ninodes → (f j).type ≠ 0 → j ≠ i → ∀ k, slotAt c' (f j) k = slotAt c (f j) k
  bytes : ∀ j, j < sb.ninodes → (f j).type ≠ 0 → j ≠ i → ∀ x, byteAt c' (f j) x = byteAt c (f j) x

namespace Grows

variable {sb : Superblock} {c c' c'' : Nat → Block} {f f' f'' : Nat → Dinode} {i : Nat}

theorem refl (h : Accounts sb c f) : Grows sb i c f c f :=
  ⟨h, fun _ _ => rfl, rfl, fun _ _ => rfl, fun _ _ => rfl, fun _ _ _ _ _ => rfl,
    fun _ _ _ _ _ => rfl⟩

theorem type_eq (h : Grows sb i c f c' f') (j : Nat) : (f' j).type = (f j).type := by
  by_cases hj : j = i
  · rw [hj, h.info]
  · rw [h.others j hj]

theorem trans (h : Grows sb i c f c' f') (h' : Grows sb i c' f' c'' f'') :
    Grows sb i c f c'' f'' where
  accounts := h'.accounts
  others j hj := by rw [h'.others j hj, h.others j hj]
  info := by rw [h'.info, h.info]
  below b hb := by rw [h'.below b hb, h.below b hb]
  slots k hk := by
    have hk' := h.slots k hk
    rw [h'.slots k (hk' ▸ hk), hk']
  keeps j hj ht hne k := by
    have hother := h.others j hne
    have hk := h'.keeps j hj (by rw [hother]; exact ht) hne k
    rw [hother] at hk
    rw [hk, h.keeps j hj ht hne k]
  bytes j hj ht hne x := by
    have hother := h.others j hne
    have hx := h'.bytes j hj (by rw [hother]; exact ht) hne x
    rw [hother] at hx
    rw [hx, h.bytes j hj ht hne x]

end Grows

namespace Accounts

variable {sb : Superblock} {c c' : Nat → Block} {f f' : Nat → Dinode} {i b : Nat}

variable (h : Accounts sb c f) (hi : i < sb.ninodes) (ht : (f i).type ≠ 0) {k₀ : Slot}

include h hi ht

/-- A new, cleared block goes into the empty slot `k₀` of inode `i`.  Apart
from the bitmap and the block itself only the indirect block changes. -/
theorem give (hb : sb.IsData b) (hfree : used sb c b ≠ true)
    (hothers : ∀ j, j ≠ i → f' j = f j) (hinfo : f' i = { f i with addrs := (f' i).addrs })
    (hempty : slotAt c (f i) k₀ = 0) (hnew : slotAt c' (f' i) k₀ = b)
    (hold : ∀ k, k ≠ k₀ → slotAt c' (f' i) k = slotAt c (f i) k)
    (hused : ∀ x, x < sb.size → (used sb c' x = true ↔ used sb c x = true ∨ x = b))
    (hbelow : ∀ x, x < sb.bmapstart → c' x = c x)
    (hdata : ∀ x, sb.nmeta ≤ x → x ≠ b → x ≠ slotAt c (f i) .indirect → c' x = c x)
    (hzero : c' b = fun _ => 0) :
    Grows sb i c f c' f' ∧ ∀ x, byteAt c' (f' i) x = byteAt c (f i) x := by
  -- the blocks of other files are neither the new one nor the indirect block
  have hother : ∀ j, j < sb.ninodes → (f j).type ≠ 0 → j ≠ i → ∀ k, slotAt c (f j) k ≠ 0 →
      c' (slotAt c (f j) k) = c (slotAt c (f j) k) := by
    intro j hj htj hne k hk
    apply hdata _ (h.slot_sound hj htj hk).1.1 (h.slot_ne_of_free hj htj hk hfree)
    intro heq
    exact hne (h.slot_inj hj htj hi ht hk heq).1
  have hti : (f' i).type ≠ 0 := by rwa [hinfo]
  have hexact : Exact sb.IsData (fun x => used sb c' x = true) (owners sb c' f') := by
    refine h.exact.give (o := (i, k₀)) ?_ hb hfree (fun x hx => hused x hx.2) ?_ ?_
    · rw [owners_eq hi ht, hempty]
    · rw [owners_eq hi hti, hnew]
    rintro ⟨j, k⟩ hne
    by_cases hj : j = i
    · subst hj
      rw [owners_eq hi hti, owners_eq hi ht]
      exact hold k fun heq => hne (by rw [heq])
    unfold owners
    simp only [hothers j hj]
    split
    · rename_i hj'
      exact slotAt_congr rfl (hother j hj'.1 hj'.2 hj _) k
    · rfl
  refine ⟨⟨⟨h.wf, ?_, hexact⟩, hothers, hinfo, hbelow, ?_, ?_, ?_⟩, ?_⟩
  · intro x hx
    exact (hused x (lt_of_lt_of_le hx h.wf.data)).2 (.inl (h.reserved x hx))
  · intro k hk
    exact hold k fun heq => hk (by rw [heq, hempty])
  · intro j hj htj hne
    exact slotAt_congr rfl (hother j hj htj hne .indirect)
  · intro j hj htj hne
    exact byteAt_frame (hother j hj htj hne)
  apply byteAt_congr
  intro k hk
  by_cases heq : k = k₀
  · right
    rw [heq, hempty, hnew, hzero]
    exact ⟨rfl, rfl⟩
  left
  refine ⟨hold k heq, fun hne => ?_⟩
  apply hdata _ (h.slot_sound hi ht hne).1.1 (h.slot_ne_of_free hi ht hne hfree)
  intro hind
  exact hk (h.slot_inj hi ht hi ht hne hind).2

/-- Put a new block into an address of an inode. -/
theorem giveAddr {j : Fin (NDIRECT + 1)} (hempty : (f i).addrs j = 0) (hb : sb.IsData b)
    (hfree : used sb c b ≠ true) (hf' : f' = update f i ((f i).setAddr j (UInt32.ofNat b))) :
    Grows sb i c f (allocBlock sb c b) f' ∧
      (∀ x, byteAt (allocBlock sb c b) (f' i) x = byteAt c (f i) x) ∧
      slotAt (allocBlock sb c b) (f' i) (.addr j) = b ∧
      ∀ k, k ≠ .addr j → slotAt (allocBlock sb c b) (f' i) k = slotAt c (f i) k := by
  have hself : f' i = (f i).setAddr j (UInt32.ofNat b) := by rw [hf', update_self]
  have hzero : allocBlock sb c b b = fun _ => 0 := by simp [allocBlock]
  have hnew : slotAt (allocBlock sb c b) (f' i) (.addr j) = b := by
    simp [hself, slotAt, Dinode.setAddr, h.wf.toNat_ofNat hb]
  have hdata : ∀ x, sb.nmeta ≤ x → x ≠ b → allocBlock sb c b x = c x :=
    fun x hx hne => allocBlock_of_ne hb (.inr hx) hne
  have hold : ∀ k, k ≠ .addr j → slotAt (allocBlock sb c b) (f' i) k = slotAt c (f i) k := by
    intro k hk
    cases k with
    | addr j' =>
      have hj : j' ≠ j := fun heq => hk (by rw [heq])
      simp [hself, slotAt, Dinode.setAddr, update_of_ne hj]
    | entry e =>
      by_cases hj : j = Fin.last NDIRECT
      · -- the new block is the indirect block, and all its entries are empty
        subst hj
        have hb0 : UInt32.ofNat b ≠ 0 := by
          intro h0
          have hval := h.wf.toNat_ofNat hb
          rw [h0] at hval
          exact hb.ne_zero hval.symm
        simp only [slotAt, hself, Dinode.setAddr, update_self, hempty, if_true,
          if_neg hb0, h.wf.toNat_ofNat hb, hzero, getEntry_zero]
        rfl
      · have haddr : (f' i).addrs (Fin.last NDIRECT) = (f i).addrs (Fin.last NDIRECT) := by
          simp [hself, Dinode.setAddr, update_of_ne (Ne.symm hj)]
        exact slotAt_entry_congr haddr (fun hne => hdata _ (h.slot_sound hi ht hne).1.1
          (h.slot_ne_of_free hi ht hne hfree)) e
  obtain ⟨hgrows, hbytes⟩ := h.give hi ht hb hfree
    (fun k hk => by rw [hf', update_of_ne hk]) (by rw [hself]; rfl)
    (by rw [slotAt, hempty]; rfl) hnew hold
    (fun x hx => used_allocBlock hb hx)
    (fun x hx => allocBlock_of_ne hb (.inl hx) (by
      have hlo := hb.1
      have hbits := sb.bmapstart_lt
      omega))
    (fun x hx hne _ => hdata x hx hne) hzero
  exact ⟨hgrows, hbytes, hnew, hold⟩

/-- Put a new block into an entry of the indirect block. -/
theorem giveEntry {e : Fin NINDIRECT} {ind : Nat} (hind : slotAt c (f i) .indirect = ind)
    (hind0 : ind ≠ 0)
    (hempty : slotAt c (f i) (.entry e) = 0) (hb : sb.IsData b) (hfree : used sb c b ≠ true)
    (hc' : c' = update (allocBlock sb c b) ind
      (putEntry (allocBlock sb c b ind) e (UInt32.ofNat b))) :
    Grows sb i c f c' f ∧ (∀ x, byteAt c' (f i) x = byteAt c (f i) x) ∧
      slotAt c' (f i) (.entry e) = b ∧
      ∀ k, k ≠ .entry e → slotAt c' (f i) k = slotAt c (f i) k := by
  have hsound := h.slot_sound (k := .indirect) hi ht (by rw [hind]; exact hind0)
  have hne : ind ≠ b := hind ▸ h.slot_ne_of_free hi ht (by rw [hind]; exact hind0) hfree
  rw [hind] at hsound
  have hlo := hsound.1.1
  have hbits := sb.bmapstart_lt
  have hindc : allocBlock sb c b ind = c ind := allocBlock_of_ne hb (.inr hlo) hne
  have hslot : ∀ k, slotAt c' (f i) k =
      if k = .entry e then b else slotAt c (f i) k := by
    intro k
    cases k with
    | addr j => simp [slotAt]
    | entry e' =>
      rw [slotAt_entry (c := c') hind hind0, slotAt_entry hind hind0]
      simp only [hc', update_self, hindc, getEntry_putEntry _ _ e.isLt, Slot.entry.injEq,
        Fin.val_inj]
      split
      · exact h.wf.toNat_ofNat hb
      · rfl
  have hnew : slotAt c' (f i) (.entry e) = b := by rw [hslot, if_pos rfl]
  have hold : ∀ k, k ≠ .entry e → slotAt c' (f i) k = slotAt c (f i) k :=
    fun k hk => by rw [hslot, if_neg hk]
  obtain ⟨hgrows, hbytes⟩ := h.give hi ht hb hfree (fun _ _ => rfl) rfl hempty hnew hold
    (fun x hx => by
      have hlt := Superblock.BBLOCK_lt hx
      rw [used_congr (c := allocBlock sb c b) (by rw [hc', update_of_ne (by omega)])]
      exact used_allocBlock hb hx)
    (fun x hx => by
      have hlo' := hb.1
      rw [hc', update_of_ne (by omega), allocBlock_of_ne hb (.inl hx) (by omega)])
    (fun x hx hxb hxi => by
      rw [hc', update_of_ne (by rw [← hind]; exact hxi), allocBlock_of_ne hb (Or.inr hx) hxb])
    (by rw [hc', update_of_ne hne.symm]; simp [allocBlock])
  exact ⟨hgrows, hbytes, hnew, hold⟩

/-- Write to a block of a file. -/
theorem setData (hk₀ : k₀ ≠ .indirect) (hne : slotAt c (f i) k₀ ≠ 0) (v : Block)
    (hc' : c' = update c (slotAt c (f i) k₀) v) :
    Grows sb i c f c' f ∧ (∀ k, slotAt c' (f i) k = slotAt c (f i) k) := by
  have hsound := h.slot_sound hi ht hne
  have hlo := hsound.1.1
  have hbits := sb.bmapstart_lt
  -- a slot other than this one holds another block
  have hother : ∀ j k, j < sb.ninodes → (f j).type ≠ 0 → (j, k) ≠ (i, k₀) →
      slotAt c (f j) k ≠ 0 → c' (slotAt c (f j) k) = c (slotAt c (f j) k) := by
    intro j k hj htj hjk hk
    rw [hc', update_of_ne]
    intro heq
    obtain ⟨hij, hkk⟩ := h.slot_inj hj htj hi ht hk heq
    exact hjk (by rw [hij, hkk])
  have hslot : ∀ j k, j < sb.ninodes → (f j).type ≠ 0 → slotAt c' (f j) k = slotAt c (f j) k := by
    intro j k hj htj
    refine slotAt_congr rfl (hother j .indirect hj htj ?_) k
    intro heq
    exact hk₀ (congrArg Prod.snd heq).symm
  have hused : ∀ x, x < sb.size → used sb c' x = used sb c x := by
    intro x hx
    have hlt := Superblock.BBLOCK_lt hx
    exact used_congr (by rw [hc', update_of_ne (by omega)])
  refine ⟨⟨⟨h.wf, ?_, ?_⟩, fun _ _ => rfl, rfl, ?_, fun k _ => hslot i k hi ht,
    fun j hj htj _ k => hslot j k hj htj, ?_⟩, fun k => hslot i k hi ht⟩
  · intro x hx
    rw [hused x (lt_of_lt_of_le hx h.wf.data)]
    exact h.reserved x hx
  · refine h.exact.congr (fun x hx => by rw [hused x hx.2]) ?_
    intro o
    unfold owners
    split
    · rename_i ho
      exact hslot o.1 o.2 ho.1 ho.2
    · rfl
  · intro x hx
    rw [hc', update_of_ne (by omega)]
  · intro j hj htj hji
    refine byteAt_frame fun k hk => hother j k hj htj ?_ hk
    intro heq
    exact hji (congrArg Prod.fst heq)

/-- The bytes of a file after a write to one of its blocks. -/
theorem byteAt_setData (hk₀ : k₀ ≠ .indirect) (hne : slotAt c (f i) k₀ ≠ 0) (v : Block)
    (hc' : c' = update c (slotAt c (f i) k₀) v) (x : Nat) : byteAt c' (f i) x =
      if blockSlot (x / BSIZE) = some k₀ then v.get (x % BSIZE) else byteAt c (f i) x := by
  have hslot := (h.setData hi ht hk₀ hne v hc').2
  unfold byteAt
  cases hk : blockSlot (x / BSIZE) with
  | none => simp [blockOf, hk]
  | some k =>
    rw [blockOf_eq hk, blockOf_eq hk, hslot k]
    by_cases heq : k = k₀
    · subst heq
      rw [if_neg hne, if_pos rfl, hc', update_self]
    have hsome : ¬ some k = some k₀ := by simpa using heq
    rw [if_neg hsome]
    split
    · rfl
    rename_i hk0
    have hother : slotAt c (f i) k ≠ slotAt c (f i) k₀ :=
      fun hs => heq (h.slot_inj hi ht hi ht hk0 hs).2
    rw [hc', update_of_ne hother]

end Accounts

/-! ## Giving blocks back -/

/-- Inode `i` gives blocks back: `g` is what is left in its slots when the
cache has become `c'`. -/
structure Releases (sb : Superblock) (i : Nat) (c : Nat → Block) (f : Nat → Dinode)
    (c' : Nat → Block) (g : Slot → Nat) : Prop where
  reserved : ∀ b, b < sb.nmeta → used sb c' b = true
  exact : Exact sb.IsData (fun b => used sb c' b = true)
    (fun o => if o.1 = i then g o.2 else owners sb c f o)
  keep : ∀ x, x < sb.bmapstart ∨ sb.nmeta ≤ x → c' x = c x

namespace Releases

variable {sb : Superblock} {c c' : Nat → Block} {f : Nat → Dinode} {i : Nat} {g : Slot → Nat}

theorem refl (h : Accounts sb c f) (hi : i < sb.ninodes) (ht : (f i).type ≠ 0) :
    Releases sb i c f c (slotAt c (f i)) where
  reserved := h.reserved
  exact := by
    refine h.exact.congr (fun _ _ => Iff.rfl) ?_
    rintro ⟨j, k⟩
    by_cases hj : j = i
    · subst hj
      simp only [if_true]
      rw [Accounts.owners_eq hi ht]
    · simp [hj]
  keep _ _ := rfl

/-- What is left in a slot is a data block that is used. -/
theorem slot_sound (h : Releases sb i c f c' g) {k : Slot} (hk : g k ≠ 0) :
    sb.IsData (g k) ∧ used sb c' (g k) = true := by
  have hs := h.exact.sound (i, k)
  simp only [if_true] at hs
  exact hs hk

/-- One more block is given back. -/
theorem free (h : Releases sb i c f c' g) {k : Slot} (hk : g k ≠ 0) :
    Releases sb i c f (freeBlock sb c' (g k)) (update g k 0) where
  reserved b hb := by
    have hlo := (h.slot_sound hk).1.1
    exact used_freeBlock.2 ⟨h.reserved b hb, by omega⟩
  exact := by
    refine h.exact.take (o := (i, k)) ?_ ?_ ?_
    · intro x _
      simp only [if_true]
      exact used_freeBlock
    · simp
    rintro ⟨j, k'⟩ hne
    by_cases hj : j = i
    · subst hj
      have hk' : k' ≠ k := fun heq => hne (by rw [heq])
      simp [hk']
    · simp [hj]
  keep x hx := by
    rw [freeBlock_of_ne (h.slot_sound hk).1 hx]
    exact h.keep x hx

/-- When nothing is left, the accounts are in order for an inode with empty
slots. -/
theorem done (h : Releases sb i c f c' g) (hacc : Accounts sb c f) (hg : ∀ k, g k = 0)
    {d : Dinode} (hd : ∀ j, d.addrs j = 0) {f' : Nat → Dinode}
    (hf' : f' = update f i d) : Accounts sb c' f' where
  wf := hacc.wf
  reserved := h.reserved
  exact := by
    refine h.exact.congr (fun _ _ => Iff.rfl) ?_
    rintro ⟨j, k⟩
    by_cases hj : j = i
    · subst hj
      have hslot : slotAt c' d k = 0 := by
        cases k with
        | addr | entry => simp [slotAt, hd]
      simp [owners, hf', hslot, hg]
    simp only [owners, hf', update_of_ne hj, if_neg hj]
    split
    · rename_i ho
      refine slotAt_congr rfl (fun hne => ?_) k
      exact h.keep _ (.inr (hacc.slot_sound ho.1 ho.2 hne).1.1)
    · rfl

end Releases

end Fs

end Xv6
