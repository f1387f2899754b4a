import Xv6.Fs.InodeLayer
import Xv6.Mkfs.Model

/-!
# What `iappend` does to the image

`mkfs` hands out blocks in order and writes the bitmap at the end.  `disk`
is the image with the bitmap as it would be written now, and over it the
accounts of the kernel's allocator hold all the time: a block that `iappend`
takes goes into an empty slot of one inode (`Takes`).

`Holds` says which bytes an inode has, and that it has exactly the blocks
that these need.  One round of `iappend` adds the bytes that it writes
(`iappendRound_ends`), and so does the whole loop (`iappend_ends`).
-/

namespace Xv6

open Fs Function Lib List

namespace Mkfs

variable {n ind : Nat} {j : Fin (NDIRECT + 1)} {e : Fin NINDIRECT} {q p : List UInt8}

/-! ## The areas of the image -/

/-- The number of inodes that the inode blocks have room for. -/
def inodeSlots : Nat := IPB * ninodeblocks

/-- The areas of the image, with every inode that has room in the inode
blocks.  The accounts do not depend on where the inode blocks begin; here
they begin one block early, for a block that would be only just begun. -/
def areas : Superblock := { sb with ninodes := inodeSlots, inodestart := 31, logstart := 1 }

theorem areas_wellFormed : areas.WellFormed := by constructor <;> decide

theorem IBLOCK_lt {i : Nat} (hi : i < inodeSlots) : sb.IBLOCK i < sb.bmapstart := by
  have hi : i < 208 := hi
  show i / 16 + 32 < 45
  omega

theorem sector_eq {b : Nat} (hb : b < 2 ^ 22) : sector b = b := by
  unfold sector BSIZE
  omega

namespace Image

variable {m : Image} {b : Nat} {v : Block}

theorem rsect_of_lt (hb : b < FSSIZE) : m.rsect b = .ok (m.sectors b) := by
  have hsec : sector b = b := sector_eq (by unfold FSSIZE at hb; omega)
  rw [rsect, hsec, if_pos hb]

/-- Behind the end of the image. -/
theorem rsect_of_le (hlo : FSSIZE ≤ b) (hhi : b < 2 ^ 22) : m.rsect b = .error .die := by
  rw [rsect, sector_eq hhi, if_neg (by omega)]

theorem wsect_of_lt (hb : b < FSSIZE) :
    m.wsect b v = { m with sectors := update m.sectors b v } := by
  have hsec : sector b = b := sector_eq (by unfold FSSIZE at hb; omega)
  rw [wsect, hsec]

/-- The image with the bitmap that `balloc` would write now. -/
def disk (m : Image) : Nat → Block :=
  update m.sectors sb.bmapstart (ballocFrom m.freeblock)

theorem disk_of_ne (hb : b ≠ sb.bmapstart) : m.disk b = m.sectors b := update_of_ne hb _ _

theorem disk_wsect (hb : b < FSSIZE) (hne : b ≠ sb.bmapstart) :
    (m.wsect b v).disk = update m.disk b v := by
  rw [wsect_of_lt hb]
  exact update_comm hne _ _ _

end Image

/-! ## The bitmap -/

theorem bit_ballocFrom {j : Nat} (hj : j < 8 * BSIZE) : (ballocFrom n).bit j = decide (j < n) := by
  induction n with
  | zero => simp [ballocFrom, Buf.bit, Buf.get]
  | succ n ih =>
    rw [ballocFrom, Buf.bit_markBit _ hj, ih]
    by_cases hjn : j = n
    · simp [hjn]
    rw [if_neg hjn]
    have hiff : j < n ↔ j < n + 1 := by omega
    simp [hiff]

namespace Image

variable {m : Image}

theorem BBLOCK_eq {x : Nat} (hx : x < FSSIZE) : areas.BBLOCK x = sb.bmapstart ∧ x % BPB = x := by
  have hx : x < 2000 := hx
  have hdiv : x / 8192 + 45 = 45 := by omega
  exact ⟨hdiv, Nat.mod_eq_of_lt (show x < 8192 by omega)⟩

/-- The blocks in use are those that have been handed out. -/
theorem used_disk {x : Nat} (hx : x < FSSIZE) : used areas m.disk x = decide (x < m.freeblock) := by
  obtain ⟨hblock, hmod⟩ := BBLOCK_eq hx
  have hbit : x < 8 * BSIZE := lt_trans hx (by decide)
  rw [used, hblock, hmod, disk, update_self, bit_ballocFrom hbit]

/-- Handing out a block is what the kernel's allocator does. -/
theorem disk_take (hlt : m.freeblock < FSSIZE) (hne : m.freeblock ≠ sb.bmapstart)
    (hzero : m.sectors m.freeblock = fun _ => 0) :
    disk { m with freeblock := m.freeblock + 1 } = allocBlock areas m.disk m.freeblock := by
  obtain ⟨hblock, hmod⟩ := BBLOCK_eq hlt
  funext x
  unfold allocBlock
  rw [hblock, hmod]
  by_cases hx : x = m.freeblock
  · rw [hx, update_self, disk_of_ne hne, hzero]
  rw [update_of_ne hx]
  by_cases hmap : x = sb.bmapstart
  · simp [hmap, disk, ballocFrom]
  · rw [update_of_ne hmap, disk_of_ne hmap, disk_of_ne hmap]

end Image

/-! ## Blocks for an inode -/

/-- The blocks that have been handed out are those in the slots of the
inodes, and the others are still clear. -/
structure Alloc (m : Image) (f : Nat → Dinode) : Prop where
  accounts : Accounts areas m.disk f
  room : m.freeblock ≤ FSSIZE
  fresh : ∀ b, m.freeblock ≤ b → b < FSSIZE → m.sectors b = fun _ => 0

/-- Inode `i` has block `b` in slot `k`, which may have been handed out for
it. -/
structure Takes (m : Image) (f : Nat → Dinode) (i : Nat) (k : Slot) (b : Nat) (m' : Image)
    (f' : Nat → Dinode) : Prop where
  alloc : Alloc m' f'
  grows : Grows areas i m.disk f m'.disk f'
  bytes : ∀ x, byteAt m'.disk (f' i) x = byteAt m.disk (f i) x
  slot : slotAt m'.disk (f' i) k = b
  ne_zero : b ≠ 0
  others : ∀ k', k' ≠ k → slotAt m'.disk (f' i) k' = slotAt m.disk (f i) k'
  freeblock : m'.freeblock = m.freeblock + if slotAt m.disk (f i) k = 0 then 1 else 0
  freeinode : m'.freeinode = m.freeinode

namespace Alloc

variable {m m' : Image} {f : Nat → Dinode} {i b : Nat} {k : Slot}

theorem nmeta_le (h : Alloc m f) : nmeta ≤ m.freeblock := by
  have hlast := h.accounts.reserved sb.bmapstart (by decide)
  rw [Image.used_disk (by decide)] at hlast
  exact of_decide_eq_true hlast

theorem isData (h : Alloc m f) (hlt : m.freeblock < FSSIZE) : areas.IsData m.freeblock :=
  ⟨h.nmeta_le, hlt⟩

theorem not_used (hlt : m.freeblock < FSSIZE) : used areas m.disk m.freeblock ≠ true := by
  rw [Image.used_disk hlt]
  simp

theorem disk_take (h : Alloc m f) (hlt : m.freeblock < FSSIZE) :
    Image.disk { m with freeblock := m.freeblock + 1 } = allocBlock areas m.disk m.freeblock := by
  refine Image.disk_take hlt ?_ (h.fresh _ le_rfl hlt)
  have hlo : 46 ≤ m.freeblock := h.nmeta_le
  show m.freeblock ≠ 45
  omega

/-- What is in a slot has been handed out, and is a sector of the data. -/
theorem slot_bound (h : Alloc m f) (hi : i < inodeSlots) (ht : (f i).type ≠ 0)
    (hne : slotAt m.disk (f i) k ≠ 0) :
    nmeta ≤ slotAt m.disk (f i) k ∧ slotAt m.disk (f i) k < m.freeblock := by
  obtain ⟨hdata, hused⟩ := h.accounts.slot_sound hi ht hne
  rw [Image.used_disk hdata.2] at hused
  exact ⟨hdata.1, of_decide_eq_true hused⟩

/-- A slot that is not empty. -/
theorem takes_present (h : Alloc m f) (hne : slotAt m.disk (f i) k ≠ 0) :
    Takes m f i k (slotAt m.disk (f i) k) m f where
  alloc := h
  grows := Grows.refl h.accounts
  bytes _ := rfl
  slot := rfl
  ne_zero := hne
  others _ _ := rfl
  freeblock := by rw [if_neg hne, Nat.add_zero]
  freeinode := rfl

/-- The next block goes into an empty address. -/
theorem takes_addr (h : Alloc m f) (hi : i < inodeSlots) (ht : (f i).type ≠ 0)
    (hempty : (f i).addrs j = 0) (hlt : m.freeblock < FSSIZE) :
    Takes m f i (.addr j) m.freeblock { m with freeblock := m.freeblock + 1 }
      (update f i ((f i).setAddr j (UInt32.ofNat m.freeblock))) := by
  obtain ⟨hgrows, hbytes, hslot, hothers⟩ := h.accounts.giveAddr hi ht hempty (h.isData hlt)
    (not_used hlt) rfl
  rw [← h.disk_take hlt] at hgrows hbytes hslot hothers
  refine ⟨⟨hgrows.accounts, hlt, ?_⟩, hgrows, hbytes, hslot, (h.isData hlt).ne_zero, hothers,
    ?_, rfl⟩
  · intro b hb
    exact h.fresh b (Nat.le_of_succ_le hb)
  · rw [slotAt, hempty]
    rfl

/-- The next block goes into an empty entry of the indirect block. -/
theorem takes_entry (h : Alloc m f) (hi : i < inodeSlots) (ht : (f i).type ≠ 0)
    (hind : slotAt m.disk (f i) .indirect = ind)
    (hind0 : ind ≠ 0) (hempty : slotAt m.disk (f i) (.entry e) = 0) (hlt : m.freeblock < FSSIZE) :
    Takes m f i (.entry e) m.freeblock (Image.wsect { m with freeblock := m.freeblock + 1 } ind
        (putEntry (m.sectors ind) e (UInt32.ofNat m.freeblock))) f := by
  obtain ⟨hlo, hhi⟩ := h.slot_bound hi ht (k := .indirect) (by rw [hind]; exact hind0)
  rw [hind] at hlo hhi
  have hmap : ind ≠ sb.bmapstart := by
    have hlo : 46 ≤ ind := hlo
    show ind ≠ 45
    omega
  have hindLt : ind < FSSIZE := lt_trans hhi hlt
  have hsame : allocBlock areas m.disk m.freeblock ind = m.sectors ind := by
    rw [allocBlock_of_ne (h.isData hlt) (.inr hlo) (by omega), Image.disk_of_ne hmap]
  obtain ⟨hgrows, hbytes, hslot, hothers⟩ := h.accounts.giveEntry hi ht hind hind0 hempty
    (h.isData hlt) (not_used hlt) rfl
  rw [hsame, ← h.disk_take hlt, ← Image.disk_wsect hindLt hmap] at hgrows hbytes hslot hothers
  refine ⟨⟨hgrows.accounts, hlt, ?_⟩, hgrows, hbytes, hslot, (h.isData hlt).ne_zero, hothers,
    ?_, rfl⟩
  · intro b hb hbs
    have hb : m.freeblock + 1 ≤ b := hb
    rw [Image.wsect_of_lt hindLt]
    show update m.sectors ind _ b = _
    rw [update_of_ne (by omega)]
    exact h.fresh b (by omega) hbs
  · rw [if_pos hempty]
    rfl

end Alloc

/-! ## The block for a round -/

theorem toNat_ofNat_of_le {b : Nat} (hb : b ≤ FSSIZE) : (UInt32.ofNat b).toNat = b := by
  have hb : b ≤ 2000 := hb
  rw [UInt32.toNat_ofNat', Nat.mod_eq_of_lt (by omega)]

/-- The number of blocks that are handed out for block number `bn` of a
file. -/
def lacking (c : Nat → Block) (d : Dinode) (bn : Nat) : Nat :=
  (if blockOf c d bn = 0 then 1 else 0) +
    if NDIRECT ≤ bn ∧ slotAt c d .indirect = 0 then 1 else 0

/-- Inode `i` has block `x` as its block number `bn`, which may have been
handed out for it. -/
structure Found (m : Image) (f : Nat → Dinode) (i bn x : Nat) (m' : Image) (f' : Nat → Dinode) :
    Prop where
  alloc : Alloc m' f'
  grows : Grows areas i m.disk f m'.disk f'
  bytes : ∀ x, byteAt m'.disk (f' i) x = byteAt m.disk (f i) x
  block : blockOf m'.disk (f' i) bn = x
  ne_zero : x ≠ 0
  others : ∀ bn', bn' ≠ bn → blockOf m'.disk (f' i) bn' = blockOf m.disk (f i) bn'
  indirect : slotAt m'.disk (f' i) .indirect ≠ 0 ↔ slotAt m.disk (f i) .indirect ≠ 0 ∨ NDIRECT ≤ bn
  freeblock : m'.freeblock = m.freeblock + lacking m.disk (f i) bn
  freeinode : m'.freeinode = m.freeinode

section Found

variable {m m₁ m₂ : Image} {f f₁ : Nat → Dinode} {i bn x : Nat}

theorem blockSlot_direct (h : bn < NDIRECT) :
    blockSlot bn = some (.addr ⟨bn, Nat.lt_succ_of_lt h⟩) := dif_pos h

theorem blockSlot_entry (h : ¬ bn < NDIRECT) (he : bn - NDIRECT < NINDIRECT) :
    blockSlot bn = some (.entry ⟨bn - NDIRECT, he⟩) := by
  rw [blockSlot, dif_neg h, dif_pos he]

/-- Taking a block changes one block number of the file at most. -/
theorem Takes.blockOf_others {k : Slot} (h : Takes m f i k x m₁ f₁)
    (hk : blockSlot bn ≠ some k) : blockOf m₁.disk (f₁ i) bn = blockOf m.disk (f i) bn := by
  cases hbn : blockSlot bn with
  | none => simp [blockOf, hbn]
  | some k' =>
    rw [blockOf_eq hbn, blockOf_eq hbn]
    exact h.others k' fun heq => hk (by rw [hbn, heq])

/-- A direct block. -/
theorem Takes.found_direct (hbn : bn < NDIRECT)
    (h : Takes m f i (.addr ⟨bn, Nat.lt_succ_of_lt hbn⟩) x m₁ f₁) : Found m f i bn x m₁ f₁ where
  alloc := h.alloc
  grows := h.grows
  bytes := h.bytes
  block := by rw [blockOf_eq (blockSlot_direct hbn), h.slot]
  ne_zero := h.ne_zero
  others bn' hne := by
    refine h.blockOf_others fun heq => hne ?_
    exact blockSlot_inj heq (blockSlot_direct hbn)
  indirect := by
    have hslot : Slot.indirect ≠ .addr ⟨bn, Nat.lt_succ_of_lt hbn⟩ := by
      intro heq
      exact blockSlot_ne_indirect bn (by rw [blockSlot_direct hbn, ← heq])
    rw [h.others _ hslot]
    simp [hbn]
  freeblock := by
    rw [h.freeblock, lacking, blockOf_eq (blockSlot_direct hbn)]
    simp [hbn]
  freeinode := h.freeinode

/-- A block behind the direct ones: first the indirect block, then the entry
in it. -/
theorem Takes.found_entry (hbn : ¬ bn < NDIRECT) (he : bn - NDIRECT < NINDIRECT)
    (h : Takes m f i .indirect ind m₁ f₁)
    (h' : Takes m₁ f₁ i (.entry ⟨bn - NDIRECT, he⟩) x m₂ f₁) : Found m f i bn x m₂ f₁ where
  alloc := h'.alloc
  grows := h.grows.trans h'.grows
  bytes y := by rw [h'.bytes, h.bytes]
  block := by rw [blockOf_eq (blockSlot_entry hbn he), h'.slot]
  ne_zero := h'.ne_zero
  others bn' hne := by
    rw [h'.blockOf_others, h.blockOf_others (blockSlot_ne_indirect bn')]
    exact fun heq => hne (blockSlot_inj heq (blockSlot_entry hbn he))
  indirect := by
    rw [h'.others .indirect (by simp [Slot.indirect]), h.slot]
    simp [h.ne_zero, Nat.le_of_not_lt hbn]
  freeblock := by
    rw [h'.freeblock, h.freeblock, h.others _ (by simp [Slot.indirect]), lacking,
      blockOf_eq (blockSlot_entry hbn he)]
    simp only [Nat.le_of_not_lt hbn, true_and]
    omega
  freeinode := h'.freeinode.trans h.freeinode

end Found

namespace Alloc

variable {m : Image} {f : Nat → Dinode} {i bn : Nat}

section

variable (h : Alloc m f) (hi : i < inodeSlots) (ht : (f i).type ≠ 0)

include h hi ht

theorem takeAddr_takes (hroom : (f i).addrs j = 0 → m.freeblock < FSSIZE) :
    Takes m f i (.addr j) ((m.takeAddr (f i) j).1.addrs j).toNat (m.takeAddr (f i) j).2
      (update f i (m.takeAddr (f i) j).1) := by
  unfold Image.takeAddr
  by_cases hempty : (f i).addrs j = 0
  · have htakes := h.takes_addr hi ht hempty (hroom hempty)
    rw [if_pos hempty]
    simp only [update_self, toNat_ofNat_of_le h.room]
    exact htakes
  · rw [if_neg hempty, update_eq_self]
    exact h.takes_present fun h0 => hempty (UInt32.toNat_inj.1 h0)

theorem takeEntry_eq (hind : slotAt m.disk (f i) .indirect = ind) (hind0 : ind ≠ 0) :
    m.takeEntry ind e = .ok (if slotAt m.disk (f i) (.entry e) = 0 then
      (m.freeblock, Image.wsect { m with freeblock := m.freeblock + 1 } ind
        (putEntry (m.sectors ind) e (UInt32.ofNat m.freeblock)))
      else (slotAt m.disk (f i) (.entry e), m)) := by
  obtain ⟨hlo, hhi⟩ := h.slot_bound hi ht (k := .indirect) (by rw [hind]; exact hind0)
  rw [hind] at hlo hhi
  have hmap : ind ≠ sb.bmapstart := by
    have hlo : 46 ≤ ind := hlo
    show ind ≠ 45
    omega
  have hslot : slotAt m.disk (f i) (.entry e) = (getEntry (m.sectors ind) e).toNat := by
    rw [slotAt_entry hind hind0, Image.disk_of_ne hmap]
  have hzero : (getEntry (m.sectors ind) e).toNat = 0 ↔ getEntry (m.sectors ind) e = 0 :=
    UInt32.toNat_inj (b := 0)
  unfold Image.takeEntry
  rw [Image.rsect_of_lt (lt_of_lt_of_le hhi h.room)]
  show (if getEntry (m.sectors ind) e = 0 then _ else _) = _
  rw [toNat_ofNat_of_le h.room]
  simp only [hslot, hzero]
  split <;> rfl

theorem takeEntry_takes (hind : slotAt m.disk (f i) .indirect = ind)
    (hind0 : ind ≠ 0) (hroom : slotAt m.disk (f i) (.entry e) = 0 → m.freeblock < FSSIZE) :
    ∃ x m', m.takeEntry ind e = .ok (x, m') ∧ Takes m f i (.entry e) x m' f := by
  rw [h.takeEntry_eq hi ht hind hind0]
  by_cases hempty : slotAt m.disk (f i) (.entry e) = 0
  · rw [if_pos hempty]
    exact ⟨_, _, rfl, h.takes_entry hi ht hind hind0 hempty (hroom hempty)⟩
  · rw [if_neg hempty]
    exact ⟨_, _, rfl, h.takes_present hempty⟩

/-- With enough room, `blockFor` finds the block. -/
theorem blockFor_found
    (hbn : bn < MAXFILE) (hroom : m.freeblock + lacking m.disk (f i) bn ≤ FSSIZE) :
    ∃ x d' m', m.blockFor (f i) bn = .ok (x, d', m') ∧ Found m f i bn x m' (update f i d') := by
  unfold Image.blockFor
  by_cases hdirect : bn < NDIRECT
  · rw [dif_pos hdirect]
    refine ⟨_, _, _, rfl, Takes.found_direct hdirect (h.takeAddr_takes hi ht fun hempty => ?_)⟩
    have hblock : blockOf m.disk (f i) bn = 0 := by
      rw [blockOf_eq (blockSlot_direct hdirect), slotAt, hempty]
      rfl
    rw [lacking, if_pos hblock] at hroom
    omega
  rw [dif_neg hdirect]
  have he : bn - NDIRECT < NINDIRECT := by
    unfold MAXFILE at hbn
    omega
  have hle : NDIRECT ≤ bn := Nat.le_of_not_lt hdirect
  have hblock := blockOf_eq (c := m.disk) (d := f i) (blockSlot_entry hdirect he)
  have htakes : Takes m f i .indirect _ _ _ := h.takeAddr_takes hi ht fun hempty => by
    have hind : slotAt m.disk (f i) .indirect = 0 := by
      rw [Slot.indirect, slotAt, hempty]
      rfl
    rw [lacking, if_pos (⟨hle, hind⟩ : _ ∧ _)] at hroom
    omega
  have hti : (update f i (m.takeAddr (f i) (Fin.last NDIRECT)).1 i).type ≠ 0 := by
    rwa [htakes.grows.type_eq]
  obtain ⟨x, m', heq, htakes'⟩ := htakes.alloc.takeEntry_takes (e := ⟨bn - NDIRECT, he⟩) hi hti
    htakes.slot htakes.ne_zero (by
      rw [htakes.others _ (by simp [Slot.indirect]), htakes.freeblock, ← hblock]
      intro hempty
      rw [lacking, if_pos hempty] at hroom
      simp only [hle, true_and] at hroom
      omega)
  refine ⟨x, _, m', ?_, Takes.found_entry hdirect he htakes htakes'⟩
  show Except.bind _ _ = _
  rw [show Image.takeEntry _ _ (bn - NDIRECT) = _ from heq]
  rfl

end

theorem takeAddr_empty {d : Dinode} (hempty : d.addrs j = 0)
    (hroom : m.freeblock ≤ FSSIZE) : ((m.takeAddr d j).1.addrs j).toNat = m.freeblock := by
  rw [Image.takeAddr, if_pos hempty]
  simp only [update_self, toNat_ofNat_of_le hroom]

/-- Without enough room, `blockFor` fails or goes behind the end of the
image. -/
theorem blockFor_full (h : Alloc m f) (hi : i < inodeSlots) (ht : (f i).type ≠ 0)
    (hbn : bn < MAXFILE) (hfull : FSSIZE < m.freeblock + lacking m.disk (f i) bn)
    {r : Nat × Dinode × Image} (hr : m.blockFor (f i) bn = .ok r) : r.1 = FSSIZE := by
  have hle := h.room
  have hzero : ∀ j, slotAt m.disk (f i) (.addr j) = 0 → (f i).addrs j = 0 :=
    fun j h0 => UInt32.toNat_inj.1 h0
  unfold Image.blockFor at hr
  by_cases hdirect : bn < NDIRECT
  · rw [dif_pos hdirect] at hr
    have hblock : blockOf m.disk (f i) bn = 0 ∧ m.freeblock = FSSIZE := by
      rw [lacking, if_neg (fun hand : _ ∧ _ => absurd hdirect (by omega))] at hfull
      split at hfull
      · rename_i h0
        exact ⟨h0, by omega⟩
      · omega
    rw [blockOf_eq (blockSlot_direct hdirect)] at hblock
    cases hr
    exact (takeAddr_empty (hzero _ hblock.1) hle).trans hblock.2
  rw [dif_neg hdirect] at hr
  obtain ⟨e, htaken, hr⟩ := bind_eq_ok.1 hr
  obtain rfl := pure_eq_ok.1 hr
  have he : bn - NDIRECT < NINDIRECT := by
    unfold MAXFILE at hbn
    omega
  have hblock := blockOf_eq (c := m.disk) (d := f i) (blockSlot_entry hdirect he)
  rw [lacking, hblock] at hfull
  simp only [Nat.le_of_not_lt hdirect, true_and] at hfull
  by_cases hind : slotAt m.disk (f i) .indirect = 0 ∧ m.freeblock = FSSIZE
  · have hread : ∀ m' : Image, m'.rsect FSSIZE = .error .die :=
      fun m' => Image.rsect_of_le le_rfl (by decide)
    rw [takeAddr_empty (hzero _ hind.1) hle, hind.2, Image.takeEntry, hread] at htaken
    cases htaken
  have htakes : Takes m f i .indirect _ _ _ := h.takeAddr_takes hi ht fun hempty => by
    refine lt_of_le_of_ne hle fun hlast => hind ⟨?_, hlast⟩
    rw [Slot.indirect, slotAt, hempty]
    rfl
  have hti : (update f i (m.takeAddr (f i) (Fin.last NDIRECT)).1 i).type ≠ 0 := by
    rwa [htakes.grows.type_eq]
  have heq := htakes.alloc.takeEntry_eq (e := ⟨bn - NDIRECT, he⟩) hi hti htakes.slot
    htakes.ne_zero
  have hlast : slotAt m.disk (f i) (.entry ⟨bn - NDIRECT, he⟩) = 0 ∧
      (m.takeAddr (f i) (Fin.last NDIRECT)).2.freeblock = FSSIZE := by
    have hroom := htakes.alloc.room
    rw [htakes.freeblock] at hroom ⊢
    by_cases h0 : slotAt m.disk (f i) (.entry ⟨bn - NDIRECT, he⟩) = 0
    · rw [if_pos h0] at hfull
      exact ⟨h0, by omega⟩
    · rw [if_neg h0] at hfull
      omega
  rw [htakes.others _ (by simp [Slot.indirect]), if_pos hlast.1, hlast.2] at heq
  cases htaken.symm.trans heq
  rfl

end Alloc

/-! ## Bytes of an inode -/

/-- The inode holds the bytes `l`, in exactly the blocks that it needs for
them; behind them its last block is clear. -/
structure Holds (c : Nat → Block) (d : Dinode) (l : List UInt8) : Prop where
  fits : l.length ≤ MAXFILE * BSIZE
  blocks : ∀ bn, bn < MAXFILE → (blockOf c d bn ≠ 0 ↔ bn * BSIZE < l.length)
  indirect : slotAt c d .indirect ≠ 0 ↔ NDIRECT * BSIZE < l.length
  bytes : ∀ x, byteAt c d x = l.getD x 0

/-- The number of blocks for `n` bytes. -/
def need (n : Nat) : Nat := (n + BSIZE - 1) / BSIZE + if NDIRECT * BSIZE < n then 1 else 0

namespace Holds

variable {c c' : Nat → Block} {d d' : Dinode} {l : List UInt8}

theorem congr (h : Holds c d l) (hslot : ∀ k, slotAt c' d' k = slotAt c d k)
    (hbytes : ∀ x, byteAt c' d' x = byteAt c d x) : Holds c' d' l where
  fits := h.fits
  blocks bn hbn := by
    rw [← h.blocks bn hbn]
    unfold blockOf
    split
    · rw [hslot]
    · rfl
  indirect := by rw [hslot, h.indirect]
  bytes x := by rw [hbytes, h.bytes]

theorem nil (hd : ∀ j, d.addrs j = 0) : Holds c d [] where
  fits := Nat.zero_le _
  blocks bn _ := by simp [blockOf_of_addrs_zero hd]
  indirect := by simp [slotAt_of_addrs_zero hd]
  bytes x := by simp [byteAt_of_addrs_zero hd]

/-- The blocks that a round lacks are those that its bytes need more. -/
theorem lacking_eq (h : Holds c d l) (hlt : l.length < MAXFILE * BSIZE) (hn : n ≠ 0) :
    need l.length + lacking c d (l.length / BSIZE) =
      need (l.length + Image.roundLength l.length n) := by
  have hlt : l.length < 268 * 1024 := hlt
  have hbn : l.length / BSIZE < MAXFILE := by
    show l.length / 1024 < 268
    omega
  have hblock := not_congr (h.blocks _ hbn)
  have hind := not_congr h.indirect
  rw [not_not] at hblock hind
  have hpos : 1 ≤ Image.roundLength l.length n ∧
      l.length + Image.roundLength l.length n ≤ (l.length / 1024 + 1) * 1024 := by
    unfold Image.roundLength BSIZE
    omega
  generalize Image.roundLength l.length n = n1 at hpos ⊢
  unfold lacking need
  simp only [hblock, hind]
  clear hblock hind
  show (l.length + 1024 - 1) / 1024 + (if 12 * 1024 < l.length then 1 else 0) +
    ((if ¬ l.length / 1024 * 1024 < l.length then 1 else 0) +
      if 12 ≤ l.length / 1024 ∧ ¬ 12 * 1024 < l.length then 1 else 0) =
    (l.length + n1 + 1024 - 1) / 1024 + if 12 * 1024 < l.length + n1 then 1 else 0
  split <;> split <;> split <;> split <;> omega

end Holds

/-! ## One round -/

/-- The blocks of every inode hold its bytes `g`, and an inode that is not
allocated is clear. -/
structure Built (m : Image) (f : Nat → Dinode) (g : Nat → List UInt8) : Prop
    extends Alloc m f where
  holds : ∀ i, i < inodeSlots → (f i).type ≠ 0 → Holds m.disk (f i) (g i)
  free : ∀ i, i < inodeSlots → (f i).type = 0 → f i = Dinode.zero ∧ g i = []

/-- The bytes `q` have been added to those of inode `i`, whose size has not
been changed yet. -/
structure Added (m : Image) (f : Nat → Dinode) (g : Nat → List UInt8) (i : Nat) (q : List UInt8)
    (m' : Image) (f' : Nat → Dinode) : Prop where
  built : Built m' f' (update g i (g i ++ q))
  others : ∀ j, j ≠ i → f' j = f j
  info : f' i = { f i with addrs := (f' i).addrs }
  below : ∀ b, b < sb.bmapstart → m'.sectors b = m.sectors b
  freeblock : m'.freeblock + need (g i).length = m.freeblock + need ((g i).length + q.length)
  freeinode : m'.freeinode = m.freeinode

theorem getD_append_eq (l q : List UInt8) (y : Nat) : (l ++ q).getD y 0 =
      if l.length ≤ y ∧ y < l.length + q.length then q.getD (y - l.length) 0 else l.getD y 0 := by
  simp only [getD_eq_getElem?_getD, getElem?_append]
  by_cases hlt : y < l.length
  · rw [if_pos hlt, if_neg (by omega)]
  rw [if_neg hlt]
  by_cases hin : y < l.length + q.length
  · rw [if_pos (by omega)]
  · rw [if_neg (by omega), getElem?_eq_none (by omega), getElem?_eq_none (by omega)]

section Round

variable {m m₁ : Image} {f f₁ : Nat → Dinode} {g : Nat → List UInt8} {i bn x : Nat}

/-- Image `m₂` is `m₁` with `v` in the block that has been found. -/
structure Found.Wrote (m : Image) (f : Nat → Dinode) (i bn : Nat) (m₁ : Image)
    (f₁ : Nat → Dinode) (v : Block) (m₂ : Image) : Prop where
  alloc : Alloc m₂ f₁
  grows : Grows areas i m.disk f m₂.disk f₁
  slots : ∀ k, slotAt m₂.disk (f₁ i) k = slotAt m₁.disk (f₁ i) k
  bytes : ∀ y, byteAt m₂.disk (f₁ i) y =
    if y / BSIZE = bn then v.get (y % BSIZE) else byteAt m.disk (f i) y
  below : ∀ b, b < sb.bmapstart → m₂.sectors b = m.sectors b
  freeblock : m₂.freeblock = m₁.freeblock
  freeinode : m₂.freeinode = m.freeinode

namespace Found

variable (h : Found m f i bn x m₁ f₁) (hi : i < inodeSlots) (ht : (f i).type ≠ 0)

include h hi ht

theorem bound : nmeta ≤ x ∧ x < m₁.freeblock := by
  have hti : (f₁ i).type ≠ 0 := by rwa [h.grows.type_eq]
  obtain ⟨k, -, -, hslot⟩ := exists_slot_of_blockOf_ne (h.block.trans_ne h.ne_zero)
  rw [h.block] at hslot
  rw [hslot]
  exact h.alloc.slot_bound hi hti (by rw [← hslot]; exact h.ne_zero)

theorem ne_bmapstart : x ≠ sb.bmapstart := by
  have hlo : 46 ≤ x := (h.bound hi ht).1
  show x ≠ 45
  omega

theorem rsect : m₁.rsect x = .ok (m₁.sectors x) :=
  Image.rsect_of_lt (lt_of_lt_of_le (h.bound hi ht).2 h.alloc.room)

/-- What was in the block before. -/
theorem get_sectors
    {y : Nat} (hy : y / BSIZE = bn) : (m₁.sectors x).get (y % BSIZE) = byteAt m.disk (f i) y := by
  rw [← h.bytes, byteAt, hy, h.block, if_neg h.ne_zero, Image.disk_of_ne (h.ne_bmapstart hi ht)]

theorem wrote (v : Block) : Wrote m f i bn m₁ f₁ v (m₁.wsect x v) := by
  have hti : (f₁ i).type ≠ 0 := by rwa [h.grows.type_eq]
  obtain ⟨hlo, hhi⟩ := h.bound hi ht
  have hlt : x < FSSIZE := lt_of_lt_of_le hhi h.alloc.room
  obtain ⟨k, hk, hne, hslot⟩ := exists_slot_of_blockOf_ne (h.block.trans_ne h.ne_zero)
  rw [h.block] at hslot
  have hdisk : (m₁.wsect x v).disk = update m₁.disk (slotAt m₁.disk (f₁ i) k) v := by
    rw [← hslot]
    exact Image.disk_wsect hlt (h.ne_bmapstart hi ht)
  have hnz : slotAt m₁.disk (f₁ i) k ≠ 0 := by
    rw [← hslot]
    exact h.ne_zero
  obtain ⟨hgrows, hslots⟩ := h.alloc.accounts.setData hi hti hne hnz v hdisk
  have hother : ∀ b, b ≠ x → (m₁.wsect x v).sectors b = m₁.sectors b := by
    intro b hb
    rw [Image.wsect_of_lt hlt]
    exact update_of_ne hb _ _
  refine ⟨⟨hgrows.accounts, h.alloc.room, fun b hb hbs => ?_⟩, h.grows.trans hgrows, hslots,
    fun y => ?_, fun b hb => ?_, rfl, h.freeinode⟩
  · have hb : m₁.freeblock ≤ b := hb
    rw [hother b (by omega)]
    exact h.alloc.fresh b hb hbs
  · rw [h.alloc.accounts.byteAt_setData hi hti hne hnz v hdisk]
    by_cases hy : y / BSIZE = bn
    · rw [if_pos hy, hy, if_pos hk]
    · rw [if_neg hy, if_neg fun heq => hy (blockSlot_inj heq hk), h.bytes]
  have hb : b < 45 := hb
  have hlo : 46 ≤ x := hlo
  have hbelow := h.grows.below b hb
  have hne : b ≠ sb.bmapstart := by
    show b ≠ 45
    omega
  rw [Image.disk_of_ne hne, Image.disk_of_ne hne] at hbelow
  rw [hother b (by omega), hbelow]

end Found

/-- The bytes of a round lie in one block of the file. -/
structure InBlock (off n : Nat) : Prop where
  pos : 0 < n
  fits : off < MAXFILE * BSIZE
  last : off + n ≤ (off / BSIZE + 1) * BSIZE

/-- The inode holds the bytes of a round, too. -/
theorem Found.Wrote.holds {m₂ : Image} {l : List UInt8} {buf : Block}
    (h : Found m f i (l.length / BSIZE) x m₁ f₁)
    (h' : Found.Wrote m f i (l.length / BSIZE) m₁ f₁ (buf.write (l.length % BSIZE) q) m₂)
    (hl : Holds m.disk (f i) l) (hq : InBlock l.length q.length)
    (hbuf : ∀ y, y / BSIZE = l.length / BSIZE → buf.get (y % BSIZE) = byteAt m.disk (f i) y) :
    Holds m₂.disk (f₁ i) (l ++ q) := by
  have hpos := hq.pos
  have hfits : l.length < 268 * 1024 := hq.fits
  have hlast : l.length + q.length ≤ (l.length / 1024 + 1) * 1024 := hq.last
  have hblockOf : ∀ bn, blockOf m₂.disk (f₁ i) bn = blockOf m₁.disk (f₁ i) bn := by
    intro bn
    unfold blockOf
    split
    · exact h'.slots _
    · rfl
  refine ⟨?_, fun bn hbn => ?_, ?_, fun y => ?_⟩
  · have hdiv : l.length / 1024 < 268 := Nat.div_lt_of_lt_mul (by omega)
    rw [length_append]
    exact le_trans hlast (Nat.mul_le_mul_right 1024 hdiv)
  · rw [hblockOf, length_append]
    by_cases heq : bn = l.length / BSIZE
    · have hlt : bn * 1024 < l.length + q.length := by
        have heq : bn = l.length / 1024 := heq
        omega
      rw [heq, h.block, ← heq]
      exact ⟨fun _ => hlt, fun _ => h.ne_zero⟩
    · rw [h.others bn heq, hl.blocks bn hbn]
      have heq : bn ≠ l.length / 1024 := heq
      show bn * 1024 < l.length ↔ bn * 1024 < l.length + q.length
      omega
  · rw [h'.slots, h.indirect, hl.indirect, length_append]
    show 12 * 1024 < l.length ∨ 12 ≤ l.length / 1024 ↔ 12 * 1024 < l.length + q.length
    omega
  rw [h'.bytes, getD_append_eq, ← hl.bytes]
  have hmod : y % BSIZE < BSIZE := Nat.mod_lt _ (by decide)
  by_cases hy : y / BSIZE = l.length / BSIZE
  · rw [if_pos hy, Buf.get_write _ _ _ hmod, hbuf y hy]
    have hy : y / 1024 = l.length / 1024 := hy
    have hiff : l.length % BSIZE ≤ y % BSIZE ∧ y % BSIZE < l.length % BSIZE + q.length ↔
        l.length ≤ y ∧ y < l.length + q.length := by
      show l.length % 1024 ≤ y % 1024 ∧ y % 1024 < l.length % 1024 + q.length ↔ _
      omega
    have hsub : y % BSIZE - l.length % BSIZE = y - l.length := by
      show y % 1024 - l.length % 1024 = y - l.length
      omega
    simp only [hiff, hsub]
  · rw [if_neg hy, if_neg]
    have hy : y / 1024 ≠ l.length / 1024 := hy
    omega

/-- A round adds the bytes that it writes. -/
theorem Found.Wrote.added {m₂ : Image} {buf : Block}
    (h : Found m f i ((g i).length / BSIZE) x m₁ f₁)
    (h' : Found.Wrote m f i ((g i).length / BSIZE) m₁ f₁ (buf.write ((g i).length % BSIZE) q) m₂)
    (hb : Built m f g) (hi : i < inodeSlots) (ht : (f i).type ≠ 0)
    (hq : InBlock (g i).length q.length)
    (hbuf : ∀ y, y / BSIZE = (g i).length / BSIZE → buf.get (y % BSIZE) = byteAt m.disk (f i) y)
    (hneed : need (g i).length + lacking m.disk (f i) ((g i).length / BSIZE) =
      need ((g i).length + q.length)) : Added m f g i q m₂ f₁ where
  built := by
    refine ⟨h'.alloc, fun j hj htj => ?_, fun j hj htj => ?_⟩
    · by_cases hji : j = i
      · rw [hji, update_self]
        exact Found.Wrote.holds h h' (hb.holds i hi ht) hq hbuf
      rw [h'.grows.type_eq] at htj
      rw [update_of_ne hji, h'.grows.others j hji]
      exact (hb.holds j hj htj).congr (h'.grows.keeps j hj htj hji) (h'.grows.bytes j hj htj hji)
    rw [h'.grows.type_eq] at htj
    have hji : j ≠ i := by
      rintro rfl
      exact ht htj
    rw [update_of_ne hji, h'.grows.others j hji]
    exact hb.free j hj htj
  others := h'.grows.others
  info := h'.grows.info
  below := h'.below
  freeblock := by
    rw [h'.freeblock, h.freeblock]
    omega
  freeinode := h'.freeinode

/-- Why a round fails, or the whole `iappend`: the file or the image would
be too big. -/
def TooBig (m : Image) (old new : Nat) : Prop :=
  MAXFILE * BSIZE < new ∨ FSSIZE + need old < m.freeblock + need new

theorem roundLength_pos (off : Nat) (hn : n ≠ 0) : 0 < Image.roundLength off n := by
  show 0 < min n ((off / 1024 + 1) * 1024 - off)
  omega

theorem roundLength_inBlock {off : Nat} (hfits : off < MAXFILE * BSIZE) (hn : n ≠ 0) :
    InBlock off (Image.roundLength off n) := by
  refine ⟨roundLength_pos off hn, hfits, ?_⟩
  show off + min n ((off / 1024 + 1) * 1024 - off) ≤ (off / 1024 + 1) * 1024
  omega

theorem roundLength_le (off n : Nat) : Image.roundLength off n ≤ n := Nat.min_le_left _ _

theorem Built.iappendRound_ends (hb : Built m f g) (hi : i < inodeSlots) (ht : (f i).type ≠ 0)
    (hp : p ≠ []) :
    Ends (TooBig m (g i).length ((g i).length + Image.roundLength (g i).length p.length))
      (m.iappendRound (f i) (g i).length p) fun r =>
        Added m f g i (p.take (Image.roundLength (g i).length p.length)) r.2 (update f i r.1) := by
  have hn : p.length ≠ 0 := fun h0 => hp (length_eq_zero_iff.1 h0)
  unfold Image.iappendRound
  by_cases hbn : (g i).length / BSIZE < MAXFILE
  · rw [if_pos hbn]
    have hfits : (g i).length < MAXFILE * BSIZE := by
      have hbn : (g i).length / 1024 < 268 := hbn
      show (g i).length < 268 * 1024
      omega
    have hneed := (hb.holds i hi ht).lacking_eq hfits hn
    by_cases hroom : m.freeblock + lacking m.disk (f i) ((g i).length / BSIZE) ≤ FSSIZE
    · obtain ⟨x, d', m₁, heq, hfound⟩ := hb.blockFor_found hi ht hbn hroom
      have hlen : (p.take (Image.roundLength (g i).length p.length)).length =
          Image.roundLength (g i).length p.length :=
        length_take_of_le (roundLength_le _ _)
      have hmod : (g i).length - (g i).length / BSIZE * BSIZE = (g i).length % BSIZE := by
        show (g i).length - (g i).length / 1024 * 1024 = (g i).length % 1024
        omega
      refine .ok (a := (d', m₁.wsect x ((m₁.sectors x).write ((g i).length % BSIZE)
        (p.take (Image.roundLength (g i).length p.length))))) ?_ ?_
      · rw [heq]
        show Except.bind (m₁.rsect x) _ = _
        rw [hfound.rsect hi ht, ← hmod]
        rfl
      refine Found.Wrote.added hfound (hfound.wrote hi ht _) hb hi ht ?_
        (fun y hy => hfound.get_sectors hi ht hy) ?_
      · rw [hlen]
        exact roundLength_inBlock hfits hn
      · rwa [hlen]
    · cases hfor : m.blockFor (f i) ((g i).length / BSIZE) with
      | error e => exact .error rfl (.inr (by omega))
      | ok r =>
        have hx := hb.blockFor_full hi ht hbn (by omega) hfor
        refine .error (e := .die) ?_ (.inr (by omega))
        show Except.bind (r.2.2.rsect r.1) _ = _
        rw [hx, Image.rsect_of_le le_rfl (by decide)]
        rfl
  · rw [if_neg hbn]
    refine .error rfl (Or.inl ?_)
    have hbn : ¬ (g i).length / 1024 < 268 := hbn
    have hfits : (g i).length ≤ 268 * 1024 := (hb.holds i hi ht).fits
    show 268 * 1024 < (g i).length + min p.length (((g i).length / 1024 + 1) * 1024 - (g i).length)
    omega

end Round

/-! ## The loop -/

theorem need_mono {a b : Nat} (h : a ≤ b) : need a ≤ need b := by
  unfold need
  have hdiv : (a + BSIZE - 1) / BSIZE ≤ (b + BSIZE - 1) / BSIZE :=
    Nat.div_le_div_right (by omega)
  split <;> split <;> omega

section Loop

variable {m m' m'' : Image} {f f' f'' : Nat → Dinode} {g : Nat → List UInt8} {i : Nat}

theorem TooBig.mono {old new new' : Nat} (h : TooBig m old new) (hle : new ≤ new') :
    TooBig m old new' := by
  have hneed := need_mono hle
  unfold TooBig at h ⊢
  omega

theorem Added.nil (hb : Built m f g) (hp : p = []) :
    (g i).length = (g i).length + p.length ∧ Added m f g i p m (update f i (f i)) := by
  subst hp
  rw [update_eq_self]
  refine ⟨rfl, ?_, fun _ _ => rfl, rfl, fun _ _ => rfl, rfl, rfl⟩
  rwa [append_nil, update_eq_self]

theorem Added.trans {q' : List UInt8} (h : Added m f g i q m' f')
    (h' : Added m' f' (update g i (g i ++ q)) i q' m'' f'') :
    Added m f g i (q ++ q') m'' f'' where
  built := by
    have hb := h'.built
    rwa [update_self, update_idem, append_assoc] at hb
  others j hj := by rw [h'.others j hj, h.others j hj]
  info := by rw [h'.info, h.info]
  below b hb := by rw [h'.below b hb, h.below b hb]
  freeblock := by
    have hnext := h'.freeblock
    have hfirst := h.freeblock
    simp only [update_self, length_append, Nat.add_assoc] at hnext ⊢
    omega
  freeinode := h'.freeinode.trans h.freeinode

/-- The loop adds all bytes, if they fit. -/
theorem Built.iappendFrom_ends (hb : Built m f g) (hi : i < inodeSlots) (ht : (f i).type ≠ 0)
    {fuel : Nat} (hfuel : p.length ≤ fuel) : Ends (TooBig m (g i).length ((g i).length + p.length))
      (m.iappendFrom (f i) (g i).length p fuel) fun r =>
        r.1 = (g i).length + p.length ∧ Added m f g i p r.2.2 (update f i r.2.1) := by
  induction fuel generalizing m f g p with
  | zero => exact .ok rfl (Added.nil hb (length_eq_zero_iff.1 (by omega)))
  | succ fuel ih =>
    rw [Image.iappendFrom]
    by_cases hp : p = []
    · rw [if_pos hp]
      exact .ok rfl (Added.nil hb hp)
    rw [if_neg hp]
    have hle := roundLength_le (g i).length p.length
    have hpos := roundLength_pos (g i).length fun h0 => hp (length_eq_zero_iff.1 h0)
    have hround := hb.iappendRound_ends hi ht hp
    generalize Image.roundLength (g i).length p.length = n at hle hpos hround ⊢
    refine (hround.mono (fun hbig => hbig.mono (by omega)) (fun _ hr => hr)).bind ?_
    rintro ⟨d, m₁⟩ hadd
    have htake : (p.take n).length = n := length_take_of_le hle
    have hlen : (update g i (g i ++ p.take n) i).length = (g i).length + n := by
      rw [update_self, length_append, htake]
    have hti : (update f i d i).type ≠ 0 := by rwa [hadd.info]
    have hrest : (p.drop n).length ≤ fuel := by
      rw [length_drop]
      omega
    have hnext := ih hadd.built hti hrest
    rw [hlen, update_self, length_drop] at hnext
    refine hnext.mono (fun hbig => ?_) ?_
    · have hfree := hadd.freeblock
      rw [htake] at hfree
      unfold TooBig at hbig ⊢
      rw [Nat.add_assoc, Nat.add_sub_cancel' hle] at hbig
      omega
    rintro ⟨off, d', m₂⟩ ⟨rfl, hadd'⟩
    rw [update_idem] at hadd'
    have hall := hadd.trans hadd'
    rw [take_append_drop] at hall
    exact ⟨by dsimp only; omega, hall⟩

end Loop

end Mkfs

end Xv6
