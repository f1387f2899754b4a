import Xv6.Fs.Overwrite
import Xv6.Log.Recovery

/-!
# The loop of `filewrite`

`filewrite` hands its bytes to `writei` in pieces and goes on until they are
all written or `writei` fails.  A `writei` that writes nothing does not count
as a failure, so that the loop goes round for ever when the disk is full, or
the source cannot be read, where a piece or a block starts.

The first part counts the free blocks: how many a range of a file still
needs, and that `writei` takes exactly the ones that it fills in.  The second
part says which places of the range the loop gets to, and the third derives
from this when `filewrite` returns.  All pieces are in one transaction, which
the log may not have room for.
-/

namespace Xv6

open Lib Function Finset Nat

namespace Fs

variable {I : List Event → Prop} {s s' : Kernel} {f : Nat → Dinode} {i ip : Nat}

/-! ## Blocks that a range needs -/

instance : Fintype Slot :=
  Fintype.ofEquiv (Fin (NDIRECT + 1) ⊕ Fin NINDIRECT)
    { toFun := fun
        | .inl j => .addr j
        | .inr e => .entry e
      invFun := fun
        | .addr j => .inl j
        | .entry e => .inr e
      left_inv := fun x => by cases x <;> rfl
      right_inv := fun k => by cases k <;> rfl }

/-- The slots of the blocks of the `n` bytes from `off` on, with the indirect
pointer if one of the blocks is behind it. -/
def Needs (off n : Nat) (k : Slot) : Prop :=
  ∃ bn, InRange off n bn ∧ (blockSlot bn = some k ∨ NDIRECT ≤ bn ∧ k = .indirect)

open Classical in
/-- The needed slots that are empty. -/
noncomputable def missing (c : Nat → Block) (d : Dinode) (off n : Nat) : Finset Slot :=
  Finset.univ.filter fun k => slotAt c d k = 0 ∧ Needs off n k

/-- The slots that were empty and are not any more. -/
def filled (c : Nat → Block) (d : Dinode) (c' : Nat → Block) (d' : Dinode) : Finset Slot :=
  Finset.univ.filter fun k => slotAt c d k = 0 ∧ slotAt c' d' k ≠ 0

/-- The free blocks. -/
def freeBlocks (sb : Superblock) (c : Nat → Block) : Finset Nat :=
  (Finset.range sb.size).filter fun b => used sb c b = false

/-- There are enough free blocks for the `n` bytes from `off` on. -/
def Room (sb : Superblock) (c : Nat → Block) (d : Dinode) (off n : Nat) : Prop :=
  (missing c d off n).card ≤ (freeBlocks sb c).card

variable {c : Nat → Block} {d : Dinode}

section Needs

variable {off m n : Nat} {k : Slot}

theorem InRange.mono (h : InRange off m i) (hle : m ≤ n) : InRange off n i := by
  obtain ⟨x, hlo, hhi, hx⟩ := h
  exact ⟨x, hlo, by omega, hx⟩

theorem Needs.mono (h : Needs off m k) (hle : m ≤ n) : Needs off n k := by
  obtain ⟨bn, hbn, hk⟩ := h
  exact ⟨bn, hbn.mono hle, hk⟩

theorem needs_add : Needs off (m + n) k ↔ Needs off m k ∨ Needs (off + m) n k := by
  constructor
  · rintro ⟨bn, ⟨x, hlo, hhi, hx⟩, hk⟩
    by_cases hxm : x < off + m
    · exact .inl ⟨bn, ⟨x, hlo, hxm, hx⟩, hk⟩
    · exact .inr ⟨bn, ⟨x, by omega, by omega, hx⟩, hk⟩
  · rintro (⟨bn, ⟨x, hlo, hhi, hx⟩, hk⟩ | ⟨bn, ⟨x, hlo, hhi, hx⟩, hk⟩)
    · exact ⟨bn, ⟨x, hlo, by omega, hx⟩, hk⟩
    · exact ⟨bn, ⟨x, by omega, by omega, hx⟩, hk⟩

theorem mem_missing : k ∈ missing c d off n ↔ slotAt c d k = 0 ∧ Needs off n k := by
  simp [missing]

theorem mem_filled {c c' : Nat → Block} {d d' : Dinode} :
    k ∈ filled c d c' d' ↔ slotAt c d k = 0 ∧ slotAt c' d' k ≠ 0 := by
  simp [filled]

theorem Room.mono {sb : Superblock} (h : Room sb c d off n) (hle : m ≤ n) : Room sb c d off m := by
  refine le_trans (Finset.card_le_card fun k hk => ?_) h
  rw [mem_missing] at hk ⊢
  exact ⟨hk.1, hk.2.mono hle⟩

/-- No bytes need no blocks. -/
theorem room_zero (sb : Superblock) (c : Nat → Block) (d : Dinode) : Room sb c d off 0 := by
  have hempty : missing c d off 0 = ∅ := by
    apply Finset.eq_empty_of_forall_notMem
    intro k hk
    obtain ⟨bn, ⟨x, hlo, hhi, -⟩, -⟩ := (mem_missing.1 hk).2
    omega
  rw [Room, hempty]
  exact Nat.zero_le _

/-- A slot of a block that is there is not empty. -/
theorem slotAt_of_needs (h : ∀ bn, InRange off n bn → blockOf c d bn ≠ 0) (hk : Needs off n k) :
    slotAt c d k ≠ 0 := by
  obtain ⟨bn, hbn, hslot | ⟨hle, rfl⟩⟩ := hk
  · have hne := h bn hbn
    rwa [blockOf_eq hslot] at hne
  · exact indirect_ne_zero_of_blockOf hle (h bn hbn)

end Needs

/-- Every slot but the indirect pointer is that of a file block. -/
theorem exists_blockSlot {k : Slot} (h : k ≠ .indirect) : ∃ bn, blockSlot bn = some k := by
  cases k with
  | addr j =>
    have hj : j.val < NDIRECT := by
      by_contra hlt
      have hlast : j = Fin.last NDIRECT := by
        apply Fin.ext
        rw [Fin.val_last]
        omega
      exact h (by rw [hlast]; rfl)
    exact ⟨j, by rw [blockSlot, dif_pos hj]⟩
  | entry e =>
    refine ⟨NDIRECT + e, ?_⟩
    have he : NDIRECT + e.val - NDIRECT < NINDIRECT := by
      have := e.isLt
      omega
    rw [blockSlot, dif_neg (by omega), dif_pos he]
    simp

/-! ## What `writei` takes -/

section Wrote

variable {src : Nat → Option UInt8} {off n k : Nat} {u : List Event} {c' : Nat → Block}
  {f' : Nat → Dinode} {tail : List UInt8}

/-- The slots of all inodes keep the blocks they have. -/
theorem Wrote.owners_keep (h : Wrote s f ip i src off n k s' u c' f') (hi : i < s.sb.ninodes)
    (ht : (f i).type ≠ 0) (o : Nat × Slot) (ho : owners s.sb s.cache f o ≠ 0) :
    owners s.sb c' f' o = owners s.sb s.cache f o := by
  obtain ⟨j, k'⟩ := o
  by_cases hin : j < s.sb.ninodes ∧ (f j).type ≠ 0
  · rw [Accounts.owners_eq hin.1 hin.2] at ho ⊢
    by_cases hj : j = i
    · subst hj
      have ht' : (f' j).type ≠ 0 := by rwa [h.info]
      rw [Accounts.owners_eq hin.1 ht', h.slots k' ho]
    · rw [Accounts.owners_eq hin.1 (by rw [h.update.others j hj]; exact hin.2),
        h.update.others j hj, h.update.keeps j hin.1 hin.2 hj]
  · rw [owners, if_neg hin] at ho
    exact absurd rfl ho

/-- A slot that is filled is one of the inode that is written. -/
theorem Wrote.filled_owner (h : Wrote s f ip i src off n k s' u c' f') (hi : i < s.sb.ninodes)
    (ht : (f i).type ≠ 0) {o : Nat × Slot} (hempty : owners s.sb s.cache f o = 0)
    (ho : owners s.sb c' f' o ≠ 0) : o.1 = i ∧ o.2 ∈ filled s.cache (f i) c' (f' i) ∧
      owners s.sb c' f' o = slotAt c' (f' i) o.2 := by
  obtain ⟨j, k'⟩ := o
  by_cases hj : j = i
  · subst hj
    have ht' : (f' j).type ≠ 0 := by rwa [h.info]
    rw [Accounts.owners_eq hi ht] at hempty
    rw [Accounts.owners_eq hi ht'] at ho ⊢
    exact ⟨rfl, mem_filled.2 ⟨hempty, ho⟩, rfl⟩
  exfalso
  apply ho
  rw [owners, h.update.others j hj]
  split
  · rename_i hin
    rw [h.update.keeps j hin.1 hin.2 hj]
    rwa [Accounts.owners_eq hin.1 hin.2] at hempty
  · rfl

variable (h : Wrote s f ip i src off n k s' u c' f') (hacc : Accounts s.sb s.cache f)
  (hi : i < s.sb.ninodes) (ht : (f i).type ≠ 0)

include h hacc hi ht in
/-- The blocks that are not free any more are those in the filled slots. -/
theorem Wrote.freeBlocks_eq : freeBlocks s.sb s.cache = freeBlocks s.sb c' ∪
      (filled s.cache (f i) c' (f' i)).image (slotAt c' (f' i)) := by
  have hacc' := h.update.accounts
  have ht' : (f' i).type ≠ 0 := by rwa [h.info]
  have hkeep := h.owners_keep hi ht
  ext b
  simp only [freeBlocks, Finset.mem_union, Finset.mem_filter, Finset.mem_range, Finset.mem_image]
  constructor
  · rintro ⟨hlt, hfree⟩
    have hdata : s.sb.IsData b := by
      refine ⟨?_, hlt⟩
      by_contra hmeta
      rw [hacc.reserved b (by omega)] at hfree
      cases hfree
    cases hused : used s.sb c' b with
    | false => exact .inl ⟨hlt, rfl⟩
    | true =>
      rcases (hacc.exact.used_iff_of_filled hacc'.exact hkeep hdata).1 hused with hold | ⟨o, h0, ho⟩
      · rw [hfree] at hold
        cases hold
      · obtain ⟨-, hmem, heq⟩ := h.filled_owner hi ht h0 (by rw [ho]; exact hdata.ne_zero)
        exact .inr ⟨o.2, hmem, by rw [← heq, ho]⟩
  rintro (⟨hlt, hfree⟩ | ⟨k', hk', rfl⟩)
  · refine ⟨hlt, ?_⟩
    by_cases hmeta : b < s.sb.nmeta
    · rw [hacc'.reserved b hmeta] at hfree
      cases hfree
    cases hused : used s.sb s.cache b with
    | false => rfl
    | true =>
      have hnew := (hacc.exact.used_iff_of_filled hacc'.exact hkeep ⟨by omega, hlt⟩).2
        (.inl hused)
      rw [hnew] at hfree
      cases hfree
  · obtain ⟨h0, hne⟩ := mem_filled.1 hk'
    have hempty : owners s.sb s.cache f (i, k') = 0 := by rw [Accounts.owners_eq hi ht, h0]
    have hval : owners s.sb c' f' (i, k') = slotAt c' (f' i) k' := Accounts.owners_eq hi ht' k'
    have hfree := hacc.exact.not_used_of_filled hacc'.exact hkeep hempty (by rw [hval]; exact hne)
    rw [hval] at hfree
    exact ⟨(hacc'.slot_sound hi ht' hne).1.2, by simpa using hfree⟩

include h hacc hi ht in
/-- `writei` takes one free block for every slot that it fills. -/
theorem Wrote.free_card : (freeBlocks s.sb s.cache).card =
      (freeBlocks s.sb c').card + (filled s.cache (f i) c' (f' i)).card := by
  have ht' : (f' i).type ≠ 0 := by rwa [h.info]
  rw [h.freeBlocks_eq hacc hi ht, Finset.card_union_of_disjoint, Finset.card_image_of_injOn]
  · intro k1 hk1 k2 _ heq
    exact (h.update.accounts.slot_inj hi ht' hi ht' (mem_filled.1 hk1).2 heq).2
  rw [disjoint_left]
  intro b hb himage
  obtain ⟨k', hk', rfl⟩ := mem_image.1 himage
  have hused := (h.update.accounts.slot_sound hi ht' (mem_filled.1 hk').2).2
  rw [(mem_filter.1 hb).2] at hused
  cases hused

/-- What has been written has its blocks. -/
theorem Wrote.slotAt_written (h : Wrote s f ip i src off n k s' u c' f') {k' : Slot}
    (hk : Needs off k k') : slotAt c' (f' i) k' ≠ 0 := by
  refine slotAt_of_needs (fun bn hbn => ?_) hk
  obtain ⟨x, hlo, hhi, rfl⟩ := hbn
  apply h.covered.2
  have hx := Nat.div_mul_le_self x BSIZE
  rw [h.size]
  omega

include h hacc hi ht in
/-- There was room for what has been written. -/
theorem Wrote.room : Room s.sb s.cache (f i) off k := by
  have hsub : missing s.cache (f i) off k ⊆ filled s.cache (f i) c' (f' i) := by
    intro k' hk'
    obtain ⟨h0, hneeds⟩ := mem_missing.1 hk'
    exact mem_filled.2 ⟨h0, h.slotAt_written hneeds⟩
  have hcard := h.free_card hacc hi ht
  have hle := Finset.card_le_card hsub
  unfold Room
  omega

section

variable (hend : Ended s f i src 0 off n k c' f' tail) (h : Wrote s f ip i src off n k s' u c' f')

include hend h

/-- The slots that are filled are needed for the bytes up to the first that
was not written. -/
theorem Ended.filled_needs {k' : Slot}
    (hk' : k' ∈ filled s.cache (f i) c' (f' i)) : Needs off (k + 1) k' := by
  obtain ⟨h0, hne⟩ := mem_filled.1 hk'
  by_cases hind : k' = .indirect
  · subst hind
    refine ⟨(off + k) / BSIZE, ⟨off + k, by omega, by omega, rfl⟩, .inr ⟨?_, rfl⟩⟩
    by_contra hlt
    rw [hend.indirect (by omega)] at hne
    exact hne h0
  obtain ⟨bn, hbn⟩ := exists_blockSlot hind
  have hblock : blockOf c' (f' i) bn ≠ blockOf s.cache (f i) bn := by
    rwa [blockOf_eq hbn, blockOf_eq hbn, h0]
  -- the block is one of those that were asked for, up to the last that was looked at
  have hin : InRange off n bn := by
    by_contra hout
    exact hblock (h.others bn hout)
  have hle : bn ≤ (off + k) / BSIZE := by
    by_contra hlt
    exact hblock (hend.ahead bn (by omega))
  obtain ⟨x, hlo, hhi, hx⟩ := hin
  refine ⟨bn, ?_, .inl hbn⟩
  by_cases hxk : x ≤ off + k
  · exact ⟨x, hlo, by omega, hx⟩
  refine ⟨off + k, by omega, by omega, ?_⟩
  have hmono : (off + k) / BSIZE ≤ x / BSIZE := Nat.div_le_div_right (by omega)
  omega

/-- Room for the bytes that follow, after and before. -/
theorem Ended.room_iff (hacc : Accounts s.sb s.cache f)
    (hi : i < s.sb.ninodes) (ht : (f i).type ≠ 0) (q : Nat) :
    Room s.sb c' (f' i) (off + k) (q + 1) ↔ Room s.sb s.cache (f i) off (k + (q + 1)) := by
  have hsub : filled s.cache (f i) c' (f' i) ⊆ missing s.cache (f i) off (k + (q + 1)) := by
    intro k' hk'
    exact mem_missing.2 ⟨(mem_filled.1 hk').1, (hend.filled_needs h hk').mono (by omega)⟩
  have heq : missing c' (f' i) (off + k) (q + 1) =
      missing s.cache (f i) off (k + (q + 1)) \ filled s.cache (f i) c' (f' i) := by
    ext k'
    rw [Finset.mem_sdiff, mem_missing, mem_missing, mem_filled]
    constructor
    · rintro ⟨h0, hneeds⟩
      have hold : slotAt s.cache (f i) k' = 0 := by
        by_contra hne
        rw [h.slots k' hne] at h0
        exact hne h0
      exact ⟨⟨hold, needs_add.2 (.inr hneeds)⟩, fun hfilled => hfilled.2 h0⟩
    rintro ⟨⟨h0, hneeds⟩, hnot⟩
    have hnew : slotAt c' (f' i) k' = 0 := by
      by_contra hne
      exact hnot ⟨h0, hne⟩
    refine ⟨hnew, ?_⟩
    rcases needs_add.1 hneeds with hneeds | hneeds
    · exact absurd hnew (h.slotAt_written hneeds)
    · exact hneeds
  have hcard := h.free_card hacc hi ht
  unfold Room
  rw [heq, Finset.card_sdiff_of_subset hsub]
  omega

/-- On a full disk there is no room for the next byte. -/
theorem Ended.not_room (hacc : Accounts s.sb s.cache f)
    (hi : i < s.sb.ninodes) (ht : (f i).type ≠ 0) (hmax : k < n)
    (hblock : blockOf c' (f' i) ((off + k) / BSIZE) = 0) (hfull : DiskFull s.sb c') :
    ¬ Room s.sb s.cache (f i) off (k + 1) := by
  rw [← hend.room_iff h hacc hi ht 0]
  have hnone : freeBlocks s.sb c' = ∅ := by
    apply Finset.eq_empty_of_forall_notMem
    intro b hb
    obtain ⟨hlt, hfree⟩ := mem_filter.1 hb
    rw [hfull b (mem_range.1 hlt)] at hfree
    cases hfree
  -- the slot of the block is needed and empty
  have hbn : (off + k) / BSIZE < MAXFILE := by
    rw [Nat.div_lt_iff_lt_mul (by decide)]
    have := h.start.2
    omega
  obtain ⟨k', hk'⟩ : ∃ k', blockSlot ((off + k) / BSIZE) = some k' := by
    unfold blockSlot
    split
    · exact ⟨_, rfl⟩
    rw [dif_pos (by unfold MAXFILE at hbn; omega)]
    exact ⟨_, rfl⟩
  have hmem : k' ∈ missing c' (f' i) (off + k) (0 + 1) := by
    rw [blockOf_eq hk'] at hblock
    exact mem_missing.2 ⟨hblock, _, ⟨off + k, by omega, by omega, rfl⟩, .inl hk'⟩
  rw [Room, hnone, Finset.card_empty]
  have hpos := card_pos.2 ⟨k', hmem⟩
  omega

end

end Wrote

/-! ## Where the loop gets to -/

/-- The first `p` bytes of the source can be read, and there is room for them
in the file. -/
def Fits (sb : Superblock) (c : Nat → Block) (d : Dinode) (src : Nat → Option UInt8)
    (off p : Nat) : Prop := (copyin src 0 p).length = p ∧ Room sb c d off p

theorem Fits.mono {sb : Superblock} {src : Nat → Option UInt8}
    {off p q : Nat} (h : Fits sb c d src off q) (hle : p ≤ q) : Fits sb c d src off p := by
  refine ⟨?_, h.2.mono hle⟩
  have hadd := copyin_add src 0 p (q - p)
  rw [Nat.add_sub_cancel' hle] at hadd
  have hq := h.1
  by_contra hshort
  rw [if_neg hshort] at hadd
  have hlen := copyin_length_le src 0 p
  rw [hadd] at hq
  omega

/-- The piece of a write of `n` bytes that starts at `p` goes beyond the
largest file. -/
def TooLong (off n p : Nat) : Prop := MAXFILE * BSIZE < off + min n (p + writeMax)

/-- A loop that is at byte `w` of `n` gets to its end, or to a piece that is
too long.  `fits p` says that the first `p` bytes can be written. -/
def Leaves (fits : Nat → Prop) (off n w : Nat) : Prop :=
  ∃ p, w ≤ p ∧ p ≤ n ∧ fits p ∧
    (p = n ∨ ((p - w) % writeMax = 0 ∨ (off + p) % BSIZE = 0) ∧ TooLong off n p)

section Leaves

variable {fits : Nat → Prop} {off n w k : Nat}

theorem TooLong.mono {p q : Nat} (h : TooLong off n p) (hle : p ≤ q) : TooLong off n q := by
  unfold TooLong at *
  omega

/-- A piece of which `k` bytes could be written, and no more. -/
theorem leaves_iff_of_short (hmono : ∀ p q, p ≤ q → fits q → fits p) (hk : fits (w + k))
    (hlt : k < min (n - w) writeMax) (hbound : k = 0 ∨ (off + (w + k)) % BSIZE = 0)
    (hnot : ¬ fits (w + k + chunk (off + (w + k)) (min (n - w) writeMax - k))) {v : Nat}
    (hv : v = w ∨ v = w + k) : Leaves fits off n v ↔ TooLong off n (w + k) := by
  have hchunk : chunk (off + (w + k)) (min (n - w) writeMax - k) ≤
    min (n - w) writeMax - k := chunk_le
  constructor
  · rintro ⟨p, hlo, hhi, hp, hleave⟩
    have hend : p < w + k + chunk (off + (w + k)) (min (n - w) writeMax - k) := by
      by_contra hge
      exact hnot (hmono _ p (by omega) hp)
    rcases hleave with rfl | ⟨hplace, hlong⟩
    · omega
    refine hlong.mono ?_
    -- no piece and no block starts inside a chunk
    by_contra hgt
    have hin := (div_of_chunk (x := off + p) (by omega) (show off + p < off + (w + k) +
      chunk (off + (w + k)) (min (n - w) writeMax - k) by omega)).2
    rcases hplace with hpiece | hblock
    · rw [Nat.mod_eq_of_lt (by omega)] at hpiece
      omega
    · omega
  · intro hlong
    refine ⟨w + k, by omega, by omega, hk, .inr ⟨?_, hlong⟩⟩
    rcases hbound with rfl | hblock
    · left
      have hzero : w + 0 - v = 0 := by omega
      rw [hzero, Nat.zero_mod]
    · exact .inr hblock

/-- A piece that could be written. -/
theorem leaves_iff_of_whole (hk : fits (w + min (n - w) writeMax)) (hlt : w < n) :
    Leaves fits off n w ↔ Leaves fits off n (w + min (n - w) writeMax) := by
  by_cases hlast : n - w ≤ writeMax
  · have hend : w + min (n - w) writeMax = n := by omega
    rw [hend] at hk ⊢
    exact iff_of_true ⟨n, by omega, le_refl n, hk, .inl rfl⟩
      ⟨n, le_refl n, le_refl n, hk, .inl rfl⟩
  have hmin : min (n - w) writeMax = writeMax := by omega
  rw [hmin] at hk ⊢
  have hsame : ∀ p, w + writeMax ≤ p → (p - w) % writeMax = (p - (w + writeMax)) % writeMax := by
    intro p hp
    rw [show p - w = p - (w + writeMax) + writeMax by omega, Nat.add_mod_right]
  constructor
  · rintro ⟨p, hlo, hhi, hp, hleave⟩
    by_cases hnext : w + writeMax ≤ p
    · rw [hsame p hnext] at hleave
      exact ⟨p, hnext, hhi, hp, hleave⟩
    -- the piece that follows is too long as well
    refine ⟨w + writeMax, le_refl _, by omega, hk, .inr ⟨.inl ?_, ?_⟩⟩
    · rw [Nat.sub_self, Nat.zero_mod]
    rcases hleave with rfl | ⟨-, hlong⟩
    · omega
    · exact hlong.mono (by omega)
  · rintro ⟨p, hlo, hhi, hp, hleave⟩
    rw [← hsame p hlo] at hleave
    exact ⟨p, by omega, hhi, hp, hleave⟩

end Leaves

/-! ## The rounds of the loop -/

/-- Only events of the block layer. -/
def Plain (u : List Event) : Prop := ∀ e ∈ u, e = .hole ∨ ∃ x, e = .logWrite x

theorem Plain.append {u v : List Event} (hu : Plain u) (hv : Plain v) : Plain (u ++ v) := by
  intro e he
  rcases List.mem_append.1 he with he | he
  · exact hu e he
  · exact hv e he

section Loop

variable (s₀ : Kernel) (f₀ : Nat → Dinode) (i ip : Nat) (fi : Fin NFILE)
  (src : Nat → Option UInt8) (off : Nat)

/-- The loop has written the first `w` bytes of the source from `off` on; it
started with `s₀` and the inodes `f₀`. -/
structure Writing (w : Nat) (s : Kernel) (f : Nat → Dinode) : Prop where
  accounts : Accounts s.sb s.cache f
  sb : s.sb = s₀.sb
  entry : s.itable ip = { s₀.itable ip with toDinode := f i }
  type : (f i).type ≠ 0
  covered : Covered s.cache (f i)
  offset : (s.ftable fi).off.toNat = off + w
  size : (f i).size.toNat = max (f₀ i).size.toNat (off + w)
  bytes : ∀ x, x < w → src x = some (byteAt s.cache (f i) (off + x))
  room : Room s₀.sb s₀.cache (f₀ i) off w
  ahead : ∀ q, Room s.sb s.cache (f i) (off + w) (q + 1) ↔
    Room s₀.sb s₀.cache (f₀ i) off (w + (q + 1))

variable {s₀ f₀ i ip fi src off} {w k n : Nat} {tail : List UInt8} {u : List Event}
  {s : Kernel} {f f' : Nat → Dinode} {c' : Nat → Block}

theorem Writing.readable (h : Writing s₀ f₀ i ip fi src off w s f) :
    (copyin src 0 w).length = w := by
  apply copyin_length
  intro x hx
  rw [zero_add, h.bytes x hx]
  rfl

/-- What has been written fits. -/
theorem Writing.fits (h : Writing s₀ f₀ i ip fi src off w s f) :
    Fits s₀.sb s₀.cache (f₀ i) src off w := ⟨h.readable, h.room⟩

section

variable (h : Writing s₀ f₀ i ip fi src off w s f) (hi : i < s₀.sb.ninodes)
  (hw : Wrote s f ip i (fun j => src (w + j)) (off + w) n k s' u c' f')
  (hend : Ended s f i (fun j => src (w + j)) 0 (off + w) n k c' f' tail)

include h hi hw hend

/-- One `writei` brings the loop `k` bytes further. -/
theorem Writing.next : Writing s₀ f₀ i ip fi src off (w + k) (s'.setFile fi { s'.ftable fi with
      off := (s'.ftable fi).off + UInt32.ofNat k }) f' := by
  have hi' : i < s.sb.ninodes := by rwa [h.sb]
  have hmax := hw.start.2
  have hle := hw.le
  have hstate := hw.state
  have hroom := hw.room h.accounts hi' h.type
  refine ⟨?_, ?_, ?_, ?_, ?_, ?_, ?_, ?_, ?_, ?_⟩
  · show Accounts s'.sb s'.cache f'
    rw [hstate, Kernel.put_sb, Kernel.put_cache]
    exact hw.update.accounts
  · show s'.sb = s₀.sb
    rw [hstate, Kernel.put_sb, h.sb]
  · show s'.itable ip = _
    rw [hstate, Kernel.put_itable_self, h.entry]
  · rw [hw.info]
    exact h.type
  · show Covered s'.cache (f' i)
    rw [hstate, Kernel.put_cache]
    exact hw.covered
  · have hft : s'.ftable = s.ftable := by
      rw [hstate]
      rfl
    have hk : (UInt32.ofNat k).toNat = k := by
      rw [UInt32.toNat_ofNat', Nat.mod_eq_of_lt]
      unfold MAXFILE NDIRECT NINDIRECT BSIZE at hmax
      omega
    simp only [Kernel.setFile, update_self, hft]
    rw [UInt32.toNat_add, hk, h.offset, Nat.mod_eq_of_lt, Nat.add_assoc]
    unfold MAXFILE NDIRECT NINDIRECT BSIZE at hmax
    omega
  · rw [hw.size, h.size]
    omega
  · intro x hx
    show _ = some (byteAt s'.cache (f' i) (off + x))
    rw [hstate, Kernel.put_cache]
    by_cases hlt : x < w
    · rw [hw.outside (off + x) (.inl (by omega))]
      exact h.bytes x hlt
    · have hbyte := hw.inside (off + x) (by omega) (by omega)
      rwa [show w + (off + x - (off + w)) = x by omega] at hbyte
  · cases k with
    | zero => exact h.room
    | succ q => exact (h.ahead q).1 hroom
  · intro q
    show Room s'.sb s'.cache (f' i) (off + (w + k)) (q + 1) ↔ _
    rw [hstate, Kernel.put_sb, Kernel.put_cache, ← Nat.add_assoc,
      hend.room_iff hw h.accounts hi' h.type q, show k + (q + 1) = k + q + 1 by omega,
      h.ahead (k + q), show w + (k + q + 1) = w + k + (q + 1) by omega]

/-- Where `writei` stops, the next chunk does not fit. -/
theorem Writing.not_fits (hlt : k < n) :
    ¬ Fits s₀.sb s₀.cache (f₀ i) src off (w + k + chunk (off + (w + k)) (n - k)) := by
  have hi' : i < s.sb.ninodes := by rwa [h.sb]
  have hpos : 0 < chunk (off + (w + k)) (n - k) := chunk_pos (by omega)
  have hstop := hend.stop
  rw [Nat.zero_add, Nat.add_assoc] at hstop
  cases hstop with
  | finished hm => omega
  | full hm hblock hfull =>
    rw [← Nat.add_assoc] at hblock
    intro hfits
    apply hend.not_room hw h.accounts hi' h.type hlt hblock hfull
    rw [h.ahead k]
    exact hfits.2.mono (by omega)
  | source hm hblock hlen =>
    intro hfits
    rw [copyin_shift] at hlen
    have hfirst := (h.next hi hw hend).readable
    have hadd := copyin_add src 0 (w + k) (chunk (off + (w + k)) (n - k))
    rw [if_pos hfirst, Nat.zero_add] at hadd
    have hall := hfits.1
    rw [hadd, List.length_append, hfirst] at hall
    omega

end

/-- The bytes of one round. -/
theorem TooLong.iff_piece (hlt : w < n) :
    TooLong off n w ↔ MAXFILE * BSIZE < off + w + min (n - w) writeMax := by
  unfold TooLong
  omega

/-- The rule for one round of the loop: it ends at a piece that is too long,
and goes on behind any other. -/
theorem filewriteFrom_round {rounds : Nat} {Q : Nat → Kernel → List Event → Prop}
    (h : Writing s₀ f₀ i ip fi src off w s f) (hi : i < s₀.sb.ninodes)
    (hinum : (s₀.itable ip).inum = i) (hlt : w < n) (hstop : TooLong off n w → Q w s [])
    (hnext : ∀ k s' f' u, ¬ TooLong off n w → Writing s₀ f₀ i ip fi src off (w + k) s' f' →
      w + k ≤ n → Plain u → (Leaves (Fits s₀.sb s₀.cache (f₀ i) src off) off n w ↔
        Leaves (Fits s₀.sb s₀.cache (f₀ i) src off) off n (w + k)) →
      (k = 0 → ¬ Leaves (Fits s₀.sb s₀.cache (f₀ i) src off) off n w) →
      Spec (fun v => I (u ++ v)) DoubleFree (filewriteFrom fi ip src n rounds (w + k)) s'
        fun w' s'' v => Q w' s'' (u ++ v)) :
    Spec I DoubleFree (filewriteFrom fi ip src n (rounds + 1) w) s Q := by
  have hi' : i < s.sb.ninodes := by rwa [h.sb]
  have hip : (s.itable ip).toDinode = f i := by rw [h.entry]
  have hinum' : (s.itable ip).inum = i := by rwa [h.entry]
  have hsize := h.size
  have hmax := h.covered.1
  rw [filewriteFrom, if_pos hlt]
  refine .bind (P := fun o s' u => o.toNat = off + w ∧ s' = s ∧ u = [])
    (Spec.read ⟨h.offset, rfl, rfl⟩) ?_
  rintro o s1 u1 ⟨ho, rfl, rfl⟩
  rw [ho]
  refine (writei_ends h.accounts hi' h.type hip hinum' h.covered).bind ?_
  rintro r s2 u2 (⟨rfl, rfl, rfl, hrefused⟩ | ⟨k, c', f', tail, rfl, hw, hend⟩)
  · rw [if_pos (by decide)]
    refine .pure (hstop ((TooLong.iff_piece hlt).2 ?_))
    have hfit : (off + w + min (n - w) writeMax) % 2 ^ 32 =
        off + w + min (n - w) writeMax := by
      apply Nat.mod_eq_of_lt
      unfold MAXFILE NDIRECT NINDIRECT BSIZE writeMax MAXOPBLOCKS BSIZE at *
      omega
    omega
  rw [if_neg (by omega), Int.toNat_natCast]
  have hle := hw.le
  have hlong : ¬ TooLong off n w := by
    rw [TooLong.iff_piece hlt]
    have := hw.start.2
    omega
  have hwriting := h.next hi hw hend
  refine .modify_bind rfl ?_
  simp only [List.nil_append]
  have hmono : ∀ p q, p ≤ q → Fits s₀.sb s₀.cache (f₀ i) src off q →
      Fits s₀.sb s₀.cache (f₀ i) src off p := fun p q hle hq => hq.mono hle
  by_cases hwhole : k = min (n - w) writeMax
  · refine hnext k _ f' u2 hlong hwriting (by omega) hw.plain ?_ ?_
    · have hfits := hwriting.fits
      rw [hwhole] at hfits ⊢
      exact leaves_iff_of_whole hfits hlt
    intro hk
    have hpos : 0 < writeMax := by decide
    omega
  have hshort : k < min (n - w) writeMax := by omega
  have hbound : k = 0 ∨ (off + (w + k)) % BSIZE = 0 := by
    have := hend.boundary
    rw [← Nat.add_assoc]
    omega
  have hnot := h.not_fits hi hw hend hshort
  have hiff : ∀ v, v = w ∨ v = w + k → (_ ↔ TooLong off n (w + k)) :=
    fun v => leaves_iff_of_short (v := v) hmono hwriting.fits hshort hbound hnot
  refine hnext k _ f' u2 hlong hwriting (by omega) hw.plain ?_ ?_
  · rw [hiff w (Or.inl rfl), hiff (w + k) (Or.inr rfl)]
  rintro rfl
  rw [hiff w (Or.inl rfl)]
  exact hlong

section

variable (rounds : Nat) (h : Writing s₀ f₀ i ip fi src off w s f) (hi : i < s₀.sb.ninodes)
  (hinum : (s₀.itable ip).inum = i) (hle : w ≤ n)

include rounds h hi hinum hle

/-- A loop that can leave does so. -/
theorem filewriteFrom_leaves
    (hleaves : Leaves (Fits s₀.sb s₀.cache (f₀ i) src off) off n w) (hrounds : n - w ≤ rounds) :
    Spec I DoubleFree (filewriteFrom fi ip src n rounds w) s fun w' s' u =>
      (∃ f', Writing s₀ f₀ i ip fi src off w' s' f') ∧ w' ≤ n ∧ Plain u := by
  induction rounds generalizing I w s f with
  | zero =>
    rw [filewriteFrom, if_neg (by omega)]
    exact .pure ⟨⟨f, h⟩, hle, fun e he => by cases he⟩
  | succ rounds ih =>
    by_cases hlt : w < n
    · refine filewriteFrom_round h hi hinum hlt (fun _ => ⟨⟨f, h⟩, hle, fun e he => by cases he⟩) ?_
      intro k s' f' u _ hnext hle' hu hsame hzero
      have hk : k ≠ 0 := fun h0 => hzero h0 hleaves
      refine (ih hnext hle' (hsame.1 hleaves) (by omega)).mono ?_
      rintro w' s'' v ⟨hwriting, hw', hv⟩
      exact ⟨hwriting, hw', hu.append hv⟩
    · rw [filewriteFrom, if_neg hlt]
      exact .pure ⟨⟨f, h⟩, hle, fun e he => by cases he⟩

/-- A loop that cannot leave never does. -/
theorem filewriteFrom_spins (hleaves : ¬ Leaves (Fits s₀.sb s₀.cache (f₀ i) src off) off n w) :
    Spec (fun _ => True) DoubleFree (filewriteFrom fi ip src n rounds w) s fun _ _ _ => False := by
  have hlt : ∀ {w s f}, Writing s₀ f₀ i ip fi src off w s f → w ≤ n →
      ¬ Leaves (Fits s₀.sb s₀.cache (f₀ i) src off) off n w → w < n := by
    intro w s f h hle hleaves
    by_contra hge
    obtain rfl : w = n := by omega
    exact hleaves ⟨w, le_refl w, le_refl w, h.fits, .inl rfl⟩
  induction rounds generalizing w s f with
  | zero =>
    rw [filewriteFrom, if_pos (hlt h hle hleaves)]
    exact .spin trivial
  | succ rounds ih =>
    refine filewriteFrom_round h hi hinum (hlt h hle hleaves) (fun hlong => ?_) ?_
    · refine hleaves ⟨w, le_refl w, hle, h.fits, .inr ⟨.inl ?_, hlong⟩⟩
      rw [Nat.sub_self, Nat.zero_mod]
    · intro k s' f' u _ hnext hle' _ hsame _
      exact ih hnext hle' fun hl => hleaves (hsame.2 hl)

end

end Loop

/-! ## `filewrite` -/

/-- A file that is open for writing, on inode `i`, which nobody has locked.
`f` are the newest inodes. -/
structure WritableFile (s : Kernel) (f : Nat → Dinode) (fi : Fin NFILE) (i : Nat) : Prop where
  accounts : Accounts s.sb s.cache f
  lt : i < s.sb.ninodes
  file : (s.ftable fi).type = .inode
  writable : (s.ftable fi).writable ≠ 0
  inum : (s.itable (s.ftable fi).ip).inum = i
  ref : 1 ≤ (s.itable (s.ftable fi).ip).ref
  unlocked : (s.itable (s.ftable fi).ip).lock = none
  cached : (s.itable (s.ftable fi).ip).valid = true → (s.itable (s.ftable fi).ip).toDinode = f i
  disk : (s.itable (s.ftable fi).ip).valid = false → dinodeAt s.sb s.cache i = f i
  type : (f i).type ≠ 0
  covered : Covered s.cache (f i)

/-- The call has written the first `w` bytes: the result tells whether they
are all, the offset has moved behind them, the inode is unlocked and the
transaction has ended. -/
structure FileWritten (s : Kernel) (fi : Fin NFILE) (src : Nat → Option UInt8) (n r : Int)
    (w : Nat) (s' : Kernel) (u : List Event) : Prop where
  result : r = if (w : Int) = n then n else -1
  bytes : ∀ x, x < w → src x =
    some (byteAt s'.cache (s'.itable (s.ftable fi).ip).toDinode ((s.ftable fi).off.toNat + x))
  offset : (s'.ftable fi).off.toNat = (s.ftable fi).off.toNat + w
  unlocked : (s'.itable (s.ftable fi).ip).lock = none
  ended : ∃ v, u = .beginOp :: (v ++ [.endOp, .commit]) ∧ Plain v

/-- The blocks that a call logs, in order. -/
def logged (u : List Event) : List Nat :=
  u.filterMap fun
    | .logWrite b => some b
    | _ => none

/-- The log when one operation has begun. -/
def Superblock.openLog (sb : Superblock) : Log :=
  { Log.init sb.logstart sb.nlog with outstanding := 1 }

/-- `filewrite` returns, and does what it should, and the log takes the blocks
that it changes.  More than `n` rounds do not help: a round that writes
nothing and does not leave is made again and again. -/
def FilewriteLaw (p : Fin NPROC) (s : Kernel) (fi : Fin NFILE) (src : Nat → Option UInt8)
    (n other : Int) : Prop :=
  ∃ r s' w, ((filewrite p fi src n other n.toNat).exec s).2 = .done r s' ∧
    FileWritten s fi src n r w s' ((filewrite p fi src n other n.toNat).exec s).1 ∧
    LogTakes s.sb.openLog (logged ((filewrite p fi src n other n.toNat).exec s).1)

/-- Fewer blocks are logged before the last `log_write` than the header and the
log area have room for. -/
def LogRoom (sb : Superblock) (bs : List Nat) : Prop :=
  bs = [] ∨ bs.dropLast.toFinset.card < LOGSIZE ∧ bs.dropLast.toFinset.card + 1 < sb.nlog

theorem logTakes_openLog_iff (sb : Superblock) (bs : List Nat) :
    LogTakes sb.openLog bs ↔ LogRoom sb bs :=
  logTakes_iff (le_refl 1) bs List.nodup_nil

/-- A `char` has no bit for `O_APPEND`. -/
theorem no_append_bit (w : UInt8) : w.toUInt32 &&& O_APPEND = 0 := by
  apply UInt32.toNat_inj.1
  have hlt : w.toUInt32.toNat < 2 ^ 10 := by
    have := w.toNat_lt
    rw [UInt8.toNat_toUInt32]
    omega
  have happend : O_APPEND.toNat = 2 ^ 10 := rfl
  rw [UInt32.toNat_and, happend]
  apply eq_of_testBit_eq
  intro j
  rw [testBit_and, testBit_two_pow, UInt32.toNat_zero, zero_testBit]
  by_cases hj : 10 = j
  · subst hj
    rw [testBit_lt_two_pow hlt, Bool.false_and]
  · simp [hj]

section Call

variable {p : Fin NPROC} {fi : Fin NFILE} {src : Nat → Option UInt8} {n : Int}

/-- The state in which the loop starts. -/
def lockedFile (p : Fin NPROC) (s : Kernel) (f : Nat → Dinode) (fi : Fin NFILE) (i : Nat) :
    Kernel :=
  s.setInode (s.ftable fi).ip
    { toDinode := f i, inum := i, ref := (s.itable (s.ftable fi).ip).ref, lock := some p,
      valid := true }

theorem WritableFile.ilock_spec (h : WritableFile s f fi i) :
    Spec I DoubleFree (ilock p (s.ftable fi).ip) s fun _ s' u =>
      s' = lockedFile p s f fi i ∧ u = [] := by
  have hself : s.itable (s.ftable fi).ip = { s.itable (s.ftable fi).ip with inum := i } := by
    rw [← h.inum]
  apply Spec.act
  simp only [h.unlocked, Option.isSome_none, Bool.false_eq_true, if_false, h.inum]
  rw [if_neg (by have := h.ref; omega)]
  cases hv : (s.itable (s.ftable fi).ip).valid with
  | true =>
    simp only [if_true]
    refine ⟨?_, rfl⟩
    unfold lockedFile
    congr 1
    rw [hself, ← h.cached hv]
  | false =>
    have hdisk := h.disk hv
    unfold dinodeAt at hdisk
    simp only [hdisk, if_neg h.type, Bool.false_eq_true, if_false]
    exact ⟨rfl, rfl⟩

/-- The loop starts with nothing written. -/
theorem WritableFile.writing (h : WritableFile s f fi i)
    (hoff : (s.ftable fi).off.toNat ≤ (f i).size.toNat) :
    Writing (lockedFile p s f fi i) f i (s.ftable fi).ip fi src (s.ftable fi).off.toNat 0
      (lockedFile p s f fi i) f where
  accounts := h.accounts
  sb := rfl
  entry := by simp [lockedFile, Kernel.setInode]
  type := h.type
  covered := h.covered
  offset := rfl
  size := by omega
  bytes x hx := by omega
  room := room_zero _ _ _
  ahead q := by rw [zero_add]; rfl

/-- `filewrite` is its loop with the lock and the transaction around it. -/
theorem WritableFile.filewrite_spec {other : Int} {rounds : Nat} (h : WritableFile s f fi i)
    {Q : Int → Kernel → List Event → Prop} {R : Nat → Kernel → List Event → Prop}
    (hloop : Spec (fun v => I (.beginOp :: v)) DoubleFree
      (filewriteFrom fi (s.ftable fi).ip src n.toNat rounds 0) (lockedFile p s f fi i) R)
    (hlock : ∀ w s' u, R w s' u → (s'.itable (s.ftable fi).ip).lock = some p ∧
      1 ≤ (s'.itable (s.ftable fi).ip).ref)
    (hQ : ∀ w s' u, R w s' u → Q (if (w : Int) = n then n else -1)
      (s'.setInode (s.ftable fi).ip { s'.itable (s.ftable fi).ip with lock := none })
      (.beginOp :: (u ++ [.endOp, .commit]))) :
    Spec I DoubleFree (filewrite p fi src n other rounds) s Q := by
  unfold filewrite
  refine .read_bind rfl ?_
  rw [if_neg h.writable]
  simp only [h.file]
  refine .bind (P := fun _ s' u => s' = s ∧ u = [.beginOp]) (Spec.emit ⟨rfl, rfl⟩) ?_
  rintro _ s2 u2 ⟨rfl, rfl⟩
  refine h.ilock_spec.bind ?_
  rintro _ s3 u3 ⟨rfl, rfl⟩
  refine .modify_bind (t := lockedFile p s2 f fi i) ?_ ?_
  · rw [if_neg fun hbit => hbit (no_append_bit _)]
  refine .bind (P := R) hloop ?_
  intro w s5 u5 hR
  obtain ⟨hheld, href⟩ := hlock w s5 u5 hR
  refine .bind (P := fun _ s' u => s' = s5.setInode (s2.ftable fi).ip
    { s5.itable (s2.ftable fi).ip with lock := none } ∧ u = []) (Spec.act ?_) ?_
  · dsimp only
    rw [if_neg (by rw [hheld]; simp only [ne_eq, not_true, false_or]; omega)]
    exact ⟨rfl, rfl⟩
  rintro _ s6 u6 ⟨rfl, rfl⟩
  refine .bind (P := fun _ s' u => s' = s5.setInode (s2.ftable fi).ip
    { s5.itable (s2.ftable fi).ip with lock := none } ∧ u = [.endOp, .commit]) ?_ ?_
  · refine .bind (P := fun _ s' u => s' = s5.setInode (s2.ftable fi).ip
      { s5.itable (s2.ftable fi).ip with lock := none } ∧ u = [.endOp])
      (Spec.emit ⟨rfl, rfl⟩) ?_
    rintro _ s7 u7 ⟨rfl, rfl⟩
    exact .emit ⟨rfl, rfl⟩
  rintro _ s7 u7 ⟨rfl, rfl⟩
  apply Spec.pure
  simpa using hQ w s5 u5 hR

/-- What the loop leaves in the table entry. -/
theorem Writing.locked {off w : Nat} {f' : Nat → Dinode}
    (h : Writing (lockedFile p s f fi i) f i (s.ftable fi).ip fi src off w s' f')
    (href : 1 ≤ (s.itable (s.ftable fi).ip).ref) :
    (s'.itable (s.ftable fi).ip).lock = some p ∧ 1 ≤ (s'.itable (s.ftable fi).ip).ref := by
  rw [h.entry]
  simp [lockedFile, Kernel.setInode, href]

/-- A call whose loop leaves does what it should. -/
theorem Writing.fileWritten {w : Nat} {u : List Event} {f' : Nat → Dinode}
    (h : Writing (lockedFile p s f fi i) f i (s.ftable fi).ip fi src (s.ftable fi).off.toNat w
      s' f') (hu : Plain u) :
    FileWritten s fi src n (if (w : Int) = n then n else -1) w
      (s'.setInode (s.ftable fi).ip { s'.itable (s.ftable fi).ip with lock := none })
      (.beginOp :: (u ++ [.endOp, .commit])) where
  result := rfl
  bytes x hx := by
    have hdinode : (s'.itable (s.ftable fi).ip).toDinode = f' i := by rw [h.entry]
    simp only [Kernel.setInode, update_self, hdinode]
    exact h.bytes x hx
  offset := h.offset
  unlocked := by simp [Kernel.setInode]
  ended := ⟨u, rfl, hu⟩

/-- An offset behind the end of the file is refused at once. -/
theorem filewriteFrom_refused (hoff : (f i).size.toNat < (s.ftable fi).off.toNat) (m : Nat) :
    Spec I DoubleFree (filewriteFrom fi (s.ftable fi).ip src m m 0) (lockedFile p s f fi i)
      fun w s' u => w = 0 ∧ s' = lockedFile p s f fi i ∧ u = [] := by
  cases m with
  | zero => exact .pure ⟨rfl, rfl, rfl⟩
  | succ m =>
    rw [filewriteFrom, if_pos (Nat.succ_pos m)]
    refine .read_bind rfl ?_
    refine .bind (P := fun r s' u => r = -1 ∧ s' = lockedFile p s f fi i ∧ u = []) ?_ ?_
    · refine .bind (P := fun size s' u => size = (f i).size.toNat ∧
        s' = lockedFile p s f fi i ∧ u = []) (Spec.read ⟨?_, rfl, rfl⟩) ?_
      · simp [lockedFile, Kernel.setInode]
      rintro size s2 u2 ⟨rfl, rfl, rfl⟩
      rw [if_pos (.inl hoff)]
      exact .pure ⟨rfl, rfl, rfl⟩
    · rintro r s2 u2 ⟨rfl, rfl, rfl⟩
      rw [if_pos (by decide)]
      exact .pure ⟨rfl, rfl, rfl⟩

theorem WritableFile.law_of_refused (h : WritableFile s f fi i) (other : Int)
    (hoff : (f i).size.toNat < (s.ftable fi).off.toNat) : FilewriteLaw p s fi src n other := by
  have hspec : Spec (fun _ => False) DoubleFree (filewrite p fi src n other n.toNat) s
      fun r s' u => FileWritten s fi src n r 0 s' u ∧ logged u = [] := by
    refine h.filewrite_spec (filewriteFrom_refused hoff n.toNat) ?_ ?_
    · rintro w s' u ⟨-, rfl, -⟩
      simp [lockedFile, Kernel.setInode, h.ref]
    rintro w s' u ⟨rfl, rfl, rfl⟩
    refine ⟨⟨rfl, fun x hx => by omega, rfl, ?_, [], rfl, fun e he => by cases he⟩, rfl⟩
    simp [lockedFile, Kernel.setInode]
  obtain ⟨r, s', hdone, hr, hlog⟩ := hspec.exists_done
  exact ⟨r, s', 0, hdone, hr, (logTakes_openLog_iff _ _).2 (.inl hlog)⟩

theorem WritableFile.law_of_leaves (h : WritableFile s f fi i) (other : Int)
    (hoff : (s.ftable fi).off.toNat ≤ (f i).size.toNat)
    (hleaves : Leaves (Fits s.sb s.cache (f i) src (s.ftable fi).off.toNat)
      (s.ftable fi).off.toNat n.toNat 0)
    (hlog : LogRoom s.sb (logged ((filewrite p fi src n other n.toNat).exec s).1)) :
    FilewriteLaw p s fi src n other := by
  have hspec : Spec (fun _ => False) DoubleFree (filewrite p fi src n other n.toNat) s
      fun r s' u => ∃ w, FileWritten s fi src n r w s' u := by
    refine h.filewrite_spec (filewriteFrom_leaves n.toNat (h.writing hoff) h.lt ?_ (Nat.zero_le _)
      hleaves (Nat.sub_le _ _)) ?_ ?_
    · simp [lockedFile, Kernel.setInode]
    · rintro w s' u ⟨⟨f', hw⟩, -, -⟩
      exact hw.locked h.ref
    · rintro w s' u ⟨⟨f', hw⟩, -, hu⟩
      exact ⟨w, hw.fileWritten hu⟩
  obtain ⟨r, s', hdone, w, hr⟩ := hspec.exists_done
  exact ⟨r, s', w, hdone, hr, (logTakes_openLog_iff _ _).2 hlog⟩

/-- A call whose loop cannot leave never returns. -/
theorem WritableFile.never_done (h : WritableFile s f fi i) (other : Int)
    (hoff : (s.ftable fi).off.toNat ≤ (f i).size.toNat)
    (hleaves : ¬ Leaves (Fits s.sb s.cache (f i) src (s.ftable fi).off.toNat)
      (s.ftable fi).off.toNat n.toNat 0) (rounds : Nat) (r : Int) (s' : Kernel) :
    ((filewrite p fi src n other rounds).exec s).2 ≠ .done r s' := by
  have hspec : Spec (fun _ => True) DoubleFree (filewrite p fi src n other rounds) s
      fun _ _ _ => False := by
    refine h.filewrite_spec (filewriteFrom_spins rounds (h.writing hoff) h.lt ?_ (Nat.zero_le _)
      hleaves) ?_ ?_
    · simp [lockedFile, Kernel.setInode]
    · intro w s' u hfalse
      exact hfalse.elim
    · intro w s' u hfalse
      exact hfalse
  intro hdone
  exact hspec.of_done hdone

end Call

/-- File 0 is open for writing on the note. -/
def noteFileKernel : Kernel :=
  { noteKernel with
    itable := update smallKernel.itable 0
      { toDinode := noteFile, inum := 2, ref := 1, lock := none, valid := true }
    ftable := update smallKernel.ftable ⟨0, by decide⟩
      { type := .inode, ref := 1, readable := false, writable := 1, pipe := 0, ip := 0, off := 0,
        major := 0 } }

theorem noteFileKernel_writable : WritableFile noteFileKernel (dinodeAt mkfsSuperblock noteDisk)
    ⟨0, by decide⟩ 2 where
  accounts := noteDisk_accounts
  lt := by decide
  file := rfl
  writable := by decide
  inum := rfl
  ref := by decide
  unlocked := rfl
  cached _ := noteDisk_file.symm
  disk hv := by cases hv
  type := by
    rw [noteDisk_file]
    decide
  covered := noteDisk_covered

/-- The note has its first block only. -/
theorem noteDisk_room :
    Room mkfsSuperblock noteDisk (dinodeAt mkfsSuperblock noteDisk 2) 0 1030 := by
  have hsub : missing noteDisk (dinodeAt mkfsSuperblock noteDisk 2) 0 1030 ⊆ {.addr 1} := by
    intro k hk
    obtain ⟨h0, bn, ⟨x, -, hhi, rfl⟩, hslot⟩ := mem_missing.1 hk
    rw [noteDisk_file] at h0
    have hx : x / BSIZE = 0 ∨ x / BSIZE = 1 := by
      unfold BSIZE
      omega
    rcases hx with hx | hx <;> rw [hx] at hslot <;> rcases hslot with hslot | ⟨hle, -⟩
    · cases hslot
      exact absurd h0 (by decide)
    · exact absurd hle (by decide)
    · cases hslot
      exact Finset.mem_singleton_self _
    · exact absurd hle (by decide)
  have hfree : 47 ∈ freeBlocks mkfsSuperblock noteDisk :=
    Finset.mem_filter.2 ⟨Finset.mem_range.2 (by decide), used_small noteDisk_bitmap (by omega)⟩
  exact (Finset.card_le_card hsub).trans (Finset.card_pos.2 ⟨47, hfree⟩)

end Fs

end Xv6
