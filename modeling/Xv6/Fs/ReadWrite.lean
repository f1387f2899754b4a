import Xv6.Fs.Contents

/-!
# Reading and writing a file

Specifications of `readi` and `writei` for a program that runs alone.  A
file is seen as its bytes, and zeros where it has no blocks.

`writei` stops early when the disk is full or the source cannot be read.
What it has written then is on record in the size of the file, and the
blocks cover the size.
-/

namespace Xv6

open Lib Function List Nat

namespace Fs

variable {m bn tot b k : Nat} {src : Nat → Option UInt8} {c c' c₁ c₂ : Nat → Block}
  {f' f₁ : Nat → Dinode} {d : Dinode} {s' s1 : Kernel} {u : List Event}

/-! ## Chunks of a block -/

/-- Block number `bn` of a file holds one of the `n` bytes from `off` on. -/
def InRange (off n bn : Nat) : Prop := ∃ x, off ≤ x ∧ x < off + n ∧ x / BSIZE = bn

/-- The part of the bytes from `off` on that lies in one block. -/
def chunk (off n : Nat) : Nat := min n (BSIZE - off % BSIZE)

section Chunk

variable {off n : Nat}

theorem chunk_pos (hn : n ≠ 0) : 0 < chunk off n := by
  have hlt : off % BSIZE < BSIZE := mod_lt _ (by decide)
  unfold chunk
  omega

theorem chunk_le : chunk off n ≤ n := min_le_left _ _

/-- A chunk does not leave its block. -/
theorem div_of_chunk {x : Nat} (hlo : off ≤ x) (hhi : x < off + chunk off n) :
    x / BSIZE = off / BSIZE ∧ x % BSIZE = off % BSIZE + (x - off) := by
  unfold chunk BSIZE at *
  omega

theorem InRange.chunk (hn : n ≠ 0) : InRange off n (off / BSIZE) :=
  ⟨off, le_refl _, by omega, rfl⟩

/-- The bytes after the first chunk are among the bytes. -/
theorem InRange.of_rest (hm : m ≤ n) (h : InRange (off + m) (n - m) bn) : InRange off n bn := by
  obtain ⟨x, hlo, hhi, hbn⟩ := h
  exact ⟨x, by omega, by omega, hbn⟩

/-- A block of the range is the block of the first chunk, or holds bytes
after it. -/
theorem InRange.cases (h : InRange off n bn) :
    bn = off / BSIZE ∨ InRange (off + Fs.chunk off n) (n - Fs.chunk off n) bn := by
  obtain ⟨x, hlo, hhi, hbn⟩ := h
  by_cases hx : x < off + Fs.chunk off n
  · left
    rw [← hbn, (div_of_chunk hlo hx).1]
  · right
    exact ⟨x, by omega, by omega, hbn⟩

/-- A range whose first block is not the last one starts the next block. -/
theorem not_inRange_rest (hbn : bn = off / BSIZE) :
    ¬ InRange (off + Fs.chunk off n) (n - Fs.chunk off n) bn := by
  rintro ⟨x, hlo, hhi, hx⟩
  unfold Fs.chunk BSIZE at *
  omega

end Chunk

/-- What a copy delivers comes from the source. -/
theorem src_of_copyin {i j : Nat}
    (h : j < (copyin src i m).length) : src (i + j) = some ((copyin src i m).getD j 0) := by
  induction m generalizing i j with
  | zero => simp [copyin] at h
  | succ m ih =>
    unfold copyin at h ⊢
    cases hs : src i with
    | none => simp [hs] at h
    | some byte =>
      cases j with
      | zero => simp [hs]
      | succ j =>
        simp only [hs, length_cons, Nat.add_lt_add_iff_right] at h
        have hj := ih h
        simp only [getD_cons_succ]
        rw [← hj]
        congr 1
        omega

theorem copyin_length_le (src : Nat → Option UInt8) (i m : Nat) : (copyin src i m).length ≤ m := by
  induction m generalizing i with
  | zero => simp [copyin]
  | succ m ih =>
    unfold copyin
    split
    · simp
    simp only [length_cons, Nat.add_le_add_iff_right]
    exact ih (i + 1)

theorem copyin_length {i : Nat}
    (h : ∀ j, j < m → (src (i + j)).isSome) : (copyin src i m).length = m := by
  induction m generalizing i with
  | zero => rfl
  | succ m ih =>
    obtain ⟨byte, hbyte⟩ := Option.isSome_iff_exists.1 (h 0 (by omega))
    rw [add_zero] at hbyte
    unfold copyin
    rw [hbyte]
    simp only [length_cons, add_right_cancel_iff]
    apply ih
    intro j hj
    have hnext := h (j + 1) (by omega)
    rwa [show i + (j + 1) = i + 1 + j by omega] at hnext

/-! ## `writei` -/

variable {I : List Event → Prop} {s : Kernel} {f : Nat → Dinode} {i ip : Nat}

/-- A file block stays where it is. -/
theorem Grows.blockOf {sb : Superblock} (h : Grows sb i c f c' f') (hne : blockOf c (f i) bn ≠ 0) :
    Fs.blockOf c' (f' i) bn = Fs.blockOf c (f i) bn := by
  obtain ⟨k, hk, _, heq⟩ := exists_slot_of_blockOf_ne hne
  rw [heq] at hne
  rw [blockOf_eq hk, heq, h.slots k hne]

/-- A file block behind the indirect block needs an indirect block. -/
theorem indirect_ne_zero_of_blockOf
    (hbn : NDIRECT ≤ bn) (h : blockOf c d bn ≠ 0) : slotAt c d .indirect ≠ 0 := by
  intro h0
  apply h
  unfold blockOf blockSlot
  rw [dif_neg (by omega)]
  by_cases hin : bn - NDIRECT < NINDIRECT
  · rw [dif_pos hin]
    exact slotAt_entry_of_indirect h0 _
  · rw [dif_neg hin]

/-- The loop of `writei` has gone from `tot` to `tot'`, with the new blocks
`c'` and inodes `f'`. -/
structure Written (s : Kernel) (f : Nat → Dinode) (ip i : Nat) (src : Nat → Option UInt8)
    (tot off n tot' : Nat) (s' : Kernel) (u : List Event) (c' : Nat → Block)
    (f' : Nat → Dinode) : Prop where
  state : s' = s.put ip c' (f' i)
  grows : Grows s.sb i s.cache f c' f'
  le : tot ≤ tot' ∧ tot' ≤ tot + n
  outside : ∀ x, x < off ∨ off + n ≤ x → byteAt c' (f' i) x = byteAt s.cache (f i) x
  inside : ∀ x, off ≤ x → x < off + (tot' - tot) → src (tot + (x - off)) = some (byteAt c' (f' i) x)
  untouched : (∀ j, j < n → (src (tot + j)).isSome) → ∀ x, off + (tot' - tot) ≤ x →
    byteAt c' (f' i) x = byteAt s.cache (f i) x
  whole : chunk off n = n → tot' = tot ∨ tot' = tot + n
  covered : ∀ bn, InRange off (tot' - tot) bn → blockOf c' (f' i) bn ≠ 0
  others : ∀ bn, ¬ InRange off n bn → blockOf c' (f' i) bn = blockOf s.cache (f i) bn
  plain : ∀ e ∈ u, e = .hole ∨ ∃ x, e = .logWrite x
  logs : ∀ x, .logWrite x ∈ u → ∃ bn, InRange off n bn ∧
    (x ≠ 0 ∧ x = blockOf c' (f' i) bn ∨ blockOf s.cache (f i) bn = 0 ∧
      (s.sb.IsBitmap x ∨ NDIRECT ≤ bn ∧ x ≠ 0 ∧ x = slotAt c' (f' i) .indirect))
  logged : tot' = tot + n → ∀ bn, InRange off n bn → .logWrite (blockOf c' (f' i) bn) ∈ u ∧
    (blockOf s.cache (f i) bn = 0 → (∃ x, s.sb.IsBitmap x ∧ .logWrite x ∈ u) ∧
      (NDIRECT ≤ bn → .logWrite (slotAt c' (f' i) .indirect) ∈ u))

/-- The loop ends where it is. -/
theorem Written.refl {off n : Nat}
    (h : Accounts s.sb s.cache f) (hip : (s.itable ip).toDinode = f i) (hn : n = 0) :
    Written s f ip i src tot off n tot s [] s.cache f where
  state := (s.put_self ip _ hip).symm
  grows := Grows.refl h
  le := by omega
  outside _ _ := rfl
  inside x hlo hhi := by omega
  untouched _ _ _ := rfl
  whole _ := .inl rfl
  covered bn hbn := by
    obtain ⟨x, hlo, hhi, _⟩ := hbn
    omega
  others _ _ := rfl
  plain e he := by cases he
  logs x hx := by cases hx
  logged _ bn hbn := by
    obtain ⟨x, hlo, hhi, _⟩ := hbn
    omega

/-- The disk is full. -/
theorem Mapped.written {off n : Nat} (h : Mapped s f ip i (off / BSIZE) 0 s' u c' f') (hn : n ≠ 0) :
    Written s f ip i src tot off n tot s' u c' f' where
  state := h.state
  grows := h.grows
  le := by omega
  outside x _ := h.bytes x
  inside x hlo hhi := by omega
  untouched _ x _ := h.bytes x
  whole _ := .inl rfl
  covered bn hbn := by
    obtain ⟨x, hlo, hhi, _⟩ := hbn
    omega
  others bn hbn := h.others bn fun heq => hbn (heq ▸ InRange.chunk hn)
  plain := h.plain
  logs x hx := by
    obtain ⟨h0, hbitmap | ⟨hne, heq | hind⟩⟩ := h.logs x hx
    · exact ⟨_, InRange.chunk hn, .inr ⟨h0, .inl hbitmap⟩⟩
    · exact absurd heq hne
    · exact ⟨_, InRange.chunk hn, .inr ⟨h0, .inr ⟨hind.1, hne, hind.2⟩⟩⟩
  logged htot := by omega

/-- Bytes are stored in a block of the file that has been looked up: the
new blocks are `c₂`. -/
structure Stored (s : Kernel) (f : Nat → Dinode) (i off : Nat) (bytes : List UInt8)
    (c₁ c₂ : Nat → Block) (f₁ : Nat → Dinode) : Prop where
  grows : Grows s.sb i s.cache f c₂ f₁
  slots : ∀ k, slotAt c₂ (f₁ i) k = slotAt c₁ (f₁ i) k
  blocks : ∀ bn, blockOf c₂ (f₁ i) bn = blockOf c₁ (f₁ i) bn
  bytes : ∀ x, byteAt c₂ (f₁ i) x =
    if off ≤ x ∧ x < off + bytes.length then bytes.getD (x - off) 0 else byteAt s.cache (f i) x

theorem Mapped.stored {off n : Nat} (h : Mapped s f ip i (off / BSIZE) b s1 u c₁ f₁) (hb : b ≠ 0)
    (hi : i < s.sb.ninodes) (ht : (f i).type ≠ 0) {bytes : List UInt8}
    (hlen : bytes.length ≤ chunk off n)
    (hc2 : c₂ = update c₁ b ((c₁ b).write (off % BSIZE) bytes)) :
    Stored s f i off bytes c₁ c₂ f₁ := by
  have hblock : blockOf c₁ (f₁ i) (off / BSIZE) ≠ 0 := by rw [h.block]; exact hb
  obtain ⟨k, hk, hkne, hslot⟩ := exists_slot_of_blockOf_ne hblock
  rw [h.block] at hslot
  have ht1 : (f₁ i).type ≠ 0 := by rw [h.grows.type_eq]; exact ht
  have hne : slotAt c₁ (f₁ i) k ≠ 0 := hslot ▸ hb
  rw [hslot] at hc2
  obtain ⟨hgrows, hslots⟩ := h.grows.accounts.setData hi ht1 hkne hne _ hc2
  refine ⟨h.grows.trans hgrows, hslots, ?_, ?_⟩
  · intro bn
    unfold blockOf
    split
    · exact hslots _
    · rfl
  intro x
  rw [h.grows.accounts.byteAt_setData hi ht1 hkne hne _ hc2 x, ← h.bytes x]
  have hlt : x % BSIZE < BSIZE := mod_lt _ (by decide)
  by_cases hx : x / BSIZE = off / BSIZE
  · have hold : byteAt c₁ (f₁ i) x = (c₁ (slotAt c₁ (f₁ i) k)).get (x % BSIZE) := by
      rw [byteAt, hx, if_neg hblock, h.block, hslot]
    rw [hx, if_pos hk, Buf.get_write _ _ _ hlt, hold]
    by_cases hin : off ≤ x ∧ x < off + bytes.length
    · have hmod := (div_of_chunk (n := n) hin.1 (by omega)).2
      rw [if_pos hin, if_pos (by omega), hmod, Nat.add_sub_cancel_left]
    rw [if_neg hin, if_neg]
    unfold BSIZE at *
    omega
  · have hnot : ¬ (off ≤ x ∧ x < off + bytes.length) := by
      intro hin
      exact hx (div_of_chunk (n := n) hin.1 (by omega)).1
    rw [if_neg hnot, if_neg fun hk' => hx (blockSlot_inj hk' hk)]

/-- The source could not be read to the end of the chunk. -/
theorem Mapped.written_partial {off n : Nat} {bytes : List UInt8}
    (h : Mapped s f ip i (off / BSIZE) b s1 u c₁ f₁) (hn : n ≠ 0)
    (hbytes : bytes = copyin src tot (chunk off n)) (hlen : bytes.length ≠ chunk off n)
    (hstored : Stored s f i off bytes c₁ c₂ f₁) :
    Written s f ip i src tot off n tot (s.put ip c₂ (f₁ i)) u c₂ f₁ where
  state := rfl
  grows := hstored.grows
  le := by omega
  outside x hx := by
    have hle : chunk off n ≤ n := chunk_le
    have hlen' : bytes.length ≤ chunk off n := hbytes ▸ copyin_length_le src tot _
    rw [hstored.bytes x, if_neg (by omega)]
  inside x hlo hhi := by omega
  untouched hsrc := by
    have hle : chunk off n ≤ n := chunk_le
    have hfull := copyin_length fun j hj => hsrc j (lt_of_lt_of_le hj hle)
    exact absurd (hbytes ▸ hfull) hlen
  whole _ := .inl rfl
  covered bn hbn := by
    obtain ⟨x, hlo, hhi, _⟩ := hbn
    omega
  others bn hbn := by rw [hstored.blocks, h.others bn fun heq => hbn (heq ▸ InRange.chunk hn)]
  plain := h.plain
  logs x hx := by
    refine ⟨_, InRange.chunk hn, ?_⟩
    obtain ⟨h0, hbitmap | ⟨hne, heq | hind⟩⟩ := h.logs x hx
    · exact .inr ⟨h0, .inl hbitmap⟩
    · exact .inl ⟨hne, by rw [hstored.blocks, h.block, heq]⟩
    · exact Or.inr ⟨h0, Or.inr ⟨hind.1, hne, by rw [hstored.slots, hind.2]⟩⟩
  logged htot := by omega

/-- A chunk has been written, and then the rest. -/
theorem Mapped.written_chunk {tot' off n : Nat} {v : List Event}
    (h : Mapped s f ip i (off / BSIZE) b s1 u c₁ f₁) (hn : n ≠ 0) (hb : b ≠ 0)
    (hstored : Stored s f i off (copyin src tot (chunk off n)) c₁ c₂ f₁)
    (hlen : (copyin src tot (chunk off n)).length = chunk off n)
    (hrest : Written (s.put ip c₂ (f₁ i)) f₁ ip i src (tot + chunk off n) (off + chunk off n)
      (n - chunk off n) tot' s' v c' f') :
    Written s f ip i src tot off n tot' s' (u ++ ([.logWrite b] ++ v)) c' f' := by
  have hle : chunk off n ≤ n := chunk_le
  have hrle := hrest.le
  have hblock : blockOf c₂ (f₁ i) (off / BSIZE) = b := by rw [hstored.blocks, h.block]
  -- the block of this chunk and the indirect block stay where they are
  have hblock' : blockOf c' (f' i) (off / BSIZE) = b := by
    have hne : blockOf (s.put ip c₂ (f₁ i)).cache (f₁ i) (off / BSIZE) ≠ 0 := by
      rwa [Kernel.put_cache, hblock]
    rw [hrest.grows.blockOf hne, Kernel.put_cache, hblock]
  have hptr : ∀ x, x ≠ 0 → x = slotAt c₁ (f₁ i) .indirect → slotAt c' (f' i) .indirect = x := by
    intro x hne heq
    have hslot := hrest.grows.slots .indirect
    rw [Kernel.put_cache, hstored.slots, ← heq] at hslot
    exact hslot hne
  have hmiss : ∀ bn, bn ≠ off / BSIZE → blockOf c₂ (f₁ i) bn = blockOf s.cache (f i) bn :=
    fun bn hne => by rw [hstored.blocks, h.others bn hne]
  refine ⟨?_, hstored.grows.trans hrest.grows, by omega, ?_, ?_, ?_, by omega, ?_, ?_, ?_, ?_, ?_⟩
  · rw [hrest.state, Kernel.put_put]
  · intro x hx
    rw [hrest.outside x (by omega), Kernel.put_cache, hstored.bytes x, if_neg (by omega)]
  · intro x hlo hhi
    by_cases hx : x < off + chunk off n
    · rw [hrest.outside x (.inl hx), Kernel.put_cache, hstored.bytes x, if_pos ⟨hlo, by omega⟩]
      exact src_of_copyin (by omega)
    have hin := hrest.inside x (by omega) (by omega)
    rw [← hin]
    congr 1
    omega
  · intro hsrc x hx
    have hrestsrc : ∀ j, j < n - chunk off n → (src (tot + chunk off n + j)).isSome := by
      intro j hj
      rw [add_assoc]
      exact hsrc _ (by omega)
    rw [hrest.untouched hrestsrc x (by omega), Kernel.put_cache, hstored.bytes x, if_neg (by omega)]
  · intro bn hbn
    by_cases heq : bn = off / BSIZE
    · rwa [heq, hblock']
    obtain ⟨x, hlo, hhi, hx⟩ := hbn
    refine hrest.covered bn ⟨x, ?_, by omega, hx⟩
    by_contra hlt
    exact heq (hx ▸ (div_of_chunk (n := n) hlo (by omega)).1)
  · intro bn hbn
    have hne : bn ≠ off / BSIZE := fun heq => hbn (heq ▸ InRange.chunk hn)
    rw [hrest.others bn fun hr => hbn (hr.of_rest hle), Kernel.put_cache, hmiss bn hne]
  · intro e he
    simp only [mem_append, mem_singleton] at he
    rcases he with he | he | he
    · exact h.plain e he
    · exact Or.inr ⟨b, he⟩
    · exact hrest.plain e he
  · intro x hx
    simp only [mem_append, mem_singleton, Event.logWrite.injEq] at hx
    rcases hx with hx | hx | hx
    · refine ⟨_, InRange.chunk hn, ?_⟩
      obtain ⟨h0, hbitmap | ⟨hne, heq | hind⟩⟩ := h.logs x hx
      · exact Or.inr ⟨h0, Or.inl hbitmap⟩
      · exact Or.inl ⟨hne, by rw [hblock', heq]⟩
      · exact Or.inr ⟨h0, Or.inr ⟨hind.1, hne, (hptr x hne hind.2).symm⟩⟩
    · exact ⟨_, InRange.chunk hn, Or.inl ⟨hx ▸ hb, by rw [hblock', hx]⟩⟩
    obtain ⟨bn, hbn, hcase⟩ := hrest.logs x hx
    refine ⟨bn, hbn.of_rest hle, ?_⟩
    have hne : bn ≠ off / BSIZE := fun heq => not_inRange_rest heq hbn
    rw [Kernel.put_cache, hmiss bn hne] at hcase
    exact hcase
  · intro htot bn hbn
    have hlog := hrest.logged (by omega)
    rcases hbn.cases with heq | hr
    · rw [heq, hblock']
      refine ⟨by simp, fun h0 => ?_⟩
      obtain ⟨⟨x, hx, hxu⟩, _, hind⟩ := h.logged h0 hb
      refine ⟨⟨x, hx, mem_append_left _ hxu⟩, fun hle => ?_⟩
      have hne := indirect_ne_zero_of_blockOf hle (by rw [h.block]; exact hb)
      rw [hptr _ hne rfl]
      exact mem_append_left _ (hind hle)
    have hne : bn ≠ off / BSIZE := fun heq => not_inRange_rest heq hr
    obtain ⟨hbl, hmissing⟩ := hlog bn hr
    refine ⟨by simp [hbl], fun h0 => ?_⟩
    rw [Kernel.put_cache, hmiss bn hne] at hmissing
    obtain ⟨⟨x, hx, hxv⟩, hind⟩ := hmissing h0
    exact ⟨⟨x, hx, by simp [hxv]⟩, fun hle => by simp [hind hle]⟩

/-- Why the loop of `writei` stops in front of the last `m` bytes of the
source: there are none, the disk is full, or they cannot be read.  Those
bytes of the chunk that could be read are in the block already. -/
inductive Stop (sb : Superblock) (src : Nat → Option UInt8) (tot off m : Nat) (c : Nat → Block)
    (d : Dinode) : List UInt8 → Prop
  | finished (hm : m = 0) : Stop sb src tot off m c d []
  | full (hm : m ≠ 0) (hblock : blockOf c d (off / BSIZE) = 0) (hfull : DiskFull sb c) :
    Stop sb src tot off m c d []
  | source (hm : m ≠ 0) (hblock : blockOf c d (off / BSIZE) ≠ 0)
    (hlen : (copyin src tot (chunk off m)).length < chunk off m) :
    Stop sb src tot off m c d (copyin src tot (chunk off m))

/-- The loop of `writei` has written `k` bytes and stopped, with `tail` in
the block behind them.  It has not looked at later blocks. -/
structure Ended (s : Kernel) (f : Nat → Dinode) (i : Nat) (src : Nat → Option UInt8)
    (tot off n k : Nat) (c' : Nat → Block) (f' : Nat → Dinode) (tail : List UInt8) : Prop where
  le : k ≤ n
  boundary : k = 0 ∨ k = n ∨ (off + k) % BSIZE = 0
  stop : Stop s.sb src (tot + k) (off + k) (n - k) c' (f' i) tail
  behind : ∀ x, off + k ≤ x → byteAt c' (f' i) x =
    if x < off + k + tail.length then tail.getD (x - (off + k)) 0 else byteAt s.cache (f i) x
  ahead : ∀ bn, (off + k) / BSIZE < bn → blockOf c' (f' i) bn = blockOf s.cache (f i) bn
  indirect : (off + k) / BSIZE < NDIRECT →
    slotAt c' (f' i) .indirect = slotAt s.cache (f i) .indirect

/-- All bytes are written. -/
theorem Ended.refl {off n : Nat} (hn : n = 0) : Ended s f i src tot off n 0 s.cache f [] where
  le := Nat.zero_le n
  boundary := .inl rfl
  stop := Stop.finished (by omega)
  behind x hx := by rw [if_neg (by simp only [List.length_nil]; omega)]
  ahead _ _ := rfl
  indirect _ := rfl

/-- The disk is full. -/
theorem Mapped.ended {off n : Nat}
    (h : Mapped s f ip i (off / BSIZE) 0 s' u c' f') (hn : n ≠ 0) (hfull : DiskFull s.sb c')
    (hdirect : off / BSIZE < NDIRECT →
      slotAt c' (f' i) .indirect = slotAt s.cache (f i) .indirect) :
    Ended s f i src tot off n 0 c' f' [] where
  le := Nat.zero_le n
  boundary := .inl rfl
  stop := Stop.full hn h.block hfull
  behind x hx := by rw [if_neg (by simp only [List.length_nil]; omega), h.bytes x]
  ahead bn hbn := h.others bn (by rw [add_zero] at hbn; omega)
  indirect := hdirect

/-- The source could not be read to the end of the chunk. -/
theorem Mapped.ended_partial {off n : Nat}
    (hmapped : Mapped s f ip i (off / BSIZE) b s1 u c₁ f₁) (hb : b ≠ 0)
    (hdirect : off / BSIZE < NDIRECT → slotAt c₁ (f₁ i) .indirect = slotAt s.cache (f i) .indirect)
    (h : Stored s f i off (copyin src tot (chunk off n)) c₁ c₂ f₁) (hn : n ≠ 0)
    (hlen : (copyin src tot (chunk off n)).length ≠ chunk off n) :
    Ended s f i src tot off n 0 c₂ f₁ (copyin src tot (chunk off n)) where
  le := Nat.zero_le n
  boundary := .inl rfl
  stop := by
    have hlt := lt_of_le_of_ne (copyin_length_le src tot (chunk off n)) hlen
    exact Stop.source hn (by rw [add_zero, h.blocks, hmapped.block]; exact hb) hlt
  behind x hx := by
    rw [h.bytes x, add_zero]
    by_cases hx' : x < off + (copyin src tot (chunk off n)).length
    · rw [if_pos hx', if_pos ⟨by omega, hx'⟩]
    · rw [if_neg hx', if_neg fun hin => hx' hin.2]
  ahead bn hbn := by
    rw [add_zero] at hbn
    rw [h.blocks, hmapped.others bn (by omega)]
  indirect hlt := by rw [h.slots, hdirect hlt]

/-- A chunk has been written, and then the rest. -/
theorem Mapped.ended_chunk {off n : Nat} {tail : List UInt8}
    (hmapped : Mapped s f ip i (off / BSIZE) b s1 u c₁ f₁)
    (hdirect : off / BSIZE < NDIRECT → slotAt c₁ (f₁ i) .indirect = slotAt s.cache (f i) .indirect)
    (h : Stored s f i off (copyin src tot (chunk off n)) c₁ c₂ f₁)
    (hlen : (copyin src tot (chunk off n)).length = chunk off n)
    (hrest : Ended (s.put ip c₂ (f₁ i)) f₁ i src (tot + chunk off n) (off + chunk off n)
      (n - chunk off n) k c' f' tail) : Ended s f i src tot off n (chunk off n + k) c' f' tail := by
  have hle : chunk off n ≤ n := chunk_le
  have hk := hrest.le
  have hfirst : off / BSIZE ≤ (off + (chunk off n + k)) / BSIZE :=
    Nat.div_le_div_right (Nat.le_add_right _ _)
  refine ⟨by omega, ?_, ?_, ?_, ?_, ?_⟩
  · have hb := hrest.boundary
    unfold chunk BSIZE at *
    omega
  · have hstop := hrest.stop
    rwa [Nat.add_assoc, Nat.add_assoc, Nat.sub_sub] at hstop
  · intro x hx
    have hold : byteAt c₂ (f₁ i) x = byteAt s.cache (f i) x := by rw [h.bytes x, if_neg (by omega)]
    have hbehind := hrest.behind x (by omega)
    rwa [Nat.add_assoc off, Kernel.put_cache, hold] at hbehind
  · intro bn hbn
    rw [hrest.ahead bn (by rw [Nat.add_assoc]; exact hbn), Kernel.put_cache, h.blocks,
      hmapped.others bn (by omega)]
  · intro hlt
    rw [hrest.indirect (by rw [Nat.add_assoc]; exact hlt), Kernel.put_cache, h.slots,
      hdirect (by omega)]

variable (h : Accounts s.sb s.cache f) (hi : i < s.sb.ninodes) (ht : (f i).type ≠ 0)
  (hip : (s.itable ip).toDinode = f i)

include h hi ht hip in
/-- The loop of `writei`: what it has written, and why it stops. -/
theorem writeiFrom_ends {fuel off n : Nat} (hfuel : n ≤ fuel) (hmax : off + n ≤ MAXFILE * BSIZE) :
    Spec I DoubleFree (writeiFrom ip src fuel tot off n) s fun tot' s' u =>
      ∃ c' f' k tail, tot' = tot + k ∧ Written s f ip i src tot off n tot' s' u c' f' ∧
        Ended s f i src tot off n k c' f' tail := by
  -- each round leaves fewer bytes, so the fuel lasts to the end
  induction fuel generalizing I s f tot off n with
  | zero =>
    have hn : n = 0 := by omega
    exact .pure ⟨s.cache, f, 0, [], rfl, Written.refl h hip hn, Ended.refl hn⟩
  | succ fuel ih =>
    rw [writeiFrom]
    by_cases hn : n = 0
    · rw [if_pos hn]
      exact .pure ⟨s.cache, f, 0, [], rfl, Written.refl h hip hn, Ended.refl hn⟩
    rw [if_neg hn]
    have hpos : 0 < chunk off n := chunk_pos hn
    have hle : chunk off n ≤ n := chunk_le
    have hbn : off / BSIZE < MAXFILE := by
      rw [Nat.div_lt_iff_lt_mul (by decide)]
      omega
    refine ((bmap_spec h hi ht hip hbn).and
      ((bmap_full h hi ht hip hbn).and (bmap_direct h hi ht hip hbn))).bind ?_
    rintro b s1 u ⟨⟨c₁, f₁, hmapped⟩, hfull, hdirect⟩
    rw [hmapped.state, Kernel.put_cache] at hfull
    rw [hmapped.state, Kernel.put_cache, Kernel.put_itable_self] at hdirect
    by_cases hb : b = 0
    · subst hb
      rw [if_pos rfl]
      refine .pure ⟨c₁, f₁, 0, [], rfl, ?_, hmapped.ended hn (hfull rfl) hdirect⟩
      rw [append_nil]
      exact hmapped.written hn
    rw [if_neg hb]
    have hlen := copyin_length_le src tot (chunk off n)
    have hstored := hmapped.stored hb hi ht hlen rfl
    refine .bind (P := fun _ s2 v => s2 = s.put ip (update c₁ b
        ((c₁ b).write (off % BSIZE) (copyin src tot (chunk off n)))) (f₁ i) ∧
        v = if (copyin src tot (chunk off n)).length = chunk off n then
          [.logWrite b] else []) (Spec.act ⟨?_, ?_⟩) ?_
    · rw [hmapped.state]
      rfl
    · show Option.toList (if (copyin src tot (chunk off n)).length = chunk off n then _ else _) = _
      split <;> rfl
    rintro _ s2 v ⟨rfl, rfl⟩
    by_cases hfull : (copyin src tot (chunk off n)).length = chunk off n
    · rw [if_pos hfull]
      show Spec _ _ (if (copyin src tot (chunk off n)).length = chunk off n then
        writeiFrom ip src fuel (tot + chunk off n) (off + chunk off n) (n - chunk off n)
        else pure tot) _ _
      rw [if_pos hfull]
      have hfuel' : n - chunk off n ≤ fuel := by omega
      have hmax' : off + chunk off n + (n - chunk off n) ≤ MAXFILE * BSIZE := by omega
      refine (ih (s := s.put ip _ (f₁ i)) hstored.grows.accounts hi ?_ ?_ hfuel' hmax').mono ?_
      · rwa [hstored.grows.type_eq]
      · rw [Kernel.put_itable_self]
      rintro tot' s' v ⟨c', f', k, tail, rfl, hrest, hend⟩
      exact ⟨c', f', chunk off n + k, tail, Nat.add_assoc _ _ _,
        hmapped.written_chunk hn hb hstored hfull hrest,
        hmapped.ended_chunk hdirect hstored hfull hend⟩
    · rw [if_neg hfull]
      show Spec _ _ (if (copyin src tot (chunk off n)).length = chunk off n then
        writeiFrom ip src fuel (tot + chunk off n) (off + chunk off n) (n - chunk off n)
        else pure tot) _ _
      rw [if_neg hfull]
      apply Spec.pure
      rw [append_nil, append_nil]
      exact ⟨_, f₁, 0, _, rfl, hmapped.written_partial hn rfl hfull hstored,
        hmapped.ended_partial hb hdirect hstored hn hfull⟩

/-- The blocks of a file cover its size. -/
def Covered (c : Nat → Block) (d : Dinode) : Prop :=
  d.size.toNat ≤ MAXFILE * BSIZE ∧ ∀ bn, bn * BSIZE < d.size.toNat → blockOf c d bn ≠ 0

/-- An inode that has grown is stored, with new values in its other
fields. -/
theorem Grows.stored {sb : Superblock}
    (h : Grows sb i c f c' f') (hi : i < sb.ninodes) (ht : (f i).type ≠ 0)
    (haddrs : d.addrs = (f' i).addrs) (htype : d.type ≠ 0) :
    Update sb c f i (storeDinode sb c' i d) (update f' i d) ∧
      (∀ k, slotAt (storeDinode sb c' i d) d k = slotAt c' (f' i) k) ∧
      ∀ x, byteAt (storeDinode sb c' i d) d x = byteAt c' (f' i) x := by
  have ht' : (f' i).type ≠ 0 := by rw [h.type_eq]; exact ht
  have hacc : Accounts sb c' (update f' i d) :=
    h.accounts.setInfo haddrs (by simp [htype, ht'])
  refine ⟨.of_store h.accounts hi hacc h.others h.keeps h.bytes fun j hj _ => ?_,
    h.accounts.storeDinode_view hi hi ht' haddrs⟩
  rw [dinodeAt, dinodeAt, h.below _ (h.accounts.wf.IBLOCK_lt hj)]

/-- `writei` has written `tot` of `n` bytes to file `i`, from `off` on. -/
structure Wrote (s : Kernel) (f : Nat → Dinode) (ip i : Nat) (src : Nat → Option UInt8)
    (off n tot : Nat) (s' : Kernel) (u : List Event) (c' : Nat → Block)
    (f' : Nat → Dinode) : Prop where
  state : s' = s.put ip c' (f' i)
  update : Update s.sb s.cache f i c' f'
  info : f' i = { f i with addrs := (f' i).addrs, size := (f' i).size }
  size : (f' i).size.toNat = max (f i).size.toNat (off + tot)
  covered : Covered c' (f' i)
  start : off ≤ (f i).size.toNat ∧ off + n ≤ MAXFILE * BSIZE
  le : tot ≤ n
  outside : ∀ x, x < off ∨ off + n ≤ x → byteAt c' (f' i) x = byteAt s.cache (f i) x
  inside : ∀ x, off ≤ x → x < off + tot → src (x - off) = some (byteAt c' (f' i) x)
  untouched : (∀ j, j < n → (src j).isSome) → ∀ x, off + tot ≤ x →
    byteAt c' (f' i) x = byteAt s.cache (f i) x
  whole : chunk off n = n → tot = 0 ∨ tot = n
  slots : ∀ k, slotAt s.cache (f i) k ≠ 0 → slotAt c' (f' i) k = slotAt s.cache (f i) k
  others : ∀ bn, ¬ InRange off n bn → blockOf c' (f' i) bn = blockOf s.cache (f i) bn
  plain : ∀ e ∈ u, e = .hole ∨ ∃ x, e = .logWrite x
  logs : ∀ x, .logWrite x ∈ u → x = s.sb.IBLOCK i ∨ ∃ bn, InRange off n bn ∧
    (x ≠ 0 ∧ x = blockOf c' (f' i) bn ∨ blockOf s.cache (f i) bn = 0 ∧
      (s.sb.IsBitmap x ∨ NDIRECT ≤ bn ∧ x ≠ 0 ∧ x = slotAt c' (f' i) .indirect))
  inode : .logWrite (s.sb.IBLOCK i) ∈ u
  logged : tot = n → ∀ bn, InRange off n bn → .logWrite (blockOf c' (f' i) bn) ∈ u ∧
    (blockOf s.cache (f i) bn = 0 → (∃ x, s.sb.IsBitmap x ∧ .logWrite x ∈ u) ∧
      (NDIRECT ≤ bn → .logWrite (slotAt c' (f' i) .indirect) ∈ u))

/-- The loop has ended, the size is set and the inode is stored. -/
theorem Written.wrote {off n : Nat}
    (h : Written s f ip i src 0 off n tot s1 u c₁ f₁) (hi : i < s.sb.ninodes)
    (ht : (f i).type ≠ 0) (hcov : Covered s.cache (f i)) (hstart : off ≤ (f i).size.toNat)
    (hmax : off + n ≤ MAXFILE * BSIZE) (hd : d = { f₁ i with size := d.size })
    (hsize : d.size.toNat = max (f i).size.toNat (off + tot)) :
    Wrote s f ip i src off n tot (s.put ip (storeDinode s.sb c₁ i d) d)
      (u ++ [.logWrite (s.sb.IBLOCK i)]) (storeDinode s.sb c₁ i d)
      (update f₁ i d) := by
  have hle := h.le
  have haddrs : d.addrs = (f₁ i).addrs := by rw [hd]
  have htype : d.type ≠ 0 := by
    rw [hd]
    exact h.grows.type_eq i ▸ ht
  obtain ⟨hupdate, hslots, hbytes⟩ := h.grows.stored hi ht haddrs htype
  have hself : update f₁ i d i = d := update_self i d f₁
  have hblocks : ∀ bn, blockOf (storeDinode s.sb c₁ i d) d bn = blockOf c₁ (f₁ i) bn := by
    intro bn
    unfold blockOf
    split
    · exact hslots _
    · rfl
  have hcovered : Covered (storeDinode s.sb c₁ i d) d := by
    refine ⟨by have := hcov.1; omega, fun bn hbn => ?_⟩
    rw [hblocks]
    by_cases hold : bn * BSIZE < (f i).size.toNat
    · rw [h.grows.blockOf (hcov.2 bn hold)]
      exact hcov.2 bn hold
    · refine h.covered bn ⟨bn * BSIZE, by omega, by omega, ?_⟩
      exact Nat.mul_div_cancel bn (by decide)
  refine ⟨by rw [hself], hupdate, ?_, by rw [hself, hsize], by rw [hself]; exact hcovered,
    ⟨hstart, hmax⟩, by omega, ?_, ?_, ?_, ?_, ?_, ?_, ?_, ?_, ?_, ?_⟩
  · rw [hself, hd, h.grows.info]
  · intro x hx
    rw [hself, hbytes, h.outside x hx]
  · intro x hlo hhi
    rw [hself, hbytes, ← h.inside x hlo (by omega), zero_add]
  · intro hsrc x hx
    have hsrc' : ∀ j, j < n → (src (0 + j)).isSome := fun j hj => by
      rw [zero_add]
      exact hsrc j hj
    rw [hself, hbytes, h.untouched hsrc' x (by omega)]
  · intro hchunk
    have hwhole := h.whole hchunk
    omega
  · intro k hk
    rw [hself, hslots, h.grows.slots k hk]
  · intro bn hbn
    rw [hself, hblocks, h.others bn hbn]
  · intro e he
    rcases mem_append.1 he with he | he
    · exact h.plain e he
    · exact .inr ⟨_, mem_singleton.1 he⟩
  · intro x hx
    rcases mem_append.1 hx with hx | hx
    · right
      obtain ⟨bn, hbn, hcase⟩ := h.logs x hx
      refine ⟨bn, hbn, ?_⟩
      rwa [hself, hblocks, hslots]
    · left
      simpa using hx
  · exact mem_append_right _ (mem_singleton_self _)
  · intro htot bn hbn
    obtain ⟨hblock, hmissing⟩ := h.logged (by omega) bn hbn
    rw [hself, hblocks, hslots]
    refine ⟨mem_append_left _ hblock, fun h0 => ?_⟩
    obtain ⟨⟨x, hx, hxu⟩, hind⟩ := hmissing h0
    exact ⟨⟨x, hx, mem_append_left _ hxu⟩, fun hle => mem_append_left _ (hind hle)⟩

/-- Storing the inode changes nothing of what the loop has left. -/
theorem Ended.stored {off n : Nat} {tail : List UInt8}
    (h : Ended s f i src 0 off n k c₁ f₁ tail) (hgrows : Grows s.sb i s.cache f c₁ f₁)
    (hi : i < s.sb.ninodes) (ht : (f i).type ≠ 0) (hd : d = { f₁ i with size := d.size }) :
    Ended s f i src 0 off n k (storeDinode s.sb c₁ i d) (update f₁ i d) tail := by
  have haddrs : d.addrs = (f₁ i).addrs := by rw [hd]
  have ht1 : (f₁ i).type ≠ 0 := by rw [hgrows.type_eq]; exact ht
  obtain ⟨hslots, hbytes⟩ := hgrows.accounts.storeDinode_view (d := d) hi hi ht1 haddrs
  have hself : update f₁ i d i = d := update_self i d f₁
  have hblocks : ∀ bn, blockOf (storeDinode s.sb c₁ i d) d bn = blockOf c₁ (f₁ i) bn := by
    intro bn
    unfold blockOf
    split
    · exact hslots _
    · rfl
  have hfull : DiskFull s.sb c₁ → DiskFull s.sb (storeDinode s.sb c₁ i d) := by
    intro hfull b hb
    rw [used_congr (storeDinode_of_le hgrows.accounts.wf hi (s.sb.le_BBLOCK b))]
    exact hfull b hb
  refine ⟨h.le, h.boundary, ?_, ?_, ?_, ?_⟩
  · rw [hself]
    cases h.stop with
    | finished hm => exact Stop.finished hm
    | full hm hblock hf => exact Stop.full hm (by rw [hblocks, hblock]) (hfull hf)
    | source hm hblock hlen => exact Stop.source hm (by rw [hblocks]; exact hblock) hlen
  · intro x hx
    rw [hself, hbytes, h.behind x hx]
  · intro bn hbn
    rw [hself, hblocks, h.ahead bn hbn]
  · intro hlt
    rw [hself, hslots, h.indirect hlt]

include h hi ht hip in
/-- `writei`: what it has written, and why it stops. -/
theorem writei_ends {off n : Nat} (hinum : (s.itable ip).inum = i) (hcov : Covered s.cache (f i)) :
    Spec I DoubleFree (writei ip src off n) s fun r s' u =>
      (r = -1 ∧ s' = s ∧ u = [] ∧ ((f i).size.toNat < off ∨ (off + n) % 2 ^ 32 < off ∨
        MAXFILE * BSIZE < off + n)) ∨
      ∃ (k : Nat) (c' : Nat → Block) (f' : Nat → Dinode) (tail : List UInt8),
        r = k ∧ Wrote s f ip i src off n k s' u c' f' ∧ Ended s f i src 0 off n k c' f' tail := by
  unfold writei
  refine .read_bind (a := (f i).size.toNat) (by rw [← hip]) ?_
  split
  · rename_i hstart
    exact .pure (.inl ⟨rfl, rfl, rfl, by omega⟩)
  split
  · rename_i hmax
    exact .pure (.inl ⟨rfl, rfl, rfl, by omega⟩)
  rename_i hstart hmax
  refine (writeiFrom_ends h hi ht hip (le_refl n) (by omega)).bind ?_
  rintro tot s1 u1 ⟨c₁, f₁, k, tail, rfl, hw, hend⟩
  rw [Nat.zero_add] at hw ⊢
  have hle := hw.le
  have hsize1 : (f₁ i).size = (f i).size := by rw [hw.grows.info]
  -- the new size, which fits in a `uint`
  have hfit : (UInt32.ofNat (off + k)).toNat = off + k := by
    rw [UInt32.toNat_ofNat', mod_eq_of_lt]
    unfold MAXFILE NDIRECT NINDIRECT BSIZE at hmax
    omega
  refine .bind (P := fun _ s2 u => ∃ d, s2 = s.put ip c₁ d ∧ u = [] ∧
    d = { f₁ i with size := d.size } ∧ d.size.toNat = max (f i).size.toNat (off + k))
    (Spec.modify ?_) ?_
  · rw [hw.state, Kernel.put_itable_self]
    by_cases hgrow : off + k > (f₁ i).size.toNat
    · refine ⟨{ f₁ i with size := UInt32.ofNat (off + k) }, ?_, rfl, rfl, ?_⟩
      · rw [if_pos hgrow]
        simp [Kernel.put, Kernel.setInode]
      rw [hsize1] at hgrow
      show (UInt32.ofNat (off + k)).toNat = _
      rw [hfit]
      omega
    · refine ⟨f₁ i, by rw [if_neg hgrow], rfl, rfl, ?_⟩
      rw [hsize1] at hgrow ⊢
      omega
  rintro _ s2 u2 ⟨d, rfl, rfl, hd, hsize⟩
  refine (iupdate_spec hinum).bind ?_
  rintro _ s3 u3 ⟨rfl, rfl⟩
  apply Spec.pure
  simp only [nil_append, append_nil]
  exact .inr ⟨k, _, _, tail, rfl, hw.wrote hi ht hcov (by omega) (by omega) hd hsize,
    hend.stored hw.grows hi ht hd⟩

include h hi ht hip in
theorem writei_spec {off n : Nat} (hinum : (s.itable ip).inum = i) (hcov : Covered s.cache (f i)) :
    Spec I DoubleFree (writei ip src off n) s fun r s' u => (r = -1 ∧ s' = s ∧ u = []) ∨
      ∃ (tot : Nat) (c' : Nat → Block) (f' : Nat → Dinode),
        r = tot ∧ Wrote s f ip i src off n tot s' u c' f' := by
  refine (writei_ends h hi ht hip hinum hcov).mono ?_
  rintro r s' u (⟨hr, hs, hu, _⟩ | ⟨k, c', f', tail, hr, hw, _⟩)
  · exact .inl ⟨hr, hs, hu⟩
  · exact .inr ⟨k, c', f', hr, hw⟩

/-! ## `readi` -/

/-- The `n` bytes of a file from `off` on. -/
def fileBytes (c : Nat → Block) (d : Dinode) (off n : Nat) : List UInt8 :=
  (List.range n).map fun j => byteAt c d (off + j)

theorem fileBytes_add (c : Nat → Block) (d : Dinode) (off m n : Nat) :
    fileBytes c d off (m + n) = fileBytes c d off m ++ fileBytes c d (off + m) n := by
  unfold fileBytes
  rw [range_add, map_append, map_map]
  congr 1
  apply map_congr_left
  intro j _
  simp [add_assoc]

theorem bmapAddr_present {j : Fin (NDIRECT + 1)} (hne : (s.itable ip).addrs j ≠ 0) :
    Spec I DoubleFree (bmapAddr ip j) s fun b s' u =>
      b = ((s.itable ip).addrs j).toNat ∧ s' = s ∧ u = [] := by
  have hnat : ((s.itable ip).addrs j).toNat ≠ 0 := fun h0 => hne (UInt32.toNat_inj.1 h0)
  refine (readSlot_spec fun s => (s.itable ip).addrs j).bind ?_
  rintro b s' u ⟨rfl, rfl, rfl⟩
  rw [if_neg hnat, if_neg hnat]
  exact .pure ⟨rfl, rfl, rfl⟩

theorem bmapEntry_present {ind j : Nat} (hne : getEntry (s.cache ind) j ≠ 0) :
    Spec I DoubleFree (bmapEntry ind j) s fun b s' u =>
      b = (getEntry (s.cache ind) j).toNat ∧ s' = s ∧ u = [] := by
  have hnat : (getEntry (s.cache ind) j).toNat ≠ 0 := fun h0 => hne (UInt32.toNat_inj.1 h0)
  refine (readSlot_spec fun s => getEntry (s.cache ind) j).bind ?_
  rintro b s' u ⟨rfl, rfl, rfl⟩
  rw [if_neg hnat, if_neg hnat]
  exact .pure ⟨rfl, rfl, rfl⟩

/-- `bmap` of a block that is there. -/
theorem bmap_present (hip : (s.itable ip).toDinode = d) (hne : blockOf s.cache d bn ≠ 0) :
    Spec I DoubleFree (bmap ip bn) s fun b s' u => b = blockOf s.cache d bn ∧ s' = s ∧ u = [] := by
  subst hip
  unfold bmap
  unfold blockOf blockSlot at hne ⊢
  split
  · rename_i hdirect
    simp only [hdirect, dite_true, slotAt] at hne ⊢
    exact bmapAddr_present fun h0 => hne (by rw [h0]; rfl)
  rename_i hdirect
  split
  · rename_i hentry
    simp only [hdirect, hentry, dite_true, dite_false, slotAt] at hne ⊢
    by_cases hind : (s.itable ip).addrs (Fin.last NDIRECT) = 0
    · rw [if_pos hind] at hne
      exact absurd rfl hne
    rw [if_neg hind] at hne ⊢
    have hnat : ((s.itable ip).addrs (Fin.last NDIRECT)).toNat ≠ 0 :=
      fun h0 => hind (UInt32.toNat_inj.1 h0)
    refine (bmapAddr_present hind).bind ?_
    rintro b s' u ⟨rfl, rfl, rfl⟩
    rw [if_neg hnat]
    exact bmapEntry_present fun h0 => hne (by rw [h0]; rfl)
  · rename_i hentry
    simp only [hdirect, hentry, dite_false, ne_eq, not_true_eq_false] at hne

/-- A loop over blocks that are all there changes nothing, and reads the
bytes of the file if the destination can be written. -/
theorem readiFrom_spec {dst : Nat → Bool} {fuel off n : Nat}
    (hip : (s.itable ip).toDinode = d) (hfuel : n ≤ fuel)
    (hcov : ∀ x, off ≤ x → x < off + n → blockOf s.cache d (x / BSIZE) ≠ 0) :
    Spec I DoubleFree (readiFrom ip dst fuel tot off n) s fun r s' u => s' = s ∧ u = [] ∧
      ((∀ j, dst j = true) → r = (true, fileBytes s.cache d off n)) := by
  induction fuel generalizing I tot off n with
  | zero =>
    have hn : n = 0 := by omega
    subst hn
    exact .pure ⟨rfl, rfl, fun _ => rfl⟩
  | succ fuel ih =>
    rw [readiFrom]
    by_cases hn : n = 0
    · rw [if_pos hn, hn]
      exact .pure ⟨rfl, rfl, fun _ => rfl⟩
    rw [if_neg hn]
    have hpos : 0 < chunk off n := chunk_pos hn
    have hle : chunk off n ≤ n := chunk_le
    have hne := hcov off (le_refl _) (by omega)
    refine (bmap_present hip hne).bind ?_
    rintro b s1 u ⟨rfl, rfl, rfl⟩
    rw [if_neg hne]
    -- the bytes of the chunk are bytes of the file
    have hread : (s1.cache (blockOf s1.cache d (off / BSIZE))).read (off % BSIZE)
        (chunk off n) = fileBytes s1.cache d off (chunk off n) := by
      unfold fileBytes Buf.read
      apply map_congr_left
      intro j hj
      obtain ⟨hdiv, hmod⟩ := div_of_chunk (n := n) (Nat.le_add_right off j)
        (by have := mem_range.1 hj; omega)
      rw [byteAt, hdiv, if_neg hne, hmod, Nat.add_sub_cancel_left]
    refine .read_bind (a := fileBytes s1.cache d off (chunk off n)) (hread) ?_
    split
    · have hfuel' : n - chunk off n ≤ fuel := by omega
      have hcov' : ∀ x, off + chunk off n ≤ x → x < off + chunk off n + (n - chunk off n) →
          blockOf s1.cache d (x / BSIZE) ≠ 0 := fun x hlo hhi => hcov x (by omega) (by omega)
      refine (ih hfuel' hcov').bind ?_
      rintro r s3 u ⟨rfl, rfl, hr⟩
      refine .pure ⟨rfl, rfl, fun hdst => ?_⟩
      rw [hr hdst, ← fileBytes_add, Nat.add_sub_cancel' hle]
    · rename_i hall
      refine .pure ⟨rfl, rfl, fun hdst => ?_⟩
      exact absurd (all_eq_true.2 fun j _ => hdst _) hall

/-- `readi` of a file whose blocks cover its size changes nothing.  If it
returns as many bytes as asked for, then they are those of the file, and the
file is that long. -/
theorem readi_spec {dst : Nat → Bool} {off n : Nat}
    (hip : (s.itable ip).toDinode = d) (hcov : Covered s.cache d) :
    Spec I DoubleFree (readi ip dst off n) s fun r s' u => s' = s ∧ u = [] ∧
      ((∀ j, dst j = true) → r.1 = n → r.2 = fileBytes s.cache d off n ∧
        (n = 0 ∨ off + n ≤ d.size.toNat)) := by
  unfold readi
  refine .read_bind (a := d.size.toNat) (by rw [← hip]) ?_
  split
  · refine .pure ⟨rfl, rfl, fun _ hr => ?_⟩
    have hn : n = 0 := by simpa [eq_comm] using hr
    rw [hn]
    exact ⟨rfl, .inl rfl⟩
  rename_i hstart
  -- what is left of the file, at most `n` bytes
  have hlen : off + (if off + n > d.size.toNat then d.size.toNat - off else n) ≤
      d.size.toNat := by
    split <;> omega
  refine (readiFrom_spec hip (le_refl _) ?_).bind ?_
  · intro x hlo hhi
    apply hcov.2
    have hx := div_mul_le_self x BSIZE
    omega
  rintro r s1 u ⟨rfl, rfl, hr⟩
  refine .pure ⟨rfl, rfl, fun hdst hret => ?_⟩
  have hbytes := hr hdst
  rw [hbytes] at hret ⊢
  have hn : (if off + n > d.size.toNat then d.size.toNat - off else n) = n := by
    simp only [if_true, fileBytes, length_map, length_range] at hret
    exact_mod_cast hret
  rw [hn] at hlen ⊢
  exact ⟨rfl, .inr hlen⟩

/-! ## Directory entries -/

/-- Entry number `k` of a directory. -/
def entryAt (c : Nat → Block) (d : Dinode) (k : Nat) : Dirent :=
  Dirent.decode (fileBytes c d (16 * k) 16)

theorem entryAt_congr {d' : Dinode}
    (h : ∀ x, 16 * k ≤ x → x < 16 * k + 16 → byteAt c' d' x = byteAt c d x) :
    entryAt c' d' k = entryAt c d k := by
  unfold entryAt fileBytes
  congr 1
  apply map_congr_left
  intro j hj
  exact h _ (by omega) (by have := mem_range.1 hj; omega)

/-- Writing one entry of a directory changes that entry or none. -/
theorem Wrote.entryAt {bytes : List UInt8} {k0 : Nat}
    (h : Wrote s f ip i src (16 * k0) 16 tot s' u c' f') (hlen : bytes.length = 16)
    (hread : ∀ j, j < 16 → src j = bytes[j]?) (k : Nat) :
    Fs.entryAt c' (f' i) k = Fs.entryAt s.cache (f i) k ∨
      k = k0 ∧ Fs.entryAt c' (f' i) k = Dirent.decode bytes := by
  have hsrc : ∀ j, j < 16 → (src j).isSome := by
    intro j hj
    simp [hread j hj, hlen, hj]
  have hchunk : chunk (16 * k0) 16 = 16 := by
    unfold chunk BSIZE
    omega
  by_cases hk : k = k0
  · subst hk
    rcases h.whole hchunk with h0 | hall
    · left
      subst h0
      exact entryAt_congr fun x hlo _ => h.untouched hsrc x (by omega)
    right
    subst hall
    refine ⟨rfl, ?_⟩
    unfold Fs.entryAt
    congr 1
    apply ext_getElem (by simp [fileBytes, hlen])
    intro j hj hj'
    have hlt : j < 16 := by rwa [hlen] at hj'
    have hbyte := h.inside (16 * k + j) (by omega) (by omega)
    rw [Nat.add_sub_cancel_left, hread j hlt, List.getElem?_eq_getElem hj',
      Option.some.injEq] at hbyte
    simp [fileBytes, ← hbyte]
  · left
    exact entryAt_congr fun x hlo hhi => h.outside x (by omega)

end Fs

end Xv6
