import Xv6.Fs.Tracked
import Xv6.Vm.Copy

/-!
# What a write leaves in a file

`writei` as a later `readi` sees it.  A write of `n` bytes that returns `r`
should leave the old file with the first `r` bytes of the source in place of
those from the offset on.

* Bytes from the kernel can always be read.  The write then does this, and
  comes short only when the disk is full (`Overwritten.of_kernel`).
* Bytes from the user may end in the middle of a block.  `either_copyin` has
  then stored the first of them in the cached block, which is not taken back
  and does not count in the result (`shows_write_iff`).
-/

namespace Xv6

open Lib Function List Nat

namespace Fs

variable {off k : Nat} {src : Nat → Option UInt8} {u : List Event} {c' : Nat → Block}
  {f' : Nat → Dinode} {tail : List UInt8}

variable {I : List Event → Prop} {s s' : Kernel} {f : Nat → Dinode} {i ip : Nat}

/-! ## What `readi` shows -/

/-- A range of a file, as `readi` cuts it: there is nothing behind the end of
the file, and nothing in a range whose end is not a `uint`. -/
def Node.read (n : Node) (off len : Nat) : List UInt8 :=
  if off > n.size ∨ (off + len) % 2 ^ 32 < off then
    []
  else
    (List.range (min len (n.size - off))).map fun j => n.data (off + j)

/-- What `readi` returns for a range, and the bytes. -/
def Node.result (n : Node) (off len : Nat) : Int × List UInt8 :=
  ((n.read off len).length, n.read off len)

/-- The result and the bytes of a `readi` to kernel memory. -/
def shown (s : Kernel) (ip off len : Nat) : Option (Int × List UInt8) :=
  match ((readi ip (fun _ => true) off len).exec s).2 with
  | .done r _ => some r
  | .stuck | .panic _ => none

/-- Every `readi` of the inode in the table entry `ip` shows the file `n`. -/
def Shows (s : Kernel) (ip : Nat) (n : Node) : Prop :=
  ∀ off len, shown s ip off len = some (n.result off len)

namespace Node

variable {n n' : Node}

/-- Reading depends on the bytes below the size only. -/
theorem read_congr (hsize : n'.size = n.size) (hdata : ∀ x, x < n.size → n'.data x = n.data x)
    (off len : Nat) : n'.read off len = n.read off len := by
  unfold read
  rw [hsize]
  split
  · rfl
  apply List.map_congr_left
  intro j hj
  have hj := mem_range.1 hj
  exact hdata _ (by omega)

/-- The whole file. -/
theorem read_all {len : Nat} (h : n.size ≤ len) :
    n.read 0 len = (List.range n.size).map n.data := by
  unfold read
  rw [if_neg (by omega), Nat.sub_zero, Nat.min_eq_right h]
  simp only [zero_add]

/-- Two files that read alike have the same size and the same bytes. -/
theorem eq_of_read (h : ∀ len, n'.read 0 len = n.read 0 len) :
    n'.size = n.size ∧ ∀ x, x < n.size → n'.data x = n.data x := by
  have hall := h (max n'.size n.size)
  rw [read_all (le_max_left _ _), read_all (le_max_right _ _)] at hall
  have hsize : n'.size = n.size := by simpa using congrArg List.length hall
  refine ⟨hsize, fun x hx => ?_⟩
  have hget := congrArg (fun l : List UInt8 => l[x]?) hall
  simpa [hsize, hx] using hget

end Node

/-- `readi` of a file whose blocks cover its size delivers its bytes. -/
theorem readi_node {len : Nat} {d : Dinode} (hip : (s.itable ip).toDinode = d)
    (hcov : Covered s.cache d) : Spec I DoubleFree (readi ip (fun _ => true) off len) s fun r _ _ =>
      r = (nodeAt s.cache d).result off len := by
  unfold readi
  refine .read_bind (a := d.size.toNat) (by rw [← hip]) ?_
  have hsize : (nodeAt s.cache d).size = d.size.toNat := rfl
  unfold Node.result Node.read
  rw [hsize]
  split
  · exact .pure rfl
  have hlen : (if off + len > d.size.toNat then d.size.toNat - off else len) =
      min len (d.size.toNat - off) := by
    split <;> omega
  rw [hlen]
  refine (readiFrom_spec hip (le_refl _) ?_).bind ?_
  · intro x hlo hhi
    apply hcov.2
    have hx := Nat.div_mul_le_self x BSIZE
    omega
  rintro r s1 u ⟨rfl, rfl, hr⟩
  rw [hr fun _ => rfl]
  apply Spec.pure
  have hbytes : fileBytes s1.cache d off (min len (d.size.toNat - off)) =
      (List.range (min len (d.size.toNat - off))).map fun j =>
        (nodeAt s1.cache d).data (off + j) := by
    unfold fileBytes
    apply List.map_congr_left
    intro j hj
    have hj := List.mem_range.1 hj
    exact (if_pos (by omega)).symm
  rw [hbytes]
  rfl

/-- `readi` shows the file that the inode and its blocks hold, and no
other. -/
theorem shows_iff {n : Node} {d : Dinode} (hip : (s.itable ip).toDinode = d)
    (hcov : Covered s.cache d) :
    Shows s ip n ↔ n.size = d.size.toNat ∧ ∀ x, x < n.size → n.data x = byteAt s.cache d x := by
  have hshown : ∀ off len, shown s ip off len = some ((nodeAt s.cache d).result off len) := by
    intro off len
    have hspec : Spec (fun _ => False) DoubleFree (readi ip (fun _ => true) off len) s _ :=
      readi_node hip hcov
    obtain ⟨r, s', hdone, hr⟩ := hspec.exists_done
    rw [shown, hdone, hr]
  have hdata : ∀ x, x < d.size.toNat →
      (nodeAt s.cache d).data x = byteAt s.cache d x := fun x hx => if_pos hx
  constructor
  · intro hshows
    have hread : ∀ len, n.read 0 len = (nodeAt s.cache d).read 0 len := by
      intro len
      have heq := (hshows 0 len).symm.trans (hshown 0 len)
      exact congrArg Prod.snd (Option.some.inj heq)
    obtain ⟨hsize, hbytes⟩ := Node.eq_of_read hread
    refine ⟨hsize, fun x hx => ?_⟩
    rw [hsize] at hx
    rw [hbytes x hx, hdata x hx]
  · rintro ⟨hsize, hbytes⟩ off len
    have hread : n.read off len = (nodeAt s.cache d).read off len := by
      refine Node.read_congr hsize (fun x hx => ?_) off len
      rw [hbytes x (by rw [hsize]; exact hx)]
      exact (hdata x hx).symm
    rw [hshown, Node.result, Node.result, hread]

/-! ## What `writei` leaves -/

/-- A copy goes on behind a run that can be read. -/
theorem copyin_add (src : Nat → Option UInt8) (i m m' : Nat) : copyin src i (m + m') =
      if (copyin src i m).length = m then copyin src i m ++ copyin src (i + m) m'
      else copyin src i m := by
  induction m generalizing i with
  | zero => simp [copyin]
  | succ m ih =>
    rw [Nat.succ_add, copyin, copyin]
    cases hsrc : src i with
    | none => simp
    | some byte =>
      rw [ih (i + 1)]
      simp only [length_cons, add_right_cancel_iff]
      split
      · rw [cons_append, add_assoc, add_comm 1 m]
      · rfl

/-- The bytes that `writei` has written can be read in the source. -/
theorem Wrote.copyin_length {n : Nat} (h : Wrote s f ip i src off n k s' u c' f') :
    (copyin src 0 k).length = k := by
  apply Fs.copyin_length
  intro j hj
  have hbyte := h.inside (off + j) (by omega) (by omega)
  rw [Nat.add_sub_cancel_left] at hbyte
  rw [zero_add, hbyte]
  rfl

/-- After `writei`, the file reads as the old one with the bytes that were
written, if the bytes left behind them below the old size are the old ones. -/
theorem shows_write_iff {n : Nat}
    (h : Wrote s f ip i src off n k s' u c' f') (hend : Ended s f i src 0 off n k c' f' tail) :
    Shows s' ip ((nodeAt s.cache (f i)).write off (copyin src 0 k)) ↔
      ∀ x, off + k ≤ x → x < off + k + tail.length → x < (f i).size.toNat →
        tail.getD (x - (off + k)) 0 = byteAt s.cache (f i) x := by
  have hstart := h.start.1
  have hlen := h.copyin_length
  have hcache : s'.cache = c' := by rw [h.state, Kernel.put_cache]
  have hsize : ((nodeAt s.cache (f i)).write off (copyin src 0 k)).size = (f' i).size.toNat := by
    rw [h.size, Node.write, hlen]
    rfl
  have hip' : (s'.itable ip).toDinode = f' i := by rw [h.state, Kernel.put_itable_self]
  have hcov' : Covered s'.cache (f' i) := by
    rw [hcache]
    exact h.covered
  rw [shows_iff hip' hcov', hcache, hsize]
  simp only [true_and, Node.write, nodeAt, hlen]
  constructor
  · intro hdata x hlo hhi hx
    have hbyte := hdata x (by rw [h.size]; omega)
    rw [if_neg (by omega), if_pos hx, hend.behind x hlo, if_pos hhi] at hbyte
    exact hbyte.symm
  intro hold x hx
  rw [h.size] at hx
  by_cases hlo : x < off
  · rw [if_neg (by omega), if_pos (by omega), h.outside x (.inl hlo)]
  by_cases hin : x < off + k
  · have hsrc : src (0 + (x - off)) = some ((copyin src 0 k).getD (x - off) 0) :=
      src_of_copyin (by omega)
    rw [Nat.zero_add, h.inside x (by omega) hin, Option.some.injEq] at hsrc
    rw [if_pos ⟨by omega, hin⟩, hsrc]
  rw [if_neg (by omega), if_pos (by omega), hend.behind x (by omega)]
  split
  · rename_i htail
    exact (hold x (by omega) htail (by omega)).symm
  · rfl

/-! ## A disk with one file -/

/-- A file of four zero bytes in block 46. -/
def noteFile : Dinode :=
  { Dinode.zero with
    type := T_FILE, nlink := 1, size := 4, addrs := fun j => if j = 0 then 46 else 0 }

def noteDisk (b : Nat) : Block :=
  if b = 32 then
    putDinode (putDinode (fun _ => 0) 1 { Dinode.zero with type := T_DIR, nlink := 1 }) 2 noteFile
  else if b = 45 then
    smallDisk 45
  else
    fun _ => 0

/-- Process 0 has locked the file. -/
def noteKernel : Kernel :=
  { smallKernel with
    cache := noteDisk
    itable := update smallKernel.itable 0
      { toDinode := noteFile, inum := 2, ref := 1, lock := some proc₀, valid := true } }

theorem noteDisk_rest (x : Nat) (hlo : 32 < x) (hhi : x < 45) : noteDisk x = fun _ => 0 := by
  unfold noteDisk
  rw [if_neg (by omega), if_neg (by omega)]

theorem noteDisk_inode {i : Nat} (hi : i < mkfsSuperblock.ninodes) :
    dinodeAt mkfsSuperblock noteDisk i =
      if i = 1 then { Dinode.zero with type := T_DIR, nlink := 1 }
      else if i = 2 then noteFile else Dinode.zero :=
  dinodeAt_two rfl noteDisk_rest hi

theorem noteDisk_owner {o : Nat × Slot} (ho : mkfsOwners noteDisk o ≠ 0) :
    o = (2, .addr 0) ∧ mkfsOwners noteDisk o = 46 := by
  obtain ⟨j, ⟨rfl, hne, -⟩ | ⟨rfl, hne, heq⟩⟩ :=
    owners_two (a := { Dinode.zero with type := T_DIR, nlink := 1 }) (b := noteFile) rfl
      noteDisk_rest rfl rfl ho
  · exact absurd rfl hne
  have hj : ∀ j : Fin (NDIRECT + 1), (noteFile.addrs j).toNat ≠ 0 → j = 0 := by decide
  obtain rfl := hj j hne
  exact ⟨rfl, heq⟩

theorem noteDisk_bitmap : noteDisk 45 = smallDisk 45 := by
  rw [noteDisk, if_neg (by decide), if_pos rfl]

theorem noteDisk_accounts :
    Accounts mkfsSuperblock noteDisk (dinodeAt mkfsSuperblock noteDisk) where
  wf := mkfsSuperblock_wellFormed
  reserved := reserved_small noteDisk_bitmap
  exact := by
    have hnote : mkfsOwners noteDisk (2, .addr 0) = 46 := by
      rw [mkfsOwners, owners, noteDisk_inode (by decide)]
      rfl
    have htracked := tracked_small noteDisk_bitmap hnote fun _ ho => .inl (noteDisk_owner ho).1
    refine htracked.exact fun o ho => ?_
    show mkfsSuperblock.IsData (mkfsOwners noteDisk o)
    rw [(noteDisk_owner ho).2]
    decide

theorem noteDisk_file : dinodeAt mkfsSuperblock noteDisk 2 = noteFile := by
  rw [noteDisk_inode (by decide), if_neg (by decide), if_pos rfl]

theorem noteDisk_covered : Covered noteDisk (dinodeAt mkfsSuperblock noteDisk 2) := by
  rw [noteDisk_file]
  refine ⟨by decide, fun bn hbn => ?_⟩
  have hbn : bn * 1024 < 4 := hbn
  obtain rfl : bn = 0 := by omega
  decide

/-! ## Bytes from the kernel -/

theorem copyin_kernelSrc (bytes : List UInt8) (i m : Nat) :
    copyin (kernelSrc bytes) i m = (bytes.drop i).take m := by
  induction m generalizing i with
  | zero => simp [copyin]
  | succ m ih =>
    rw [copyin, kernelSrc]
    by_cases hi : i < bytes.length
    · rw [List.getElem?_eq_getElem hi, List.drop_eq_getElem_cons hi, List.take_succ_cons]
      rw [ih]
    · rw [List.getElem?_eq_none (by omega), List.drop_eq_nil_of_le (by omega)]
      rfl

/-- `writei` has returned `r`, and the first `r` bytes are in the file from
`off` on.  It comes short only when no block is free, and no other inode
changes. -/
structure Overwritten (s : Kernel) (f : Nat → Dinode) (ip i : Nat) (bytes : List UInt8)
    (off r : Nat) (s' : Kernel) : Prop where
  le : r ≤ bytes.length
  shows : Shows s' ip ((nodeAt s.cache (f i)).write off (bytes.take r))
  size : (s'.itable ip).size.toNat = max (f i).size.toNat (off + r)
  short : r < bytes.length → DiskFull s'.sb s'.cache
  others : ∀ j, j ≠ i → view s'.sb s'.cache f j = view s.sb s.cache f j
  disk : ∀ j, j < s.sb.ninodes → j ≠ i → dinodeAt s'.sb s'.cache j = dinodeAt s.sb s.cache j
  table : ∀ jp, jp ≠ ip → s'.itable jp = s.itable jp

/-- A write of `bytes` from kernel memory, if it returns, has overwritten the
file.  It does not when the log has no room for the blocks that it changes. -/
def KernelWriteLaw (s : Kernel) (f : Nat → Dinode) (ip i : Nat) (bytes : List UInt8)
    (off : Nat) : Prop :=
  ∀ (r : Int) (s' : Kernel),
    ((writei ip (kernelSrc bytes) off bytes.length).exec s).2 = .done r s' →
      0 ≤ r ∧ Overwritten s f ip i bytes off r.toNat s'

theorem Overwritten.of_kernel {bytes : List UInt8}
    (h : Wrote s f ip i (kernelSrc bytes) off bytes.length k s' u c' f')
    (hend : Ended s f i (kernelSrc bytes) 0 off bytes.length k c' f' tail) :
    Overwritten s f ip i bytes off k s' := by
  have hsb : s'.sb = s.sb := by rw [h.state, Kernel.put_sb]
  have hcache : s'.cache = c' := by rw [h.state, Kernel.put_cache]
  -- the source never ends too early
  have hstop : tail = [] ∧ (k < bytes.length → DiskFull s.sb c') := by
    cases hend.stop with
    | finished hm =>
      refine ⟨rfl, fun hlt => ?_⟩
      omega
    | full hm hblock hfull => exact ⟨rfl, fun _ => hfull⟩
    | source hm hblock hlen =>
      have hle : chunk (off + k) (bytes.length - k) ≤ bytes.length - k := chunk_le
      rw [copyin_kernelSrc, List.length_take, List.length_drop] at hlen
      omega
  have hview := h.update.view
  refine ⟨h.le, ?_, ?_, ?_, ?_, ?_, ?_⟩
  · have hshows := (shows_write_iff h hend).2 fun x hlo hhi => by
      rw [hstop.1, List.length_nil] at hhi
      omega
    rwa [copyin_kernelSrc, List.drop_zero] at hshows
  · rw [h.state, Kernel.put_itable_self]
    exact h.size
  · rw [hsb, hcache]
    exact hstop.2
  · intro j hj
    have hother := congrFun hview j
    rw [update_of_ne hj] at hother
    rw [hsb, hcache, ← hother, view, view, h.update.others j hj]
  · intro j hlt hj
    rw [hsb, hcache, h.update.disk j hlt, if_neg hj]
  · intro jp hjp
    rw [h.state]
    exact update_of_ne hjp _ _

/-- The file and the root directory share block 46. -/
def sharedKernel : Kernel :=
  { noteKernel with
    cache := fun b => if b = 32 then
      putDinode (putDinode (fun _ => 0) 1 smallRoot) 2 noteFile else smallDisk b }

/-- The state after a write of one byte. -/
def sharedAfter : Kernel :=
  match ((writei 0 (kernelSrc [7]) 0 1).exec sharedKernel).2 with
  | .done _ s' => s'
  | .stuck | .panic _ => sharedKernel

/-- A user range as the source of a write. -/
def userSrc (pt : PageTable) (ram : Ram) (srcva : Nat) : Nat → Option UInt8 :=
  fun j => loadByte pt ram (srcva + j)

theorem copyin_shift (src : Nat → Option UInt8) (a i m : Nat) :
    copyin (fun j => src (a + j)) i m = copyin src (a + i) m := by
  induction m generalizing i with
  | zero => rfl
  | succ m ih =>
    rw [copyin, copyin, ih]
    rfl

/-- A write returns `r`, and the file then reads as the old one with the
first `r` bytes of the source from `off` on. -/
def OverwriteLaw (s : Kernel) (f : Nat → Dinode) (ip i : Nat) (src : Nat → Option UInt8)
    (off n : Nat) : Prop :=
  ∃ (r : Int) (s' : Kernel), ((writei ip src off n).exec s).2 = .done r s' ∧
    Shows s' ip (if r < 0 then nodeAt s.cache (f i) else
      (nodeAt s.cache (f i)).write off (copyin src 0 r.toNat))

/-- The write is refused because of its length, or all of the source can be
read, or those readable bytes that share a block with the first that is not
readable are in the file already. -/
def Intact (c : Nat → Block) (d : Dinode) (src : Nat → Option UInt8) (off n : Nat) : Prop :=
  MAXFILE * BSIZE < off + n ∨ (copyin src 0 n).length = n ∨
    ∀ x, max off ((off + (copyin src 0 n).length) / BSIZE * BSIZE) ≤ x →
      x < off + (copyin src 0 n).length → x < d.size.toNat → src (x - off) = some (byteAt c d x)

/-- The first byte of the source that cannot be read is in the chunk in front
of which the loop has stopped. -/
theorem Ended.readable {n : Nat} (h : Ended s f i src 0 off n k c' f' tail)
    (hk : (copyin src 0 k).length = k) :
    (copyin src 0 n).length = k + (copyin src k (n - k)).length := by
  have hadd := copyin_add src 0 k (n - k)
  rw [if_pos hk, Nat.zero_add, Nat.add_sub_cancel' h.le] at hadd
  rw [hadd, length_append, hk]

/-- A short copy stays short when more is asked for. -/
theorem copyin_of_short {i m n : Nat} (hle : m ≤ n)
    (h : (copyin src i m).length < m) : copyin src i n = copyin src i m := by
  have hadd := copyin_add src i m (n - m)
  rwa [if_neg (by omega), Nat.add_sub_cancel' hle] at hadd

/-- The bytes left behind are the old ones just if the condition on the
source holds. -/
theorem Ended.intact_iff {n : Nat}
    (hend : Ended s f i src 0 off n k c' f' tail) (h : Wrote s f ip i src off n k s' u c' f') :
    (∀ x, off + k ≤ x → x < off + k + tail.length → x < (f i).size.toNat →
      tail.getD (x - (off + k)) 0 = byteAt s.cache (f i) x) ↔ Intact s.cache (f i) src off n := by
  have hk := h.copyin_length
  have hread := hend.readable hk
  have hstop := hend.stop
  rw [zero_add] at hstop
  cases hstop with
  | finished hm =>
    refine iff_of_true (fun x hlo hhi => ?_) (.inr (.inl ?_))
    · rw [List.length_nil] at hhi
      omega
    have hle := hend.le
    rw [hread, hm]
    show k + 0 = n
    omega
  | full hm hblock hfull =>
    refine iff_of_true (fun x hlo hhi => ?_) (.inr (.inr fun x hlo hhi hx => ?_))
    · rw [List.length_nil] at hhi
      omega
    -- the missing block lies behind the end of the file
    have hmiss : (f' i).size.toNat ≤ (off + k) / BSIZE * BSIZE := by
      by_contra hlt
      exact h.covered.2 _ (by omega) hblock
    have hmono : (off + k) / BSIZE * BSIZE ≤ (off + (copyin src 0 n).length) / BSIZE * BSIZE :=
      Nat.mul_le_mul_right _ (Nat.div_le_div_right (by omega))
    rw [h.size] at hmiss
    omega
  | source hm hblock hlen =>
    have hchunk : chunk (off + k) (n - k) ≤ n - k := chunk_le
    rw [copyin_of_short hchunk hlen] at hread
    -- the block of the first unreadable byte starts where the loop has stopped
    have hfirst : max off ((off + (copyin src 0 n).length) / BSIZE * BSIZE) = off + k := by
      have hblock : (off + k + (copyin src k (chunk (off + k) (n - k))).length) / BSIZE =
          (off + k) / BSIZE := (div_of_chunk (n := n - k) (by omega) (by omega)).1
      have hbound := hend.boundary
      rw [hread, ← add_assoc, hblock]
      unfold BSIZE at *
      omega
    have hsrc : ∀ x, off + k ≤ x → x < off + k + (copyin src k (chunk (off + k) (n - k))).length →
        src (x - off) = some ((copyin src k (chunk (off + k) (n - k))).getD (x - (off + k)) 0) := by
      intro x hlo hhi
      rw [← src_of_copyin (by omega)]
      congr 1
      omega
    have hmax := h.start.2
    unfold Intact
    rw [hfirst, hread, ← add_assoc]
    constructor
    · intro hold
      refine Or.inr (Or.inr fun x hlo hhi hx => ?_)
      rw [hsrc x hlo hhi, hold x hlo hhi hx]
    rintro (hlong | hall | hold) x hlo hhi hx
    · omega
    · omega
    have heq := hold x hlo hhi hx
    rw [hsrc x hlo hhi, Option.some.injEq] at heq
    exact heq

/-- A write from the user overwrites the file just if no byte of an unfinished
chunk shows. -/
theorem writei_user_law_iff (pt : PageTable) (ram : Ram) (srcva off n : Nat)
    (h : Accounts s.sb s.cache f) (hi : i < s.sb.ninodes) (ht : (f i).type ≠ 0)
    (hip : (s.itable ip).toDinode = f i) (hinum : (s.itable ip).inum = i)
    (hcov : Covered s.cache (f i)) :
    OverwriteLaw s f ip i (userSrc pt ram srcva) off n ↔
      Intact s.cache (f i) (userSrc pt ram srcva) off n := by
  have hspec : Spec (fun _ => False) DoubleFree (writei ip (userSrc pt ram srcva) off n) s _ :=
    writei_ends h hi ht hip hinum hcov
  obtain ⟨r, s', hdone, hr⟩ := hspec.exists_done
  have hlaw : OverwriteLaw s f ip i (userSrc pt ram srcva) off n ↔
      Shows s' ip (if r < 0 then nodeAt s.cache (f i) else
        (nodeAt s.cache (f i)).write off (copyin (userSrc pt ram srcva) 0 r.toNat)) := by
    constructor
    · rintro ⟨r₁, s₁, hdone₁, hshows⟩
      rw [hdone] at hdone₁
      cases hdone₁
      exact hshows
    · intro hshows
      exact ⟨r, s', hdone, hshows⟩
  rw [hlaw]
  rcases hr with ⟨rfl, rfl, -, hrefused⟩ | ⟨k, c', f', tail, rfl, hw, hend⟩
  · rw [if_pos (by decide)]
    refine iff_of_true ((shows_iff hip hcov).2 ⟨rfl, fun x hx => if_pos hx⟩) ?_
    by_cases hlong : MAXFILE * BSIZE < off + n
    · exact .inl hlong
    · refine .inr (.inr fun x hlo hhi hx => ?_)
      have hfit : (off + n) % 2 ^ 32 = off + n := by
        apply Nat.mod_eq_of_lt
        unfold MAXFILE NDIRECT NINDIRECT BSIZE at hlong
        omega
      omega
  · rw [if_neg (by omega), Int.toNat_natCast, shows_write_iff hw hend]
    exact hend.intact_iff hw

/-- The last byte of the only page, and three that cannot be read. -/
def noteSrc (byte : UInt8) : Nat → Option UInt8 := userSrc (onePage 4096) (fun _ => byte) 4095

/-- The byte is in the file already. -/
theorem noteSrc_intact :
    Intact noteKernel.cache (dinodeAt mkfsSuperblock noteDisk 2) (noteSrc 0) 0 4 := by
  have hlen : (copyin (noteSrc 0) 0 4).length = 1 := by decide +kernel
  refine .inr (.inr fun x _ hhi _ => ?_)
  obtain rfl : x = 0 := by omega
  rw [noteDisk_file]
  decide +kernel

theorem writei_user_law_iff_note :
    OverwriteLaw noteKernel (dinodeAt mkfsSuperblock noteDisk) 0 2 (noteSrc 0) 0 4 := by
  have ht : (dinodeAt mkfsSuperblock noteDisk 2).type ≠ 0 := by
    rw [noteDisk_file]
    decide
  have hip : (noteKernel.itable 0).toDinode = dinodeAt mkfsSuperblock noteDisk 2 :=
    noteDisk_file.symm
  have hiff := writei_user_law_iff (onePage 4096) (fun _ => 0) 4095 0 4 noteDisk_accounts
    (by decide) ht hip rfl noteDisk_covered
  exact hiff.2 noteSrc_intact

/-- The state after a write of four bytes whose second byte cannot be read. -/
def noteAfter : Kernel :=
  match ((writei 0 (noteSrc 7) 0 4).exec noteKernel).2 with
  | .done _ s' => s'
  | .stuck | .panic _ => noteKernel

/-- The write returns 0, and the first byte of the file has changed. -/
theorem writei_user_partial_chunk : ∃ (s s' : Kernel) (f : Nat → Dinode) (pt : PageTable)
    (ram : Ram) (srcva : Nat), Accounts s.sb s.cache f ∧ (s.itable 0).toDinode = f 2 ∧
      Covered s.cache (f 2) ∧
      ((writei 0 (userSrc pt ram srcva) 0 4).exec s).2 = .done 0 s' ∧
      shown s 0 0 1 = some (1, [0]) ∧ shown s' 0 0 1 = some (1, [7]) ∧
      ¬ OverwriteLaw s f 0 2 (userSrc pt ram srcva) 0 4 := by
  have hdone : ((writei 0 (noteSrc 7) 0 4).exec noteKernel).2 = .done 0 noteAfter := by rfl
  have hnew : shown noteAfter 0 0 1 = some (1, [7]) := by decide +kernel
  refine ⟨noteKernel, noteAfter, dinodeAt mkfsSuperblock noteDisk, onePage 4096, fun _ => 7, 4095,
    noteDisk_accounts, noteDisk_file.symm, noteDisk_covered, hdone, by decide +kernel, hnew, ?_⟩
  rintro ⟨r, s', hdone', hshows⟩
  have hsame := hdone.symm.trans hdone'
  cases hsame
  have hbyte := hnew.symm.trans (hshows 0 1)
  rw [noteDisk_file] at hbyte
  revert hbyte
  decide +kernel

end Fs

end Xv6
