import Xv6.Fs.Create
import Xv6.Fs.System

/-!
# The free bitmap over a whole run

Every operation of the inode layer keeps the free bitmap exact: a data block
is marked used if and only if one slot of one allocated inode holds it.  The
inode table is the only record of who holds which inode, so `Kernel.refs`
reads the references off the table, and `Sound` says that they are held.

An image that satisfies this is not enough by itself: a slot may also hold a
block that is no data block.  `bitmap_overwritten` is such an image, where a
file has the bitmap itself as its first block.
-/

namespace Xv6

open Lib List

namespace Fs

/-! ## References -/

/-- The references to the entries of the inode table. -/
def Kernel.refs (s : Kernel) : List Ref :=
  (List.range NINODE).flatMap fun ip =>
    List.replicate (s.itable ip).ref.toNat ⟨ip, (s.itable ip).inum, (s.itable ip).valid⟩

/-- The state between two operations: the disk is in order, and the table
agrees with it. -/
def Sound (s : Kernel) : Prop := ∃ f, Held s f s.refs

section Refs

variable {s : Kernel} {f : Nat → Dinode} {l : List Ref}

theorem mem_refs {r : Ref} : r ∈ s.refs ↔ r.ip < NINODE ∧ 0 < (s.itable r.ip).ref ∧
    r.inum = (s.itable r.ip).inum ∧ r.valid = (s.itable r.ip).valid := by
  obtain ⟨ip, inum, valid⟩ := r
  simp only [Kernel.refs, mem_flatMap, mem_range, mem_replicate, Ref.mk.injEq]
  constructor
  · rintro ⟨ip', hip, hne, rfl, hinum, hvalid⟩
    exact ⟨hip, by omega, hinum, hvalid⟩
  · rintro ⟨hip, hpos, hinum, hvalid⟩
    exact ⟨ip, hip, by omega, rfl, hinum, hvalid⟩

theorem countP_refs (ip : Nat) :
    s.refs.countP (fun r => r.ip = ip) = if ip < NINODE then (s.itable ip).ref.toNat else 0 := by
  unfold Kernel.refs
  generalize NINODE = n
  induction n with
  | zero => simp
  | succ n ih =>
    rw [List.range_succ, flatMap_append, countP_append, ih, flatMap_singleton, countP_replicate]
    by_cases hip : n = ip
    · subst hip
      simp
    simp only [hip, decide_false, Bool.false_eq_true, if_false, add_zero]
    have hiff : ip < n ↔ ip < n + 1 := by omega
    simp only [hiff]

/-- If all references are known, then the table knows them. -/
theorem Held.sound (h : Held s f l) : Sound s := by
  have hnonneg : ∀ ip, 0 ≤ (s.itable ip).ref := by
    intro ip
    rw [h.exact ip]
    exact Int.natCast_nonneg _
  have hexact : ∀ ip, (s.itable ip).ref = (s.refs.countP fun r => r.ip = ip : Nat) := by
    intro ip
    rw [countP_refs]
    split
    · have hpos := hnonneg ip
      omega
    rename_i hge
    by_contra hne
    have hpos := hnonneg ip
    exact hge (h.table.bound ip (by omega)).1
  refine ⟨f, ⟨h.disk, h.table, ?_, ?_, ?_⟩, hexact⟩
  · intro r _
    rw [hexact]
  · intro r hr
    exact (mem_refs.1 hr).2.2.1.symm
  · intro r hr hv
    rwa [← (mem_refs.1 hr).2.2.2]

/-- The reference that an entry in use stands for, and the others. -/
theorem Held.split {ip : Nat} (h : Held s f s.refs) (hpos : 0 < (s.itable ip).ref) :
    ∃ l, Held s f (⟨ip, (s.itable ip).inum, (s.itable ip).valid⟩ :: l) := by
  have hmem : (⟨ip, (s.itable ip).inum, (s.itable ip).valid⟩ : Ref) ∈ s.refs :=
    mem_refs.2 ⟨(h.table.bound ip hpos).1, hpos, rfl, rfl⟩
  obtain ⟨a, b, heq⟩ := append_of_mem hmem
  refine ⟨a ++ b, h.perm ?_⟩
  rw [heq]
  exact perm_middle

end Refs

/-! ## Operations -/

/-- An operation of the inode layer. -/
inductive Op where
  | iget (inum : Nat)
  | ilock (ip : Nat)
  | iunlock (ip : Nat)
  | writei (ip : Nat) (src : Nat → Option UInt8) (off n : Nat)
  | itrunc (ip : Nat)
  | ialloc (type : Int16)
  | iput (ip : Nat)
  | dirlink (dp : Nat) (name : List UInt8) (inum : Nat)
  | create (path : Path) (type major minor : Int16)

namespace Op

/-- The program of an operation of process `p`, which may return an
inode. -/
def prog (p : Fin NPROC) : Op → FsM (Option Nat)
  | .iget inum => do
    let ip ← Fs.iget inum
    return some ip
  | .ilock ip => do
    Fs.ilock p ip
    return none
  | .iunlock ip => do
    Fs.iunlock p ip
    return none
  | .writei ip src off n => do
    let _ ← Fs.writei ip src off n
    return none
  | .itrunc ip => do
    Fs.itrunc ip
    return none
  | .ialloc type => Fs.ialloc type
  | .iput ip => do
    Fs.iput p ip
    return none
  | .dirlink dp name inum => do
    let _ ← Fs.dirlink p dp name inum
    return none
  | .create path type major minor => Fs.create p path type major minor

/-- The source has an entry for a directory. -/
def IsEntry (sb : Superblock) (src : Nat → Option UInt8) : Prop :=
  (∀ j, j < 16 → (src j).isSome = true) ∧
    (Dirent.decode ((List.range 16).map fun j => (src j).getD 0)).inum < sb.ninodes

/-- How the kernel uses an operation: on an inode that is held and, where
the contents matter, has been read; `writei` writes to a directory one entry
at its place, as `sys_unlink` does. -/
def Allowed (p : Fin NPROC) (s : Kernel) : Op → Prop
  | .iget inum => inum < s.sb.ninodes
  | .ilock ip => 0 < (s.itable ip).ref
  | .iunlock _ => True
  | .writei ip src off n => 0 < (s.itable ip).ref ∧ (s.itable ip).valid = true ∧
      ((s.itable ip).type = T_DIR → off % 16 = 0 ∧ n = 16 ∧ IsEntry s.sb src)
  | .itrunc ip => 0 < (s.itable ip).ref ∧ (s.itable ip).valid = true
  | .ialloc _ => True
  | .iput ip => 0 < (s.itable ip).ref
  | .dirlink dp _ inum => 0 < (s.itable dp).ref ∧ (s.itable dp).valid = true ∧ inum < s.sb.ninodes
  | .create .. => 0 < (s.itable (s.files p).cwd).ref

instance instDecidableIsEntry (sb : Superblock) (src : Nat → Option UInt8) :
    Decidable (IsEntry sb src) :=
  inferInstanceAs (Decidable (_ ∧ _))

instance (p : Fin NPROC) (s : Kernel) (op : Op) : Decidable (op.Allowed p s) :=
  match op with
  | .iget _ => inferInstanceAs (Decidable (_ < _))
  | .ilock _ => inferInstanceAs (Decidable (_ < _))
  | .iunlock _ => inferInstanceAs (Decidable True)
  | .writei .. => inferInstanceAs (Decidable (_ ∧ _))
  | .itrunc _ => inferInstanceAs (Decidable (_ ∧ _))
  | .ialloc _ => inferInstanceAs (Decidable True)
  | .iput _ => inferInstanceAs (Decidable (_ < _))
  | .dirlink .. => inferInstanceAs (Decidable (_ ∧ _))
  | .create .. => inferInstanceAs (Decidable (_ < _))

/-- The state after an operation that completes. -/
def next? (s : Kernel) (l : Fin NPROC × Op) : Option Kernel :=
  if l.2.Allowed l.1 s then
    match ((l.2.prog l.1).exec s).2 with
    | .done _ s' => some s'
    | _ => none
  else
    none

/-- Completed operations. -/
def Steps (s : Kernel) (l : Fin NPROC × Op) (s' : Kernel) : Prop := next? s l = some s'

/-- An operation keeps the disk and the table in order, and does not free a
free block. -/
theorem spec {p : Fin NPROC} {s : Kernel} {op : Op} (h : Sound s) (ha : op.Allowed p s) :
    Spec (fun _ => True) DoubleFree (op.prog p) s fun _ s' _ => Sound s' := by
  obtain ⟨f, h⟩ := h
  have hI : Calm fun _ => True := fun _ _ => trivial
  cases op with
  | iget inum =>
    refine (iget_spec h trivial ha).bind ?_
    rintro ip s' u ⟨h', -, -⟩
    exact .pure h'.sound
  | ilock ip =>
    obtain ⟨l, h⟩ := h.split ha
    refine (ilock_spec h trivial).bind ?_
    rintro _ s' u ⟨h', -, -⟩
    exact .pure h'.sound
  | iunlock ip =>
    refine (iunlock_spec h trivial).bind ?_
    rintro _ s' u ⟨h', -, -⟩
    exact .pure h'.sound
  | writei ip src off n =>
    obtain ⟨hpos, hv, hdir⟩ := ha
    obtain ⟨l, h⟩ := h.split hpos
    rw [hv] at h
    refine (writei_held h mem_cons_self fun hd tot s' u c' f' hw k => ?_).bind ?_
    · have htype : (s.itable ip).type = T_DIR := by rwa [(h.cached mem_cons_self rfl).1]
      obtain ⟨hoff, rfl, hread, hinum⟩ := hdir htype
      obtain ⟨k0, rfl⟩ := Nat.dvd_of_mod_eq_zero hoff
      have hbytes : ∀ j, j < 16 → src j = ((List.range 16).map fun j => (src j).getD 0)[j]? := by
        intro j hj
        obtain ⟨byte, hbyte⟩ := Option.isSome_iff_exists.1 (hread j hj)
        simp [hj, hbyte]
      rcases hw.entryAt (by simp) hbytes k with hk | ⟨-, hk⟩
      · rw [hk]
        exact h.disk.dirs _ (h.inum_lt mem_cons_self) hd k
      · rwa [hk]
    rintro _ s' u (⟨-, rfl, -⟩ | ⟨_, _, -, h', -⟩)
    · exact .pure h.sound
    · exact .pure h'.sound
  | itrunc ip =>
    obtain ⟨hpos, hv⟩ := ha
    obtain ⟨l, h⟩ := h.split hpos
    rw [hv] at h
    refine (itrunc_held h mem_cons_self).bind ?_
    rintro _ s' u ⟨_, h', -⟩
    exact .pure h'.sound
  | ialloc type =>
    refine (ialloc_spec h hI).mono ?_
    rintro _ s' u (⟨-, rfl, -⟩ | ⟨_, _, _, -, h', -⟩)
    · exact h.sound
    · exact h'.sound
  | iput ip =>
    obtain ⟨l, h⟩ := h.split ha
    refine (iput_spec h hI).bind ?_
    rintro _ s' u (⟨h', -⟩ | ⟨_, h', -⟩)
    · exact .pure h'.sound
    · exact .pure h'.sound
  | dirlink dp name inum =>
    obtain ⟨hpos, hv, hinum⟩ := ha
    obtain ⟨l, h⟩ := h.split hpos
    rw [hv] at h
    refine (dirlink_spec h mem_cons_self hinum hI).bind ?_
    rintro _ s' u ⟨-, _, h', -⟩
    exact .pure h'.sound
  | create path type major minor =>
    obtain ⟨l, h⟩ := h.split ha
    refine (create_spec h ⟨_, mem_cons_self, rfl⟩ hI).mono ?_
    rintro _ s' u hcreated
    cases hcreated with
    | none h' => exact h'.sound
    | old h' => exact h'.sound
    | new h' => exact h'.sound

/-- Completed operations keep the disk and the table in order. -/
theorem Steps.sound {s s' : Kernel} {l : Fin NPROC × Op} (hstep : Steps s l s') (h : Sound s) :
    Sound s' := by
  unfold Steps next? at hstep
  split at hstep
  · rename_i ha
    split at hstep
    · rename_i r s'' hexec
      cases hstep
      exact (spec h ha).of_done hexec
    · cases hstep
  · cases hstep

end Op

/-! ## The bitmap -/

/-- A data block is marked used if and only if it is in exactly one slot of
the allocated inodes, and no block is in two slots. -/
structure Tracked (sb : Superblock) (c : Nat → Block) : Prop where
  used_iff : ∀ b, sb.IsData b → (used sb c b = true ↔ ∃! o, owners sb c (dinodeAt sb c) o = b)
  once : ∀ o o', owners sb c (dinodeAt sb c) o ≠ 0 →
    owners sb c (dinodeAt sb c) o = owners sb c (dinodeAt sb c) o' → o = o'

/-- The slots of every file cover its size. -/
def AllCovered (sb : Superblock) (c : Nat → Block) : Prop :=
  ∀ i, i < sb.ninodes → (dinodeAt sb c i).type ≠ 0 → Covered c (dinodeAt sb c i)

/-- An image is laid out as `mkfs` does it: the areas lie one after the
other, the blocks before the data are marked used, slots hold data blocks,
and directories name inodes that exist. -/
structure Formatted (sb : Superblock) (c : Nat → Block) : Prop where
  wf : sb.WellFormed
  reserved : ∀ b, b < sb.nmeta → used sb c b = true
  data : ∀ o, owners sb c (dinodeAt sb c) o ≠ 0 → sb.IsData (owners sb c (dinodeAt sb c) o)
  dirs : ∀ i, i < sb.ninodes → (dinodeAt sb c i).type = T_DIR →
    ∀ k, (entryAt c (dinodeAt sb c i) k).inum < sb.ninodes

/-- Nobody holds an inode yet. -/
def Kernel.Idle (s : Kernel) : Prop := ∀ ip, (s.itable ip).ref = 0

variable {sb : Superblock}

theorem owners_congr {c : Nat → Block} {f g : Nat → Dinode}
    (h : ∀ i, i < sb.ninodes → g i = f i) : owners sb c g = owners sb c f := by
  funext o
  unfold owners
  by_cases ho : o.1 < sb.ninodes
  · rw [h o.1 ho]
  · rw [if_neg fun hno => ho hno.1, if_neg fun hno => ho hno.1]

theorem Disk.tracked {c : Nat → Block} {f : Nat → Dinode} (h : Disk sb c f) : Tracked sb c := by
  have howners := owners_congr (c := c) h.synced
  constructor
  · intro b hb
    rw [howners]
    exact h.accounts.exact.used_iff hb
  · rw [howners]
    exact h.accounts.exact.inj

/-- A formatted image on which the bitmap is exact. -/
theorem Tracked.exact {c : Nat → Block} (h : Tracked sb c)
    (hdata : ∀ o, owners sb c (dinodeAt sb c) o ≠ 0 → sb.IsData (owners sb c (dinodeAt sb c) o)) :
    Exact sb.IsData (fun b => used sb c b = true) (owners sb c (dinodeAt sb c)) := by
  refine ⟨fun hzero => hzero.ne_zero rfl, fun o ho => ?_, h.once, fun b hb hused => ?_⟩
  · refine ⟨hdata o ho, (h.used_iff _ (hdata o ho)).2 ⟨o, rfl, fun o' heq => ?_⟩⟩
    exact (h.once o o' ho heq.symm).symm
  · obtain ⟨o, ho, -⟩ := (h.used_iff b hb).1 hused
    exact ⟨o, ho⟩

theorem Formatted.disk {c : Nat → Block} (h : Formatted sb c)
    (htracked : Tracked sb c) (hcovered : AllCovered sb c) : Disk sb c (dinodeAt sb c) where
  accounts := ⟨h.wf, h.reserved, htracked.exact h.data⟩
  covered := hcovered
  dirs := h.dirs
  synced _ _ := rfl

theorem Disk.sound {s : Kernel} {f : Nat → Dinode} (h : Disk s.sb s.cache f) (hidle : s.Idle) :
    Sound s := by
  have hheld : Held s f [] := by
    refine ⟨⟨h, ⟨?_, ?_, ?_⟩, Holds.nil⟩, ?_⟩
    · intro ip hpos
      exact absurd hpos (by rw [hidle]; decide)
    · intro ip ip' hpos
      exact absurd hpos (by rw [hidle]; decide)
    · intro ip hpos
      exact absurd hpos (by rw [hidle]; decide)
    · intro ip
      rw [hidle]
      rfl
  exact hheld.sound

/-- After every completed sequence of operations on a formatted image, the
bitmap is exact, and no operation ever frees a free block. -/
theorem bitmap_exact {s s' : Kernel} {ls : List (Fin NPROC × Op)} (hidle : s.Idle)
    (htracked : Tracked s.sb s.cache) (hcovered : AllCovered s.sb s.cache)
    (hformatted : Formatted s.sb s.cache) (hrun : Run Op.Steps s ls s') :
    Tracked s'.sb s'.cache ∧ ∀ (p : Fin NPROC) (op : Op), op.Allowed p s' →
      ((op.prog p).exec s').2 ≠ .panic .freeingFreeBlock := by
  have hstart : Sound s := (hformatted.disk htracked hcovered).sound hidle
  have hend : Sound s' := hrun.inv hstart fun _ _ _ h hstep => hstep.sound h
  constructor
  · obtain ⟨f, h⟩ := hend
    exact h.disk.tracked
  · intro p op ha hpanic
    exact ((Op.spec hend ha).of_panic hpanic).2 rfl

/-! ## Two images -/

variable {o : Nat × Slot}

section TwoInodes

variable {c : Nat → Block} {a b : Dinode}

/-- The inodes of a disk with two inodes besides free ones. -/
theorem dinodeAt_two (hfirst : c 32 = putDinode (putDinode (fun _ => 0) 1 a) 2 b)
    (hrest : ∀ x, 32 < x → x < 45 → c x = fun _ => 0) {i : Nat} (hi : i < mkfsSuperblock.ninodes) :
    dinodeAt mkfsSuperblock c i = if i = 1 then a else if i = 2 then b else Dinode.zero := by
  have hi : i < 200 := hi
  have hblock : mkfsSuperblock.IBLOCK i = i / 16 + 32 := rfl
  have hIPB : i % IPB = i % 16 := rfl
  rw [dinodeAt, hblock, hIPB]
  by_cases hlt : i < 16
  · rw [show i / 16 + 32 = 32 by omega, hfirst, Nat.mod_eq_of_lt hlt]
    by_cases h1 : i = 1
    · subst h1
      rw [if_pos rfl, getDinode_putDinode_of_ne _ _ (by decide),
        getDinode_putDinode_same _ _ (by decide)]
    rw [if_neg h1]
    by_cases h2 : i = 2
    · subst h2
      rw [if_pos rfl, getDinode_putDinode_same _ _ (by decide)]
    · rw [if_neg h2, getDinode_putDinode_of_ne _ _ h2, getDinode_putDinode_of_ne _ _ h1,
        getDinode_zero]
  · rw [hrest _ (by omega) (by omega), getDinode_zero, if_neg (by omega), if_neg (by omega)]

/-- The bitmap of the small disk. -/
theorem used_small (hbitmap : c 45 = smallDisk 45) {x : Nat} (hx : x < 2000) :
    used mkfsSuperblock c x = decide (x < 47) := by
  have hblock : mkfsSuperblock.BBLOCK x = x / 8192 + 45 := rfl
  have hBPB : x % BPB = x % 8192 := rfl
  rw [used, hblock, hBPB, Nat.mod_eq_of_lt (by omega), show x / 8192 + 45 = 45 by omega, hbitmap]
  by_cases hlt : x < 48
  · have hall : ∀ y, y < 48 → (smallDisk 45).bit y = decide (y < 47) := by decide
    exact hall x hlt
  have hget : (smallDisk 45).get (x / 8) = 0 := by
    have hsmall : x / 8 < BSIZE := by
      unfold BSIZE
      omega
    rw [Buf.get, dif_pos hsmall]
    show (if x / 8 < 5 then 255 else if x / 8 = 5 then 127 else 0 : UInt8) = 0
    rw [if_neg (by omega), if_neg (by omega)]
  rw [Buf.bit, hget]
  simp
  omega

theorem reserved_small (hbitmap : c 45 = smallDisk 45) (x : Nat) (hx : x < mkfsSuperblock.nmeta) :
    used mkfsSuperblock c x = true := by
  have hx : x < 46 := hx
  rw [used_small hbitmap (by omega), decide_eq_true_eq]
  omega

/-- What the slots of such a disk hold. -/
abbrev mkfsOwners (c : Nat → Block) : Nat × Slot → Nat :=
  owners mkfsSuperblock c (dinodeAt mkfsSuperblock c)

/-- Block 46 is the only data block in a slot. -/
theorem tracked_small (hbitmap : c 45 = smallDisk 45) (h46 : mkfsOwners c o = 46)
    (hone : ∀ x, mkfsOwners c x ≠ 0 → x = o ∨ x = (2, .addr 0) ∧ mkfsOwners c x = 45) :
    Tracked mkfsSuperblock c := by
  have hfirst : ∀ x, mkfsOwners c x = 46 → x = o := by
    intro x hx
    rcases hone x (by omega) with h | ⟨-, h45⟩
    · exact h
    · omega
  constructor
  · intro x hx
    obtain ⟨hlo, hhi⟩ : 46 ≤ x ∧ x < 2000 := hx
    rw [used_small hbitmap hhi, decide_eq_true_eq]
    constructor
    · intro hlt
      obtain rfl : x = 46 := by omega
      exact ⟨o, h46, hfirst⟩
    · rintro ⟨x', (hx' : mkfsOwners c x' = x), -⟩
      rcases hone x' (by omega) with rfl | ⟨-, h45⟩ <;> omega
  · intro x x' hne (heq : mkfsOwners c x = mkfsOwners c x')
    rcases hone x hne with rfl | ⟨rfl, h45⟩
    · exact (hfirst x' (heq.symm.trans h46)).symm
    · rcases hone x' (by omega) with rfl | ⟨rfl, -⟩
      · omega
      · rfl

/-- Without indirect blocks, the slots of such a disk are those in the two
inodes. -/
theorem owners_two (hfirst : c 32 = putDinode (putDinode (fun _ => 0) 1 a) 2 b)
    (hrest : ∀ x, 32 < x → x < 45 → c x = fun _ => 0)
    (ha : a.addrs (Fin.last NDIRECT) = 0) (hb : b.addrs (Fin.last NDIRECT) = 0)
    (ho : mkfsOwners c o ≠ 0) :
    ∃ j : Fin (NDIRECT + 1),
      (o = (1, .addr j) ∧ (a.addrs j).toNat ≠ 0 ∧ mkfsOwners c o = (a.addrs j).toNat) ∨
      (o = (2, .addr j) ∧ (b.addrs j).toNat ≠ 0 ∧ mkfsOwners c o = (b.addrs j).toNat) := by
  obtain ⟨i, k⟩ := o
  by_cases hin : i < mkfsSuperblock.ninodes ∧ (dinodeAt mkfsSuperblock c i).type ≠ 0
  · rw [mkfsOwners, owners, if_pos hin, dinodeAt_two hfirst hrest hin.1] at ho ⊢
    by_cases h1 : i = 1
    · subst h1
      simp only [if_true] at ho ⊢
      cases k with
      | entry e => exact absurd (by simp [slotAt, ha]) ho
      | addr j => exact ⟨j, .inl ⟨rfl, ho, rfl⟩⟩
    simp only [if_neg h1] at ho ⊢
    by_cases h2 : i = 2
    · subst h2
      simp only [if_true] at ho ⊢
      cases k with
      | entry e => exact absurd (by simp [slotAt, hb]) ho
      | addr j => exact ⟨j, .inr ⟨rfl, ho, rfl⟩⟩
    · rw [if_neg h2] at ho
      refine absurd ?_ ho
      cases k with
      | entry | addr => rfl
  · rw [mkfsOwners, owners, if_neg hin] at ho
    exact absurd rfl ho

end TwoInodes

/-- The inodes of the small disk. -/
def smallRoot : Dinode :=
  { Dinode.zero with
    type := T_DIR, nlink := 1, size := 48, addrs := fun j => if j = 0 then 46 else 0 }

def smallFile : Dinode := { Dinode.zero with type := T_FILE, nlink := 1 }

theorem smallDisk_rest (x : Nat) (hlo : 32 < x) (hhi : x < 45) : smallDisk x = fun _ => 0 := by
  unfold smallDisk
  rw [if_neg (by omega), if_neg (by omega), if_neg (by omega)]

theorem smallDisk_inode {i : Nat} (hi : i < mkfsSuperblock.ninodes) :
    dinodeAt mkfsSuperblock smallDisk i =
      if i = 1 then smallRoot else if i = 2 then smallFile else Dinode.zero :=
  dinodeAt_two rfl smallDisk_rest hi

/-- The only block in a slot of the small disk is that of the root. -/
theorem smallDisk_owner (ho : mkfsOwners smallDisk o ≠ 0) :
    o = (1, .addr 0) ∧ mkfsOwners smallDisk o = 46 := by
  obtain ⟨j, ⟨rfl, hne, heq⟩ | ⟨rfl, hne, -⟩⟩ :=
    owners_two (a := smallRoot) (b := smallFile) rfl smallDisk_rest rfl rfl ho
  · have hj : ∀ j : Fin (NDIRECT + 1), (smallRoot.addrs j).toNat ≠ 0 → j = 0 := by decide
    obtain rfl := hj j hne
    exact ⟨rfl, heq⟩
  · exact absurd rfl hne

theorem smallDisk_tracked : Tracked mkfsSuperblock smallDisk := by
  have hroot : mkfsOwners smallDisk (1, .addr 0) = 46 := by
    rw [mkfsOwners, owners, smallDisk_inode (by decide)]
    rfl
  exact tracked_small rfl hroot fun _ ho => .inl (smallDisk_owner ho).1

/-- The root of the small disk has one block. -/
theorem smallRoot_hole {bn : Nat} (hbn : 1 ≤ bn) : blockOf smallDisk smallRoot bn = 0 := by
  unfold blockOf
  split
  · rename_i k hk
    cases k with
    | entry e => exact slotAt_entry_of_indirect rfl e
    | addr j =>
      have hall : ∀ j : Fin (NDIRECT + 1), j ≠ 0 → (smallRoot.addrs j).toNat = 0 := by decide
      apply hall j
      rintro rfl
      have hzero := blockSlot_inj hk (show blockSlot 0 = some (.addr 0) by rfl)
      omega
  · rfl

theorem smallDisk_covered : AllCovered mkfsSuperblock smallDisk := by
  intro i hi ht
  rw [smallDisk_inode hi] at ht ⊢
  split
  · refine ⟨by decide, fun bn hbn => ?_⟩
    have hbn : bn * 1024 < 48 := hbn
    obtain rfl : bn = 0 := by omega
    decide
  · split <;> exact covered_of_size_zero rfl

theorem smallDisk_formatted : Formatted mkfsSuperblock smallDisk where
  wf := mkfsSuperblock_wellFormed
  reserved := reserved_small rfl
  data o ho := by
    show mkfsSuperblock.IsData (mkfsOwners smallDisk o)
    rw [(smallDisk_owner ho).2]
    decide
  dirs i hi hdir k := by
    rw [smallDisk_inode hi] at hdir ⊢
    split at hdir
    · rename_i h1
      rw [if_pos h1]
      by_cases hk : k < 64
      · have hall : ∀ k, k < 64 → (entryAt smallDisk smallRoot k).inum < 200 := by decide +kernel
        exact hall k hk
      have hzero : entryAt smallDisk smallRoot k = entryAt smallDisk Dinode.zero k := by
        apply entryAt_congr
        intro x hlo _
        have hbn : 1 ≤ x / BSIZE := by
          unfold BSIZE
          omega
        rw [byteAt, if_pos (smallRoot_hole hbn), byteAt_of_addrs_zero fun _ => rfl]
      rw [hzero, entryAt_of_addrs_zero fun _ => rfl]
      decide
    · split at hdir <;> exact absurd hdir (by decide)

/-- Make a file, write to it, erase its name, and drop everything again. -/
def scratchRun : List (Fin NPROC × Op) :=
  [(proc₀, .iget 1), (proc₀, .create [47, 103] T_FILE 0 0),
    (proc₀, .writei 1 (fun j => if j < 5 then some 120 else none) 0 5),
    (proc₀, .writei 0 (fun _ => some 0) 48 16), (proc₀, .itrunc 1),
    (proc₀, .iunlock 1), (proc₀, .iput 1)]

theorem bitmap_exact_scratchRun : Tracked (after Op.next? smallKernel scratchRun).sb
      (after Op.next? smallKernel scratchRun).cache := by
  have hrun : Run Op.Steps smallKernel scratchRun (after Op.next? smallKernel scratchRun) :=
    Run.of_after (by decide +kernel)
  exact (bitmap_exact (fun _ => rfl) smallDisk_tracked smallDisk_covered smallDisk_formatted hrun).1

/-- A file whose first block is the bitmap. -/
def crossFile : Dinode :=
  { Dinode.zero with
    type := T_FILE, nlink := 1, size := 2048
    addrs := fun j => if j = 0 then 45 else if j = 1 then 46 else 0 }

def crossDisk (b : Nat) : Block :=
  if b = 32 then
    putDinode (putDinode (fun _ => 0) 1 { Dinode.zero with type := T_DIR, nlink := 1 }) 2 crossFile
  else
    smallDisk b

def crossKernel : Kernel := { smallKernel with cache := crossDisk }

/-- Clear the first bytes of the file. -/
def crossRun : List (Fin NPROC × Op) :=
  [(proc₀, .iget 2), (proc₀, .ilock 0), (proc₀, .writei 0 (fun _ => some 0) 0 6)]

theorem crossDisk_rest (x : Nat) (hlo : 32 < x) (hhi : x < 45) : crossDisk x = fun _ => 0 := by
  rw [crossDisk, if_neg (by omega), smallDisk_rest x hlo hhi]

theorem crossDisk_inode {i : Nat} (hi : i < mkfsSuperblock.ninodes) :
    dinodeAt mkfsSuperblock crossDisk i =
      if i = 1 then { Dinode.zero with type := T_DIR, nlink := 1 }
      else if i = 2 then crossFile else Dinode.zero :=
  dinodeAt_two rfl crossDisk_rest hi

theorem crossDisk_tracked : Tracked mkfsSuperblock crossDisk := by
  have hfile : mkfsOwners crossDisk (2, .addr 1) = 46 := by
    rw [mkfsOwners, owners, crossDisk_inode (by decide)]
    rfl
  refine tracked_small (if_neg (by decide)) hfile fun o ho => ?_
  obtain ⟨j, ⟨rfl, hne, -⟩ | ⟨rfl, hne, heq⟩⟩ :=
    owners_two (a := { Dinode.zero with type := T_DIR, nlink := 1 }) (b := crossFile) rfl
      crossDisk_rest rfl rfl ho
  · exact absurd rfl hne
  have hj : ∀ j : Fin (NDIRECT + 1), (crossFile.addrs j).toNat ≠ 0 → j = 0 ∨ j = 1 := by decide
  rcases hj j hne with rfl | rfl
  · exact .inr ⟨rfl, heq⟩
  · exact .inl rfl

theorem crossDisk_covered : AllCovered mkfsSuperblock crossDisk := by
  intro i hi ht
  rw [crossDisk_inode hi] at ht ⊢
  split
  · exact covered_of_size_zero rfl
  split
  · refine ⟨by decide, fun bn hbn => ?_⟩
    have hbn : bn * 1024 < 2048 := hbn
    have hcases : bn = 0 ∨ bn = 1 := by omega
    rcases hcases with rfl | rfl <;> decide
  · exact covered_of_size_zero rfl

/-- On an image that is not formatted, writing to a file can change the
bitmap: the block of the file is then marked free. -/
theorem bitmap_overwritten : ∃ (s s' : Kernel) (ls : List (Fin NPROC × Op)), s.Idle ∧
    Tracked s.sb s.cache ∧ AllCovered s.sb s.cache ∧ Run Op.Steps s ls s' ∧
    ¬ Tracked s'.sb s'.cache := by
  refine ⟨crossKernel, after Op.next? crossKernel crossRun, crossRun, fun _ => rfl,
    crossDisk_tracked, crossDisk_covered, Run.of_after (by decide +kernel), fun h => ?_⟩
  have hsb : (after Op.next? crossKernel crossRun).sb.IsData 46 := by decide +kernel
  have hfree : used (after Op.next? crossKernel crossRun).sb
      (after Op.next? crossKernel crossRun).cache 46 = false := by decide +kernel
  have hfile : owners (after Op.next? crossKernel crossRun).sb
      (after Op.next? crossKernel crossRun).cache
      (dinodeAt (after Op.next? crossKernel crossRun).sb
        (after Op.next? crossKernel crossRun).cache) (2, .addr 1) = 46 := by decide +kernel
  have hused := (h.used_iff 46 hsb).2 ⟨_, hfile, fun o ho => h.once o _ (by rw [ho]; decide)
    (by rw [ho, hfile])⟩
  rw [hfree] at hused
  cases hused

/-! ## Creating files -/

/-- The files on the disk. -/
def Kernel.space (s : Kernel) : Space := view s.sb s.cache (dinodeAt s.sb s.cache)

theorem Held.space_eq {s : Kernel} {f : Nat → Dinode} {l : List Ref} (h : Held s f l) :
    s.space = view s.sb s.cache f := by
  funext i
  unfold Kernel.space view
  by_cases hi : i < s.sb.ninodes
  · rw [h.disk.synced i hi]
  · rw [if_neg fun hlt => hi hlt.1, if_neg fun hlt => hi hlt.1]

/-- The root directory of the small disk is in use. -/
def rooted : Kernel := after Op.next? smallKernel [(proc₀, .iget 1)]

theorem rooted_nlink {i : Nat} {n : Node} (hn : rooted.space i = some n) :
    n.nlink = 1 := by
  unfold Kernel.space view at hn
  split at hn
  · rename_i hlt
    cases hn
    have htype : (dinodeAt mkfsSuperblock smallDisk i).type ≠ 0 := hlt.2
    show (dinodeAt mkfsSuperblock smallDisk i).nlink = 1
    rw [smallDisk_inode hlt.1] at htype ⊢
    split
    · rfl
    split
    · rfl
    · simp_all [Dinode.zero]
  · cases hn

end Fs

end Xv6
