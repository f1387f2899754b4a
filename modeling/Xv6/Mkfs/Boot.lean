import Xv6.Fs.Overwrite
import Xv6.Mkfs.Image

/-!
# What the kernel makes of the image

The kernel starts with the image on its disk: `fsinit` reads the superblock,
and no inode is in memory.  `Good` is what it relies on: every inode has
exactly the blocks that its size says, no block has two owners, the bitmap
marks the blocks that are used, the areas do not overlap, and the file that
is found under the name of an input file has its bytes.

An image of `mkfs` is good if and only if three things hold of its arguments
(`mkfs_good_iff`).

* There are at most 206 files.  `ialloc` has no limit, and the inode of the
  next file would lie in the bitmap.
* The entries do not fill the last block of the root directory.  Its size is
  then rounded up by a whole block, which it does not have.
* Each file has been read to its end, and is not hidden by `.` or `..`.
-/

namespace Xv6

open Lib Fs Dirent List Nat Option Spec

namespace Mkfs

variable {j inum ip t i : Nat} {name : List UInt8}

/-! ## Looking up a name -/

/-- `readsb`, and the check of `fsinit`. -/
def readsb (bp : Block) : Option Superblock :=
  if bp.getLE 0 4 = FSMAGIC then
    some
      { size := bp.getLE 4 4, ninodes := bp.getLE 12 4, nlog := bp.getLE 16 4,
        logstart := bp.getLE 20 4, inodestart := bp.getLE 24 4, bmapstart := bp.getLE 28 4 }
  else
    none

/-- The kernel has started with the image on its disk. -/
structure Boots (m : Image) (s : Kernel) : Prop where
  sb : readsb (m.sectors 1) = some s.sb
  cache : s.cache = m.sectors
  itable : ∀ ip, (s.itable ip).ref = 0 ∧ (s.itable ip).lock = none

/-- Look for a name in the root directory, and lock the inode. -/
def lookup (p : Fin NPROC) (name : List UInt8) : FsM (Option Nat) := do
  let dp ← iget ROOTINO
  ilock p dp
  let r ← dirlookup dp name
  iunlock p dp
  match r with
  | none => return none
  | some (ip, _) =>
    ilock p ip
    return some ip

section Lookup

variable {s : Kernel} {p : Fin NPROC} {d : Dinode} {I : List Event → Prop}

/-- `readi` of one entry of a directory. -/
theorem readi_entry {dp k : Nat} (hip : (s.itable dp).toDinode = d) (hcov : Covered s.cache d)
    (hsize : 16 * k + 16 ≤ d.size.toNat) :
    Spec I DoubleFree (readi dp kernelDst (16 * k) 16) s fun r s' u =>
      r.1 = 16 ∧ decode r.2 = entryAt s.cache d k ∧ s' = s ∧ u = [] := by
  have hnode : Spec I DoubleFree (readi dp kernelDst (16 * k) 16) s fun r _ _ =>
      r = (nodeAt s.cache d).result (16 * k) 16 := readi_node hip hcov
  have hlt := d.size.toNat_lt
  have hlen : ((nodeAt s.cache d).result (16 * k) 16).1 = 16 := by
    have hsz : (nodeAt s.cache d).size = d.size.toNat := rfl
    rw [Node.result, Node.read, hsz, if_neg (by omega), length_map, length_range,
      min_eq_left (by omega)]
    rfl
  refine (hnode.and (readi_spec hip hcov)).mono ?_
  rintro r s' u ⟨hr, rfl, rfl, hbytes⟩
  have h16 : r.1 = 16 := by rwa [hr]
  refine ⟨h16, ?_, rfl, rfl⟩
  rw [(hbytes (fun _ => rfl) h16).1]
  rfl

/-- `dirlookup` gets the inode of the first entry with the name. -/
theorem dirlookupFrom_finds {dp k n : Nat} {Q : Option (Nat × Nat) → Kernel → List Event → Prop}
    (hip : (s.itable dp).toDinode = d) (hcov : Covered s.cache d) (hkj : k ≤ j) (hjn : j < k + n)
    (hsize : 16 * j + 16 ≤ d.size.toNat) (hm : Matches s.cache d name j)
    (hfirst : ∀ j', k ≤ j' → j' < j → ¬ Matches s.cache d name j')
    (hget : Spec I DoubleFree (iget (entryAt s.cache d j).inum) s fun ip s' u =>
      Q (some (ip, 16 * j)) s' u) : Spec I DoubleFree (dirlookupFrom dp name (16 * k) n) s Q := by
  induction n generalizing k with
  | zero => omega
  | succ n ih =>
    rw [dirlookupFrom]
    refine (readi_entry hip hcov (by omega)).bind ?_
    rintro r s1 u ⟨hr, hde, rfl, rfl⟩
    rw [if_neg (not_not.2 hr)]
    rw [hde]
    by_cases hk : k = j
    · subst hk
      rw [if_neg hm.1, if_pos hm.2]
      refine hget.bind ?_
      intro ip s2 u2 hQ
      apply Spec.pure
      simpa using hQ
    have hno := hfirst k le_rfl (by omega)
    have hnext : Spec I DoubleFree (dirlookupFrom dp name (16 * k + 16) n) s1 Q :=
      ih (k := k + 1) (by omega) (by omega) fun j' hlo hhi => hfirst j' (by omega) hhi
    by_cases hzero : (entryAt s1.cache d k).inum = 0
    · rwa [if_pos hzero]
    · rwa [if_neg hzero, if_neg fun hname => hno ⟨hzero, hname⟩]

theorem find_range_zero {q : Nat → Bool} (h : q 0 = true) : (range NINODE).find? q = some 0 := by
  rw [show range NINODE = 0 :: range' 1 49 from rfl]
  exact find?_cons_of_pos h

theorem find_range_one {q : Nat → Bool} (h₀ : q 0 = false) (h1 : q 1 = true) :
    (range NINODE).find? q = some 1 := by
  rw [show range NINODE = 0 :: 1 :: range' 2 48 from rfl, find?_cons_of_neg (by rw [h₀]; decide)]
  exact find?_cons_of_pos h1

/-- `iget` when no inode is in memory. -/
theorem iget_empty (hfree : ∀ ip, (s.itable ip).ref = 0) :
    Spec I DoubleFree (iget inum) s fun ip s' u => ip = 0 ∧ u = [] ∧
      s' = s.setInode 0 { s.itable 0 with inum := inum, ref := 1, valid := false } := by
  have hnone : ((range NINODE).find? fun i =>
      decide ((s.itable i).ref > 0 ∧ (s.itable i).inum = inum)) = none := by
    rw [find?_eq_none]
    intro i _
    simp [hfree i]
  apply act
  rw [hnone, find_range_zero (by simp [hfree 0])]
  exact ⟨rfl, rfl, rfl⟩

/-- `iget` of the inode in the first entry. -/
theorem iget_again (hpos : 0 < (s.itable 0).ref) (hinum : (s.itable 0).inum = inum) :
    Spec I DoubleFree (iget inum) s fun ip s' u => ip = 0 ∧ u = [] ∧
      s' = s.setInode 0 { s.itable 0 with ref := (s.itable 0).ref + 1 } := by
  apply act
  rw [find_range_zero (by simp [hpos, hinum])]
  exact ⟨rfl, rfl, rfl⟩

/-- `iget` of an inode that is not in the first entry, when there is no
other. -/
theorem iget_second (hpos : 0 < (s.itable 0).ref)
    (hinum : (s.itable 0).inum ≠ inum) (hfree : ∀ ip, ip ≠ 0 → (s.itable ip).ref = 0) :
    Spec I DoubleFree (iget inum) s fun ip s' u => ip = 1 ∧ u = [] ∧
      s' = s.setInode 1 { s.itable 1 with inum := inum, ref := 1, valid := false } := by
  have hnone : ((range NINODE).find? fun i =>
      decide ((s.itable i).ref > 0 ∧ (s.itable i).inum = inum)) = none := by
    rw [find?_eq_none]
    intro i _
    by_cases hi : i = 0
    · simp [hi, hinum]
    · simp [hfree i hi]
  apply act
  rw [hnone, find_range_one (by simp [hpos.ne']) (by simp [hfree 1 (by decide)])]
  exact ⟨rfl, rfl, rfl⟩

/-- `ilock` of an inode that has not been read. -/
theorem ilock_reads (href : 0 < (s.itable ip).ref) (hlock : (s.itable ip).lock = none)
    (hvalid : (s.itable ip).valid = false)
    (ht : (dinodeAt s.sb s.cache (s.itable ip).inum).type ≠ 0) :
    Spec I DoubleFree (ilock p ip) s fun _ s' u => u = [] ∧ s' = s.setInode ip
      { toDinode := dinodeAt s.sb s.cache (s.itable ip).inum, inum := (s.itable ip).inum,
        ref := (s.itable ip).ref, lock := some p, valid := true } := by
  apply act
  rw [if_neg (by omega), hlock, hvalid]
  simp only [isSome_none, Bool.false_eq_true, if_false]
  rw [if_neg (show ¬ (getDinode _ _).type = 0 from ht)]
  exact ⟨rfl, rfl⟩

/-- `ilock` of an inode that is in memory. -/
theorem ilock_valid (href : 0 < (s.itable ip).ref) (hlock : (s.itable ip).lock = none)
    (hvalid : (s.itable ip).valid = true) : Spec I DoubleFree (ilock p ip) s fun _ s' u => u = [] ∧
      s' = s.setInode ip { s.itable ip with lock := some p } := by
  apply act
  dsimp only
  rw [if_neg (by omega), hlock, hvalid]
  exact ⟨rfl, rfl⟩

theorem iunlock_holder (href : 0 < (s.itable ip).ref) (hlock : (s.itable ip).lock = some p) :
    Spec I DoubleFree (iunlock p ip) s fun _ s' u => u = [] ∧
      s' = s.setInode ip { s.itable ip with lock := none } := by
  apply act
  rw [if_neg (by rw [hlock]; simp only [ne_eq, not_true_eq_false, false_or]; omega)]
  exact ⟨rfl, rfl⟩

theorem setInode_self (s : Kernel) (ip : Nat) (e : Inode) : (s.setInode ip e).itable ip = e := by
  simp [Kernel.setInode]

theorem setInode_of_ne (s : Kernel) {ip' : Nat} (h : ip' ≠ ip) (e : Inode) :
    (s.setInode ip e).itable ip' = s.itable ip' := by
  simp [Kernel.setInode, h]

/-- The root directory is locked, and no other inode is in memory. -/
structure AtRoot (s : Kernel) (p : Fin NPROC) (d : Dinode) (s' : Kernel) : Prop where
  root : s'.itable 0 =
    { toDinode := d, inum := ROOTINO, ref := 1, lock := some p, valid := true }
  free : ∀ ip, ip ≠ 0 → (s'.itable ip).ref = 0 ∧ (s'.itable ip).lock = none
  sb : s'.sb = s.sb
  cache : s'.cache = s.cache

/-- Entry `ip` is for inode `t`, and the root directory is still locked. -/
structure Got (s : Kernel) (p : Fin NPROC) (t ip : Nat) (s' : Kernel) : Prop where
  root : 0 < (s'.itable 0).ref ∧ (s'.itable 0).lock = some p
  ref : 0 < (s'.itable ip).ref
  lock : ip ≠ 0 → (s'.itable ip).lock = none
  entry : (s'.itable ip).valid = true ∧ (s'.itable ip).toDinode = dinodeAt s.sb s.cache t ∨
    (s'.itable ip).valid = false ∧ (s'.itable ip).inum = t
  sb : s'.sb = s.sb
  cache : s'.cache = s.cache

theorem ilock_root {s1 : Kernel} (hfree : ∀ ip, (s.itable ip).ref = 0 ∧ (s.itable ip).lock = none)
    (hs1 : s1 = s.setInode 0 { s.itable 0 with inum := ROOTINO, ref := 1, valid := false })
    (hd : dinodeAt s.sb s.cache ROOTINO = d) (ht : d.type ≠ 0) :
    Spec I DoubleFree (ilock p 0) s1 fun _ s2 u => u = [] ∧ AtRoot s p d s2 := by
  have hroot : s1.itable 0 = { s.itable 0 with inum := ROOTINO, ref := 1, valid := false } := by
    rw [hs1, setInode_self]
  have hinum : dinodeAt s1.sb s1.cache (s1.itable 0).inum = d := by rwa [hroot, hs1]
  have hread := fun href hlock hvalid ht =>
    (ilock_reads href hlock hvalid ht : Spec I DoubleFree (ilock p 0) s1 _)
  rw [hinum, hroot] at hread
  refine (hread Int.one_pos (hfree 0).2 rfl ht).mono ?_
  rintro _ s2 u ⟨rfl, rfl⟩
  refine ⟨rfl, setInode_self _ _ _, fun ip hip => ?_, ?_, ?_⟩
  · rw [setInode_of_ne _ hip, hs1, setInode_of_ne _ hip]
    exact hfree ip
  · rw [hs1]
    rfl
  · rw [hs1]
    rfl

/-- `iget` while the root directory is locked. -/
theorem AtRoot.iget {s2 : Kernel} (h : AtRoot s p d s2) (hd : dinodeAt s.sb s.cache ROOTINO = d) :
    Spec I DoubleFree (iget t) s2 fun ip s3 u => u = [] ∧ Got s p t ip s3 := by
  have href : (s2.itable 0).ref = 1 := by rw [h.root]
  have hlock : (s2.itable 0).lock = some p := by rw [h.root]
  by_cases ht : t = ROOTINO
  · refine (iget_again (by omega) (by rw [h.root, ht])).mono ?_
    rintro _ s3 u ⟨rfl, rfl, rfl⟩
    have hpos : 0 < (s2.itable 0).ref + 1 := by omega
    refine ⟨rfl, ?_, ?_, fun h0 => absurd rfl h0, ?_, h.sb, h.cache⟩
    · rw [setInode_self]
      exact ⟨hpos, hlock⟩
    · rwa [setInode_self]
    · rw [setInode_self, h.root, ht, hd]
      exact .inl ⟨rfl, rfl⟩
  refine (iget_second (by omega) (by rw [h.root]; exact Ne.symm ht)
    fun ip hip => (h.free ip hip).1).mono ?_
  rintro _ s3 u ⟨rfl, rfl, rfl⟩
  refine ⟨rfl, ?_, ?_, fun _ => ?_, ?_, h.sb, h.cache⟩
  · rw [setInode_of_ne _ (by decide)]
    exact ⟨by omega, hlock⟩
  · rw [setInode_self]
    exact Int.one_pos
  · rw [setInode_self]
    exact (h.free 1 (by decide)).2
  · rw [setInode_self]
    exact .inr ⟨rfl, rfl⟩

/-- The inode that was found is locked after the directory has been
unlocked. -/
theorem Got.ilock {s3 s4 : Kernel} (h : Got s p t ip s3)
    (hs4 : s4 = s3.setInode 0 { s3.itable 0 with lock := none })
    (ht : (dinodeAt s.sb s.cache t).type ≠ 0) : Spec I DoubleFree (ilock p ip) s4 fun _ s5 _ =>
      (s5.itable ip).toDinode = dinodeAt s.sb s.cache t ∧ s5.cache = s.cache := by
  have hentry : s4.itable ip = { s3.itable ip with lock := none } := by
    rw [hs4]
    by_cases hip : ip = 0
    · rw [hip, setInode_self]
    · rw [setInode_of_ne _ hip, ← h.lock hip]
  have hsb : s4.sb = s.sb := by
    rw [hs4]
    exact h.sb
  have hcache : s4.cache = s.cache := by
    rw [hs4]
    exact h.cache
  rcases h.entry with ⟨hvalid, hd⟩ | ⟨hvalid, hinum⟩
  · refine (ilock_valid (by rw [hentry]; exact h.ref) (by rw [hentry])
      (by rw [hentry]; exact hvalid)).mono ?_
    rintro _ s5 u ⟨rfl, rfl⟩
    refine ⟨?_, hcache⟩
    rwa [setInode_self, hentry]
  have hread : dinodeAt s4.sb s4.cache (s4.itable ip).inum = dinodeAt s.sb s.cache t := by
    rw [hsb, hcache, hentry]
    exact congrArg _ hinum
  refine (ilock_reads (by rw [hentry]; exact h.ref) (by rw [hentry])
    (by rw [hentry]; exact hvalid) (by rw [hread]; exact ht)).mono ?_
  rintro _ s5 u ⟨rfl, rfl⟩
  refine ⟨?_, hcache⟩
  rwa [setInode_self]

/-- The lookup ends with the inode that the first entry with the name has. -/
theorem lookup_finds (hfree : ∀ ip, (s.itable ip).ref = 0 ∧ (s.itable ip).lock = none)
    (hd : dinodeAt s.sb s.cache ROOTINO = d) (hdir : d.type = T_DIR) (hcov : Covered s.cache d)
    (hsize : 16 * j + 16 ≤ d.size.toNat) (hm : Matches s.cache d name j)
    (hfirst : ∀ j', j' < j → ¬ Matches s.cache d name j') (hinum : (entryAt s.cache d j).inum = t)
    (ht : (dinodeAt s.sb s.cache t).type ≠ 0) :
    Spec I DoubleFree (lookup p name) s fun r s' _ => ∃ ip, r = some ip ∧
      (s'.itable ip).toDinode = dinodeAt s.sb s.cache t ∧ s'.cache = s.cache := by
  refine (iget_empty fun ip => (hfree ip).1).bind ?_
  rintro _ s1 u ⟨rfl, rfl, hs1⟩
  refine (ilock_root hfree hs1 hd (by rw [hdir]; decide)).bind ?_
  rintro _ s2 u ⟨rfl, h2⟩
  have hfound : Spec (fun v => I v) DoubleFree (dirlookup 0 name) s2 fun r s3 u =>
      u = [] ∧ ∃ ip, r = some (ip, 16 * j) ∧ Got s p t ip s3 := by
    refine .bind (P := fun i s3 u => i = s2.itable 0 ∧ s3 = s2 ∧ u = [])
      (read ⟨rfl, rfl, rfl⟩) ?_
    rintro _ s3 u ⟨rfl, hs3, rfl⟩
    rw [hs3]
    have hip : (s2.itable 0).toDinode = d := by rw [h2.root]
    rw [h2.root, if_neg (not_not.2 hdir)]
    rw [← h2.cache] at hcov hm hfirst hinum
    refine dirlookupFrom_finds (k := 0) hip hcov (zero_le j) ?_ hsize hm
      (fun j' _ hlt => hfirst j' hlt) ?_
    · show j < 0 + (d.size.toNat + 15) / 16
      omega
    · rw [hinum]
      exact (h2.iget hd).mono fun ip s3 u hgot => ⟨hgot.1, ip, rfl, hgot.2⟩
  refine hfound.bind ?_
  rintro _ s3 u ⟨rfl, ip, rfl, h3⟩
  refine (iunlock_holder h3.root.1 h3.root.2).bind ?_
  rintro _ s4 u ⟨rfl, hs4⟩
  refine (h3.ilock hs4 ht).bind ?_
  rintro _ s5 u ⟨hd5, hc5⟩
  exact .pure ⟨ip, rfl, hd5, hc5⟩

end Lookup

/-! ## The root directory -/

theorem getD_flatMap_encode {des : List Dirent} (hj : j < des.length) (ht : t < 16) :
    (des.flatMap encode).getD (16 * j + t) 0 = des[j].encode.getD t 0 := by
  induction des generalizing j with
  | nil => simp at hj
  | cons de des ih =>
    have hlen := de.encode_length
    rw [flatMap_cons, getD_append_eq, hlen, flatMap_encode_length]
    rw [length_cons] at hj
    cases j with
    | zero =>
      rw [if_neg (by omega), mul_zero, zero_add]
      rfl
    | succ j =>
      rw [if_pos (by omega), show 16 * (j + 1) + t - 16 = 16 * j + t by omega, ih (by omega)]
      rfl

/-- The entries of a directory that holds the bytes of entries. -/
theorem Holds.entryAt_eq {c : Nat → Block} {d : Dinode} {des : List Dirent}
    (h : Holds c d (des.flatMap encode)) (hj : j < des.length) :
    entryAt c d j = decode des[j].encode := by
  have hbytes : fileBytes c d (16 * j) 16 = des[j].encode := by
    apply ext_getElem
    · rw [encode_length]
      simp [fileBytes]
    intro t ht ht'
    have ht16 : t < 16 := by rwa [encode_length] at ht'
    simp only [fileBytes, getElem_map, getElem_range]
    rw [h.bytes, getD_flatMap_encode hj ht16, getD_eq_getElem?_getD,
      getElem?_eq_getElem ht', getD_some]
  rw [entryAt, hbytes]

theorem InFile.name_ne_zero (file : InFile) : ∀ c ∈ file.name, c ≠ 0 := by
  have hshort : ∀ c ∈ shortname file.path, c ≠ 0 := by
    intro c hc
    unfold shortname at hc
    split at hc
    · exact file.path_ne_zero c (mem_of_mem_drop hc)
    · exact file.path_ne_zero c hc
  intro c hc
  unfold InFile.name skipUnderscore at hc
  split at hc
  · rename_i name heq
    exact hshort c (by rw [heq]; exact mem_cons_of_mem _ hc)
  · exact hshort c hc

section Root

variable {m : Image} {files : List InFile} {file : InFile} {k : Nat}

theorem dirents_length (files : List InFile) : (dirents files).length = files.length + 2 := by
  simp [dirents]

/-- Entry number `k + 2` is for file number `k`. -/
theorem dirents_file {k : Nat} (hk : k + 2 < (dirents files).length) (hk' : k < files.length) :
    (dirents files)[k + 2] = ⟨k + 2, files[k].name⟩ := by
  simp [dirents]

namespace Finished

theorem type_root (h : Finished m files) : (dinodeAt sb m.sectors ROOTINO).type = T_DIR := by
  rw [h.type ROOTINO (by decide), if_pos ⟨by decide, Nat.lt_add_left _ (by decide)⟩]
  rfl

theorem type_ne_zero (h : Finished m files) (hi : 0 < i) (hlt : i < files.length + 2) :
    (dinodeAt sb m.sectors i).type ≠ 0 := by
  rw [h.type i (lt_of_lt_of_le hlt h.inodes), if_pos ⟨hi, hlt⟩]
  exact kind_ne_zero i

theorem holds (h : Finished m files) (hi : 0 < i) (hlt : i < files.length + 2) :
    Holds m.sectors (dinodeAt sb m.sectors i) (contents files i) := by
  have hholds := h.built.holds i (lt_of_lt_of_le hlt h.inodes) (h.type_ne_zero hi hlt)
  rwa [h.disk] at hholds

/-- The entries are read back as they were made. -/
theorem entryAt_eq (h : Finished m files) (hj : j < (dirents files).length) :
    entryAt m.sectors (dinodeAt sb m.sectors ROOTINO) j = (dirents files)[j] := by
  have hholds : Holds m.sectors (dinodeAt sb m.sectors ROOTINO) (direntBytes files) :=
    h.holds (by decide) (Nat.lt_add_left _ (by decide))
  rw [hholds.entryAt_eq hj]
  have hinodes : files.length + 2 ≤ 208 := h.inodes
  match j with
  | 0 =>
    show decode (encode ⟨ROOTINO, [46]⟩) = ⟨ROOTINO, [46]⟩
    exact decode_encode (by decide) (by decide) (by simp)
  | 1 =>
    show decode (encode ⟨ROOTINO, [46, 46]⟩) = ⟨ROOTINO, [46, 46]⟩
    exact decode_encode (by decide) (by decide) (by simp)
  | k + 2 =>
    have hk : k < files.length := by
      rw [dirents_length] at hj
      omega
    rw [dirents_file hj hk]
    exact decode_encode (by dsimp only; omega) (h.names _ (getElem_mem hk))
      (files[k].name_ne_zero)

/-- An entry matches a name that fits if it has this name. -/
theorem matches_iff (h : Finished m files) (hj : j < (dirents files).length)
    (hname : name.length ≤ DIRSIZ) :
    Matches m.sectors (dinodeAt sb m.sectors ROOTINO) name j ↔ name = (dirents files)[j].name := by
  have hde : (dirents files)[j].inum ≠ 0 ∧ (dirents files)[j].name.length ≤ DIRSIZ := by
    match j with
    | 0 => exact ⟨by show (1 : Nat) ≠ 0; decide, by show 1 ≤ DIRSIZ; decide⟩
    | 1 => exact ⟨by show (1 : Nat) ≠ 0; decide, by show 2 ≤ DIRSIZ; decide⟩
    | k + 2 =>
      have hk : k < files.length := by
        rw [dirents_length] at hj
        omega
      rw [dirents_file hj hk]
      exact ⟨succ_ne_zero _, h.names _ (getElem_mem hk)⟩
  unfold Matches namecmp
  rw [h.entryAt_eq hj, take_of_length_le hname, take_of_length_le hde.2]
  simp [hde.1]

end Finished

end Root

/-! ## What is found under a name -/

/-- A file that `.` or `..` hides. -/
def InFile.Hidden (file : InFile) : Prop := file.name = [46] ∨ file.name = [46, 46]

instance (file : InFile) : Decidable file.Hidden := inferInstanceAs (Decidable (_ ∨ _))

/-- The bytes of the root directory. -/
def rootBytes (files : List InFile) : List UInt8 :=
  direntBytes files ++ List.replicate (rootSize files - (direntBytes files).length) 0

/-- The bytes that are found under the name of a file. -/
def served (files : List InFile) (file : InFile) : List UInt8 :=
  if file.Hidden then rootBytes files else file.copied

/-- The entries do not fill the last block of the root directory. -/
def RootOpen (files : List InFile) : Prop := (direntBytes files).length % BSIZE ≠ 0

/-- The inode that is found for file number `k`. -/
def inodeFor (k : Nat) (file : InFile) : Nat := if file.Hidden then ROOTINO else k + 2

/-- A file with the given bytes. -/
def fileNode (bytes : List UInt8) : Node := (Node.empty T_FILE 0 0 1).write 0 bytes

/-- The kernel finds a file with these bytes under the name. -/
def Serves (m : Image) (name bytes : List UInt8) : Prop :=
  ∀ s p, Boots m s → ∃ ip s', ((lookup p name).exec s).2 = .done (some ip) s' ∧
    Shows s' ip (fileNode bytes)

/-- The first entry with the name of a file. -/
theorem dirents_first {files : List InFile} {file : InFile} {k : Nat}
    (hnodup : (files.map InFile.name).Nodup) (hk : files[k]? = some file) :
    ∃ j, ∃ hj : j < (dirents files).length, (dirents files)[j].inum = inodeFor k file ∧
      file.name = (dirents files)[j].name ∧
      ∀ j' (hlt : j' < j), file.name ≠ (dirents files)[j'].name := by
  obtain ⟨hlt, rfl⟩ := List.getElem?_eq_some_iff.1 hk
  have hlen := dirents_length files
  by_cases hdot : files[k].name = [46]
  · refine ⟨0, by omega, ?_, hdot, fun j' hlt => absurd hlt (not_lt_zero j')⟩
    have hidden : files[k].Hidden := .inl hdot
    rw [inodeFor, if_pos hidden]
    rfl
  by_cases hdotdot : files[k].name = [46, 46]
  · refine ⟨1, by omega, ?_, hdotdot, fun j' hlt => ?_⟩
    · have hidden : files[k].Hidden := .inr hdotdot
      rw [inodeFor, if_pos hidden]
      rfl
    · obtain rfl : j' = 0 := by omega
      exact hdot
  refine ⟨k + 2, by omega, ?_, ?_, fun j' hj' => ?_⟩
  · rw [dirents_file _ hlt, inodeFor, if_neg fun hidden => hidden.elim hdot hdotdot]
  · rw [dirents_file _ hlt]
  match j' with
  | 0 => exact hdot
  | 1 => exact hdotdot
  | i + 2 =>
    rw [dirents_file _ (by omega)]
    intro heq
    have hinj := nodup_iff_injective_get.1 hnodup
    have hik := @hinj ⟨i, by rw [length_map]; omega⟩ ⟨k, by rw [length_map]; omega⟩
      (by simpa using heq.symm)
    have hval : i = k := congrArg Fin.val hik
    omega

theorem readsb_blank : readsb (blank.sectors 1) = some sb := by
  have hblock : blank.sectors 1 = sbSector := by
    rw [blank, Image.wsect_of_lt (by decide)]
    simp only [Function.update_self]
  rw [hblock]
  decide +kernel

section Serve

variable {m : Image} {files : List InFile} {file : InFile} {k : Nat} {s : Kernel}
  {p : Fin NPROC} {I : List Event → Prop}

namespace Finished

theorem readsb_eq (h : Finished m files) : readsb (m.sectors 1) = some sb := by
  rw [h.front 1 (by decide), readsb_blank]

/-- The blocks of an inode cover its size. -/
theorem covered (h : Finished m files) (hopen : RootOpen files) (hi : 0 < i)
    (hlt : i < files.length + 2) : Covered m.sectors (dinodeAt sb m.sectors i) := by
  have hholds := h.holds hi hlt
  have hfits : (contents files i).length ≤ 268 * 1024 := hholds.fits
  unfold Covered
  rw [h.size i (lt_of_lt_of_le hlt h.inodes)]
  by_cases hroot : i = ROOTINO
  · rw [if_pos hroot]
    have hcontents : contents files i = direntBytes files := by rw [hroot]; rfl
    rw [hcontents] at hfits hholds
    have hopen : (direntBytes files).length % 1024 ≠ 0 := hopen
    have hdiv : (direntBytes files).length / 1024 < 268 := Nat.div_lt_of_lt_mul (by omega)
    refine ⟨mul_le_mul_right 1024 hdiv, fun bn hbn => ?_⟩
    have hbn : bn * 1024 < ((direntBytes files).length / 1024 + 1) * 1024 := hbn
    have hle : bn ≤ (direntBytes files).length / 1024 := by omega
    exact (hholds.blocks bn (lt_of_le_of_lt hle hdiv)).2 (show bn * 1024 < _ by omega)
  · rw [if_neg hroot]
    refine ⟨hfits, fun bn hbn => ?_⟩
    have hbn' : bn * 1024 < (contents files i).length := hbn
    have hlt : bn < 268 := by omega
    exact (hholds.blocks bn hlt).2 hbn

/-- The inode of a file is found under its name. -/
theorem lookup_spec (h : Finished m files) (hopen : RootOpen files)
    (hnodup : (files.map InFile.name).Nodup) (hk : files[k]? = some file) (hb : Boots m s) :
    Spec I DoubleFree (lookup p file.name) s fun r s' _ => ∃ ip, r = some ip ∧
      (s'.itable ip).toDinode = dinodeAt sb m.sectors (inodeFor k file) ∧ s'.cache = m.sectors := by
  obtain ⟨j, hj, hinum, hname, hfirst⟩ := dirents_first hnodup hk
  obtain ⟨hlt, hfile⟩ := List.getElem?_eq_some_iff.1 hk
  have hlen : file.name.length ≤ DIRSIZ := h.names file (hfile ▸ getElem_mem hlt)
  have hsb : s.sb = sb := by
    have hread := hb.sb
    rw [h.readsb_eq] at hread
    exact (some.inj hread).symm
  have htarget : 0 < inodeFor k file ∧ inodeFor k file < files.length + 2 := by
    unfold inodeFor ROOTINO
    split <;> omega
  have hroot := h.covered hopen (i := ROOTINO) (by decide) (Nat.lt_add_left _ (by decide))
  have hsize : 16 * j + 16 ≤ (dinodeAt sb m.sectors ROOTINO).size.toNat := by
    rw [h.size ROOTINO (by decide), if_pos rfl]
    have hdir := direntBytes_length files
    rw [dirents_length] at hj
    show 16 * j + 16 ≤ ((direntBytes files).length / 1024 + 1) * 1024
    omega
  have hspec : Spec I DoubleFree (lookup p file.name) s fun r s' _ => ∃ ip, r = some ip ∧
      (s'.itable ip).toDinode = dinodeAt s.sb s.cache (inodeFor k file) ∧
      s'.cache = s.cache := by
    refine lookup_finds (d := dinodeAt sb m.sectors ROOTINO) hb.itable ?_ h.type_root ?_ hsize ?_ ?_
      ?_ ?_
    · rw [hsb, hb.cache]
    · rwa [hb.cache]
    · rw [hb.cache]
      exact (h.matches_iff hj hlen).2 hname
    · intro j' hlt'
      rw [hb.cache, h.matches_iff (lt_trans hlt' hj) hlen]
      exact hfirst j' hlt'
    · rwa [hb.cache, h.entryAt_eq hj]
    · rw [hsb, hb.cache]
      exact h.type_ne_zero htarget.1 htarget.2
  rwa [hsb, hb.cache] at hspec

end Finished

theorem getD_append_replicate (l : List UInt8) (n x : Nat) :
    (l ++ replicate n 0).getD x 0 = l.getD x 0 := by
  rw [getD_append_eq]
  split
  · rename_i hin
    rw [getD_eq_getElem?_getD, getD_eq_getElem?_getD, getElem?_eq_none hin.1, getElem?_replicate]
    split <;> rfl
  · rfl

/-- What is in the inode that is found. -/
theorem Finished.served_eq (h : Finished m files) (hk : files[k]? = some file) :
    (served files file).length = (dinodeAt sb m.sectors (inodeFor k file)).size.toNat ∧
      ∀ x, byteAt m.sectors (dinodeAt sb m.sectors (inodeFor k file)) x =
        (served files file).getD x 0 := by
  obtain ⟨hlt, -⟩ := List.getElem?_eq_some_iff.1 hk
  unfold served inodeFor
  by_cases hidden : file.Hidden
  · rw [if_pos hidden, if_pos hidden, h.size ROOTINO (by decide), if_pos rfl]
    have hle : (direntBytes files).length ≤ rootSize files := by
      show _ ≤ ((direntBytes files).length / 1024 + 1) * 1024
      omega
    refine ⟨?_, fun x => ?_⟩
    · rw [rootBytes, length_append, length_replicate, Nat.add_sub_cancel' hle]
    · rw [rootBytes, getD_append_replicate]
      exact (h.holds (by decide) (Nat.lt_add_left _ (by decide))).bytes x
  · have hslot : k + 2 < inodeSlots := lt_of_lt_of_le (by omega) h.inodes
    have hcontents : contents files (k + 2) = file.copied := by simp [contents, hk]
    rw [if_neg hidden, if_neg hidden, h.size _ hslot, if_neg (by unfold ROOTINO; omega),
      ← hcontents]
    exact ⟨rfl, (h.holds (by omega) (by omega)).bytes⟩

theorem shows_fileNode_iff {d : Dinode} {bytes data : List UInt8}
    (hip : (s.itable ip).toDinode = d) (hcov : Covered s.cache d)
    (hlen : data.length = d.size.toNat) (hdata : ∀ x, byteAt s.cache d x = data.getD x 0) :
    Shows s ip (fileNode bytes) ↔ bytes = data := by
  have hsize : (fileNode bytes).size = bytes.length := by simp [fileNode, Node.write, Node.empty]
  have hnode : ∀ x, x < bytes.length → (fileNode bytes).data x = bytes.getD x 0 := by
    intro x hx
    show (if 0 ≤ x ∧ x < 0 + bytes.length then bytes.getD (x - 0) 0 else 0) = _
    rw [if_pos (by omega), Nat.sub_zero]
  rw [shows_iff hip hcov, hsize, ← hlen]
  constructor
  · rintro ⟨heq, hall⟩
    apply ext_getElem heq
    intro x hx hx'
    have hbyte := hall x hx
    rwa [hnode x hx, hdata, getD_eq_getElem?_getD, getD_eq_getElem?_getD,
      getElem?_eq_getElem hx, getElem?_eq_getElem hx'] at hbyte
  · rintro rfl
    exact ⟨rfl, fun x hx => by rw [hnode x hx, hdata]⟩

/-- A kernel that has started with the image. -/
def bootKernel (m : Image) : Kernel :=
  { noteKernel with
    sb := sb
    cache := m.sectors
    itable := fun _ =>
      { toDinode := Dinode.zero, inum := 0, ref := 0, lock := none, valid := false } }

/-- The bytes that the kernel finds under the name of a file. -/
theorem Finished.serves_iff (h : Finished m files) (hopen : RootOpen files)
    (hnodup : (files.map InFile.name).Nodup) (hmem : file ∈ files) (bytes : List UInt8) :
    Serves m file.name bytes ↔ bytes = served files file := by
  obtain ⟨k, hlt, hfile⟩ := mem_iff_getElem.1 hmem
  have hk : files[k]? = some file := List.getElem?_eq_some_iff.2 ⟨hlt, hfile⟩
  obtain ⟨hlen, hbytes⟩ := h.served_eq hk
  have htarget : 0 < inodeFor k file ∧ inodeFor k file < files.length + 2 := by
    unfold inodeFor ROOTINO
    split <;> omega
  have hcov := h.covered hopen htarget.1 htarget.2
  -- in every kernel that has started the lookup ends, and decides the matter
  have hrun : ∀ s p, Boots m s → ∃ ip s', ((lookup p file.name).exec s).2 = .done (some ip) s' ∧
      (Shows s' ip (fileNode bytes) ↔ bytes = served files file) := by
    intro s p hb
    have hspec : Spec (fun _ => False) DoubleFree (lookup p file.name) s _ :=
      h.lookup_spec hopen hnodup hk hb
    obtain ⟨_, s', hdone, ip, rfl, hd, hcache⟩ := hspec.exists_done
    exact ⟨ip, s', hdone, shows_fileNode_iff hd (by rw [hcache]; exact hcov) hlen
      (by rw [hcache]; exact hbytes)⟩
  constructor
  · intro hserves
    have hb : Boots m (bootKernel m) := ⟨h.readsb_eq, rfl, fun _ => ⟨rfl, rfl⟩⟩
    obtain ⟨ip, s', hdone, hiff⟩ := hrun (bootKernel m) ⟨0, by decide⟩ hb
    obtain ⟨ip', s'', hdone', hshows⟩ := hserves (bootKernel m) ⟨0, by decide⟩ hb
    rw [hdone] at hdone'
    cases hdone'
    exact hiff.1 hshows
  · intro heq s p hb
    obtain ⟨ip, s', hdone, hiff⟩ := hrun s p hb
    exact ⟨ip, s', hdone, hiff.2 heq⟩

end Serve

/-! ## Images that the kernel can rely on -/

/-- The number of blocks of a file. -/
def blockCount (size : Nat) : Nat := (size + BSIZE - 1) / BSIZE

/-- The image is one that the kernel can rely on. -/
structure Good (files : List InFile) (m : Image) : Prop where
  super : readsb (m.sectors 1) = some sb
  slots : ∀ i, i < inodeSlots → ∀ bn, bn < MAXFILE →
    (blockOf m.sectors (dinodeAt sb m.sectors i) bn ≠ 0 ↔
      bn < blockCount (dinodeAt sb m.sectors i).size.toNat)
  indirect : ∀ i, i < inodeSlots → (slotAt m.sectors (dinodeAt sb m.sectors i) .indirect ≠ 0 ↔
    NDIRECT < blockCount (dinodeAt sb m.sectors i).size.toNat)
  data : ∀ i, i < inodeSlots → ∀ k, slotAt m.sectors (dinodeAt sb m.sectors i) k ≠ 0 →
    sb.IsData (slotAt m.sectors (dinodeAt sb m.sectors i) k)
  distinct : ∀ i i', i < inodeSlots → i' < inodeSlots → ∀ k k',
    slotAt m.sectors (dinodeAt sb m.sectors i) k ≠ 0 →
    slotAt m.sectors (dinodeAt sb m.sectors i) k = slotAt m.sectors (dinodeAt sb m.sectors i') k' →
      i = i' ∧ k = k'
  bitmap : ∀ b, b < sb.size → (used sb m.sectors b = true ↔
    b < sb.nmeta ∨ ∃ i, i < inodeSlots ∧ ∃ k, slotAt m.sectors (dinodeAt sb m.sectors i) k = b)
  areas : ∀ i, 0 < i → i < m.freeinode → sb.inodestart ≤ sb.IBLOCK i ∧ sb.IBLOCK i < sb.bmapstart
  files : ∀ file ∈ files, Serves m file.name file.bytes

section Good

variable {m : Image} {files : List InFile}

/-- The inodes that are not allocated are clear. -/
theorem Finished.clear (h : Finished m files) (hi : i < inodeSlots)
    (hfree : ¬ (0 < i ∧ i < files.length + 2)) : dinodeAt sb m.sectors i = Dinode.zero := by
  refine (h.built.free i hi ?_).1
  rw [h.type i hi, if_neg hfree]

/-- Each inode has the blocks for its size. -/
theorem Finished.slots (h : Finished m files) (hopen : RootOpen files) (hi : i < inodeSlots) :
    (∀ bn, bn < MAXFILE → (blockOf m.sectors (dinodeAt sb m.sectors i) bn ≠ 0 ↔
      bn < blockCount (dinodeAt sb m.sectors i).size.toNat)) ∧
    (slotAt m.sectors (dinodeAt sb m.sectors i) .indirect ≠ 0 ↔
      NDIRECT < blockCount (dinodeAt sb m.sectors i).size.toNat) := by
  by_cases halloc : 0 < i ∧ i < files.length + 2
  · have hholds := h.holds halloc.1 halloc.2
    have hcount : ∀ bn, bn * BSIZE < (contents files i).length ↔
        bn < blockCount (dinodeAt sb m.sectors i).size.toNat := by
      intro bn
      rw [h.size i hi]
      by_cases hroot : i = ROOTINO
      · have hlen : contents files i = direntBytes files := by rw [hroot]; rfl
        have hopen : (direntBytes files).length % 1024 ≠ 0 := hopen
        rw [if_pos hroot, hlen]
        show bn * 1024 < _ ↔ bn < (((direntBytes files).length / 1024 + 1) * 1024 + 1024 - 1) / 1024
        omega
      · rw [if_neg hroot]
        show bn * 1024 < _ ↔ bn < ((contents files i).length + 1024 - 1) / 1024
        omega
    exact ⟨fun bn hbn => (hholds.blocks bn hbn).trans (hcount bn),
      hholds.indirect.trans (hcount NDIRECT)⟩
  · rw [h.clear hi halloc]
    refine ⟨fun bn _ => ?_, ?_⟩
    · rw [blockOf_of_addrs_zero fun _ => rfl]
      simp [blockCount, Dinode.zero, BSIZE]
    · rw [slotAt_of_addrs_zero fun _ => rfl]
      simp [blockCount, Dinode.zero, BSIZE]

/-- A slot that is not empty is one of an allocated inode. -/
theorem Finished.type_of_slot (h : Finished m files) (hi : i < inodeSlots) {k : Slot}
    (hne : slotAt m.sectors (dinodeAt sb m.sectors i) k ≠ 0) :
    (dinodeAt sb m.sectors i).type ≠ 0 := by
  intro ht
  rw [(h.built.free i hi ht).1, slotAt_of_addrs_zero fun _ => rfl] at hne
  exact hne rfl

theorem Finished.accounts (h : Finished m files) :
    Accounts areas m.sectors (dinodeAt sb m.sectors) := by
  have hacc := h.built.accounts
  rwa [h.disk] at hacc

/-- The image is good if the files can be read. -/
theorem Finished.good (h : Finished m files) (hfree : m.freeinode = files.length + 2)
    (hopen : RootOpen files) (hfiles : ∀ file ∈ files, Serves m file.name file.bytes) :
    Good files m where
  super := h.readsb_eq
  slots i hi := (h.slots hopen hi).1
  indirect i hi := (h.slots hopen hi).2
  data i hi k hne := (h.accounts.slot_sound hi (h.type_of_slot hi hne) hne).1
  distinct i i' hi hi' k k' hne heq :=
    h.accounts.slot_inj hi (h.type_of_slot hi hne) hi' (h.type_of_slot hi' (heq ▸ hne)) hne heq
  bitmap b hb := by
    constructor
    · intro hused
      by_cases hlo : b < sb.nmeta
      · exact .inl hlo
      obtain ⟨⟨i, k⟩, ho⟩ := h.accounts.exact.complete b ⟨Nat.le_of_not_lt hlo, hb⟩ hused
      have hne : b ≠ 0 := by
        rintro rfl
        exact hlo (by decide)
      unfold owners at ho
      split at ho
      · rename_i hand
        exact .inr ⟨i, hand.1, k, ho⟩
      · exact absurd ho.symm hne
    · rintro (hlo | ⟨i, hi, k, rfl⟩)
      · exact h.accounts.reserved b hlo
      by_cases hzero : slotAt m.sectors (dinodeAt sb m.sectors i) k = 0
      · rw [hzero]
        exact h.accounts.reserved 0 (by decide)
      · exact (h.accounts.slot_sound hi (h.type_of_slot hi hzero) hzero).2
  areas i _ hlt := by
    rw [hfree] at hlt
    exact ⟨le_add_left _ _, IBLOCK_lt (lt_of_lt_of_le hlt h.inodes)⟩
  files := hfiles

/-- All inodes lie in the inode blocks. -/
theorem Good.inodes (h : Good files m) (hmkfs : mkfs files = .ok m) :
    files.length + 2 ≤ inodeSlots := by
  by_contra hmany
  have hlt : inodeSlots < m.freeinode := by
    rw [mkfs_freeinode hmkfs]
    omega
  exact absurd (h.areas inodeSlots (by decide) hlt).2 (by decide)

/-- The root directory does not end with a block that it does not have. -/
theorem Good.rootOpen (h : Good files m) (hdone : Finished m files) : RootOpen files := by
  intro hfull
  have hholds : Holds m.sectors (dinodeAt sb m.sectors ROOTINO) (direntBytes files) :=
    hdone.holds (by decide) (Nat.lt_add_left _ (by decide))
  have hfull : (direntBytes files).length % 1024 = 0 := hfull
  have hinodes : files.length + 2 ≤ 208 := hdone.inodes
  have hlen := direntBytes_length files
  have hbn : (direntBytes files).length / 1024 < 268 := by omega
  have hslot := h.slots ROOTINO (by decide) ((direntBytes files).length / 1024) hbn
  rw [hholds.blocks _ hbn, hdone.size ROOTINO (by decide), if_pos rfl] at hslot
  have hslot : (direntBytes files).length / 1024 * 1024 < (direntBytes files).length ↔
      (direntBytes files).length / 1024 <
        (((direntBytes files).length / 1024 + 1) * 1024 + 1024 - 1) / 1024 := hslot
  omega

theorem rootOpen_iff : RootOpen files ↔ (files.length + 2) % 64 ≠ 0 := by
  show (direntBytes files).length % 1024 ≠ 0 ↔ _
  rw [direntBytes_length]
  omega

/-- `mkfs` writes a good image if and only if the inodes of the files have
room, the root directory has room in its last block, and the files can be
read and are not hidden. -/
theorem mkfs_good_iff (hmkfs : mkfs files = .ok m) (hnodup : (files.map InFile.name).Nodup) :
    Good files m ↔ files.length + 2 ≤ inodeSlots ∧ (files.length + 2) % 64 ≠ 0 ∧
      ∀ file ∈ files, served files file = file.bytes := by
  rw [← rootOpen_iff]
  constructor
  · intro h
    have hn := h.inodes hmkfs
    have hdone := (mkfs_ends hn).of_ok hmkfs
    have hopen := h.rootOpen hdone
    refine ⟨hn, hopen, fun file hmem => ?_⟩
    exact ((hdone.serves_iff hopen hnodup hmem _).1 (h.files file hmem)).symm
  · rintro ⟨hn, hopen, hserved⟩
    have hdone := (mkfs_ends hn).of_ok hmkfs
    refine hdone.good (mkfs_freeinode hmkfs) hopen fun file hmem => ?_
    exact (hdone.serves_iff hopen hnodup hmem _).2 (hserved file hmem).symm

end Good

/-- The file `user/_hi`. -/
def hiFile : InFile where
  path := [117, 115, 101, 114, 47, 95, 104, 105]
  bytes := [1, 2, 3]
  opens := true
  reads := [[1, 2, 3]]
  path_ne_zero := by simp
  reads_length := by decide
  reads_isPrefix := by decide

theorem mkfs_good_hi : ∃ m, mkfs [hiFile] = .ok m ∧ Good [hiFile] m := by
  have hends : Ends (Refused [hiFile]) (mkfs [hiFile]) _ := mkfs_ends (by decide)
  obtain ⟨m, hm, -⟩ := hends.exists_ok (by decide +kernel)
  exact ⟨m, hm, (mkfs_good_iff hm (by decide)).2 ⟨by decide, by decide, by decide⟩⟩

/-- The digits and letters. -/
def letters : List UInt8 :=
  (List.range' 48 10 ++ List.range' 65 26 ++ List.range' 97 26).map UInt8.ofNat

/-- An empty file with a name of one character. -/
def emptyFile (k : Fin 62) : InFile where
  path := [letters.getD k.val 1]
  bytes := []
  opens := true
  reads := []
  path_ne_zero := by
    have hall : ∀ k : Fin 62, letters.getD k.val 1 ≠ 0 := by decide +kernel
    intro c hc
    rw [List.mem_singleton.1 hc]
    exact hall k
  reads_length := by simp
  reads_isPrefix := by simp

/-- With 62 files the entries fill one block, and the root directory is made
longer by a block that it does not have. -/
theorem mkfs_bad_root : ∃ files m, (files.map InFile.name).Nodup ∧ files.length = 62 ∧
    (∀ file ∈ files, file.bytes = []) ∧ mkfs files = .ok m ∧ ¬ Good files m := by
  have hends : Ends (Refused (List.ofFn emptyFile)) (mkfs (List.ofFn emptyFile)) _ :=
    mkfs_ends (by simp; decide)
  obtain ⟨m, hm, hdone⟩ := hends.exists_ok (by decide +kernel)
  refine ⟨List.ofFn emptyFile, m, by decide +kernel, by simp, ?_, hm, fun hgood => ?_⟩
  · intro file hmem
    obtain ⟨k, rfl⟩ := (List.mem_ofFn' _ _).1 hmem
    rfl
  · have hopen := rootOpen_iff.1 (hgood.rootOpen hdone)
    rw [List.length_ofFn] at hopen
    exact hopen rfl

end Mkfs

end Xv6
