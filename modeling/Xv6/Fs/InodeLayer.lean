import Xv6.Fs.Table

/-!
# What the inode layer does

Specifications of `iget`, `idup`, `ilock`, `iunlock`, `iput`, `ialloc`, of
changes to the fields of an inode, and of `itrunc`, `readi` and `writei`, for
a program that runs alone.  `Held s f l` is what they keep: `Good`, and `l`
lists all references to entries of the inode table.

None of the functions ever frees a block that is free.  An inode is freed by
the `iput` that drops the last reference to it, if it has no links.
-/

namespace Xv6

open Function Lib List

namespace Fs

variable {ip inum n : Nat} {e : Inode} {v : Bool}

variable {I : List Event → Prop} {s s' s'' : Kernel} {f : Nat → Dinode} {l : List Ref}
  {r : Ref} {p : Fin NPROC}

/-! ## What stays the same -/

/-- The part of the state above the inode layer is as it was. -/
structure Same (s s' : Kernel) : Prop where
  sb : s'.sb = s.sb
  files : s'.files = s.files
  ftable : s'.ftable = s.ftable
  devsw : s'.devsw = s.devsw

theorem Same.refl : Same s s := ⟨rfl, rfl, rfl, rfl⟩

theorem Same.trans (h : Same s s') (h' : Same s' s'') : Same s s'' :=
  ⟨h'.sb.trans h.sb, h'.files.trans h.files, h'.ftable.trans h.ftable, h'.devsw.trans h.devsw⟩

theorem Same.put {c : Nat → Block} {d : Dinode} : Same s (s.put ip c d) :=
  ⟨rfl, rfl, rfl, rfl⟩

/-- Only the inode table has changed. -/
structure Kept (s s' : Kernel) : Prop extends Same s s' where
  cache : s'.cache = s.cache

theorem Kept.refl : Kept s s := ⟨Same.refl, rfl⟩

theorem Kept.trans (h : Kept s s') (h' : Kept s' s'') : Kept s s'' :=
  ⟨h.toSame.trans h'.toSame, h'.cache.trans h.cache⟩

theorem Kept.setInode : Kept s (s.setInode ip e) :=
  ⟨⟨rfl, rfl, rfl, rfl⟩, rfl⟩

/-! ## References -/

/-- `Good`, and all references are accounted for. -/
structure Held (s : Kernel) (f : Nat → Dinode) (l : List Ref) : Prop
    extends Good s f l where
  exact : ∀ ip, (s.itable ip).ref = (l.countP fun r => r.ip = ip : Nat)

theorem Held.perm {l' : List Ref} (h : Held s f l) (hl : l.Perm l') : Held s f l' where
  disk := h.disk
  table := h.table
  holds := by
    refine ⟨?_, fun r hr => h.holds.inum r (hl.mem_iff.2 hr),
      fun r hr => h.holds.valid r (hl.mem_iff.2 hr)⟩
    intro r hr
    rw [← hl.countP_eq]
    exact h.holds.count r (hl.mem_iff.2 hr)
  exact ip := by rw [h.exact ip, hl.countP_eq]

theorem Held.swap {r' : Ref} (h : Held s f (r :: r' :: l)) : Held s f (r' :: r :: l) :=
  h.perm (List.Perm.swap _ _ _)

/-- One more reference to an entry in use. -/
theorem Held.again (h : Held s f l) (hpos : 0 < (s.itable ip).ref)
    (hinum : (s.itable ip).inum = inum) :
    Held (s.setInode ip { s.itable ip with ref := (s.itable ip).ref + 1 }) f
      (⟨ip, inum, false⟩ :: l) where
  disk := h.disk
  table := h.table.set (fun _ => hpos) rfl fun _ hv => h.table.cached ip hpos hv
  holds := by
    have hset : Holds (update s.itable ip { s.itable ip with ref := (s.itable ip).ref + 1 }) l :=
      h.holds.set (by simp) rfl id
    apply hset.cons
    · simp [hinum]
    · simp
    have hle := h.holds.countP_le hpos.le
    simp only [update_self]
    omega
  exact ip' := by
    have hold := h.exact ip'
    rw [countP_cons]
    by_cases hip : ip' = ip
    · subst hip
      simp only [Kernel.setInode, update_self, decide_true, if_true]
      omega
    simp only [Kernel.setInode, update_of_ne hip, Ne.symm hip, decide_false,
      Bool.false_eq_true, if_false]
    omega

/-- A reference to an entry that was not in use. -/
theorem Held.fresh (h : Held s f l) (hip : ip < NINODE)
    (hzero : (s.itable ip).ref = 0) (hinum : inum < s.sb.ninodes)
    (hnew : ∀ x, x < NINODE → 0 < (s.itable x).ref → (s.itable x).inum ≠ inum) :
    Held (s.setInode ip { s.itable ip with inum := inum, ref := 1, valid := false }) f
      (⟨ip, inum, false⟩ :: l) := by
  generalize he : ({ s.itable ip with inum := inum, ref := 1, valid := false } : Inode) = e
  have heref : e.ref = 1 := by rw [← he]
  have heinum : e.inum = inum := by rw [← he]
  have hevalid : e.valid = false := by rw [← he]
  -- an entry in use is the new one or was in use before
  have hcases : ∀ x, 0 < (update s.itable ip e x).ref →
      x = ip ∨ x ≠ ip ∧ 0 < (s.itable x).ref ∧ update s.itable ip e x = s.itable x := by
    intro x hx
    by_cases hxip : x = ip
    · exact .inl hxip
    rw [update_of_ne hxip] at hx
    exact .inr ⟨hxip, hx, update_of_ne hxip _ _⟩
  have hnotin : ∀ r ∈ l, r.ip ≠ ip := by
    intro r hr heq
    have hpos := h.pos hr
    rw [heq] at hpos
    omega
  have hcount : l.countP (fun r' => r'.ip = ip) = 0 := by
    rw [countP_eq_zero]
    intro r hr
    simpa using hnotin r hr
  have htable : Table s.sb.ninodes (update s.itable ip e) f := by
    refine ⟨?_, ?_, ?_⟩
    · intro x hx
      rcases hcases x hx with rfl | ⟨_, hpos, heq⟩
      · rw [update_self, heinum]
        exact ⟨hip, hinum⟩
      · rw [heq]
        exact h.table.bound x hpos
    · intro x y hx hy hxy
      rcases hcases x hx with rfl | ⟨_, hxpos, hxeq⟩
      · rcases hcases y hy with rfl | ⟨_, hypos, hyeq⟩
        · rfl
        rw [update_self, hyeq, heinum] at hxy
        exact absurd hxy.symm (hnew y (h.table.bound y hypos).1 hypos)
      rcases hcases y hy with rfl | ⟨_, hypos, hyeq⟩
      · rw [update_self, hxeq, heinum] at hxy
        exact absurd hxy (hnew x (h.table.bound x hxpos).1 hxpos)
      · rw [hxeq, hyeq] at hxy
        exact h.table.unique x y hxpos hypos hxy
    · intro x hx hv
      rcases hcases x hx with rfl | ⟨_, hpos, heq⟩
      · rw [update_self, hevalid] at hv
        cases hv
      · rw [heq] at hv ⊢
        exact h.table.cached x hpos hv
  have hholds : Holds (update s.itable ip e) l := by
    apply h.holds.mono
    intro r hr
    rw [update_of_ne (hnotin r hr)]
    exact ⟨le_refl _, rfl, id⟩
  refine ⟨⟨h.disk, htable, ?_⟩, ?_⟩
  · apply hholds.cons
    · simp [heinum]
    · simp
    · simp [heref, hcount]
  intro ip'
  have hold := h.exact ip'
  rw [countP_cons]
  by_cases hip' : ip' = ip
  · subst hip'
    simp only [Kernel.setInode, update_self, decide_true, if_true, heref]
    omega
  simp only [Kernel.setInode, update_of_ne hip', Ne.symm hip', decide_false,
    Bool.false_eq_true, if_false]
  omega

theorem iget_spec (h : Held s f l) (hI : I []) (hinum : inum < s.sb.ninodes) :
    Spec I DoubleFree (iget inum) s fun ip s' u =>
      Held s' f (⟨ip, inum, false⟩ :: l) ∧ Kept s s' ∧ u = [] := by
  apply Spec.act
  cases hfind : (range NINODE).find? fun i =>
      decide ((s.itable i).ref > 0 ∧ (s.itable i).inum = inum) with
  | some ip =>
    have hip : (s.itable ip).ref > 0 ∧ (s.itable ip).inum = inum := by
      simpa using List.find?_some hfind
    exact ⟨h.again hip.1 hip.2, Kept.setInode, rfl⟩
  | none =>
    cases hfree : (range NINODE).find? fun i => decide ((s.itable i).ref = 0) with
    | none => exact ⟨hI, by simp [DoubleFree]⟩
    | some ip =>
      have hzero : (s.itable ip).ref = 0 := by simpa using List.find?_some hfree
      have hip := mem_range.1 (mem_of_find?_eq_some hfree)
      refine ⟨h.fresh hip hzero hinum ?_, Kept.setInode, rfl⟩
      intro x hx hpos heq
      have hnone := List.find?_eq_none.1 hfind x (mem_range.2 hx)
      simp only [heq, and_true, decide_eq_true_eq] at hnone
      exact hnone hpos

theorem idup_spec (h : Held s f l) (hpos : 0 < (s.itable ip).ref) :
    Spec I DoubleFree (idup ip) s fun _ s' u =>
      Held s' f (⟨ip, (s.itable ip).inum, false⟩ :: l) ∧ Kept s s' ∧ u = [] :=
  Spec.modify ⟨h.again hpos rfl, Kept.setInode, rfl⟩

/-! ## Locks -/

variable (h : Held s f (⟨ip, inum, v⟩ :: l))

include h in
/-- Change the lock of an entry, and whether it has been read. -/
theorem Held.setEntry (href : e.ref = (s.itable ip).ref)
    (hinum : e.inum = (s.itable ip).inum) (hv : e.valid = true)
    (hd : e.toDinode = f inum) (ht : (f inum).type ≠ 0) :
    Held (s.setInode ip e) f (⟨ip, inum, true⟩ :: l) where
  disk := h.disk
  table := by
    have hpos : 0 < (s.itable ip).ref := h.pos mem_cons_self
    have hi : (s.itable ip).inum = inum := h.holds.inum _ mem_cons_self
    refine h.table.set (fun _ => hpos) hinum fun _ _ => ?_
    rw [hinum, hi]
    exact ⟨hd, ht⟩
  holds := by
    have hi : (s.itable ip).inum = inum := h.holds.inum _ mem_cons_self
    have hset : Holds (update s.itable ip e) l :=
      h.holds.tail.set href.ge hinum fun _ => hv
    apply hset.cons
    · simp [hinum, hi]
    · simp [hv]
    have hlt := h.holds.count_lt
    simp only [update_self, href]
    exact hlt
  exact ip' := by
    have hold := h.exact ip'
    rw [countP_cons] at hold ⊢
    by_cases hip : ip' = ip
    · subst hip
      simpa only [Kernel.setInode, update_self, href] using hold
    · simpa only [Kernel.setInode, update_of_ne hip] using hold

include h in
/-- `ilock` reads the inode; the reference is then a valid one. -/
theorem ilock_spec (hI : I []) : Spec I DoubleFree (ilock p ip) s fun _ s' u =>
      Held s' f (⟨ip, inum, true⟩ :: l) ∧ Kept s s' ∧ u = [] := by
  have hpos : 0 < (s.itable ip).ref := h.pos mem_cons_self
  have hinum : (s.itable ip).inum = inum := h.holds.inum _ mem_cons_self
  have hlt : inum < s.sb.ninodes := h.inum_lt mem_cons_self
  have hdisk : getDinode (s.cache (s.sb.IBLOCK (s.itable ip).inum))
      ((s.itable ip).inum % IPB) = f inum := by
    rw [hinum]
    exact h.disk.synced inum hlt
  apply Spec.act
  dsimp only
  rw [hdisk]
  by_cases href : (s.itable ip).ref < 1
  · rw [if_pos href]
    exact ⟨hI, by simp [DoubleFree]⟩
  rw [if_neg href]
  by_cases hlock : (s.itable ip).lock.isSome = true
  · rwa [if_pos hlock]
  rw [if_neg hlock]
  by_cases hv : (s.itable ip).valid = true
  · rw [if_pos hv]
    obtain ⟨hd, ht⟩ := h.table.cached ip hpos hv
    rw [hinum] at hd ht
    exact ⟨h.setEntry rfl rfl hv hd ht, Kept.setInode, rfl⟩
  rw [if_neg hv]
  by_cases ht : (f inum).type = 0
  · rw [if_pos ht]
    exact ⟨hI, by simp [DoubleFree]⟩
  rw [if_neg ht]
  exact ⟨h.setEntry rfl rfl rfl rfl ht, Kept.setInode, rfl⟩

/-- Change the lock of an entry. -/
theorem Held.setLock {lock : Option (Fin NPROC)} (h : Held s f l) :
    Held (s.setInode ip { s.itable ip with lock := lock }) f l where
  disk := h.disk
  table := h.table.set id rfl fun hpos hv => h.table.cached ip hpos hv
  holds := h.holds.set (le_refl _) rfl id
  exact ip' := by
    have hold := h.exact ip'
    by_cases hip : ip' = ip
    · subst hip
      simpa only [Kernel.setInode, update_self] using hold
    · simpa only [Kernel.setInode, update_of_ne hip] using hold

theorem iunlock_spec (h : Held s f l) (hI : I []) :
    Spec I DoubleFree (iunlock p ip) s fun _ s' u => Held s' f l ∧ Kept s s' ∧ u = [] := by
  apply Spec.act
  by_cases hbad : (s.itable ip).lock ≠ some p ∨ (s.itable ip).ref < 1
  · rw [if_pos hbad]
    exact ⟨hI, by simp [DoubleFree]⟩
  · rw [if_neg hbad]
    exact ⟨h.setLock, Kept.setInode, rfl⟩

/-! ## Storing an inode -/

section Store

variable {sb : Superblock} {c c' : Nat → Block} {f' : Nat → Dinode} {i : Nat} {d : Dinode}

/-- Inodes that are all stored need no update. -/
theorem Disk.refl_update (h : Disk sb c f) (i : Nat) : Update sb c f i c f where
  accounts := h.accounts
  others _ _ := rfl
  keeps _ _ _ _ _ := rfl
  bytes _ _ _ _ _ := rfl
  disk j hj := by
    rw [h.synced j hj]
    split
    · rename_i heq
      rw [heq]
    · rfl

/-- The inode is stored once more, with other contents. -/
theorem Update.store (h : Update sb c f i c' f') (hi : i < sb.ninodes)
    (hacc : Accounts sb c' (update f' i d)) :
    Update sb c f i (storeDinode sb c' i d) (update f' i d) := by
  refine .of_store h.accounts hi hacc h.others h.keeps h.bytes fun j hj hne => ?_
  rw [h.disk j hj, if_neg hne]

theorem slotAt_of_addrs_zero (hd : ∀ j, d.addrs j = 0) (k : Slot) : slotAt c d k = 0 := by
  cases k with
  | addr j => simp [slotAt, hd]
  | entry e => exact slotAt_entry_of_indirect (by simp [Slot.indirect, slotAt, hd]) e

theorem blockOf_of_addrs_zero (hd : ∀ j, d.addrs j = 0) (bn : Nat) : blockOf c d bn = 0 := by
  unfold blockOf
  split
  · exact slotAt_of_addrs_zero hd _
  · rfl

/-- A file without blocks reads as zeros. -/
theorem byteAt_of_addrs_zero (hd : ∀ j, d.addrs j = 0) (x : Nat) : byteAt c d x = 0 := by
  rw [byteAt, if_pos (blockOf_of_addrs_zero hd _)]

/-- The accounts of an inode without blocks. -/
theorem Accounts.setEmpty (h : Accounts sb c f) (hold : ∀ k, owners sb c f (i, k) = 0)
    (hd : ∀ j, d.addrs j = 0) : Accounts sb c (update f i d) where
  wf := h.wf
  reserved := h.reserved
  exact := by
    refine h.exact.congr (fun _ _ => Iff.rfl) ?_
    rintro ⟨j, k⟩
    by_cases hj : j = i
    · subst hj
      rw [hold k]
      simp only [owners, update_self, slotAt_of_addrs_zero hd, ite_self]
    · simp only [owners, update_of_ne hj]

theorem fileBytes_of_addrs_zero (hd : ∀ j, d.addrs j = 0) (off n : Nat) :
    fileBytes c d off n = List.replicate n 0 := by
  unfold fileBytes
  rw [eq_replicate_iff]
  simp [byteAt_of_addrs_zero hd]

theorem entryAt_of_addrs_zero (hd : ∀ j, d.addrs j = 0) (k : Nat) : (entryAt c d k).inum = 0 := by
  rw [entryAt, fileBytes_of_addrs_zero hd]
  rfl

theorem covered_of_size_zero (hsize : d.size = 0) : Covered c d := by
  constructor
  · simp [hsize]
  · intro bn hbn
    simp [hsize] at hbn

end Store

/-! ## Freeing an inode -/

include h in
/-- Drop a reference that is not the last one to an inode without links. -/
theorem Held.dropRef :
    Held (s.setInode ip { s.itable ip with ref := (s.itable ip).ref - 1 }) f l where
  disk := h.disk
  table := by
    have hpos : 0 < (s.itable ip).ref := h.pos mem_cons_self
    exact h.table.set (fun _ => hpos) rfl fun _ hv => h.table.cached ip hpos hv
  holds := by
    have hdrop := h.holds.drop (e := { s.itable ip with ref := (s.itable ip).ref - 1 })
      (le_refl _) rfl fun _ _ _ hv => hv
    exact hdrop
  exact ip' := by
    have hold := h.exact ip'
    rw [countP_cons] at hold
    by_cases hip : ip' = ip
    · subst hip
      simp only [Kernel.setInode, update_self, decide_true, if_true] at hold ⊢
      omega
    simp only [Kernel.setInode, update_of_ne hip, Ne.symm hip, decide_false,
      Bool.false_eq_true, if_false] at hold ⊢
    omega

include h in
/-- The last reference to an inode is dropped, and the inode is freed. -/
theorem Held.free {c' : Nat → Block} {d : Dinode} (hone : (s.itable ip).ref = 1)
    (hu : Update s.sb s.cache f inum c' (update f inum d)) (ht : d.type = 0)
    (href : e.ref = 0) :
    Held { s with cache := c', itable := update s.itable ip e } (update f inum d) l := by
  have hpos : 0 < (s.itable ip).ref := h.pos mem_cons_self
  have hinum : (s.itable ip).inum = inum := h.holds.inum _ mem_cons_self
  have hcount : ∀ r ∈ l, r.ip ≠ ip := by
    intro r hr heq
    have hlt := h.holds.count_lt
    have hpos : 0 < l.countP fun r' => r'.ip = ip :=
      countP_pos_iff.2 ⟨r, hr, by simp [heq]⟩
    simp only [hone] at hlt
    omega
  -- entries in use are other entries, of other inodes
  have hother : ∀ x, 0 < (update s.itable ip e x).ref →
      x ≠ ip ∧ update s.itable ip e x = s.itable x := by
    intro x hx
    have hne : x ≠ ip := by
      rintro rfl
      rw [update_self, href] at hx
      exact absurd hx (lt_irrefl 0)
    exact ⟨hne, update_of_ne hne _ _⟩
  refine ⟨⟨?_, ⟨?_, ?_, ?_⟩, ?_⟩, ?_⟩
  · refine h.disk.update hu ?_ ?_
    · intro hne
      rw [update_self] at hne
      exact absurd ht hne
    intro hdir
    rw [update_self, ht] at hdir
    exact absurd hdir (by decide)
  · intro x hx
    obtain ⟨_, heq⟩ := hother x hx
    simp only [heq] at hx ⊢
    exact h.table.bound x hx
  · intro x y hx hy hxy
    obtain ⟨_, hxeq⟩ := hother x hx
    obtain ⟨_, hyeq⟩ := hother y hy
    simp only [hxeq, hyeq] at hx hy hxy
    exact h.table.unique x y hx hy hxy
  · intro x hx hv
    obtain ⟨hne, heq⟩ := hother x hx
    simp only [heq] at hx hv ⊢
    have hi : (s.itable x).inum ≠ inum := fun hi =>
      hne (h.table.unique x ip hx hpos (by rw [hi, hinum]))
    rw [update_of_ne hi]
    exact h.table.cached x hx hv
  · apply h.holds.tail.mono
    intro r hr
    simp [update_of_ne (hcount r hr)]
  · intro x
    have hold := h.exact x
    rw [countP_cons] at hold
    by_cases hx : x = ip
    · subst hx
      simp only [update_self, href, decide_true, if_true] at hold ⊢
      omega
    · simp only [update_of_ne hx, Ne.symm hx, decide_false, Bool.false_eq_true, if_false] at hold ⊢
      omega

/-- Inode `i` has been freed: what was on the disk for it is gone, and
nothing else has changed. -/
structure Freed (s : Kernel) (f : Nat → Dinode) (i : Nat) (s' : Kernel) (f' : Nat → Dinode) :
    Prop extends Same s s' where
  allocated : (f i).type ≠ 0
  nlink : (f i).nlink = 0
  update : Update s.sb s.cache f i s'.cache f'
  type : (f' i).type = 0

/-- Events of freeing inode `i`. -/
def FreeEvents (sb : Superblock) (i : Nat) (u : List Event) : Prop :=
  ∀ e ∈ u, e = .iput ∨ ∃ x, (sb.IsBitmap x ∨ x = sb.IBLOCK i) ∧ e = .logWrite x

/-- Two references to one inode are references to one entry. -/
theorem Held.ip_eq {r r' : Ref} (h : Held s f l) (hr : r ∈ l) (hr' : r' ∈ l)
    (hinum : r'.inum = r.inum) : r'.ip = r.ip := by
  apply h.table.unique _ _ (h.pos hr') (h.pos hr)
  rw [h.holds.inum r' hr', h.holds.inum r hr, hinum]

include h in
/-- A reference is the only one to its inode if and only if the count is
one. -/
theorem Held.ref_eq_one_iff : (s.itable ip).ref = 1 ↔ ∀ r ∈ l, r.inum ≠ inum := by
  have hexact := h.exact ip
  rw [countP_cons] at hexact
  simp only [decide_true, if_true] at hexact
  have hself : (⟨ip, inum, v⟩ : Ref) ∈ (⟨ip, inum, v⟩ :: l : List Ref) := mem_cons_self
  constructor
  · intro hone r hr heq
    have hip : r.ip = ip := h.ip_eq hself (mem_cons_of_mem _ hr) heq
    have hcount : 0 < l.countP fun r' => r'.ip = ip :=
      countP_pos_iff.2 ⟨r, hr, by simp [hip]⟩
    omega
  intro hnone
  have hcount : l.countP (fun r' => r'.ip = ip) = 0 := by
    rw [countP_eq_zero]
    intro r hr hip
    have hip : r.ip = ip := by simpa using hip
    apply hnone r hr
    rw [← h.holds.inum r (mem_cons_of_mem _ hr), hip]
    exact h.holds.inum _ hself
  omega

include h in
/-- The part of `iput` after it has locked an inode without links. -/
theorem iputLast_spec {I : List Event → Prop}
    (hone : (s.itable ip).ref = 1) (hd : (s.itable ip).toDinode = f inum)
    (ht : (f inum).type ≠ 0) (hnlink : (f inum).nlink = 0) :
    Spec I DoubleFree (do
      itrunc ip
      Prog.modify fun s => s.setInode ip { s.itable ip with type := 0 }
      iupdate ip
      Prog.modify fun s => s.setInode ip { s.itable ip with valid := false, lock := none }
      Prog.modify fun s => s.setInode ip { s.itable ip with ref := (s.itable ip).ref - 1 } :
        FsM Unit) s fun _ s' u =>
      ∃ f', Held s' f' l ∧ Freed s f inum s' f' ∧
        ∀ e ∈ u, ∃ x, (s.sb.IsBitmap x ∨ x = s.sb.IBLOCK inum) ∧ e = .logWrite x := by
  have hinum : (s.itable ip).inum = inum := h.holds.inum _ mem_cons_self
  have hlt : inum < s.sb.ninodes := h.inum_lt mem_cons_self
  refine (itrunc_spec h.disk.accounts hlt ht hd hinum).bind ?_
  rintro _ s1 u1 ⟨c1, rfl, hu1, hev1⟩
  refine .modify_bind (t := s.put ip c1 { (f inum).truncated with type := 0 }) ?_ ?_
  · simp [Kernel.put, Kernel.setInode]
  refine (iupdate_spec hinum).bind ?_
  rintro _ s3 u3 ⟨rfl, rfl⟩
  -- the inode is stored with the type of a free one
  have haddrs : ∀ j, ({ (f inum).truncated with type := 0 } : Dinode).addrs j = 0 := fun _ => rfl
  have hempty : ∀ k, owners s.sb c1 (update f inum (f inum).truncated) (inum, k) = 0 := by
    intro k
    rw [owners]
    split
    · rw [update_self]
      exact slotAt_of_addrs_zero (fun _ => rfl) k
    · rfl
  have hacc := hu1.accounts.setEmpty hempty haddrs
  have hu := hu1.store hlt hacc
  rw [update_idem] at hu
  refine .modify_bind (t := { s with
    cache := storeDinode s.sb c1 inum { (f inum).truncated with type := 0 }
    itable := update s.itable ip { s.itable ip with
      toDinode := { (f inum).truncated with type := 0 }, valid := false, lock := none } }) ?_ ?_
  · simp [Kernel.put, Kernel.setInode]
  apply Spec.modify
  refine ⟨update f inum { (f inum).truncated with type := 0 }, ?_, ?_, ?_⟩
  · have hheld := h.free (e := { s.itable ip with
      toDinode := { (f inum).truncated with type := 0 }, valid := false, lock := none,
      ref := (s.itable ip).ref - 1 }) hone hu rfl (by simp [hone])
    simpa [Kernel.setInode] using hheld
  · refine ⟨⟨rfl, rfl, rfl, rfl⟩, ht, hnlink, hu, ?_⟩
    rw [update_self]
  intro e he
  simp only [mem_append, append_nil, mem_singleton] at he
  rcases he with he | rfl
  · exact hev1 e he
  · exact ⟨_, .inr rfl, rfl⟩

include h in
theorem iput_spec (hI : Calm I) : Spec I DoubleFree (iput p ip) s fun _ s' u =>
      (Held s' f l ∧ Kept s s' ∧ u = [.iput] ∧
        ((f inum).nlink ≠ 0 ∨ v = false ∨ ∃ r ∈ l, r.inum = inum)) ∨
      (∃ f', Held s' f' l ∧ Freed s f inum s' f' ∧ (∀ r ∈ l, r.inum ≠ inum) ∧
        FreeEvents s.sb inum u) := by
  have hpos : 0 < (s.itable ip).ref := h.pos mem_cons_self
  have hinum : (s.itable ip).inum = inum := h.holds.inum _ mem_cons_self
  unfold iput
  by_cases hlast : (s.itable ip).ref = 1 ∧ (s.itable ip).valid = true ∧ (s.itable ip).nlink = 0
  · obtain ⟨hone, hv, hnlink⟩ := hlast
    obtain ⟨hd, ht⟩ := h.table.cached ip hpos hv
    rw [hinum] at hd ht
    refine .bind (P := fun last s1 u => last = true ∧
      s1 = s.setInode ip { s.itable ip with lock := some p } ∧ u = [.iput]) ?_ ?_
    · apply Spec.act
      rw [if_pos ⟨hone, hv, hnlink⟩]
      by_cases hlock : (s.itable ip).lock.isSome = true
      · rw [if_pos hlock]
        exact hI.nil
      · rw [if_neg hlock]
        exact ⟨rfl, rfl, rfl⟩
    rintro _ s1 u1 ⟨rfl, rfl, rfl⟩
    rw [if_pos rfl]
    have hnlink' : (f inum).nlink = 0 := by rw [← hd]; exact hnlink
    refine (iputLast_spec h.setLock ?_ ?_ ht hnlink').mono ?_
    · simpa [Kernel.setInode] using hone
    · simpa [Kernel.setInode] using hd
    rintro _ s2 u2 ⟨f', hheld, hfreed, hev⟩
    refine .inr ⟨f', hheld, ?_, h.ref_eq_one_iff.1 hone, ?_⟩
    · exact ⟨Kept.setInode.toSame.trans hfreed.toSame, ht, hnlink', hfreed.update, hfreed.type⟩
    intro e he
    rcases mem_append.1 he with he | he
    · exact .inl (mem_singleton.1 he)
    · exact .inr (hev e he)
  · refine .bind (P := fun last s1 u => last = false ∧
      s1 = s.setInode ip { s.itable ip with ref := (s.itable ip).ref - 1 } ∧ u = [.iput]) ?_ ?_
    · apply Spec.act
      rw [if_neg hlast]
      exact ⟨rfl, rfl, rfl⟩
    rintro _ s1 u1 ⟨rfl, rfl, rfl⟩
    apply Spec.pure
    refine .inl ⟨h.dropRef, Kept.setInode, rfl, ?_⟩
    by_contra hno
    simp only [not_or, not_exists, not_and, not_not, Bool.not_eq_false] at hno
    obtain ⟨hnlink, rfl, hnone⟩ := hno
    have hv : (s.itable ip).valid = true := h.holds.valid _ mem_cons_self rfl
    obtain ⟨hd, -⟩ := h.table.cached ip hpos hv
    rw [hinum] at hd
    refine hlast ⟨h.ref_eq_one_iff.2 hnone, hv, ?_⟩
    rwa [hd]

include h in
theorem iunlockput_spec (hI : Calm I) : Spec I DoubleFree (iunlockput p ip) s fun _ s' u =>
      (Held s' f l ∧ Kept s s' ∧ u = [.iput] ∧
        ((f inum).nlink ≠ 0 ∨ v = false ∨ ∃ r ∈ l, r.inum = inum)) ∨
      (∃ f', Held s' f' l ∧ Freed s f inum s' f' ∧ (∀ r ∈ l, r.inum ≠ inum) ∧
        FreeEvents s.sb inum u) := by
  refine (iunlock_spec h hI.nil).bind ?_
  rintro _ s1 u1 ⟨h1, hk1, rfl⟩
  refine (iput_spec h1 hI).mono ?_
  rintro _ s2 u2 (⟨h2, hk2, hu, hwhy⟩ | ⟨f', h2, hfreed, hlast, hev⟩)
  · exact .inl ⟨h2, hk1.trans hk2, hu, hwhy⟩
  refine .inr ⟨f', h2, ⟨hk1.toSame.trans hfreed.toSame, hfreed.allocated, hfreed.nlink, ?_,
    hfreed.type⟩, hlast, ?_⟩
  · rw [← hk1.sb, ← hk1.cache]
    exact hfreed.update
  · rwa [← hk1.sb]

/-! ## Allocating an inode -/

/-- An inode that was free has become another one, on the disk. -/
theorem Held.alloc {i : Nat} {d : Dinode} (h : Held s f l) (hi : i < s.sb.ninodes)
    (ht : (f i).type = 0) (hd : ∀ j, d.addrs j = 0) (hsize : d.size = 0) :
    Held { s with cache := storeDinode s.sb s.cache i d } (update f i d) l ∧
      Update s.sb s.cache f i (storeDinode s.sb s.cache i d) (update f i d) := by
  have hempty : ∀ k, owners s.sb s.cache f (i, k) = 0 := by
    intro k
    rw [owners, if_neg fun hno => hno.2 ht]
  have hu := (h.disk.refl_update i).store hi (h.disk.accounts.setEmpty hempty hd)
  refine ⟨⟨⟨?_, ?_, h.holds⟩, h.exact⟩, hu⟩
  · refine h.disk.update hu ?_ ?_
    · intro _
      rw [update_self]
      exact covered_of_size_zero hsize
    intro _ k
    rw [update_self, entryAt_of_addrs_zero hd]
    exact Nat.lt_trans (by decide) h.disk.accounts.wf.root
  refine ⟨h.table.bound, h.table.unique, ?_⟩
  intro ip hpos hv
  obtain ⟨hcached, htype⟩ := h.table.cached ip hpos hv
  have hne : (s.itable ip).inum ≠ i := fun heq => htype (heq ▸ ht)
  rw [update_of_ne hne]
  exact ⟨hcached, htype⟩

/-- A free inode gets a type. -/
structure Allocated (s : Kernel) (f : Nat → Dinode) (type : Int16) (i : Nat) (s' : Kernel)
    (f' : Nat → Dinode) : Prop extends Same s s' where
  pos : 0 < i
  lt : i < s.sb.ninodes
  free : (f i).type = 0
  update : Update s.sb s.cache f i s'.cache f'
  inode : f' i = { Dinode.zero with type := type }

theorem iallocFrom_spec {type : Int16} (h : Held s f l) (hI : Calm I)
    (hn : inum + n ≤ s.sb.ninodes) (hpos : 0 < inum) :
    Spec I DoubleFree (iallocFrom type inum n) s fun r s' u =>
      (r = none ∧ s' = s ∧ u = [] ∧ ∀ i, inum ≤ i → i < inum + n → (f i).type ≠ 0) ∨
      ∃ i f', r = some i ∧ Held s' f' l ∧ Allocated s f type i s' f' ∧
        u = [.logWrite (s.sb.IBLOCK i)] := by
  induction n generalizing inum I with
  | zero =>
    apply Spec.pure
    exact .inl ⟨rfl, rfl, rfl, fun i hlo hhi => by omega⟩
  | succ n ih =>
    have hlt : inum < s.sb.ninodes := by omega
    have hdisk : getDinode (s.cache (s.sb.IBLOCK inum)) (inum % IPB) = f inum :=
      h.disk.synced inum hlt
    rw [iallocFrom]
    by_cases hfree : (f inum).type = 0
    · refine .bind (P := fun free s1 u => free = true ∧
        s1 = { s with cache := storeDinode s.sb s.cache inum { Dinode.zero with type := type } } ∧
        u = [.logWrite (s.sb.IBLOCK inum)]) ?_ ?_
      · apply Spec.act
        dsimp only
        rw [hdisk, if_pos hfree]
        exact ⟨rfl, rfl, rfl⟩
      rintro _ s1 u1 ⟨rfl, rfl, rfl⟩
      rw [if_pos rfl]
      apply Spec.pure
      obtain ⟨hheld, hu⟩ := h.alloc (d := { Dinode.zero with type := type }) hlt hfree
        (fun _ => rfl) rfl
      refine .inr ⟨inum, _, rfl, hheld, ⟨⟨rfl, rfl, rfl, rfl⟩, hpos, hlt, hfree, hu, ?_⟩, rfl⟩
      rw [update_self]
    refine .bind (P := fun free s1 u => free = false ∧ s1 = s ∧ u = []) ?_ ?_
    · apply Spec.act
      dsimp only
      rw [hdisk, if_neg hfree]
      exact ⟨rfl, rfl, rfl⟩
    rintro _ s1 u1 ⟨rfl, rfl, rfl⟩
    rw [if_neg (by decide)]
    refine (ih hI (by omega) (by omega)).mono ?_
    rintro r s2 u2 (⟨hr, hs, hu, hall⟩ | hsome)
    · refine .inl ⟨hr, hs, hu, fun i hlo hhi => ?_⟩
      by_cases heq : i = inum
      · rw [heq]
        exact hfree
      · exact hall i (by omega) (by omega)
    · exact Or.inr hsome

theorem ialloc_spec {type : Int16} (h : Held s f l) (hI : Calm I) :
    Spec I DoubleFree (ialloc type) s fun r s' u =>
      (r = none ∧ s' = s ∧ u = [] ∧ ∀ i, 0 < i → i < s.sb.ninodes → (f i).type ≠ 0) ∨
      ∃ ip i f', r = some ip ∧ Held s' f' (⟨ip, i, false⟩ :: l) ∧ Allocated s f type i s' f' ∧
        u = [.logWrite (s.sb.IBLOCK i)] := by
  have hroot : 1 < s.sb.ninodes := h.disk.accounts.wf.root
  refine .read_bind rfl ?_
  refine (iallocFrom_spec h hI (by omega) (by decide)).bind ?_
  rintro r s2 u2 (⟨rfl, rfl, rfl, hall⟩ | ⟨i, f', rfl, h2, halloc, rfl⟩)
  · apply Spec.pure
    exact .inl ⟨rfl, rfl, rfl, fun i hlo hhi => hall i hlo (by omega)⟩
  have hlt : i < s2.sb.ninodes := by
    rw [halloc.sb]
    exact halloc.lt
  have hinner : Inner [.logWrite (s.sb.IBLOCK i)] := by
    intro e he
    exact .inr (.inr ⟨_, mem_singleton.1 he⟩)
  refine (iget_spec h2 ((hI.after Inner.nil).after hinner).nil hlt).bind ?_
  rintro ip s3 u3 ⟨h3, hk3, rfl⟩
  apply Spec.pure
  refine .inr ⟨ip, i, f', rfl, h3, ⟨halloc.toSame.trans hk3.toSame, halloc.pos, halloc.lt,
    halloc.free, ?_, halloc.inode⟩, rfl⟩
  rw [hk3.cache]
  exact halloc.update

/-! ## Changing an inode -/

/-- The fields of an inode apart from its blocks and its size have changed,
on the disk too. -/
structure Reset (s : Kernel) (f : Nat → Dinode) (i : Nat) (d : Dinode) (s' : Kernel)
    (f' : Nat → Dinode) : Prop extends Same s s' where
  update : Update s.sb s.cache f i s'.cache f'
  inode : f' i = d
  slots : ∀ k, slotAt s'.cache (f' i) k = slotAt s.cache (f i) k
  bytes : ∀ x, byteAt s'.cache (f' i) x = byteAt s.cache (f i) x

/-- The entry of an inode that has been changed and stored. -/
theorem Held.put {c' : Nat → Block} {f' : Nat → Dinode} (h : Held s f l)
    (hr : (⟨ip, inum, true⟩ : Ref) ∈ l) (hu : Update s.sb s.cache f inum c' f')
    (ht : (f' inum).type ≠ 0) (hcov : Covered c' (f' inum))
    (hdir : (f' inum).type = T_DIR → ∀ k, (entryAt c' (f' inum) k).inum < s.sb.ninodes) :
    Held (s.put ip c' (f' inum)) f' l where
  toGood := h.toGood.put hr hu ht hcov hdir
  exact ip' := by
    have hold := h.exact ip'
    by_cases hip : ip' = ip
    · subst hip
      rwa [Kernel.put_itable_self]
    · simpa only [Kernel.put, update_of_ne hip] using hold

/-- `iupdate` after fields of an inode have been set to those of `d`. -/
theorem setInfo_spec {d : Dinode} (h : Held s f l)
    (hr : (⟨ip, inum, true⟩ : Ref) ∈ l) (htype : d.type = (f inum).type)
    (hsize : d.size = (f inum).size) (haddrs : d.addrs = (f inum).addrs) :
    Spec I DoubleFree (iupdate ip) (s.put ip s.cache d) fun _ s' u =>
      ∃ f', Held s' f' l ∧ Reset s f inum d s' f' ∧ u = [.logWrite (s.sb.IBLOCK inum)] := by
  have hlt : inum < s.sb.ninodes := h.inum_lt hr
  obtain ⟨hd, ht⟩ := h.cached hr rfl
  refine (iupdate_spec (h.holds.inum _ hr)).mono ?_
  rintro _ s' u ⟨rfl, rfl⟩
  have hacc : Accounts s.sb s.cache (update f inum d) :=
    h.disk.accounts.setInfo haddrs (by rw [htype])
  have hu := (h.disk.refl_update inum).store hlt hacc
  obtain ⟨hslots, hbytes⟩ :=
    h.disk.accounts.storeDinode_view (d := d) hlt hlt ht haddrs
  have hself : update f inum d inum = d := update_self _ _ _
  refine ⟨update f inum d, ?_, ⟨Same.put, hu, hself, ?_, ?_⟩, rfl⟩
  · have hheld := h.put hr hu (by rw [hself, htype]; exact ht) ?_ ?_
    · rwa [hself] at hheld
    · rw [hself]
      obtain ⟨hmax, hblocks⟩ := h.disk.covered inum hlt ht
      refine ⟨by rw [hsize]; exact hmax, fun bn hbn => ?_⟩
      rw [hsize] at hbn
      obtain ⟨k, hk, _, heq⟩ := exists_slot_of_blockOf_ne (hblocks bn hbn)
      rw [blockOf_eq hk, hslots, ← heq]
      exact hblocks bn hbn
    · rw [hself, htype]
      intro hdir k
      rw [entryAt_congr fun x _ _ => hbytes x]
      exact h.disk.dirs inum hlt hdir k
  · rwa [hself]
  · rwa [hself]

/-- `itrunc` of a file that is held. -/
theorem itrunc_held (h : Held s f l) (hr : (⟨ip, inum, true⟩ : Ref) ∈ l) :
    Spec I DoubleFree (itrunc ip) s fun _ s' u =>
      ∃ f', Held s' f' l ∧ Same s s' ∧ Update s.sb s.cache f inum s'.cache f' ∧
        f' inum = (f inum).truncated ∧
        ∀ e ∈ u, ∃ x, (s.sb.IsBitmap x ∨ x = s.sb.IBLOCK inum) ∧ e = .logWrite x := by
  have hlt : inum < s.sb.ninodes := h.inum_lt hr
  obtain ⟨hd, ht⟩ := h.cached hr rfl
  refine (itrunc_spec h.disk.accounts hlt ht hd (h.holds.inum _ hr)).mono ?_
  rintro _ s' u ⟨c', rfl, hu, hev⟩
  have hself : update f inum (f inum).truncated inum = (f inum).truncated :=
    update_self _ _ _
  have hheld := h.put hr hu (by rw [hself]; exact ht)
    (by rw [hself]; exact covered_of_size_zero rfl) (by
      intro _ k
      rw [hself, entryAt_of_addrs_zero fun _ => rfl]
      exact Nat.lt_trans (by decide) h.disk.accounts.wf.root)
  rw [hself] at hheld
  exact ⟨_, hheld, Same.put, hu, hself, hev⟩

/-- `readi` of a file that is held. -/
theorem readi_held {off : Nat} {dst : Nat → Bool} (h : Held s f l)
    (hr : (⟨ip, inum, true⟩ : Ref) ∈ l) :
    Spec I DoubleFree (readi ip dst off n) s fun res s' u => s' = s ∧ u = [] ∧
      ((∀ j, dst j = true) → res.1 = n → res.2 = fileBytes s.cache (f inum) off n ∧
        (n = 0 ∨ off + n ≤ (f inum).size.toNat)) := by
  obtain ⟨hd, ht⟩ := h.cached hr rfl
  exact readi_spec hd (h.disk.covered _ (h.inum_lt hr) ht)

/-- `writei` to a file that is held.  What is written to a directory has to
be entries. -/
theorem writei_held {off : Nat} {src : Nat → Option UInt8} (h : Held s f l)
    (hr : (⟨ip, inum, true⟩ : Ref) ∈ l)
    (hdir : (f inum).type = T_DIR → ∀ tot s' u c' f', Wrote s f ip inum src off n tot s' u c' f' →
      ∀ k, (entryAt c' (f' inum) k).inum < s.sb.ninodes) :
    Spec I DoubleFree (writei ip src off n) s fun res s' u => (res = -1 ∧ s' = s ∧ u = []) ∨
      ∃ (tot : Nat) (f' : Nat → Dinode), res = tot ∧ Held s' f' l ∧
        Wrote s f ip inum src off n tot s' u s'.cache f' := by
  have hlt : inum < s.sb.ninodes := h.inum_lt hr
  obtain ⟨hd, ht⟩ := h.cached hr rfl
  refine (writei_spec h.disk.accounts hlt ht hd (h.holds.inum _ hr)
    (h.disk.covered _ hlt ht)).mono ?_
  rintro res s' u (hfail | ⟨tot, c', f', hres, hw⟩)
  · exact .inl hfail
  refine .inr ⟨tot, f', hres, ?_, ?_⟩
  · rw [hw.state]
    have htype : (f' inum).type = (f inum).type := by rw [hw.info]
    refine h.put hr hw.update (by rw [htype]; exact ht) hw.covered ?_
    rw [htype]
    exact fun hd => hdir hd _ _ _ _ _ hw
  · have hcache : s'.cache = c' := by rw [hw.state]; rfl
    rwa [hcache]

end Fs

end Xv6
