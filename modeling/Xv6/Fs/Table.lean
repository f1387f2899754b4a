import Xv6.Fs.ReadWrite

/-!
# The inode table

An entry of the inode table stands for an inode as long as somebody holds a
reference to it.  `Good s f l` says that the disk is in order for the
inodes `f`, that the entries in use agree with `f`, and that the references
`l` are held; it is what the inode layer keeps from one operation to the
next.

`Costs` bounds the blocks that a program logs.  Bitmap blocks and the blocks
of the inodes that the program works on are counted apart, since the same
ones come again and again.
-/

namespace Xv6

open Function Lib List

namespace Fs

/-! ## The disk between two operations -/

/-- The accounts are in order, the blocks of each file cover its size,
directories name inodes that exist, and every inode is stored. -/
structure Disk (sb : Superblock) (c : Nat → Block) (f : Nat → Dinode) : Prop where
  accounts : Accounts sb c f
  covered : ∀ i, i < sb.ninodes → (f i).type ≠ 0 → Covered c (f i)
  dirs : ∀ i, i < sb.ninodes → (f i).type = T_DIR → ∀ k, (entryAt c (f i) k).inum < sb.ninodes
  synced : ∀ i, i < sb.ninodes → dinodeAt sb c i = f i

/-- One file has changed and is stored; if the file is in order, then the
disk is. -/
theorem Disk.update {sb : Superblock} {c c' : Nat → Block} {f f' : Nat → Dinode} {i : Nat}
    (h : Disk sb c f) (hu : Update sb c f i c' f')
    (hcov : (f' i).type ≠ 0 → Covered c' (f' i))
    (hdir : (f' i).type = T_DIR → ∀ k, (entryAt c' (f' i) k).inum < sb.ninodes) :
    Disk sb c' f' where
  accounts := hu.accounts
  covered j hj ht := by
    by_cases hji : j = i
    · subst hji
      exact hcov ht
    rw [hu.others j hji] at ht ⊢
    obtain ⟨hsize, hblocks⟩ := h.covered j hj ht
    refine ⟨hsize, fun bn hbn => ?_⟩
    obtain ⟨k, hk, _, heq⟩ := exists_slot_of_blockOf_ne (hblocks bn hbn)
    rw [blockOf_eq hk, hu.keeps j hj ht hji k, ← heq]
    exact hblocks bn hbn
  dirs j hj ht k := by
    by_cases hji : j = i
    · subst hji
      exact hdir ht k
    rw [hu.others j hji] at ht ⊢
    have htj : (f j).type ≠ 0 := by
      rw [ht]
      decide
    rw [entryAt_congr fun x _ _ => hu.bytes j hj htj hji x]
    exact h.dirs j hj ht k
  synced j hj := by
    rw [hu.disk j hj]
    by_cases hji : j = i
    · rw [if_pos hji, hji]
    rw [if_neg hji, hu.others j hji]
    exact h.synced j hj

/-! ## Entries and references -/

/-- Entries in use stand for different inodes, and an entry that has been
read agrees with its inode. -/
structure Table (n : Nat) (t : Nat → Inode) (f : Nat → Dinode) : Prop where
  bound : ∀ ip, 0 < (t ip).ref → ip < NINODE ∧ (t ip).inum < n
  unique : ∀ ip ip', 0 < (t ip).ref → 0 < (t ip').ref → (t ip).inum = (t ip').inum → ip = ip'
  cached : ∀ ip, 0 < (t ip).ref → (t ip).valid = true →
    (t ip).toDinode = f (t ip).inum ∧ (f (t ip).inum).type ≠ 0

/-- A reference to an inode; `valid` says that the inode has been read. -/
structure Ref where
  ip : Nat
  inum : Nat
  valid : Bool

/-- The references are held. -/
structure Holds (t : Nat → Inode) (l : List Ref) : Prop where
  count : ∀ r ∈ l, ((l.countP fun r' => r'.ip = r.ip : Nat) : Int) ≤ (t r.ip).ref
  inum : ∀ r ∈ l, (t r.ip).inum = r.inum
  valid : ∀ r ∈ l, r.valid = true → (t r.ip).valid = true

/-- What the inode layer keeps. -/
structure Good (s : Kernel) (f : Nat → Dinode) (l : List Ref) : Prop where
  disk : Disk s.sb s.cache f
  table : Table s.sb.ninodes s.itable f
  holds : Holds s.itable l

section Refs

variable {n : Nat} {t t' : Nat → Inode} {f : Nat → Dinode} {l : List Ref} {r : Ref} {ip : Nat}

theorem Holds.nil : Holds t [] :=
  ⟨fun _ h => by simp at h, fun _ h => by simp at h, fun _ h => by simp at h⟩

theorem Holds.tail (h : Holds t (r :: l)) : Holds t l where
  count r' hr' := by
    have hle := h.count r' (mem_cons_of_mem _ hr')
    rw [countP_cons] at hle
    push_cast at hle
    split at hle <;> omega
  inum r' hr' := h.inum r' (mem_cons_of_mem _ hr')
  valid r' hr' := h.valid r' (mem_cons_of_mem _ hr')

/-- A reference that is held keeps its entry in use. -/
theorem Holds.pos (h : Holds t l) (hr : r ∈ l) : 0 < (t r.ip).ref := by
  have hpos : 0 < l.countP fun r' => r'.ip = r.ip :=
    countP_pos_iff.2 ⟨r, hr, by simp⟩
  have hle := h.count r hr
  omega

/-- Entries that are in use keep what references know of them. -/
theorem Holds.mono (h : Holds t l) (hkeep : ∀ r ∈ l, (t r.ip).ref ≤ (t' r.ip).ref ∧
      (t' r.ip).inum = (t r.ip).inum ∧ ((t r.ip).valid = true → (t' r.ip).valid = true)) :
    Holds t' l where
  count r hr := le_trans (h.count r hr) (hkeep r hr).1
  inum r hr := by rw [(hkeep r hr).2.1, h.inum r hr]
  valid r hr hv := (hkeep r hr).2.2 (h.valid r hr hv)

/-- A new reference. -/
theorem Holds.cons (h : Holds t l) (hinum : (t r.ip).inum = r.inum)
    (hvalid : r.valid = true → (t r.ip).valid = true)
    (hcount : (l.countP (fun r' => r'.ip = r.ip) : Int) < (t r.ip).ref) : Holds t (r :: l) where
  count r' hr' := by
    rw [countP_cons]
    by_cases hip : r.ip = r'.ip
    · rw [← hip]
      simp only [decide_true, if_true]
      push_cast
      omega
    have hmem : r' ∈ l := by
      rcases mem_cons.1 hr' with rfl | hmem
      · exact absurd rfl hip
      · exact hmem
    have hle := h.count r' hmem
    simpa [hip] using hle
  inum r' hr' := by
    rcases mem_cons.1 hr' with rfl | hmem
    · exact hinum
    · exact h.inum r' hmem
  valid r' hr' := by
    rcases mem_cons.1 hr' with rfl | hmem
    · exact hvalid
    · exact h.valid r' hmem

/-- The entry of a reference that is held once more than in `l`. -/
theorem Holds.count_lt (h : Holds t (r :: l)) :
    (l.countP (fun r' => r'.ip = r.ip) : Int) < (t r.ip).ref := by
  have hle := h.count r mem_cons_self
  rw [countP_cons] at hle
  simp only [decide_true, if_true] at hle
  push_cast at hle
  omega

theorem Holds.countP_le (h : Holds t l) (hpos : 0 ≤ (t ip).ref) :
    (l.countP (fun r' => r'.ip = ip) : Int) ≤ (t ip).ref := by
  by_cases hmem : ∃ r ∈ l, r.ip = ip
  · obtain ⟨r, hr, rfl⟩ := hmem
    exact h.count r hr
  have hzero : l.countP (fun r' => r'.ip = ip) = 0 := by
    rw [countP_eq_zero]
    intro r hr
    simpa using fun heq => hmem ⟨r, hr, heq⟩
  rwa [hzero]

variable {e : Inode}

/-- Change an entry without dropping a reference. -/
theorem Holds.set (h : Holds t l) (href : (t ip).ref ≤ e.ref)
    (hinum : e.inum = (t ip).inum) (hvalid : (t ip).valid = true → e.valid = true) :
    Holds (update t ip e) l := by
  apply h.mono
  intro r _
  by_cases hip : r.ip = ip
  · rw [hip, update_self]
    exact ⟨href, hinum, hvalid⟩
  · rw [update_of_ne hip]
    exact ⟨le_refl _, rfl, id⟩

/-- Change an entry and drop a reference to it. -/
theorem Holds.drop (h : Holds t (r :: l)) (href : (t r.ip).ref - 1 ≤ e.ref)
    (hinum : e.inum = (t r.ip).inum)
    (hvalid : ∀ r' ∈ l, r'.ip = r.ip → (t r.ip).valid = true → e.valid = true) :
    Holds (update t r.ip e) l := by
  have htail := h.tail
  refine ⟨?_, ?_, ?_⟩
  · intro r' hr'
    by_cases hip : r'.ip = r.ip
    · have hlt := h.count_lt
      rw [hip, update_self]
      omega
    · rw [update_of_ne hip]
      exact htail.count r' hr'
  · intro r' hr'
    by_cases hip : r'.ip = r.ip
    · rw [hip, update_self, hinum, ← hip]
      exact htail.inum r' hr'
    · rw [update_of_ne hip]
      exact htail.inum r' hr'
  · intro r' hr' hv
    by_cases hip : r'.ip = r.ip
    · rw [hip, update_self]
      exact hvalid r' hr' hip (hip ▸ htail.valid r' hr' hv)
    · rw [update_of_ne hip]
      exact htail.valid r' hr' hv

/-- Change an entry that stays in use for the same inode, or goes out of
use. -/
theorem Table.set (h : Table n t f) (hpos : 0 < e.ref → 0 < (t ip).ref)
    (hinum : e.inum = (t ip).inum)
    (hvalid : 0 < e.ref → e.valid = true → e.toDinode = f e.inum ∧ (f e.inum).type ≠ 0) :
    Table n (update t ip e) f := by
  -- every entry in use was in use before, for the same inode
  have hold : ∀ x, 0 < (update t ip e x).ref →
      0 < (t x).ref ∧ (update t ip e x).inum = (t x).inum := by
    intro x hx
    by_cases hip : x = ip
    · rw [hip, update_self] at hx ⊢
      exact ⟨hpos hx, hinum⟩
    · rw [update_of_ne hip] at hx ⊢
      exact ⟨hx, rfl⟩
  refine ⟨?_, ?_, ?_⟩
  · intro x hx
    obtain ⟨hx', heq⟩ := hold x hx
    rw [heq]
    exact h.bound x hx'
  · intro x y hx hy hxy
    obtain ⟨hx', hxi⟩ := hold x hx
    obtain ⟨hy', hyi⟩ := hold y hy
    exact h.unique x y hx' hy' (by rw [← hxi, ← hyi, hxy])
  intro x hx hv
  by_cases hip : x = ip
  · rw [hip, update_self] at hx hv ⊢
    exact hvalid hx hv
  · rw [update_of_ne hip] at hx hv ⊢
    exact h.cached x hx hv

/-- Change the inode of an entry in use. -/
theorem Table.put (h : Table n t f) {f' : Nat → Dinode} {i : Nat} (hpos : 0 < (t ip).ref)
    (hinum : (t ip).inum = i) (hothers : ∀ j, j ≠ i → f' j = f j) (ht : (f' i).type ≠ 0) :
    Table n (update t ip { t ip with toDinode := f' i }) f' := by
  have hfields : ∀ x, (update t ip { t ip with toDinode := f' i } x).ref = (t x).ref ∧
      (update t ip { t ip with toDinode := f' i } x).inum = (t x).inum ∧
      (update t ip { t ip with toDinode := f' i } x).valid = (t x).valid := by
    intro x
    by_cases hip : x = ip
    · rw [hip, update_self]
      exact ⟨rfl, rfl, rfl⟩
    · rw [update_of_ne hip]
      exact ⟨rfl, rfl, rfl⟩
  refine ⟨?_, ?_, ?_⟩
  · intro x hx
    rw [(hfields x).1] at hx
    rw [(hfields x).2.1]
    exact h.bound x hx
  · intro x y hx hy hxy
    rw [(hfields x).1] at hx
    rw [(hfields y).1] at hy
    rw [(hfields x).2.1, (hfields y).2.1] at hxy
    exact h.unique x y hx hy hxy
  intro x hx hv
  rw [(hfields x).1] at hx
  rw [(hfields x).2.2] at hv
  rw [(hfields x).2.1]
  by_cases hip : x = ip
  · rw [hip, update_self, hinum]
    exact ⟨rfl, ht⟩
  have hne : (t x).inum ≠ i := fun heq => hip (h.unique x ip hx hpos (by rw [heq, hinum]))
  rw [update_of_ne hip, hothers _ hne]
  exact h.cached x hx hv

end Refs

section Good

variable {s : Kernel} {f : Nat → Dinode} {l : List Ref} {r : Ref}

theorem Good.pos (h : Good s f l) (hr : r ∈ l) : 0 < (s.itable r.ip).ref := h.holds.pos hr

theorem Good.inum_lt (h : Good s f l) (hr : r ∈ l) : r.inum < s.sb.ninodes := by
  rw [← h.holds.inum r hr]
  exact (h.table.bound _ (h.pos hr)).2

/-- An inode that has been read is the current one, and is allocated. -/
theorem Good.cached (h : Good s f l) (hr : r ∈ l) (hv : r.valid = true) :
    (s.itable r.ip).toDinode = f r.inum ∧ (f r.inum).type ≠ 0 := by
  have hcached := h.table.cached _ (h.pos hr) (h.holds.valid r hr hv)
  rwa [h.holds.inum r hr] at hcached

/-- An inode that is held has been changed and stored. -/
theorem Good.put (h : Good s f l) (hr : r ∈ l) {c' : Nat → Block} {f' : Nat → Dinode}
    (hu : Update s.sb s.cache f r.inum c' f') (ht : (f' r.inum).type ≠ 0)
    (hcov : Covered c' (f' r.inum))
    (hdir : (f' r.inum).type = T_DIR → ∀ k, (entryAt c' (f' r.inum) k).inum < s.sb.ninodes) :
    Good (s.put r.ip c' (f' r.inum)) f' l where
  disk := h.disk.update hu (fun _ => hcov) hdir
  table := h.table.put (h.pos hr) (h.holds.inum r hr) hu.others ht
  holds := h.holds.set (le_refl _) rfl id

end Good

/-! ## Events inside an operation -/

/-- Events that neither begin nor end an operation. -/
def Inner (u : List Event) : Prop := ∀ e ∈ u, e = .hole ∨ e = .iput ∨ ∃ x, e = .logWrite x

/-- A property that does not depend on what happens inside an operation. -/
def Calm (I : List Event → Prop) : Prop := ∀ u, Inner u → I u

/-- Apart from bitmap blocks and the blocks of the inodes `J`, at most `k`
blocks are logged. -/
def Costs (sb : Superblock) (J : List Nat) (k : Nat) (u : List Event) : Prop :=
  ∃ T : Finset Nat, T.card ≤ k ∧ ∀ e ∈ u, e = .hole ∨ e = .iput ∨
    ∃ x, e = .logWrite x ∧ (sb.IsBitmap x ∨ (∃ j ∈ J, x = sb.IBLOCK j) ∨ x ∈ T)

section Costs

variable {sb : Superblock} {J J' : List Nat} {k k' : Nat} {u v : List Event} {I : List Event → Prop}

theorem Inner.nil : Inner [] := fun e he => by simp at he

theorem Inner.append (hu : Inner u) (hv : Inner v) : Inner (u ++ v) := by
  intro e he
  rcases mem_append.1 he with he | he
  · exact hu e he
  · exact hv e he

theorem Calm.after (h : Calm I) (hu : Inner u) : Calm fun v => I (u ++ v) :=
  fun _ hv => h _ (hu.append hv)

theorem Calm.nil (h : Calm I) : I [] := h [] Inner.nil

theorem Costs.inner (h : Costs sb J k u) : Inner u := by
  obtain ⟨T, _, hT⟩ := h
  intro e he
  rcases hT e he with h | h | ⟨x, h, _⟩
  · exact .inl h
  · exact .inr (.inl h)
  · exact .inr (.inr ⟨x, h⟩)

theorem Costs.nil : Costs sb J k [] := ⟨∅, by simp, fun e he => by simp at he⟩

theorem Costs.mono (h : Costs sb J k u) (hJ : J ⊆ J') (hk : k ≤ k') : Costs sb J' k' u := by
  obtain ⟨T, hcard, hT⟩ := h
  refine ⟨T, le_trans hcard hk, fun e he => ?_⟩
  rcases hT e he with h | h | ⟨x, h, hx | ⟨j, hj, hx⟩ | hx⟩
  · exact .inl h
  · exact .inr (.inl h)
  · exact .inr (.inr ⟨x, h, .inl hx⟩)
  · exact .inr (.inr ⟨x, h, .inr (.inl ⟨j, hJ hj, hx⟩)⟩)
  · exact .inr (.inr ⟨x, h, .inr (.inr hx)⟩)

theorem Costs.append (hu : Costs sb J k u) (hv : Costs sb J k' v) :
    Costs sb J (k + k') (u ++ v) := by
  obtain ⟨T, hcard, hT⟩ := hu
  obtain ⟨T', hcard', hT'⟩ := hv
  refine ⟨T ∪ T', le_trans (Finset.card_union_le T T') (Nat.add_le_add hcard hcard'), ?_⟩
  intro e he
  rcases mem_append.1 he with he | he
  · rcases hT e he with h | h | ⟨x, h, hx | hx | hx⟩
    · exact .inl h
    · exact .inr (.inl h)
    · exact .inr (.inr ⟨x, h, .inl hx⟩)
    · exact .inr (.inr ⟨x, h, .inr (.inl hx)⟩)
    · exact .inr (.inr ⟨x, h, .inr (.inr (Finset.mem_union_left _ hx))⟩)
  rcases hT' e he with h | h | ⟨x, h, hx | hx | hx⟩
  · exact .inl h
  · exact .inr (.inl h)
  · exact .inr (.inr ⟨x, h, .inl hx⟩)
  · exact .inr (.inr ⟨x, h, .inr (.inl hx)⟩)
  · exact .inr (.inr ⟨x, h, .inr (.inr (Finset.mem_union_right _ hx))⟩)

end Costs

end Fs

end Xv6
