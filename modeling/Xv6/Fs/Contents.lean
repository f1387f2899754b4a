import Xv6.Fs.Blocks

/-!
# The contents of a file

Specifications of `iupdate`, `itrunc`, `readi` and `writei` for a program
that runs alone.
-/

namespace Xv6

open Function Lib List

namespace Fs

/-! ## Inodes on the disk -/

/-- Store inode `i` in its block. -/
def storeDinode (sb : Superblock) (c : Nat → Block) (i : Nat) (d : Dinode) : Nat → Block :=
  update c (sb.IBLOCK i) (putDinode (c (sb.IBLOCK i)) (i % IPB) d)

section Store

variable {sb : Superblock} {c : Nat → Block} {f : Nat → Dinode} {i : Nat} {d : Dinode}

theorem dinodeAt_storeDinode (j : Nat) :
    dinodeAt sb (storeDinode sb c i d) j = if j = i then d else dinodeAt sb c j := by
  have hpos : 0 < IPB := by decide
  unfold dinodeAt storeDinode
  by_cases hblock : sb.IBLOCK j = sb.IBLOCK i
  · rw [hblock, update_self]
    by_cases hij : j = i
    · rw [if_pos hij, hij]
      exact getDinode_putDinode_same _ _ (Nat.mod_lt _ hpos)
    rw [if_neg hij]
    apply getDinode_putDinode_of_ne
    intro hmod
    have hdiv : j / IPB = i / IPB := by
      unfold Superblock.IBLOCK at hblock
      omega
    exact hij (by rw [← Nat.div_add_mod j IPB, hdiv, hmod, Nat.div_add_mod])
  · have hij : j ≠ i := fun heq => hblock (by rw [heq])
    rw [if_neg hij, update_of_ne hblock]

theorem storeDinode_of_le (h : sb.WellFormed) (hi : i < sb.ninodes) {b : Nat}
    (hb : sb.bmapstart ≤ b) : storeDinode sb c i d b = c b := by
  have hlt := h.IBLOCK_lt hi
  rw [storeDinode, update_of_ne (by omega)]

theorem Accounts.storeDinode (h : Accounts sb c f) (hi : i < sb.ninodes) :
    Accounts sb (storeDinode sb c i d) f := by
  have hbits := sb.bmapstart_lt
  refine h.frame (fun x _ => ?_) (fun b hb _ => ?_)
  · exact used_congr (storeDinode_of_le h.wf hi (sb.le_BBLOCK x))
  · have hlo := hb.1
    exact storeDinode_of_le h.wf hi (by omega)

/-- Storing an inode changes no slot and no byte of a file. -/
theorem Accounts.storeDinode_view (h : Accounts sb c f) (hi : i < sb.ninodes) {j : Nat}
    (hj : j < sb.ninodes) (ht : (f j).type ≠ 0) {d' : Dinode} (hd' : d'.addrs = (f j).addrs) :
    (∀ k, slotAt (Fs.storeDinode sb c i d) d' k = slotAt c (f j) k) ∧
      ∀ x, byteAt (Fs.storeDinode sb c i d) d' x = byteAt c (f j) x := by
  have hkeep : ∀ k, slotAt c (f j) k ≠ 0 →
      Fs.storeDinode sb c i d (slotAt c (f j) k) = c (slotAt c (f j) k) := by
    intro k hk
    have hbits := sb.bmapstart_lt
    have hlo := (h.slot_sound hj ht hk).1.1
    exact storeDinode_of_le h.wf hi (by omega)
  have hslot := slotAt_congr hd' (hkeep .indirect)
  exact ⟨hslot, byteAt_congr fun k _ => .inl ⟨hslot k, hkeep k⟩⟩

/-- The accounts do not depend on the other fields of an inode. -/
theorem Accounts.setInfo (h : Accounts sb c f) (haddrs : d.addrs = (f i).addrs)
    (htype : d.type = 0 ↔ (f i).type = 0) : Accounts sb c (update f i d) where
  wf := h.wf
  reserved := h.reserved
  exact := by
    refine h.exact.congr (fun _ _ => Iff.rfl) ?_
    rintro ⟨j, k⟩
    by_cases hj : j = i
    · subst hj
      have hslot : slotAt c d k = slotAt c (f j) k := slotAt_congr haddrs (fun _ => rfl) k
      simp [owners, hslot, htype]
    · simp [owners, hj]

end Store

variable {I : List Event → Prop} {s : Kernel} {f : Nat → Dinode} {i ip : Nat}

theorem iupdate_spec {c : Nat → Block} {d : Dinode} (hinum : (s.itable ip).inum = i) :
    Spec I DoubleFree (iupdate ip) (s.put ip c d) fun _ s' u =>
      s' = s.put ip (storeDinode s.sb c i d) d ∧ u = [.logWrite (s.sb.IBLOCK i)] := by
  subst hinum
  apply Spec.act
  simp only [Kernel.put_itable_self, Kernel.put_sb, Kernel.put_cache]
  exact ⟨rfl, rfl⟩

theorem bfree_spec {b : Nat} (hb : used s.sb s.cache b = true) :
    Spec I DoubleFree (bfree b) s fun _ s' u =>
      s' = { s with cache := freeBlock s.sb s.cache b } ∧ u = [.logWrite (s.sb.BBLOCK b)] := by
  unfold used at hb
  apply Spec.act
  rw [if_pos hb]
  exact ⟨rfl, rfl⟩

/-! ## `itrunc` -/

/-- The block numbers in the addresses of `d` and in the entries `ent`. -/
def left (d : Dinode) (ent : Fin NINDIRECT → Nat) : Slot → Nat
  | .addr j => (d.addrs j).toNat
  | .entry e => ent e

/-- Events of the allocator only. -/
def BitmapOnly (sb : Superblock) (u : List Event) : Prop :=
  ∀ e ∈ u, ∃ x, sb.IsBitmap x ∧ e = .logWrite x

theorem BitmapOnly.append {sb : Superblock} {u v : List Event} (hu : BitmapOnly sb u)
    (hv : BitmapOnly sb v) : BitmapOnly sb (u ++ v) := by
  intro e he
  rcases mem_append.1 he with he | he
  · exact hu e he
  · exact hv e he

/-- Set some addresses to 0. -/
def Dinode.clearAddrs (d : Dinode) (js : List (Fin (NDIRECT + 1))) : Dinode :=
  { d with addrs := fun j => if j ∈ js then 0 else d.addrs j }

@[simp] theorem Dinode.clearAddrs_addrs (d : Dinode) (js : List (Fin (NDIRECT + 1)))
    (j : Fin (NDIRECT + 1)) : (d.clearAddrs js).addrs j = if j ∈ js then 0 else d.addrs j := rfl

theorem left_setAddr (d : Dinode) (ent : Fin NINDIRECT → Nat) (j : Fin (NDIRECT + 1)) :
    left (d.setAddr j 0) ent = update (left d ent) (.addr j) 0 := by
  funext k
  cases k with
  | addr j' =>
    by_cases hj : j' = j
    · subst hj
      simp [left, Dinode.setAddr]
    · simp [left, Dinode.setAddr, hj]
  | entry e => simp [left]

variable {ent : Fin NINDIRECT → Nat}

theorem itruncAddr_spec {c : Nat → Block} {d : Dinode}
    (h : Releases s.sb i s.cache f c (left d ent)) (j : Fin (NDIRECT + 1)) :
    Spec I DoubleFree (itruncAddr ip j) (s.put ip c d) fun _ s' u => ∃ c',
      s' = s.put ip c' (d.setAddr j 0) ∧
      Releases s.sb i s.cache f c' (left (d.setAddr j 0) ent) ∧ BitmapOnly s.sb u := by
  unfold itruncAddr
  refine .read_bind (a := d.addrs j) (by simp) ?_
  by_cases h0 : d.addrs j = 0
  · have hsame : d.setAddr j 0 = d := by simp [Dinode.setAddr, ← h0]
    rw [if_neg (by simpa using h0), hsame]
    exact .pure ⟨c, rfl, h, fun e he => by cases he⟩
  rw [if_pos h0]
  have hne : left d ent (.addr j) ≠ 0 := fun hn => h0 (UInt32.toNat_inj.1 hn)
  have hsound := h.slot_sound hne
  refine (bfree_spec (s := s.put ip c d) hsound.2).bind ?_
  rintro _ s' u ⟨rfl, rfl⟩
  refine .modify ⟨freeBlock s.sb c (d.addrs j).toNat, ?_, ?_, ?_⟩
  · simp [Kernel.put, Kernel.setInode, Dinode.setAddr, left]
  · rw [left_setAddr]
    exact h.free hne
  intro e he
  refine ⟨_, Superblock.isBitmap_BBLOCK hsound.1, ?_⟩
  simpa [left] using he

theorem itruncDirect_spec (ip : Nat) {d : Dinode}
    (js : List (Fin (NDIRECT + 1))) {c : Nat → Block} {I : List Event → Prop}
    (h : Releases s.sb i s.cache f c (left d ent)) :
    Spec I DoubleFree (itruncDirect ip js) (s.put ip c d) fun _ s' u => ∃ c',
      s' = s.put ip c' (d.clearAddrs js) ∧
      Releases s.sb i s.cache f c' (left (d.clearAddrs js) ent) ∧ BitmapOnly s.sb u := by
  induction js generalizing d c I with
  | nil =>
    have hsame : d.clearAddrs [] = d := by simp [Dinode.clearAddrs]
    rw [hsame]
    exact .pure ⟨c, rfl, h, fun e he => by cases he⟩
  | cons j js ih =>
    have hcons : d.clearAddrs (j :: js) = (d.setAddr j 0).clearAddrs js := by
      unfold Dinode.clearAddrs Dinode.setAddr
      congr 1
      funext j'
      by_cases hj : j' = j
      · subst hj
        simp
      · simp [hj]
    refine (itruncAddr_spec h j).bind ?_
    rintro _ s' u ⟨c1, rfl, h1, hu⟩
    refine (ih h1).mono ?_
    rintro _ s' v ⟨c2, rfl, h2, hv⟩
    rw [hcons]
    exact ⟨c2, rfl, h2, hu.append hv⟩

theorem itruncEntries_spec {d : Dinode} {bp : Block} {js : List Nat} (hnodup : js.Nodup)
    (hjs : ∀ j ∈ js, j < NINDIRECT) {c : Nat → Block}
    {I : List Event → Prop} (hent : ∀ e : Fin NINDIRECT, e.val ∈ js → ent e = (getEntry bp e).toNat)
    (h : Releases s.sb i s.cache f c (left d ent)) :
    Spec I DoubleFree (itruncEntries bp js) (s.put ip c d) fun _ s' u => ∃ c', s' = s.put ip c' d ∧
      Releases s.sb i s.cache f c' (left d fun e => if e.val ∈ js then 0 else ent e) ∧
      BitmapOnly s.sb u := by
  induction js generalizing c ent I with
  | nil =>
    refine .pure ⟨c, rfl, ?_, fun e he => by cases he⟩
    simpa using h
  | cons j js ih =>
    obtain ⟨hj, hnodup⟩ := nodup_cons.1 hnodup
    have hlt : j < NINDIRECT := hjs j mem_cons_self
    -- the entry is free now, whether or not there was a block in it
    refine .bind (P := fun _ s' u => ∃ c', s' = s.put ip c' d ∧
        Releases s.sb i s.cache f c' (left d (update ent ⟨j, hlt⟩ 0)) ∧
        BitmapOnly s.sb u) ?_ ?_
    · have hej : ent ⟨j, hlt⟩ = (getEntry bp j).toNat := hent ⟨j, hlt⟩ mem_cons_self
      by_cases h0 : getEntry bp j = 0
      · have hsame : update ent ⟨j, hlt⟩ 0 = ent := by
          rw [h0] at hej
          exact update_eq_self_iff.2 hej.symm
        rw [if_neg (by simpa using h0), hsame]
        exact .pure ⟨c, rfl, h, fun e he => by cases he⟩
      rw [if_pos h0]
      have hne : left d ent (.entry ⟨j, hlt⟩) ≠ 0 := by
        rw [left, hej]
        exact fun hn => h0 (UInt32.toNat_inj.1 hn)
      have hsound := h.slot_sound hne
      have hleft : left d (update ent ⟨j, hlt⟩ 0) = update (left d ent) (.entry ⟨j, hlt⟩) 0 := by
        funext k
        cases k with
        | addr j' => simp [left]
        | entry e =>
          by_cases he : e = ⟨j, hlt⟩
          · subst he
            simp [left]
          · simp [left, he]
      have hfree := h.free hne
      rw [left, hej] at hsound hfree
      refine (bfree_spec (s := s.put ip c d) hsound.2).mono ?_
      rintro _ s' u ⟨rfl, rfl⟩
      refine ⟨freeBlock s.sb c (getEntry bp j).toNat, rfl, ?_, ?_⟩
      · rwa [hleft]
      · intro e he
        exact ⟨_, Superblock.isBitmap_BBLOCK hsound.1, mem_singleton.1 he⟩
    · rintro _ s' u ⟨c1, rfl, h1, hu⟩
      refine (ih hnodup (fun j hj => hjs j (mem_cons_of_mem _ hj)) ?_ h1).mono ?_
      · intro e he
        have hne : e ≠ ⟨j, hlt⟩ := by
          rintro rfl
          exact hj he
        rw [update_of_ne hne]
        exact hent e (mem_cons_of_mem _ he)
      rintro _ s' v ⟨c2, rfl, h2, hv⟩
      refine ⟨c2, rfl, ?_, hu.append hv⟩
      have hent' : (fun e : Fin NINDIRECT => if e.val ∈ j :: js then 0 else ent e) =
          fun e => if e.val ∈ js then 0 else update ent ⟨j, hlt⟩ 0 e := by
        funext e
        by_cases he : e = ⟨j, hlt⟩
        · subst he
          simp
        · have hval : e.val ≠ j := fun heq => he (Fin.ext heq)
          simp [hval, he]
      rwa [hent']

theorem itruncIndirect_spec {c : Nat → Block} {d : Dinode} (hacc : Accounts s.sb s.cache f)
    (hi : i < s.sb.ninodes) (ht : (f i).type ≠ 0)
    (hd : d.addrs (Fin.last NDIRECT) = (f i).addrs (Fin.last NDIRECT))
    (h : Releases s.sb i s.cache f c (left d fun e => slotAt s.cache (f i) (.entry e))) :
    Spec I DoubleFree (itruncIndirect ip) (s.put ip c d) fun _ s' u => ∃ c',
      s' = s.put ip c' (d.setAddr (Fin.last NDIRECT) 0) ∧
      Releases s.sb i s.cache f c' (left (d.setAddr (Fin.last NDIRECT) 0) fun _ => 0) ∧
      BitmapOnly s.sb u := by
  unfold itruncIndirect
  refine .read_bind (a := d.addrs (Fin.last NDIRECT)) (by simp) ?_
  by_cases h0 : d.addrs (Fin.last NDIRECT) = 0
  · have hsame : d.setAddr (Fin.last NDIRECT) 0 = d := by simp [Dinode.setAddr, ← h0]
    have hent : (fun e => slotAt s.cache (f i) (.entry e)) = fun _ => 0 := by
      funext e
      exact slotAt_entry_of_indirect (by rw [Slot.indirect, slotAt, ← hd, h0]; rfl) e
    rw [if_neg (by simpa using h0), hsame]
    rw [hent] at h
    exact .pure ⟨c, rfl, h, fun e he => by cases he⟩
  rw [if_pos h0]
  have hptr : slotAt s.cache (f i) .indirect = (d.addrs (Fin.last NDIRECT)).toNat := by
    rw [Slot.indirect, slotAt, hd]
  have hne : (d.addrs (Fin.last NDIRECT)).toNat ≠ 0 := fun hn => h0 (UInt32.toNat_inj.1 hn)
  have hlo := (hacc.slot_sound hi ht (k := .indirect) (by rw [hptr]; exact hne)).1.1
  rw [hptr] at hlo
  -- the entries that are freed are those that the accounts know of
  have hbp : c (d.addrs (Fin.last NDIRECT)).toNat =
      s.cache (d.addrs (Fin.last NDIRECT)).toNat := h.keep _ (.inr hlo)
  refine .read_bind (a := s.cache (d.addrs (Fin.last NDIRECT)).toNat) (hbp) ?_
  refine (itruncEntries_spec nodup_range (fun j hj => mem_range.1 hj)
    (fun e _ => ?_) h).bind ?_
  · rw [slotAt, if_neg (by rw [← hd]; exact h0), hd]
  rintro _ s' u ⟨c1, rfl, h1, hu⟩
  have hent : (fun e : Fin NINDIRECT => if e.val ∈ range NINDIRECT then 0 else
      slotAt s.cache (f i) (.entry e)) = fun _ => 0 := by
    funext e
    exact if_pos (mem_range.2 e.isLt)
  rw [hent] at h1
  have hne1 : left d (fun _ => 0) .indirect ≠ 0 := hne
  have hsound := h1.slot_sound hne1
  refine (bfree_spec (s := s.put ip c1 d) hsound.2).bind ?_
  rintro _ s' v ⟨rfl, rfl⟩
  refine .modify ⟨freeBlock s.sb c1 (d.addrs (Fin.last NDIRECT)).toNat, ?_, ?_, ?_⟩
  · simp [Kernel.put, Kernel.setInode, Dinode.setAddr, left, Slot.indirect]
  · rw [left_setAddr]
    exact h1.free hne1
  refine hu.append fun e he => ?_
  simp only [append_nil, mem_singleton] at he
  exact ⟨_, Superblock.isBitmap_BBLOCK hsound.1, he⟩

/-- Inode `i` and its blocks have changed, and the inode has been stored on
the disk; nothing else has changed. -/
structure Update (sb : Superblock) (c : Nat → Block) (f : Nat → Dinode) (i : Nat)
    (c' : Nat → Block) (f' : Nat → Dinode) : Prop where
  accounts : Accounts sb c' f'
  others : ∀ j, j ≠ i → f' j = f j
  keeps : ∀ j, j < sb.ninodes → (f j).type ≠ 0 → j ≠ i → ∀ k, slotAt c' (f j) k = slotAt c (f j) k
  bytes : ∀ j, j < sb.ninodes → (f j).type ≠ 0 → j ≠ i → ∀ x, byteAt c' (f j) x = byteAt c (f j) x
  disk : ∀ j, j < sb.ninodes → dinodeAt sb c' j = if j = i then f' i else dinodeAt sb c j

/-- The inode is stored when the others are in order. -/
theorem Update.of_store {sb : Superblock} {c c' : Nat → Block} {f' : Nat → Dinode} {d : Dinode}
    (h : Accounts sb c' f') (hi : i < sb.ninodes) (hacc : Accounts sb c' (update f' i d))
    (hothers : ∀ j, j ≠ i → f' j = f j) (hkeeps : ∀ j, j < sb.ninodes → (f j).type ≠ 0 → j ≠ i →
      ∀ k, slotAt c' (f j) k = slotAt c (f j) k)
    (hbytes : ∀ j, j < sb.ninodes → (f j).type ≠ 0 → j ≠ i →
      ∀ x, byteAt c' (f j) x = byteAt c (f j) x)
    (hdisk : ∀ j, j < sb.ninodes → j ≠ i → dinodeAt sb c' j = dinodeAt sb c j) :
    Update sb c f i (storeDinode sb c' i d) (update f' i d) := by
  have hview (j) (hj : j < sb.ninodes) (ht : (f j).type ≠ 0) (hne : j ≠ i) :=
    h.storeDinode_view (d := d) hi hj (by rwa [hothers j hne])
      (congrArg Dinode.addrs (hothers j hne).symm)
  refine ⟨hacc.storeDinode hi, ?_, ?_, ?_, ?_⟩
  · intro j hne
    rw [update_of_ne hne, hothers j hne]
  · intro j hj ht hne k
    rw [(hview j hj ht hne).1 k, hothers j hne, hkeeps j hj ht hne k]
  · intro j hj ht hne x
    rw [(hview j hj ht hne).2 x, hothers j hne, hbytes j hj ht hne x]
  intro j hj
  rw [dinodeAt_storeDinode, update_self]
  split
  · rfl
  rename_i hne
  exact hdisk j hj hne

/-- An inode without blocks. -/
def Dinode.truncated (d : Dinode) : Dinode := { d with size := 0, addrs := fun _ => 0 }

/-- The direct addresses. -/
theorem mem_direct_iff (j : Fin (NDIRECT + 1)) :
    j ∈ (List.finRange NDIRECT).map Fin.castSucc ↔ j ≠ Fin.last NDIRECT := by
  rw [List.mem_map]
  constructor
  · rintro ⟨j, _, rfl⟩
    exact Fin.castSucc_ne_last j
  · intro hne
    exact ⟨j.castPred hne, mem_finRange _, Fin.castSucc_castPred j hne⟩

/-- The two loops of `itrunc` clear all addresses. -/
theorem Dinode.clearAddrs_all (d : Dinode) :
    ((d.clearAddrs ((List.finRange NDIRECT).map Fin.castSucc)).setAddr
      (Fin.last NDIRECT) 0).addrs = fun _ => 0 := by
  funext j
  rw [setAddr_addrs]
  by_cases hj : j = Fin.last NDIRECT
  · rw [hj, update_self]
  · rw [update_of_ne hj, clearAddrs_addrs, if_pos ((mem_direct_iff j).2 hj)]

/-- An inode that has given its blocks back is stored. -/
theorem Releases.stored {sb : Superblock} {c c' : Nat → Block} {g : Slot → Nat} {d : Dinode}
    (h : Releases sb i c f c' g) (hacc : Accounts sb c f) (hi : i < sb.ninodes)
    (hg : ∀ k, g k = 0) (hd : ∀ j, d.addrs j = 0) :
    Update sb c f i (storeDinode sb c' i d) (update f i d) := by
  have hacc' : Accounts sb c' (update f i d) := h.done hacc hg hd rfl
  have hkeep : ∀ j, j < sb.ninodes → (f j).type ≠ 0 → ∀ k, slotAt c (f j) k ≠ 0 →
      storeDinode sb c' i d (slotAt c (f j) k) = c (slotAt c (f j) k) := by
    intro j hj htj k hk
    have hlo := (hacc.slot_sound hj htj hk).1.1
    have hbits := sb.bmapstart_lt
    rw [storeDinode_of_le hacc.wf hi (by omega), h.keep _ (.inr hlo)]
  refine ⟨hacc'.storeDinode hi, fun j hj => update_of_ne hj _ _, ?_, ?_, ?_⟩
  · intro j hj htj _
    exact slotAt_congr rfl (hkeep j hj htj .indirect)
  · intro j hj htj _
    exact Accounts.byteAt_frame (hkeep j hj htj)
  intro j hj
  have hsame : dinodeAt sb c' j = dinodeAt sb c j := by
    rw [dinodeAt, dinodeAt, h.keep _ (.inl (hacc.wf.IBLOCK_lt hj))]
  rw [dinodeAt_storeDinode, update_self, hsame]

theorem itrunc_spec (h : Accounts s.sb s.cache f) (hi : i < s.sb.ninodes)
    (ht : (f i).type ≠ 0) (hip : (s.itable ip).toDinode = f i) (hinum : (s.itable ip).inum = i) :
    Spec I DoubleFree (itrunc ip) s fun _ s' u => ∃ c', s' = s.put ip c' (f i).truncated ∧
      Update s.sb s.cache f i c' (update f i (f i).truncated) ∧
      ∀ e ∈ u, ∃ x, (s.sb.IsBitmap x ∨ x = s.sb.IBLOCK i) ∧ e = .logWrite x := by
  have hstart : Releases s.sb i s.cache f s.cache
      (left (f i) fun e => slotAt s.cache (f i) (.entry e)) := by
    have hleft : left (f i) (fun e => slotAt s.cache (f i) (.entry e)) = slotAt s.cache (f i) := by
      funext k
      cases k <;> rfl
    rw [hleft]
    exact Releases.refl h hi ht
  have hlast : ((f i).clearAddrs ((finRange NDIRECT).map Fin.castSucc)).addrs
      (Fin.last NDIRECT) = (f i).addrs (Fin.last NDIRECT) := by
    rw [Dinode.clearAddrs_addrs, if_neg fun hmem => (mem_direct_iff _).1 hmem rfl]
  have hdirect := itruncDirect_spec (I := I) ip ((finRange NDIRECT).map Fin.castSucc) hstart
  rw [s.put_self ip _ hip] at hdirect
  refine hdirect.bind ?_
  rintro _ s1 u1 ⟨c1, rfl, h1, hu1⟩
  refine (itruncIndirect_spec h hi ht hlast h1).bind ?_
  rintro _ s2 u2 ⟨c2, rfl, h2, hu2⟩
  refine .modify_bind (t := s.put ip c2 (f i).truncated) ?_ ?_
  · have haddrs := (f i).clearAddrs_all
    simp only [Kernel.put, Kernel.setInode, update_self, update_idem, haddrs]
    rfl
  refine (iupdate_spec hinum).mono ?_
  rintro _ s4 u4 ⟨rfl, rfl⟩
  refine ⟨storeDinode s.sb c2 i (f i).truncated, rfl, ?_, ?_⟩
  · refine h2.stored h hi ?_ (fun _ => rfl)
    intro k
    cases k with
    | entry e => rfl
    | addr j =>
      rw [left, (f i).clearAddrs_all]
      rfl
  intro e he
  simp only [mem_append, mem_singleton] at he
  rcases he with he | he | he
  · obtain ⟨x, hx, hxe⟩ := hu1 e he
    exact ⟨x, .inl hx, hxe⟩
  · obtain ⟨x, hx, hxe⟩ := hu2 e he
    exact ⟨x, .inl hx, hxe⟩
  · exact ⟨s.sb.IBLOCK i, .inr rfl, he⟩

end Fs

end Xv6
