import Xv6.Mkfs.Append

/-!
# The image that `mkfs` writes

What `main` has stored after each of its steps, as long as the inodes stay
in the inode blocks.  `contents files` are the bytes of every inode: the
root directory is the list of the entries, and the inodes from 2 on are the
files, in their order.  The blocks that have been handed out are those that
these bytes need (`demand`), so it is known in advance whether the files fit
(`mkfs_ends`).
-/

namespace Xv6

open Fs Function Lib List UInt32

namespace Mkfs

/-! ## Changing an inode -/

section Inodes

variable {m : Image} {f f' : Nat → Dinode} {g : Nat → List UInt8} {i : Nat} {d : Dinode}

theorem winode_eq (hi : i < inodeSlots) :
    m.winode i d = .ok { m with sectors := storeDinode sb m.sectors i d } := by
  have hlt : sb.IBLOCK i < FSSIZE := lt_trans (IBLOCK_lt hi) (by decide)
  rw [Image.winode, Image.rsect_of_lt hlt]
  show Except.ok _ = _
  rw [Image.wsect_of_lt hlt]
  rfl

theorem rinode_eq (hi : i < inodeSlots) : m.rinode i = .ok (dinodeAt sb m.sectors i) := by
  have hlt : sb.IBLOCK i < FSSIZE := lt_trans (IBLOCK_lt hi) (by decide)
  rw [Image.rinode, Image.rsect_of_lt hlt]
  rfl

theorem ne_IBLOCK {b : Nat} (hb : b < sb.inodestart) : b ≠ sb.IBLOCK i :=
  ne_of_lt (lt_of_lt_of_le hb (Nat.le_add_left _ _))

/-- Only the inodes that have room count. -/
theorem Built.congr (h : Built m f g) (hf : ∀ j, j < inodeSlots → f' j = f j) : Built m f' g where
  accounts := by
    refine ⟨h.accounts.wf, h.accounts.reserved, h.accounts.exact.congr (fun _ _ => Iff.rfl) ?_⟩
    rintro ⟨j, k⟩
    unfold owners
    by_cases hj : j < inodeSlots
    · simp only [hf j hj]
    have hno : ∀ d : Dinode, ¬ (j < areas.ninodes ∧ d.type ≠ 0) := fun _ hand => hj hand.1
    rw [if_neg (hno _), if_neg (hno _)]
  room := h.room
  fresh := h.fresh
  holds j hj := by
    rw [hf j hj]
    exact h.holds j hj
  free j hj := by
    rw [hf j hj]
    exact h.free j hj

/-- What lies before the bitmap does not count, and neither does how many
inodes there are. -/
theorem Built.front {m' : Image} (h : Built m f g)
    (hsectors : ∀ b, sb.bmapstart ≤ b → m'.sectors b = m.sectors b)
    (hfree : m'.freeblock = m.freeblock) : Built m' f g := by
  have hdisk : ∀ b, sb.bmapstart ≤ b → m'.disk b = m.disk b := by
    intro b hb
    unfold Image.disk
    rw [hfree]
    by_cases hmap : b = sb.bmapstart
    · rw [hmap, update_self, update_self]
    · rw [update_of_ne hmap, update_of_ne hmap, hsectors b hb]
  have hdata : ∀ b, nmeta ≤ b → m'.disk b = m.disk b :=
    fun b hb => hdisk b (le_trans (by decide) hb)
  refine ⟨⟨h.accounts.frame (fun x _ => ?_) fun b hb _ => hdata b hb.1, ?_, fun b hb hbs => ?_⟩,
    fun j hj ht => ?_, h.free⟩
  · exact used_congr (hdisk _ (areas.le_BBLOCK x))
  · rw [hfree]
    exact h.room
  · rw [hfree] at hb
    have hlo : sb.bmapstart ≤ b := le_trans (by decide) (le_trans h.nmeta_le hb)
    rw [hsectors b hlo]
    exact h.fresh b hb hbs
  · have hkeep : ∀ k, slotAt m.disk (f j) k ≠ 0 →
        m'.disk (slotAt m.disk (f j) k) = m.disk (slotAt m.disk (f j) k) :=
      fun k hk => hdata _ (h.slot_bound hj ht hk).1
    exact (h.holds j hj ht).congr (slotAt_congr rfl (hkeep .indirect)) (Accounts.byteAt_frame hkeep)

/-- The other fields of an inode change. -/
theorem Built.setInfo (h : Built m f g) (hi : i < inodeSlots) (ht : (f i).type ≠ 0)
    (haddrs : d.addrs = (f i).addrs) (hd : d.type ≠ 0) : Built m (update f i d) g where
  accounts := h.accounts.setInfo haddrs (iff_of_false hd ht)
  room := h.room
  fresh := h.fresh
  holds j hj htj := by
    by_cases hji : j = i
    · subst hji
      rw [update_self]
      have hslot := slotAt_congr haddrs fun _ => (rfl : m.disk _ = _)
      exact (h.holds j hi ht).congr hslot (byteAt_congr fun k _ => .inl ⟨hslot k, fun _ => rfl⟩)
    · rw [update_of_ne hji] at htj ⊢
      exact h.holds j hj htj
  free j hj htj := by
    have hji : j ≠ i := by
      rintro rfl
      rw [update_self] at htj
      exact hd htj
    rw [update_of_ne hji] at htj ⊢
    exact h.free j hj htj

/-- An inode without blocks is allocated. -/
theorem Built.setEmpty (h : Built m f g) (hi : i < inodeSlots) (ht : (f i).type = 0)
    (haddrs : ∀ j, d.addrs j = 0) (hd : d.type ≠ 0) : Built m (update f i d) g where
  accounts := by
    refine h.accounts.setEmpty (fun k => ?_) haddrs
    exact if_neg fun hand => hand.2 ht
  room := h.room
  fresh := h.fresh
  holds j hj htj := by
    by_cases hji : j = i
    · subst hji
      rw [update_self, (h.free j hi ht).2]
      exact Holds.nil haddrs
    · rw [update_of_ne hji] at htj ⊢
      exact h.holds j hj htj
  free j hj htj := by
    have hji : j ≠ i := by
      rintro rfl
      rw [update_self] at htj
      exact hd htj
    rw [update_of_ne hji] at htj ⊢
    exact h.free j hj htj

/-- An inode is stored in its block. -/
theorem Built.store (h : Built m (update f i d) g) (hi : i < inodeSlots)
    (hf : ∀ j, j < inodeSlots → j ≠ i → dinodeAt sb m.sectors j = f j) (n : Nat) :
    Built ⟨storeDinode sb m.sectors i d, n, m.freeblock⟩
      (dinodeAt sb (storeDinode sb m.sectors i d)) g := by
  have hfront : Built ⟨storeDinode sb m.sectors i d, n, m.freeblock⟩ (update f i d) g := by
    refine h.front (fun b hb => ?_) rfl
    have hlt := IBLOCK_lt hi
    exact update_of_ne (by omega) _ _
  refine hfront.congr fun j hj => ?_
  rw [dinodeAt_storeDinode]
  by_cases hji : j = i
  · rw [if_pos hji, hji, update_self]
  · rw [if_neg hji, update_of_ne hji, hf j hj hji]

end Inodes

/-! ## What has been stored -/

/-- The type of an inode that `mkfs` makes. -/
def kind (i : Nat) : Int16 := if i = ROOTINO then T_DIR else T_FILE

theorem kind_ne_zero (i : Nat) : kind i ≠ 0 := by
  unfold kind
  split <;> decide

/-- All inodes are stored, and hold the bytes `g`. -/
structure Stored (m : Image) (g : Nat → List UInt8) : Prop where
  built : Built m (dinodeAt sb m.sectors) g
  inodes : m.freeinode ≤ inodeSlots
  size : ∀ i, i < inodeSlots → (dinodeAt sb m.sectors i).size.toNat = (g i).length
  type : ∀ i, i < inodeSlots →
    (dinodeAt sb m.sectors i).type = if 0 < i ∧ i < m.freeinode then kind i else 0
  front : ∀ b, b < sb.inodestart → m.sectors b = blank.sectors b

namespace Stored

variable {m : Image} {g : Nat → List UInt8} {i : Nat}

theorem type_ne_zero (h : Stored m g) (hi : 0 < i) (hlt : i < m.freeinode) :
    (dinodeAt sb m.sectors i).type ≠ 0 := by
  rw [h.type i (lt_of_lt_of_le hlt h.inodes), if_pos ⟨hi, hlt⟩]
  exact kind_ne_zero i

theorem front_store (h : Stored m g) {d : Dinode} {b : Nat} (hb : b < sb.inodestart) :
    storeDinode sb m.sectors i d b = blank.sectors b := by
  rw [storeDinode, update_of_ne (ne_IBLOCK hb), h.front b hb]

/-- `ialloc` stores an empty inode. -/
theorem ialloc_ok (h : Stored m g) (hpos : 0 < m.freeinode) (hlt : m.freeinode < inodeSlots) :
    ∃ m', m.ialloc (kind m.freeinode) = .ok (m.freeinode, m') ∧ Stored m' g ∧
      m'.freeinode = m.freeinode + 1 ∧ m'.freeblock = m.freeblock := by
  have hfree : (dinodeAt sb m.sectors m.freeinode).type = 0 := by
    rw [h.type _ hlt, if_neg (by omega)]
  refine ⟨⟨storeDinode sb m.sectors m.freeinode
    { Dinode.zero with type := kind m.freeinode, nlink := 1 }, m.freeinode + 1, m.freeblock⟩,
    ?_, ⟨?_, ?_, ?_, ?_, fun b hb => ?_⟩, rfl, rfl⟩
  · unfold Image.ialloc
    dsimp only
    rw [winode_eq hlt]
    rfl
  · exact (h.built.setEmpty hlt hfree (fun _ => rfl) (kind_ne_zero _)).store hlt
      (fun _ _ _ => rfl) _
  · exact hlt
  · intro j hj
    rw [dinodeAt_storeDinode]
    by_cases hji : j = m.freeinode
    · rw [if_pos hji, hji, (h.built.free _ hlt hfree).2]
      rfl
    · rw [if_neg hji, h.size j hj]
  · intro j hj
    rw [dinodeAt_storeDinode]
    by_cases hji : j = m.freeinode
    · rw [if_pos hji, hji, if_pos ⟨hpos, Nat.lt_succ_self _⟩]
    rw [if_neg hji, h.type j hj]
    have hiff : (0 < j ∧ j < m.freeinode) ↔ (0 < j ∧ j < m.freeinode + 1) := by omega
    simp only [hiff]
  · exact h.front_store hb

/-- `iappend` adds the bytes to the inode. -/
theorem iappend_ends (h : Stored m g) (hi : 0 < i) (hlt : i < m.freeinode) (p : List UInt8) :
    Ends (TooBig m (g i).length ((g i).length + p.length)) (m.iappend i p) fun m' =>
      Stored m' (update g i (g i ++ p)) ∧ m'.freeinode = m.freeinode ∧
        m'.freeblock + need (g i).length = m.freeblock + need ((g i).length + p.length) := by
  have hslot : i < inodeSlots := lt_of_lt_of_le hlt h.inodes
  have ht := h.type_ne_zero hi hlt
  unfold Image.iappend
  rw [rinode_eq hslot]
  show Ends _ (m.iappendFrom _ (dinodeAt sb m.sectors i).size.toNat p p.length >>= _) _
  rw [h.size i hslot]
  refine (h.built.iappendFrom_ends hslot ht le_rfl).bind ?_
  rintro ⟨off, d, m1⟩ ⟨rfl, hadd⟩
  have hinfo := hadd.info
  dsimp only at hadd hinfo ⊢
  rw [update_self] at hinfo
  have hti : d.type ≠ 0 := by rwa [hinfo]
  have hfits := (hadd.built.holds i hslot (by rw [update_self]; exact hti)).fits
  rw [update_self, length_append] at hfits
  have hsize : (ofNat ((g i).length + p.length)).toNat = (g i).length + p.length := by
    rw [toNat_ofNat', Nat.mod_eq_of_lt (lt_of_le_of_lt hfits (by decide))]
  -- the other inodes are still as they were stored
  have hsame : ∀ j, j < inodeSlots → dinodeAt sb m1.sectors j = dinodeAt sb m.sectors j := by
    intro j hj
    rw [dinodeAt, dinodeAt, hadd.below _ (IBLOCK_lt hj)]
  have hbuilt : Built m1 (update (dinodeAt sb m.sectors) i
      { d with size := ofNat ((g i).length + p.length) })
      (update g i (g i ++ p)) := by
    have hset := hadd.built.setInfo (i := i)
      (d := { d with size := ofNat ((g i).length + p.length) }) hslot
      (by rw [update_self]; exact hti) (by rw [update_self]) hti
    rwa [update_idem] at hset
  refine .ok (winode_eq hslot) ⟨⟨hbuilt.store hslot (fun j hj _ => hsame j hj) _, ?_, ?_, ?_, ?_⟩,
    hadd.freeinode, hadd.freeblock⟩
  · rw [hadd.freeinode]
    exact h.inodes
  · intro j hj
    rw [dinodeAt_storeDinode]
    by_cases hji : j = i
    · rwa [if_pos hji, hji, update_self, length_append]
    · rw [if_neg hji, update_of_ne hji, hsame j hj, h.size j hj]
  · intro j hj
    rw [dinodeAt_storeDinode, hadd.freeinode, ← h.type j hj]
    by_cases hji : j = i
    · rw [if_pos hji, hji, hinfo]
    · rw [if_neg hji, hsame j hj]
  · intro b hb
    have hlo : b < sb.bmapstart := lt_trans hb (by decide)
    show storeDinode sb m1.sectors i _ b = _
    rw [storeDinode, update_of_ne (ne_IBLOCK hb), hadd.below b hlo, h.front b hb]

/-- The loop that copies a file. -/
theorem appendReads_ends (h : Stored m g) (hi : 0 < i) (hlt : i < m.freeinode)
    (bufs : List (List UInt8)) :
    Ends (TooBig m (g i).length ((g i).length + bufs.flatten.length)) (m.appendReads i bufs)
      fun m' => Stored m' (update g i (g i ++ bufs.flatten)) ∧ m'.freeinode = m.freeinode ∧
        m'.freeblock + need (g i).length =
          m.freeblock + need ((g i).length + bufs.flatten.length) := by
  induction bufs generalizing m g with
  | nil =>
    refine .ok rfl ⟨?_, rfl, rfl⟩
    rwa [flatten_nil, append_nil, update_eq_self]
  | cons buf bufs ih =>
    rw [flatten_cons, length_append]
    refine ((h.iappend_ends hi hlt buf).mono (fun hbig => hbig.mono (by omega))
      fun _ hm => hm).bind ?_
    rintro m1 ⟨h1, hinode, hblock⟩
    have hnext := ih h1 (by rw [hinode]; exact hlt)
    rw [update_self, update_idem, append_assoc, length_append, Nat.add_assoc] at hnext
    refine hnext.mono (fun hbig => ?_) ?_
    · unfold TooBig at hbig ⊢
      omega
    · rintro m2 ⟨h2, hinode2, hblock2⟩
      exact ⟨h2, hinode2.trans hinode, by omega⟩

end Stored

theorem blank_of_ne {b : Nat} (hb : b ≠ 1) : blank.sectors b = fun _ => 0 := by
  rw [blank, Image.wsect_of_lt (by decide)]
  exact update_of_ne hb _ _

theorem dinodeAt_blank (i : Nat) : dinodeAt sb blank.sectors i = Dinode.zero := by
  have hne : sb.IBLOCK i ≠ 1 := by
    show i / 16 + 32 ≠ 1
    omega
  rw [dinodeAt, blank_of_ne hne, getDinode_zero]

/-- The empty image. -/
theorem blank_stored : Stored blank fun _ => [] where
  built := by
    have hzero : ∀ o, owners areas blank.disk (dinodeAt sb blank.sectors) o = 0 := by
      intro o
      rw [owners, dinodeAt_blank, if_neg fun hand => hand.2 rfl]
    refine ⟨⟨⟨areas_wellFormed, fun b hb => ?_, ⟨by decide, fun o ho => absurd (hzero o) ho,
      fun o _ ho => absurd (hzero o) ho, fun b hb hu => ?_⟩⟩, by decide, fun b hb _ => ?_⟩,
      fun i _ ht => ?_, fun i _ _ => ⟨dinodeAt_blank i, rfl⟩⟩
    · have hb : b < nmeta := hb
      rw [Image.used_disk (lt_trans hb (by decide))]
      exact decide_eq_true hb
    · have hlo : nmeta ≤ b := hb.1
      rw [Image.used_disk hb.2] at hu
      exact absurd (of_decide_eq_true hu) (Nat.not_lt.2 hlo)
    · have hb : 46 ≤ b := hb
      exact blank_of_ne (by omega)
    · rw [dinodeAt_blank] at ht
      exact absurd rfl ht
  inodes := by decide
  size i _ := by
    rw [dinodeAt_blank]
    rfl
  type i _ := by
    have hno : ¬ (0 < i ∧ i < blank.freeinode) := by
      show ¬ (0 < i ∧ i < 1)
      omega
    rw [dinodeAt_blank, if_neg hno]
    rfl
  front _ _ := rfl

/-! ## The files -/

/-- The bytes that are copied of a file. -/
def InFile.copied (file : InFile) : List UInt8 := file.reads.flatten

/-- The entries of the root directory. -/
def dirents (files : List InFile) : List Dirent :=
  ⟨ROOTINO, [46]⟩ :: ⟨ROOTINO, [46, 46]⟩ :: files.mapIdx fun k file => ⟨k + 2, file.name⟩

/-- The bytes of the entries of the root directory. -/
def direntBytes (files : List InFile) : List UInt8 := (dirents files).flatMap Dirent.encode

/-- The bytes of each inode. -/
def contents (files : List InFile) : Nat → List UInt8
  | 0 => []
  | 1 => direntBytes files
  | i + 2 => (files[i]?.map InFile.copied).getD []

/-- The first block that is free when the files have been stored. -/
def demand (files : List InFile) : Nat :=
  nmeta + need (16 * (files.length + 2)) + (files.map fun file => need file.copied.length).sum

/-- A file that `mkfs` does not take. -/
def InFile.Bad (file : InFile) : Prop :=
  47 ∈ shortname file.path ∨ file.opens = false ∨ DIRSIZ < file.name.length ∨
    MAXFILE * BSIZE < file.copied.length

instance (file : InFile) : Decidable file.Bad := inferInstanceAs (Decidable (_ ∨ _ ∨ _ ∨ _))

/-- Why `mkfs` does not finish. -/
def Refused (files : List InFile) : Prop := (∃ file ∈ files, file.Bad) ∨ FSSIZE < demand files

instance (files : List InFile) : Decidable (Refused files) := inferInstanceAs (Decidable (_ ∨ _))

/-- The image with some of the files. -/
structure Filled (m : Image) (files : List InFile) : Prop where
  stored : Stored m (contents files)
  freeinode : m.freeinode = files.length + 2
  freeblock : m.freeblock = demand files
  names : ∀ file ∈ files, file.name.length ≤ DIRSIZ

section Files

variable {m : Image} {files rest : List InFile} {file : InFile}

theorem direntBytes_append (files : List InFile) (file : InFile) : direntBytes (files ++ [file]) =
      direntBytes files ++ ({ inum := files.length + 2, name := file.name } : Dirent).encode := by
  simp [direntBytes, dirents, mapIdx_append]

theorem flatMap_encode_length (des : List Dirent) :
    (des.flatMap Dirent.encode).length = 16 * des.length := by
  induction des with
  | nil => rfl
  | cons de des ih =>
    rw [flatMap_cons, length_append, Dirent.encode_length, ih, length_cons]
    omega

theorem direntBytes_length (files : List InFile) :
    (direntBytes files).length = 16 * (files.length + 2) := by
  rw [direntBytes, flatMap_encode_length]
  simp [dirents]

/-- One more entry and one more file. -/
theorem contents_append (files : List InFile) (file : InFile) : contents (files ++ [file]) = update
        (update (contents files) ROOTINO (direntBytes (files ++ [file])))
        (files.length + 2) file.copied := by
  funext i
  match i with
  | 0 =>
    rw [update_of_ne (by omega), update_of_ne (by decide)]
    rfl
  | 1 =>
    rw [update_of_ne (by omega)]
    rfl
  | i + 2 =>
    by_cases hi : i = files.length
    · subst hi
      rw [update_self]
      simp [contents]
    rw [update_of_ne (by omega), update_of_ne (by unfold ROOTINO; omega)]
    have hsame : (files ++ [file])[i]? = files[i]? := by
      rw [getElem?_append]
      split
      · rfl
      · rw [getElem?_eq_none (by simp; omega), getElem?_eq_none (by omega)]
    simp only [contents, hsame]

theorem demand_append (files : List InFile) (file : InFile) :
    demand (files ++ [file]) + need (16 * (files.length + 2)) =
      demand files + need (16 * (files.length + 2) + 16) + need file.copied.length := by
  unfold demand
  rw [length_append, map_append, List.sum_append, map_singleton, sum_singleton, length_singleton]
  rw [show 16 * (files.length + 1 + 2) = 16 * (files.length + 2) + 16 by omega]
  omega

theorem demand_le_append (files rest : List InFile) : demand files ≤ demand (files ++ rest) := by
  have hneed : need (16 * (files.length + 2)) ≤ need (16 * ((files ++ rest).length + 2)) := by
    apply need_mono
    rw [length_append]
    omega
  unfold demand
  rw [map_append, List.sum_append]
  omega

theorem Refused.append (h : Refused files) (rest : List InFile) : Refused (files ++ rest) := by
  rcases h with ⟨file, hmem, hbad⟩ | hfull
  · exact .inl ⟨file, mem_append_left _ hmem, hbad⟩
  · exact .inr (lt_of_lt_of_le hfull (demand_le_append files rest))

/-- The body of the loop over the arguments. -/
theorem Filled.addFile_ends (h : Filled m files) (hn : files.length + 3 ≤ inodeSlots)
    (file : InFile) : Ends (Refused (files ++ [file])) (m.addFile ROOTINO file) fun m' =>
      Filled m' (files ++ [file]) := by
  have hrefused : file.Bad → Refused (files ++ [file]) :=
    fun hbad => .inl ⟨file, mem_append_right _ mem_cons_self, hbad⟩
  have hdemand := demand_append files file
  unfold Image.addFile
  by_cases hslash : 47 ∈ shortname file.path
  · rw [if_pos hslash]
    exact .error rfl (hrefused (.inl hslash))
  rw [if_neg hslash]
  by_cases hopens : file.opens = false
  · rw [if_pos hopens]
    exact .error rfl (hrefused (.inr (.inl hopens)))
  rw [if_neg hopens]
  by_cases hlong : file.name.length > DIRSIZ
  · rw [if_pos hlong]
    exact .error rfl (hrefused (Or.inr (Or.inr (Or.inl hlong))))
  rw [if_neg hlong]
  have hkind : kind m.freeinode = T_FILE := by
    rw [h.freeinode]
    exact if_neg (by unfold ROOTINO; omega)
  obtain ⟨m1, halloc, h1, hinode1, hblock1⟩ := h.stored.ialloc_ok (by rw [h.freeinode]; omega)
    (by rw [h.freeinode]; omega)
  rw [hkind] at halloc
  refine Ends.bind (Q := fun r => r = (m.freeinode, m1)) (.ok halloc rfl) ?_
  rintro _ rfl
  have hroot := direntBytes_length files
  -- the entry, and then the file
  have hentry := h1.iappend_ends (i := ROOTINO) (by decide)
    (by rw [hinode1, h.freeinode]; unfold ROOTINO; omega)
    ({ inum := m.freeinode, name := file.name } : Dirent).encode
  rw [show contents files ROOTINO = direntBytes files from rfl, Dirent.encode_length,
    h.freeinode, ← direntBytes_append, hroot] at hentry
  rw [h.freeinode] at hinode1 ⊢
  rw [h.freeblock] at hblock1
  refine (hentry.mono ?_ fun _ hm => hm).bind ?_
  · rintro (hbig | hbig)
    · have hn : files.length + 3 ≤ 208 := hn
      have hbig : 268 * 1024 < 16 * (files.length + 2) + 16 := hbig
      omega
    · refine Or.inr ?_
      omega
  rintro m2 ⟨h2, hinode2, hblock2⟩
  have hempty : update (contents files) ROOTINO (direntBytes (files ++ [file]))
      (files.length + 2) = [] := by
    rw [update_of_ne (by unfold ROOTINO; omega)]
    simp [contents]
  have hcopy := h2.appendReads_ends (i := files.length + 2) (by omega)
    (by rw [hinode2, hinode1]; omega) file.reads
  rw [hempty, nil_append, length_nil, Nat.zero_add] at hcopy
  refine hcopy.mono ?_ ?_
  · rintro (hbig | hbig)
    · exact hrefused (Or.inr (Or.inr (Or.inr hbig)))
    have hzero : need 0 = 0 := rfl
    have hcopied : file.reads.flatten.length = file.copied.length := rfl
    refine Or.inr ?_
    rw [hcopied] at hbig
    omega
  rintro m3 ⟨h3, hinode3, hblock3⟩
  refine ⟨?_, ?_, ?_, ?_⟩
  · rw [contents_append]
    exact h3
  · rw [hinode3, hinode2, hinode1, length_append]
    rfl
  · have hzero : need 0 = 0 := rfl
    have hcopied : file.reads.flatten.length = file.copied.length := rfl
    rw [hcopied] at hblock3
    omega
  · intro file' hmem
    rcases mem_append.1 hmem with hmem | hmem
    · exact h.names file' hmem
    rw [mem_singleton.1 hmem]
    exact Nat.le_of_not_lt hlong

/-- The loop over the arguments. -/
theorem Filled.addFiles_ends (h : Filled m files) (rest : List InFile)
    (hn : files.length + rest.length + 2 ≤ inodeSlots) :
    Ends (Refused (files ++ rest)) (m.addFiles ROOTINO rest) fun m' =>
      Filled m' (files ++ rest) := by
  induction rest generalizing m files with
  | nil =>
    rw [append_nil]
    exact .ok rfl h
  | cons file rest ih =>
    rw [length_cons] at hn
    have hassoc : files ++ file :: rest = files ++ [file] ++ rest := by simp
    rw [hassoc]
    refine ((h.addFile_ends (by omega) file).mono (fun hr => hr.append rest) fun _ hm => hm).bind ?_
    intro m1 h1
    exact ih h1 (by rw [length_append, length_singleton]; omega)

end Files

/-! ## How many inodes there are -/

section Freeinode

variable {m m' : Image}

theorem winode_freeinode {i : Nat} {d : Dinode} (h : m.winode i d = .ok m') :
    m'.freeinode = m.freeinode := by
  obtain ⟨buf, -, h⟩ := bind_eq_ok.1 h
  obtain rfl := pure_eq_ok.1 h
  rfl

theorem takeAddr_freeinode (m : Image) (d : Dinode) (j : Fin (NDIRECT + 1)) :
    (m.takeAddr d j).2.freeinode = m.freeinode := by
  unfold Image.takeAddr
  split <;> rfl

theorem takeEntry_freeinode {ind j : Nat} {r : Nat × Image} (h : m.takeEntry ind j = .ok r) :
    r.2.freeinode = m.freeinode := by
  obtain ⟨buf, -, h⟩ := bind_eq_ok.1 h
  split at h
  all_goals
    obtain rfl := pure_eq_ok.1 h
    rfl

theorem blockFor_freeinode {d : Dinode} {bn : Nat} {r : Nat × Dinode × Image}
    (h : m.blockFor d bn = .ok r) : r.2.2.freeinode = m.freeinode := by
  unfold Image.blockFor at h
  split at h
  · cases h
    exact takeAddr_freeinode m d _
  obtain ⟨e, he, h⟩ := bind_eq_ok.1 h
  obtain rfl := pure_eq_ok.1 h
  exact (takeEntry_freeinode he).trans (takeAddr_freeinode m d _)

theorem iappendFrom_freeinode {d : Dinode} {off fuel : Nat} {p : List UInt8}
    {r : Nat × Dinode × Image} (h : m.iappendFrom d off p fuel = .ok r) :
    r.2.2.freeinode = m.freeinode := by
  induction fuel generalizing m d off p with
  | zero =>
    cases h
    rfl
  | succ fuel ih =>
    rw [Image.iappendFrom] at h
    split at h
    · cases h
      rfl
    obtain ⟨r1, hround, h⟩ := bind_eq_ok.1 h
    rw [ih h]
    unfold Image.iappendRound at hround
    split at hround
    · obtain ⟨e, hfor, hround⟩ := bind_eq_ok.1 hround
      obtain ⟨buf, -, hround⟩ := bind_eq_ok.1 hround
      obtain rfl := pure_eq_ok.1 hround
      exact blockFor_freeinode hfor
    · cases hround

theorem iappend_freeinode {i : Nat} {p : List UInt8} (h : m.iappend i p = .ok m') :
    m'.freeinode = m.freeinode := by
  obtain ⟨d, -, h⟩ := bind_eq_ok.1 h
  obtain ⟨r, hloop, h⟩ := bind_eq_ok.1 h
  exact (winode_freeinode h).trans (iappendFrom_freeinode hloop)

theorem ialloc_freeinode {type : Int16} {r : Nat × Image} (h : m.ialloc type = .ok r) :
    r.2.freeinode = m.freeinode + 1 := by
  obtain ⟨m1, hstore, h⟩ := bind_eq_ok.1 h
  obtain rfl := pure_eq_ok.1 h
  exact winode_freeinode hstore

theorem appendReads_freeinode {i : Nat} {bufs : List (List UInt8)}
    (h : m.appendReads i bufs = .ok m') : m'.freeinode = m.freeinode := by
  induction bufs generalizing m with
  | nil =>
    cases h
    rfl
  | cons buf bufs ih =>
    obtain ⟨m1, happend, h⟩ := bind_eq_ok.1 h
    exact (ih h).trans (iappend_freeinode happend)

/-- One inode for each file. -/
theorem addFiles_freeinode {root : Nat} {files : List InFile}
    (h : m.addFiles root files = .ok m') : m'.freeinode = m.freeinode + files.length := by
  induction files generalizing m with
  | nil =>
    cases h
    rfl
  | cons file files ih =>
    obtain ⟨m1, hadd, h⟩ := bind_eq_ok.1 h
    unfold Image.addFile at hadd
    split at hadd
    · cases hadd
    split at hadd
    · cases hadd
    split at hadd
    · cases hadd
    obtain ⟨r, halloc, hadd⟩ := bind_eq_ok.1 hadd
    obtain ⟨m2, hentry, hadd⟩ := bind_eq_ok.1 hadd
    rw [ih h, appendReads_freeinode hadd, iappend_freeinode hentry, ialloc_freeinode halloc,
      length_cons]
    omega

/-- One inode for the root directory, and one for each file; numbers start
at 1. -/
theorem mkfs_freeinode {files : List InFile} (h : mkfs files = .ok m) :
    m.freeinode = files.length + 2 := by
  obtain ⟨r, halloc, h⟩ := bind_eq_ok.1 h
  split at h
  · obtain ⟨m1, hdot, h⟩ := bind_eq_ok.1 h
    obtain ⟨m2, hdotdot, h⟩ := bind_eq_ok.1 h
    obtain ⟨m3, hfiles, h⟩ := bind_eq_ok.1 h
    obtain ⟨m4, hfix, h⟩ := bind_eq_ok.1 h
    obtain ⟨d, -, hfix⟩ := bind_eq_ok.1 hfix
    have hlast : m.freeinode = m4.freeinode := by
      unfold Image.balloc at h
      split at h
      · cases h
        rfl
      · cases h
    rw [hlast, winode_freeinode hfix, addFiles_freeinode hfiles, iappend_freeinode hdotdot,
      iappend_freeinode hdot, ialloc_freeinode halloc]
    show 1 + 1 + files.length = files.length + 2
    omega
  · cases h

end Freeinode

/-! ## The finished image -/

/-- The size of the root directory at the end. -/
def rootSize (files : List InFile) : Nat := ((direntBytes files).length / BSIZE + 1) * BSIZE

/-- The image when `mkfs` is done. -/
structure Finished (m : Image) (files : List InFile) : Prop where
  built : Built m (dinodeAt sb m.sectors) (contents files)
  disk : m.disk = m.sectors
  inodes : files.length + 2 ≤ inodeSlots
  size : ∀ i, i < inodeSlots → (dinodeAt sb m.sectors i).size.toNat =
    if i = ROOTINO then rootSize files else (contents files i).length
  type : ∀ i, i < inodeSlots →
    (dinodeAt sb m.sectors i).type = if 0 < i ∧ i < files.length + 2 then kind i else 0
  front : ∀ b, b < sb.inodestart → m.sectors b = blank.sectors b
  names : ∀ file ∈ files, file.name.length ≤ DIRSIZ

/-- The bitmap is written. -/
theorem Built.balloc {m : Image} {f : Nat → Dinode} {g : Nat → List UInt8} (h : Built m f g) :
    Image.disk { m with sectors := m.disk } = m.disk ∧ Built { m with sectors := m.disk } f g := by
  have hdisk : Image.disk { m with sectors := m.disk } = m.disk := by
    unfold Image.disk
    exact update_idem _ _ _
  refine ⟨hdisk, ⟨?_, h.room, fun b hb hbs => ?_⟩, ?_, h.free⟩
  · rw [hdisk]
    exact h.accounts
  · have hlo : 46 ≤ b := le_trans h.nmeta_le hb
    have hne : b ≠ sb.bmapstart := by
      show b ≠ 45
      omega
    show m.disk b = _
    rw [Image.disk_of_ne hne]
    exact h.fresh b hb hbs
  · rw [hdisk]
    exact h.holds

theorem Filled.finish {m : Image} {files : List InFile} (h : Filled m files) :
    ∃ m', (m.fixRoot ROOTINO >>= fun m => m.balloc m.freeblock) = .ok m' ∧ Finished m' files := by
  have hroot : ROOTINO < inodeSlots := by decide
  have hlt : ROOTINO < m.freeinode := by
    rw [h.freeinode]
    exact Nat.lt_add_left _ (by decide)
  have ht := h.stored.type_ne_zero (by decide) hlt
  have hsize := h.stored.size ROOTINO hroot
  have hinodes := h.stored.inodes
  rw [h.freeinode] at hinodes
  generalize hd : ({ dinodeAt sb m.sectors ROOTINO with
    size := ofNat (rootSize files) } : Dinode) = d
  have hbuilt := (h.stored.built.setInfo (d := d) hroot ht (by rw [← hd])
    (by rw [← hd]; exact ht)).store
    hroot (fun _ _ _ => rfl) m.freeinode
  obtain ⟨hdisk, hballoc⟩ := hbuilt.balloc
  -- the bitmap lies behind all inodes
  have hkeep : ∀ b, b < sb.bmapstart → Image.disk
      ⟨storeDinode sb m.sectors ROOTINO d, m.freeinode, m.freeblock⟩ b =
        storeDinode sb m.sectors ROOTINO d b := fun b hb => Image.disk_of_ne (ne_of_lt hb)
  have hsame : ∀ j, j < inodeSlots → dinodeAt sb (Image.disk
      ⟨storeDinode sb m.sectors ROOTINO d, m.freeinode, m.freeblock⟩) j =
        if j = ROOTINO then d else dinodeAt sb m.sectors j := by
    intro j hj
    rw [← dinodeAt_storeDinode, dinodeAt, dinodeAt, hkeep _ (IBLOCK_lt hj)]
  refine ⟨_, ?_, ⟨hballoc.congr fun j hj => ?_, hdisk, hinodes, fun j hj => ?_, fun j hj => ?_,
    fun b hb => ?_, h.names⟩⟩
  · have hfix : m.fixRoot ROOTINO =
        .ok ⟨storeDinode sb m.sectors ROOTINO d, m.freeinode, m.freeblock⟩ := by
      refine bind_eq_ok.2 ⟨_, rinode_eq hroot, ?_⟩
      rw [hsize, winode_eq hroot, ← hd]
      rfl
    have hroom : m.freeblock < BPB := lt_of_le_of_lt h.stored.built.room (by decide)
    refine bind_eq_ok.2 ⟨_, hfix, ?_⟩
    rw [Image.balloc, if_pos hroom, Image.wsect_of_lt (by decide)]
    rfl
  · rw [hsame j hj, dinodeAt_storeDinode]
  · rw [hsame j hj]
    by_cases hji : j = ROOTINO
    · have hfits := (h.stored.built.holds ROOTINO hroot ht).fits
      have hlen : (direntBytes files).length ≤ 268 * 1024 := hfits
      have hlt : rootSize files < 2 ^ 32 := by
        show ((direntBytes files).length / 1024 + 1) * 1024 < 2 ^ 32
        omega
      rw [if_pos hji, if_pos hji, ← hd, toNat_ofNat', Nat.mod_eq_of_lt hlt]
    · rw [if_neg hji, if_neg hji, h.stored.size j hj]
  · rw [hsame j hj, ← h.freeinode, ← h.stored.type j hj]
    by_cases hji : j = ROOTINO
    · rw [if_pos hji, hji, ← hd]
    · rw [if_neg hji]
  · show Image.disk _ b = _
    rw [hkeep b (lt_trans hb (by decide))]
    exact h.stored.front_store hb

theorem contents_nil : contents [] = update (fun _ => []) ROOTINO (direntBytes []) := by
  funext i
  match i with
  | 0 => rfl
  | 1 => rfl
  | i + 2 =>
    rw [update_of_ne (by unfold ROOTINO; omega)]
    rfl

/-- `main` stores the files in an image, unless there is something wrong
with them or they do not fit. -/
theorem mkfs_ends {files : List InFile} (hn : files.length + 2 ≤ inodeSlots) :
    Ends (Refused files) (mkfs files) fun m => Finished m files := by
  obtain ⟨m1, halloc, h1, hinode1, hblock1⟩ := blank_stored.ialloc_ok (by decide) (by decide)
  have hlt1 : ROOTINO < m1.freeinode := by
    rw [hinode1]
    decide
  refine Ends.bind (Q := fun r => r = (ROOTINO, m1)) (.ok halloc rfl) ?_
  rintro _ rfl
  rw [if_pos rfl]
  -- nothing is too big for the first two entries
  refine ((h1.iappend_ends (by decide) hlt1 _).mono (fun hbig => ?_) fun _ hm => hm).bind ?_
  · rw [Dirent.encode_length, TooBig, hblock1] at hbig
    exact absurd hbig (by decide)
  rintro m2 ⟨h2, hinode2, hblock2⟩
  have hlt2 : ROOTINO < m2.freeinode := by rwa [hinode2]
  have hfree2 : m2.freeblock = nmeta + 1 := by rwa [Dirent.encode_length, hblock1] at hblock2
  have hend := h2.iappend_ends (by decide) hlt2
    { inum := ROOTINO, name := [46, 46] : Dirent }.encode
  rw [update_self, update_idem, nil_append, Dirent.encode_length, Dirent.encode_length] at hend
  refine (hend.mono (fun hbig => ?_) fun _ hm => hm).bind ?_
  · rw [TooBig, hfree2] at hbig
    exact absurd hbig (by decide)
  rintro m3 ⟨h3, hinode3, hblock3⟩
  have hfilled : Filled m3 [] := by
    refine ⟨?_, ?_, ?_, fun _ hmem => absurd hmem not_mem_nil⟩
    · rw [contents_nil]
      simpa [direntBytes, dirents] using h3
    · rw [hinode3, hinode2, hinode1]
      rfl
    · rw [hfree2] at hblock3
      exact Nat.add_right_cancel hblock3
  refine (hfilled.addFiles_ends files (by simpa using hn)).bind ?_
  intro m4 h4
  obtain ⟨m5, heq, h5⟩ := h4.finish
  exact .ok heq h5

end Mkfs

end Xv6
