import Xv6.Fs.DirLayer

/-!
# Files as their owners see them

A `Node` is what a file is to its users: its type, its link count and its
bytes.  A `Space` gives the node of every allocated inode; `Kernel.space` is
the space that is on the disk.

Each operation of the inode layer changes the space at one inode, and the
lemmas say how.  Which blocks hold the bytes does not show in a space.
-/

namespace Xv6

open Lib Function List

namespace Fs

variable {k dp : Nat} {C : Prop} {J : List Nat} {de : Dirent}

/-! ## Nodes -/

/-- A file: the fields of its inode, its size, and its bytes, which are zero
from the size on. -/
@[ext] structure Node where
  type : Int16
  major : Int16
  minor : Int16
  nlink : Int16
  size : Nat
  data : Nat → UInt8

/-- The node of an inode. -/
def nodeAt (c : Nat → Block) (d : Dinode) : Node where
  type := d.type
  major := d.major
  minor := d.minor
  nlink := d.nlink
  size := d.size.toNat
  data x := if x < d.size.toNat then byteAt c d x else 0

namespace Node

/-- An empty file. -/
def empty (type major minor nlink : Int16) : Node := ⟨type, major, minor, nlink, 0, fun _ => 0⟩

/-- Write bytes at an offset. -/
def write (n : Node) (off : Nat) (bytes : List UInt8) : Node :=
  { n with
    size := max n.size (off + bytes.length)
    data := fun x => if off ≤ x ∧ x < off + bytes.length then bytes.getD (x - off) 0 else n.data x }

/-- The number of entries of a directory. -/
def count (n : Node) : Nat := n.size / 16

/-- Entry number `k` of a directory. -/
def entry (n : Node) (k : Nat) : Dirent :=
  Dirent.decode ((List.range 16).map fun j => n.data (16 * k + j))

/-- Set entry number `k` of a directory. -/
def setEntry (n : Node) (k : Nat) (de : Dirent) : Node := n.write (16 * k) de.encode

/-- Enter a name in a directory; a new directory is one more link to its
parent. -/
def enter (n : Node) (k : Nat) (de : Dirent) (type : Int16) : Node :=
  { n.setEntry k de with nlink := if type = T_DIR then n.nlink + 1 else n.nlink }

/-- Entry number `k` of a directory has the given name. -/
def Names (n : Node) (name : List UInt8) (k : Nat) : Prop :=
  k < n.count ∧ (n.entry k).inum ≠ 0 ∧ namecmp name (n.entry k).name = true

/-- Entry number `k` of a directory can be given a name: it is free, or the
one behind the last. -/
def Room (n : Node) (k : Nat) : Prop := k ≤ n.count ∧ (k < n.count → (n.entry k).inum = 0)

theorem entry_setEntry (n : Node) (k k' : Nat) (de : Dirent) :
    (n.setEntry k de).entry k' = if k' = k then Dirent.decode de.encode else n.entry k' := by
  have hlen := de.encode_length
  unfold entry setEntry write
  split
  · rename_i hk
    subst hk
    congr 1
    apply List.ext_getElem
    · simp [hlen]
    intro x hx _
    have hx : x < 16 := by simpa using hx
    simp only [getElem_map, getElem_range, hlen]
    rw [if_pos (by omega), Nat.add_sub_cancel_left, getD_eq_getElem?_getD,
      getElem?_eq_getElem (by omega)]
    rfl
  · rename_i hk
    congr 1
    apply List.map_congr_left
    intro x hx
    have hx := mem_range.1 hx
    exact if_neg (by omega)

theorem count_setEntry (n : Node) (k : Nat) (de : Dirent) :
    (n.setEntry k de).count = max n.count (k + 1) := by
  have hlen := de.encode_length
  show max n.size (16 * k + de.encode.length) / 16 = max (n.size / 16) (k + 1)
  omega

end Node

/-- The files of a file system, by inode number. -/
abbrev Space := Nat → Option Node

/-- The references `l` are to files that exist, and hold every file without
links. -/
structure Owned (V : Space) (l : List Ref) : Prop where
  live : ∀ r ∈ l, V r.inum ≠ none
  anchored : ∀ i n, V i = some n → n.nlink = 0 → ∃ r ∈ l, r.inum = i ∧ r.valid = true

/-- The files of the inodes `f`. -/
def view (sb : Superblock) (c : Nat → Block) (f : Nat → Dinode) : Space := fun i =>
  if i < sb.ninodes ∧ (f i).type ≠ 0 then some (nodeAt c (f i)) else none

section View

variable {sb : Superblock} {c c' : Nat → Block} {f f' : Nat → Dinode} {i : Nat} {d d' : Dinode}

theorem view_of_lt (hi : i < sb.ninodes) (ht : (f i).type ≠ 0) :
    view sb c f i = some (nodeAt c (f i)) := if_pos ⟨hi, ht⟩

theorem view_eq_none (ht : (f i).type = 0) : view sb c f i = none := if_neg fun h => h.2 ht

theorem nodeAt_congr (htype : d'.type = d.type) (hmajor : d'.major = d.major)
    (hminor : d'.minor = d.minor) (hnlink : d'.nlink = d.nlink) (hsize : d'.size = d.size)
    (hbytes : ∀ x, x < d.size.toNat → byteAt c' d' x = byteAt c d x) :
    nodeAt c' d' = nodeAt c d := by
  refine Node.ext htype hmajor hminor hnlink (congrArg UInt32.toNat hsize) (funext fun x => ?_)
  simp only [nodeAt, hsize]
  split
  · rename_i hx
    rw [hbytes x hx]
  · rfl

theorem nodeAt_entry (hk : k < (nodeAt c d).count) : (nodeAt c d).entry k = entryAt c d k := by
  have hsize : 16 * k + 16 ≤ d.size.toNat := by
    have hk : k < d.size.toNat / 16 := hk
    omega
  unfold Node.entry entryAt fileBytes
  congr 1
  apply map_congr_left
  intro j hj
  have hj := mem_range.1 hj
  exact if_pos (by omega)

/-- An operation on inode `i` changes the space at `i`. -/
theorem Update.view (h : Update sb c f i c' f') : view sb c' f' = update (Fs.view sb c f) i
      (if i < sb.ninodes ∧ (f' i).type ≠ 0 then some (nodeAt c' (f' i)) else none) := by
  funext j
  by_cases hj : j = i
  · subst hj
    rw [update_self]
    rfl
  rw [update_of_ne hj]
  simp only [Fs.view, h.others j hj]
  split
  · rename_i hlt
    rw [nodeAt_congr rfl rfl rfl rfl rfl fun x _ => h.bytes j hlt.1 hlt.2 hj x]
  · rfl

end View

section Effects

variable {s s' : Kernel} {f f' : Nat → Dinode} {l : List Ref} {i ip : Nat} {u : List Event}

/-- What the view says of an inode that is held. -/
theorem Held.node_eq {r : Ref} {n : Node} (h : Held s f l) (hr : r ∈ l) (hv : r.valid = true)
    (hview : view s.sb s.cache f r.inum = some n) : nodeAt s.cache (f r.inum) = n := by
  rw [view_of_lt (h.inum_lt hr) (h.cached hr hv).2] at hview
  exact Option.some.inj hview

/-- The references that hold files without links, on the view. -/
theorem anchored_iff_view : Anchored s.sb.ninodes f l ↔
    ∀ i n, view s.sb s.cache f i = some n → n.nlink = 0 → ∃ r ∈ l, r.inum = i ∧ r.valid = true := by
  constructor
  · intro h i n hn hzero
    by_cases hlt : i < s.sb.ninodes ∧ (f i).type ≠ 0
    · rw [view_of_lt hlt.1 hlt.2] at hn
      cases hn
      exact h i hlt.1 hlt.2 hzero
    · rw [view, if_neg hlt] at hn
      cases hn
  · intro h i hi ht hn
    exact h i _ (view_of_lt hi ht) hn

theorem Owned.orphans (h : Owned (view s.sb s.cache f) l) : Anchored s.sb.ninodes f l :=
  anchored_iff_view.2 h.anchored

/-- If `C` holds, then the files become `V`, at the given costs. -/
structure Turns (C : Prop) (J : List Nat) (k : Nat) (V : Space) (s : Kernel) (f : Nat → Dinode)
    (s' : Kernel) (f' : Nat → Dinode) (u : List Event) : Prop extends Same s s' where
  inner : Inner u
  effect : C → view s'.sb s'.cache f' = V ∧ Costs s.sb J k u

theorem Turns.trans {k' : Nat} {V V' : Space} {s'' : Kernel}
    {f'' : Nat → Dinode} {v : List Event} (h : Turns C J k V s f s' f' u)
    (h' : Turns C J k' V' s' f' s'' f'' v) : Turns C J (k + k') V' s f s'' f'' (u ++ v) := by
  refine ⟨h.toSame.trans h'.toSame, h.inner.append h'.inner, fun hC => ?_⟩
  have hcosts := (h'.effect hC).2
  rw [h.sb] at hcosts
  exact ⟨(h'.effect hC).1, (h.effect hC).2.append hcosts⟩

theorem Turns.mono {C' : Prop} {k' : Nat} {V V' : Space}
    (h : Turns C J k V s f s' f' u) (hC : C' → C) (hk : k ≤ k') (hV : C' → V = V') :
    Turns C' J k' V' s f s' f' u := by
  refine ⟨h.toSame, h.inner, fun hC' => ?_⟩
  obtain ⟨hview, hcosts⟩ := h.effect (hC hC')
  exact ⟨hview.trans (hV hC'), hcosts.mono (List.Subset.refl _) hk⟩

theorem Kept.turns (h : Kept s s') : Turns C J 0 (view s.sb s.cache f) s f s' f [] :=
  ⟨h.toSame, Inner.nil, fun _ => ⟨by rw [h.sb, h.cache], Costs.nil⟩⟩

/-- A walk that frees nothing changes no file. -/
theorem Walk.view (h : Walk l s f s' f' u) (hanch : Anchored s.sb.ninodes f l) :
    view s'.sb s'.cache f' = view s.sb s.cache f := by
  obtain ⟨rfl, hcache, -⟩ := h.calm hanch
  rw [h.sb, hcache]

theorem Walk.turns (h : Walk l s f s' f' u)
    (hC : C → Anchored s.sb.ninodes f l) : Turns C J 0 (Fs.view s.sb s.cache f) s f s' f' u :=
  ⟨h.toSame, h.inner, fun hc => ⟨h.view (hC hc), ∅, by simp,
    fun e he => .inr (.inl ((h.calm (hC hc)).2.2 e he))⟩⟩

theorem Freed.view (h : Freed s f i s' f') :
    view s'.sb s'.cache f' = Function.update (Fs.view s.sb s.cache f) i none := by
  rw [h.sb, h.update.view, if_neg fun hno => hno.2 h.type]

theorem nodeAt_of_size_zero {c : Nat → Block} {d : Dinode} (h : d.size = 0) :
    nodeAt c d = Node.empty d.type d.major d.minor d.nlink := by
  refine Node.ext rfl rfl rfl rfl ?_ (funext fun x => ?_) <;> simp [nodeAt, Node.empty, h]

theorem Allocated.view {type : Int16} (h : Allocated s f type i s' f') (ht : type ≠ 0) :
    view s'.sb s'.cache f' =
      Function.update (Fs.view s.sb s.cache f) i (some (Node.empty type 0 0 0)) := by
  rw [h.sb, h.update.view, h.inode, nodeAt_of_size_zero rfl, if_pos ⟨h.lt, ht⟩]
  rfl

theorem Reset.view {d : Dinode} (h : Reset s f i d s' f') (hi : i < s.sb.ninodes)
    (ht : d.type ≠ 0) (hsize : d.size = (f i).size) :
    view s'.sb s'.cache f' = Function.update (Fs.view s.sb s.cache f) i
      (some { nodeAt s.cache (f i) with
        type := d.type, major := d.major, minor := d.minor, nlink := d.nlink }) := by
  have hnode : nodeAt s'.cache (f' i) = { nodeAt s.cache (f i) with
      type := d.type, major := d.major, minor := d.minor, nlink := d.nlink } := by
    have hbytes := h.bytes
    rw [h.inode] at hbytes ⊢
    refine Node.ext rfl rfl rfl rfl (congrArg UInt32.toNat hsize) (funext fun x => ?_)
    simp only [nodeAt, hsize, hbytes]
  rw [h.sb, h.update.view, hnode, if_pos ⟨hi, by rw [h.inode]; exact ht⟩]

/-- The node of a file to which `writei` has written. -/
theorem Wrote.node {src : Nat → Option UInt8} {off n tot : Nat} {c' : Nat → Block}
    {bytes : List UInt8} (h : Wrote s f ip i src off n tot s' u c' f')
    (hsrc : ∀ j, j < n → (src j).isSome) (hlen : bytes.length = tot)
    (hbytes : ∀ j, j < tot → src j = some (bytes.getD j 0)) :
    nodeAt c' (f' i) = (nodeAt s.cache (f i)).write off bytes := by
  have hinfo := h.info
  have hstart := h.start.1
  have hsize : (f' i).size.toNat = max (f i).size.toNat (off + bytes.length) := by rw [h.size, hlen]
  have hfields : (f' i).type = (f i).type ∧ (f' i).major = (f i).major ∧
      (f' i).minor = (f i).minor ∧ (f' i).nlink = (f i).nlink := by
    rw [hinfo]
    exact ⟨rfl, rfl, rfl, rfl⟩
  refine Node.ext hfields.1 hfields.2.1 hfields.2.2.1 hfields.2.2.2 hsize (funext fun x => ?_)
  simp only [nodeAt, Node.write, hsize, hlen]
  by_cases hin : off ≤ x ∧ x < off + tot
  · have hb := h.inside x hin.1 hin.2
    rw [hbytes (x - off) (by omega), Option.some.injEq] at hb
    rw [if_pos hin, if_pos (by omega), ← hb]
  rw [if_neg hin]
  -- outside of what was written there is no new byte below the size
  have hold : byteAt c' (f' i) x = byteAt s.cache (f i) x := by
    by_cases hlo : x < off
    · exact h.outside x (.inl hlo)
    · exact h.untouched hsrc x (by omega)
  by_cases hx : x < (f i).size.toNat
  · rw [if_pos (by omega), if_pos hx, hold]
  · rw [if_neg (by omega), if_neg hx]

/-- A write that came to nothing. -/
theorem Wrote.node_zero {src : Nat → Option UInt8} {off n : Nat} {c' : Nat → Block}
    (h : Wrote s f ip i src off n 0 s' u c' f') (hsrc : ∀ j, j < n → (src j).isSome) :
    nodeAt c' (f' i) = nodeAt s.cache (f i) := by
  have hnil : ∀ j, j < 0 → src j = some (([] : List UInt8).getD j 0) := fun j hj => by omega
  rw [h.node hsrc rfl hnil]
  have hstart := h.start.1
  refine Node.ext rfl rfl rfl rfl ?_ (funext fun x => if_neg ?_)
  · simp [Node.write, nodeAt, hstart]
  · simp

/-- The bytes of an entry can all be read. -/
theorem kernelSrc_encode (de : Dirent) {j : Nat} (hj : j < 16) :
    kernelSrc de.encode j = some (de.encode.getD j 0) := by
  have hlen := de.encode_length
  rw [kernelSrc, List.getD_eq_getElem?_getD, List.getElem?_eq_getElem (by omega)]
  rfl

/-- Writing an entry, or finding no block for it. -/
theorem Wrote.view_entry {tot : Nat}
    (h : Wrote s f ip i (kernelSrc de.encode) (16 * k) 16 tot s' u s'.cache f')
    (hi : i < s.sb.ninodes) (ht : (f i).type ≠ 0) (htot : tot = 16) :
    view s'.sb s'.cache f' = Function.update (view s.sb s.cache f) i
      (some ((nodeAt s.cache (f i)).setEntry k de)) := by
  subst htot
  have hnode : nodeAt s'.cache (f' i) = (nodeAt s.cache (f i)).write (16 * k) de.encode :=
    h.node (fun j hj => by rw [kernelSrc_encode de hj]; rfl) de.encode_length
      fun j hj => kernelSrc_encode de hj
  have ht' : (f' i).type ≠ 0 := by rwa [h.info]
  rw [h.same.sb, h.update.view, if_pos ⟨hi, ht'⟩, hnode]
  rfl

theorem Wrote.view_zero (h : Wrote s f ip i (kernelSrc de.encode) (16 * k) 16 0 s' u s'.cache f')
    (hi : i < s.sb.ninodes) (ht : (f i).type ≠ 0) :
    view s'.sb s'.cache f' = view s.sb s.cache f := by
  have hnode := h.node_zero fun j hj => by rw [kernelSrc_encode de hj]; rfl
  have ht' : (f' i).type ≠ 0 := by rwa [h.info]
  rw [h.same.sb, h.update.view, if_pos ⟨hi, ht'⟩, hnode, ← view_of_lt hi ht]
  exact update_eq_self i _

theorem Linked.res_eq {res : Int} (h : Linked l s f dp i de s' f' u res) : res = -1 ∨ res = 0 := by
  cases h with
  | «exists» => exact .inl rfl
  | large | full => exact .inl rfl
  | done => exact .inr rfl

/-- A `dirlink` that fails and frees nothing changes no file. -/
theorem Linked.view_of_neg
    (h : Linked l s f dp i de s' f' u (-1)) (hi : i < s.sb.ninodes) (ht : (f i).type ≠ 0)
    (hanch : Anchored s.sb.ninodes f l) : view s'.sb s'.cache f' = view s.sb s.cache f := by
  cases h with
  | «exists» _ _ hw => exact hw.view hanch
  | large hs hf _ => rw [hs, hf]
  | full hw => exact hw.view_zero hi ht

/-- A `dirlink` that succeeds enters the name, which was not there. -/
theorem Linked.view_of_zero
    (h : Linked l s f dp i de s' f' u 0) (hi : i < s.sb.ninodes) (ht : (f i).type ≠ 0) :
    ∃ k, (nodeAt s.cache (f i)).Room k ∧ (∀ k, ¬ (nodeAt s.cache (f i)).Names de.name k) ∧
      view s'.sb s'.cache f' = update (view s.sb s.cache f) i
        (some ((nodeAt s.cache (f i)).setEntry k de)) := by
  have hcount : ∀ {k}, k < (nodeAt s.cache (f i)).count → k < direntCount (f i).size.toNat := by
    intro k hk
    have hk : k < (f i).size.toNat / 16 := hk
    unfold direntCount
    omega
  cases h with
  | @done k hslot hnone hw =>
    refine ⟨k, ⟨?_, ?_⟩, ?_, hw.view_entry hi ht rfl⟩
    · have hstart : 16 * k ≤ (f i).size.toNat := hw.start.1
      show k ≤ (f i).size.toNat / 16
      omega
    · intro hk
      rw [nodeAt_entry hk]
      exact hslot.free (hcount hk)
    · rintro k' ⟨hk', hm⟩
      rw [nodeAt_entry hk'] at hm
      exact hnone k' (hcount hk') hm

end Effects

end Fs

end Xv6
