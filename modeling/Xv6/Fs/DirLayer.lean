import Xv6.Fs.Dir
import Xv6.Fs.InodeLayer

/-!
# What the directory layer does

Specifications of `dirlookup`, `dirlink` and `namex` for a program that runs
alone.

On its way along a path `namex` takes references and drops them again.  An
inode without links goes away with its last reference, so a walk might free
inodes; `Walk` says that it frees nothing if every inode without links is
also held by somebody else (`Anchored`), and that it then changes nothing
but the inode table.
-/

namespace Xv6

open Lib List

namespace Fs

variable {n i ip inum dp k : Nat} {name path : List UInt8} {de : Dirent}

variable {I : List Event → Prop} {s s' s'' : Kernel} {f f' f'' : Nat → Dinode} {l l' : List Ref}
  {r : Ref} {p : Fin NPROC} {u v : List Event}

/-! ## Walks -/

/-- Every allocated inode without links is held by one of the references,
which knows its contents. -/
def Anchored (n : Nat) (f : Nat → Dinode) (l : List Ref) : Prop :=
  ∀ i, i < n → (f i).type ≠ 0 → (f i).nlink = 0 → ∃ r ∈ l, r.inum = i ∧ r.valid = true

theorem Anchored.mono (h : Anchored n f l) (hl : l ⊆ l') : Anchored n f l' := by
  intro i hi ht hn
  obtain ⟨r, hr, hri⟩ := h i hi ht hn
  exact ⟨r, hl hr, hri⟩

/-- References have been taken and dropped; `l` are those that others
hold. -/
structure Walk (l : List Ref) (s : Kernel) (f : Nat → Dinode) (s' : Kernel) (f' : Nat → Dinode)
    (u : List Event) : Prop extends Same s s' where
  inner : Inner u
  calm : Anchored s.sb.ninodes f l → f' = f ∧ s'.cache = s.cache ∧ ∀ e ∈ u, e = .iput

theorem Kept.walk (h : Kept s s') : Walk l s f s' f [] :=
  ⟨h.toSame, Inner.nil, fun _ => ⟨rfl, h.cache, fun _ he => by simp at he⟩⟩

theorem Walk.refl : Walk l s f s f [] := Kept.refl.walk

theorem Walk.trans (h : Walk l s f s' f' u) (h' : Walk l s' f' s'' f'' v) :
    Walk l s f s'' f'' (u ++ v) := by
  refine ⟨h.toSame.trans h'.toSame, h.inner.append h'.inner, fun hanch => ?_⟩
  obtain ⟨rfl, hcache, hu⟩ := h.calm hanch
  rw [← h.sb] at hanch
  obtain ⟨rfl, hcache', hv⟩ := h'.calm hanch
  refine ⟨rfl, hcache'.trans hcache, fun e he => ?_⟩
  rcases mem_append.1 he with he | he
  · exact hu e he
  · exact hv e he

theorem Walk.after_kept (h : Walk l s f s' f' u) (h' : Kept s' s'') : Walk l s f s'' f' u := by
  simpa using h.trans (h'.walk (f := f'))

theorem Walk.mono (h : Walk l s f s' f' u) (hl : l' ⊆ l) : Walk l' s f s' f' u :=
  ⟨h.toSame, h.inner, fun hanch => h.calm (hanch.mono hl)⟩

theorem FreeEvents.inner {sb : Superblock} (h : FreeEvents sb i u) : Inner u := by
  intro e he
  rcases h e he with rfl | ⟨x, _, rfl⟩
  · exact .inr (.inl rfl)
  · exact .inr (.inr ⟨x, rfl⟩)

theorem Inner.iput : Inner [.iput] := fun _ he => .inr (.inl (List.mem_singleton.1 he))

/-- Dropping a reference is part of a walk. -/
theorem iput_walk {v : Bool} (h : Held s f (⟨ip, inum, v⟩ :: l)) (hI : Calm I) :
    Spec I DoubleFree (iput p ip) s fun _ s' u => ∃ f', Held s' f' l ∧ Walk l s f s' f' u := by
  have hlt : inum < s.sb.ninodes := h.inum_lt mem_cons_self
  refine (iput_spec h hI).mono ?_
  rintro _ s' u (⟨h', hk, rfl, -⟩ | ⟨f', h', hfreed, hlast, hev⟩)
  · refine ⟨f, h', hk.toSame, Inner.iput, fun _ => ⟨rfl, hk.cache, ?_⟩⟩
    exact fun e he => mem_singleton.1 he
  refine ⟨f', h', hfreed.toSame, hev.inner, fun hanch => ?_⟩
  obtain ⟨r, hr, hri, -⟩ := hanch inum hlt hfreed.allocated hfreed.nlink
  exact absurd hri (hlast r hr)

theorem iunlockput_walk {v : Bool} (h : Held s f (⟨ip, inum, v⟩ :: l)) (hI : Calm I) :
    Spec I DoubleFree (iunlockput p ip) s fun _ s' u =>
      ∃ f', Held s' f' l ∧ Walk l s f s' f' u := by
  refine (iunlock_spec h hI.nil).bind ?_
  rintro _ s1 u1 ⟨h1, hk1, rfl⟩
  refine (iput_walk h1 hI).mono ?_
  rintro _ s2 u2 ⟨f', h2, hw⟩
  exact ⟨f', h2, hk1.walk.trans hw⟩

/-! ## `dirlookup` -/

/-- Entry number `k` of a directory has the given name. -/
def Matches (c : Nat → Block) (d : Dinode) (name : List UInt8) (k : Nat) : Prop :=
  (entryAt c d k).inum ≠ 0 ∧ namecmp name (entryAt c d k).name = true

variable (h : Held s f l) (hr : (⟨dp, i, true⟩ : Ref) ∈ l)

include h hr in
theorem dirlookupFrom_spec (hdir : (f i).type = T_DIR) (hI : I []) :
    Spec I DoubleFree (dirlookupFrom dp name (16 * k) n) s fun res s' u =>
      (res = none ∧ s' = s ∧ u = [] ∧ ∀ k', k ≤ k' → k' < k + n → ¬ Matches s.cache (f i) name k') ∨
      ∃ ip k', res = some (ip, 16 * k') ∧ k ≤ k' ∧ 16 * k' + 16 ≤ (f i).size.toNat ∧
        Matches s.cache (f i) name k' ∧
        (∀ k'', k ≤ k'' → k'' < k' → ¬ Matches s.cache (f i) name k'') ∧
        Held s' f (⟨ip, (entryAt s.cache (f i) k').inum, false⟩ :: l) ∧ Kept s s' ∧ u = [] := by
  induction n generalizing k with
  | zero =>
    apply Spec.pure
    exact .inl ⟨rfl, rfl, rfl, fun k' hlo hhi => by omega⟩
  | succ n ih =>
    rw [dirlookupFrom]
    refine (readi_held h hr).bind ?_
    rintro res s1 u1 ⟨rfl, rfl, hbytes⟩
    by_cases hres : res.1 ≠ 16
    · rw [if_pos hres]
      exact .fail ⟨hI, by simp [DoubleFree]⟩
    rw [if_neg hres]
    obtain ⟨hread, hsize⟩ := hbytes (fun _ => rfl) (not_not.1 hres)
    have hde : Dirent.decode res.2 = entryAt s1.cache (f i) k := by
      rw [hread]
      rfl
    rw [hde]
    -- an entry that does not match is passed over
    have hnext : ¬ Matches s1.cache (f i) name k →
        Spec (fun v => I ([] ++ v)) DoubleFree (dirlookupFrom dp name (16 * k + 16) n) s1
          fun res s' u =>
            (res = none ∧ s' = s1 ∧ [] ++ u = [] ∧
              ∀ k', k ≤ k' → k' < k + (n + 1) → ¬ Matches s1.cache (f i) name k') ∨
            ∃ ip k', res = some (ip, 16 * k') ∧ k ≤ k' ∧ 16 * k' + 16 ≤ (f i).size.toNat ∧
              Matches s1.cache (f i) name k' ∧
              (∀ k'', k ≤ k'' → k'' < k' → ¬ Matches s1.cache (f i) name k'') ∧
              Held s' f (⟨ip, (entryAt s1.cache (f i) k').inum, false⟩ :: l) ∧ Kept s1 s' ∧
              [] ++ u = [] := by
      intro hno
      rw [show 16 * k + 16 = 16 * (k + 1) by omega]
      refine ih.mono ?_
      rintro res' s2 u2 (⟨rfl, rfl, rfl, hall⟩ | ⟨ip, k', rfl, hlo, hhi, hm, hfirst, h2, hk2, rfl⟩)
      · refine .inl ⟨rfl, rfl, rfl, fun k' hlo hhi => ?_⟩
        by_cases hk : k' = k
        · rwa [hk]
        · exact hall k' (by omega) (by omega)
      refine Or.inr ⟨ip, k', rfl, by omega, hhi, hm, fun k'' hlo' hhi' => ?_, h2, hk2, rfl⟩
      by_cases hk : k'' = k
      · rw [hk]
        exact hno
      · exact hfirst k'' (by omega) hhi'
    by_cases hzero : (entryAt s1.cache (f i) k).inum = 0
    · rw [if_pos hzero]
      exact hnext fun hm => hm.1 hzero
    rw [if_neg hzero]
    by_cases hname : namecmp name (entryAt s1.cache (f i) k).name = true
    · rw [if_pos hname]
      have hlt := h.disk.dirs i (h.inum_lt hr) hdir k
      refine (iget_spec h hI hlt).bind ?_
      rintro ip s2 u2 ⟨h2, hk2, rfl⟩
      apply Spec.pure
      exact Or.inr ⟨ip, k, rfl, le_refl k, by omega, ⟨hzero, hname⟩,
        fun k'' hlo hhi => by omega, h2, hk2, rfl⟩
    · rw [if_neg hname]
      exact hnext fun hm => hname hm.2

include h hr in
/-- `dirlookup` finds the first entry with the name. -/
theorem dirlookup_spec (hI : I []) :
    Spec I DoubleFree (dirlookup dp name) s fun res s' u => (f i).type = T_DIR ∧
      ((res = none ∧ s' = s ∧ u = [] ∧
        ∀ k, k < direntCount (f i).size.toNat → ¬ Matches s.cache (f i) name k) ∨
      ∃ ip k, res = some (ip, 16 * k) ∧ 16 * k + 16 ≤ (f i).size.toNat ∧
        Matches s.cache (f i) name k ∧ (∀ k', k' < k → ¬ Matches s.cache (f i) name k') ∧
        Held s' f (⟨ip, (entryAt s.cache (f i) k).inum, false⟩ :: l) ∧ Kept s s' ∧ u = []) := by
  obtain ⟨hd, -⟩ := h.cached hr rfl
  refine .read_bind rfl ?_
  have htype : (s.itable dp).type = (f i).type := by rw [← hd]
  have hsize : (s.itable dp).size = (f i).size := by rw [← hd]
  rw [htype, hsize]
  by_cases hdir : (f i).type ≠ T_DIR
  · rw [if_pos hdir]
    exact .fail ⟨hI, by simp [DoubleFree]⟩
  rw [if_neg hdir]
  have hdir := not_not.1 hdir
  refine (dirlookupFrom_spec (k := 0) h hr hdir hI).mono ?_
  rintro res s2 u2 (⟨rfl, rfl, rfl, hall⟩ | ⟨ip, k, rfl, -, hlt, hm, hfirst, h2, hk2, rfl⟩)
  · exact ⟨hdir, .inl ⟨rfl, rfl, rfl, fun k hk => hall k (Nat.zero_le k) (by omega)⟩⟩
  · exact ⟨hdir, .inr ⟨ip, k, rfl, hlt, hm, fun k' hk' => hfirst k' (Nat.zero_le k') hk',
      h2, hk2, rfl⟩⟩

/-! ## `dirlink` -/

/-- Entry number `k` is the one that `dirlink` takes: the first free one, or
the one behind the last. -/
structure FreeSlot (c : Nat → Block) (d : Dinode) (k : Nat) : Prop where
  le : k ≤ direntCount d.size.toNat
  free : k < direntCount d.size.toNat → (entryAt c d k).inum = 0
  first : ∀ k', k' < k → (entryAt c d k').inum ≠ 0

include h hr in
theorem dirlinkFrom_spec (hI : I []) :
    Spec I DoubleFree (dirlinkFrom dp (16 * k) n) s fun off s' u => s' = s ∧ u = [] ∧
      ∃ k', off = 16 * k' ∧ k ≤ k' ∧ k' ≤ k + n ∧
        (k' < k + n → (entryAt s.cache (f i) k').inum = 0) ∧
        ∀ k'', k ≤ k'' → k'' < k' → (entryAt s.cache (f i) k'').inum ≠ 0 := by
  induction n generalizing k with
  | zero =>
    apply Spec.pure
    exact ⟨rfl, rfl, k, rfl, le_refl k, le_refl k, fun hlt => by omega, fun k'' hlo hhi => by omega⟩
  | succ n ih =>
    rw [dirlinkFrom]
    refine (readi_held h hr).bind ?_
    rintro res s1 u1 ⟨rfl, rfl, hbytes⟩
    by_cases hres : res.1 ≠ 16
    · rw [if_pos hres]
      exact .fail ⟨hI, by simp [DoubleFree]⟩
    rw [if_neg hres]
    have hde : Dirent.decode res.2 = entryAt s1.cache (f i) k := by
      rw [(hbytes (fun _ => rfl) (not_not.1 hres)).1]
      rfl
    rw [hde, show 16 * k + 16 = 16 * (k + 1) by omega]
    by_cases hzero : (entryAt s1.cache (f i) k).inum = 0
    · rw [if_pos hzero]
      apply Spec.pure
      exact ⟨rfl, rfl, k, rfl, le_refl k, by omega, fun _ => hzero, fun k'' hlo hhi => by omega⟩
    rw [if_neg hzero]
    refine ih.mono ?_
    rintro off s2 u2 ⟨rfl, rfl, k', rfl, hlo, hhi, hfree, hfirst⟩
    refine ⟨rfl, rfl, k', rfl, by omega, by omega, fun hlt => hfree (by omega),
      fun k'' hlo' hhi' => ?_⟩
    by_cases hk : k'' = k
    · rwa [hk]
    · exact hfirst k'' (by omega) hhi'

/-- A directory entry does not cross the border of a block. -/
theorem chunk_entry (k : Nat) : chunk (16 * k) 16 = 16 := by
  unfold chunk BSIZE
  omega

theorem Wrote.inner {off tot : Nat} {src : Nat → Option UInt8} {c' : Nat → Block}
    (h : Wrote s f ip i src off n tot s' u c' f') : Inner u := by
  intro e he
  rcases h.plain e he with he | he
  · exact .inl he
  · exact .inr (.inr he)

theorem Wrote.same {off tot : Nat} {src : Nat → Option UInt8} {c' : Nat → Block}
    (h : Wrote s f ip i src off n tot s' u c' f') : Same s s' := by
  rw [h.state]
  exact Same.put

include h hr in
/-- Writing an entry to a directory that is held. -/
theorem writeEntry_spec (hinum : de.inum < s.sb.ninodes) :
    Spec I DoubleFree (writei dp (kernelSrc de.encode) (16 * k) 16) s fun res s' u =>
      (res = -1 ∧ s' = s ∧ u = []) ∨
      ∃ (tot : Nat) (f' : Nat → Dinode), res = tot ∧ (tot = 0 ∨ tot = 16) ∧ Held s' f' l ∧
        Wrote s f dp i (kernelSrc de.encode) (16 * k) 16 tot s' u s'.cache f' := by
  refine (writei_held h hr ?_).mono ?_
  · intro hdir tot s' u c' f' hw k'
    have hold := h.disk.dirs i (h.inum_lt hr) hdir k'
    rcases hw.entryAt de.encode_length (fun _ _ => rfl) k' with hk | ⟨-, hk⟩
    · rwa [hk]
    rw [hk, Dirent.decode_encode_inum]
    exact lt_of_le_of_lt (Nat.mod_le _ _) hinum
  · rintro res s' u (hfail | ⟨tot, f', hres, h', hw⟩)
    · exact .inl hfail
    · exact .inr ⟨tot, f', hres, hw.whole (chunk_entry k), h', hw⟩

/-- What `dirlink` comes to. -/
inductive Linked (l : List Ref) (s : Kernel) (f : Nat → Dinode) (dp i : Nat) (de : Dirent)
    (s' : Kernel) (f' : Nat → Dinode) (u : List Event) : Int → Prop where
  /-- The name is there already. -/
  | exists {k : Nat} (hk : 16 * k + 16 ≤ (f i).size.toNat)
      (hm : Matches s.cache (f i) de.name k) (hw : Walk l s f s' f' u) :
      Linked l s f dp i de s' f' u (-1)
  /-- The directory is as large as it can be. -/
  | large (hs : s' = s) (hf : f' = f) (hu : u = []) : Linked l s f dp i de s' f' u (-1)
  /-- There is no block for the entry. -/
  | full {k : Nat} (hw : Wrote s f dp i (kernelSrc de.encode) (16 * k) 16 0 s' u s'.cache f') :
      Linked l s f dp i de s' f' u (-1)
  /-- The entry is written. -/
  | done {k : Nat} (hslot : FreeSlot s.cache (f i) k)
      (hnone : ∀ k, k < direntCount (f i).size.toNat → ¬ Matches s.cache (f i) de.name k)
      (hw : Wrote s f dp i (kernelSrc de.encode) (16 * k) 16 16 s' u s'.cache f') :
      Linked l s f dp i de s' f' u 0

include h hr in
theorem dirlink_spec (hinum : inum < s.sb.ninodes) (hI : Calm I) :
    Spec I DoubleFree (dirlink p dp name inum) s fun res s' u => (f i).type = T_DIR ∧
      ∃ f', Held s' f' l ∧ Linked l s f dp i ⟨inum, name⟩ s' f' u res := by
  obtain ⟨hd, -⟩ := h.cached hr rfl
  refine (dirlookup_spec h hr hI.nil).bind ?_
  rintro res s1 u1 ⟨hdir, ⟨rfl, rfl, rfl, hnone⟩ | ⟨ip, k, rfl, hk, hm, -, h1, hk1, rfl⟩⟩
  · dsimp only
    refine .read_bind (a := (f i).size.toNat) (by rw [← hd]) ?_
    refine (dirlinkFrom_spec (k := 0) h hr hI.nil).bind ?_
    rintro _ s3 u3 ⟨rfl, rfl, k, rfl, -, hle, hfree, hfirst⟩
    have hslot : FreeSlot s3.cache (f i) k :=
      ⟨by omega, fun hlt => hfree (by omega), fun k' hk' => hfirst k' (Nat.zero_le k') hk'⟩
    refine (writeEntry_spec h hr hinum).bind ?_
    rintro res s4 u4 (⟨rfl, rfl, rfl⟩ | ⟨tot, f', rfl, htot, h4, hw⟩)
    · apply Spec.pure
      exact ⟨hdir, f, h, .large rfl rfl rfl⟩
    apply Spec.pure
    rcases htot with rfl | rfl
    · exact ⟨hdir, f', h4, .full (by simpa using hw)⟩
    · exact ⟨hdir, f', h4, .done hslot hnone (by simpa using hw)⟩
  · dsimp only
    refine (iput_walk h1 hI).bind ?_
    rintro _ s1 u2 ⟨f', h2, hw⟩
    apply Spec.pure
    refine ⟨hdir, f', h2, .exists hk hm ?_⟩
    simpa using hk1.walk.trans hw

theorem Linked.inner {res : Int} (h : Linked l s f dp i de s' f' u res) : Inner u := by
  cases h with
  | «exists» _ _ hw => exact hw.inner
  | large _ _ hu => rw [hu]; exact Inner.nil
  | full hw => exact hw.inner
  | done _ _ hw => exact hw.inner

theorem Linked.same {res : Int} (h : Linked l s f dp i de s' f' u res) : Same s s' := by
  cases h with
  | «exists» _ _ hw => exact hw.toSame
  | large hs _ _ => rw [hs]; exact Same.refl
  | full hw => exact hw.same
  | done _ _ hw => exact hw.same

/-! ## `namex` -/

/-- The name is an element of the path. -/
structure Element (path name : List UInt8) : Prop where
  ne_nil : name ≠ []
  length : name.length ≤ DIRSIZ
  bytes : ∀ b ∈ name, b ∈ path ∧ b ≠ slash

theorem skipelem_element {rest : List UInt8} (h : skipelem path = some (name, rest)) :
    Element path name ∧ rest ⊆ path := by
  unfold skipelem at h
  have hsub : (path.dropWhile (· = slash)) ⊆ path := (dropWhile_sublist _).subset
  have hhead := head?_dropWhile_not (fun b => decide (b = slash)) path
  cases hs : path.dropWhile (· = slash) with
  | nil =>
    rw [hs] at h
    cases h
  | cons x xs =>
    rw [hs] at h hsub hhead
    cases h
    have hx : x ≠ slash := by simpa using hhead
    have htake : (x :: xs).takeWhile (· ≠ slash) = x :: xs.takeWhile (· ≠ slash) := by
      rw [takeWhile_cons_of_pos (by simpa using hx)]
    refine ⟨⟨?_, ?_, ?_⟩, ?_⟩
    · rw [htake]
      simp [DIRSIZ]
    · simp
    · intro b hb
      have hb := mem_of_mem_take hb
      have hne := mem_takeWhile_imp hb
      exact ⟨hsub ((takeWhile_sublist _).subset hb), by simpa using hne⟩
    · intro b hb
      apply hsub
      exact (dropWhile_sublist _).subset ((dropWhile_sublist _).subset hb)

/-- What a walk along `path` comes to: no inode, or an inode that is held,
with the last element if the walk stops at the parent. -/
inductive Reached (parent : Bool) (path : List UInt8) (l : List Ref) (s' : Kernel)
    (f' : Nat → Dinode) : Option Nat × List UInt8 → Prop where
  | none {name : List UInt8} (h : Held s' f' l) : Reached parent path l s' f' (none, name)
  | some {ip inum : Nat} {v : Bool} {name : List UInt8} (h : Held s' f' (⟨ip, inum, v⟩ :: l))
      (hparent : parent = true → v = true ∧ (f' inum).type = T_DIR ∧ Element path name) :
      Reached parent path l s' f' (some ip, name)

theorem namexFrom_spec {parent : Bool} {fuel : Nat} {v : Bool}
    {path0 : List UInt8} (h : Held s f (⟨ip, inum, v⟩ :: l)) (hpath : path ⊆ path0) (hI : Calm I) :
    Spec I DoubleFree (namexFrom p parent fuel ip path name) s fun res s' u => ∃ f',
      Walk l s f s' f' u ∧ Reached parent path0 l s' f' res := by
  induction fuel generalizing s f ip inum v path name I with
  | zero => exact .spin hI.nil
  | succ fuel ih =>
    rw [namexFrom]
    cases hskip : skipelem path with
    | none =>
      by_cases hparent : parent = true
      · rw [if_pos hparent]
        refine (iput_walk h hI).bind ?_
        rintro _ s1 u1 ⟨f', h1, hw⟩
        apply Spec.pure
        exact ⟨f', by simpa using hw, .none h1⟩
      · rw [if_neg hparent]
        apply Spec.pure
        exact ⟨f, Walk.refl, .some h fun hp => absurd hp hparent⟩
    | some next =>
      obtain ⟨name, rest⟩ := next
      obtain ⟨helem, hrest⟩ := skipelem_element hskip
      refine (ilock_spec h hI.nil).bind ?_
      rintro _ s1 u1 ⟨h1, hk1, rfl⟩
      obtain ⟨hd, -⟩ := h1.cached mem_cons_self rfl
      refine .read_bind (a := (f inum).type) (by rw [← hd]) ?_
      by_cases hdir : (f inum).type ≠ T_DIR
      · rw [if_pos hdir]
        refine (iunlockput_walk h1 hI).bind ?_
        rintro _ s3 u3 ⟨f', h3, hw⟩
        apply Spec.pure
        exact ⟨f', by simpa using hk1.walk.trans hw, .none h3⟩
      rw [if_neg hdir]
      by_cases hstop : (parent && rest.isEmpty) = true
      · rw [if_pos hstop]
        refine (iunlock_spec h1 hI.nil).bind ?_
        rintro _ s3 u3 ⟨h3, hk3, rfl⟩
        apply Spec.pure
        refine ⟨f, (hk1.trans hk3).walk, .some h3 fun _ => ⟨rfl, not_not.1 hdir, ?_⟩⟩
        exact ⟨helem.ne_nil, helem.length, fun b hb =>
          ⟨hpath (helem.bytes b hb).1, (helem.bytes b hb).2⟩⟩
      rw [if_neg hstop]
      refine (dirlookup_spec h1 mem_cons_self hI.nil).bind ?_
      rintro _ s3 u3 ⟨-, ⟨rfl, rfl, rfl, -⟩ | ⟨ip', k, rfl, -, -, -, h3, hk3, rfl⟩⟩
      · dsimp only
        refine (iunlockput_walk h1 hI).bind ?_
        rintro _ s4 u4 ⟨f', h4, hw⟩
        apply Spec.pure
        exact ⟨f', by simpa using hk1.walk.trans hw, .none h4⟩
      dsimp only
      refine (iunlockput_walk h3.swap hI).bind ?_
      rintro _ s4 u4 ⟨f', h4, hw⟩
      have hw4 := (hk1.trans hk3).walk.trans (hw.mono (subset_cons_self _ _))
      refine (ih h4 (fun _ hb => hpath (hrest hb)) (hI.after hw.inner)).mono ?_
      rintro res s5 u5 ⟨f'', hw5, hreached⟩
      exact ⟨f'', by simpa using hw4.trans hw5, hreached⟩

/-- `namex` from a process whose current directory is held. -/
theorem namex_spec {parent : Bool} (h : Held s f l)
    (hcwd : ∃ r ∈ l, r.ip = (s.files p).cwd) (hI : Calm I) :
    Spec I DoubleFree (namex p parent path) s fun res s' u => ∃ f',
      Walk l s f s' f' u ∧ Reached parent path l s' f' res := by
  have hstart : Spec I DoubleFree (if path.head? = some slash then iget ROOTINO else do
      let cwd ← Prog.read fun s => (s.files p).cwd
      idup cwd
      pure cwd : FsM Nat) s fun ip s' u =>
        ∃ inum v, Held s' f (⟨ip, inum, v⟩ :: l) ∧ Kept s s' ∧ u = [] := by
    by_cases hroot : path.head? = some slash
    · rw [if_pos hroot]
      refine (iget_spec h hI.nil h.disk.accounts.wf.root).mono ?_
      rintro ip s' u ⟨h', hk, hu⟩
      exact ⟨_, _, h', hk, hu⟩
    rw [if_neg hroot]
    refine .read_bind rfl ?_
    obtain ⟨r, hr, hip⟩ := hcwd
    refine (idup_spec h (hip ▸ h.pos hr)).bind ?_
    rintro _ s2 u2 ⟨h2, hk2, rfl⟩
    apply Spec.pure
    exact ⟨_, _, h2, hk2, rfl⟩
  refine hstart.bind ?_
  rintro ip s u1 ⟨inum, v, h1, hk1, rfl⟩
  refine (namexFrom_spec h1 (List.Subset.refl _) hI).mono ?_
  rintro res s2 u2 ⟨f', hw, hreached⟩
  exact ⟨f', hk1.walk.trans hw, hreached⟩

end Fs

end Xv6
