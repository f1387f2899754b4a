import Xv6.Fs.Syscall
import Xv6.Fs.View

/-!
# Making a file

The specification of `create`, for a program that runs alone.  `create` may
stop at many points, after it has allocated an inode, written the first
entries of a new directory or failed to find a block for the name.  On every
path that returns no inode the files are as they were; on the others there is
one new file, with one new entry in its parent.
-/

namespace Xv6

open Function Lib List

namespace Fs

variable {J : List Nat} {res : Option Nat} {major minor : Int16}

variable {I : List Event → Prop} {s s' s'' : Kernel} {f f' f'' : Nat → Dinode} {l l' : List Ref}
  {r : Ref} {p : Fin NPROC} {u v : List Event}

/-! ## Costs -/

theorem FreeEvents.costs {sb : Superblock} {i k : Nat} (h : FreeEvents sb i u)
    (hi : i ∈ J) : Costs sb J k u := by
  refine ⟨∅, by simp, fun e he => ?_⟩
  rcases h e he with he | ⟨x, hx | hx, he⟩
  · exact .inr (.inl he)
  · exact .inr (.inr ⟨x, he, .inl hx⟩)
  · exact .inr (.inr ⟨x, he, .inr (.inl ⟨i, hi, hx⟩)⟩)

theorem Costs.inode {sb : Superblock} {i k : Nat} (hi : i ∈ J) :
    Costs sb J k [.logWrite (sb.IBLOCK i)] :=
  ⟨∅, by simp, fun _ he => .inr (.inr ⟨_, mem_singleton.1 he, .inr (.inl ⟨i, hi, rfl⟩)⟩)⟩

/-- An entry costs its block, and the indirect block if its block is new. -/
theorem Wrote.costs {ip i k tot : Nat} {src : Nat → Option UInt8} {c' : Nat → Block}
    (h : Wrote s f ip i src (16 * k) 16 tot s' u c' f') (hi : i ∈ J) : Costs s.sb J 2 u := by
  refine ⟨{blockOf c' (f' i) (16 * k / BSIZE), slotAt c' (f' i) .indirect},
    Finset.card_le_two, fun e he => ?_⟩
  rcases h.plain e he with he' | ⟨x, rfl⟩
  · exact .inl he'
  refine .inr (.inr ⟨x, rfl, ?_⟩)
  rcases h.logs x he with hx | ⟨bn, ⟨y, hlo, hhi, rfl⟩, hx⟩
  · exact .inr (.inl ⟨i, hi, hx⟩)
  have hbn : y / BSIZE = 16 * k / BSIZE := by
    unfold BSIZE
    omega
  rw [hbn] at hx
  rcases hx with ⟨-, hx⟩ | ⟨-, hx | ⟨-, -, hx⟩⟩
  · exact .inr (.inr (by simp [hx]))
  · exact .inl hx
  · exact .inr (.inr (by simp [hx]))

theorem Linked.costs {dp i : Nat} {de : Dirent} {res : Int}
    (h : Linked l s f dp i de s' f' u res) (hanch : Anchored s.sb.ninodes f l) (hi : i ∈ J) :
    Costs s.sb J 2 u := by
  cases h with
  | «exists» _ _ hw =>
    have hturns : Turns True J 0 (Fs.view s.sb s.cache f) s f s' f' u := hw.turns fun _ => hanch
    exact (hturns.effect trivial).2.mono (List.Subset.refl _) (by omega)
  | large _ _ hu => rw [hu]; exact Costs.nil
  | full hw => exact hw.costs hi
  | done _ _ hw => exact hw.costs hi

/-! ## Fields -/

/-- An inode whose fields are set in memory. -/
theorem setInode_eq_put {ip : Nat} {d : Dinode} {e : Inode}
    (he : e = { s.itable ip with toDinode := d }) : s.setInode ip e = s.put ip s.cache d := by
  rw [he]
  rfl

/-- Set the link count of an inode, and store it. -/
theorem setNlink_spec {ip inum : Nat} {g : Int16 → Int16} (h : Held s f l)
    (hr : (⟨ip, inum, true⟩ : Ref) ∈ l) :
    Spec I DoubleFree (do setNlink ip g; iupdate ip : FsM Unit) s fun _ s' u =>
      ∃ f', Held s' f' l ∧ ∀ C J, inum ∈ J → Turns C J 0 (update (view s.sb s.cache f) inum
          (some { nodeAt s.cache (f inum) with nlink := g (f inum).nlink })) s f s' f' u := by
  obtain ⟨hd, ht⟩ := h.cached hr rfl
  refine .modify_bind (t := s.put ip s.cache { f inum with nlink := g (f inum).nlink })
    (setInode_eq_put (by rw [← hd])) ?_
  refine (setInfo_spec (d := { f inum with nlink := g (f inum).nlink }) h hr rfl rfl rfl).mono ?_
  rintro _ s2 u2 ⟨f', h2, hreset, rfl⟩
  refine ⟨f', h2, fun C J hJ => ?_⟩
  have hcosts : Costs s.sb J 0 [.logWrite (s.sb.IBLOCK inum)] := Costs.inode hJ
  exact ⟨hreset.toSame, hcosts.inner, fun _ => ⟨hreset.view (h.inum_lt hr) ht rfl, hcosts⟩⟩

/-! ## Undoing -/

/-- The new inode `j` is held by the call only, and everything else by
`l`. -/
structure Fresh (V : Space) (i j : Nat) (l : List Ref) : Prop where
  ne : i ≠ j
  owned : Owned (update V j none) l

section Fresh

variable {V : Space} {i j : Nat}

/-- The new inode itself does not matter to the others. -/
theorem fresh_update {n : Option Node} : Fresh (update V j n) i j l ↔ Fresh V i j l := by
  constructor
  · rintro ⟨hne, howned⟩
    rw [update_idem] at howned
    exact ⟨hne, howned⟩
  rintro ⟨hne, howned⟩
  refine ⟨hne, ?_⟩
  rwa [update_idem]

/-- The call holds the new inode itself. -/
theorem Fresh.anchored {i' : Nat} {n : Node} (h : Fresh V i j l) (ip : Nat)
    (hn : V i' = some n) (hzero : n.nlink = 0) :
    ∃ r ∈ (⟨ip, j, true⟩ :: l : List Ref), r.inum = i' ∧ r.valid = true := by
  by_cases hj : i' = j
  · exact ⟨_, mem_cons_self, hj.symm, rfl⟩
  obtain ⟨r, hr, hri⟩ := h.owned.anchored i' n (by rw [update_of_ne hj, hn]) hzero
  exact ⟨r, mem_cons_of_mem _ hr, hri⟩

theorem Fresh.orphans (h : Fresh (view s.sb s.cache f) i j l) (dp ip : Nat) :
    Anchored s.sb.ninodes f (⟨ip, j, true⟩ :: ⟨dp, i, true⟩ :: l) := by
  have hself := anchored_iff_view.2 fun i' n hn hzero => h.anchored ip hn hzero
  refine hself.mono fun r hr => ?_
  simp only [mem_cons] at hr ⊢
  tauto

end Fresh

/-- What `create` comes to once there is a new inode: it goes away again, or
it is a file `n` with a name in the directory `d`.  `V` are the other
files. -/
inductive Entered (l : List Ref) (V : Space) (i j ip : Nat) (d n : Node) (name : List UInt8)
    (type : Int16) (k : Nat) (s : Kernel) (f : Nat → Dinode) (s' : Kernel) (u : List Event) :
    Option Nat → Prop where
  | none {f' : Nat → Dinode} (h : Held s' f' l)
      (ht : Turns (Fresh V i j l) [i, j] k (update V j none) s f s' f' u) :
      Entered l V i j ip d n name type k s f s' u none
  | some {f' : Nat → Dinode} {m : Nat} (h : Held s' f' (⟨ip, j, true⟩ :: l)) (hroom : d.Room m)
      (hnone : ∀ m, ¬ d.Names name m)
      (ht : Turns (Fresh V i j l ∧ (type = T_DIR → d.nlink ≠ -1)) [i, j] k
        (update (update V j (some n)) i (some (d.enter m ⟨j, name⟩ type)))
        s f s' f' u) :
      Entered l V i j ip d n name type k s f s' u (some ip)

section Steps

variable {V : Space} {dp ip i j k k' : Nat} {d n n' : Node} {name : List UInt8} {type : Int16}

theorem Entered.after {V' : Space} (h : Entered l V i j ip d n name type k' s' f' s'' v res)
    (ht : Turns (Fresh V i j l) [i, j] k V' s f s' f' u) :
    Entered l V i j ip d n name type (k + k') s f s'' (u ++ v) res := by
  cases h with
  | none h' ht' => exact .none h' (ht.trans ht')
  | some h' hroom hnone ht' =>
    exact .some h' hroom hnone ((ht.mono And.left (le_refl k) fun _ => rfl).trans ht')

theorem Entered.mono (h : Entered l V i j ip d n name type k s f s' u res)
    (hk : k ≤ k') : Entered l V i j ip d n name type k' s f s' u res := by
  cases h with
  | none h' ht => exact .none h' (ht.mono id hk fun _ => rfl)
  | some h' hroom hnone ht => exact .some h' hroom hnone (ht.mono id hk fun _ => rfl)

variable (h : Held s f (⟨ip, j, true⟩ :: ⟨dp, i, true⟩ :: l))

include h in
/-- The label `fail`: the new inode goes away. -/
theorem createFail_spec
    (hV : Fresh V i j l → view s.sb s.cache f = update V j (some n')) (hI : Calm I) :
    Spec I DoubleFree (createFail p dp ip) s fun res s' u =>
      Entered l V i j ip d n name type 0 s f s' u res := by
  apply Spec.bind_assoc
  refine (setNlink_spec h mem_cons_self).bind ?_
  rintro _ s1 u1 ⟨f₁, h1, hturns1⟩
  have ht1 := hturns1 (Fresh V i j l) [i, j] (by simp)
  have hI1 := hI.after ht1.inner
  refine (iunlockput_spec h1 hI1).bind ?_
  rintro _ s2 u2 hcases
  have h2 : ∃ f2, Held s2 f2 (⟨dp, i, true⟩ :: l) ∧
      Turns (Fresh V i j l) [i, j] 0 (update V j none) s1 f₁ s2 f2 u2 := by
    rcases hcases with ⟨h2, hk2, rfl, hwhy⟩ | ⟨f2, h2, hfreed, -, hev⟩
    · -- nobody else can hold the new inode, so that it is freed
      refine ⟨f₁, h2, hk2.toSame, Inner.iput, fun hfresh => ?_⟩
      have hnode := congrFun (ht1.effect hfresh).1 j
      rw [update_self] at hnode
      have hnlink : (f₁ j).nlink = 0 :=
        congrArg Node.nlink (h1.node_eq mem_cons_self rfl hnode)
      rcases hwhy with hwhy | hwhy | ⟨r, hr, hrj⟩
      · exact absurd hnlink hwhy
      · cases hwhy
      rcases mem_cons.1 hr with rfl | hr
      · exact absurd hrj hfresh.ne
      have hlive := hfresh.owned.live r hr
      rw [hrj, update_self] at hlive
      exact absurd rfl hlive
    · refine ⟨f2, h2, hfreed.toSame, hev.inner, fun hfresh => ⟨?_, hev.costs (by simp)⟩⟩
      rw [hfreed.view, (ht1.effect hfresh).1, update_idem, hV hfresh, update_idem]
  obtain ⟨f2, h2, ht2⟩ := h2
  refine (iunlockput_walk h2 (hI1.after ht2.inner)).bind ?_
  rintro _ s3 u3 ⟨f3, h3, hw3⟩
  apply Spec.pure
  have ht3 : Turns (Fresh V i j l) [i, j] 0 (view s2.sb s2.cache f2) s2 f2 s3 f3 u3 := by
    apply hw3.turns
    intro hfresh
    apply Owned.orphans
    rw [(ht2.effect hfresh).1]
    exact hfresh.owned
  have hall := ht1.trans (ht2.trans ht3)
  refine .none h3 ?_
  simpa using hall.mono id (le_refl _) fun hfresh => (ht2.effect hfresh).1

/-! ## The name -/

/-- A directory loses all links by a new entry only if the count wraps. -/
theorem Node.nlink_of_enter {de : Dirent} {m : Nat} (h : (d.enter m de type).nlink = 0)
    (hn : type = T_DIR → d.nlink ≠ -1) : d.nlink = 0 := by
  have hzero : (if type = T_DIR then d.nlink + 1 else d.nlink) = 0 := h
  split at hzero
  · rename_i hdir
    refine absurd ?_ (hn hdir)
    rw [← Int16.add_sub_cancel d.nlink 1, hzero]
    rfl
  · exact hzero

/-- The link from a directory to its parent comes or goes. -/
theorem parentLink_spec {g : Int16 → Int16} (h : Held s f l) (hr : (⟨dp, i, true⟩ : Ref) ∈ l) :
    Spec I DoubleFree (if type = T_DIR then do
        setNlink dp g
        iupdate dp
      else
        pure () : FsM Unit) s fun _ s' u =>
      ∃ f', Held s' f' l ∧ ∀ C J, i ∈ J →
        Turns C J 0 (update (view s.sb s.cache f) i (some { nodeAt s.cache (f i) with
          nlink := if type = T_DIR then g (f i).nlink else (f i).nlink })) s f s' f' u := by
  by_cases hdir : type = T_DIR
  · simp only [if_pos hdir]
    exact setNlink_spec h hr
  simp only [if_neg hdir]
  apply Spec.pure
  refine ⟨f, h, fun C J _ => Kept.refl.turns.mono id (le_refl 0) fun _ => ?_⟩
  have hself := update_eq_self i (view s.sb s.cache f)
  rw [view_of_lt (h.inum_lt hr) (h.cached hr rfl).2] at hself
  exact hself.symm

theorem mem_second {r' : Ref} : r ∈ r' :: r :: l := mem_cons_of_mem _ mem_cons_self

include h in
/-- The new inode is entered in its parent, or goes away. -/
theorem createEntry_spec
    (hV : view s.sb s.cache f = update V j (some n)) (hd : nodeAt s.cache (f i) = d) (hI : Calm I) :
    Spec I DoubleFree (createEntry p dp ip name type) s fun res s' u =>
      Entered l V i j ip d n name type 2 s f s' u res := by
  have hi : i < s.sb.ninodes := h.inum_lt mem_second
  have hti : (f i).type ≠ 0 := (h.cached mem_second rfl).2
  have hfresh_iff : Fresh (view s.sb s.cache f) i j l ↔ Fresh V i j l := by rw [hV, fresh_update]
  have hanch := fun hfresh => (hfresh_iff.2 hfresh).orphans dp ip
  refine .read_bind (a := j) (h.holds.inum _ mem_cons_self) ?_
  refine (dirlink_spec h mem_second (h.inum_lt mem_cons_self) hI).bind ?_
  rintro r s2 u2 ⟨-, f2, h2, hlinked⟩
  have hI2 := hI.after hlinked.inner
  rcases hlinked.res_eq with rfl | rfl
  · -- there is no entry, and the inode goes away again
    rw [if_pos (by decide)]
    have ht2 : Turns (Fresh V i j l) [i, j] 2 (view s.sb s.cache f) s f s2 f2 u2 :=
      ⟨hlinked.same, hlinked.inner, fun hfresh => ⟨hlinked.view_of_neg hi hti (hanch hfresh),
        hlinked.costs (hanch hfresh) (by simp)⟩⟩
    exact (createFail_spec h2 (fun hfresh => (ht2.effect hfresh).1.trans hV) hI2).mono
      fun _ _ _ hentered => hentered.after ht2
  rw [if_neg (by decide)]
  obtain ⟨m, hroom, hnone, hview2⟩ := hlinked.view_of_zero hi hti
  have hnode2 := h2.node_eq mem_second rfl (by rw [hview2, update_self])
  rw [hd] at hroom hnone hview2 hnode2
  have ht2 : Turns (Fresh V i j l ∧ (type = T_DIR → d.nlink ≠ -1)) [i, j] 2
      (view s2.sb s2.cache f2) s f s2 f2 u2 :=
    ⟨hlinked.same, hlinked.inner, fun hfresh =>
      ⟨rfl, hlinked.costs (hanch hfresh.1) (by simp)⟩⟩
  refine (parentLink_spec h2 mem_second).bind ?_
  rintro _ s3 u3 ⟨f3, h3, hturns3⟩
  have ht3 := hturns3 (Fresh V i j l ∧ (type = T_DIR → d.nlink ≠ -1)) [i, j] (by simp)
  have hentered : update (view s2.sb s2.cache f2) i (some { nodeAt s2.cache (f2 i) with
        nlink := if type = T_DIR then (f2 i).nlink + 1 else (f2 i).nlink }) =
      update (update V j (some n)) i (some (d.enter m ⟨j, name⟩ type)) := by
    have hnlink : (f2 i).nlink = d.nlink := congrArg Node.nlink hnode2
    rw [hview2, update_idem, hnode2, hnlink, hV]
    rfl
  rw [hentered] at ht3
  refine (iunlockput_walk h3.swap (hI2.after ht3.inner)).bind ?_
  rintro _ s4 u4 ⟨f4, h4, hw4⟩
  apply Spec.pure
  refine .some h4 hroom hnone ?_
  have ht4 : Turns (Fresh V i j l ∧ (type = T_DIR → d.nlink ≠ -1)) [i, j] 0
      (view s3.sb s3.cache f3) s3 f3 s4 f4 u4 := by
    refine hw4.turns fun hfresh => anchored_iff_view.2 fun i' n' hn' hzero => ?_
    rw [(ht3.effect hfresh).1] at hn'
    have hfresh' := (fresh_update (n := some n)).2 hfresh.1
    by_cases hi' : i' = i
    · -- the parent has no links now only if it had none before
      subst hi'
      rw [update_self, Option.some.injEq] at hn'
      have hold : update V j (some n) i' = some d := by rw [← hV, view_of_lt hi hti, hd]
      rw [← hn'] at hzero
      exact hfresh'.anchored ip hold (Node.nlink_of_enter hzero hfresh.2)
    · rw [update_of_ne hi'] at hn'
      exact hfresh'.anchored ip hn' hzero
  have hall := ht2.trans (ht3.trans ht4)
  simpa using hall.mono id (le_refl _) fun hfresh => (ht3.effect hfresh).1

/-! ## The new inode -/

/-- The parent is as it was while only the new inode changes. -/
theorem Held.node_other {r : Ref} {a b : Option Node} (h : Held s f l) (hr : r ∈ l)
    (hv : r.valid = true) (hV : view s.sb s.cache f = update V j a) (h' : Held s' f' l')
    (hr' : r ∈ l') (hV' : view s'.sb s'.cache f' = update V j b) (hne : r.inum ≠ j) :
    nodeAt s.cache (f r.inum) = nodeAt s'.cache (f' r.inum) := by
  apply h.node_eq hr hv
  rw [hV, update_of_ne hne, ← view_of_lt (h'.inum_lt hr') (h'.cached hr' hv).2, hV',
    update_of_ne hne]

include h in
/-- An entry in the new directory. -/
theorem createDot_spec {inum : Nat}
    (hV : view s.sb s.cache f = update V j (some n)) (hinum : inum < s.sb.ninodes) (hI : Calm I) :
    Spec I DoubleFree (dirlink p ip name inum) s fun res s' u => ∃ f',
      Held s' f' (⟨ip, j, true⟩ :: ⟨dp, i, true⟩ :: l) ∧
      ((res = -1 ∧ Turns (Fresh V i j l) [i, j] 2 (view s.sb s.cache f) s f s' f' u) ∨
        (res = 0 ∧ ∃ m, n.Room m ∧ view s'.sb s'.cache f' =
            update V j (some (n.setEntry m ⟨inum, name⟩)) ∧
          Turns (Fresh V i j l) [i, j] 2 (view s'.sb s'.cache f') s f s' f' u)) := by
  have hlt := h.inum_lt mem_cons_self
  have ht := (h.cached mem_cons_self rfl).2
  have hn := h.node_eq mem_cons_self rfl (by rw [hV, update_self])
  have hanch : Fresh V i j l → Anchored s.sb.ninodes f (⟨ip, j, true⟩ :: ⟨dp, i, true⟩ :: l) := by
    intro hfresh
    apply Fresh.orphans
    rw [hV]
    exact fresh_update.2 hfresh
  refine (dirlink_spec h mem_cons_self hinum hI).mono ?_
  rintro res s' u ⟨-, f', h', hlinked⟩
  refine ⟨f', h', ?_⟩
  rcases hlinked.res_eq with rfl | rfl
  · exact .inl ⟨rfl, hlinked.same, hlinked.inner, fun hfresh =>
      ⟨hlinked.view_of_neg hlt ht (hanch hfresh), hlinked.costs (hanch hfresh) (by simp)⟩⟩
  obtain ⟨m, hroom, -, hview⟩ := hlinked.view_of_zero hlt ht
  rw [hn] at hroom hview
  rw [hV, update_idem] at hview
  exact .inr ⟨rfl, m, hroom, hview, hlinked.same, hlinked.inner, fun hfresh =>
    ⟨rfl, hlinked.costs (hanch hfresh) (by simp)⟩⟩

/-- The file that `create` makes: inode `j`, in the directory `i`. -/
def Node.made (i j : Nat) (type major minor : Int16) : Node :=
  if type = T_DIR then
    ((Node.empty type major minor 1).setEntry 0 ⟨j, dot⟩).setEntry 1 ⟨i, dotdot⟩
  else
    Node.empty type major minor 1

include h in
/-- A new directory gets its first two entries, and then its name. -/
theorem createDir_spec (hne : i ≠ j)
    (hj : 0 < j) (hV : view s.sb s.cache f = update V j (some n))
    (hd : nodeAt s.cache (f i) = d) (hsize : n.size = 0) (hI : Calm I) :
    Spec I DoubleFree (do
      let inum ← Prog.read fun s => (s.itable ip).inum
      let r ← dirlink p ip dot inum
      if r < 0 then
        createFail p dp ip
      else
        let parent ← Prog.read fun s => (s.itable dp).inum
        let r ← dirlink p ip dotdot parent
        if r < 0 then
          createFail p dp ip
        else
          createEntry p dp ip name type : FsM (Option Nat)) s fun res s' u =>
      Entered l V i j ip d ((n.setEntry 0 ⟨j, dot⟩).setEntry 1 ⟨i, dotdot⟩) name type 6
        s f s' u res := by
  refine .read_bind (a := j) (h.holds.inum _ mem_cons_self) ?_
  refine (createDot_spec h hV (h.inum_lt mem_cons_self) hI).bind ?_
  rintro r s2 u2 ⟨f2, h2, ⟨rfl, ht2⟩ | ⟨rfl, m, hroom, hV2, ht2⟩⟩
  · rw [if_pos (by decide)]
    exact (createFail_spec h2 (fun hfresh => (ht2.effect hfresh).1.trans hV)
      (hI.after ht2.inner)).mono fun _ _ _ hentered => (hentered.after ht2).mono (by omega)
  rw [if_neg (by decide)]
  -- the directory was empty, so that the entry is its first one
  obtain rfl : m = 0 := by
    have hle := hroom.1
    rw [Node.count, hsize] at hle
    omega
  refine .read_bind (a := i) (h2.holds.inum _ mem_second) ?_
  refine (createDot_spec h2 hV2 (h2.inum_lt mem_second) (hI.after ht2.inner)).bind ?_
  rintro r s4 u4 ⟨f4, h4, ⟨rfl, ht4⟩ | ⟨rfl, m, hroom, hV4, ht4⟩⟩
  · rw [if_pos (by decide)]
    exact (createFail_spec h4 (fun hfresh => (ht4.effect hfresh).1.trans hV2)
      ((hI.after ht2.inner).after ht4.inner)).mono
        fun _ _ _ hentered => ((hentered.after ht4).after ht2).mono (by omega)
  rw [if_neg (by decide)]
  obtain rfl : m = 1 := by
    obtain ⟨hle, hfree⟩ := hroom
    rw [Node.count_setEntry, Node.count, hsize] at hle hfree
    have hlt : j < s.sb.ninodes := h.inum_lt mem_cons_self
    have hushort := h.disk.accounts.wf.ushort
    by_contra hm
    obtain rfl : m = 0 := by omega
    have hzero := hfree (by omega)
    rw [Node.entry_setEntry, if_pos rfl, Dirent.decode_encode_inum] at hzero
    simp only at hzero
    omega
  have hd4 : nodeAt s4.cache (f4 i) = d := by
    rw [← hd]
    exact h4.node_other mem_second rfl hV4 h mem_second hV hne
  exact (createEntry_spec h4 hV4 hd4 ((hI.after ht2.inner).after ht4.inner)).mono
    fun _ _ _ hentered => (hentered.after ht4).after ht2

/-- The new inode is filled and gets a name. -/
theorem createNew_spec
    (h : Held s f (⟨ip, j, false⟩ :: ⟨dp, i, true⟩ :: l)) (hne : i ≠ j) (hj : 0 < j)
    (hV : view s.sb s.cache f = update V j (some n)) (hn : n = Node.empty type 0 0 0)
    (hd : nodeAt s.cache (f i) = d) (hI : Calm I) :
    Spec I DoubleFree (createNew p dp ip name type major minor) s fun res s' u =>
      Entered l V i j ip d (.made i j type major minor) name type 6 s f s' u res := by
  refine (ilock_spec h hI.nil).bind ?_
  rintro _ s1 u1 ⟨h1, hk1, rfl⟩
  obtain ⟨hdisk, ht⟩ := h1.cached mem_cons_self rfl
  refine .modify_bind (t := s1.put ip s1.cache
    { f j with major := major, minor := minor, nlink := 1 })
    (setInode_eq_put (by rw [← hdisk])) ?_
  refine (setInfo_spec (d := { f j with major := major, minor := minor, nlink := 1 }) h1
    mem_cons_self rfl rfl rfl).bind ?_
  rintro _ s2 u2 ⟨f2, h2, hreset, rfl⟩
  have hV1 : view s1.sb s1.cache f = update V j (some n) := by rw [hk1.sb, hk1.cache, hV]
  have hnode : nodeAt s1.cache (f j) = n :=
    h1.node_eq mem_cons_self rfl (by rw [hV1, update_self])
  have hV2 : view s2.sb s2.cache f2 = update V j (some (Node.empty type major minor 1)) := by
    have htype : (f j).type = type := by
      have htype := congrArg Node.type hnode
      rwa [hn] at htype
    rw [hreset.view (h1.inum_lt mem_cons_self) ht rfl, hV1, update_idem, hnode, hn, htype]
    rfl
  have ht2 : Turns (Fresh V i j l) [i, j] 0 (view s2.sb s2.cache f2) s f s2 f2
      [.logWrite (s1.sb.IBLOCK j)] := by
    have hcosts : Costs s.sb [i, j] 0 [.logWrite (s1.sb.IBLOCK j)] := by
      rw [hk1.sb]
      exact Costs.inode (by simp)
    exact ⟨hk1.toSame.trans hreset.toSame, hcosts.inner, fun _ => ⟨rfl, hcosts⟩⟩
  have hd2 : nodeAt s2.cache (f2 i) = d := by
    rw [← hd, ← hk1.cache]
    exact h2.node_other mem_second rfl hV2 h1 mem_second hV1 hne
  have hI2 := hI.after ht2.inner
  by_cases hdir : type = T_DIR
  · rw [if_pos hdir, Node.made, if_pos hdir]
    refine (createDir_spec h2 hne hj hV2 hd2 rfl hI2).mono fun _ _ _ hentered => ?_
    simpa using hentered.after ht2
  rw [if_neg hdir, Node.made, if_neg hdir]
  refine (createEntry_spec h2 hV2 hd2 hI2).mono fun _ _ _ hentered => ?_
  simpa using (hentered.after ht2).mono (by omega)

end Steps

/-! ## `create` -/

/-- A new file, inode `j`, with a name in a directory that did not have the
name. -/
inductive NewFile (path : Path) (type major minor : Int16) (V : Space) : Space → Nat → Prop where
  | mk {i j m : Nat} {d : Node} {name : List UInt8} (hj : 0 < j) (helem : Element path name)
      (hdir : d.type = T_DIR) (hi : V i = some d) (hfree : V j = none) (hroom : d.Room m)
      (hnone : ∀ m, ¬ d.Names name m) (hnlink : type = T_DIR → d.nlink ≠ -1) :
      NewFile path type major minor V (update (update V j (some (.made i j type major minor))) i
          (some (d.enter m ⟨j, name⟩ type))) j

/-- A file or device, inode `j`, that has a name in a directory. -/
inductive OldFile (path : Path) (V : Space) (j : Nat) : Prop where
  | mk {i m : Nat} {d n : Node} {name : List UInt8} (helem : Element path name)
      (hdir : d.type = T_DIR) (hi : V i = some d) (hname : d.Names name m)
      (hm : (d.entry m).inum = j) (hj : V j = some n) (ht : n.type = T_FILE ∨ n.type = T_DEVICE) :
      OldFile path V j

/-- No link count is one below zero. -/
def Sane (V : Space) : Prop := ∀ i n, V i = some n → n.nlink ≠ -1

/-- What `create` comes to: no inode, a file that was there before, or a new
file with a new name. -/
inductive Created (l : List Ref) (path : Path) (type major minor : Int16) (V : Space) (s : Kernel)
    (f : Nat → Dinode) (s' : Kernel) (u : List Event) : Option Nat → Prop where
  | none {f' : Nat → Dinode} {i j : Nat} (h : Held s' f' l)
      (ht : Turns (Owned V l) [i, j] 6 V s f s' f' u) :
      Created l path type major minor V s f s' u none
  | old {f' : Nat → Dinode} {ip i j : Nat} (h : Held s' f' (⟨ip, j, true⟩ :: l))
      (hfile : type = T_FILE) (hold : Owned V l → OldFile path V j)
      (ht : Turns (Owned V l) [i, j] 6 V s f s' f' u) :
      Created l path type major minor V s f s' u (some ip)
  | new {f' : Nat → Dinode} {ip i j : Nat} {V' : Space} (h : Held s' f' (⟨ip, j, true⟩ :: l))
      (hnew : Owned V l ∧ (type = T_DIR → Sane V) → NewFile path type major minor V V' j)
      (ht : Turns (Owned V l ∧ (type = T_DIR → Sane V)) [i, j] 6 V' s f s' f' u) :
      Created l path type major minor V s f s' u (some ip)

theorem Owned.fresh {V : Space} {i j : Nat} (h : Owned V l) (hj : V j = none) (hne : i ≠ j) :
    Fresh V i j l := by
  refine ⟨hne, ?_⟩
  rwa [← hj, update_eq_self]

/-- A new inode, after a walk that has found its parent. -/
theorem created_of_entered {path : Path} {type : Int16} {V : Space} {ip i j : Nat}
    {d : Node} {name : List UInt8} {w : List Event}
    (h : Entered l (view s'.sb s'.cache f') i j ip d (.made i j type major minor) name type 6
      s'' f'' s3 v res) (hwalk : Turns (Owned V l) [i, j] 0 V s f s' f' u)
    (halloc : Turns (Owned V l) [i, j] 0 (view s''.sb s''.cache f'') s' f' s'' f'' w)
    (hfree : view s'.sb s'.cache f' j = none) (hd : view s'.sb s'.cache f' i = some d)
    (hj : 0 < j) (helem : Element path name) (hdir : d.type = T_DIR) :
    Created l path type major minor V s f s3 (u ++ (w ++ v)) res := by
  have hview := fun howned => (hwalk.effect howned).1
  have hne : i ≠ j := by
    rintro rfl
    rw [hfree] at hd
    cases hd
  have hfresh : Owned V l → Fresh (view s'.sb s'.cache f') i j l := by
    intro howned
    rw [← hview howned] at howned
    exact howned.fresh hfree hne
  cases h with
  | none h3 ht =>
    refine .none h3 (hwalk.trans (halloc.trans (ht.mono hfresh (le_refl 6) fun howned => ?_)))
    rw [← hfree, update_eq_self, hview howned]
  | some h3 hroom hnone ht =>
    have hold : Owned V l → V i = some d ∧ V j = none := by
      intro howned
      rw [← hview howned]
      exact ⟨hd, hfree⟩
    have hbefore : Turns (Owned V l ∧ (type = T_DIR → Sane V)) [i, j] 0
        (view s''.sb s''.cache f'') s f s'' f'' (u ++ w) :=
      (hwalk.trans halloc).mono And.left (le_refl 0) fun _ => rfl
    have hall := hbefore.trans (ht.mono
      (fun hC => ⟨hfresh hC.1, fun htype => hC.2 htype i d (hold hC.1).1⟩) (le_refl 6)
      fun hC => by rw [hview hC.1])
    rw [append_assoc] at hall
    refine .new h3 (fun hC => ?_) hall
    obtain ⟨hi, hj'⟩ := hold hC.1
    exact .mk hj helem hdir hi hj' hroom hnone fun htype => hC.2 htype i d hi

theorem create_spec {path : Path} {type : Int16} (h : Held s f l)
    (hcwd : ∃ r ∈ l, r.ip = (s.files p).cwd) (hI : Calm I) :
    Spec I DoubleFree (create p path type major minor) s fun res s' u =>
      Created l path type major minor (view s.sb s.cache f) s f s' u res := by
  -- a call that only looks around changes no file
  have hlook : ∀ {s' f' u i j}, Walk l s f s' f' u →
      Turns (Owned (view s.sb s.cache f) l) [i, j] 6 (view s.sb s.cache f) s f s' f' u :=
    fun hw => (hw.turns Owned.orphans).mono id (by omega) fun _ => rfl
  refine (namex_spec h hcwd hI).bind ?_
  rintro ⟨res, name⟩ s1 u1 ⟨f₁, hw1, hreached⟩
  have hI1 := hI.after hw1.inner
  cases hreached with
  | none h1 =>
    apply Spec.pure
    exact .none (i := 0) (j := 0) h1 (by simpa using hlook hw1)
  | @some dp i v _ h1 hparent =>
    obtain ⟨rfl, hdir, helem⟩ := hparent rfl
    refine (ilock_spec h1 hI1.nil).bind ?_
    rintro _ s2 u2 ⟨h2, hk2, rfl⟩
    have hw2 : Walk l s f s2 f₁ u1 := by simpa using hw1.trans hk2.walk
    refine (dirlookup_spec h2 mem_cons_self hI1.nil).bind ?_
    rintro _ s3 u3 ⟨-, ⟨rfl, rfl, rfl, hnone⟩ | ⟨ip, k, rfl, hsize, hm, -, h3, hk3, rfl⟩⟩
    · -- the name is new
      refine (ialloc_spec h2 hI1).bind ?_
      rintro _ s4 u4 (⟨rfl, rfl, rfl, -⟩ | ⟨ip, j, f4, rfl, h4, halloc, rfl⟩)
      · dsimp only
        refine (iunlockput_walk h2 hI1).bind ?_
        rintro _ s5 u5 ⟨f5, h5, hw5⟩
        apply Spec.pure
        exact .none (i := 0) (j := 0) h5 (by simpa using hlook (hw2.trans hw5))
      dsimp only
      have hdp : (⟨dp, i, true⟩ : Ref) ∈ (⟨dp, i, true⟩ :: l : List Ref) := mem_cons_self
      have hlt := h2.inum_lt hdp
      have hti := (h2.cached hdp rfl).2
      have hfree : view s3.sb s3.cache f₁ j = none := view_eq_none halloc.free
      have hd : view s3.sb s3.cache f₁ i = some (nodeAt s3.cache (f₁ i)) := view_of_lt hlt hti
      have hne : i ≠ j := by
        rintro rfl
        exact hti halloc.free
      have hcosts : Costs s3.sb [i, j] 0 [.logWrite (s3.sb.IBLOCK j)] := Costs.inode (by simp)
      by_cases ht : type = 0
      · -- an inode without a type cannot be locked
        refine (ilock_spec h4 (hI1.after hcosts.inner).nil).bind ?_
        rintro _ s5 u5 ⟨h5, -⟩
        have htype := (h5.cached mem_cons_self rfl).2
        rw [halloc.inode] at htype
        exact absurd ht htype
      have hV := halloc.view ht
      have hd4 : nodeAt s4.cache (f4 i) = nodeAt s3.cache (f₁ i) :=
        h4.node_other (mem_cons_of_mem _ hdp) rfl hV h2 hdp (update_eq_self j _).symm hne
      refine (createNew_spec h4 hne halloc.pos hV rfl hd4 (hI1.after hcosts.inner)).mono
        fun _ _ _ hentered => ?_
      have hw := hw2.turns (J := [i, j]) (fun howned => Owned.orphans howned)
      have hcreated := created_of_entered hentered hw
        ⟨halloc.toSame, hcosts.inner, fun _ => ⟨rfl, hcosts⟩⟩ hfree hd halloc.pos helem hdir
      simpa using hcreated
    · -- the name is there already
      refine (iunlockput_walk h3.swap hI1).bind ?_
      rintro _ s4 u4 ⟨f4, h4, hw4⟩
      have hI4 := hI1.after hw4.inner
      have hw4 : Walk l s f s4 f4 (u1 ++ u4) :=
        (hw2.after_kept hk3).trans (hw4.mono (subset_cons_self _ _))
      refine (ilock_spec h4 hI4.nil).bind ?_
      rintro _ s5 u5 ⟨h5, hk5, rfl⟩
      have hw5 : Walk l s f s5 f4 (u1 ++ u4) := hw4.after_kept hk5
      obtain ⟨hd, -⟩ := h5.cached mem_cons_self rfl
      refine .read_bind (a := (f4 _).type) (by rw [← hd]) ?_
      by_cases hok : type = T_FILE ∧ ((f4 (entryAt s2.cache (f₁ i) k).inum).type = T_FILE ∨
          (f4 (entryAt s2.cache (f₁ i) k).inum).type = T_DEVICE)
      · rw [if_pos hok]
        apply Spec.pure
        refine .old (i := 0) h5 hok.1 (fun howned => ?_) (by simpa using hlook hw5)
        have hk : k < (nodeAt s2.cache (f₁ i)).count := by
          show k < (f₁ i).size.toNat / 16
          omega
        have hentry := nodeAt_entry hk
        have hV2 := ((hlook (i := 0) (j := 0) hw2).effect howned).1
        have hV5 := ((hlook (i := 0) (j := 0) hw5).effect howned).1
        have hi := view_of_lt (c := s2.cache) (h2.inum_lt mem_cons_self)
          (h2.cached mem_cons_self rfl).2
        have hj := view_of_lt (c := s5.cache) (h5.inum_lt mem_cons_self)
          (h5.cached mem_cons_self rfl).2
        rw [hV2] at hi
        rw [hV5] at hj
        exact .mk helem hdir hi ⟨hk, by rw [hentry]; exact hm⟩ (by rw [hentry]) hj hok.2
      rw [if_neg hok]
      refine (iunlockput_walk h5 hI4).bind ?_
      rintro _ s7 u7 ⟨f7, h7, hw7⟩
      apply Spec.pure
      exact .none (i := 0) (j := 0) h7 (by simpa using hlook (hw5.trans hw7))

end Fs

end Xv6
