import Xv6.Fs.Syscall
import Xv6.Lib.Family
import Xv6.Lib.Run

/-!
# Every `iput` in a transaction

`iput` may have to free an inode, and then it writes to the log; the log
panics if no operation is open.  So every `iput` must stand between a
`begin_op` and an `end_op` of the same process.

The order of the events of a program is checked by an automaton that counts
the open operations of the process.  Every system call except
`sys_getfilesize` obeys it, whatever other processes do between two of its
steps: `sys_getfilesize` looks a path up and drops the inode without opening
an operation.  Reading a file allocates no block as long as it meets no
hole, which is the one other way to `log_write` outside an operation.
-/

namespace Xv6

open Lib

namespace Fs

/-! ## The automaton -/

/-- The number of open operations before and after an event.  Outside an
operation `iput` and `log_write` are forbidden, and nothing is claimed about
a program that has met a hole. -/
def opRule (d : Nat) : Event → Verdict Nat
  | .beginOp => .go (d + 1)
  | .endOp => if 0 < d then .go (d - 1) else .forbid
  | .commit => .go d
  | .logWrite _ => if 0 < d then .go d else .forbid
  | .iput => if 0 < d then .go d else .forbid
  | .hole => if 0 < d then .go d else .ignore

variable {α β : Type}

/-- A program that is in order in and outside an operation, and leaves the
count as it is. -/
def Anywhere (m : FsM α) : Prop := ∀ d, m.Typed opRule (fun _ d' => d' = d) d

/-- A program that is in order inside an operation, and leaves the count as
it is. -/
def Inside (m : FsM α) : Prop := ∀ d, 0 < d → m.Typed opRule (fun _ d' => d' = d) d

/-- A program that is in order inside an operation, and ends it. -/
def Closes (m : FsM α) : Prop := ∀ d, m.Typed opRule (fun _ d' => d' = d) (d + 1)

variable {m : FsM α}

theorem Anywhere.inside (h : Anywhere m) : Inside m := fun d _ => h d

theorem Anywhere.pure (a : α) : Anywhere (Pure.pure a) := fun _ => rfl

theorem Anywhere.spin : Anywhere (.spin : FsM α) := fun _ => trivial

variable {f : α → FsM β}

theorem Anywhere.bind (hm : Anywhere m) (hf : ∀ a, Anywhere (f a)) : Anywhere (m >>= f) := by
  intro d
  apply (hm d).bind
  intro a d' hd
  rw [hd]
  exact hf a d

theorem Inside.pure (a : α) : Inside (Pure.pure a) := (Anywhere.pure a).inside

theorem Inside.bind (hm : Inside m) (hf : ∀ a, Inside (f a)) : Inside (m >>= f) := by
  intro d hd
  apply (hm d hd).bind
  intro a d' heq
  rw [heq]
  exact hf a d hd

/-- Work inside an operation, and then its end. -/
theorem Closes.bind (hm : Inside m) (hf : ∀ a, Closes (f a)) : Closes (m >>= f) := by
  intro d
  apply (hm (d + 1) (Nat.succ_pos d)).bind
  intro a d' heq
  rw [heq]
  exact hf a d

theorem Inside.closes {m : FsM Unit} {f : FsM β} (hm : Inside m) (hf : Closes f) :
    Closes (m >>= fun _ => f) := Closes.bind hm fun _ => hf

/-- The end of an operation, and then what can stand anywhere. -/
theorem Closes.andThen (hm : Closes m) (hf : ∀ a, Anywhere (f a)) : Closes (m >>= f) := by
  intro d
  apply (hm d).bind
  intro a d' heq
  rw [heq]
  exact hf a d

section

variable {c : Prop} [Decidable c] {m' : FsM α}

theorem Anywhere.ite (h : Anywhere m) (h' : Anywhere m') : Anywhere (if c then m else m') := by
  split
  · exact h
  · exact h'

theorem Inside.ite (h : Inside m) (h' : Inside m') : Inside (if c then m else m') := by
  split
  · exact h
  · exact h'

theorem Closes.ite (h : Closes m) (h' : Closes m') : Closes (if c then m else m') := by
  split
  · exact h
  · exact h'

end

/-- A whole operation. -/
theorem Anywhere.operation {f : Unit → FsM β} (hf : Closes (f ())) : Anywhere (beginOp >>= f) := by
  intro d
  refine .bind (P := fun _ d' => d' = d + 1) ?_ ?_
  · exact .act fun _ => rfl
  intro _ d' heq
  rw [heq]
  exact hf d

/-- An action that shows no event. -/
theorem Anywhere.act {f : Kernel → Prog.Act Kernel Panic Event α}
    (h : ∀ s, (f s).event = none) : Anywhere (Prog.act f) := by
  intro d
  apply Prog.Typed.act
  intro s
  have hs := h s
  cases hf : f s with
  | done a s' e =>
    rw [hf] at hs
    cases hs
    rfl
  | block | panic => trivial

theorem Anywhere.read (f : Kernel → α) : Anywhere (Prog.read f) := Anywhere.act fun _ => rfl

theorem Anywhere.modify (f : Kernel → Kernel) : Anywhere (Prog.modify f) :=
  Anywhere.act fun _ => rfl

theorem Anywhere.fail (e : Panic) : Anywhere (Prog.fail e : FsM α) := Anywhere.act fun _ => rfl

theorem Inside.read {f : Kernel → α} {m : α → FsM β} (hm : ∀ a, Inside (m a)) :
    Inside (Prog.read f >>= m) := (Anywhere.read f).inside.bind hm

theorem Inside.modify {f : Kernel → Kernel} {m : Unit → FsM β} (hm : ∀ a, Inside (m a)) :
    Inside (Prog.modify f >>= m) := (Anywhere.modify f).inside.bind hm

theorem Closes.read {f : Kernel → α} {m : α → FsM β} (hm : ∀ a, Closes (m a)) :
    Closes (Prog.read f >>= m) := .bind (Anywhere.read f).inside hm

/-- An action that neither opens nor closes an operation. -/
theorem Inside.act {f : Kernel → Prog.Act Kernel Panic Event α}
    (h : ∀ s e, (f s).event = some e → e ≠ .beginOp ∧ e ≠ .endOp) : Inside (Prog.act f) := by
  intro d hd
  apply Prog.Typed.act
  intro s
  have hs := h s
  cases hf : f s with
  | done a s' e =>
    rw [hf] at hs
    cases e with
    | none => rfl
    | some e =>
      have he := hs e rfl
      cases e with
      | beginOp => exact absurd rfl he.1
      | endOp => exact absurd rfl he.2
      | commit => rfl
      | logWrite | iput | hole => simp [opRule, hd]
  | block | panic => trivial

theorem closes_fail (e : Panic) : Closes (Prog.fail e : FsM α) := by
  intro d
  exact .act fun _ => trivial

theorem endOp_closes : Closes endOp := by
  intro d
  refine .bind (P := fun _ d' => d' = d) ?_ ?_
  · exact .act fun _ => by simp [opRule]
  intro _ d' heq
  rw [heq]
  exact .act fun _ => rfl

/-! ## Blocks and inodes -/

theorem balloc_inside : Inside balloc := by
  have hin : ∀ b, Inside (ballocIn b) := by
    intro b
    refine .act fun s e he => ?_
    simp only at he
    split at he
    · cases he
      simp
    · cases he
  have hzero : ∀ b, Inside (bzero b) := by
    intro b
    refine .act fun s e he => ?_
    cases he
    simp
  have hfrom : ∀ n b, Inside (ballocFrom b n) := by
    intro n
    induction n with
    | zero => exact fun _ => .pure 0
    | succ n ih =>
      intro b
      rw [ballocFrom]
      refine (hin b).bind fun r => ?_
      cases r with
      | none => exact ih _
      | some blk => exact (hzero blk).bind fun _ => .pure _
  exact .read fun sb => hfrom _ _

theorem bfree_inside (b : Nat) : Inside (bfree b) := by
  refine .act fun s e he => ?_
  simp only at he
  split at he
  · cases he
    simp
  · cases he

variable (ip : Nat)

theorem iupdate_inside : Inside (iupdate ip) := by
  refine .act fun s e he => ?_
  cases he
  simp

theorem iget_anywhere (inum : Nat) : Anywhere (iget inum) := by
  refine .act fun s => ?_
  split
  · rfl
  · split <;> rfl

theorem ilock_anywhere (p : Fin NPROC) (ip : Nat) : Anywhere (ilock p ip) := by
  refine .act fun s => ?_
  simp only
  split
  · rfl
  split
  · rfl
  split
  · rfl
  · split <;> rfl

theorem iunlock_anywhere (p : Fin NPROC) (ip : Nat) : Anywhere (iunlock p ip) := by
  refine .act fun s => ?_
  simp only
  split <;> rfl

theorem ialloc_inside (type : Int16) : Inside (ialloc type) := by
  have hfrom : ∀ n inum, Inside (iallocFrom type inum n) := by
    intro n
    induction n with
    | zero => exact fun _ => .pure none
    | succ n ih =>
      intro inum
      rw [iallocFrom]
      refine .bind ?_ fun free => ?_
      · refine .act fun s e he => ?_
        simp only at he
        split at he
        · cases he
          simp
        · cases he
      · exact .ite (.pure _) (ih _)
  refine .read fun sb => (hfrom _ _).bind fun r => ?_
  cases r with
  | none => exact .pure none
  | some inum => exact (iget_anywhere inum).inside.bind fun ip => .pure _

/-- Looking for a block number: outside an operation, one that is missing is
a hole. -/
theorem look_typed (f : Kernel → UInt32) (d : Nat) :
    (Prog.act fun s => .done (f s).toNat s (if f s = 0 then some .hole else none) :
      FsM Nat).Typed opRule (fun addr d' => d' = d ∧ (0 < d ∨ addr ≠ 0)) d := by
  apply Prog.Typed.act
  intro s
  by_cases hzero : f s = 0
  · by_cases hd : 0 < d <;> simp [hzero, opRule, hd]
  have hne : (f s).toNat ≠ 0 := fun h => hzero (UInt32.toNat_inj.1 h)
  simp [hzero, hne]

/-- A program that goes on to allocate only if a block number is missing. -/
theorem Anywhere.look {f : Kernel → UInt32} {m : Nat → FsM α} (hm : ∀ addr, Inside (m addr))
    (hne : ∀ addr, addr ≠ 0 → Anywhere (m addr)) : Anywhere ((Prog.act fun s =>
      .done (f s).toNat s (if f s = 0 then some .hole else none)) >>= m) := by
  intro d
  apply (look_typed f d).bind
  intro addr d' h
  obtain ⟨rfl, hd | haddr⟩ := h
  · exact hm addr d' hd
  · exact hne addr haddr d'

theorem bmapAddr_anywhere (j : Fin (NDIRECT + 1)) : Anywhere (bmapAddr ip j) := by
  refine .look (fun addr => ?_) (fun addr haddr => ?_)
  · refine .ite ?_ (.pure _)
    refine balloc_inside.bind fun blk => ?_
    exact .ite (.pure 0) (.modify fun _ => .pure _)
  · rw [if_neg haddr]
    exact .pure _

theorem bmapEntry_anywhere (ind j : Nat) : Anywhere (bmapEntry ind j) := by
  refine .look (fun addr => ?_) (fun addr haddr => ?_)
  · refine .ite ?_ (.pure _)
    refine balloc_inside.bind fun blk => ?_
    refine .ite (.pure 0) ?_
    refine .bind ?_ fun _ => .pure _
    refine .act fun s e he => ?_
    cases he
    simp
  · rw [if_neg haddr]
    exact .pure _

theorem bmap_anywhere (ip bn : Nat) : Anywhere (bmap ip bn) := by
  unfold bmap
  split
  · exact bmapAddr_anywhere _ _
  refine .ite ?_ (.fail _)
  refine (bmapAddr_anywhere _ _).bind fun ind => ?_
  exact .ite (.pure 0) (bmapEntry_anywhere _ _)

theorem itrunc_inside : Inside (itrunc ip) := by
  have hdirect : ∀ js, Inside (itruncDirect ip js) := by
    intro js
    induction js with
    | nil => exact .pure ()
    | cons j js ih =>
      refine .bind ?_ fun _ => ih
      refine .read fun addr => ?_
      exact .ite ((bfree_inside _).bind fun _ => (Anywhere.modify _).inside) (.pure ())
  have hentries : ∀ bp js, Inside (itruncEntries bp js) := by
    intro bp js
    induction js with
    | nil => exact .pure ()
    | cons j js ih =>
      refine .bind ?_ fun _ => ih
      exact .ite (bfree_inside _) (.pure ())
  refine (hdirect _).bind fun _ => .bind ?_ fun _ =>
    .modify fun _ => iupdate_inside ip
  refine .read fun ind => ?_
  refine .ite ?_ (.pure ())
  exact .read fun bp => (hentries _ _).bind fun _ =>
    (bfree_inside _).bind fun _ => (Anywhere.modify _).inside

theorem iput_inside (p : Fin NPROC) (ip : Nat) : Inside (iput p ip) := by
  refine .bind ?_ fun last => ?_
  · refine .act fun s e he => ?_
    simp only at he
    split at he
    · split at he
      · cases he
      cases he
      simp
    · cases he
      simp
  · refine .ite ?_ (.pure ())
    exact (itrunc_inside ip).bind fun _ => .modify fun _ =>
      (iupdate_inside ip).bind fun _ => .modify fun _ =>
      (Anywhere.modify _).inside

theorem iunlockput_inside (p : Fin NPROC) (ip : Nat) : Inside (iunlockput p ip) :=
  (iunlock_anywhere p ip).inside.bind fun _ => iput_inside p ip

theorem readi_anywhere (dst : Nat → Bool) (off n : Nat) : Anywhere (readi ip dst off n) := by
  have hfrom : ∀ fuel tot off n, Anywhere (readiFrom ip dst fuel tot off n) := by
    intro fuel
    induction fuel with
    | zero => exact fun _ _ _ => .pure _
    | succ fuel ih =>
      intro tot off n
      rw [readiFrom]
      refine .ite (.pure _) ?_
      refine (bmap_anywhere _ _).bind fun addr => ?_
      refine .ite (.pure _) ?_
      refine (Anywhere.read _).bind fun bytes => ?_
      exact .ite ((ih _ _ _).bind fun r => .pure _) (.pure _)
  refine (Anywhere.read _).bind fun size => ?_
  exact .ite (.pure _) ((hfrom _ _ _ _).bind fun r => .pure _)

theorem writei_inside (src : Nat → Option UInt8) (off n : Nat) : Inside (writei ip src off n) := by
  have hfrom : ∀ fuel tot off n, Inside (writeiFrom ip src fuel tot off n) := by
    intro fuel
    induction fuel with
    | zero => exact fun _ _ _ => .pure _
    | succ fuel ih =>
      intro tot off n
      rw [writeiFrom]
      refine .ite (.pure _) ?_
      refine (bmap_anywhere _ _).inside.bind fun addr => ?_
      refine .ite (.pure _) ?_
      refine .bind ?_ fun _ => ?_
      · refine .act fun s e he => ?_
        simp only [Prog.Act.event] at he
        split at he
        · cases he
          simp
        · cases he
      · exact .ite (ih _ _ _) (.pure _)
  refine .read fun size => ?_
  refine .ite (.pure _) ?_
  split
  · exact .pure _
  exact (hfrom _ _ _ _).bind fun tot => .modify fun _ =>
    (iupdate_inside ip).bind fun _ => .pure _

/-! ## Directories and paths -/

theorem dirlookup_anywhere (dp : Nat) (name : List UInt8) : Anywhere (dirlookup dp name) := by
  have hfrom : ∀ n off, Anywhere (dirlookupFrom dp name off n) := by
    intro n
    induction n with
    | zero => exact fun _ => .pure none
    | succ n ih =>
      intro off
      rw [dirlookupFrom]
      refine (readi_anywhere _ _ _ _).bind fun r => ?_
      refine .ite (.fail _) ?_
      simp only
      split
      · exact ih _
      · exact .ite ((iget_anywhere _).bind fun ip => .pure _) (ih _)
  refine (Anywhere.read _).bind fun i => ?_
  split
  · exact .fail _
  · exact hfrom _ _

theorem dirlink_inside (p : Fin NPROC) (dp : Nat) (name : List UInt8) (inum : Nat) :
    Inside (dirlink p dp name inum) := by
  have hfrom : ∀ n off, Anywhere (dirlinkFrom dp off n) := by
    intro n
    induction n with
    | zero => exact fun _ => .pure _
    | succ n ih =>
      intro off
      rw [dirlinkFrom]
      refine (readi_anywhere _ _ _ _).bind fun r => ?_
      split
      · exact .fail _
      · exact .ite (.pure _) (ih _)
  refine (dirlookup_anywhere dp name).inside.bind fun found => ?_
  split
  · exact (iput_inside p _).bind fun _ => .pure _
  exact .read fun size => (hfrom _ _).inside.bind fun off =>
    (writei_inside _ _ _ _).bind fun r => .pure _

theorem namex_inside (p : Fin NPROC) (parent : Bool) (path : Path) :
    Inside (namex p parent path) := by
  have hfrom : ∀ fuel ip path name, Inside (namexFrom p parent fuel ip path name) := by
    intro fuel
    induction fuel with
    | zero => exact fun _ _ _ => Anywhere.spin.inside
    | succ fuel ih =>
      intro ip path name
      rw [namexFrom]
      split
      · exact .ite ((iput_inside p ip).bind fun _ => .pure _) (.pure _)
      refine (ilock_anywhere p ip).inside.bind fun _ =>
        .read fun type => ?_
      refine .ite ((iunlockput_inside p ip).bind fun _ => .pure _) ?_
      refine .ite ((iunlock_anywhere p ip).inside.bind fun _ => .pure _) ?_
      refine (dirlookup_anywhere _ _).inside.bind fun next => ?_
      split
      · exact (iunlockput_inside p ip).bind fun _ => .pure _
      · exact (iunlockput_inside p ip).bind fun _ => ih _ _ _
  refine .bind ?_ fun ip => hfrom _ _ _ _
  split
  · exact (iget_anywhere _).inside
  exact .read fun cwd => .modify fun _ =>
    Inside.pure _

theorem namei_inside (p : Fin NPROC) (path : Path) : Inside (namei p path) :=
  (namex_inside p false path).bind fun _ => .pure _

/-! ## System calls -/

theorem setNlink_anywhere (f : Int16 → Int16) : Anywhere (setNlink ip f) :=
  Anywhere.modify _

/-- The end of an operation with a result. -/
theorem endOp_pure_closes (r : α) : Closes (endOp >>= fun _ => pure r) :=
  endOp_closes.andThen fun _ => .pure r

theorem argfd_anywhere (p : Fin NPROC) (fd : Int) : Anywhere (argfd p fd) := Anywhere.read _

theorem fdalloc_anywhere (p : Fin NPROC) (f : Fin NFILE) : Anywhere (fdalloc p f) := by
  refine .act fun s => ?_
  split <;> rfl

theorem filealloc_anywhere : Anywhere filealloc := by
  refine .act fun s => ?_
  split <;> rfl

theorem fileclose_anywhere (p : Fin NPROC) (f : Fin NFILE) : Anywhere (fileclose p f) := by
  refine .bind ?_ fun ff => ?_
  · refine .act fun s => ?_
    split <;> rfl
  cases ff with
  | none => exact .pure _
  | some ff =>
    simp only
    exact .ite (.operation ((iput_inside p ff.ip).closes endOp_closes)) (.pure _)

theorem filestat_anywhere (p : Fin NPROC) (f : Fin NFILE) (ok : Bool) :
    Anywhere (filestat p f ok) := by
  refine (Anywhere.read _).bind fun file => ?_
  refine .ite ?_ (.pure _)
  exact (ilock_anywhere _ _).bind fun _ => (iunlock_anywhere _ _).bind fun _ =>
    Anywhere.pure _

theorem fileread_anywhere (p : Fin NPROC) (f : Fin NFILE) (dst : Nat → Bool) (n other : Int) :
    Anywhere (fileread p f dst n other) := by
  refine (Anywhere.read _).bind fun file => ?_
  refine .ite (.pure _) ?_
  split
  · exact .pure _
  · exact .pure _
  · exact (ilock_anywhere _ _).bind fun _ => (Anywhere.read _).bind fun off =>
      (readi_anywhere _ _ _ _).bind fun r => (Anywhere.modify _).bind fun _ =>
      (iunlock_anywhere _ _).bind fun _ => .pure _
  · exact (Anywhere.read _).bind fun ok => .pure _
  · exact .fail _

theorem filewriteFrom_inside (f : Fin NFILE) (ip : Nat) (src : Nat → Option UInt8) (n : Nat) :
    ∀ rounds i, Inside (filewriteFrom f ip src n rounds i) := by
  intro rounds
  induction rounds with
  | zero =>
    intro i
    rw [filewriteFrom]
    exact .ite Anywhere.spin.inside (.pure _)
  | succ rounds ih =>
    intro i
    rw [filewriteFrom]
    refine .ite ?_ (.pure _)
    refine .read fun off => (writei_inside _ _ _ _).bind fun r => ?_
    exact .ite (.pure _) (.modify fun _ => ih _)

section

variable (p : Fin NPROC)

include p

theorem filewrite_anywhere (f : Fin NFILE) (src : Nat → Option UInt8)
    (n other : Int) (rounds : Nat) : Anywhere (filewrite p f src n other rounds) := by
  refine (Anywhere.read _).bind fun file => ?_
  refine .ite (.pure _) ?_
  split
  · exact .pure _
  · exact .pure _
  · refine .operation ?_
    refine (ilock_anywhere _ _).inside.closes ?_
    refine (Anywhere.modify _).inside.closes ?_
    refine .bind (filewriteFrom_inside _ _ _ _ _ _) fun i => ?_
    exact (iunlock_anywhere _ _).inside.closes (endOp_pure_closes _)
  · exact (Anywhere.read _).bind fun ok => .pure _
  · exact .pure _

variable (fd : Int)

theorem sysDup_anywhere : Anywhere (sysDup p fd) := by
  refine (argfd_anywhere p fd).bind fun a => ?_
  rcases a with _ | ⟨_, f⟩
  · exact .pure _
  refine (fdalloc_anywhere p f).bind fun r => ?_
  cases r with
  | none => exact .pure _
  | some fd =>
    refine .bind ?_ fun _ => .pure _
    refine .act fun s => ?_
    split <;> rfl

theorem sysRead_anywhere (dst : Nat → Bool) (n other : Int) :
    Anywhere (sysRead p fd dst n other) := by
  refine (argfd_anywhere p fd).bind fun a => ?_
  rcases a with _ | ⟨_, f⟩
  · exact .pure _
  · exact fileread_anywhere p f dst n other

theorem sysWrite_anywhere (src : Nat → Option UInt8)
    (n other : Int) (rounds : Nat) : Anywhere (sysWrite p fd src n other rounds) := by
  refine (argfd_anywhere p fd).bind fun a => ?_
  rcases a with _ | ⟨_, f⟩
  · exact .pure _
  refine (Anywhere.read _).bind fun writable => ?_
  exact .ite (.pure _) (filewrite_anywhere p f src n other rounds)

theorem sysClose_anywhere : Anywhere (sysClose p fd) := by
  refine (argfd_anywhere p fd).bind fun a => ?_
  rcases a with _ | ⟨_, f⟩
  · exact .pure _
  exact (Anywhere.modify _).bind fun _ => (fileclose_anywhere p f).bind fun _ =>
    Anywhere.pure _

theorem sysFstat_anywhere (ok : Bool) : Anywhere (sysFstat p fd ok) := by
  refine (argfd_anywhere p fd).bind fun a => ?_
  rcases a with _ | ⟨_, f⟩
  · exact .pure _
  · exact filestat_anywhere p f ok

theorem linkBad_closes : Closes (linkBad p ip) := by
  refine (ilock_anywhere p ip).inside.closes ?_
  refine (setNlink_anywhere ip _).inside.closes ?_
  refine (iupdate_inside ip).closes ?_
  exact (iunlockput_inside p ip).closes (endOp_pure_closes _)

theorem sysLink_anywhere (old new : Option Path) : Anywhere (sysLink p old new) := by
  unfold sysLink
  split
  · refine .operation (.bind (namei_inside p _) fun r => ?_)
    cases r with
    | none => exact endOp_pure_closes _
    | some ip =>
      refine (ilock_anywhere p ip).inside.closes ?_
      refine .read fun type => ?_
      split
      · exact (iunlockput_inside p ip).closes (endOp_pure_closes _)
      refine (setNlink_anywhere ip _).inside.closes ?_
      refine (iupdate_inside ip).closes ?_
      refine (iunlock_anywhere p ip).inside.closes ?_
      refine .bind (namex_inside p true _) fun d => ?_
      split
      · exact linkBad_closes ip p
      rename_i dp _
      refine (ilock_anywhere p dp).inside.closes ?_
      refine .read fun inum => ?_
      refine .bind (dirlink_inside p dp _ _) fun r => ?_
      split
      · exact (iunlockput_inside p dp).closes (linkBad_closes ip p)
      · exact (iunlockput_inside p dp).closes ((iput_inside p ip).closes (endOp_pure_closes _))
  · exact .pure _

end

theorem isdirempty_anywhere (dp : Nat) : Anywhere (isdirempty dp) := by
  have hfrom : ∀ n off, Anywhere (isdiremptyFrom dp off n) := by
    intro n
    induction n with
    | zero => exact fun _ => .pure _
    | succ n ih =>
      intro off
      rw [isdiremptyFrom]
      refine (readi_anywhere _ _ _ _).bind fun r => ?_
      split
      · exact .fail _
      · exact .ite (.pure _) (ih _)
  exact (Anywhere.read _).bind fun size => hfrom _ _

section

variable (p : Fin NPROC)

include p

theorem unlinkBad_closes (dp : Nat) : Closes (unlinkBad p dp) :=
  (iunlockput_inside p dp).closes (endOp_pure_closes _)

theorem unlinkEntry_closes (dp ip off : Nat) (type : Int16) :
    Closes (unlinkEntry p dp ip off type) := by
  refine .bind (writei_inside _ _ _ _) fun r => ?_
  refine .ite (closes_fail _) ?_
  refine Inside.closes ?_ ?_
  · exact .ite ((setNlink_anywhere dp _).inside.bind fun _ => iupdate_inside dp) (.pure _)
  refine (iunlockput_inside p dp).closes ?_
  refine (setNlink_anywhere ip _).inside.closes ?_
  refine (iupdate_inside ip).closes ?_
  exact (iunlockput_inside p ip).closes (endOp_pure_closes _)

variable (path : Option Path)

theorem sysUnlink_anywhere : Anywhere (sysUnlink p path) := by
  unfold sysUnlink
  split
  · exact .pure _
  refine .operation (.bind (namex_inside p true _) fun d => ?_)
  split
  · exact endOp_pure_closes _
  rename_i dp _
  refine (ilock_anywhere p dp).inside.closes ?_
  refine .ite (unlinkBad_closes p dp) ?_
  refine .bind (dirlookup_anywhere _ _).inside fun found => ?_
  split
  · exact unlinkBad_closes p dp
  rename_i ip off
  refine (ilock_anywhere p ip).inside.closes ?_
  refine .read fun i => ?_
  refine .ite (closes_fail _) ?_
  refine .ite ?_ (unlinkEntry_closes _ _ _ _ _)
  refine .bind (isdirempty_anywhere ip).inside fun empty => ?_
  split
  · exact unlinkEntry_closes _ _ _ _ _
  · exact (iunlockput_inside p ip).closes (unlinkBad_closes p dp)

theorem createFail_inside (dp ip : Nat) : Inside (createFail p dp ip) :=
  (setNlink_anywhere ip _).inside.bind fun _ => (iupdate_inside ip).bind fun _ =>
    (iunlockput_inside p ip).bind fun _ => (iunlockput_inside p dp).bind fun _ =>
    Inside.pure _

theorem createEntry_inside (dp ip : Nat) (name : List UInt8) (type : Int16) :
    Inside (createEntry p dp ip name type) := by
  refine .read fun inum => (dirlink_inside p dp _ _).bind fun r => ?_
  refine .ite (createFail_inside p dp ip) ?_
  refine .bind ?_ fun _ => (iunlockput_inside p dp).bind fun _ => .pure _
  exact .ite ((setNlink_anywhere dp _).inside.bind fun _ => iupdate_inside dp) (.pure _)

theorem create_inside (path : Path) (type major minor : Int16) :
    Inside (create p path type major minor) := by
  refine (namex_inside p true path).bind fun d => ?_
  split
  · exact .pure _
  rename_i dp _
  refine (ilock_anywhere p dp).inside.bind fun _ =>
    (dirlookup_anywhere _ _).inside.bind fun found => ?_
  split
  · rename_i ip _
    refine (iunlockput_inside p dp).bind fun _ => (ilock_anywhere p ip).inside.bind fun _ =>
      .read fun old => ?_
    exact .ite (.pure _) ((iunlockput_inside p ip).bind fun _ => .pure _)
  refine (ialloc_inside type).bind fun r => ?_
  cases r with
  | none => exact (iunlockput_inside p dp).bind fun _ => .pure _
  | some ip =>
    refine (ilock_anywhere p ip).inside.bind fun _ => .modify fun _ =>
      (iupdate_inside ip).bind fun _ => ?_
    refine .ite ?_ (createEntry_inside p dp ip _ type)
    refine .read fun inum =>
      (dirlink_inside p ip _ _).bind fun r => ?_
    refine .ite (createFail_inside p dp ip) ?_
    refine .read fun parent =>
      (dirlink_inside p ip _ _).bind fun r => ?_
    exact .ite (createFail_inside p dp ip) (createEntry_inside p dp ip _ type)

theorem openFail_closes : Closes (openFail p ip) :=
  (iunlockput_inside p ip).closes (endOp_pure_closes _)

theorem openInode_closes (omode : UInt32) : Closes (openInode p ip omode) := by
  refine .read fun i => ?_
  refine .ite (openFail_closes ip p) ?_
  refine .bind filealloc_anywhere.inside fun r => ?_
  cases r with
  | none => exact openFail_closes ip p
  | some f =>
    refine .bind (fdalloc_anywhere p f).inside fun r => ?_
    cases r with
    | none => exact (fileclose_anywhere p f).inside.closes (openFail_closes ip p)
    | some fd =>
      refine (Anywhere.modify _).inside.closes ?_
      refine .read fun type => ?_
      refine Inside.closes ?_ ?_
      · exact .ite (itrunc_inside ip) (.pure _)
      · exact (iunlock_anywhere p ip).inside.closes (endOp_pure_closes _)

theorem sysOpen_anywhere (omode : UInt32) : Anywhere (sysOpen p path omode) := by
  unfold sysOpen
  split
  · exact .pure _
  refine .operation ?_
  split
  · refine .bind (create_inside p _ _ _ _) fun r => ?_
    cases r with
    | none => exact endOp_pure_closes _
    | some ip => exact openInode_closes ip p omode
  refine .bind (namei_inside p _) fun r => ?_
  cases r with
  | none => exact endOp_pure_closes _
  | some ip =>
    refine (ilock_anywhere p ip).inside.closes ?_
    refine .read fun type => ?_
    exact .ite (openFail_closes ip p) (openInode_closes ip p omode)

theorem makeNode_anywhere (type major minor : Int16) :
    Anywhere (makeNode p path type major minor) := by
  refine .operation ?_
  split
  · exact endOp_pure_closes _
  refine .bind (create_inside p _ _ _ _) fun r => ?_
  cases r with
  | none => exact endOp_pure_closes _
  | some ip => exact (iunlockput_inside p ip).closes (endOp_pure_closes _)

theorem sysChdir_anywhere : Anywhere (sysChdir p path) := by
  refine .operation ?_
  split
  · exact endOp_pure_closes _
  refine .bind (namei_inside p _) fun r => ?_
  cases r with
  | none => exact endOp_pure_closes _
  | some ip =>
    refine (ilock_anywhere p ip).inside.closes ?_
    refine .read fun type => ?_
    refine .ite ((iunlockput_inside p ip).closes (endOp_pure_closes _)) ?_
    refine (iunlock_anywhere p ip).inside.closes ?_
    refine .read fun cwd => ?_
    refine (iput_inside p cwd).closes ?_
    exact endOp_closes.andThen fun _ => (Anywhere.modify _).bind fun _ => .pure _

end

theorem execLoad_anywhere (table : Bool) (grow : Nat → Bool) :
    Anywhere (execLoad ip table grow) := by
  have hload : ∀ off sz n i, Anywhere (loadsegFrom ip off sz i n) := by
    intro off sz n
    induction n with
    | zero => exact fun _ => .pure _
    | succ n ih =>
      intro i
      rw [loadsegFrom]
      refine (readi_anywhere _ _ _ _).bind fun r => ?_
      exact .ite (.pure _) (ih _)
  have hseg : ∀ n off i, Anywhere (execSegments ip grow off i n) := by
    intro n
    induction n with
    | zero => exact fun _ _ => .pure _
    | succ n ih =>
      intro off i
      rw [execSegments]
      refine (readi_anywhere _ _ _ _).bind fun r => ?_
      refine .ite (.pure _) ?_
      simp only
      refine .ite (ih _ _) ?_
      refine .ite (.pure _) ?_
      refine (hload _ _ _ _).bind fun ok => ?_
      exact .ite (ih _ _) (.pure _)
  refine (readi_anywhere _ _ _ _).bind fun r => ?_
  exact .ite (.pure _) (hseg _ _ _)

theorem exec_anywhere (p : Fin NPROC) (path : Option Path) (table : Bool) (grow : Nat → Bool)
    (rest : Int) : Anywhere (exec p path table grow rest) := by
  unfold exec
  split
  · exact .pure _
  refine .operation (.bind (namei_inside p _) fun r => ?_)
  cases r with
  | none => exact endOp_pure_closes _
  | some ip =>
    refine (ilock_anywhere p ip).inside.closes ?_
    refine .bind (execLoad_anywhere ip table grow).inside fun ok => ?_
    exact (iunlockput_inside p ip).closes (endOp_pure_closes _)

theorem exit_anywhere (p : Fin NPROC) : Anywhere (exit p) := by
  have hclose : ∀ fds, Anywhere (closeAll p fds) := by
    intro fds
    induction fds with
    | nil => exact .pure _
    | cons fd fds ih =>
      refine (Anywhere.read _).bind fun f => .bind ?_ fun _ => ih
      cases f with
      | none => exact .pure _
      | some f => exact (fileclose_anywhere p f).bind fun _ => .modify _
  refine (hclose _).bind fun _ => .operation ?_
  refine .read fun cwd => ?_
  exact (iput_inside p cwd).closes (endOp_pure_closes _)

/-- A call that looks a path up without an operation around it. -/
def Call.Bare : Call → Prop
  | .getfilesize (some _) _ => True
  | _ => False

instance : DecidablePred Call.Bare := fun c =>
  match c with
  | .getfilesize (some _) _ => isTrue trivial
  | .getfilesize none _ => isFalse id
  | .open .. | .close .. | .read .. | .write .. | .dup .. | .fstat .. | .link .. | .unlink ..
  | .mkdir .. | .mknod .. | .chdir .. | .exec .. | .exit => isFalse id

/-- Every call is in order, except those that leave the operation out. -/
theorem Call.prog_anywhere (p : Fin NPROC) (c : Call) (h : ¬ c.Bare) : Anywhere (c.prog p) := by
  cases c with
  | «open» path omode => exact sysOpen_anywhere p path omode
  | close fd => exact sysClose_anywhere p fd
  | read fd dst n other => exact sysRead_anywhere p fd dst n other
  | write fd src n other rounds => exact sysWrite_anywhere p fd src n other rounds
  | dup fd => exact sysDup_anywhere p fd
  | fstat fd ok => exact sysFstat_anywhere p fd ok
  | link old new => exact sysLink_anywhere p old new
  | unlink path => exact sysUnlink_anywhere p path
  | mkdir path | mknod path major minor => exact makeNode_anywhere p path _ _ _
  | chdir path => exact sysChdir_anywhere p path
  | exec path table grow rest => exact exec_anywhere p path table grow rest
  | exit => exact exit_anywhere p
  | getfilesize path ok =>
    cases path with
    | none => exact .pure _
    | some path => exact absurd trivial h

end Fs

end Xv6
