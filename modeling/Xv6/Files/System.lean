import Xv6.Files.Ends

/-!
# Descriptors, references and pipe ends in every run

The invariant of all interleavings of the calls: the laws of references, ends
and pages, and what is known of the descriptors of a process that starts or
exits.  Between calls it says that `ref` is the number of descriptors, that a
free entry of the file table has the type `FD_NONE`, and that an end of a pipe
has been closed once if no descriptor holds it and not at all otherwise.
-/

namespace Xv6.Files

open Lib Function List Loc Nat Option State

/-! ## Locations -/

namespace Loc

variable {page i : Nat} {k : Kmem} {fd : Fin NOFILE} {rt w copied : Bool} {rf wf : Fin NFILE}
  {next : Loc} {a0 : Int} {file : File}

/-- What can follow a close. -/
def Tail : Loc → Prop
  | .user _ => True
  | .exitClear _ => True
  | .close _ next => next.Tail
  | .closeEnd _ next => next.Tail
  | .kfree _ next => next.Tail
  | _ => False

/-- The locations that occur. -/
def Ok : Loc → Prop
  | .openFd _ file => file.type = .inode ∨ file.type = .device
  | .close _ next => next.Tail
  | .closeEnd _ next => next.Tail
  | .kfree _ next => next.Tail
  | _ => True

/-- The number of descriptors that a process without files, or in `exit`, has
cleared. -/
def cleared : Loc → Nat
  | .dead => NOFILE
  | .exit fd => fd
  | .exitClear fd => fd
  | .close _ next => next.cleared
  | .closeEnd _ next => next.cleared
  | .kfree _ next => next.cleared
  | _ => 0

theorem Tail.ok {l : Loc} (h : l.Tail) : l.Ok := by cases l <;> simp_all [Tail, Ok]

theorem Tail.ne_embryo {l : Loc} (h : l.Tail) (q : Fin NPROC) : l ≠ .embryo q := by
  rintro rfl
  exact h

theorem Tail.ne_fork {l : Loc} (h : l.Tail) (np : Fin NPROC) (pid : Int) (i : Nat) :
    l ≠ .fork np pid i := by
  rintro rfl
  exact h

end Loc

/-- What is known of the descriptors: those that `exit` has passed are clear,
and so are those that `fork` has not reached in the child. -/
structure Slots (s : State) : Prop where
  shape : ∀ p, (s.loc p).Ok
  clear : ∀ p (fd : Fin NOFILE), fd.1 < (s.loc p).cleared → s.ofile (p, fd) = none
  fork : ∀ p np pid i, s.loc p = .fork np pid i →
    s.loc np = .embryo p ∧ ∀ fd : Fin NOFILE, i ≤ fd.1 → s.ofile (np, fd) = none

/-- The invariant, with what a hand holds. -/
structure Inv (s : State) (hand new : List (Fin NFILE)) (ends : List PipeEnd)
    (pages : List Nat) : Prop where
  slots : Slots s
  counts : Counts s hand new
  ends : Ends s ends
  pages : Pages s pages

variable {s t : State} {hand hand' new new' : List (Fin NFILE)} {ends ends' : List PipeEnd}
  {pages pages' : List Nat} {f : Fin NFILE} {p np : Fin NPROC} {slot : Slot} {l l0 : Loc}

/-! ## Operations -/

/-- A process that is no child in the making has no parent in `fork`. -/
theorem Slots.no_fork (h : Slots s) (hp : ∀ q, s.loc p ≠ .embryo q) (q : Fin NPROC) (pid : Int)
    (i : Nat) : s.loc q ≠ .fork p pid i := fun hq => hp q (h.fork q p pid i hq).1

theorem Slots.goto (h : Slots s) (hp : ∀ q pid i, s.loc q ≠ .fork p pid i) (hok : l.Ok)
    (hclear : ∀ fd : Fin NOFILE, fd.1 < l.cleared → s.ofile (p, fd) = none)
    (hfork : ∀ np pid i, l = .fork np pid i → np ≠ p ∧
      s.loc np = .embryo p ∧ ∀ fd : Fin NOFILE, i ≤ fd.1 → s.ofile (np, fd) = none) :
    Slots (s.goto p l) := by
  refine ⟨fun q => ?_, fun q fd hfd => ?_, fun q np pid i hq => ?_⟩
  · by_cases hqp : q = p
    · rwa [hqp, loc_goto_self]
    rw [loc_goto_of_ne hqp]
    exact h.shape q
  · by_cases hqp : q = p
    · rw [hqp] at hfd ⊢
      rw [loc_goto_self] at hfd
      exact hclear fd hfd
    · rw [loc_goto_of_ne hqp] at hfd
      exact h.clear q fd hfd
  by_cases hqp : q = p
  · rw [hqp] at hq ⊢
    rw [loc_goto_self] at hq
    obtain ⟨hne, hnp, hfds⟩ := hfork np pid i hq
    rw [loc_goto_of_ne hne]
    exact ⟨hnp, hfds⟩
  rw [loc_goto_of_ne hqp] at hq
  have hne : np ≠ p := by
    rintro rfl
    exact hp q pid i hq
  rw [loc_goto_of_ne hne]
  exact h.fork q np pid i hq

/-- A store to a descriptor that `exit` has not passed and `fork` has, or the
clearing of one. -/
theorem Slots.setSlot {v : Option (Fin NFILE)} (h : Slots s)
    (hv : v = none ∨ (s.loc slot.1).cleared = 0 ∧
      ∀ q pid i, s.loc q = .fork slot.1 pid i → slot.2.1 < i) : Slots (s.setSlot slot v) := by
  have hkeep : ∀ x : Slot, s.ofile x = none → (v = none ∨ x ≠ slot) →
      (s.setSlot slot v).ofile x = none := by
    intro x hx hcase
    by_cases hxs : x = slot
    · rw [hxs, ofile_setSlot_self]
      exact hcase.resolve_right fun hne => hne hxs
    · rwa [ofile_setSlot_of_ne hxs]
  refine ⟨h.shape, fun q fd hfd => ?_, fun q np pid i hq => ?_⟩
  · refine hkeep _ (h.clear q fd hfd) (hv.imp id fun hs heq => ?_)
    rw [← heq] at hs
    have : fd.1 < (s.loc q).cleared := hfd
    rw [hs.1] at this
    exact absurd this (not_lt_zero _)
  · obtain ⟨hnp, hfds⟩ := h.fork q np pid i hq
    refine ⟨hnp, fun fd hfd => hkeep _ (hfds fd hfd) (hv.imp id fun hs heq => ?_)⟩
    rw [← heq] at hs
    exact absurd (hs.2 q pid i hq) (not_lt.2 hfd)

theorem Inv.goto (h : Inv s hand new ends pages) (hl : s.loc p = l0)
    (hp : ∀ q, l0 ≠ .embryo q) (hok : l.Ok) (hle : l.cleared ≤ l0.cleared)
    (hfork : ∀ np pid i, l ≠ .fork np pid i) (hdropped : l.dropped = l0.dropped)
    (hrefs : ∀ f, hand'.count f + l.refs.count f = hand.count f + l0.refs.count f)
    (hfresh : ∀ f ∈ l.fresh, f ∈ new ∨ f ∈ l0.fresh) (hnew : ∀ f ∈ new', f ∈ new ∨ f ∈ l0.fresh)
    (hends : ∀ e, ends'.count e + l.ends.count e = ends.count e + l0.ends.count e)
    (hpages : ∀ a, pages'.count a + l.pages.count a = pages.count a + l0.pages.count a) :
    Inv (s.goto p l) hand' new' ends' pages' := by
  subst hl
  refine ⟨h.slots.goto (h.slots.no_fork hp) hok (fun fd hfd => ?_) (fun np pid i heq => ?_),
    h.counts.goto hdropped hrefs hfresh hnew, h.ends.goto hends, h.pages.goto hpages⟩
  · exact h.slots.clear p fd (lt_of_lt_of_le hfd hle)
  · exact absurd heq (hfork np pid i)

theorem Inv.filealloc {ft : Ftable} (h : Inv s hand new ends pages)
    (hf : Xv6.filealloc s.ftable = some (f, ft)) :
    Inv { s with ftable := ft } (f :: hand) (f :: new) ends pages := by
  refine ⟨⟨h.slots.shape, h.slots.clear, h.slots.fork⟩, h.counts.filealloc hf, ?_, h.pages⟩
  obtain ⟨_, rfl⟩ := filealloc_eq_some hf
  exact h.ends.keepFile rfl

/-- Only pages have changed hands. -/
theorem Inv.setPages {others pages' : List Nat} (h : Inv s hand new ends pages)
    (hpages : Pages { s with kmem := k, others := others } pages') :
    Inv { s with kmem := k, others := others } hand new ends pages' :=
  ⟨⟨h.slots.shape, h.slots.clear, h.slots.fork⟩,
    ⟨h.counts.refs, h.counts.types, h.counts.fresh, h.counts.new⟩,
    ⟨h.ends.live, h.ends.void, h.ends.gone, h.ends.inj, h.ends.opens⟩, hpages⟩

theorem Inv.kalloc (h : Inv s hand new ends pages) (hk : Xv6.kalloc s.kmem = some (page, k)) :
    Inv { s with kmem := k } hand new ends (page :: pages) := h.setPages (h.pages.kalloc hk)

theorem Inv.kfree (h : Inv s hand new ends (page :: pages))
    (hk : Xv6.kfree s.kmem page = .ok k) : Inv { s with kmem := k } hand new ends pages :=
  h.setPages (h.pages.kfree hk)

theorem Inv.setSlot {v : Option (Fin NFILE)} (h : Inv s hand new ends pages)
    (hdropped : (s.loc slot.1).dropped ≠ some slot.2) (hv : v = none ∨ (s.loc slot.1).cleared = 0 ∧
      ∀ q pid i, s.loc q = .fork slot.1 pid i → slot.2.1 < i)
    (hmove : ∀ f, hand'.count f + (if v = some f then 1 else 0) =
      hand.count f + (if s.ofile slot = some f then 1 else 0)) :
    Inv (s.setSlot slot v) hand' new ends pages :=
  ⟨h.slots.setSlot hv, h.counts.setSlot hdropped hmove,
    ⟨h.ends.live, h.ends.void, h.ends.gone, h.ends.inj, h.ends.opens⟩, h.pages⟩

/-- `fdalloc` in a process that is neither starting nor exiting. -/
theorem Inv.fdalloc (h : Inv s (f :: hand) new ends pages)
    (hloc : (s.loc p).dropped = none ∧ (s.loc p).cleared = 0 ∧ ∀ q, s.loc p ≠ .embryo q)
    (hf : s.fdalloc p f = some (fd, t)) : Inv t hand new ends pages := by
  have hcounts := h.counts.fdalloc hloc.1 hf
  obtain ⟨_, rfl⟩ := fdalloc_eq_some hf
  have hfork := h.slots.no_fork hloc.2.2
  exact ⟨h.slots.setSlot (.inr ⟨hloc.2.1, fun q pid i hq => absurd hq (hfork q pid i)⟩), hcounts,
    ⟨h.ends.live, h.ends.void, h.ends.gone, h.ends.inj, h.ends.opens⟩, h.pages⟩

theorem Inv.clear (h : Inv s hand new ends pages)
    (hdropped : (s.loc slot.1).dropped ≠ some slot.2) (hf : s.ofile slot = some f) :
    Inv (s.setSlot slot none) (f :: hand) new ends pages :=
  ⟨h.slots.setSlot (.inl rfl), h.counts.clear hdropped hf,
    ⟨h.ends.live, h.ends.void, h.ends.gone, h.ends.inj, h.ends.opens⟩, h.pages⟩

/-- `fileclose` drops a reference, and the last one leaves the end of a pipe
in hand. -/
theorem Inv.fileclose {last : Option File} {ft : Ftable} (h : Inv s (f :: hand) [] ends pages)
    (hf : filecloseTable s.ftable f = .ok (last, ft)) :
    Inv { s with ftable := ft } hand [] (last.elim [] fileEnds ++ ends) pages := by
  refine ⟨⟨h.slots.shape, h.slots.clear, h.slots.fork⟩, h.counts.fileclose hf, ?_, h.pages⟩
  obtain ⟨_, ⟨_, rfl, rfl⟩ | ⟨_, rfl, rfl⟩⟩ := filecloseTable_eq_ok hf
  · exact h.ends.keepFile rfl
  refine h.ends.setFile fun e => ?_
  show (fileEnds (s.ftable f) ++ ends).count e + ([] : List PipeEnd).count e = _
  rw [count_append, count_nil]
  omega

/-- A new pipe, whose files and page are in hand. -/
theorem Inv.newPipe (h : Inv s [rf, wf] [rf, wf] [] (page :: pages)) :
    Inv (s.newPipe rt page rf wf) [rf, wf] [] [] pages := by
  obtain ⟨hrf, hrt⟩ := h.counts.new rf (by simp)
  obtain ⟨hwf, hwt⟩ := h.counts.new wf (by simp)
  have hne : rf ≠ wf := by
    rintro rfl
    have := h.counts.refs rf
    rw [hrf, count_cons_self, count_cons_self] at this
    omega
  have hmem := h.pages.mem_eq_none
  refine ⟨⟨h.slots.shape, h.slots.clear, h.slots.fork⟩, ?_, h.ends.newPipe hmem hne hrt hwt, ?_⟩
  · have hread : Counts (s.setFile rf (pipeFile (s.ftable rf) rt page false))
        [rf, wf] [wf] := by
      refine h.counts.setFile (.inl (by simp)) rfl (fun _ _ => rfl) (fun hz => ?_) fun g hg => ?_
      · exact absurd (hrf.symm.trans hz) (by decide)
      rw [mem_singleton] at hg
      rw [hg]
      exact ⟨by simp, hne.symm⟩
    have hwrite : Counts ((s.setFile rf (pipeFile (s.ftable rf) rt page false)).setFile wf
        (pipeFile (s.ftable wf) rt page true)) [rf, wf] [] := by
      refine hread.setFile (.inl (by simp)) ?_ (fun _ _ => rfl) (fun hz => ?_) nofun
      · rw [ftable_setFile_of_ne hne.symm]
        rfl
      · exact absurd (hwf.symm.trans hz) (by decide)
    rw [State.newPipe]
    simp only [setFile, update_of_ne hne.symm] at hwrite ⊢
    exact ⟨hwrite.refs, hwrite.types, hwrite.fresh, hwrite.new⟩
  · have hset : Pages { s with mem := update s.mem page (some s.npipes) } pages := by
      refine h.pages.setMem fun a => ?_
      rw [hmem, count_cons]
      by_cases ha : a = page
      · simp [ha]
      · simp [ha, Ne.symm ha]
    exact hset

theorem goto_goto {l' : Loc} : (s.goto p l).goto p l' = s.goto p l' := by
  simp only [goto, update_idem]

/-- Both ends of the pipe in a page are closed. -/
theorem Inv.free (h : Inv s hand new ends pages) (hmem : s.mem page = some i)
    (hread : (s.pipe i).readopen = 0) (hwrite : (s.pipe i).writeopen = 0) :
    Inv { s with mem := update s.mem page none } hand new ends (page :: pages) := by
  refine ⟨⟨h.slots.shape, h.slots.clear, h.slots.fork⟩,
    ⟨h.counts.refs, h.counts.types, h.counts.fresh, h.counts.new⟩,
    h.ends.free hmem hread hwrite, h.pages.setMem fun a => ?_⟩
  rw [hmem, count_cons]
  by_cases ha : a = page
  · simp [ha]
  · simp [ha, Ne.symm ha]

/-- The flags of a pipe tell which of its ends are closed. -/
def Pipe.Opens (pi : Pipe) : Prop :=
  pi.readopen = 1 - pi.closed.count (pi.rt, false) ∧
    pi.writeopen = 1 - pi.closed.count (pi.rt, true)

theorem opens_pipeclose {pi : Pipe} (hrt : pi.rt = false) (hcount : pi.closed.count (false, w) = 0)
    (h : pi.Opens) : (pi.pipeclose w).Opens := by
  rw [Pipe.Opens, hrt] at h
  rw [Pipe.Opens, show (pi.pipeclose w).rt = false from hrt]
  cases w <;> simp [Pipe.pipeclose, hcount, h]

theorem opens_pipeRtClose {pi : Pipe} (hrt : pi.rt = true) (hcount : pi.closed.count (true, w) = 0)
    (h : pi.Opens) : (pi.pipeRtClose w).Opens := by
  rw [Pipe.Opens, hrt] at h
  rw [Pipe.Opens, show (pi.pipeRtClose w).rt = true from hrt]
  cases w <;> simp [Pipe.pipeRtClose, hcount, h]

/-- The close of an end of a pipe. -/
theorem Inv.closeEnd {ff : File} {next : Loc} (h : Inv s [] [] [] [])
    (hl : s.loc p = .closeEnd ff next) : Inv (s.closeEnd p ff next) [] [] [] [] := by
  have htail : next.Tail := by
    have := h.slots.shape p
    rwa [hl] at this
  have hnext : Inv (s.goto p next) [] [] (fileEnds ff) [] := by
    refine h.goto hl (by simp) htail.ok le_rfl htail.ne_fork rfl (fun _ => rfl)
      (fun f hf => .inr hf) (by simp) (fun e => ?_) (fun _ => rfl)
    show _ = ([] : List PipeEnd).count e + (fileEnds ff ++ next.ends).count e
    rw [count_append, count_nil, zero_add]
  have hloc : (s.goto p next).loc p = next := loc_goto_self
  unfold State.closeEnd
  split
  · rename_i i htype hmem
    rw [fileEnds, htype] at hnext
    obtain ⟨i', hmem', hi, hrt, hcount⟩ := hnext.ends.of_hand
    obtain rfl : i = i' := some.inj (hmem.symm.trans hmem')
    have hclosed : Inv { s.goto p next with
        pipe := update s.pipe i ((s.pipe i).pipeclose (ff.writable != 0)) } [] [] [] [] :=
      ⟨⟨hnext.slots.shape, hnext.slots.clear, hnext.slots.fork⟩,
        ⟨hnext.counts.refs, hnext.counts.types, hnext.counts.fresh, hnext.counts.new⟩,
        hnext.ends.close hmem' rfl rfl (opens_pipeclose hrt hcount (hnext.ends.opens i hi)),
        hnext.pages⟩
    dsimp only
    split
    · -- the last close frees the page
      rename_i hzero
      have hself : update s.pipe i ((s.pipe i).pipeclose (ff.writable != 0)) i =
          (s.pipe i).pipeclose (ff.writable != 0) := update_self _ _ _
      have hfree := hclosed.free hmem' ((congrArg Pipe.readopen hself).trans hzero.1)
        ((congrArg Pipe.writeopen hself).trans hzero.2)
      rw [← goto_goto (l := next)]
      refine hfree.goto hloc htail.ne_embryo htail le_rfl (by simp) rfl (fun _ => rfl)
        (fun f hf => .inr hf) (by simp) (fun _ => rfl) fun a => ?_
      show _ + (ff.pipe :: next.pages).count a = [ff.pipe].count a + _
      rw [count_cons, count_singleton, count_nil]
      omega
    · exact hclosed
  · rename_i i htype hmem
    rw [fileEnds, htype] at hnext
    obtain ⟨i', hmem', hi, hrt, hcount⟩ := hnext.ends.of_hand
    obtain rfl : i = i' := some.inj (hmem.symm.trans hmem')
    exact ⟨⟨hnext.slots.shape, hnext.slots.clear, hnext.slots.fork⟩,
      ⟨hnext.counts.refs, hnext.counts.types, hnext.counts.fresh, hnext.counts.new⟩,
      hnext.ends.close hmem' rfl rfl (opens_pipeRtClose hrt hcount (hnext.ends.opens i hi)),
      hnext.pages⟩
  · rename_i hpipe hpipeRt
    have hnone : fileEnds ff = [] := by
      cases hends : fileEnds ff with
      | nil => rfl
      | cons e rest =>
        rw [hends] at hnext
        obtain ⟨i, hmem, _⟩ := hnext.ends.of_hand
        have hmem' : s.mem e.page = some i := hmem
        unfold fileEnds at hends
        split at hends
        · rename_i htype
          obtain ⟨rfl, _⟩ := cons.inj hends
          exact (hpipe i htype hmem').elim
        · rename_i htype
          obtain ⟨rfl, _⟩ := cons.inj hends
          exact (hpipeRt i htype hmem').elim
        · cases hends
    rwa [hnone] at hnext

/-! ## Calls -/

theorem user_of_isUser (h : s.isUser p = true) : ∃ a0, s.loc p = .user a0 := by
  unfold isUser at h
  split at h
  · rename_i a0 hl
    exact ⟨a0, hl⟩
  · cases h

section

variable (h : Inv s [] [] [] []) (hl : s.loc p = .user a0)

include h hl

/-- A call returns at once. -/
theorem Inv.user {a1 : Int} : Inv (s.goto p (.user a1)) [] [] [] [] :=
  h.goto hl nofun trivial le_rfl nofun rfl (fun _ => rfl) nofun nofun (fun _ => rfl) fun _ => rfl

theorem Inv.sysOpen
    (htype : file.type = .inode ∨ file.type = .device) : Inv (s.sysOpen p file) [] [] [] [] := by
  unfold State.sysOpen
  split
  · exact h.user hl
  rename_i f ft hf
  exact (h.filealloc hf).goto hl nofun htype le_rfl nofun rfl (fun _ => add_comm _ _)
    (fun g hg => .inl hg) nofun (fun _ => rfl) fun _ => rfl

theorem Inv.sysDup (ht : s.sysDup p fd = .ok t) : Inv t [] [] [] [] := by
  unfold State.sysDup at ht
  split at ht
  · cases ht
    exact h.user hl
  rename_i f hf
  split at ht
  · cases ht
    exact h.user hl
  rename_i fd' u hfd
  obtain ⟨v, hdup, ht⟩ := bind_eq_ok.1 ht
  cases ht
  -- the reference is there before the descriptor
  obtain ⟨hnone, rfl⟩ := fdalloc_eq_some hfd
  obtain ⟨hpos, rfl⟩ := filedup_eq_ok hdup
  have hheld : s.held (p, fd) = some f := by rw [held_of_not_dropped (by rw [hl]; nofun), hf]
  have hok : s.filedup f = .ok (s.setFile f { s.ftable f with ref := (s.ftable f).ref + 1 }) := by
    have hpos' : 0 < (s.ftable f).ref := hpos
    rw [filedup, if_neg (by omega)]
  have hdup' : Inv (s.setFile f { s.ftable f with ref := (s.ftable f).ref + 1 }) [f] [] [] [] :=
    ⟨⟨h.slots.shape, h.slots.clear, h.slots.fork⟩, h.counts.filedup hheld hok,
      h.ends.keepFile rfl, h.pages⟩
  have hset : Inv ((s.setFile f { s.ftable f with ref := (s.ftable f).ref + 1 }).setSlot (p, fd')
      (some f)) [] [] [] [] := by
    refine hdup'.setSlot ?_ ?_ fun g => ?_
    · show (s.loc p).dropped ≠ _
      rw [hl]
      nofun
    · have hfork := h.slots.no_fork (p := p) (by rw [hl]; nofun)
      refine .inr ⟨?_, fun q pid i hq => absurd hq (hfork q pid i)⟩
      show (s.loc p).cleared = 0
      rw [hl]
      rfl
    · show _ = [f].count g + if s.ofile (p, fd') = some g then 1 else 0
      rw [hnone, count_singleton]
      simp
  exact hset.user hl

theorem Inv.sysClose : Inv (s.sysClose p fd) [] [] [] [] := by
  unfold State.sysClose
  split
  · exact h.user hl
  rename_i f hf
  have hclear : Inv (s.setSlot (p, fd) none) [f] [] [] [] :=
    h.clear (by rw [hl]; nofun) hf
  exact hclear.goto hl nofun trivial le_rfl nofun rfl (fun _ => add_comm _ _) nofun nofun
    (fun _ => rfl) fun _ => rfl

theorem Inv.sysPipe : Inv (s.sysPipe p) [] [] [] [] := by
  unfold State.sysPipe
  split
  · exact h.user hl
  rename_i rf ft hf
  exact (h.filealloc hf).goto hl nofun trivial le_rfl nofun rfl (fun _ => add_comm _ _)
    (fun g hg => .inl hg) nofun (fun _ => rfl) fun _ => rfl

theorem Inv.sysPipeRt : Inv (s.sysPipeRt p) [] [] [] [] := by
  unfold State.sysPipeRt
  split
  · exact h.user hl
  rename_i page k hk
  exact (h.kalloc hk).goto hl nofun trivial le_rfl nofun rfl (fun _ => rfl) nofun nofun
    (fun _ => rfl) fun _ => add_comm _ _

end

/-- `sys_pipe` and `sys_pipe_rt` after the allocation. -/
theorem Inv.installPipe (h : Inv s [rf, wf] [] [] []) (hl : s.loc p = .user a0) :
    Inv (s.installPipe p rf wf copied) [] [] [] [] := by
  have hbad : ∀ u : State, Inv u [rf, wf] [] [] [] → u.loc p = .user a0 →
      Inv (u.goto p (.close rf (.close wf (.user (-1))))) [] [] [] [] := fun u hu hul =>
    hu.goto hul nofun trivial le_rfl nofun rfl (fun _ => add_comm _ _) nofun nofun
      (fun _ => rfl) fun _ => rfl
  have hloc : ∀ u : State, u.loc p = .user a0 →
      (u.loc p).dropped = none ∧ (u.loc p).cleared = 0 ∧ ∀ q, u.loc p ≠ .embryo q := by
    intro u hul
    rw [hul]
    exact ⟨rfl, rfl, nofun⟩
  unfold State.installPipe
  split
  · exact hbad s h hl
  rename_i fd0 u hfd0
  have hu := h.fdalloc (hloc s hl) hfd0
  obtain ⟨hnone0, rfl⟩ := fdalloc_eq_some hfd0
  -- clear the first descriptor again
  have hback : ∀ v : State, Inv v [wf] [] [] [] → v.loc p = .user a0 →
      v.ofile (p, fd0) = some rf → Inv (v.setSlot (p, fd0) none) [rf, wf] [] [] [] :=
    fun v hv hvl hv0 => hv.clear (by rw [hvl]; nofun) hv0
  have hfd0' : (s.setSlot (p, fd0) (some rf)).ofile (p, fd0) = some rf :=
    ofile_setSlot_self
  split
  · exact hbad _ (hback _ hu hl hfd0') hl
  rename_i fd1 v hfd1
  have hv := hu.fdalloc (hloc _ hl) hfd1
  obtain ⟨hnone1, rfl⟩ := fdalloc_eq_some hfd1
  split
  · exact hv.user hl
  have hne : fd0 ≠ fd1 := by
    rintro rfl
    rw [hfd0'] at hnone1
    cases hnone1
  have hclear0 : Inv (((s.setSlot (p, fd0) (some rf)).setSlot (p, fd1) (some wf)).setSlot
      (p, fd0) none) [rf] [] [] [] := by
    refine hv.clear ?_ ?_
    · show (s.loc p).dropped ≠ _
      rw [hl]
      nofun
    · rwa [ofile_setSlot_of_ne fun h => hne (congrArg Prod.snd h)]
  have hclear1 : Inv ((((s.setSlot (p, fd0) (some rf)).setSlot (p, fd1) (some wf)).setSlot
      (p, fd0) none).setSlot (p, fd1) none) [wf, rf] [] [] [] := by
    refine hclear0.clear ?_ ?_
    · show (s.loc p).dropped ≠ _
      rw [hl]
      nofun
    · rw [ofile_setSlot_of_ne fun h => hne (congrArg Prod.snd h).symm, ofile_setSlot_self]
  refine hclear1.goto hl nofun trivial le_rfl nofun rfl (fun g => ?_) nofun nofun (fun _ => rfl)
    fun _ => rfl
  show 0 + [rf, wf].count g = [wf, rf].count g + 0
  simp only [count_cons, count_nil]
  omega

/-! ## Steps inside a call -/

theorem Inv.openFd (h : Inv s [] [] [] [])
    (hl : s.loc p = .openFd f file) (ht : s.resume p copied (.openFd f file) = some (.ok t)) :
    Inv t [] [] [] [] := by
  have htype : file.type = .inode ∨ file.type = .device := by
    have := h.slots.shape p
    rwa [hl] at this
  cases ht
  split
  · exact h.goto hl nofun trivial le_rfl nofun rfl (fun _ => rfl) nofun nofun (fun _ => rfl)
      fun _ => rfl
  rename_i fd u hfd
  obtain ⟨hnone, rfl⟩ := fdalloc_eq_some hfd
  have hhand : Inv (s.goto p (.user 0)) [f] [f] [] [] :=
    h.goto hl nofun trivial le_rfl nofun rfl (fun _ => add_comm _ _) nofun
      (fun _ hg => .inr hg) (fun _ => rfl) fun _ => rfl
  obtain ⟨hone, hnew⟩ := hhand.counts.new f (by simp)
  have hslot : Inv ((s.goto p (.user 0)).setSlot (p, fd) (some f)) [] [f] [] [] := by
    have hfork := hhand.slots.no_fork (p := p) (by rw [loc_goto_self]; nofun)
    refine hhand.setSlot ?_ (.inr ⟨?_, fun q pid i hq => absurd hq (hfork q pid i)⟩) fun g => ?_
    · rw [loc_goto_self]
      nofun
    · rw [loc_goto_self]
      rfl
    · show _ = [f].count g + if s.ofile (p, fd) = some g then 1 else 0
      rw [hnone, count_singleton]
      simp
  have hheld : ((s.goto p (.user 0)).setSlot (p, fd) (some f)).held (p, fd) = some f := by
    rw [held_of_not_dropped, ofile_setSlot_self]
    show ((s.goto p (.user 0)).loc p).dropped ≠ _
    rw [loc_goto_self]
    nofun
  have hfile : Inv (((s.goto p (.user 0)).setSlot (p, fd) (some f)).setFile f
      { file with ref := (s.ftable f).ref, pipe := (s.ftable f).pipe }) [] [] [] [] := by
    refine ⟨⟨hslot.slots.shape, hslot.slots.clear, hslot.slots.fork⟩,
      hslot.counts.setFile (.inr ⟨(p, fd), hheld⟩) rfl (fun _ _ => rfl) (fun hz => ?_) nofun,
      hslot.ends.keepFile ?_, hslot.pages⟩
    · exact absurd (hone.symm.trans hz) (by decide)
    have hold : fileEnds (s.ftable f) = [] := fileEnds_of_none hnew
    show fileEnds { file with ref := (s.ftable f).ref, pipe := (s.ftable f).pipe } =
      fileEnds (s.ftable f)
    rw [hold]
    rcases htype with htype | htype <;> simp [fileEnds, htype]
  have huser : Inv ((((s.goto p (.user 0)).setSlot (p, fd) (some f)).setFile f
      { file with ref := (s.ftable f).ref, pipe := (s.ftable f).pipe }).goto p (.user fd))
      [] [] [] [] := hfile.user loc_goto_self
  exact (congrArg (Inv · [] [] [] []) goto_goto).mp huser

theorem Inv.pipeRead (h : Inv s [] [] [] [])
    (hl : s.loc p = .pipeRead page) (ht : s.resume p copied (.pipeRead page) = some (.ok t)) :
    Inv t [] [] [] [] := by
  cases ht
  split
  · exact h.goto hl nofun trivial le_rfl nofun rfl (fun _ => rfl) nofun nofun (fun _ => rfl)
      fun _ => rfl
  rename_i rf ft hf
  exact (h.filealloc hf).goto hl nofun trivial le_rfl nofun rfl (fun _ => add_comm _ _)
    (fun _ hg => .inl hg) nofun (fun _ => rfl) fun _ => rfl

theorem Inv.pipeWrite {page : Option Nat}
    (h : Inv s [] [] [] []) (hl : s.loc p = .pipeWrite page rf)
    (ht : s.resume p copied (.pipeWrite page rf) = some (.ok t)) : Inv t [] [] [] [] := by
  cases ht
  have hcount : ∀ wf g : Fin NFILE, ([] : List (Fin NFILE)).count g + [rf, wf].count g =
      [wf].count g + [rf].count g := by
    intro wf g
    simp only [count_cons, count_nil]
    omega
  have hfresh : ∀ wf g : Fin NFILE, g ∈ [rf, wf] → g ∈ [wf] ∨ g ∈ [rf] := by
    intro wf g hg
    simp only [mem_cons, not_mem_nil, or_false] at hg ⊢
    exact hg.symm
  split
  · exact h.goto hl nofun trivial le_rfl nofun rfl (fun _ => rfl) nofun nofun (fun _ => rfl)
      fun _ => rfl
  · exact h.goto hl nofun trivial le_rfl nofun rfl (fun _ => rfl) nofun nofun (fun _ => rfl)
      fun _ => rfl
  · rename_i wf ft hf
    exact (h.filealloc hf).goto hl nofun trivial le_rfl nofun rfl (hcount wf) (hfresh wf) nofun
      (fun _ => rfl) fun _ => rfl
  · rename_i wf ft _ hf
    exact (h.filealloc hf).goto hl nofun trivial le_rfl nofun rfl (hcount wf) (hfresh wf) nofun
      (fun _ => rfl) fun _ => rfl

theorem Inv.pipePage (h : Inv s [] [] [] []) (hl : s.loc p = .pipePage rf wf)
    (ht : s.resume p copied (.pipePage rf wf) = some (.ok t)) : Inv t [] [] [] [] := by
  cases ht
  split
  · exact h.goto hl nofun trivial le_rfl nofun rfl (fun _ => rfl) nofun nofun (fun _ => rfl)
      fun _ => rfl
  rename_i page k hk
  exact (h.kalloc hk).goto hl nofun trivial le_rfl nofun rfl (fun _ => rfl)
    (fun _ hg => .inr hg) nofun (fun _ => rfl) fun _ => add_comm _ _

theorem installPipe_goto :
    (s.goto p l).installPipe p rf wf copied = s.installPipe p rf wf copied := by
  unfold installPipe
  have hfd : ∀ (u : State) (g : Fin NFILE), (u.goto p l).fdalloc p g =
      (u.fdalloc p g).map fun r => (r.1, r.2.goto p l) := by
    intro u g
    rw [State.fdalloc, State.fdalloc, Option.map_map]
    rfl
  rw [hfd]
  cases s.fdalloc p rf with
  | none => exact goto_goto
  | some r =>
    simp only [map_some]
    rw [hfd]
    cases r.2.fdalloc p wf with
    | none => simp only [map_none, goto, setSlot, update_idem]
    | some r' => simp only [map_some, goto, setSlot, update_idem]

section

variable (h : Inv s [] [] [] [])

include h

theorem Inv.pipeInit (hl : s.loc p = .pipeInit rt page rf wf)
    (ht : s.resume p copied (.pipeInit rt page rf wf) = some (.ok t)) : Inv t [] [] [] [] := by
  cases ht
  have hhand : Inv (s.goto p (.user 0)) [rf, wf] [rf, wf] [] [page] :=
    h.goto hl nofun trivial le_rfl nofun rfl (fun _ => add_comm _ _) nofun
      (fun _ hg => .inr hg) (fun _ => rfl) fun _ => add_comm _ _
  have hnew : Inv ((s.newPipe rt page rf wf).goto p (.user 0)) [rf, wf] [] [] [] := hhand.newPipe
  have hinstall : Inv (((s.newPipe rt page rf wf).goto p (.user 0)).installPipe p rf wf copied)
      [] [] [] [] := hnew.installPipe loc_goto_self
  rwa [installPipe_goto] at hinstall

theorem Inv.close {next : Loc}
    (hl : s.loc p = .close f next) (ht : s.resume p copied (.close f next) = some (.ok t)) :
    Inv t [] [] [] [] := by
  have htail : next.Tail := by
    have := h.slots.shape p
    rwa [hl] at this
  obtain ⟨⟨last, ft⟩, hclose, ht⟩ := bind_eq_ok.1 (some.inj ht)
  cases ht
  have hhand : Inv (s.goto p next) [f] [] [] [] := by
    refine h.goto hl nofun htail.ok le_rfl htail.ne_fork rfl (fun g => ?_) (fun _ hg => .inr hg)
      nofun (fun _ => rfl) fun _ => rfl
    show [f].count g + next.refs.count g = 0 + (f :: next.refs).count g
    rw [count_singleton, count_cons]
    omega
  have hclosed : Inv ({ s with ftable := ft }.goto p next) [] [] (last.elim [] fileEnds ++ []) [] :=
    hhand.fileclose hclose
  cases last with
  | none => exact hclosed
  | some ff =>
    have hput : Inv (({ s with ftable := ft }.goto p next).goto p (.closeEnd ff next))
        [] [] [] [] := by
      refine hclosed.goto loc_goto_self htail.ne_embryo htail le_rfl nofun rfl (fun _ => rfl)
        (fun _ hg => .inr hg) nofun (fun e => ?_) fun _ => rfl
      show 0 + (fileEnds ff ++ next.ends).count e = (fileEnds ff ++ []).count e + next.ends.count e
      rw [count_append, append_nil]
      omega
    rwa [goto_goto] at hput

theorem Inv.kfreeStep {next : Loc}
    (hl : s.loc p = .kfree page next) (ht : s.resume p copied (.kfree page next) = some (.ok t)) :
    Inv t [] [] [] [] := by
  have htail : next.Tail := by
    have := h.slots.shape p
    rwa [hl] at this
  obtain ⟨k, hk, ht⟩ := bind_eq_ok.1 (some.inj ht)
  cases ht
  have hhand : Inv (s.goto p next) [] [] [] [page] := by
    refine h.goto hl nofun htail.ok le_rfl htail.ne_fork rfl (fun _ => rfl) (fun _ hg => .inr hg)
      nofun (fun _ => rfl) fun a => ?_
    show [page].count a + next.pages.count a = 0 + (page :: next.pages).count a
    rw [count_singleton, count_cons]
    omega
  exact hhand.kfree hk

/-! ## `fork` and `exit` -/

/-- A process goes on, and only its location and its descriptors are to be
looked at. -/
theorem Inv.pass (hslots : Slots (s.goto p l)) (hl : s.loc p = l0)
    (hdropped : l.dropped = l0.dropped) (hrefs : l.refs = l0.refs) (hfresh : l.fresh = [])
    (hends : l.ends = l0.ends) (hpages : l.pages = l0.pages) : Inv (s.goto p l) [] [] [] [] := by
  subst hl
  refine ⟨hslots, h.counts.goto hdropped (fun _ => ?_) (fun f hf => ?_) nofun,
    h.ends.goto fun _ => ?_, h.pages.goto fun _ => ?_⟩
  · rw [hrefs]
  · rw [hfresh] at hf
    cases hf
  · rw [hends]
  · rw [hpages]

/-- The child gets its place in the process table. -/
theorem Inv.forkStart {pid : Int} (hl : s.loc p = .user a0) (hnp : s.loc np = .dead) :
    Inv ((s.goto np (.embryo p)).goto p (.fork np pid 0)) [] [] [] [] := by
  have hne : p ≠ np := by
    rintro rfl
    rw [hl] at hnp
    cases hnp
  have hchild : Inv (s.goto np (.embryo p)) [] [] [] [] := by
    refine h.pass (h.slots.goto (h.slots.no_fork ?_) trivial nofun nofun) hnp rfl rfl rfl rfl rfl
    rw [hnp]
    nofun
  have hloc : (s.goto np (.embryo p)).loc p = .user a0 := by rw [loc_goto_of_ne hne, hl]
  refine hchild.pass (hchild.slots.goto (hchild.slots.no_fork ?_) trivial nofun ?_) hloc rfl rfl rfl
    rfl rfl
  · rw [hloc]
    nofun
  intro np' pid' i heq
  obtain ⟨rfl, rfl, rfl⟩ := fork.inj heq
  refine ⟨hne.symm, loc_goto_self, fun fd _ => h.slots.clear np fd ?_⟩
  rw [hnp]
  exact fd.2

theorem Inv.fork {pid : Int}
    (hl : s.loc p = .fork np pid i) (ht : s.resume p copied (.fork np pid i) = some (.ok t)) :
    Inv t [] [] [] [] := by
  obtain ⟨hnp, hfds⟩ := h.slots.fork p np pid i hl
  have hne : np ≠ p := by
    rintro rfl
    rw [hl] at hnp
    cases hnp
  have hno : ∀ q pid i, s.loc q ≠ .fork p pid i :=
    h.slots.no_fork (by rw [hl]; simp)
  have hnext : Slots (s.goto p (.fork np pid (i + 1))) := by
    refine h.slots.goto hno trivial (by simp [cleared]) fun np' pid' i' heq => ?_
    obtain ⟨rfl, rfl, rfl⟩ := fork.inj heq
    exact ⟨hne, hnp, fun fd hfd => hfds fd (by omega)⟩
  simp only [resume] at ht
  split at ht
  · rename_i hi
    split at ht
    · cases ht
      exact h.pass hnext hl rfl rfl rfl rfl rfl
    rename_i f hf
    obtain ⟨u, hdup, ht⟩ := bind_eq_ok.1 (some.inj ht)
    cases ht
    have hheld : s.held (p, ⟨i, hi⟩) = some f := by
      rw [held_of_not_dropped (by simp [hl, dropped]), hf]
    have hcounts := h.counts.filedup hheld hdup
    obtain ⟨_, rfl⟩ := filedup_eq_ok hdup
    have hdup : Inv ((s.setFile f { s.ftable f with ref := (s.ftable f).ref + 1 }).goto p
        (.fork np pid (i + 1))) [f] [] [] [] := by
      refine ⟨⟨hnext.shape, hnext.clear, hnext.fork⟩,
        hcounts.goto ?_ (fun _ => ?_) (by simp [fresh]) (by simp),
        Ends.goto (h.ends.keepFile rfl) fun _ => ?_, Pages.goto h.pages fun _ => ?_⟩
      · show _ = (s.loc p).dropped
        rw [hl]
        rfl
      · show _ = _ + (s.loc p).refs.count _
        rw [hl]
        rfl
      · show _ = _ + (s.loc p).ends.count _
        rw [hl]
        rfl
      · show _ = _ + (s.loc p).pages.count _
        rw [hl]
        rfl
    show Inv (((s.setFile f { s.ftable f with ref := (s.ftable f).ref + 1 }).goto p
      (.fork np pid (i + 1))).setSlot (np, ⟨i, hi⟩) (some f)) [] [] [] []
    refine hdup.setSlot ?_ (.inr ⟨?_, ?_⟩) fun g => ?_
    · rw [loc_goto_of_ne hne]
      show (s.loc np).dropped ≠ _
      simp [hnp, dropped]
    · rw [loc_goto_of_ne hne]
      show (s.loc np).cleared = 0
      rw [hnp]
      rfl
    · intro q pid' i' hq
      by_cases hqp : q = p
      · rw [hqp, loc_goto_self] at hq
        obtain ⟨_, _, rfl⟩ := fork.inj hq
        exact lt_succ_self i
      rw [loc_goto_of_ne hqp] at hq
      have := (h.slots.fork q np pid' i' hq).1
      rw [hnp] at this
      exact absurd (embryo.inj this).symm hqp
    · have hnone := hfds ⟨i, hi⟩ le_rfl
      show _ = [f].count g + if s.ofile (np, ⟨i, hi⟩) = some g then 1 else 0
      rw [hnone, count_singleton]
      simp
  · obtain rfl := Except.ok.inj (some.inj ht)
    have hcomm : (s.goto np (.user 0)).goto p (.user pid) =
        (s.goto p (.user pid)).goto np (.user 0) := by
      simp only [State.goto, update_comm hne.symm]
    rw [hcomm]
    have hparent : Inv (s.goto p (.user pid)) [] [] [] [] :=
      h.pass (h.slots.goto hno trivial (by simp [cleared]) (by simp)) hl rfl rfl rfl rfl rfl
    have hloc : (s.goto p (.user pid)).loc np = .embryo p := by rw [loc_goto_of_ne hne, hnp]
    refine hparent.pass (hparent.slots.goto (fun q pid' i' hq => ?_) trivial
      (by simp [cleared]) (by simp)) hloc rfl rfl rfl rfl rfl
    have := (hparent.slots.fork q np pid' i' hq).1
    rw [hloc] at this
    rw [← embryo.inj this, loc_goto_self] at hq
    cases hq

theorem Inv.exit {fd : Nat} (hl : s.loc p = .exit fd)
    (ht : s.resume p copied (.exit fd) = some (.ok t)) : Inv t [] [] [] [] := by
  have hno : ∀ q pid i, s.loc q ≠ .fork p pid i :=
    h.slots.no_fork (by rw [hl]; nofun)
  have hclear : ∀ fd' : Fin NOFILE, fd'.1 < fd → s.ofile (p, fd') = none := fun fd' hfd' =>
    h.slots.clear p fd' (by rw [hl]; exact hfd')
  simp only [resume] at ht
  split at ht
  · rename_i hfd
    split at ht
    · rename_i hnone
      cases ht
      refine h.pass (h.slots.goto hno trivial (fun fd' hfd' => ?_) nofun) hl rfl rfl rfl rfl rfl
      have hle : fd'.1 < fd + 1 := hfd'
      by_cases heq : fd'.1 = fd
      · have : fd' = ⟨fd, hfd⟩ := Fin.ext heq
        rwa [this]
      · exact hclear fd' (by omega)
    rename_i f hf
    cases ht
    refine ⟨h.slots.goto hno trivial hclear nofun,
      h.counts.drop (by rw [hl]; rfl) hf rfl (fun g => ?_) rfl,
      h.ends.goto fun _ => ?_, h.pages.goto fun _ => ?_⟩
    · rw [hl]
      show [f].count g = 0 + _
      rw [count_singleton]
      simp
    · rw [hl]
      rfl
    · rw [hl]
      rfl
  · obtain rfl := Except.ok.inj (some.inj ht)
    refine h.pass (h.slots.goto hno trivial (fun fd' _ => ?_) nofun) hl rfl rfl rfl rfl rfl
    exact hclear fd' (by omega)

theorem Inv.exitClear
    (hl : s.loc p = .exitClear fd) (ht : s.resume p copied (.exitClear fd) = some (.ok t)) :
    Inv t [] [] [] [] := by
  have hno : ∀ q pid i, s.loc q ≠ .fork p pid i :=
    h.slots.no_fork (by rw [hl]; nofun)
  cases ht
  have hset : Slots (s.setSlot (p, fd) none) := h.slots.setSlot (.inl rfl)
  refine ⟨hset.goto hno trivial (fun fd' hfd' => ?_) nofun,
    h.counts.undrop (by rw [hl]; rfl) rfl (by rw [hl]; rfl) rfl,
    Ends.goto ⟨h.ends.live, h.ends.void, h.ends.gone, h.ends.inj, h.ends.opens⟩ fun _ => ?_,
    Pages.goto h.pages fun _ => ?_⟩
  · have hle : fd'.1 < fd.1 + 1 := hfd'
    by_cases heq : fd' = fd
    · rw [heq, ofile_setSlot_self]
    rw [ofile_setSlot_of_ne fun h => heq (congrArg Prod.snd h)]
    refine h.slots.clear p fd' ?_
    rw [hl]
    have : fd'.1 ≠ fd.1 := fun h => heq (Fin.ext h)
    show fd'.1 < fd.1
    omega
  · show _ = _ + (s.loc p).ends.count _
    rw [hl]
    rfl
  · show _ = _ + (s.loc p).pages.count _
    rw [hl]
    rfl

/-! ## Runs -/

theorem Inv.resume (ht : s.resume p copied (s.loc p) = some (.ok t)) : Inv t [] [] [] [] := by
  generalize hl : s.loc p = l at ht
  cases l with
  | dead | embryo | user => cases ht
  | openFd f file => exact h.openFd hl ht
  | pipeRead page => exact h.pipeRead hl ht
  | pipeWrite page rf => exact h.pipeWrite hl ht
  | pipePage rf wf => exact h.pipePage hl ht
  | pipeInit rt page rf wf => exact h.pipeInit hl ht
  | close f next => exact h.close hl ht
  | closeEnd ff next =>
    cases ht
    exact h.closeEnd hl
  | kfree page next => exact h.kfreeStep hl ht
  | fork np pid i => exact h.fork hl ht
  | exit fd => exact h.exit hl ht
  | exitClear fd => exact h.exitClear hl ht

end

/-- The rest of the kernel takes a page or gives one back. -/
theorem Pages.others {others : List Nat} (h : Pages s [])
    (hmove : ∀ a, k.freelist.count a + others.count a =
      s.kmem.freelist.count a + s.others.count a) :
    Pages { s with kmem := k, others := others } [] := by
  intro a
  have ha := h a
  have hmove := hmove a
  show k.freelist.count a + others.count a + (s.mem a).toList.length +
    tally (pages ∘ s.loc) a + _ ≤ 1
  omega

theorem Inv.step {lb : Label} (h : Inv s [] [] [] []) (hstep : Steps s lb t) :
    Inv t [] [] [] [] := by
  have hcall : ∀ {p : Fin NPROC} {x : Option (Except Panic State)},
      (if s.isUser p then x else none) = some (.ok t) →
      (∃ a0, s.loc p = .user a0) ∧ x = some (.ok t) := by
    intro p x hx
    split at hx
    · rename_i hu
      exact ⟨user_of_isUser hu, hx⟩
    · cases hx
  cases lb with
  | sysOpen p file =>
    obtain ⟨⟨a0, hl⟩, hx⟩ := hcall hstep
    cases file with
    | none =>
      cases hx
      exact h.user hl
    | some file =>
      simp only at hx
      split at hx
      · rename_i htype
        cases hx
        exact h.sysOpen hl htype
      · cases hx
  | sysDup p fd =>
    obtain ⟨⟨a0, hl⟩, hx⟩ := hcall hstep
    exact h.sysDup hl (Option.some.inj hx)
  | sysClose p fd =>
    obtain ⟨⟨a0, hl⟩, hx⟩ := hcall hstep
    cases hx
    exact h.sysClose hl
  | sysPipe p =>
    obtain ⟨⟨a0, hl⟩, hx⟩ := hcall hstep
    cases hx
    exact h.sysPipe hl
  | sysPipeRt p =>
    obtain ⟨⟨a0, hl⟩, hx⟩ := hcall hstep
    obtain rfl := Except.ok.inj (Option.some.inj hx)
    exact h.sysPipeRt hl
  | fork p np pid =>
    obtain ⟨⟨a0, hl⟩, hx⟩ := hcall hstep
    cases np with
    | none =>
      obtain rfl := Except.ok.inj (Option.some.inj hx)
      exact h.user hl
    | some np =>
      simp only at hx
      split at hx
      · rename_i hnp
        obtain rfl := Except.ok.inj (Option.some.inj hx)
        exact h.forkStart hl hnp
      · cases hx
  | exit p =>
    obtain ⟨⟨a0, hl⟩, hx⟩ := hcall hstep
    obtain rfl := Except.ok.inj (Option.some.inj hx)
    refine h.pass (h.slots.goto (h.slots.no_fork ?_) trivial nofun nofun) hl rfl rfl rfl rfl rfl
    rw [hl]
    nofun
  | resume p copied => exact h.resume hstep
  | kalloc =>
    obtain ⟨⟨page, k⟩, hk, hx⟩ := Option.map_eq_some_iff.1 hstep
    obtain rfl := Except.ok.inj hx
    refine h.setPages (h.pages.others fun a => ?_)
    rw [(kalloc_eq_some.1 hk).1, List.count_cons, List.count_cons]
    exact (Nat.add_left_comm _ _ _).trans (Nat.add_comm _ _)
  | kfree page =>
    simp only [Steps, State.step] at hstep
    split at hstep
    · rename_i hmem
      obtain ⟨k, hk, hx⟩ := map_eq_ok.1 (Option.some.inj hstep)
      obtain rfl := hx
      obtain ⟨_, rfl⟩ := kfree_eq_ok.1 hk
      refine h.setPages (h.pages.others fun a => ?_)
      have hpos := List.count_pos_iff.2 hmem
      rw [List.count_cons, List.count_erase]
      by_cases ha : page = a
      · rw [ha] at hpos ⊢
        simp
        omega
      · simp [ha]
    · cases hstep

/-- Between calls nothing is in a call. -/
theorem State.Idle.empty (h : s.Idle) (p : Fin NPROC) :
    (s.loc p).refs = [] ∧ (s.loc p).fresh = [] ∧ (s.loc p).dropped = none ∧
      (s.loc p).ends = [] ∧ (s.loc p).pages = [] := by
  rcases h p with hl | ⟨a0, hl⟩ <;> rw [hl] <;> exact ⟨rfl, rfl, rfl, rfl, rfl⟩

theorem State.Idle.inCalls (h : s.Idle) (f : Fin NFILE) : s.inCalls f = 0 :=
  tally_eq_zero fun p => (h.empty p).1

theorem State.Idle.around (h : s.Idle) (e : PipeEnd) :
    s.around e = tally (fileEnds ∘ s.ftable) e := by
  have hloc : tally (ends ∘ s.loc) e = 0 := tally_eq_zero fun p => (h.empty p).2.2.2.1
  rw [State.around, hloc, Nat.add_zero]

theorem Boot.inv (h : Boot s) : Inv s [] [] [] [] := by
  have hidle : s.Idle := h.loc
  have hfile : ∀ f, fileEnds (s.ftable f) = [] := fun f => fileEnds_of_none (h.ftable f).2
  have haround : ∀ e, s.around e = 0 := fun e => by
    rw [hidle.around]
    exact tally_eq_zero hfile
  refine ⟨⟨fun p => ?_, fun p fd _ => h.ofile _, fun p np pid i hl => ?_⟩,
    ⟨fun f => ?_, fun f _ => (h.ftable f).2, fun p f hf => ?_, nofun⟩,
    ⟨fun a i ha => ?_, fun a _ rt w => ?_, fun i hi => ?_, fun a b i ha => ?_, fun i hi => ?_⟩,
    fun a => ?_⟩
  · rcases h.loc p with hl | ⟨a0, hl⟩ <;> rw [hl] <;> trivial
  · rcases h.loc p with hl' | ⟨a0, hl'⟩ <;> rw [hl'] at hl <;> cases hl
  · have hheld : holders s.held f = 0 := holders_eq_zero.2 fun slot hs => by
      rw [held_of_none (h.ofile slot)] at hs
      cases hs
    rw [(h.ftable f).1, hheld, hidle.inCalls f, count_nil]
  · rw [(hidle.empty p).2.1] at hf
    cases hf
  · rw [h.mem a] at ha
    cases ha
  · rw [haround]
    rfl
  · rw [h.npipes] at hi
    cases hi
  · rw [h.mem a] at ha
    cases ha
  · rw [h.npipes] at hi
    cases hi
  · have hcalls : tally (Loc.pages ∘ s.loc) a = 0 := tally_eq_zero fun p => (hidle.empty p).2.2.2.2
    have hnodup := nodup_iff_count_le_one.1 h.pages a
    rw [count_append] at hnodup
    rw [hcalls, h.mem a]
    simpa using hnodup

/-! ## Between calls -/

theorem mem_fileEnds : ⟨page, rt, w⟩ ∈ fileEnds file ↔ (file.type = if rt then .pipeRt else .pipe) ∧
      file.pipe = page ∧ (file.writable != 0) = w := by
  rw [fileEnds]
  cases file.type <;> cases rt <;> simp [eq_comm]

/-- Between calls a descriptor holds an end if and only if the end is
around. -/
theorem Inv.holds_iff (h : Inv s [] [] [] []) (hidle : s.Idle)
    (hmem : s.mem page = some i) (w : Bool) :
    s.Holds i w ↔ 0 < s.around ⟨page, (s.pipe i).rt, w⟩ := by
  rw [hidle.around, tally_pos]
  constructor
  · rintro ⟨slot, f, hslot, hpage, hw, htype⟩
    exact ⟨f, mem_fileEnds.2 ⟨htype, h.ends.inj _ _ i hpage hmem, hw⟩⟩
  rintro ⟨f, hf⟩
  obtain ⟨htype, hpage, hw⟩ := mem_fileEnds.1 hf
  have hne : (s.ftable f).ref ≠ 0 := fun h0 => by
    rw [h.counts.types f h0] at htype
    split at htype <;> cases htype
  have hrefs := h.counts.refs f
  rw [hidle.inCalls] at hrefs
  obtain ⟨slot, hslot⟩ := holders_pos.1 (by simp at hrefs; omega : 0 < holders s.held f)
  rw [held_of_not_dropped (by rw [(hidle.empty _).2.2.1]; simp)] at hslot
  exact ⟨slot, f, hslot, hpage ▸ hmem, hw, htype⟩

/-- Whenever no call is in progress, `ref` is the number of descriptors that
hold the file, a file without references has the type `FD_NONE`, and an end of
a pipe has been closed, by the function for its kind of pipe, once if no
descriptor holds it and not at all otherwise. -/
theorem refs_and_ends_exact {s₀ : State} {ls : List Label} (hboot : Boot s₀)
    (hrun : Run Steps s₀ ls s) (hidle : s.Idle) :
    (∀ f, (s.ftable f).ref = holders s.ofile f) ∧
    (∀ f, (s.ftable f).ref = 0 → (s.ftable f).type = .none) ∧
    ∀ i < s.npipes, ∀ w, (s.Holds i w → (s.pipe i).closed.count ((s.pipe i).rt, w) = 0) ∧
      (¬ s.Holds i w → (s.pipe i).closed.count ((s.pipe i).rt, w) = 1) ∧
      (s.pipe i).closed.count (!(s.pipe i).rt, w) = 0 := by
  have h : Inv s [] [] [] [] := hrun.inv hboot.inv fun _ _ _ => Inv.step
  refine ⟨fun f => ?_, h.counts.types, fun i hi w => ?_⟩
  · have hheld : s.held = s.ofile := funext fun slot =>
      held_of_not_dropped (by rw [(hidle.empty _).2.2.1]; nofun)
    rw [h.counts.refs f, hidle.inCalls, hheld, List.count_nil, Nat.add_zero]
  · by_cases hpage : ∃ page, s.mem page = some i
    · obtain ⟨page, hpage⟩ := hpage
      rw [h.holds_iff hidle hpage]
      have hown := (h.ends.live page i hpage).2 (s.pipe i).rt w
      have hother := (h.ends.live page i hpage).2 (!(s.pipe i).rt) w
      rw [if_pos rfl, List.count_nil] at hown
      rw [if_neg (by cases (s.pipe i).rt <;> nofun)] at hother
      omega
    · have hgone : ∀ page, s.mem page ≠ some i := fun page hp => hpage ⟨page, hp⟩
      have hown := h.ends.gone i hi hgone (s.pipe i).rt w
      have hother := h.ends.gone i hi hgone (!(s.pipe i).rt) w
      rw [if_pos rfl] at hown
      rw [if_neg (by cases (s.pipe i).rt <;> nofun)] at hother
      refine ⟨fun ⟨_, f, _, hmem, _⟩ => absurd hmem (hgone _), fun _ => hown, hother⟩

/-- One process, one free page. -/
def start : State where
  kmem := { kernelEnd := 0, freelist := [4096] }
  others := []
  ftable := fun _ =>
    { type := .none, ref := 0, readable := false, writable := 0, pipe := 0, ip := 0, off := 0,
      major := 0 }
  ofile := fun _ => none
  mem := fun _ => none
  pipe := fun _ => { rt := false, readopen := 0, writeopen := 0, closed := [] }
  npipes := 0
  loc := fun p => if p = ⟨0, by decide⟩ then .user 0 else .dead

/-- The step as a function. -/
def State.next? (s : State) (l : Label) : Option State := (s.step l).bind Except.toOption

theorem Steps.of_next? {l : Label} (h : s.next? l = some t) : Steps s l t := by
  obtain ⟨x, hx, ht⟩ := bind_eq_some_iff.1 h
  cases x with
  | error e => cases ht
  | ok u =>
    cases ht
    exact hx

/-- A process makes a pipe and closes the read end. -/
def pipeThenClose : List Label :=
  let p : Fin NPROC := ⟨0, by decide⟩
  [.sysPipe p, .resume p true, .resume p true, .resume p true,
    .sysClose p ⟨0, by decide⟩, .resume p true, .resume p true]

theorem start_boot : Boot start :=
    ⟨fun _ => ⟨rfl, rfl⟩, fun _ => rfl, fun _ => rfl, rfl, by decide, fun p => by
      by_cases hp : p = ⟨0, by decide⟩
      · exact .inr ⟨0, if_pos hp⟩
      · exact .inl (if_neg hp)⟩

theorem refs_and_ends_exact_pipeThenClose :
    let s := after State.next? start pipeThenClose
    (s.ftable ⟨1, by decide⟩).ref = holders s.ofile ⟨1, by decide⟩ ∧
    s.Holds 0 true ∧ (s.pipe 0).closed.count (false, true) = 0 ∧
    (¬ s.Holds 0 false → (s.pipe 0).closed.count (false, false) = 1) := by
  intro s
  have hrun : Run Steps start pipeThenClose s :=
    (Run.of_after (by decide +kernel)).mono fun _ _ _ => Steps.of_next?
  have hidle : s.Idle := by
    have hall : ∀ p, s.loc p = .dead ∨ s.isUser p = true := by decide +kernel
    exact fun p => (hall p).imp id user_of_isUser
  have hholds : s.Holds 0 true :=
    ⟨(⟨0, by decide⟩, ⟨1, by decide⟩), ⟨1, by decide⟩, by decide +kernel⟩
  have hrt : (s.pipe 0).rt = false := by decide +kernel
  obtain ⟨hrefs, -, hends⟩ := refs_and_ends_exact start_boot hrun hidle
  have hends := hends 0 (by decide +kernel)
  rw [hrt] at hends
  exact ⟨hrefs _, hholds, (hends true).1 hholds, (hends false).2.1⟩

/-! ## Inside calls -/

/-- `filedup` of a file that a descriptor holds. -/
theorem Inv.exists_filedup (h : Inv s [] [] [] []) (hdropped : (s.loc p).dropped ≠ some fd)
    (hf : s.ofile (p, fd) = some f) {t : State} (ht : t.ftable = s.ftable) :
    ∃ u, t.filedup f = .ok u := by
  have hrefs := h.counts.refs f
  have hheld := holders_pos.2 ⟨(p, fd), (held_of_not_dropped hdropped).trans hf⟩
  exact ⟨_, if_neg (by rw [ht]; omega)⟩

/-- `fileclose` in a call, which has a reference. -/
theorem Inv.exists_filecloseTable {next : Loc} (h : Inv s [] [] [] [])
    (hl : s.loc p = .close f next) : ∃ r, filecloseTable s.ftable f = .ok r := by
  have hrefs := h.counts.refs f
  have hcalls : 0 < s.inCalls f := tally_pos.2 ⟨p, by simp [hl, Loc.refs]⟩
  unfold filecloseTable
  rw [if_neg (by omega)]
  split
  · exact ⟨_, rfl⟩
  · exact ⟨_, rfl⟩

theorem Inv.exists_sysDup (h : Inv s [] [] [] []) (hu : s.isUser p = true) (fd : Fin NOFILE) :
    ∃ t, s.sysDup p fd = .ok t := by
  obtain ⟨a0, hl⟩ := user_of_isUser hu
  unfold State.sysDup
  split
  · exact ⟨_, rfl⟩
  rename_i f hf
  split
  · exact ⟨_, rfl⟩
  rename_i fd' t ht
  obtain ⟨_, rfl⟩ := fdalloc_eq_some ht
  obtain ⟨u, hu⟩ := h.exists_filedup (by simp [hl, dropped]) hf (t := s.setSlot _ _) rfl
  rw [hu]
  exact ⟨_, rfl⟩

theorem Inv.panic_resume {copied : Bool} {e : Panic} (h : Inv s [] [] [] [])
    (hstep : s.resume p copied (s.loc p) = some (.error e)) : e = .kfree := by
  generalize hl : s.loc p = l at hstep
  cases l with
  | close f next =>
    obtain ⟨r, hr⟩ := h.exists_filecloseTable hl
    simp only [State.resume, hr] at hstep
    cases hstep
  | kfree page next =>
    simp only [State.resume, Xv6.kfree] at hstep
    split at hstep
    all_goals cases hstep
    rfl
  | fork np pid i =>
    simp only [State.resume] at hstep
    split at hstep
    · split at hstep
      · cases hstep
      rename_i f hf
      obtain ⟨t, ht⟩ := h.exists_filedup (by simp [hl, dropped]) hf rfl
      rw [ht] at hstep
      cases hstep
    · cases hstep
  | exit fd =>
    simp only [State.resume] at hstep
    repeat' split at hstep
    all_goals cases hstep
  | _ => cases hstep

/-- At no point of any interleaving of the calls does `filedup` or `fileclose`
panic; and every end of a pipe that the file table has, or that a call has
still to close, is an open end of a pipe that has not been freed. -/
theorem no_panic_no_dangling_pipe {s₀ : State} {ls : List Label} (hboot : Boot s₀)
    (hrun : Run Steps s₀ ls s) : (∀ l e, s.step l = some (.error e) → e = .kfree) ∧
    ∀ page rt w, 0 < s.around ⟨page, rt, w⟩ → ∃ i, s.mem page = some i ∧ (s.pipe i).rt = rt ∧
      (s.pipe i).closed.count (rt, w) = 0 := by
  have h : Inv s [] [] [] [] := hrun.inv hboot.inv fun _ _ _ => Inv.step
  refine ⟨fun l e hstep => ?_, fun page rt w he => ?_⟩
  · cases l with
    | resume p copied => exact h.panic_resume hstep
    | sysDup p fd =>
      simp only [State.step] at hstep
      split at hstep
      · rename_i hu
        obtain ⟨t, ht⟩ := h.exists_sysDup hu fd
        rw [ht] at hstep
        cases hstep
      · cases hstep
    | kfree page =>
      simp only [State.step, Xv6.kfree] at hstep
      repeat' split at hstep
      all_goals cases hstep
      rfl
    | kalloc =>
      obtain ⟨r, -, hr⟩ := Option.map_eq_some_iff.1 hstep
      cases hr
    | _ =>
      simp only [State.step] at hstep
      repeat' split at hstep
      all_goals cases hstep
  · cases hmem : s.mem page with
    | none =>
      have hvoid := h.ends.void _ hmem rt w
      omega
    | some i =>
      have hlive := (h.ends.live _ i hmem).2 rt w
      rw [List.count_nil] at hlive
      split at hlive
      · rename_i hrt
        exact ⟨i, rfl, hrt.symm, by omega⟩
      · omega

/-- A process is about to close the read end of a pipe. -/
theorem no_panic_no_dangling_pipe_pipeThenClose :
    let s := after State.next? start (pipeThenClose.take 6)
    (∀ l e, s.step l = some (.error e) → e = .kfree) ∧ ∃ page, 0 < s.around ⟨page, false, false⟩ ∧
      ∃ i, s.mem page = some i ∧ (s.pipe i).closed.count (false, false) = 0 := by
  intro s
  have hrun : Run Steps start (pipeThenClose.take 6) s :=
    (Run.of_after (by decide +kernel)).mono fun _ _ _ => Steps.of_next?
  have haround : 0 < s.around ⟨4096, false, false⟩ := by decide +kernel
  obtain ⟨hpanic, hends⟩ := no_panic_no_dangling_pipe start_boot hrun
  obtain ⟨i, hi, -, hclosed⟩ := hends _ _ _ haround
  exact ⟨hpanic, 4096, haround, i, hi, hclosed⟩

end Xv6.Files
