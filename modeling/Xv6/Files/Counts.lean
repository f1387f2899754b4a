import Xv6.Files.Model
import Xv6.Lib.Except
import Xv6.Lib.Holders

/-!
# References to files

While calls are in progress, the references to a file are its descriptors and
what the calls have in hand.  `Counts` says that `ref` is the number of both,
and that a file that a call has just allocated is its own: `ref` is 1 and the
type is not yet set.

Each lemma is about one operation, with the references and the new files
that it takes out of, or puts into, a hand beside those of the locations; a
step of the system is then a sequence of operations that starts and ends with
empty hands.
-/

namespace Xv6.Files

open Lib Function Except List Option Prod State

/-! ## What a location has in hand -/

namespace Loc

variable {hand' : List (Fin NFILE)} {file : File} {ft : Ftable} {v : Option (Fin NFILE)}
  {fd : Fin NOFILE}

/-- The references of the call. -/
def refs : Loc → List (Fin NFILE)
  | .openFd f _ => [f]
  | .pipeWrite _ rf => [rf]
  | .pipePage rf wf => [rf, wf]
  | .pipeInit _ _ rf wf => [rf, wf]
  | .close f next => f :: next.refs
  | .closeEnd _ next => next.refs
  | .kfree _ next => next.refs
  | _ => []

/-- The files that the call has allocated and not filled in. -/
def fresh : Loc → List (Fin NFILE)
  | .openFd f _ => [f]
  | .pipeWrite _ rf => [rf]
  | .pipePage rf wf => [rf, wf]
  | .pipeInit _ _ rf wf => [rf, wf]
  | .close _ next => next.fresh
  | .closeEnd _ next => next.fresh
  | .kfree _ next => next.fresh
  | _ => []

/-- The descriptor whose reference `exit` has already dropped. -/
def dropped : Loc → Option (Fin NOFILE)
  | .exitClear fd => some fd
  | .close _ next => next.dropped
  | .closeEnd _ next => next.dropped
  | .kfree _ next => next.dropped
  | _ => none

theorem fresh_subset (l : Loc) : ∀ f ∈ l.fresh, f ∈ l.refs := by
  induction l with
  | close g next ih =>
    intro f hf
    exact mem_cons_of_mem g (ih f hf)
  | closeEnd ff next ih => exact ih
  | kfree page next ih => exact ih
  | _ => exact fun _ hf => hf

end Loc

/-- The descriptors that count. -/
def State.held (s : State) (slot : Slot) : Option (Fin NFILE) :=
  if (s.loc slot.1).dropped = some slot.2 then none else s.ofile slot

/-- The references in the calls in progress. -/
def State.inCalls (s : State) (f : Fin NFILE) : Nat := tally (Loc.refs ∘ s.loc) f

/-- What `ref` counts, with the references of a `hand`, and the files that are
`new` there. -/
structure Counts (s : State) (hand new : List (Fin NFILE)) : Prop where
  refs : ∀ f, (s.ftable f).ref = holders s.held f + s.inCalls f + hand.count f
  types : ∀ f, (s.ftable f).ref = 0 → (s.ftable f).type = .none
  fresh : ∀ p, ∀ f ∈ (s.loc p).fresh, (s.ftable f).ref = 1 ∧ (s.ftable f).type = .none
  new : ∀ f ∈ new, (s.ftable f).ref = 1 ∧ (s.ftable f).type = .none

variable {s t : State} {hand new : List (Fin NFILE)} {f : Fin NFILE} {p : Fin NPROC}
  {slot : Slot} {l : Loc}

/-! ## Moving references -/

theorem inCalls_goto (s : State) (p : Fin NPROC) (l : Loc) (f : Fin NFILE) :
    (s.goto p l).inCalls f + (s.loc p).refs.count f = s.inCalls f + l.refs.count f := by
  have h := tally_update (Loc.refs ∘ s.loc) p l.refs f
  rwa [← comp_update] at h

theorem held_goto (h : l.dropped = (s.loc p).dropped) : (s.goto p l).held = s.held := by
  funext slot
  rw [held, held]
  by_cases hp : slot.1 = p
  · rw [hp, ← h]
    simp [goto]
  · simp only [goto, update_of_ne hp]

/-- A process goes on, and its references move between its call and the
hand. -/
theorem Counts.goto {new' : List (Fin NFILE)} (h : Counts s hand new)
    (hdropped : l.dropped = (s.loc p).dropped)
    (hrefs : ∀ f, hand'.count f + l.refs.count f = hand.count f + (s.loc p).refs.count f)
    (hfresh : ∀ f ∈ l.fresh, f ∈ new ∨ f ∈ (s.loc p).fresh)
    (hnew : ∀ f ∈ new', f ∈ new ∨ f ∈ (s.loc p).fresh) : Counts (s.goto p l) hand' new' := by
  have hold : ∀ f, f ∈ new ∨ f ∈ (s.loc p).fresh →
      (s.ftable f).ref = 1 ∧ (s.ftable f).type = .none := fun f hf =>
    hf.elim (h.new f) (h.fresh p f)
  refine ⟨fun f => ?_, h.types, fun q f hf => ?_, fun f hf => hold f (hnew f hf)⟩
  · have hcalls := inCalls_goto s p l f
    have hf := h.refs f
    have hmove := hrefs f
    rw [held_goto hdropped]
    show (s.ftable f).ref = _
    omega
  by_cases hq : q = p
  · rw [hq] at hf
    simp only [State.goto, update_self] at hf
    exact hold f (hfresh f hf)
  · simp only [State.goto, update_of_ne hq] at hf
    exact h.fresh q f hf

/-- A file with another reference is in no call as a fresh one. -/
theorem Counts.not_fresh (h : Counts s hand new) (hf : f ∈ hand ∨ ∃ slot, s.held slot = some f)
    (q : Fin NPROC) : f ∉ (s.loc q).fresh := by
  intro hfresh
  have hone := (h.fresh q f hfresh).1
  have hcalls : 0 < s.inCalls f := tally_pos.2 ⟨q, (s.loc q).fresh_subset f hfresh⟩
  have hrefs := h.refs f
  rcases hf with hf | hf
  · have := count_pos_iff.2 hf
    omega
  · have := holders_pos.2 hf
    omega

theorem ftable_setFile_self : (s.setFile f file).ftable f = file :=
  update_self _ _ _

theorem ftable_setFile_of_ne {g : Fin NFILE} (h : g ≠ f) :
    (s.setFile f file).ftable g = s.ftable g :=
  update_of_ne h _ _

/-- A store to a file that is in hand or in a descriptor. -/
theorem Counts.setFile {new' : List (Fin NFILE)} (h : Counts s hand new)
    (hf : f ∈ hand ∨ ∃ slot, s.held slot = some f)
    (href : file.ref + hand.count f = (s.ftable f).ref + hand'.count f)
    (hrest : ∀ g, g ≠ f → hand'.count g = hand.count g) (htype : file.ref = 0 → file.type = .none)
    (hnew : ∀ g ∈ new', g ∈ new ∧ g ≠ f) : Counts (s.setFile f file) hand' new' := by
  refine ⟨fun g => ?_, fun g => ?_, fun q g hg => ?_, fun g hg => ?_⟩
  · have hg := h.refs g
    show _ = holders s.held g + s.inCalls g + _
    by_cases hgf : g = f
    · rw [hgf] at hg ⊢
      rw [ftable_setFile_self]
      omega
    · rwa [ftable_setFile_of_ne hgf, hrest g hgf]
  · by_cases hgf : g = f
    · rwa [hgf, ftable_setFile_self]
    rw [ftable_setFile_of_ne hgf]
    exact h.types g
  · have hgf : g ≠ f := fun heq => h.not_fresh hf q (heq ▸ hg)
    rw [ftable_setFile_of_ne hgf]
    exact h.fresh q g hg
  · rw [ftable_setFile_of_ne (hnew g hg).2]
    exact h.new g (hnew g hg).1

/-! ## The functions of `file.c` -/

theorem filealloc_eq_some {ft' : Ftable} (h : filealloc ft = some (f, ft')) :
    (ft f).ref = 0 ∧ ft' = update ft f { ft f with ref := 1 } := by
  unfold filealloc at h
  split at h
  · cases h
  rename_i i hfind
  obtain ⟨rfl, rfl⟩ := mk.inj (some.inj h)
  exact ⟨by simpa using find?_some hfind, rfl⟩

/-- `filealloc` gives a new file. -/
theorem Counts.filealloc (h : Counts s hand new) (hf : Xv6.filealloc s.ftable = some (f, ft)) :
    Counts { s with ftable := ft } (f :: hand) (f :: new) := by
  obtain ⟨hzero, rfl⟩ := filealloc_eq_some hf
  have hne : ∀ g, (s.ftable g).ref = 1 → g ≠ f := fun g hg heq => by
    rw [heq, hzero] at hg
    cases hg
  show Counts (s.setFile f { s.ftable f with ref := 1 }) _ _
  refine ⟨fun g => ?_, fun g => ?_, fun q g hg => ?_, fun g hg => ?_⟩
  · have hg := h.refs g
    show _ = holders s.held g + s.inCalls g + _
    by_cases hgf : g = f
    · rw [hgf] at hg ⊢
      rw [ftable_setFile_self, count_cons_self]
      show 1 = _
      omega
    · rwa [ftable_setFile_of_ne hgf, count_cons_of_ne (Ne.symm hgf)]
  · by_cases hgf : g = f
    · rw [hgf, ftable_setFile_self]
      nofun
    · rw [ftable_setFile_of_ne hgf]
      exact h.types g
  · have hgq := h.fresh q g hg
    rwa [ftable_setFile_of_ne (hne g hgq.1)]
  · rcases mem_cons.1 hg with rfl | hg
    · rw [ftable_setFile_self]
      exact ⟨rfl, h.types g hzero⟩
    · have hgn := h.new g hg
      rwa [ftable_setFile_of_ne (hne g hgn.1)]

theorem filedup_eq_ok (h : s.filedup f = .ok t) : 0 < (s.ftable f).ref ∧
      t = s.setFile f { s.ftable f with ref := (s.ftable f).ref + 1 } := by
  unfold filedup at h
  split at h
  · cases h
  · exact ⟨by omega, (ok.inj h).symm⟩

/-- `filedup` of a file that a descriptor holds. -/
theorem Counts.filedup (h : Counts s hand []) (hslot : s.held slot = some f)
    (hf : s.filedup f = .ok t) : Counts t (f :: hand) [] := by
  obtain ⟨_, rfl⟩ := filedup_eq_ok hf
  refine h.setFile (.inr ⟨slot, hslot⟩) ?_ ?_ nofun nofun
  · rw [count_cons_self]
    show _ + 1 + _ = _
    omega
  · intro g hg
    rw [count_cons_of_ne (Ne.symm hg)]

theorem filecloseTable_eq_ok {ft' : Ftable} {last : Option File}
    (h : filecloseTable ft f = .ok (last, ft')) : 0 < (ft f).ref ∧ (1 < (ft f).ref ∧ last = none ∧
          ft' = update ft f { ft f with ref := (ft f).ref - 1 } ∨
        (ft f).ref = 1 ∧ last = some (ft f) ∧
          ft' = update ft f { ft f with ref := 0, type := .none }) := by
  unfold filecloseTable at h
  split at h
  · cases h
  split at h
  · obtain ⟨rfl, rfl⟩ := mk.inj (ok.inj h)
    exact ⟨by omega, .inl ⟨by omega, rfl, rfl⟩⟩
  · obtain ⟨rfl, rfl⟩ := mk.inj (ok.inj h)
    exact ⟨by omega, .inr ⟨by omega, rfl, rfl⟩⟩

/-- `fileclose` drops a reference that is in hand. -/
theorem Counts.fileclose {last : Option File} (h : Counts s (f :: hand) [])
    (hf : filecloseTable s.ftable f = .ok (last, ft)) : Counts { s with ftable := ft } hand [] := by
  have hrest : ∀ g, g ≠ f → hand.count g = (f :: hand).count g := fun g hg => by
    rw [count_cons_of_ne (Ne.symm hg)]
  obtain ⟨hpos, ⟨_, _, rfl⟩ | ⟨hone, _, rfl⟩⟩ := filecloseTable_eq_ok hf
  · refine h.setFile (.inl mem_cons_self) ?_ hrest ?_ nofun
    · rw [count_cons_self]
      show _ - 1 + (_ + 1) = _
      omega
    intro hzero
    have : (s.ftable f).ref - 1 = 0 := hzero
    omega
  · refine h.setFile (.inl mem_cons_self) ?_ hrest (fun _ => rfl) nofun
    rw [count_cons_self]
    show 0 + (_ + 1) = _
    omega

/-! ## Descriptors -/

theorem ofile_setSlot_self : (s.setSlot slot v).ofile slot = v :=
  update_self _ _ _

theorem ofile_setSlot_of_ne {x : Slot} (h : x ≠ slot) : (s.setSlot slot v).ofile x = s.ofile x :=
  update_of_ne h _ _

theorem held_setSlot (h : (s.loc slot.1).dropped ≠ some slot.2) :
    (s.setSlot slot v).held = update s.held slot v := by
  funext x
  show (if (s.loc x.1).dropped = some x.2 then none else update s.ofile slot v x) = _
  by_cases hx : x = slot
  · rw [hx, update_self, if_neg h, update_self]
  · rw [update_of_ne hx, update_of_ne hx, held]

theorem held_of_none (h : s.ofile slot = none) : s.held slot = none := by
  rw [held]
  split
  · rfl
  · exact h

theorem held_of_not_dropped (h : (s.loc slot.1).dropped ≠ some slot.2) :
    s.held slot = s.ofile slot := if_neg h

/-- A store to a descriptor moves references between it and the hand. -/
theorem Counts.setSlot (h : Counts s hand new) (hslot : (s.loc slot.1).dropped ≠ some slot.2)
    (hmove : ∀ f, hand'.count f + (if v = some f then 1 else 0) =
      hand.count f + (if s.ofile slot = some f then 1 else 0)) :
    Counts (s.setSlot slot v) hand' new := by
  refine ⟨fun f => ?_, h.types, h.fresh, h.new⟩
  have hf := h.refs f
  have hm := hmove f
  have hh := holders_update s.held slot v f
  rw [held_setSlot hslot]
  rw [held_of_not_dropped hslot] at hh
  show (s.ftable f).ref = _ + s.inCalls f + _
  omega

theorem fdalloc_eq_some (h : s.fdalloc p f = some (fd, t)) :
    s.ofile (p, fd) = none ∧ t = s.setSlot (p, fd) (some f) := by
  obtain ⟨fd', hfind, heq⟩ := map_eq_some_iff.1 h
  cases heq
  exact ⟨by simpa using find?_some hfind, rfl⟩

/-- `fdalloc` puts a reference into a descriptor. -/
theorem Counts.fdalloc (h : Counts s (f :: hand) new)
    (hp : (s.loc p).dropped = none) (hf : s.fdalloc p f = some (fd, t)) : Counts t hand new := by
  obtain ⟨hnone, rfl⟩ := fdalloc_eq_some hf
  refine h.setSlot (by rw [hp]; nofun) fun g => ?_
  rw [hnone]
  by_cases hgf : g = f
  · rw [hgf, count_cons_self]
    simp
  · rw [count_cons_of_ne (Ne.symm hgf)]
    simp [Ne.symm hgf]

/-- A descriptor is cleared, and its reference is in hand. -/
theorem Counts.clear (h : Counts s hand new) (hslot : (s.loc slot.1).dropped ≠ some slot.2)
    (hf : s.ofile slot = some f) : Counts (s.setSlot slot none) (f :: hand) new := by
  refine h.setSlot hslot fun g => ?_
  rw [hf]
  by_cases hgf : g = f
  · rw [hgf, count_cons_self]
    simp
  · rw [count_cons_of_ne (Ne.symm hgf)]
    simp [Ne.symm hgf]

/-! ## `exit` -/

theorem loc_goto_self : (s.goto p l).loc p = l := update_self _ _ _

theorem loc_goto_of_ne {q : Fin NPROC} (h : q ≠ p) : (s.goto p l).loc q = s.loc q :=
  update_of_ne h _ _

/-- `exit` starts to close a file: the descriptor does not count any more, and
the reference is in the call. -/
theorem Counts.drop (h : Counts s hand new) (hp : (s.loc p).dropped = none)
    (hf : s.ofile (p, fd) = some f) (hl : l.dropped = some fd)
    (hrefs : ∀ g, l.refs.count g = (s.loc p).refs.count g + if f = g then 1 else 0)
    (hfresh : l.fresh = []) : Counts (s.goto p l) hand new := by
  have hheld : (s.goto p l).held = update s.held (p, fd) none := by
    funext x
    by_cases hx : x.1 = p
    · obtain ⟨q, fd'⟩ := x
      obtain rfl : q = p := hx
      rw [held, loc_goto_self, hl]
      by_cases hfd : fd' = fd
      · rw [hfd, if_pos rfl, update_self]
      rw [if_neg fun h => hfd (some.inj h).symm,
        update_of_ne fun h => hfd (congrArg snd h), held_of_not_dropped]
      · rfl
      · rw [hp]
        nofun
    · rw [update_of_ne fun h => hx (congrArg fst h), held, loc_goto_of_ne hx]
      rfl
  refine ⟨fun g => ?_, h.types, fun q g hg => ?_, h.new⟩
  · have hcalls := inCalls_goto s p l g
    have hcount := holders_update s.held (p, fd) none g
    rw [held_of_not_dropped (by rw [hp]; nofun), hf] at hcount
    have hg := h.refs g
    have hr := hrefs g
    rw [hheld]
    show (s.ftable g).ref = _
    simp only [some.injEq, reduceCtorEq, if_false] at hcount
    omega
  · by_cases hq : q = p
    · rw [hq, loc_goto_self, hfresh] at hg
      cases hg
    · rw [loc_goto_of_ne hq] at hg
      exact h.fresh q g hg

/-- `exit` clears the descriptor. -/
theorem Counts.undrop (h : Counts s hand new)
    (hp : (s.loc p).dropped = some fd) (hl : l.dropped = none)
    (hrefs : l.refs = (s.loc p).refs) (hfresh : l.fresh = []) :
    Counts ((s.setSlot (p, fd) none).goto p l) hand new := by
  have hheld : ((s.setSlot (p, fd) none).goto p l).held = s.held := by
    funext x
    by_cases hx : x.1 = p
    · obtain ⟨q, fd'⟩ := x
      obtain rfl : q = p := hx
      rw [held, held, loc_goto_self, hl, hp, if_neg nofun]
      show update s.ofile (q, fd) none (q, fd') = _
      by_cases hfd : fd' = fd
      · rw [hfd, if_pos rfl, update_self]
      rw [if_neg fun h => hfd (some.inj h).symm,
        update_of_ne fun h => hfd (congrArg snd h)]
    · rw [held, held, loc_goto_of_ne hx]
      show (if _ then none else update s.ofile (p, fd) none x) = _
      rw [update_of_ne fun h => hx (congrArg fst h)]
      rfl
  refine ⟨fun g => ?_, h.types, fun q g hg => ?_, h.new⟩
  · have hcalls := inCalls_goto (s.setSlot (p, fd) none) p l g
    have hg := h.refs g
    have hr : ((s.setSlot (p, fd) none).loc p).refs.count g = l.refs.count g := by rw [hrefs]; rfl
    have hs : (s.setSlot (p, fd) none).inCalls g = s.inCalls g := rfl
    rw [hheld]
    show (s.ftable g).ref = _
    omega
  by_cases hq : q = p
  · rw [hq, loc_goto_self, hfresh] at hg
    cases hg
  · rw [loc_goto_of_ne hq] at hg
    exact h.fresh q g hg

end Xv6.Files
