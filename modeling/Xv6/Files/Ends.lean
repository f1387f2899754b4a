import Xv6.Files.Counts

/-!
# Ends of pipes

A pipe has two ends, and each end is one entry of the file table until its
last reference is dropped, then in the hand of the call that dropped it, and
then closed.  `Ends` says so as one equation for each end.  That the page of
a pipe is not used for anything else as long as an end points to it follows
from `Pages`: every page is in one place.
-/

namespace Xv6.Files

open Lib Function List Option State

/-- An end of a pipe: the page, whether it is a priority pipe, and
`writable`. -/
structure PipeEnd where
  page : Nat
  rt : Bool
  writable : Bool
  deriving DecidableEq

/-- The end that a file is. -/
def fileEnds (file : File) : List PipeEnd :=
  match file.type with
  | .pipe => [⟨file.pipe, false, file.writable != 0⟩]
  | .pipeRt => [⟨file.pipe, true, file.writable != 0⟩]
  | _ => []

namespace Loc

/-- The ends that the call has still to close. -/
def ends : Loc → List PipeEnd
  | .closeEnd ff next => fileEnds ff ++ next.ends
  | .close _ next => next.ends
  | .kfree _ next => next.ends
  | _ => []

/-- The pages of the call. -/
def pages : Loc → List Nat
  | .pipeRead page => [page]
  | .pipeWrite page _ => page.toList
  | .pipeInit _ page _ _ => [page]
  | .kfree page next => page :: next.pages
  | .close _ next => next.pages
  | .closeEnd _ next => next.pages
  | _ => []

end Loc

/-- How often the end is in the file table or in a call. -/
def State.around (s : State) (e : PipeEnd) : Nat :=
  tally (fileEnds ∘ s.ftable) e + tally (Loc.ends ∘ s.loc) e

/-- Every end is around once or closed once, with the ends in a `hand`. -/
structure Ends (s : State) (hand : List PipeEnd) : Prop where
  live : ∀ page i, s.mem page = some i → i < s.npipes ∧ ∀ rt w,
    (s.pipe i).closed.count (rt, w) + s.around ⟨page, rt, w⟩ + hand.count ⟨page, rt, w⟩ =
      if rt = (s.pipe i).rt then 1 else 0
  void : ∀ page, s.mem page = none → ∀ rt w, s.around ⟨page, rt, w⟩ + hand.count ⟨page, rt, w⟩ = 0
  gone : ∀ i < s.npipes, (∀ page, s.mem page ≠ some i) → ∀ rt w,
    (s.pipe i).closed.count (rt, w) = if rt = (s.pipe i).rt then 1 else 0
  inj : ∀ a b i, s.mem a = some i → s.mem b = some i → a = b
  opens : ∀ i < s.npipes, (s.pipe i).readopen = 1 - (s.pipe i).closed.count ((s.pipe i).rt, false) ∧
    (s.pipe i).writeopen = 1 - (s.pipe i).closed.count ((s.pipe i).rt, true)

/-- Every page is free, with the rest of the kernel, the page of a pipe, in a
call, or in a `hand`, and only in one of these places. -/
def Pages (s : State) (hand : List Nat) : Prop :=
  ∀ a, s.kmem.freelist.count a + s.others.count a + (s.mem a).toList.length +
    tally (Loc.pages ∘ s.loc) a + hand.count a ≤ 1

variable {s t : State} {hand hand' : List PipeEnd} {f : Fin NFILE} {p : Fin NPROC} {l : Loc}

/-! ## Moving ends -/

theorem around_goto (s : State) (p : Fin NPROC) (l : Loc) (e : PipeEnd) :
    (s.goto p l).around e + (s.loc p).ends.count e = s.around e + l.ends.count e := by
  have h := tally_update (Loc.ends ∘ s.loc) p l.ends e
  rw [← comp_update] at h
  rw [around, around]
  show tally (fileEnds ∘ s.ftable) e + tally (Loc.ends ∘ update s.loc p l) e + _ = _
  simp only [comp_apply] at h
  omega

theorem around_setFile (s : State) (f : Fin NFILE) (file : File) (e : PipeEnd) :
    (s.setFile f file).around e + (fileEnds (s.ftable f)).count e =
      s.around e + (fileEnds file).count e := by
  have h := tally_update (fileEnds ∘ s.ftable) f (fileEnds file) e
  rw [← comp_update] at h
  rw [around, around]
  show tally (fileEnds ∘ update s.ftable f file) e + tally (Loc.ends ∘ s.loc) e + _ = _
  simp only [comp_apply] at h
  omega

/-- The ends have moved between the state and the hand. -/
theorem Ends.move (h : Ends s hand) (hmem : t.mem = s.mem) (hpipe : t.pipe = s.pipe)
    (hn : t.npipes = s.npipes)
    (hmove : ∀ e, t.around e + hand'.count e = s.around e + hand.count e) : Ends t hand' := by
  refine ⟨fun page i hi => ?_, fun page hv rt w => ?_, fun i hi hg => ?_, ?_, ?_⟩
  · rw [hmem] at hi
    rw [hn, hpipe]
    refine ⟨(h.live page i hi).1, fun rt w => ?_⟩
    have := (h.live page i hi).2 rt w
    have := hmove ⟨page, rt, w⟩
    omega
  · rw [hmem] at hv
    rw [hmove]
    exact h.void page hv rt w
  · rw [hn] at hi
    rw [hmem] at hg
    rw [hpipe]
    exact h.gone i hi hg
  · rw [hmem]
    exact h.inj
  · rw [hn, hpipe]
    exact h.opens

theorem Ends.goto (h : Ends s hand)
    (hmove : ∀ e, hand'.count e + l.ends.count e = hand.count e + (s.loc p).ends.count e) :
    Ends (s.goto p l) hand' := by
  refine h.move rfl rfl rfl fun e => ?_
  have := around_goto s p l e
  have := hmove e
  omega

variable {file : File}

theorem Ends.setFile (h : Ends s hand) (hmove : ∀ e, hand'.count e + (fileEnds file).count e =
      hand.count e + (fileEnds (s.ftable f)).count e) : Ends (s.setFile f file) hand' := by
  refine h.move rfl rfl rfl fun e => ?_
  have := around_setFile s f file e
  have := hmove e
  omega

/-- A change to a file that keeps its end. -/
theorem Ends.keepFile (h : Ends s hand)
    (hends : fileEnds file = fileEnds (s.ftable f)) : Ends (s.setFile f file) hand :=
  h.setFile fun e => by rw [hends]

theorem fileEnds_of_none (h : file.type = .none) : fileEnds file = [] := by
  rw [fileEnds, h]

/-! ## A new pipe -/

theorem fileEnds_pipeFile (file : File) (rt : Bool) (page : Nat) (w : Bool) :
    fileEnds (pipeFile file rt page w) = [⟨page, rt, w⟩] := by
  cases rt <;> cases w <;> rfl

theorem Ends.newPipe {rt : Bool} {page : Nat} {rf wf : Fin NFILE} (h : Ends s [])
    (hmem : s.mem page = none) (hne : rf ≠ wf) (hrf : (s.ftable rf).type = .none)
    (hwf : (s.ftable wf).type = .none) : Ends (s.newPipe rt page rf wf) [] := by
  have haround : ∀ e, (s.newPipe rt page rf wf).around e =
      s.around e + [⟨page, rt, false⟩].count e + [⟨page, rt, true⟩].count e := by
    intro e
    have h1 := around_setFile s rf (State.pipeFile (s.ftable rf) rt page false) e
    have h2 := around_setFile (s.setFile rf (State.pipeFile (s.ftable rf) rt page false)) wf
      (State.pipeFile (s.ftable wf) rt page true) e
    rw [ftable_setFile_of_ne hne.symm] at h2
    rw [fileEnds_of_none hrf, fileEnds_pipeFile] at h1
    rw [fileEnds_of_none hwf, fileEnds_pipeFile] at h2
    have hs : (s.newPipe rt page rf wf).around e =
        ((s.setFile rf (State.pipeFile (s.ftable rf) rt page false)).setFile wf
          (State.pipeFile (s.ftable wf) rt page true)).around e := by
      rw [State.newPipe]
      simp only [State.setFile, update_of_ne hne.symm]
      rfl
    rw [hs]
    simp only [List.count_nil] at h1 h2
    omega
  have hpipe : ∀ i, i < s.npipes → (s.newPipe rt page rf wf).pipe i = s.pipe i := fun i hi =>
    update_of_ne (by omega) _ _
  have hlt : ∀ a i, s.mem a = some i → i < s.npipes := fun a i hi => (h.live a i hi).1
  have hnew : (s.newPipe rt page rf wf).pipe s.npipes =
      { rt := rt, readopen := 1, writeopen := 1, closed := [] } := update_self _ _ _
  have hmem' : (s.newPipe rt page rf wf).mem = update s.mem page (some s.npipes) := rfl
  have hn : (s.newPipe rt page rf wf).npipes = s.npipes + 1 := rfl
  refine ⟨fun a i hi => ?_, fun a hv rt' w => ?_, fun i hi hg rt' w => ?_, ?_, fun i hi => ?_⟩
  · rw [hmem'] at hi
    rw [hn]
    by_cases ha : a = page
    · rw [ha, update_self] at hi
      cases hi
      refine ⟨by omega, fun rt' w => ?_⟩
      have hvoid := h.void page hmem rt' w
      rw [haround, hnew, ha]
      simp only [List.count_nil] at hvoid ⊢
      by_cases hrt : rt' = rt
      · rw [hrt] at hvoid ⊢
        cases w <;> simp <;> omega
      · simp [hrt, Ne.symm hrt]
        omega
    · rw [update_of_ne ha] at hi
      refine ⟨Nat.lt_succ_of_lt (hlt a i hi), fun rt' w => ?_⟩
      have hlive := (h.live a i hi).2 rt' w
      rw [haround, hpipe i (hlt a i hi)]
      simp [Ne.symm ha] at hlive ⊢
      omega
  · rw [hmem'] at hv
    have ha : a ≠ page := by
      rintro rfl
      rw [update_self] at hv
      cases hv
    rw [update_of_ne ha] at hv
    have hvoid := h.void a hv rt' w
    rw [haround]
    simp [Ne.symm ha] at hvoid ⊢
    omega
  · have hi' : i < s.npipes := by
      rw [hn] at hi
      have hne : i ≠ s.npipes := by
        rintro rfl
        exact hg page (by rw [hmem', update_self])
      omega
    rw [hpipe i hi']
    refine h.gone i hi' (fun a ha => ?_) rt' w
    have hap : a ≠ page := by
      rintro rfl
      rw [hmem] at ha
      cases ha
    exact hg a (by rw [hmem', update_of_ne hap, ha])
  · intro a b i ha hb
    rw [hmem'] at ha hb
    by_cases hap : a = page
    · by_cases hbp : b = page
      · rw [hap, hbp]
      rw [hap, update_self] at ha
      rw [update_of_ne hbp] at hb
      cases ha
      exact absurd (hlt b _ hb) (Nat.lt_irrefl _)
    rw [update_of_ne hap] at ha
    by_cases hbp : b = page
    · rw [hbp, update_self] at hb
      cases hb
      exact absurd (hlt a _ ha) (Nat.lt_irrefl _)
    · rw [update_of_ne hbp] at hb
      exact h.inj a b i ha hb
  · by_cases hi' : i = s.npipes
    · rw [hi', hnew]
      exact ⟨rfl, rfl⟩
    have hlt' : i < s.npipes := by
      rw [hn] at hi
      omega
    rw [hpipe i hlt']
    exact h.opens i hlt'

/-! ## Closing an end -/

/-- An end in hand is the open end of a pipe of its kind. -/
theorem Ends.of_hand {e : PipeEnd} (h : Ends s (e :: hand)) :
    ∃ i, s.mem e.page = some i ∧ i < s.npipes ∧ (s.pipe i).rt = e.rt ∧
      (s.pipe i).closed.count (e.rt, e.writable) = 0 := by
  cases hmem : s.mem e.page with
  | none =>
    have := h.void e.page hmem e.rt e.writable
    rw [count_cons_self] at this
    omega
  | some i =>
    obtain ⟨hi, hlive⟩ := h.live e.page i hmem
    have hcount := hlive e.rt e.writable
    rw [count_cons_self] at hcount
    by_cases hrt : e.rt = (s.pipe i).rt
    · rw [if_pos hrt] at hcount
      exact ⟨i, rfl, hi, hrt.symm, by omega⟩
    · rw [if_neg hrt] at hcount
      omega

/-- One close of the end. -/
theorem Ends.close {e : PipeEnd} {i : Nat} {pi : Pipe} (h : Ends s (e :: hand))
    (hmem : s.mem e.page = some i) (hrt : pi.rt = (s.pipe i).rt)
    (hclosed : pi.closed = (e.rt, e.writable) :: (s.pipe i).closed)
    (hopens : pi.readopen = 1 - pi.closed.count (pi.rt, false) ∧
      pi.writeopen = 1 - pi.closed.count (pi.rt, true)) :
    Ends { s with pipe := update s.pipe i pi } hand := by
  have hother : ∀ j, j ≠ i → update s.pipe i pi j = s.pipe j := fun j hj =>
    update_of_ne hj _ _
  have hself : update s.pipe i pi i = pi := update_self _ _ _
  refine ⟨fun a j hj => ?_, fun a hv rt w => ?_, fun j hj hg rt w => ?_, h.inj, fun j hj => ?_⟩
  · refine ⟨(h.live a j hj).1, fun rt w => ?_⟩
    have hlive := (h.live a j hj).2 rt w
    show (update s.pipe i pi j).closed.count (rt, w) + s.around ⟨a, rt, w⟩ + _ =
      if rt = (update s.pipe i pi j).rt then 1 else 0
    by_cases hji : j = i
    · -- the end moves from the hand to the history
      rw [hji] at hj hlive ⊢
      obtain rfl := h.inj a e.page i hj hmem
      rw [hself, hclosed, hrt]
      by_cases he : rt = e.rt ∧ w = e.writable
      · obtain ⟨rfl, rfl⟩ := he
        rw [count_cons_self] at hlive ⊢
        omega
      have hne : e ≠ ⟨e.page, rt, w⟩ := fun heq => he
        ⟨(congrArg PipeEnd.rt heq).symm, (congrArg PipeEnd.writable heq).symm⟩
      have hne' : (e.rt, e.writable) ≠ (rt, w) := fun heq => he
        ⟨(congrArg Prod.fst heq).symm, (congrArg Prod.snd heq).symm⟩
      rw [count_cons_of_ne hne] at hlive
      rwa [count_cons_of_ne hne']
    · have hne : e ≠ ⟨a, rt, w⟩ := fun heq => hji (by
        rw [heq] at hmem
        exact some.inj (hj.symm.trans hmem))
      rw [count_cons_of_ne hne] at hlive
      rwa [hother j hji]
  · have hvoid := h.void a hv rt w
    show s.around ⟨a, rt, w⟩ + _ = 0
    have := count_le_count_cons (a := ⟨a, rt, w⟩) (b := e) (l := hand)
    omega
  · have hji : j ≠ i := by
      rintro rfl
      exact hg e.page hmem
    show (update s.pipe i pi j).closed.count (rt, w) =
      if rt = (update s.pipe i pi j).rt then 1 else 0
    rw [hother j hji]
    exact h.gone j hj hg rt w
  · show (update s.pipe i pi j).readopen =
        1 - (update s.pipe i pi j).closed.count ((update s.pipe i pi j).rt, false)
      ∧ (update s.pipe i pi j).writeopen =
        1 - (update s.pipe i pi j).closed.count ((update s.pipe i pi j).rt, true)
    by_cases hji : j = i
    · rwa [hji, hself]
    rw [hother j hji]
    exact h.opens j hj

/-- Both ends are closed, and the page has no pipe any more. -/
theorem Ends.free {page i : Nat} (h : Ends s hand) (hmem : s.mem page = some i)
    (hread : (s.pipe i).readopen = 0) (hwrite : (s.pipe i).writeopen = 0) :
    Ends { s with mem := update s.mem page none } hand := by
  obtain ⟨hi, hlive⟩ := h.live page i hmem
  obtain ⟨hr, hw⟩ := h.opens i hi
  have hcount : ∀ w, (s.pipe i).closed.count ((s.pipe i).rt, w) = 1 := by
    intro w
    cases w <;> omega
  have hzero : ∀ rt w, s.around ⟨page, rt, w⟩ + hand.count ⟨page, rt, w⟩ = 0 := by
    intro rt w
    have := hlive rt w
    by_cases hrt : rt = (s.pipe i).rt
    · rw [hrt, hcount, if_pos rfl] at this
      rw [hrt]
      omega
    · rw [if_neg hrt] at this
      omega
  have hother : ∀ a j, update s.mem page none a = some j → s.mem a = some j := by
    intro a j hj
    by_cases ha : a = page
    · rw [ha, update_self] at hj
      cases hj
    · rwa [update_of_ne ha] at hj
  refine ⟨fun a j hj => h.live a j (hother a j hj), fun a hv rt w => ?_, fun j hj hg rt w => ?_,
    fun a b j ha hb => h.inj a b j (hother a j ha) (hother b j hb), h.opens⟩
  · by_cases ha : a = page
    · rw [ha]
      exact hzero rt w
    · exact h.void a (by rwa [← update_of_ne ha none s.mem]) rt w
  by_cases hji : j = i
  · -- the pipe that has gone has been closed at both ends
    show (s.pipe j).closed.count (rt, w) = if rt = (s.pipe j).rt then 1 else 0
    have := hlive rt w
    have := hzero rt w
    rw [hji]
    omega
  refine h.gone j hj (fun a ha => ?_) rt w
  have hap : a ≠ page := by
    rintro rfl
    exact hji (some.inj (ha.symm.trans hmem))
  exact hg a (by rwa [← update_of_ne hap none s.mem] at ha)

/-! ## Pages -/

section Pages

variable {pages pages' : List Nat} {page : Nat}

theorem Pages.goto (h : Pages s pages)
    (hmove : ∀ a, pages'.count a + l.pages.count a = pages.count a + (s.loc p).pages.count a) :
    Pages (s.goto p l) pages' := by
  intro a
  have hcalls := tally_update (Loc.pages ∘ s.loc) p l.pages a
  rw [← comp_update] at hcalls
  have hmove := hmove a
  have ha := h a
  show s.kmem.freelist.count a + s.others.count a + (s.mem a).toList.length +
    tally (Loc.pages ∘ update s.loc p l) a + _ ≤ 1
  simp only [comp_apply] at hcalls
  omega

theorem Pages.kalloc {k : Kmem} (h : Pages s pages) (hk : kalloc s.kmem = some (page, k)) :
    Pages { s with kmem := k } (page :: pages) := by
  intro a
  have ha := h a
  obtain ⟨hfree, _⟩ := kalloc_eq_some.1 hk
  rw [hfree, count_cons] at ha
  show k.freelist.count a + s.others.count a + (s.mem a).toList.length +
    tally (Loc.pages ∘ s.loc) a + _ ≤ 1
  rw [count_cons]
  omega

theorem Pages.kfree {k : Kmem} (h : Pages s (page :: pages)) (hk : kfree s.kmem page = .ok k) :
    Pages { s with kmem := k } pages := by
  intro a
  have ha := h a
  obtain ⟨_, rfl⟩ := kfree_eq_ok.1 hk
  rw [count_cons] at ha
  show (page :: s.kmem.freelist).count a + s.others.count a + (s.mem a).toList.length +
    tally (Loc.pages ∘ s.loc) a + _ ≤ 1
  rw [count_cons]
  omega

theorem Pages.mem_eq_none (h : Pages s (page :: pages)) : s.mem page = none := by
  have ha := h page
  rw [count_cons_self] at ha
  cases hmem : s.mem page with
  | none => rfl
  | some i =>
    rw [hmem] at ha
    simp only [toList_some, length_singleton] at ha
    omega

theorem Pages.setMem {v : Option Nat} (h : Pages s pages)
    (hmove : ∀ a, pages'.count a + (if a = page then v.toList.length else 0) =
      pages.count a + if a = page then (s.mem page).toList.length else 0) :
    Pages { s with mem := update s.mem page v } pages' := by
  intro a
  have ha := h a
  have hmove := hmove a
  show s.kmem.freelist.count a + s.others.count a +
    (update s.mem page v a).toList.length + tally (Loc.pages ∘ s.loc) a + _ ≤ 1
  by_cases hap : a = page
  · rw [if_pos hap, if_pos hap] at hmove
    rw [hap] at ha hmove ⊢
    rw [update_self]
    omega
  · rw [if_neg hap, if_neg hap] at hmove
    rw [update_of_ne hap]
    omega

end Pages

end Xv6.Files
