import Xv6.Vm.Uvm

/-!
# The regions of an address space

`sys_show_vm_areas` of `proj4/kernel/show_vm.c` goes over all pages below
`MAXVA` once and prints a line when a run of valid pages ends.  It prints
nothing after the loop, so that a run that reaches the last page is lost; in
the page table of a process this is the run of the trampoline.
-/

namespace Xv6

/-- A printed line: `prev_va`, `va` and `pages`. -/
structure Region where
  start : Nat
  stop : Nat
  pages : Nat

/-- The loop of `sys_show_vm_areas` over the `n` pages from `va` on.  An entry
that `walk` does not find or that is not valid is no leaf. -/
def showFrom (pt : PageTable) : Nat → Nat → Nat → Nat → List Region
  | 0, _, _, _ => []
  | n + 1, va, prev, pages =>
    if (pt.leaf va).isSome then
      if pages = 0 then showFrom pt n (va + PGSIZE) va 1
      else showFrom pt n (va + PGSIZE) prev (pages + 1)
    else if pages > 0 then
      ⟨prev, va, pages⟩ :: showFrom pt n (va + PGSIZE) prev 0
    else showFrom pt n (va + PGSIZE) prev pages

/-- `sys_show_vm_areas`: the lines that it prints. -/
def sysShowVmAreas (pt : PageTable) : List Region := showFrom pt (MAXVA / PGSIZE) 0 0 0

/-- What the lines should be: the maximal runs of valid pages, in order, and
all of them. -/
structure ShowsAreas (pt : PageTable) (rs : List Region) : Prop where
  aligned : ∀ r ∈ rs, r.start % PGSIZE = 0 ∧ r.stop % PGSIZE = 0 ∧ r.start < r.stop
  ordered : rs.Pairwise fun r r' => r.stop ≤ r'.start
  maximal : ∀ r ∈ rs, (r.start = 0 ∨ pt.leaf (r.start - PGSIZE) = none) ∧
    (r.stop = MAXVA ∨ pt.leaf r.stop = none)
  pages : ∀ r ∈ rs, r.pages = (r.stop - r.start) / PGSIZE
  covers : ∀ va, va % PGSIZE = 0 → va < MAXVA →
    (pt.leaf va ≠ none ↔ ∃ r ∈ rs, r.start ≤ va ∧ va < r.stop)

/-- The line of a run that ends in front of an invalid page: its page
numbers are `a` to `b`. -/
structure EndedRun (pt : PageTable) (a b : Nat) (r : Region) : Prop where
  eq : r = ⟨a * PGSIZE, b * PGSIZE, b - a⟩
  lt : a < b
  first : a = 0 ∨ pt.leaf ((a - 1) * PGSIZE) = none
  valid : ∀ v, a ≤ v → v < b → pt.leaf (v * PGSIZE) ≠ none
  ended : pt.leaf (b * PGSIZE) = none

variable {pt : PageTable} {n v prev pages : Nat}

/-- The loop has come to page `v` and is in a run of `pages` pages. -/
structure InRun (pt : PageTable) (v prev pages : Nat) : Prop where
  le : pages ≤ v
  prev : pages ≠ 0 → prev = (v - pages) * PGSIZE
  first : v - pages = 0 ∨ pt.leaf ((v - pages - 1) * PGSIZE) = none
  valid : ∀ w, v - pages ≤ w → w < v → pt.leaf (w * PGSIZE) ≠ none

/-- The run goes on, or starts, with a valid page. -/
theorem InRun.next (h : InRun pt v prev pages) (hv : pt.leaf (v * PGSIZE) ≠ none) :
    InRun pt (v + 1) (if pages = 0 then v * PGSIZE else prev) (pages + 1) where
  le := Nat.add_le_add_right h.le 1
  prev _ := by
    rw [Nat.add_sub_add_right]
    split
    · rename_i hzero
      rw [hzero, Nat.sub_zero]
    · rename_i hpos
      exact h.prev hpos
  first := by
    rw [Nat.add_sub_add_right]
    exact h.first
  valid w hlo hhi := by
    obtain rfl | hlt := Nat.eq_or_lt_of_le (Nat.le_of_lt_succ hhi)
    · exact hv
    · exact h.valid w (by omega) hlt

/-- After an invalid page there is no run. -/
theorem InRun.none (hv : pt.leaf (v * PGSIZE) = none) : InRun pt (v + 1) prev 0 :=
  ⟨Nat.zero_le _, nofun, .inr hv, fun w hlo hhi => by omega⟩

/-- Lines for the pages `lo` to `hi`: ended runs, one after the other.  A valid
page is in one of them, or all pages after it are valid. -/
structure Lines (pt : PageTable) (lo hi : Nat) (rs : List Region) : Prop where
  runs : ∀ r ∈ rs, ∃ a b, EndedRun pt a b r ∧ lo ≤ a ∧ b < hi
  ordered : rs.Pairwise fun r r' => r.stop ≤ r'.start
  covers : ∀ v, lo ≤ v → v < hi → pt.leaf (v * PGSIZE) ≠ none →
    (∃ r ∈ rs, r.start ≤ v * PGSIZE ∧ v * PGSIZE < r.stop) ∨
    ∀ u, v ≤ u → u < hi → pt.leaf (u * PGSIZE) ≠ none

/-- No line before an invalid page. -/
theorem Lines.skip {hi : Nat} {rs : List Region} (h : Lines pt (v + 1) hi rs)
    (hv : pt.leaf (v * PGSIZE) = none) : Lines pt v hi rs where
  runs r hr := by
    obtain ⟨a, b, hrun, ha, hb⟩ := h.runs r hr
    exact ⟨a, b, hrun, by omega, hb⟩
  ordered := h.ordered
  covers w hlo hhi hw :=
    h.covers w (Nat.lt_of_le_of_ne hlo fun heq => hw (heq ▸ hv)) hhi hw

/-- The line of a run in front of an invalid page. -/
theorem Lines.cons {hi a : Nat} {r : Region} {rs : List Region} (h : Lines pt v hi rs)
    (hr : EndedRun pt a v r) (hv : v < hi) : Lines pt a hi (r :: rs) where
  runs := by
    refine List.forall_mem_cons.2 ⟨⟨a, v, hr, le_rfl, hv⟩, fun r' hr' => ?_⟩
    obtain ⟨a', b', hrun, ha, hb⟩ := h.runs r' hr'
    exact ⟨a', b', hrun, Nat.le_trans (Nat.le_of_lt hr.lt) ha, hb⟩
  ordered := by
    refine List.pairwise_cons.2 ⟨fun r' hr' => ?_, h.ordered⟩
    obtain ⟨a', b', hrun, ha, -⟩ := h.runs r' hr'
    rw [hr.eq, hrun.eq]
    exact Nat.mul_le_mul_right PGSIZE ha
  covers w hlo hhi hw := by
    obtain hlt | hge := Nat.lt_or_ge w v
    · refine .inl ⟨r, List.mem_cons_self, ?_⟩
      rw [hr.eq]
      exact ⟨Nat.mul_le_mul_right PGSIZE hlo, Nat.mul_lt_mul_of_pos_right hlt (by decide)⟩
    obtain ⟨r', hr', hin⟩ | hall := h.covers w hge hhi hw
    · exact .inl ⟨r', List.mem_cons_of_mem _ hr', hin⟩
    · exact .inr hall

/-- The lines that the loop still prints, from the current run on. -/
theorem showFrom_lines (h : InRun pt v prev pages) :
    Lines pt (v - pages) (v + n) (showFrom pt n (v * PGSIZE) prev pages) := by
  induction n generalizing v prev pages with
  | zero => exact ⟨nofun, .nil, fun w _ _ _ => .inr fun u hu hun => h.valid u (by omega) hun⟩
  | succ n ih =>
    rw [showFrom, ← Nat.succ_mul, Nat.succ_eq_add_one, Nat.add_comm n 1, ← Nat.add_assoc]
    split
    · rename_i hv
      have hrest := ih (h.next (Option.isSome_iff_ne_none.1 hv))
      rw [Nat.add_sub_add_right] at hrest
      split
      · rename_i hzero
        subst hzero
        exact hrest
      · rename_i hpos
        rwa [if_neg hpos] at hrest
    rename_i hv
    have hnone := Option.not_isSome_iff_eq_none.1 hv
    have hrest := (ih (@InRun.none _ _ prev hnone)).skip hnone
    split
    · rename_i hpos
      have hle := h.le
      exact hrest.cons ⟨by rw [h.prev (by omega), Nat.sub_sub_self hle], by omega, h.first,
        h.valid, hnone⟩ (by omega)
    · rename_i hzero
      rwa [Nat.eq_zero_of_not_pos hzero]

theorem sysShowVmAreas_lines (pt : PageTable) :
    Lines pt 0 (MAXVA / PGSIZE) (sysShowVmAreas pt) := by
  have hrun : InRun pt 0 0 0 := ⟨le_rfl, nofun, .inl rfl, fun w _ hw => by omega⟩
  have h := showFrom_lines (n := MAXVA / PGSIZE) hrun
  rwa [Nat.zero_add, Nat.zero_mul] at h

/-- A run that reaches the end of the address space is not printed. -/
theorem not_showsAreas (h : pt.leaf TRAMPOLINE ≠ none) : ¬ ShowsAreas pt (sysShowVmAreas pt) := by
  intro hshows
  obtain ⟨r, hr, -, hlt⟩ := (hshows.covers TRAMPOLINE (by decide) (by decide)).1 h
  obtain ⟨a, b, hrun, -, hb⟩ := (sysShowVmAreas_lines pt).runs r hr
  rw [hrun.eq] at hlt
  have hle : b * PGSIZE ≤ (MAXVA / PGSIZE - 1) * PGSIZE :=
    Nat.mul_le_mul_right PGSIZE (Nat.le_sub_one_of_lt hb)
  exact absurd (lt_of_lt_of_le hlt hle) (by decide)

/-- The lines are right exactly for page tables without a valid entry for the
last page, which is the page of the trampoline. -/
theorem showsAreas_iff (pt : PageTable) :
    ShowsAreas pt (sysShowVmAreas pt) ↔ pt.leaf TRAMPOLINE = none := by
  refine ⟨fun h => by_contra fun hne => not_showsAreas hne h, fun hlast => ?_⟩
  obtain ⟨hruns, hordered, hcovers⟩ := sysShowVmAreas_lines pt
  refine ⟨fun r hr => ?_, hordered, fun r hr => ?_, fun r hr => ?_, fun va hal hva => ?_⟩
  · obtain ⟨a, b, hrun, -⟩ := hruns r hr
    rw [hrun.eq]
    exact ⟨Nat.mul_mod_left a _, Nat.mul_mod_left b _,
      Nat.mul_lt_mul_of_pos_right hrun.lt (by decide)⟩
  · obtain ⟨a, b, hrun, -⟩ := hruns r hr
    rw [hrun.eq]
    refine ⟨hrun.first.imp (fun ha => by rw [ha, Nat.zero_mul]) fun ha => ?_, .inr hrun.ended⟩
    rwa [Nat.sub_mul, Nat.one_mul] at ha
  · obtain ⟨a, b, hrun, -⟩ := hruns r hr
    rw [hrun.eq, ← Nat.sub_mul, Nat.mul_div_cancel _ (by decide)]
  · have hmul : va / PGSIZE * PGSIZE = va := Nat.div_mul_cancel (Nat.dvd_of_mod_eq_zero hal)
    have hlt : va / PGSIZE < MAXVA / PGSIZE := Nat.div_lt_div_of_lt_of_dvd (by decide) hva
    have hcovers := hcovers (va / PGSIZE) (Nat.zero_le _) hlt
    rw [hmul] at hcovers
    constructor
    · intro hleaf
      -- the last page ends every run
      refine (hcovers hleaf).resolve_right fun hall => ?_
      exact hall (MAXVA / PGSIZE - 1) (Nat.le_sub_one_of_lt hlt) (by decide) hlast
    · rintro ⟨r, hr, hlo, hhi⟩
      obtain ⟨a, b, hrun, -⟩ := hruns r hr
      rw [hrun.eq, ← hmul] at hlo hhi
      have := hrun.valid (va / PGSIZE) (Nat.le_of_mul_le_mul_right hlo (by decide))
        (Nat.lt_of_mul_lt_mul_right hhi)
      rwa [hmul] at this

/-- The page table that `proc_pagetable` makes of the first of four free pages
has a region that is not printed. -/
theorem procPagetable_not_showsAreas : let k : Kmem :=
      { kernelEnd := KERNBASE, freelist := (List.range 4).map fun i => KERNBASE + i * PGSIZE }
    ∃ pt k', procPagetable KERNBASE (KERNBASE + 4 * PGSIZE) k = .ok (some pt, k') ∧
      UserTable pt 0 ∧ ¬ ShowsAreas pt (sysShowVmAreas pt) := by
  intro k
  have hleaf : ((procPagetable KERNBASE (KERNBASE + 4 * PGSIZE) k).toOption.bind fun r =>
      r.1.bind fun pt => pt.leaf TRAMPOLINE).isSome = true := by decide +kernel
  cases hpt : procPagetable KERNBASE (KERNBASE + 4 * PGSIZE) k with
  | error =>
    rw [hpt] at hleaf
    cases hleaf
  | ok r =>
    obtain ⟨_ | pt, k'⟩ := r <;> rw [hpt] at hleaf
    · cases hleaf
    refine ⟨pt, k', rfl, ?_, not_showsAreas (Option.isSome_iff_ne_none.1 hleaf)⟩
    obtain ⟨pt', heq, htable, -⟩ | ⟨heq, -⟩ := (procPagetable_safe KERNBASE _).of_ok hpt
    · cases heq
      exact htable
    · cases heq

end Xv6
