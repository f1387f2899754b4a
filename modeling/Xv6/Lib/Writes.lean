import Mathlib

/-!
# Sequences of writes to an addressed store

A store is a function from addresses to values, and a program that updates
it issues a list of writes.  `applyWrites` is the store after all of them
took effect in order; `applyWrites s (ws.take k)` is the store that a crash
after the first `k` of them leaves behind.

The lemmas say where a sequence of writes can be seen and where it cannot,
and that a sequence which is issued again over any of its own prefixes has
the effect of issuing it once (`applyWrites_take_then_all`), which is what
makes redo recovery work.
-/

namespace Xv6.Lib

open Function List

variable {α β : Type} [DecidableEq α]

/-- The store after the writes took effect in order. -/
def applyWrites (s : α → β) (ws : List (α × β)) : α → β :=
  ws.foldl (fun s w => update s w.1 w.2) s

@[simp] theorem applyWrites_nil (s : α → β) : applyWrites s [] = s := rfl

@[simp] theorem applyWrites_cons (s : α → β) (w : α × β) (ws : List (α × β)) :
    applyWrites s (w :: ws) = applyWrites (update s w.1 w.2) ws := rfl

theorem applyWrites_append (s : α → β) (ws vs : List (α × β)) :
    applyWrites s (ws ++ vs) = applyWrites (applyWrites s ws) vs := by
  simp [applyWrites, foldl_append]

theorem applyWrites_concat (s : α → β) (ws : List (α × β)) (a : α) (v : β) :
    applyWrites s (ws ++ [(a, v)]) = update (applyWrites s ws) a v := by
  rw [applyWrites_append]
  rfl

variable {ws : List (α × β)} {s : α → β}

/-- An address that no write names keeps its value. -/
theorem applyWrites_of_notMem {a : α} (h : a ∉ ws.map Prod.fst) : applyWrites s ws a = s a := by
  induction ws generalizing s with
  | nil => rfl
  | cons w ws ih =>
    simp only [map_cons, mem_cons, not_or] at h
    rw [applyWrites_cons, ih h.2, update_of_ne h.1]

/-- After the writes an address holds the last value written to it,
whatever it held before. -/
theorem applyWrites_congr {s t : α → β} {a : α} (h : a ∈ ws.map Prod.fst ∨ s a = t a) :
    applyWrites s ws a = applyWrites t ws a := by
  induction ws generalizing s t with
  | nil => simpa using h
  | cons w ws ih =>
    rw [applyWrites_cons, applyWrites_cons]
    apply ih
    by_cases hw : a = w.1
    · right
      simp [hw]
    · rw [update_of_ne hw, update_of_ne hw]
      simpa [hw] using h

/-- With distinct addresses every write can be seen afterwards. -/
theorem applyWrites_of_mem {a : α} {v : β} (hnd : (ws.map Prod.fst).Nodup) (h : (a, v) ∈ ws) :
    applyWrites s ws a = v := by
  induction ws generalizing s with
  | nil => simp at h
  | cons w ws ih =>
    rw [map_cons, nodup_cons] at hnd
    rw [applyWrites_cons]
    rcases mem_cons.1 h with rfl | h
    · rw [applyWrites_of_notMem hnd.1]
      simp
    · exact ih hnd.2 h

/-- Writing again over a store that differs only where one writes. -/
theorem applyWrites_absorb {vs ws : List (α × β)} (h : ∀ a ∈ vs.map Prod.fst, a ∈ ws.map Prod.fst) :
    applyWrites (applyWrites s vs) ws = applyWrites s ws := by
  funext a
  apply applyWrites_congr
  by_cases ha : a ∈ ws.map Prod.fst
  · exact .inl ha
  right
  exact applyWrites_of_notMem fun hv => ha (h a hv)

/-- A prefix of the writes followed by all of them is all of them. -/
theorem applyWrites_take_then_all (s : α → β) (ws : List (α × β)) (k : Nat) :
    applyWrites (applyWrites s (ws.take k)) ws = applyWrites s ws := by
  apply applyWrites_absorb
  intro a ha
  rw [map_take] at ha
  exact mem_of_mem_take ha

end Xv6.Lib
