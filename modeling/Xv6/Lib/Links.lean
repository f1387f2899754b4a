import Mathlib

/-!
# Circular doubly linked lists

Nodes of any type, each with a `next` and a `prev` pointer.  `Cycle k h l`
says that the nodes from `h` on, in the order of `next`, are `l` and then `h`
again, that `prev` goes the same way back, and that no node comes twice.

* `Cycle.pushFront` and `Cycle.unlink`: what the two updates of such a list do
  to the list of nodes;
* `Cycle.walk_next` and `Cycle.walk_prev`: a loop along the pointers searches
  the list of nodes, in order or backwards.
-/

namespace Xv6.Lib

open Function List

/-- The pointers of the nodes. -/
structure Links (α : Type) where
  next : α → α
  prev : α → α

namespace Links

variable {α : Type} {k k' : Links α} {a b c h : α} {l l1 l2 : List α}

section

variable [DecidableEq α]

/-- `a->next = b`. -/
def setNext (k : Links α) (a b : α) : Links α := { k with next := update k.next a b }

/-- `a->prev = b`. -/
def setPrev (k : Links α) (a b : α) : Links α := { k with prev := update k.prev a b }

/-- Put `b` behind `h`. -/
def pushFront (k : Links α) (h b : α) : Links α :=
  let k := k.setNext b (k.next h)
  let k := k.setPrev b h
  let k := k.setPrev (k.next h) b
  k.setNext h b

/-- Take `b` out. -/
def unlink (k : Links α) (b : α) : Links α :=
  let k := k.setPrev (k.next b) (k.prev b)
  k.setNext (k.prev b) (k.next b)

end

/-! ## Paths -/

/-- `b` comes after `a`. -/
def Linked (k : Links α) (a b : α) : Prop := k.next a = b ∧ k.prev b = a

/-- The nodes between `a` and `b` are `l`. -/
def Path (k : Links α) (a : α) : List α → α → Prop
  | [], b => k.Linked a b
  | x :: l, b => k.Linked a x ∧ k.Path x l b

theorem path_append {x : α} : k.Path a (l1 ++ x :: l2) b ↔ k.Path a l1 x ∧ k.Path x l2 b := by
  induction l1 generalizing a with
  | nil => rfl
  | cons y l1 ih =>
    simp only [cons_append, Path, ih]
    tauto

theorem Path.next_mem (hp : k.Path a l b) : k.next a ∈ l ++ [b] := by
  cases l with
  | nil => simp [hp.1]
  | cons x l => simp [hp.1.1]

theorem Path.prev_mem (hp : k.Path a l b) : k.prev b ∈ a :: l := by
  induction l generalizing a with
  | nil => simp [hp.2]
  | cons x l ih => exact mem_cons_of_mem a (ih hp.2)

/-- A path is about the `next` of all nodes but the last and the `prev` of all
nodes but the first. -/
theorem Path.congr (hp : k.Path a l b) (hnext : ∀ x ∈ a :: l, k'.next x = k.next x)
    (hprev : ∀ x ∈ l ++ [b], k'.prev x = k.prev x) : k'.Path a l b := by
  induction l generalizing a with
  | nil =>
    refine ⟨?_, ?_⟩
    · rw [hnext a (by simp)]
      exact hp.1
    · rw [hprev b (by simp)]
      exact hp.2
  | cons x l ih =>
    obtain ⟨⟨hax, hxa⟩, hrest⟩ := hp
    refine ⟨⟨?_, ?_⟩, ?_⟩
    · rwa [hnext a (by simp)]
    · rwa [hprev x (by simp)]
    · exact ih hrest (fun y hy => hnext y (mem_cons_of_mem a hy))
        fun y hy => hprev y (mem_cons_of_mem x hy)

variable [DecidableEq α]

/-- Taking a node out joins the paths before and after it. -/
theorem Path.unlink (h1 : k.Path a l1 b) (h2 : k.Path b l2 c)
    (hnodup : (a :: l1 ++ b :: l2).Nodup) (hc : c ∉ l1 ++ b :: l2) :
    (k.unlink b).Path a (l1 ++ l2) c := by
  have hcb : c ≠ b := by
    rintro rfl
    simp at hc
  -- the pointers of `b` itself are not written
  have hbnext : k.next b ≠ b := by
    intro heq
    have hmem := h2.next_mem
    rw [heq] at hmem
    have hb : b ∉ l2 := by
      rw [nodup_append] at hnodup
      exact (nodup_cons.1 hnodup.2.1).1
    rcases mem_append.1 hmem with hm | hm
    · exact hb hm
    · exact hcb (mem_singleton.1 hm).symm
  have hunlink : k.unlink b = (k.setPrev (k.next b) (k.prev b)).setNext (k.prev b) (k.next b) := by
    simp [Links.unlink, setPrev, setNext, update_of_ne hbnext.symm]
  rw [hunlink]
  induction l1 generalizing a with
  | nil =>
    obtain ⟨-, hba⟩ := h1
    rw [hba]
    cases l2 with
    | nil =>
      obtain ⟨hbc, -⟩ := h2
      rw [hbc]
      exact ⟨by simp [setNext], by simp [setNext, setPrev]⟩
    | cons y l2 =>
      obtain ⟨⟨hby, -⟩, hrest⟩ := h2
      rw [hby]
      simp only [cons_append, nil_append, nodup_cons, mem_cons, not_or]
        at hnodup hc
      obtain ⟨⟨-, hay, hal⟩, -, hyl, -⟩ := hnodup
      refine ⟨⟨by simp [setNext], by simp [setNext, setPrev]⟩, hrest.congr ?_ ?_⟩
      · intro x hx
        have hxa : x ≠ a := by
          rintro rfl
          rcases mem_cons.1 hx with hxy | hxl
          · exact hay hxy
          · exact hal hxl
        simp [setNext, setPrev, update_of_ne hxa]
      intro x hx
      have hxy : x ≠ y := by
        rintro rfl
        rcases mem_append.1 hx with hxl | hxc
        · exact hyl hxl
        · exact hc.2.1 (mem_singleton.1 hxc).symm
      simp [setNext, setPrev, update_of_ne hxy]
  | cons d l1 ih =>
    obtain ⟨⟨had, hda⟩, hrest⟩ := h1
    have hnodup' : (d :: l1 ++ b :: l2).Nodup := (nodup_cons.1 hnodup).2
    have ha : a ∉ d :: l1 ++ b :: l2 := (nodup_cons.1 hnodup).1
    have hc' : c ∉ l1 ++ b :: l2 := fun hm => hc (mem_cons_of_mem d hm)
    refine ⟨⟨?_, ?_⟩, ih hrest hnodup' hc'⟩
    · have hne : a ≠ k.prev b := by
        intro heq
        have hmem := hrest.prev_mem
        rw [← heq] at hmem
        exact ha (mem_append_left _ hmem)
      simp [setNext, setPrev, update_of_ne hne, had]
    have hne : d ≠ k.next b := by
      intro heq
      have hmem := h2.next_mem
      rw [← heq] at hmem
      rcases mem_append.1 hmem with hm | hm
      · exact (nodup_cons.1 hnodup').1 (by simp [hm])
      · exact hc (by simp [mem_singleton.1 hm])
    simp [setNext, setPrev, update_of_ne hne, hda]

/-! ## Cycles -/

/-- From `h` on, the nodes are `l`, and then comes `h` again. -/
structure Cycle (k : Links α) (h : α) (l : List α) : Prop where
  nodup : (h :: l).Nodup
  path : k.Path h l h

/-- A node that points to itself. -/
theorem cycle_self (k : Links α) (h : α) : ((k.setPrev h h).setNext h h).Cycle h [] :=
  ⟨by simp, by simp [setNext], by simp [setNext, setPrev]⟩

namespace Cycle

theorem pushFront (hk : k.Cycle h l) (hb : b ∉ h :: l) : (k.pushFront h b).Cycle h (b :: l) := by
  obtain ⟨hbh, hbl⟩ := not_or.1 fun hm => hb (mem_cons.2 hm)
  obtain ⟨hnodup, hpath⟩ := hk
  obtain ⟨hhl, hl⟩ := nodup_cons.1 hnodup
  have hpush : k.pushFront h b =
      (((k.setNext b (k.next h)).setPrev b h).setPrev (k.next h) b).setNext h b := by
    simp [Links.pushFront, setNext, setPrev, update_of_ne (Ne.symm hbh)]
  have hbnext : b ≠ k.next h := by
    intro heq
    have hmem := hpath.next_mem
    rw [← heq] at hmem
    rcases mem_append.1 hmem with hm | hm
    · exact hbl hm
    · exact hbh (mem_singleton.1 hm)
  rw [hpush]
  refine ⟨nodup_cons.2 ⟨?_, nodup_cons.2 ⟨hbl, hl⟩⟩, ⟨?_, ?_⟩, ?_⟩
  · rintro hm
    rcases mem_cons.1 hm with heq | hm
    · exact hbh heq.symm
    · exact hhl hm
  · simp [setNext]
  · simp [setNext, setPrev, update_of_ne hbnext]
  cases l with
  | nil =>
    obtain ⟨hhh, -⟩ := hpath
    rw [hhh]
    exact ⟨by simp [setNext, setPrev, hbh], by simp [setNext, setPrev]⟩
  | cons y l =>
    obtain ⟨⟨hhy, -⟩, hrest⟩ := hpath
    rw [hhy] at hbnext ⊢
    obtain ⟨hyl, -⟩ := nodup_cons.1 hl
    refine ⟨⟨by simp [setNext, setPrev, hbh], by simp [setNext, setPrev]⟩, hrest.congr ?_ ?_⟩
    · intro x hx
      have hxb : x ≠ b := by
        rintro rfl
        exact hbl hx
      have hxh : x ≠ h := by
        rintro rfl
        exact hhl hx
      simp [setNext, setPrev, update_of_ne hxb, update_of_ne hxh]
    intro x hx
    have hxy : x ≠ y := by
      rintro rfl
      rcases mem_append.1 hx with hm | hm
      · exact hyl hm
      · exact hhl (by simp [mem_singleton.1 hm])
    have hxb : x ≠ b := by
      rintro rfl
      rcases mem_append.1 hx with hm | hm
      · exact hbl (mem_cons_of_mem y hm)
      · exact hbh (mem_singleton.1 hm)
    simp [setNext, setPrev, update_of_ne hxy, update_of_ne hxb]

theorem unlink (hk : k.Cycle h l) (hb : b ∈ l) : (k.unlink b).Cycle h (l.erase b) := by
  obtain ⟨l1, l2, rfl⟩ := append_of_mem hb
  obtain ⟨hnodup, hpath⟩ := hk
  obtain ⟨hh, hl⟩ := nodup_cons.1 hnodup
  obtain ⟨h1, h2⟩ := path_append.1 hpath
  have hb1 : b ∉ l1 := by
    intro hm
    rw [nodup_append] at hl
    exact hl.2.2 b hm b (by simp) rfl
  have herase : (l1 ++ b :: l2).erase b = l1 ++ l2 := by
    rw [erase_append_right _ hb1, erase_cons_head]
  rw [herase]
  refine ⟨?_, h1.unlink h2 hnodup hh⟩
  refine hnodup.sublist (Sublist.cons_cons h ?_)
  exact Sublist.append_left (sublist_cons_self b l2) l1

end Cycle

/-! ## Loops along the pointers -/

/-- The first node that passes the test, from `a` on and before `stop`.  The
number bounds the length of the walk. -/
def walk (step : α → α) (stop : α) (p : α → Bool) : Nat → α → Option α
  | 0, _ => none
  | n + 1, a => if a = stop then none else if p a then some a else walk step stop p n (step a)

variable {n : Nat}

theorem Path.walk_next (hp : k.Path a l h) (hl : h ∉ l) (p : α → Bool)
    (hn : l.length < n) : walk k.next h p n (k.next a) = l.find? p := by
  induction l generalizing a n with
  | nil =>
    obtain ⟨n, rfl⟩ := Nat.exists_eq_succ_of_ne_zero (Nat.ne_of_gt hn)
    simp [walk, hp.1]
  | cons x l ih =>
    obtain ⟨n, rfl⟩ := Nat.exists_eq_succ_of_ne_zero (Nat.ne_of_gt (Nat.zero_lt_of_lt hn))
    obtain ⟨⟨hax, -⟩, hrest⟩ := hp
    simp only [mem_cons, not_or] at hl
    simp only [List.length_cons, Nat.succ_eq_add_one, Nat.add_lt_add_iff_right] at hn
    rw [hax, walk, if_neg (Ne.symm hl.1), find?_cons]
    cases p x with
    | true => rfl
    | false => exact ih hrest hl.2 hn

theorem Path.walk_prev (hp : k.Path h l b) (hl : h ∉ l) (p : α → Bool)
    (hn : l.length < n) : walk k.prev h p n (k.prev b) = l.reverse.find? p := by
  induction l using reverseRecOn generalizing b n with
  | nil =>
    obtain ⟨n, rfl⟩ := Nat.exists_eq_succ_of_ne_zero (Nat.ne_of_gt hn)
    simp [walk, hp.2]
  | append_singleton l x ih =>
    obtain ⟨n, rfl⟩ := Nat.exists_eq_succ_of_ne_zero (Nat.ne_of_gt (Nat.zero_lt_of_lt hn))
    obtain ⟨hrest, -, hbx⟩ := path_append.1 hp
    simp only [mem_append, mem_singleton, not_or] at hl
    simp only [length_append, length_singleton, Nat.succ_eq_add_one, Nat.add_lt_add_iff_right] at hn
    rw [hbx, walk, if_neg (Ne.symm hl.2), reverse_append, reverse_singleton,
      singleton_append, find?_cons]
    cases p x with
    | true => rfl
    | false => exact ih hrest hl.1 hn

/-- The loop `for(b = h->next; b != h; b = b->next)`. -/
theorem Cycle.walk_next (hk : k.Cycle h l) (p : α → Bool) (hn : l.length < n) :
    walk k.next h p n (k.next h) = l.find? p :=
  hk.path.walk_next (nodup_cons.1 hk.nodup).1 p hn

/-- The loop `for(b = h->prev; b != h; b = b->prev)`. -/
theorem Cycle.walk_prev (hk : k.Cycle h l) (p : α → Bool) (hn : l.length < n) :
    walk k.prev h p n (k.prev h) = l.reverse.find? p :=
  hk.path.walk_prev (nodup_cons.1 hk.nodup).1 p hn

end Links

end Xv6.Lib
