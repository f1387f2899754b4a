import Xv6.Vm.Memory

/-!
# A page table represents a map

Every run of `mappages`, `uvmunmap` and `walk` on a page table that
`uvmcreate` made is a run of a finite map.  The invariant is `Tree`: two
paths of at most two indices lead to different pages, and no page of the
table is free.  A store into a table page then changes what one path leads
to and nothing else, which `node_install` says for the upper levels and
`map_store` for the lowest one.
-/

namespace Xv6.Phys

open Lib Function List Nat Option

/-! ## Entries -/

/-- The words that the source builds: a page number above ten flags. -/
theorem pte_eq {pa fl : Nat} (h : fl < 2 ^ 10) : PA2PTE pa ||| fl = pa / 2 ^ 12 * 2 ^ 10 + fl := by
  rw [PA2PTE, shiftRight_eq_div_pow, shiftLeft_eq, ← shiftLeft_eq,
    ← shiftLeft_add_eq_or_of_lt h, shiftLeft_eq]

theorem PTE2PA_pte {pa fl : Nat} (hpa : pa < 2 ^ 64) (h : fl < 2 ^ 10) :
    PTE2PA (PA2PTE pa ||| fl) = pa / PGSIZE * PGSIZE := by
  rw [pte_eq h, PTE2PA, shiftRight_eq_div_pow, shiftLeft_eq, PGSIZE]
  omega

theorem PTE_FLAGS_pte {pa fl : Nat} (h : fl < 2 ^ 10) : PTE_FLAGS (PA2PTE pa ||| fl) = fl := by
  have hmask : (0x3FF : Nat) = 2 ^ 10 - 1 := rfl
  rw [PTE_FLAGS, hmask, and_two_pow_sub_one_eq_mod, pte_eq h]
  omega

theorem valid_iff {pte : Nat} : valid pte = true ↔ pte % 2 = 1 := by
  rw [valid, PTE_V, and_one_is_mod]
  simp

theorem valid_pte {pa fl : Nat} (h : fl < 2 ^ 10) (hfl : fl % 2 = 1) :
    valid (PA2PTE pa ||| fl) = true := by
  rw [valid_iff, pte_eq h]
  omega

theorem flags_lt {perm : Nat} (h : perm < 2 ^ 10) : perm ||| PTE_V < 2 ^ 10 :=
  or_lt_two_pow h (by decide)

theorem flags_odd (perm : Nat) : (perm ||| PTE_V) % 2 = 1 := by
  rw [PTE_V, or_mod_two_eq_one]
  exact .inr rfl

/-- The entry that `walk` stores for a page-table page. -/
theorem child_word {page : Nat} (hlt : page < 2 ^ 64) (hal : page % PGSIZE = 0) :
    valid (PA2PTE page ||| PTE_V) = true ∧ PTE2PA (PA2PTE page ||| PTE_V) = page := by
  refine ⟨valid_pte (by decide) rfl, ?_⟩
  rw [PTE2PA_pte hlt (by decide)]
  exact Nat.div_mul_cancel (Nat.dvd_of_mod_eq_zero hal)

/-- The entry that `mappages` stores. -/
theorem leafOf_word {pa perm : Nat} (hpa : pa < 2 ^ 64) (h : perm < 2 ^ 10) :
    leafOf (PA2PTE pa ||| perm ||| PTE_V) = some (Map.entry pa perm 0) := by
  rw [Nat.or_assoc, leafOf, if_pos (valid_pte (flags_lt h) (flags_odd perm)),
    PTE2PA_pte hpa (flags_lt h), PTE_FLAGS_pte (flags_lt h), Map.entry, zero_mul,
    add_zero, mod_eq_of_lt hpa]

/-! ## Indices -/

theorem PX_page (level va : Nat) : PX level (va / PGSIZE * PGSIZE) = PX level va := by
  rw [PX, PX, Fin.mk.injEq, PGSIZE, Nat.pow_add, ← Nat.div_div_eq_div_mul, ← Nat.div_div_eq_div_mul]
  norm_num

theorem pathOf_page (va : Nat) : pathOf (va / PGSIZE) = [PX 1 va, PX 2 va] := by
  rw [pathOf, PX_page, PX_page]

/-- Two pages with the same path and the same last index are equal. -/
theorem eq_of_path {u v : Nat} (hu : u < MAXVA / PGSIZE) (hv : v < MAXVA / PGSIZE)
    (hpath : pathOf u = pathOf v) (h : PX 0 (u * PGSIZE) = PX 0 (v * PGSIZE)) : u = v := by
  simp only [pathOf, cons.injEq, and_true] at hpath
  have hlt : MAXVA / PGSIZE < 2 ^ 27 := by decide
  exact PX_injective (hu.trans hlt) (hv.trans hlt) hpath.2 hpath.1 h

/-! ## Ranges -/

namespace Map

variable {f : Map} {v n pa perm : Nat}

theorem entry_succ (pa perm i : Nat) :
    entry ((pa + PGSIZE) % 2 ^ 64) perm i = entry pa perm (i + 1) := by
  rw [entry, entry, mod_add_mod, add_assoc, add_mul, one_mul, add_comm PGSIZE]

theorem add_zero (f : Map) : f.add v 0 pa perm = f := by
  funext u
  rw [add, if_neg (by omega)]

/-- One page, and the rest of the range. -/
theorem add_succ : Map.add (update f v (some (entry pa perm 0))) (v + 1) n
    ((pa + PGSIZE) % 2 ^ 64) perm = f.add v (n + 1) pa perm := by
  funext u
  rw [add, add]
  split
  · rw [if_pos (by omega), entry_succ]
    congr 2
    omega
  by_cases huv : u = v
  · rw [huv, update_self, if_pos (by omega), Nat.sub_self]
  · rw [update_of_ne huv, if_neg (by omega)]

theorem remove_zero (f : Map) : f.remove v 0 = f := by
  funext u
  rw [remove, if_neg (by omega)]

theorem remove_succ : Map.remove (update f v none) (v + 1) n = f.remove v (n + 1) := by
  funext u
  rw [remove, remove]
  split
  · rw [if_pos (by omega)]
  by_cases huv : u = v
  · rw [huv, update_self, if_pos (by omega)]
  · rw [update_of_ne huv, if_neg (by omega)]

end Map

/-! ## The tree -/

namespace Mem

variable {m m' t : Mem} {root page table : Nat} {a b path : List (Fin 512)} {i : Fin 512}

@[simp] theorem word_memset {c : Nat} : (m.memset page c).word =
    update m.word page fun _ => c * 0x0101010101010101 := rfl

@[simp] theorem word_store {w : Nat} : (m.store page i w).word =
    update m.word page (update (m.word page) i w) := rfl

/-- The pages of the table form a tree, and no page of it is free. -/
structure Tree (m : Mem) (root : Nat) : Prop where
  inj : ∀ a b : List (Fin 512), a.length ≤ 2 → b.length ≤ 2 → ∀ page,
    m.node root a = some page → m.node root b = some page → a = b
  free : m.Disjoint root m.kmem

section

variable (h : ∀ page, m.IsTable root page → m'.word page = m.word page)

include h

/-- The tables are where they were, if their words are. -/
theorem node_congr (hpath : path.length ≤ 3) : m'.node root path = m.node root path := by
  induction path with
  | nil => rfl
  | cons i path ih =>
    rw [length_cons] at hpath
    rw [node, node, ih (by omega)]
    cases hnode : m.node root path with
    | none => rfl
    | some page =>
      show m'.child page i = m.child page i
      rw [child, child, h page ⟨path, by omega, hnode⟩]

theorem isTable_congr : m'.IsTable root page ↔ m.IsTable root page := by
  refine exists_congr fun path => and_congr_right fun hpath => ?_
  rw [node_congr h (by omega)]

theorem map_congr : m'.map root = m.map root := by
  funext v
  rw [map, map, node_congr h (by simp [pathOf])]
  cases hnode : m.node root (pathOf v) with
  | none => rfl
  | some page =>
    simp only [bind_some]
    rw [h page ⟨pathOf v, by simp [pathOf], hnode⟩]

end

/-- Other pages and the free list change. -/
theorem Tree.congr (hT : m.Tree root) (h : ∀ page, m.IsTable root page → m'.word page = m.word page)
    (hfree : m.Disjoint root m'.kmem) : m'.Tree root := by
  refine ⟨fun a b ha hb page hpa hpb => ?_, ⟨hfree.nodup, hfree.pages, fun page hp htable => ?_⟩⟩
  · rw [node_congr h (by omega)] at hpa hpb
    exact hT.inj a b ha hb page hpa hpb
  · exact hfree.tables page hp ((isTable_congr h).1 htable)

/-- A new page-table page under entry `i` of `table`, which had none. -/
structure Install (m : Mem) (table : Nat) (i : Fin 512) (page : Nat) (m' : Mem) : Prop where
  hole : m.child table i = none
  other : ∀ q, q ≠ table → q ≠ page → m'.word q = m.word q
  entry : m'.child table i = some page
  entries : ∀ j, j ≠ i → m'.word table j = m.word table j
  clear : ∀ j, m'.word page j = 0

theorem child_clear (h : ∀ j, m.word page j = 0) : m.child page i = none := by
  rw [child, h]
  rfl

theorem child_of_word (h : m'.word page i = m.word page i) : m'.child page i = m.child page i := by
  rw [child, child, h]

section

variable (hT : m.Tree root) (ha : a.length ≤ 1) (htable : m.node root a = some table)
  (hI : m.Install table i page m') (hpage : ¬ m.IsTable root page)

include hT ha htable hI hpage

/-- The new page is at the end of its path, and no other path has changed. -/
theorem node_install (hb : b.length ≤ 3) :
    m'.node root b = if b = i :: a then some page else m.node root b := by
  induction b with
  | nil => rfl
  | cons j b ih =>
    rw [length_cons] at hb
    rw [node, ih (by omega)]
    split
    · rename_i hba
      have hne : ¬ j :: b = i :: a := by
        intro h
        rw [cons.injEq] at h
        have := congrArg length (h.2.symm.trans hba)
        simp at this
      rw [if_neg hne, node, hba, node, htable]
      show m'.child page j = (m.child table i).bind _
      rw [child_clear hI.clear, hI.hole]
      rfl
    rename_i hba
    rw [node]
    cases hnode : m.node root b with
    | none =>
      have hne : ¬ j :: b = i :: a := by
        intro h
        rw [cons.injEq] at h
        rw [h.2, htable] at hnode
        cases hnode
      rw [if_neg hne]
      rfl
    | some q =>
      have hq : m.IsTable root q := ⟨b, by omega, hnode⟩
      have hqp : q ≠ page := fun h => hpage (h ▸ hq)
      show m'.child q j = if j :: b = i :: a then some page else m.child q j
      by_cases hqt : q = table
      · have hab : b = a := hT.inj b a (by omega) (by omega) q hnode (hqt ▸ htable)
        rw [hab, hqt]
        by_cases hji : j = i
        · rw [hji, if_pos rfl, hI.entry]
        · rw [if_neg (by simp [hji]), child_of_word (hI.entries j hji)]
      have hne : ¬ j :: b = i :: a := by
        intro h
        rw [cons.injEq] at h
        rw [h.2, htable, some.injEq] at hnode
        exact hqt hnode.symm
      rw [if_neg hne, child_of_word (congrFun (hI.other q hqt hqp) j)]

theorem isTable_install {q : Nat} : m'.IsTable root q → q = page ∨ m.IsTable root q := by
  rintro ⟨b, hb, hnode⟩
  rw [node_install hT ha htable hI hpage (by omega)] at hnode
  split at hnode
  · exact .inl (some.inj hnode).symm
  · exact .inr ⟨b, hb, hnode⟩

theorem map_install : m'.map root = m.map root := by
  funext v
  have hlen : (pathOf v).length = 2 := rfl
  rw [map, map, node_install hT ha htable hI hpage (by omega)]
  split
  · split
    · rename_i hpath
      rw [hpath, node, htable]
      show leafOf (m'.word page _) = (m.child table i).bind _
      rw [hI.clear, hI.hole]
      rfl
    cases hnode : m.node root (pathOf v) with
    | none => rfl
    | some q =>
      have hqp : q ≠ page := fun h => hpage (h ▸ ⟨pathOf v, by omega, hnode⟩)
      have hqt : q ≠ table := by
        intro h
        have hpath := hT.inj _ a (by omega) (by omega) q hnode (h ▸ htable)
        rw [← hpath] at ha
        omega
      simp only [bind_some]
      rw [hI.other q hqt hqp]
  · rfl

theorem Tree.install (hend : m'.kmem.kernelEnd = m.kmem.kernelEnd)
    (hfree : m.kmem.freelist = page :: m'.kmem.freelist) : m'.Tree root := by
  have hnodup := hT.free.nodup
  rw [hfree, nodup_cons] at hnodup
  have hmem : ∀ q ∈ m'.kmem.freelist, q ∈ m.kmem.freelist := fun q hq => by
    rw [hfree]
    exact mem_cons_of_mem _ hq
  refine ⟨fun b c hb hc q hqb hqc => ?_, hnodup.2, fun q hq => ?_, fun q hq htab => ?_⟩
  · rw [node_install hT ha htable hI hpage (by omega)] at hqb hqc
    split at hqb <;> split at hqc
    · rename_i h1 h2
      exact h1.trans h2.symm
    · exact absurd ⟨c, hc, (some.inj hqb) ▸ hqc⟩ hpage
    · exact absurd ⟨b, hb, (some.inj hqc) ▸ hqb⟩ hpage
    · exact hT.inj b c hb hc q hqb hqc
  · have := hT.free.pages q (hmem q hq)
    rwa [Kmem.IsPage, hend]
  · obtain rfl | h := isTable_install hT ha htable hI hpage htab
    · exact hnodup.1 hq
    · exact hT.free.tables q (hmem q hq) h

end

/-! ## A store into the lowest level -/

section Store

variable {v w : Nat}

section

variable (hT : m.Tree root) (hnode : m.node root path = some page) (hlen : path.length = 2)

include hT hnode hlen

theorem node_store (hb : b.length ≤ 2) : (m.store page i w).node root b = m.node root b := by
  induction b with
  | nil => rfl
  | cons j b ih =>
    rw [length_cons] at hb
    rw [node, node, ih (by omega)]
    cases hq : m.node root b with
    | none => rfl
    | some q =>
      have hqp : q ≠ page := by
        rintro rfl
        have hpath := hT.inj b path (by omega) (by omega) q hq hnode
        rw [hpath] at hb
        omega
      show (m.store page i w).child q j = m.child q j
      refine child_of_word ?_
      rw [word_store, update_of_ne hqp]

theorem isTable_store {q : Nat} : (m.store page i w).IsTable root q ↔ m.IsTable root q := by
  refine exists_congr fun b => and_congr_right fun hb => ?_
  rw [node_store hT hnode hlen hb]

theorem Tree.store : (m.store page i w).Tree root := by
  refine ⟨fun b c hb hc q hqb hqc => ?_, hT.free.nodup, hT.free.pages, fun q hq htab => ?_⟩
  · rw [node_store hT hnode hlen hb] at hqb
    rw [node_store hT hnode hlen hc] at hqc
    exact hT.inj b c hb hc q hqb hqc
  · exact hT.free.tables q hq ((isTable_store hT hnode hlen).1 htab)

end

/-- The store changes what one page is mapped to. -/
theorem map_store (hT : m.Tree root) (hv : v < MAXVA / PGSIZE)
    (hnode : m.node root (pathOf v) = some page) : (m.store page (PX 0 (v * PGSIZE)) w).map root =
      update (m.map root) v (leafOf w) := by
  funext u
  by_cases huv : u = v
  · rw [huv, update_self, map, if_pos hv, node_store hT hnode rfl le_rfl, hnode,
      bind_some, word_store, update_self, update_self]
  rw [update_of_ne huv, map, map]
  split
  · rename_i hu
    rw [node_store hT hnode rfl le_rfl]
    cases hq : m.node root (pathOf u) with
    | none => rfl
    | some q =>
      simp only [bind_some, word_store]
      by_cases hqp : q = page
      · have hpath := hT.inj _ _ le_rfl le_rfl q hq (hqp ▸ hnode)
        have hne : PX 0 (u * PGSIZE) ≠ PX 0 (v * PGSIZE) := fun h =>
          huv (eq_of_path hu hv hpath h)
        rw [hqp, update_self, update_of_ne hne]
      · rw [update_of_ne hqp]
  · rfl

end Store

/-! ## `walk` -/

/-- One level down. -/
theorem descend_spec {alloc fails : Bool} (hT : m.Tree root) (ha : a.length ≤ 1)
    (htable : m.node root a = some table) (h : m.descend table i alloc fails = some (page, m')) :
    m'.Tree root ∧ m'.map root = m.map root ∧ m'.node root (i :: a) = some page := by
  rw [descend] at h
  split at h
  · rename_i hv
    obtain ⟨rfl, rfl⟩ := Prod.mk.inj (some.inj h)
    refine ⟨hT, rfl, ?_⟩
    rw [node, htable, bind_some, child, if_pos hv]
  rename_i hv
  split at h
  · rw [kalloc] at h
    split at h
    · cases h
    rw [Option.map_map, map_eq_some_iff] at h
    obtain ⟨⟨p, k⟩, hk, heq⟩ := h
    obtain ⟨rfl, hm'⟩ := Prod.mk.inj heq
    obtain ⟨hfree, hend⟩ := kalloc_eq_some.1 hk
    have hmem : p ∈ m.kmem.freelist := hfree ▸ mem_cons_self
    have hfresh := hT.free.tables p hmem
    obtain ⟨hal, _, hlt⟩ := hT.free.pages p hmem
    have hphys : p < 2 ^ 64 := hlt.trans (by decide)
    have hpt : p ≠ table := fun h => hfresh (h ▸ ⟨a, by omega, htable⟩)
    obtain ⟨hval, hpa⟩ := child_word hphys hal
    have hword : m'.word = (({ m with kmem := k }.memset p 5).memset p 0 |>.store table i
        (PA2PTE p ||| PTE_V)).word := by rw [← hm']
    simp only [word_store, word_memset] at hword
    have hI : m.Install table i p m' := by
      refine ⟨?_, fun q hqt hqp => ?_, ?_, fun j hj => ?_, fun j => ?_⟩
      · rw [child, if_neg hv]
      · simp only [hword, update_of_ne hqt, update_of_ne hqp]
      · simp only [child, hword, update_self, hval, hpa, if_true]
      · simp only [hword, update_self, update_of_ne hj, update_of_ne hpt.symm]
      · simp only [hword, update_of_ne hpt, update_self, zero_mul]
    have hkm : m'.kmem = k := by rw [← hm']; rfl
    refine ⟨hT.install ha htable hI hfresh ?_ ?_, map_install hT ha htable hI hfresh, ?_⟩
    · rw [hkm, hend]
    · rw [hkm, hfree]
    · rw [node_install hT ha htable hI hfresh (by rw [length_cons]; omega), if_pos rfl]
  · cases h

/-- A level that is there is only read. -/
theorem descend_read {fails : Bool} :
    m.descend table i false fails = (m.child table i).map fun page => (page, m) := by
  rw [descend, child]
  split <;> rfl

variable {va v n pa perm : Nat}

/-- `walk` moves no mapping, and it returns the place of the entry. -/
theorem walk_spec {alloc : Bool} {fails : Nat → Bool} {r : Option (Nat × Fin 512)}
    (hT : m.Tree root) (h : m.walk root va alloc fails = .ok (r, m')) :
    va < MAXVA ∧ m'.Tree root ∧ m'.map root = m.map root ∧
      ∀ e, r = some e → e.2 = PX 0 va ∧ m'.node root (pathOf (va / PGSIZE)) = some e.1 := by
  rw [walk] at h
  split at h
  · cases h
  rename_i hva
  refine ⟨by omega, ?_⟩
  split at h
  · obtain ⟨rfl, rfl⟩ := Prod.mk.inj (Except.ok.inj h)
    exact ⟨hT, rfl, by simp⟩
  rename_i mid m1 hmid
  obtain ⟨hT1, hmap1, hnode1⟩ := descend_spec (a := []) hT (zero_le _) rfl hmid
  split at h
  · obtain ⟨rfl, rfl⟩ := Prod.mk.inj (Except.ok.inj h)
    exact ⟨hT1, hmap1, by simp⟩
  rename_i low m2 hlow
  obtain ⟨hT2, hmap2, hnode2⟩ := descend_spec hT1 le_rfl hnode1 hlow
  obtain ⟨rfl, rfl⟩ := Prod.mk.inj (Except.ok.inj h)
  refine ⟨hT2, hmap2.trans hmap1, fun e he => ?_⟩
  cases he
  exact ⟨rfl, by rw [pathOf_page]; exact hnode2⟩

/-- Without `alloc` it only reads. -/
theorem walk_read {fails : Nat → Bool} (hva : va < MAXVA) : m.walk root va false fails =
      .ok ((m.node root (pathOf (va / PGSIZE))).map (·, PX 0 va), m) := by
  rw [walk, if_neg (by omega), descend_read, pathOf_page, node, node, node]
  simp only [bind_some]
  cases m.child root (PX 2 va) with
  | none => rfl
  | some mid =>
    simp only [map_some, bind_some, descend_read]
    cases m.child mid (PX 1 va) <;> rfl

/-- What the entry at the end of a walk represents. -/
theorem map_of_node (hva : va < MAXVA) (hnode : m.node root (pathOf (va / PGSIZE)) = some page) :
    m.map root (va / PGSIZE) = leafOf (m.word page (PX 0 va)) := by
  have hv : va / PGSIZE < MAXVA / PGSIZE := by
    rw [PGSIZE, MAXVA] at *
    omega
  rw [map, if_pos hv, hnode, bind_some, PX_page]

/-- `walkaddr` reads the map. -/
theorem walkaddr_eq : m.walkaddr root va = .ok (Map.walkaddr (m.map root) va) := by
  rw [walkaddr, Map.walkaddr]
  split
  · rename_i hva
    have hv : ¬ va / PGSIZE < MAXVA / PGSIZE := by
      rw [PGSIZE, MAXVA] at *
      omega
    rw [map, if_neg hv]
  rename_i hva
  rw [walk_read (by omega)]
  cases hnode : m.node root (pathOf (va / PGSIZE)) with
  | none =>
    have hnone : m.map root (va / PGSIZE) = none := by
      rw [map, hnode]
      split <;> rfl
    rw [hnone]
    rfl
  | some page =>
    rw [map_of_node (by omega) hnode, leafOf]
    show (if valid (m.word page (PX 0 va)) = false then _ else _) = _
    cases valid (m.word page (PX 0 va)) with
    | false => rfl
    | true =>
      simp only [Bool.true_eq_false, if_false, if_true, PTE_FLAGS, Nat.and_assoc]
      show _ = Except.ok (if m.word page (PX 0 va) &&& PTE_U = 0 then 0 else _)
      split <;> rfl

/-! ## `mappages` -/

theorem mapLoop_spec {fails : Nat → Nat → Bool} {ok : Bool} (hperm : perm < 2 ^ 10)
    (hT : m.Tree root) (hva : va % PGSIZE = 0) (hpa : pa < 2 ^ 64)
    (h : mapLoop root perm fails n va pa m = .ok (ok, m')) :
    m'.Tree root ∧ ∃ k, (if ok then k = n else k < n) ∧
      (∀ i < k, m.map root (va / PGSIZE + i) = none) ∧
      m'.map root = Map.add (m.map root) (va / PGSIZE) k pa perm := by
  induction n generalizing va pa m with
  | zero =>
    obtain ⟨rfl, rfl⟩ := Prod.mk.inj (Except.ok.inj h)
    exact ⟨hT, 0, rfl, by simp, (Map.add_zero _).symm⟩
  | succ n ih =>
    rw [mapLoop, bind_eq_ok] at h
    obtain ⟨⟨r, m1⟩, hwalk, h⟩ := h
    obtain ⟨hmax, hT1, hmap1, hplace⟩ := walk_spec hT hwalk
    cases r with
    | none =>
      obtain ⟨rfl, rfl⟩ := Prod.mk.inj (Except.ok.inj h)
      exact ⟨hT1, 0, succ_pos n, by simp, by rw [hmap1, Map.add_zero]⟩
    | some e =>
      obtain ⟨page, i⟩ := e
      obtain ⟨rfl, hnode⟩ := hplace _ rfl
      simp only at h hnode
      split at h
      · cases h
      rename_i hinvalid
      have hleaf := map_of_node hmax hnode
      rw [leafOf, if_neg hinvalid, hmap1] at hleaf
      have hv : va / PGSIZE < MAXVA / PGSIZE := by
        rw [PGSIZE, MAXVA] at *
        omega
      have hmap2 := map_store (w := PA2PTE pa ||| perm ||| PTE_V) hT1 hv hnode
      rw [PX_page, leafOf_word hpa hperm, hmap1] at hmap2
      have hnext : (va + PGSIZE) / PGSIZE = va / PGSIZE + 1 := by
        rw [PGSIZE]
        omega
      obtain ⟨hT', k, hk, hfree, hmap'⟩ := ih (hT1.store hnode rfl)
        (by rw [add_mod_right, hva]) (mod_lt _ (by decide)) h
      rw [hnext, hmap2] at hfree hmap'
      refine ⟨hT', k + 1, ?_, fun j hj => ?_, ?_⟩
      · split at hk
        · rename_i hok
          rw [if_pos hok, hk]
        rename_i hok
        rw [if_neg hok]
        omega
      · cases j with
        | zero => exact hleaf
        | succ j =>
          have := hfree j (by omega)
          rwa [update_of_ne (by omega), add_assoc, add_comm 1 j] at this
      · rw [hmap', Map.add_succ]

/-! ## `uvmunmap` -/

/-- A page of the caller's goes to the free list. -/
theorem Tree.kfree (hT : m.Tree root) (htable : ¬ m.IsTable root page)
    (hmem : page ∉ m.kmem.freelist) (h : m.kfree page = .ok m') :
    m'.Tree root ∧ (∀ q, m.IsTable root q → m'.word q = m.word q) ∧
      m'.kmem.freelist = page :: m.kmem.freelist := by
  rw [Mem.kfree, bind_eq_ok] at h
  obtain ⟨k, hk, h⟩ := h
  obtain ⟨hpage, rfl⟩ := kfree_eq_ok.1 hk
  cases h
  have hword : ∀ q, m.IsTable root q →
      update m.word page (fun _ => 1 * 0x0101010101010101) q = m.word q := fun q hq =>
    update_of_ne (fun h : q = page => htable (h ▸ hq)) _ _
  refine ⟨hT.congr hword ⟨?_, ?_, ?_⟩, hword, rfl⟩
  · exact nodup_cons.2 ⟨hmem, hT.free.nodup⟩
  · exact forall_mem_cons.2 ⟨hpage, hT.free.pages⟩
  · exact forall_mem_cons.2 ⟨htable, hT.free.tables⟩

/-- The rest of a range may be freed after its first page. -/
theorem MayFree.tail {f : Nat × Nat} (hF : m.MayFree root v (n + 1)) (hf : m.map root v = some f)
    (hmap : m'.map root = update (m.map root) v none)
    (htable : ∀ q, m'.IsTable root q → m.IsTable root q)
    (hfree : m'.kmem.freelist = f.1 :: m.kmem.freelist) : m'.MayFree root (v + 1) n := by
  have hshift : ∀ i, m'.map root (v + 1 + i) = m.map root (v + (i + 1)) := fun i => by
    rw [hmap, update_of_ne (by omega), add_assoc, add_comm 1 i]
  refine ⟨fun i hi g hg => ?_, fun i hi j hj g g' hg hg' heq => ?_⟩
  · rw [hshift] at hg
    obtain ⟨htab, hmem⟩ := hF.owned (i + 1) (by omega) g hg
    refine ⟨fun h => htab (htable _ h), fun h => ?_⟩
    rw [hfree] at h
    rcases mem_cons.1 h with h | h
    · have := hF.once (i + 1) (by omega) 0 (by omega) g f hg hf h
      omega
    · exact hmem h
  · rw [hshift] at hg hg'
    have := hF.once (i + 1) (by omega) (j + 1) (by omega) g g' hg hg' heq
    omega

theorem unmapLoop_spec {doFree : Bool} (hT : m.Tree root) (hva : va % PGSIZE = 0)
    (hfree : doFree = true → m.MayFree root (va / PGSIZE) n)
    (h : unmapLoop root doFree n va m = .ok m') :
    m'.Tree root ∧ (∀ i < n, m.map root (va / PGSIZE + i) ≠ none) ∧
      m'.map root = Map.remove (m.map root) (va / PGSIZE) n := by
  induction n generalizing va m with
  | zero =>
    cases h
    exact ⟨hT, by simp, (Map.remove_zero _).symm⟩
  | succ n ih =>
    rw [unmapLoop, bind_eq_ok] at h
    obtain ⟨⟨r, m1⟩, hwalk, h⟩ := h
    have hmax := (walk_spec hT hwalk).1
    rw [walk_read hmax] at hwalk
    obtain ⟨rfl, rfl⟩ := Prod.mk.inj (Except.ok.inj hwalk)
    cases hnode : m.node root (pathOf (va / PGSIZE)) with
    | none =>
      rw [hnode] at h
      cases h
    | some page =>
      rw [hnode] at h
      simp only [map_some] at h
      have hleaf := map_of_node hmax hnode
      split at h
      · cases h
      rename_i hvalid
      rw [leafOf, if_pos (by simpa using hvalid)] at hleaf
      split at h
      · cases h
      rw [bind_eq_ok] at h
      obtain ⟨m1, hm1, h⟩ := h
      have hv : va / PGSIZE < MAXVA / PGSIZE := by
        rw [PGSIZE, MAXVA] at *
        omega
      -- the memory after `kfree` has the same tables as the one before
      have hsame : m1.Tree root ∧ (∀ q, m.IsTable root q → m1.word q = m.word q) ∧
          (doFree = true → m1.kmem.freelist =
            PTE2PA (m.word page (PX 0 va)) :: m.kmem.freelist) := by
        cases doFree with
        | false =>
          cases hm1
          exact ⟨hT, fun _ _ => rfl, by simp⟩
        | true =>
          obtain ⟨htab, hmem⟩ := (hfree rfl).owned 0 (succ_pos n) _ hleaf
          obtain ⟨hT1, hword, hlist⟩ := hT.kfree htab hmem hm1
          exact ⟨hT1, hword, fun _ => hlist⟩
      obtain ⟨hT1, hword, hlist⟩ := hsame
      have hnode1 : m1.node root (pathOf (va / PGSIZE)) = some page := by
        rw [node_congr hword (by simp [pathOf]), hnode]
      have hmap2 := map_store (w := 0) hT1 hv hnode1
      rw [PX_page, map_congr hword] at hmap2
      have hnone : leafOf 0 = none := rfl
      rw [hnone] at hmap2
      have hnext : (va + PGSIZE) / PGSIZE = va / PGSIZE + 1 := by
        rw [PGSIZE]
        omega
      have htable : ∀ q, (m1.store page (PX 0 va) 0).IsTable root q → m.IsTable root q :=
        fun q hq => (isTable_congr hword).1 ((isTable_store hT1 hnode1 rfl).1 hq)
      have hrest : doFree = true →
          (m1.store page (PX 0 va) 0).MayFree root ((va + PGSIZE) / PGSIZE) n := by
        intro hd
        rw [hnext]
        exact (hfree hd).tail hleaf hmap2 htable (hlist hd)
      obtain ⟨hT', hmapped, hmap'⟩ := ih (hT1.store hnode1 rfl)
        (by rw [add_mod_right, hva]) hrest h
      rw [hnext, hmap2] at hmapped hmap'
      refine ⟨hT', fun j hj => ?_, ?_⟩
      · cases j with
        | zero =>
          rw [add_zero, hleaf]
          exact some_ne_none _
        | succ j =>
          have := hmapped j (by omega)
          rwa [update_of_ne (by omega), add_assoc, add_comm 1 j] at this
      · rw [hmap', Map.remove_succ]

/-! ## Runs -/

/-- A page table that `uvmcreate` made maps nothing. -/
theorem uvmcreate_spec {fails : Bool} (hnodup : m.kmem.freelist.Nodup)
    (hpages : ∀ page ∈ m.kmem.freelist, m.kmem.IsPage page)
    (h : m.uvmcreate fails = some (root, m')) : m'.Tree root ∧ m'.map root = fun _ => none := by
  rw [uvmcreate, kalloc] at h
  split at h
  · cases h
  rw [Option.map_map, map_eq_some_iff] at h
  obtain ⟨⟨p, k⟩, hk, heq⟩ := h
  obtain ⟨rfl, hm'⟩ := Prod.mk.inj heq
  obtain ⟨hfree, hend⟩ := kalloc_eq_some.1 hk
  have hkm : m'.kmem = k := by rw [← hm']; rfl
  have hclear : ∀ j, m'.word p j = 0 := fun j => by
    simp only [← hm', word_memset, update_self, zero_mul]
  -- the root has no table below it
  have hnode : ∀ a, a ≠ [] → m'.node p a = none := by
    intro a ha
    induction a with
    | nil => exact absurd rfl ha
    | cons i a ih =>
      rw [node]
      cases a with
      | nil => exact child_clear hclear
      | cons j a => rw [ih (cons_ne_nil j a)]; rfl
  have hroot : ∀ a q, m'.node p a = some q → a = [] ∧ q = p := by
    intro a q hq
    by_cases ha : a = []
    · rw [ha] at hq
      exact ⟨ha, (some.inj hq).symm⟩
    · rw [hnode a ha] at hq
      cases hq
  rw [hfree, nodup_cons] at hnodup
  refine ⟨⟨fun a b _ _ q hqa hqb => ?_, ?_, fun q hq => ?_, fun q hq htab => ?_⟩, ?_⟩
  · exact (hroot a q hqa).1.trans (hroot b q hqb).1.symm
  · rw [hkm]
    exact hnodup.2
  · rw [hkm] at hq ⊢
    have := hpages q (by rw [hfree]; exact mem_cons_of_mem _ hq)
    rwa [Kmem.IsPage, hend]
  · obtain ⟨a, _, hqa⟩ := htab
    rw [hkm, (hroot a q hqa).2] at hq
    exact hnodup.1 hq
  · funext v
    show m'.map p v = none
    rw [map, hnode _ (by simp [pathOf])]
    split <;> rfl

/-- One call is a step of the map. -/
theorem Tree.step {e : Event} (hT : m.Tree root) (hP : m.Proper root e) (h : Steps root m e m') :
    m'.Tree root ∧ Map.Steps (m.map root) e (m'.map root) := by
  cases e with
  | walk va alloc fails =>
    obtain ⟨r, h⟩ := h
    obtain ⟨_, hT', hmap, _⟩ := walk_spec hT h
    exact ⟨hT', hmap⟩
  | mappages va size pa perm fails ok =>
    rw [Steps, mappages] at h
    split at h
    · cases h
    rename_i hva
    split at h
    · cases h
    split at h
    · cases h
    exact mapLoop_spec hP hT (by omega) pa.toNat_lt h
  | uvmunmap va npages doFree =>
    rw [Steps, uvmunmap] at h
    split at h
    · cases h
    rename_i hva
    exact unmapLoop_spec hT (by omega) hP h
  | other t =>
    obtain ⟨rfl, hword, hfree⟩ := h
    exact ⟨hT.congr hword hfree, map_congr hword⟩

end Mem

/-- Every run on a page table from `uvmcreate` is a run of the map that it
represents.  In every state reached the tables form a tree, and `walkaddr`
looks an address up in the map. -/
theorem page_table_refines_map {m₀ m₁ m : Mem} {root : Nat} {fails : Bool} {events : List Event}
    (hnodup : m₀.kmem.freelist.Nodup) (hpages : ∀ page ∈ m₀.kmem.freelist, m₀.kmem.IsPage page)
    (hcreate : m₀.uvmcreate fails = some (root, m₁))
    (hrun : Run (fun m e m' => m.Proper root e ∧ Steps root m e m') m₁ events m) :
    Run Map.Steps (fun _ => none) events (m.map root) ∧ m.Tree root ∧
      ∀ va, m.walkaddr root va = .ok (Map.walkaddr (m.map root) va) := by
  obtain ⟨hT₁, hmap₁⟩ := Mem.uvmcreate_spec hnodup hpages hcreate
  have hboth : Run Map.Steps (fun _ => none) events (m.map root) ∧ m.Tree root := by
    induction hrun with
    | nil => exact ⟨hmap₁ ▸ .nil, hT₁⟩
    | snoc _ last ih =>
      obtain ⟨hT', hstep⟩ := ih.2.step last.1 last.2
      exact ⟨.snoc ih.1 hstep, hT'⟩
  exact ⟨hboth.1, hboth.2, fun va => Mem.walkaddr_eq⟩

/-! ## Two runs -/

theorem steps_of_call {root : Nat} {m m' : Mem} {e : Event} (h : call root m e = some m') :
    Steps root m e m' := by
  cases e with
  | walk va alloc fails =>
    obtain ⟨⟨r, m''⟩, hwalk, rfl⟩ := map_eq_some_iff.1 h
    exact ⟨r, toOption_eq_some hwalk⟩
  | mappages va size pa perm fails ok =>
    obtain ⟨⟨r, m''⟩, hmap, h⟩ := bind_eq_some_iff.1 h
    split at h
    · rename_i hr
      cases h
      rw [← hr]
      exact toOption_eq_some hmap
    · cases h
  | uvmunmap va npages doFree => exact toOption_eq_some h
  | other t => cases h

/-- Eight free pages, from `KERNBASE` on. -/
def bootMem : Mem where
  word := fun _ _ => 0
  kmem :=
    { kernelEnd := KERNBASE, freelist := (List.range 8).map (KERNBASE + PGSIZE * ·) }

/-- A page table at `KERNBASE`. -/
def created : Mem := ((bootMem.uvmcreate false).map Prod.snd).getD bootMem

/-- A page 1 GiB up, and the page table's own root at address 0. -/
def mapsOwnRoot : List Event :=
  [.mappages 0x40000000 4096 0x86000000 2 (fun _ _ => false) true,
    .mappages 0 4096 0x80000000 2 (fun _ _ => false) true]

/-- `uvmunmap` of page 0 with `do_free` also loses the page 1 GiB up: the root
is free and full of junk. -/
theorem uvmunmap_frees_own_root :
    bootMem.uvmcreate false = some (KERNBASE, created) ∧
      ∃ m m', Run (Steps KERNBASE) created mapsOwnRoot m ∧
        Steps KERNBASE m (.uvmunmap 0 1 true) m' ∧
        m.map KERNBASE 0x40000 = some (0x86000000, 3) ∧ m'.map KERNBASE 0x40000 = none ∧
        KERNBASE ∈ m'.kmem.freelist := by
  refine ⟨rfl, after (call KERNBASE) created mapsOwnRoot,
    after (call KERNBASE) (after (call KERNBASE) created mapsOwnRoot) [.uvmunmap 0 1 true],
    (Run.of_after (by decide +kernel)).mono fun _ _ _ => steps_of_call,
    steps_of_call (step_after (by decide +kernel)), ?_, ?_, ?_⟩ <;> decide +kernel

/-- The page-table pages by level, for a table whose entries are listed 16 at a
time. -/
theorem Mem.IsTable.mem {m : Mem} {root page : Nat} (mids lows : List Nat)
    (hmids : ∀ (x : Fin 32) (y : Fin 16),
      m.child root ⟨16 * x + y, by omega⟩ ∈ none :: mids.map some)
    (hlows : ∀ mid ∈ mids, ∀ (x : Fin 32) (y : Fin 16),
      m.child mid ⟨16 * x + y, by omega⟩ ∈ none :: lows.map some)
    (h : m.IsTable root page) : page ∈ root :: mids ++ lows := by
  have hsplit : ∀ i : Fin 512, ∃ (x : Fin 32) (y : Fin 16), i = ⟨16 * x + y, by omega⟩ :=
    fun i => ⟨⟨i / 16, by omega⟩, ⟨i % 16, by omega⟩, Fin.ext (div_add_mod i.1 16).symm⟩
  obtain ⟨path, hlen, hnode⟩ := h
  match path with
  | [] =>
    cases hnode
    simp
  | [i] =>
    obtain ⟨x, y, rfl⟩ := hsplit i
    have hchild : m.child root _ = some page := hnode
    have := hmids x y
    rw [hchild] at this
    simp_all
  | [j, i] =>
    obtain ⟨x, y, rfl⟩ := hsplit i
    obtain ⟨x', y', rfl⟩ := hsplit j
    obtain ⟨mid, hmid, hchild⟩ := bind_eq_some_iff.1 hnode
    have hmid : m.child root _ = some mid := hmid
    have h1 := hmids x y
    rw [hmid] at h1
    have h2 := hlows mid (by simpa using h1) x' y'
    rw [hchild] at h2
    simp_all
  | _ :: _ :: _ :: _ => simp at hlen

/-- One page at the end of the first 2 MiB. -/
def mapsPage : Event := .mappages 0x1ff000 4096 0x87000000 0x16 (fun _ _ => false) true

/-- The memory with the page. -/
def mapped : Mem := after (call KERNBASE) created [mapsPage]

theorem mapped_isTable {page : Nat} (h : mapped.IsTable KERNBASE page) :
    page ∈ [0x80000000, 0x80001000, 0x80002000] :=
  h.mem [0x80001000] [0x80002000] (by decide +kernel) (by decide +kernel)

theorem mapped_map : mapped.map KERNBASE 0x1ff = some (0x87000000, 0x17) := by decide +kernel

theorem mapped_mayFree : mapped.MayFree KERNBASE 0x1ff 1 := by
  refine ⟨fun i hi f hf => ?_, fun i hi j hj _ _ _ _ _ => by omega⟩
  obtain rfl : i = 0 := by omega
  obtain rfl := some.inj (mapped_map.symm.trans hf)
  refine ⟨fun h => ?_, by decide +kernel⟩
  have hmem := mapped_isTable h
  simp at hmem

/-- The page is mapped and freed. -/
theorem page_table_refines_map_frees :
    ∃ m, Run (fun m e m' => m.Proper KERNBASE e ∧ Steps KERNBASE m e m') created
        [mapsPage, .uvmunmap 0x1ff000 1 true] m ∧
      Run Map.Steps (fun _ => none) [mapsPage, .uvmunmap 0x1ff000 1 true] (m.map KERNBASE) ∧
      m.Tree KERNBASE ∧ 0x87000000 ∈ m.kmem.freelist := by
  have hperm : created.Proper KERNBASE mapsPage :=
    show (0x16 : UInt64).toNat < 2 ^ 10 by decide
  have hfree : mapped.Proper KERNBASE (.uvmunmap 0x1ff000 1 true) := fun _ => mapped_mayFree
  have hmaps : Run (fun m e m' => m.Proper KERNBASE e ∧ Steps KERNBASE m e m') created
      [mapsPage] mapped :=
    .single ⟨hperm, steps_of_call (step_after (by decide +kernel))⟩
  have hrun := hmaps.snoc ⟨hfree, steps_of_call (step_after (by decide +kernel))⟩
  have hcreate : bootMem.uvmcreate false = some (KERNBASE, created) := rfl
  obtain ⟨hmap, hT, _⟩ := page_table_refines_map (by decide) (by decide) hcreate hrun
  exact ⟨_, hrun, hmap, hT, by decide +kernel⟩

end Xv6.Phys
