import Xv6.Vm.Uvm

/-!
# Copies between the kernel and user memory

The loops of `copyout` and `copyin` of `kernel/vm.c` with the bytes that they
move.  User memory is physical memory seen through a page table.  Both
functions work page by page and stop at the first page that the user may not
access, so a failed `copyout` may have stored a part of the bytes.
-/

namespace Xv6

open Lib List Nat Option

variable {pt : PageTable} {va a j fuel dstva : Nat} {l : Leaf} {ram : Ram} {src : List UInt8}

/-- Physical memory, by the byte. -/
abbrev Ram := Nat → UInt8

/-- `memmove` to the physical address `pa`. -/
def Ram.store (ram : Ram) (pa : Nat) (bytes : List UInt8) : Ram := fun a =>
  if pa ≤ a ∧ a < pa + bytes.length then bytes.getD (a - pa) 0 else ram a

/-- The entry through which `copyout` stores in the page of `va`. -/
def storeLeaf (pt : PageTable) (va : Nat) : Option Leaf :=
  (walkaddr pt (va / PGSIZE * PGSIZE)).filter fun l => l.perm.w

/-- Where a byte that the user may write lies in physical memory. -/
def userByte (pt : PageTable) (va : Nat) : Option Nat :=
  (storeLeaf pt va).map fun l => l.pa + va % PGSIZE

/-- The loop of `copyout`.  Every round moves at least one byte, so that the
number of bytes bounds the number of rounds. -/
def copyoutFrom (pt : PageTable) : Nat → Ram → Nat → List UInt8 → Bool × Ram
  | 0, ram, _, _ => (true, ram)
  | fuel + 1, ram, dstva, src =>
    if src = [] then
      (true, ram)
    else
      match storeLeaf pt dstva with
      | none => (false, ram)
      | some l =>
        let n := PGSIZE - dstva % PGSIZE
        copyoutFrom pt fuel (ram.store (l.pa + dstva % PGSIZE) (src.take n))
          (dstva / PGSIZE * PGSIZE + PGSIZE) (src.drop n)

/-- `copyout`: whether it succeeds, and the memory that it leaves. -/
def copyoutRam (pt : PageTable) (ram : Ram) (dstva : Nat) (src : List UInt8) : Bool × Ram :=
  copyoutFrom pt src.length ram dstva src

/-- The number of bytes that the loop of `copyout` stores. -/
def storableFrom (pt : PageTable) : Nat → Nat → Nat → Nat
  | 0, _, _ => 0
  | fuel + 1, dstva, len =>
    if len = 0 then
      0
    else
      match storeLeaf pt dstva with
      | none => 0
      | some _ =>
        let n := min (PGSIZE - dstva % PGSIZE) len
        n + storableFrom pt fuel (dstva / PGSIZE * PGSIZE + PGSIZE) (len - n)

/-- The number of bytes that a `copyout` of `len` bytes to `dstva` stores. -/
def storable (pt : PageTable) (dstva len : Nat) : Nat := storableFrom pt len dstva len

/-- The loop of `copyin`; `none` where the source returns `-1`. -/
def copyinFrom (pt : PageTable) (ram : Ram) : Nat → Nat → Nat → Option (List UInt8)
  | 0, _, _ => some []
  | fuel + 1, srcva, len =>
    if len = 0 then
      some []
    else
      match walkaddr pt (srcva / PGSIZE * PGSIZE) with
      | none => none
      | some l =>
        let n := min (PGSIZE - srcva % PGSIZE) len
        (copyinFrom pt ram fuel (srcva / PGSIZE * PGSIZE + PGSIZE) (len - n)).map fun rest =>
          (List.range n).map (fun i => ram (l.pa + srcva % PGSIZE + i)) ++ rest

/-- `copyin`. -/
def copyinRam (pt : PageTable) (ram : Ram) (srcva len : Nat) : Option (List UInt8) :=
  copyinFrom pt ram len srcva len

/-- A page table that maps the first page of the address space, for reading
and writing, to the frame `pa`. -/
def onePage (pa : Nat) : PageTable :=
  (Table.empty 0).set 0 (some ((Table.empty 0).set 0 (some
    ((Table.empty 0).set 0 (some { pa := pa, perm := userPerm true false })))))

/-! ## What `copyout` stores -/

theorem PGSIZE_pos : 0 < PGSIZE := by decide

/-- A byte that the user may write lies below `MAXVA`. -/
theorem userByte_lt (h : userByte pt va = some a) : va < MAXVA := by
  simp only [userByte, storeLeaf, walkaddr] at h
  split at h
  · cases h
  rename_i hlt
  simp only [PGSIZE, MAXVA] at *
  omega

/-- Two addresses in one page go through the same entry. -/
theorem storeLeaf_add (pt : PageTable) (h : va % PGSIZE + j < PGSIZE) :
    storeLeaf pt (va + j) = storeLeaf pt va := by
  have hpage : (va + j) / PGSIZE = va / PGSIZE := by
    simp only [PGSIZE] at *
    omega
  rw [storeLeaf, storeLeaf, hpage]

theorem userByte_add (hl : storeLeaf pt va = some l) (h : va % PGSIZE + j < PGSIZE) :
    userByte pt (va + j) = some (l.pa + va % PGSIZE + j) := by
  have hmod : (va + j) % PGSIZE = va % PGSIZE + j := by
    simp only [PGSIZE] at *
    omega
  rw [userByte, storeLeaf_add pt h, hl, map_some, hmod, add_assoc]

theorem Ram.store_of_lt {pa : Nat} {bytes : List UInt8} (h : j < bytes.length) :
    ram.store pa bytes (pa + j) = bytes.getD j 0 := by
  have hrange : pa ≤ pa + j ∧ pa + j < pa + bytes.length := ⟨by omega, by omega⟩
  rw [Ram.store, if_pos hrange, Nat.add_sub_cancel_left]

@[simp] theorem storableFrom_zero (pt : PageTable) (fuel dstva : Nat) :
    storableFrom pt fuel dstva 0 = 0 := by
  cases fuel with
  | zero => rfl
  | succ fuel => rw [storableFrom, if_pos rfl]

/-- The next page starts where this one ends. -/
theorem next_page (va : Nat) : va / PGSIZE * PGSIZE + PGSIZE = va + (PGSIZE - va % PGSIZE) := by
  have hdiv := div_add_mod va PGSIZE
  have hrem := mod_lt va PGSIZE_pos
  rw [mul_comm]
  omega

/-- `copyout` changes only bytes to which it stores. -/
theorem copyoutFrom_of_not_stored
    (h : ∀ j < storableFrom pt fuel dstva src.length, userByte pt (dstva + j) ≠ some a) :
    (copyoutFrom pt fuel ram dstva src).2 a = ram a := by
  induction fuel generalizing ram dstva src with
  | zero => rfl
  | succ fuel ih =>
    simp only [copyoutFrom]
    split
    · rfl
    rename_i hsrc
    have hlen : src.length ≠ 0 := fun heq => hsrc (length_eq_zero_iff.1 heq)
    split
    · rfl
    rename_i l hl
    simp only [storableFrom, if_neg hlen, hl] at h
    rw [ih]
    · -- the byte is not in this page
      rw [Ram.store, if_neg]
      rintro ⟨hlo, hhi⟩
      rw [length_take] at hhi
      have hj := h (a - (l.pa + dstva % PGSIZE)) (by omega)
      rw [userByte_add hl (by omega)] at hj
      exact hj (congrArg some (by omega))
    intro j hj
    rw [length_drop] at hj
    have hmin : src.length - min (PGSIZE - dstva % PGSIZE) src.length =
        src.length - (PGSIZE - dstva % PGSIZE) := by omega
    rw [hmin] at h
    by_cases hmore : src.length ≤ PGSIZE - dstva % PGSIZE
    · rw [Nat.sub_eq_zero_of_le hmore, storableFrom_zero] at hj
      exact absurd hj (not_lt_zero j)
    · have hj' := h (PGSIZE - dstva % PGSIZE + j) (by omega)
      rwa [next_page, add_assoc]

theorem copyoutRam_of_not_stored
    (h : ∀ j < storable pt dstva src.length, userByte pt (dstva + j) ≠ some a) :
    (copyoutRam pt ram dstva src).2 a = ram a := copyoutFrom_of_not_stored h

theorem storableFrom_le (pt : PageTable) (fuel dstva len : Nat) :
    storableFrom pt fuel dstva len ≤ len := by
  induction fuel generalizing dstva len with
  | zero => exact zero_le _
  | succ fuel ih =>
    simp only [storableFrom]
    split
    · exact zero_le _
    split
    · exact zero_le _
    have hrest := ih (dstva / PGSIZE * PGSIZE + PGSIZE)
      (len - min (PGSIZE - dstva % PGSIZE) len)
    omega

/-- `copyout` succeeds when it stores every byte. -/
theorem copyoutFrom_ok_iff (hfuel : src.length ≤ fuel) :
    (copyoutFrom pt fuel ram dstva src).1 = true ↔
      storableFrom pt fuel dstva src.length = src.length := by
  induction fuel generalizing ram dstva src with
  | zero =>
    have hsrc : src.length = 0 := le_zero.1 hfuel
    simp [copyoutFrom, storableFrom, hsrc]
  | succ fuel ih =>
    simp only [copyoutFrom]
    split
    · rename_i hsrc
      simp [hsrc]
    rename_i hsrc
    have hlen : src.length ≠ 0 := fun heq => hsrc (length_eq_zero_iff.1 heq)
    simp only [storableFrom, if_neg hlen]
    split
    · simpa using Ne.symm hlen
    rename_i l hl
    have hrem := mod_lt dstva PGSIZE_pos
    rw [ih (by rw [length_drop]; omega), length_drop]
    have hmin : src.length - min (PGSIZE - dstva % PGSIZE) src.length =
        src.length - (PGSIZE - dstva % PGSIZE) := by omega
    rw [hmin]
    omega

theorem copyoutRam_ok_iff :
    (copyoutRam pt ram dstva src).1 = true ↔ storable pt dstva src.length = src.length :=
  copyoutFrom_ok_iff (le_refl _)

theorem storableFrom_of_none (hl : storeLeaf pt dstva = none)
    (fuel len : Nat) : storableFrom pt fuel dstva len = 0 := by
  cases fuel with
  | zero => rfl
  | succ fuel =>
    simp only [storableFrom, hl]
    split <;> rfl

theorem copyoutFrom_of_none (hl : storeLeaf pt dstva = none)
    (fuel : Nat) (ram : Ram) (src : List UInt8) : (copyoutFrom pt fuel ram dstva src).2 = ram := by
  cases fuel with
  | zero => rfl
  | succ fuel =>
    simp only [copyoutFrom, hl]
    split <;> rfl

/-- What fits in a page that can be written is stored. -/
theorem storableFrom_of_le {len : Nat} (hl : storeLeaf pt dstva = some l) (hfuel : len ≤ fuel)
    (hlen : len ≤ PGSIZE - dstva % PGSIZE) : storableFrom pt fuel dstva len = len := by
  cases fuel with
  | zero => exact (le_zero.1 hfuel).symm
  | succ fuel =>
    simp only [storableFrom, hl]
    split
    · rename_i hzero
      exact hzero.symm
    · rw [Nat.min_eq_right hlen, Nat.sub_self, storableFrom_zero, Nat.add_zero]

/-- A `copyout` of at most a page that stores a part of its bytes stores
those of the first page. -/
theorem copyoutRam_of_storable_lt (hlen : src.length ≤ PGSIZE)
    (hpos : 0 < storable pt dstva src.length) (hlt : storable pt dstva src.length < src.length) :
    ∃ l, storeLeaf pt dstva = some l ∧ storable pt dstva src.length = PGSIZE - dstva % PGSIZE ∧
      (copyoutRam pt ram dstva src).2 =
        ram.store (l.pa + dstva % PGSIZE) (src.take (PGSIZE - dstva % PGSIZE)) := by
  have hrem := mod_lt dstva PGSIZE_pos
  have hzero : (dstva / PGSIZE * PGSIZE + PGSIZE) % PGSIZE = 0 := by
    rw [add_mod_right, mul_mod_left]
  cases hl : storeLeaf pt dstva with
  | none =>
    rw [storable, storableFrom_of_none hl] at hpos
    exact absurd hpos (lt_irrefl 0)
  | some l =>
    have hmore : PGSIZE - dstva % PGSIZE < src.length := by
      by_contra hle
      rw [storable, storableFrom_of_le hl (le_refl _) (by omega)] at hlt
      exact lt_irrefl _ hlt
    obtain ⟨fuel, hfuel⟩ : ∃ fuel, src.length = fuel + 1 := ⟨src.length - 1, by omega⟩
    have hsrc : src ≠ [] := fun heq => by simp [heq] at hfuel
    have hstored : storable pt dstva src.length = PGSIZE - dstva % PGSIZE +
        storableFrom pt fuel (dstva / PGSIZE * PGSIZE + PGSIZE)
          (src.length - (PGSIZE - dstva % PGSIZE)) := by
      rw [storable]
      nth_rewrite 1 [hfuel]
      rw [storableFrom, if_neg (by omega), hl]
      rw [min_eq_left (le_of_lt hmore)]
    -- the rest lies in the next page, which cannot be written
    have hnext : storeLeaf pt (dstva / PGSIZE * PGSIZE + PGSIZE) = none := by
      cases hl' : storeLeaf pt (dstva / PGSIZE * PGSIZE + PGSIZE) with
      | none => rfl
      | some l' =>
        rw [hstored, storableFrom_of_le hl' (by omega) (by omega)] at hlt
        omega
    refine ⟨l, rfl, ?_, ?_⟩
    · rw [hstored, storableFrom_of_none hnext, add_zero]
    · rw [copyoutRam, hfuel, copyoutFrom, if_neg hsrc, hl]
      exact copyoutFrom_of_none hnext _ _ _

/-- What a successful `copyout` stores is there, if the bytes of the range lie
at different places. -/
theorem copyoutFrom_stored (hfuel : src.length ≤ fuel)
    (hok : (copyoutFrom pt fuel ram dstva src).1 = true)
    (hinj : ∀ i j a, i < src.length → j < src.length → userByte pt (dstva + i) = some a →
      userByte pt (dstva + j) = some a → i = j) (hj : j < src.length) :
    ∃ a, userByte pt (dstva + j) = some a ∧
      (copyoutFrom pt fuel ram dstva src).2 a = src.getD j 0 := by
  induction fuel generalizing ram dstva src j with
  | zero => omega
  | succ fuel ih =>
    have hsrc : src ≠ [] := by
      intro h
      rw [h] at hj
      exact absurd hj (not_lt_zero j)
    simp only [copyoutFrom, if_neg hsrc] at hok ⊢
    cases hl : storeLeaf pt dstva with
    | none =>
      rw [hl] at hok
      cases hok
    | some l =>
      simp only [hl] at hok
      have hrem := mod_lt dstva PGSIZE_pos
      have hnext : ∀ x, dstva / PGSIZE * PGSIZE + PGSIZE + x =
          dstva + (PGSIZE - dstva % PGSIZE + x) := by
        intro x
        rw [next_page, add_assoc]
      by_cases hpage : j < PGSIZE - dstva % PGSIZE
      · -- stored in this round, and the later rounds store elsewhere
        have hbyte : userByte pt (dstva + j) = some (l.pa + dstva % PGSIZE + j) :=
          userByte_add hl (by omega)
        refine ⟨_, hbyte, ?_⟩
        have htake : j < (src.take (PGSIZE - dstva % PGSIZE)).length := by
          rw [length_take]
          omega
        show (copyoutFrom pt fuel _ _ _).2 _ = _
        rw [copyoutFrom_of_not_stored, Ram.store_of_lt htake, getD_eq_getElem?_getD,
          getElem?_take, if_pos hpage, getD_eq_getElem?_getD]
        intro i hi hsame
        have hle := storableFrom_le pt fuel (dstva / PGSIZE * PGSIZE + PGSIZE)
          (src.drop (PGSIZE - dstva % PGSIZE)).length
        rw [length_drop] at hle hi
        rw [hnext] at hsame
        have := hinj _ _ _ hj (by omega) hbyte hsame
        omega
      · have hlen : (src.drop (PGSIZE - dstva % PGSIZE)).length =
            src.length - (PGSIZE - dstva % PGSIZE) := length_drop
        obtain ⟨a, ha, hval⟩ := ih (by omega) hok (fun i i' a hi hi' h h' => by
            rw [hnext] at h h'
            have := hinj _ _ a (by omega) (by omega) h h'
            omega)
          (j := j - (PGSIZE - dstva % PGSIZE)) (by omega)
        have hsum : PGSIZE - dstva % PGSIZE + (j - (PGSIZE - dstva % PGSIZE)) = j := by omega
        rw [hnext, hsum] at ha
        refine ⟨a, ha, hval.trans ?_⟩
        rw [getD_eq_getElem?_getD, getElem?_drop, hsum, getD_eq_getElem?_getD]

/-- The frames start at multiples of the page size, which is all that an entry
can hold. -/
def AlignedFrames (pt : PageTable) : Prop :=
  ∀ va l, walkaddr pt va = some l → l.pa % PGSIZE = 0

theorem AlignedFrames.userByte_mod (h : AlignedFrames pt)
    (ha : userByte pt va = some a) : a % PGSIZE = va % PGSIZE := by
  obtain ⟨l, hl, rfl⟩ := map_eq_some_iff.1 ha
  have hpa := h _ l (filter_eq_some_iff.1 hl).1
  rw [add_mod, hpa, zero_add, mod_mod, mod_mod]

theorem alignedFrames_onePage {pa : Nat} (hpa : pa % PGSIZE = 0) : AlignedFrames (onePage pa) := by
  -- an entry of a table with one entry is that entry
  have hset : ∀ {α : Type} {e e' : α} {i : Fin 512},
      ((Table.empty 0).set 0 (some e)).entry i = some e' → e' = e := by
    intro α e e' i h
    by_cases hi : i = 0
    · simp only [Table.set, hi, Function.update_self, Option.some.injEq] at h
      exact h.symm
    · simp [Table.set, Table.empty, Function.update_of_ne hi] at h
  intro va l h
  rw [walkaddr] at h
  split at h
  · cases h
  obtain ⟨mid, hmid, h⟩ := bind_eq_some_iff.1 (filter_eq_some_iff.1 h).1
  obtain ⟨low, hlow, h⟩ := bind_eq_some_iff.1 h
  rw [hset hmid] at hlow
  rw [hset hlow] at h
  rwa [hset h]

/-- After a successful `copyout` of at most a page, the user sees the bytes at
the address. -/
theorem copyoutRam_stored (h : AlignedFrames pt) (hlen : src.length ≤ PGSIZE)
    (hok : (copyoutRam pt ram dstva src).1 = true) (hj : j < src.length) :
    ∃ a, userByte pt (dstva + j) = some a ∧ (copyoutRam pt ram dstva src).2 a = src.getD j 0 := by
  refine copyoutFrom_stored (le_refl _) hok (fun i i' a hi hi' ha ha' => ?_) hj
  have hmod := (h.userByte_mod ha).symm.trans (h.userByte_mod ha')
  simp only [PGSIZE] at *
  omega

/-- A `copyout` of at most a page that stores more than `m` bytes, but not
all, changes some memory in a place where the user sees none of the first `m`
bytes. -/
theorem exists_change_beyond {m : Nat}
    (hlen : src.length ≤ PGSIZE) (hlt : storable pt dstva src.length < src.length)
    (hm : m < storable pt dstva src.length) : ∃ ram a, (copyoutRam pt ram dstva src).2 a ≠ ram a ∧
      ∀ i < m, userByte pt ((dstva + i) % 2 ^ 64) ≠ some a := by
  -- memory in which byte number `m` is not there yet
  obtain ⟨other, hother⟩ : ∃ other, src.getD m 0 ≠ other := by
    by_cases hzero : src.getD m 0 = 0
    · exact ⟨1, by rw [hzero]; decide⟩
    · exact ⟨0, hzero⟩
  have hpart : ∃ l, storeLeaf pt dstva = some l ∧
      storable pt dstva src.length = PGSIZE - dstva % PGSIZE ∧
      (copyoutRam pt (fun _ => other) dstva src).2 = Ram.store (fun _ => other)
        (l.pa + dstva % PGSIZE) (src.take (PGSIZE - dstva % PGSIZE)) :=
    copyoutRam_of_storable_lt hlen (zero_lt_of_lt hm) hlt
  obtain ⟨l, hl, hpage, hram⟩ := hpart
  rw [hpage] at hm hlt
  refine ⟨fun _ => other, l.pa + dstva % PGSIZE + m, ?_, ?_⟩
  · have htake : m < (src.take (PGSIZE - dstva % PGSIZE)).length := by
      rw [length_take]
      omega
    have hget : (src.take (PGSIZE - dstva % PGSIZE)).getD m 0 = src.getD m 0 := by
      rw [getD_eq_getElem?_getD, getElem?_take, if_pos hm, getD_eq_getElem?_getD]
    rwa [hram, Ram.store_of_lt htake, hget]
  intro i hi hbyte
  have haddr : userByte pt (dstva + 0) = some (l.pa + dstva % PGSIZE + 0) :=
    userByte_add hl (by omega)
  have hlow : dstva + 0 < MAXVA := userByte_lt haddr
  have hwrap : dstva + i < 2 ^ 64 := by
    have hmax : MAXVA + PGSIZE < 2 ^ 64 := by decide
    omega
  rw [mod_eq_of_lt hwrap, userByte_add hl (by omega), some.injEq] at hbyte
  omega

/-! ## What `copyin` fetches -/

/-- The byte that the user reads at an address. -/
def loadByte (pt : PageTable) (ram : Ram) (va : Nat) : Option UInt8 :=
  (walkaddr pt (va / PGSIZE * PGSIZE)).map fun l => ram (l.pa + va % PGSIZE)

end Xv6
