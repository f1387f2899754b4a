import Mathlib

/-!
# Ring buffers with free-running counters

A ring of `cap` cells with two 32-bit counters: `r` counts what was taken
out and `w` what was put in.  Neither is ever reduced modulo `cap`, and both
wrap at `2 ^ 32`, so `cap` has to divide `2 ^ 32`.  The number of elements
is the difference of the counters modulo `2 ^ 32`, and `contents` lists
them, oldest first.
-/

namespace Xv6.Lib

open Function List Nat UInt32

namespace Ring

variable {r w e : UInt32}

variable {α : Type} {cap : Nat} [NeZero cap]

/-- The cell that a counter points to. -/
def slot (c : UInt32) : Fin cap :=
  ⟨c.toNat % cap, Nat.mod_lt _ (Nat.pos_of_ne_zero (NeZero.ne cap))⟩

/-- The number of elements between two counters. -/
def size (r w : UInt32) : Nat := (w - r).toNat

/-- The elements between two counters, oldest first. -/
def contents (data : Fin cap → α) (r w : UInt32) : List α :=
  (List.range (size r w)).map fun i => data (slot (r + UInt32.ofNat i))

@[simp] theorem size_self (r : UInt32) : size r r = 0 := by simp [size]

theorem size_eq_zero : size r w = 0 ↔ r = w := by
  constructor
  · intro h
    have hsub : w - r = 0 := UInt32.toNat_inj.mp h
    rw [← UInt32.sub_add_cancel w r, hsub, UInt32.zero_add]
  · rintro rfl
    exact size_self r

theorem add_ofNat_size (r w : UInt32) : r + UInt32.ofNat (size r w) = w := by
  rw [size, UInt32.ofNat_toNat, UInt32.add_comm, UInt32.sub_add_cancel]

/-- The distance of the counters is `n` exactly when `w` is `n` steps ahead. -/
theorem size_eq_iff {n : Nat} (hn : n < 2 ^ 32) : size r w = n ↔ w = r + ofNat n := by
  constructor
  · rintro rfl
    exact (add_ofNat_size r w).symm
  · rintro rfl
    rw [size, UInt32.add_comm, UInt32.add_sub_cancel, toNat_ofNat_of_lt' hn]

/-- Putting one element in. -/
theorem size_succ (h : size r w + 1 < 2 ^ 32) : size r (w + 1) = size r w + 1 := by
  rw [size_eq_iff h, ofNat_add, ← UInt32.add_assoc, add_ofNat_size]
  rfl

/-- Taking one element out. -/
theorem size_pred (h : r ≠ w) : size (r + 1) w + 1 = size r w := by
  have hpos : size r w ≠ 0 := fun h0 => h (size_eq_zero.mp h0)
  have hlt : size r w < 2 ^ 32 := toNat_lt _
  have hsize : size (r + 1) w = size r w - 1 := by
    rw [size_eq_iff (by omega)]
    have hone : ofNat (size r w) = 1 + ofNat (size r w - 1) := by
      rw [show (1 : UInt32) = ofNat 1 from rfl, ← ofNat_add]
      congr 1
      omega
    rw [UInt32.add_assoc, ← hone, add_ofNat_size]
  omega

/-- Taking the last element back. -/
theorem size_back (h : r ≠ w) : size r (w - 1) + 1 = size r w := by
  have hpos : size r w ≠ 0 := fun h0 => h (size_eq_zero.mp h0)
  have hlt : size r w < 2 ^ 32 := toNat_lt _
  have hsize : size r (w - 1) = size r w - 1 := by
    rw [size_eq_iff (by omega)]
    have hone : ofNat (size r w) = ofNat (size r w - 1) + 1 := by
      rw [show (1 : UInt32) = ofNat 1 from rfl, ← ofNat_add]
      congr 1
      omega
    rw [← UInt32.add_sub_cancel (r + ofNat (size r w - 1)) 1, UInt32.add_assoc, ← hone,
      add_ofNat_size]
  omega

/-- A counter on the way from one to another. -/
theorem size_add (h : size r w ≤ size r e) : size r w + size w e = size r e := by
  have hw := toNat_lt w
  simp only [size, UInt32.toNat_sub] at *
  omega

/-- A counter that goes back, but not beyond a third one. -/
theorem size_le_of_back {e' : UInt32} (h : size r w ≤ size r e)
    (hback : size w e' ≤ size w e) : size r w ≤ size r e' ∧ size r e' ≤ size r e := by
  have hw := toNat_lt w
  simp only [size, UInt32.toNat_sub] at *
  omega

/-- The elements up to a counter on the way, and those behind it. -/
theorem contents_append (data : Fin cap → α) (h : size r w ≤ size r e) :
    contents data r e = contents data r w ++ contents data w e := by
  unfold contents
  rw [← size_add h, range_add, map_append, map_map]
  congr 1
  apply map_congr_left
  intro i _
  simp only [comp_apply]
  rw [ofNat_add, ← UInt32.add_assoc, add_ofNat_size]

variable (hcap : cap ∣ 2 ^ 32) (hlt : cap < 2 ^ 32)

include hcap in
/-- Steps of a counter are steps around the ring. -/
theorem slot_add (c : UInt32) (i : Nat) :
    (slot (c + ofNat i) : Fin cap).val = (c.toNat + i) % cap := by
  have hval : (c + ofNat i).toNat = (c.toNat + i) % 2 ^ 32 := by simp [UInt32.toNat_add]
  show (c + ofNat i).toNat % cap = _
  rw [hval, mod_mod_of_dvd _ hcap]

include hcap in
/-- Fewer than `cap` steps lead to another cell. -/
theorem slot_ne {c : UInt32} {i j : Nat} (hij : i < j) (hj : j < i + cap) :
    (slot (c + ofNat i) : Fin cap) ≠ slot (c + ofNat j) := by
  intro heq
  have hval := congrArg Fin.val heq
  rw [slot_add hcap, slot_add hcap] at hval
  have hmod : j - i ≡ 0 [MOD cap] := by
    have hsum : c.toNat + i ≡ c.toNat + i + (j - i) [MOD cap] := by
      have hj' : c.toNat + i + (j - i) = c.toNat + j := by omega
      rwa [hj']
    exact (ModEq.add_left_cancel' (c.toNat + i) (by simpa using hsum)).symm
  have hdvd := (modEq_zero_iff_dvd).mp hmod
  have hle := le_of_dvd (by omega) hdvd
  omega

include hcap in
/-- A store in a free cell changes no element. -/
theorem contents_update (data : Fin cap → α) (h : size r w ≤ size r e)
    (hroom : size r e < cap) (x : α) :
    contents (update data (slot e) x) r w = contents data r w := by
  unfold contents
  apply map_congr_left
  intro i hi
  have hi' := mem_range.mp hi
  apply update_of_ne
  have hne := slot_ne (c := r) (i := i) (j := size r e) hcap (by omega) (by omega)
  rwa [add_ofNat_size] at hne

include hcap hlt in
/-- What is put in comes last. -/
theorem contents_put (data : Fin cap → α) (h : size r w < cap) (x : α) :
    contents (update data (slot w) x) r (w + 1) = contents data r w ++ [x] := by
  have hold := contents_update hcap data (le_refl (size r w)) h x
  have hlast : (update data (slot w) x) (slot (r + ofNat (size r w))) = x := by
    rw [add_ofNat_size, update_self]
  unfold contents at hold ⊢
  rw [size_succ (by omega), range_succ, map_append, hold, map_singleton, hlast]

/-- What is taken out came first. -/
theorem contents_take (data : Fin cap → α) (h : r ≠ w) :
    contents data r w = data (slot r) :: contents data (r + 1) w := by
  unfold contents
  rw [← size_pred h, range_succ_eq_map, map_cons, map_map]
  congr 1
  · simp
  apply map_congr_left
  intro i _
  simp only [comp_apply]
  congr 2
  rw [Nat.succ_eq_add_one, Nat.add_comm i 1, ofNat_add, ← UInt32.add_assoc]
  rfl

end Ring

end Xv6.Lib
