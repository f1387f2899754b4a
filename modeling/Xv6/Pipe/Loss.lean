import Xv6.Pipe.Model

/-!
# Bytes that a read loses

Once its wait loop has ended, `piperead` holds `pi->lock` to the end, so that
nobody else touches the pipe.  Its copy loop takes a byte out of the ring
before it copies the byte to the user, so a byte that `copyout` cannot store
is in neither place.
-/

namespace Xv6.Pipe

open Lib List

variable {pt : PageTable} {addr i : Nat} {ram : Ram}

/-- The 64-bit address `addr + i`. -/
def dest (addr i : Nat) : Nat := (addr + i) % 2 ^ 64

/-- The copy loop of `piperead` from `i` on, with `m` rounds left before
`i == n`: the result, the pipe and the memory. -/
def readLoop (pt : PageTable) (addr : Nat) : Nat → Nat → Pipe → Ram → Nat × Pipe × Ram
  | 0, i, pi, ram => (i, pi, ram)
  | m + 1, i, pi, ram =>
    if pi.empty then
      (i, pi, ram)
    else
      let r := copyoutRam pt ram (dest addr i) [pi.front]
      if r.1 then readLoop pt addr m (i + 1) pi.advance r.2 else (i, pi.advance, r.2)

/-- The user may write byte `i` of the destination. -/
def Writable (pt : PageTable) (addr i : Nat) : Prop := storeLeaf pt (dest addr i) ≠ none

/-- The bytes are stored one by one, from byte `i` of the destination on. -/
def storeAll (pt : PageTable) (addr : Nat) : Nat → List UInt8 → Ram → Ram
  | _, [], ram => ram
  | i, ch :: bytes, ram =>
    storeAll pt addr (i + 1) bytes (copyoutRam pt ram (dest addr i) [ch]).2

theorem copyoutRam_byte (ram : Ram) (ch : UInt8) :
    (copyoutRam pt ram (dest addr i) [ch]).1 = true ↔ Writable pt addr i := by
  rw [copyoutRam, Writable]
  generalize dest addr i = va
  cases hl : storeLeaf pt va <;> simp [copyoutFrom, hl]

/-- The loop takes `bytes` out of the ring and stores the first `k` of them:
all, or all but one that cannot be stored. -/
theorem readLoop_spec (pt : PageTable) (addr m i : Nat) (pi : Pipe) (ram : Ram) : ∃ bytes k,
    (readLoop pt addr m i pi ram).1 = i + k ∧
    pi.contents = bytes ++ (readLoop pt addr m i pi ram).2.1.contents ∧
    (k = bytes.length ∧ k = min m pi.contents.length ∧
        (readLoop pt addr m i pi ram).2.2 = storeAll pt addr i bytes ram ∧
        (∀ j < k, Writable pt addr (i + j)) ∨
      k + 1 = bytes.length ∧ k < min m pi.contents.length ∧ ¬ Writable pt addr (i + k)) := by
  induction m generalizing i pi ram with
  | zero => exact ⟨[], 0, rfl, rfl, .inl ⟨rfl, (Nat.zero_min _).symm, rfl, nofun⟩⟩
  | succ m ih =>
    by_cases hempty : pi.nread = pi.nwrite
    · have hnil : pi.contents = [] := by simp [contents, Ring.contents, hempty]
      rw [readLoop, if_pos (by simpa [empty] using hempty)]
      exact ⟨[], 0, rfl, rfl, .inl ⟨rfl, by rw [hnil]; rfl, rfl, nofun⟩⟩
    have hcons : pi.contents = pi.front :: pi.advance.contents :=
      Ring.contents_take pi.data hempty
    rw [readLoop, if_neg (by simpa [empty] using hempty), hcons, length_cons]
    by_cases hw : Writable pt addr i
    · simp only [(copyoutRam_byte ram pi.front).2 hw, if_true]
      obtain ⟨bytes, k, hk, hbytes, hcases⟩ := ih (i + 1) pi.advance
        (copyoutRam pt ram (dest addr i) [pi.front]).2
      have hshift : ∀ j, i + (j + 1) = i + 1 + j := fun j => by omega
      rw [Nat.succ_min_succ]
      refine ⟨pi.front :: bytes, k + 1, hk.trans (hshift k).symm, congrArg _ hbytes, ?_⟩
      rcases hcases with ⟨hlen, hmin, hram, hall⟩ | ⟨hlen, hlt, hno⟩
      · refine .inl ⟨congrArg _ hlen, congrArg _ hmin, hram, fun j hj => ?_⟩
        cases j with
        | zero => exact hw
        | succ j =>
          rw [hshift]
          exact hall j (Nat.lt_of_succ_lt_succ hj)
      · exact .inr ⟨congrArg _ hlen, Nat.succ_lt_succ hlt, by rwa [hshift]⟩
    · -- the byte has left the ring
      rw [← copyoutRam_byte ram pi.front, Bool.not_eq_true] at hw
      simp only [hw, Bool.false_eq_true, if_false]
      refine ⟨[pi.front], 0, rfl, rfl, .inr ⟨rfl, by omega, ?_⟩⟩
      rw [Nat.add_zero, ← copyoutRam_byte ram pi.front, hw]
      exact Bool.false_ne_true

/-- A pipe with one byte. -/
def oneByte : Pipe := (init fun _ => 0).store 7

end Xv6.Pipe
