import Mathlib.Algebra.Ring.Nat
import Mathlib.Data.List.Basic
import Mathlib.Tactic.Common

/-!
# Numbers in little-endian bytes

## Main definitions

* `leNat`, `leBytes`, `leAt`

## Main results

* `leAt_lt`, `leAt_append`
* `leNat_leBytes` — reading back is modulo `256 ^ w`
-/

namespace Maios

/-- The number that the bytes represent. -/
def leNat : List UInt8 → ℕ
  | [] => 0
  | b :: bs => b.toNat + 256 * leNat bs

/-- The lowest `w` bytes of a number. -/
def leBytes : ℕ → ℕ → List UInt8
  | 0, _ => []
  | w + 1, n => UInt8.ofNat n :: leBytes w (n / 256)

/-- The number in `w` bytes at the offset. -/
def leAt (data : List UInt8) (off w : ℕ) : ℕ := leNat ((data.drop off).take w)

@[simp] theorem length_leBytes (w n : ℕ) : (leBytes w n).length = w := by
  induction w generalizing n with
  | zero => rfl
  | succ w ih => rw [leBytes, List.length_cons, ih]

theorem leNat_lt (bytes : List UInt8) : leNat bytes < 256 ^ bytes.length := by
  induction bytes with
  | nil => exact Nat.one_pos
  | cons b bs ih =>
    have hb := b.toNat_lt
    rw [leNat, List.length_cons]
    omega

theorem leAt_lt (data : List UInt8) (off w : ℕ) : leAt data off w < 256 ^ w := by
  refine lt_of_lt_of_le (leNat_lt _) (Nat.pow_le_pow_right (by decide) ?_)
  rw [List.length_take]
  exact min_le_left _ _

/-- What comes after the field does not matter. -/
theorem leAt_append {data : List UInt8} {off w : ℕ} (h : off + w ≤ data.length) (more : List UInt8) :
    leAt (data ++ more) off w = leAt data off w := by
  rw [leAt, leAt, List.drop_append_of_le_length (by omega), List.take_append_of_le_length]
  rw [List.length_drop]
  omega

theorem leNat_leBytes (w n : ℕ) : leNat (leBytes w n) = n % 256 ^ w := by
  induction w generalizing n with
  | zero => exact (Nat.mod_one n).symm
  | succ w ih =>
    have hbyte : (UInt8.ofNat n).toNat = n % 256 := UInt8.toNat_ofNat'
    rw [leBytes, leNat, ih, hbyte, pow_succ, mul_comm _ 256, Nat.mod_mul]

end Maios
