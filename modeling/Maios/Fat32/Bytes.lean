import Mathlib.Algebra.Ring.Nat
import Mathlib.Data.List.Basic
import Mathlib.Tactic.Common

/-!
# Little-endian numbers in a buffer

The helpers of the driver that read and write 16- and 32-bit numbers in a byte buffer. The driver
calls them at fixed offsets of sectors and directory slots; an offset outside the buffer reads zeros
here and writes nothing.
-/

namespace Maios.Fat32

open List

abbrev Bytes := List UInt8

/-- The byte at an offset, as a number. -/
def byteAt (buf : Bytes) (off : ℕ) : ℕ := (buf.getD off 0).toNat

def ru16 (buf : Bytes) (off : ℕ) : ℕ := byteAt buf off + 256 * byteAt buf (off + 1)

def ru32 (buf : Bytes) (off : ℕ) : ℕ :=
  byteAt buf off + 256 * byteAt buf (off + 1) + 65536 * byteAt buf (off + 2) +
    16777216 * byteAt buf (off + 3)

def wu16 (buf : Bytes) (off val : ℕ) : Bytes :=
  (buf.set off (UInt8.ofNat val)).set (off + 1) (UInt8.ofNat (val / 256))

def wu32 (buf : Bytes) (off val : ℕ) : Bytes :=
  (((buf.set off (UInt8.ofNat val)).set (off + 1) (UInt8.ofNat (val / 256))).set (off + 2)
    (UInt8.ofNat (val / 65536))).set (off + 3) (UInt8.ofNat (val / 16777216))

/-- `Vec::resize` with zeros. -/
def resize (buf : Bytes) (n : ℕ) : Bytes := buf.take n ++ List.replicate (n - buf.length) 0

section

variable (buf : Bytes) (off val : ℕ) {n : ℕ}

@[simp] theorem length_wu16 : (wu16 buf off val).length = buf.length := by
  simp [wu16]

@[simp] theorem length_wu32 : (wu32 buf off val).length = buf.length := by
  simp [wu32]

@[simp] theorem length_resize (n : ℕ) : (resize buf n).length = n := by
  simp [resize]
  omega

theorem resize_of_le (h : buf.length ≤ n) : resize buf n = buf ++ replicate (n - buf.length) 0 := by
  rw [resize, take_of_length_le h]

theorem resize_of_length (h : buf.length = n) : resize buf n = buf := by
  rw [resize_of_le buf (le_of_eq h), h, Nat.sub_self, replicate_zero, append_nil]

/-- A buffer grows piece by piece. -/
theorem resize_mul_succ (w n : ℕ) :
    resize (buf.take w) w ++ resize (buf.drop w) (w * n) = resize buf (w * (n + 1)) := by
  rw [resize, resize, resize, take_take, min_self, Nat.mul_succ, add_comm, take_add,
    length_take, length_drop]
  rcases le_total w buf.length with h | h
  · have hpad : w * n - (buf.length - w) = w + w * n - buf.length := by omega
    rw [min_eq_left h, Nat.sub_self, replicate_zero, append_nil, append_assoc, hpad]
  · have hpad : w - buf.length + (w * n - (buf.length - w)) = w + w * n - buf.length := by omega
    rw [min_eq_right h, drop_eq_nil_of_le h, take_nil, nil_append,
      append_nil, append_assoc, replicate_append_replicate, hpad]

theorem byteAt_lt : byteAt buf off < 256 := (buf.getD off 0).toNat_lt

theorem ru32_lt : ru32 buf off < 2 ^ 32 := by
  have h₀ := byteAt_lt buf off
  have h₁ := byteAt_lt buf (off + 1)
  have h₂ := byteAt_lt buf (off + 2)
  have h₃ := byteAt_lt buf (off + 3)
  rw [ru32]
  omega

end

variable {buf : Bytes} {off off' val : ℕ}

theorem byteAt_set_self (h : off < buf.length) (b : UInt8) :
    byteAt (buf.set off b) off = b.toNat := by
  rw [byteAt, getD_eq_getElem?_getD, getElem?_set_self h, Option.getD_some]

theorem byteAt_set_of_ne (h : off ≠ off') (b : UInt8) :
    byteAt (buf.set off b) off' = byteAt buf off' := by
  rw [byteAt, getD_eq_getElem?_getD, getElem?_set_ne h, ← getD_eq_getElem?_getD, byteAt]

theorem byteAt_wu16_of_ne (h : off' ≠ off) (h' : off' ≠ off + 1) :
    byteAt (wu16 buf off val) off' = byteAt buf off' := by
  rw [wu16, byteAt_set_of_ne h'.symm, byteAt_set_of_ne h.symm]

theorem byteAt_wu32_of_disjoint (h : off' < off ∨ off + 4 ≤ off') :
    byteAt (wu32 buf off val) off' = byteAt buf off' := by
  rw [wu32, byteAt_set_of_ne (by omega), byteAt_set_of_ne (by omega),
    byteAt_set_of_ne (by omega), byteAt_set_of_ne (by omega)]

theorem ru16_wu16_self (h : off + 2 ≤ buf.length) (hval : val < 2 ^ 16) :
    ru16 (wu16 buf off val) off = val := by
  rw [ru16, wu16, byteAt_set_of_ne (by omega), byteAt_set_self (by omega),
    byteAt_set_self (by rw [length_set]; omega), UInt8.toNat_ofNat', UInt8.toNat_ofNat']
  omega

theorem ru16_wu16_of_disjoint (h : off' + 2 ≤ off ∨ off + 2 ≤ off') :
    ru16 (wu16 buf off val) off' = ru16 buf off' := by
  rw [ru16, byteAt_wu16_of_ne (by omega) (by omega), byteAt_wu16_of_ne (by omega) (by omega), ru16]

theorem ru16_wu32_of_disjoint (h : off' + 2 ≤ off ∨ off + 4 ≤ off') :
    ru16 (wu32 buf off val) off' = ru16 buf off' := by
  rw [ru16, byteAt_wu32_of_disjoint (by omega), byteAt_wu32_of_disjoint (by omega), ru16]

/-- A number written is read back. -/
theorem ru32_wu32_self (h : off + 4 ≤ buf.length) (hval : val < 2 ^ 32) :
    ru32 (wu32 buf off val) off = val := by
  have h₀ : byteAt (wu32 buf off val) off = val % 256 := by
    rw [wu32, byteAt_set_of_ne (by omega), byteAt_set_of_ne (by omega),
      byteAt_set_of_ne (by omega), byteAt_set_self (by omega), UInt8.toNat_ofNat']
  have h₁ : byteAt (wu32 buf off val) (off + 1) = val / 256 % 256 := by
    rw [wu32, byteAt_set_of_ne (by omega), byteAt_set_of_ne (by omega),
      byteAt_set_self (by simp only [length_set]; omega), UInt8.toNat_ofNat']
  have h₂ : byteAt (wu32 buf off val) (off + 2) = val / 65536 % 256 := by
    rw [wu32, byteAt_set_of_ne (by omega),
      byteAt_set_self (by simp only [length_set]; omega), UInt8.toNat_ofNat']
  have h₃ : byteAt (wu32 buf off val) (off + 3) = val / 16777216 % 256 := by
    rw [wu32, byteAt_set_self (by simp only [length_set]; omega), UInt8.toNat_ofNat']
  rw [ru32]
  omega

/-- A number written elsewhere is not seen. -/
theorem ru32_wu32_of_disjoint (h : off' + 4 ≤ off ∨ off + 4 ≤ off') :
    ru32 (wu32 buf off val) off' = ru32 buf off' := by
  rw [ru32, byteAt_wu32_of_disjoint (by omega), byteAt_wu32_of_disjoint (by omega),
    byteAt_wu32_of_disjoint (by omega), byteAt_wu32_of_disjoint (by omega), ru32]

end Maios.Fat32
