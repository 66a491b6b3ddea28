import Mathlib.Data.Nat.Basic
import Mathlib.Logic.Function.Basic
import Mathlib.Tactic.Common

/-!
# Block devices that may fail

A device stores blocks of a fixed number of bytes. Every access may fail; which ones do is part of
the device, as a function of the number of accesses made before. A read that fails returns
nothing, and a write that fails leaves an arbitrary block behind.
-/

namespace Maios.Storage

/-- A block of `bs` bytes. -/
abbrev Block (bs : ℕ) := { l : List UInt8 // l.length = bs }

/-- The block with these bytes, if their number is right. -/
def Block.ofList (bs : ℕ) (l : List UInt8) : Option (Block bs) :=
  if h : l.length = bs then some ⟨l, h⟩ else none

structure Device (bs : ℕ) where
  contents : ℕ → Block bs
  /-- The number of accesses so far. -/
  accesses : ℕ
  /-- The accesses that fail, each with the block that it leaves behind if it is a write. -/
  faults : ℕ → Option (Block bs)

namespace Device

variable {bs block : ℕ} {data : Block bs} {d : Device bs}

/-- Read one block. -/
def read (d : Device bs) (block : ℕ) : Option (Block bs) × Device bs :=
  let d' := { d with accesses := d.accesses + 1 }
  match d.faults d.accesses with
  | none => (some (d.contents block), d')
  | some _ => (none, d')

/-- Write one block, and tell whether it was written. -/
def write (d : Device bs) (block : ℕ) (data : Block bs) : Bool × Device bs :=
  let d' := { d with accesses := d.accesses + 1 }
  match d.faults d.accesses with
  | none => (true, { d' with contents := Function.update d.contents block data })
  | some junk => (false, { d' with contents := Function.update d.contents block junk })

theorem read_contents (d : Device bs) (block : ℕ) : (d.read block).2.contents = d.contents := by
  rw [read]
  cases d.faults d.accesses <;> rfl

theorem read_eq_some (h : (d.read block).1 = some data) : data = d.contents block := by
  rw [read] at h
  cases hf : d.faults d.accesses with rw [hf] at h
  | none =>
    exact (Option.some.inj h).symm
  | some junk =>
    cases h

/-- A write that succeeds. -/
theorem write_contents (h : (d.write block data).1 = true) :
    (d.write block data).2.contents = Function.update d.contents block data := by
  rw [write] at h ⊢
  cases hf : d.faults d.accesses with
  | none => rfl
  | some junk =>
    rw [hf] at h
    cases h

/-- No write touches another block. -/
theorem write_contents_of_ne (d : Device bs) {b : ℕ} (data : Block bs) (hne : b ≠ block) :
    (d.write block data).2.contents b = d.contents b := by
  rw [write]
  cases d.faults d.accesses <;> exact Function.update_of_ne hne _ _

end Device

end Maios.Storage
