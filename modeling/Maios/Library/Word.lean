import Mathlib.Algebra.Ring.Nat

/-!
# Machine words

Values of `u64` and `usize` as natural numbers: what an operation gives that overflows.
-/

namespace Maios

/-- The value of a `u64` or `usize` after an operation that may overflow. -/
def wrap (n : ℕ) : ℕ := n % 2 ^ 64

/-- Subtraction of two such values, which wraps around below zero. -/
def wrapSub (a b : ℕ) : ℕ := if b ≤ a then a - b else a + 2 ^ 64 - b

end Maios
