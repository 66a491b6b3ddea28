import Mathlib.Data.Nat.Init
import Mathlib.Logic.Function.Basic
import Mathlib.Tactic.Common

/-!
# Rings with a phase

A producer writes values one after the other into a ring of `depth` slots. The phase of a pass over
the ring alternates, so that a consumer who knows in which pass it is can tell a value of this pass
from one of the pass before.

## Main definitions

* `RingHolds` — what the slots hold after a list of values has been written
* `passPhase` — the phase of the `n`-th value

## Main results

* `RingHolds.write`
* `passPhase_succ`, `passPhase_add_depth`
-/

namespace Maios

variable {α : Type*} {depth n : ℕ}

/-- The last `depth` values that were written are in their slots, and slots that were never written
are as at the start. -/
structure RingHolds (depth : ℕ) (blank : α) (log : List α) (slots : ℕ → α) : Prop where
  written : ∀ n a, log[n]? = some a → log.length ≤ n + depth → slots (n % depth) = a
  blank : ∀ n, log.length ≤ n → n < depth → slots n = blank

/-- The next value is written. -/
theorem RingHolds.write {blank : α} {log : List α} {slots : ℕ → α}
    (h : RingHolds depth blank log slots) (a : α) :
    RingHolds depth blank (log ++ [a]) (Function.update slots (log.length % depth) a) := by
  refine ⟨fun n b hb hn => ?_, fun n hn hlt => ?_⟩ <;>
    rw [List.length_append, List.length_singleton] at hn
  · rcases Nat.lt_trichotomy n log.length with hlt | rfl | hgt
    · -- An older value that is still visible is in another slot.
      have hne : n % depth ≠ log.length % depth := by
        intro heq
        have hmod : (log.length - n) % depth = 0 := Nat.sub_mod_eq_zero_of_mod_eq heq.symm
        rw [Nat.mod_eq_of_lt (by omega)] at hmod
        omega
      rw [Function.update_of_ne hne]
      rw [List.getElem?_append_left hlt] at hb
      exact h.written n b hb (by omega)
    · rw [List.getElem?_concat_length] at hb
      rw [Function.update_self, Option.some.inj hb]
    · rw [List.getElem?_eq_none (by rw [List.length_append, List.length_singleton]; omega)] at hb
      cases hb
  · have hne : n ≠ log.length % depth := by
      rw [Nat.mod_eq_of_lt (by omega)]
      omega
    rw [Function.update_of_ne hne]
    exact h.blank n (by omega) hlt

/-- One in the first pass, and alternating from pass to pass. -/
def passPhase (depth n : ℕ) : ℕ := if n / depth % 2 = 0 then 1 else 0

/-- The phase changes where the next pass begins. -/
theorem passPhase_succ (depth n : ℕ) :
    passPhase depth (n + 1) =
      if (n + 1) % depth = 0 then passPhase depth n ^^^ 1 else passPhase depth n := by
  simp only [passPhase, Nat.succ_div, Nat.dvd_iff_mod_eq_zero]
  by_cases hmod : (n + 1) % depth = 0
  · rw [if_pos hmod, if_pos hmod]
    rcases Nat.mod_two_eq_zero_or_one (n / depth) with h | h
    · rw [if_neg (by omega), if_pos h]
      rfl
    · rw [if_pos (by omega), if_neg (by omega)]
      rfl
  · rw [if_neg hmod, if_neg hmod, Nat.add_zero]

theorem passPhase_add_depth (hpos : 0 < depth) (n : ℕ) :
    passPhase depth (n + depth) ≠ passPhase depth n := by
  simp only [passPhase, Nat.add_div_right n hpos]
  rcases Nat.mod_two_eq_zero_or_one (n / depth) with h | h
  · rw [if_neg (by omega), if_pos h]
    decide
  · rw [if_pos (by omega), if_neg (by omega)]
    decide

end Maios
