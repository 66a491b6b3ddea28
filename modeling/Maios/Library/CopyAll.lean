import Mathlib.Data.List.Nodup
import Mathlib.Logic.Function.Basic
import Mathlib.Tactic.Common

/-!
# Copying along a list of moves

A move names where a value is taken from and where it goes. The moves of a list are made one after
the other.

## Main definitions

* `copyAll`

## Main results

* `copyAll_of_mem`, `copyAll_of_not_mem`
-/

namespace Maios

open List

variable {α β γ : Type*} [DecidableEq β]

/-- What is in the destination after the moves. -/
def copyAll (src : α → γ) (dst : β → γ) (moves : List (α × β)) : β → γ :=
  moves.foldl (fun dst move => Function.update dst move.2 (src move.1)) dst

variable {src : α → γ} {dst : β → γ} {moves : List (α × β)} {a : α} {b : β}

/-- Nothing else changes. -/
theorem copyAll_of_not_mem (h : b ∉ moves.map Prod.snd) : copyAll src dst moves b = dst b := by
  induction moves generalizing dst with
  | nil => rfl
  | cons move moves ih =>
    rw [map_cons, mem_cons, not_or] at h
    rw [copyAll, foldl_cons, ← copyAll, ih h.2, Function.update_of_ne h.1]

/-- Where no two moves go to the same place, each one arrives. -/
theorem copyAll_of_mem (hnodup : (moves.map Prod.snd).Nodup) (h : (a, b) ∈ moves) :
    copyAll src dst moves b = src a := by
  induction moves generalizing dst with
  | nil => exact absurd h not_mem_nil
  | cons move moves ih =>
    rw [map_cons, nodup_cons] at hnodup
    rw [copyAll, foldl_cons, ← copyAll]
    rcases mem_cons.mp h with rfl | htail
    · rw [copyAll_of_not_mem hnodup.1, Function.update_self]
    · exact ih hnodup.2 htail

end Maios
