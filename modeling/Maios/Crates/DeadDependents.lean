import Mathlib.Data.List.Basic

/-!
# Removing dead dependents

`swap_crates` goes through the sections that depend on an old one and takes down the indices of those
that are gone; after the loop it removes these indices from the list, one after the other. Each
removal moves the entries behind it, so that every index but the first names another entry than the
one that was dead.

## Main results

* `removeDead_exact_iff` — the live entries are left, in order, exactly if at most one entry is dead
-/

namespace Maios.Crates

open List

/-- An entry of `sections_dependent_on_me`. The section is `none` once it has been dropped. -/
structure WeakDependent (σ ρ : Type*) where
  sec : Option σ
  relocation : ρ
  deriving DecidableEq

variable {α σ ρ : Type*} {deps : List (WeakDependent σ ρ)}

/-- `upgrade` fails. -/
def WeakDependent.isDead (dep : WeakDependent σ ρ) : Bool := dep.sec.isNone

/-- `dead_weak_deps_to_remove`: the indices of the entries that are dead. -/
def deadWeakDepsToRemove (deps : List (WeakDependent σ ρ)) : List ℕ :=
  deps.findIdxs WeakDependent.isDead

/-- The loop over the indices. `Vec::remove` panics (`none`) behind the end of the list. -/
def removeIndices : List ℕ → List α → Option (List α)
  | [], l => some l
  | index :: indices, l =>
    if index < l.length then removeIndices indices (l.eraseIdx index) else none

/-- What becomes of the dependents of an old section. -/
def removeDead (deps : List (WeakDependent σ ρ)) : Option (List (WeakDependent σ ρ)) :=
  removeIndices (deadWeakDepsToRemove deps) deps

/-- If all indices are one higher, then the first entry stays. -/
theorem removeIndices_succ (indices : List ℕ) (a : α) (l : List α) :
    removeIndices (indices.map (· + 1)) (a :: l) = (removeIndices indices l).map (a :: ·) := by
  induction indices generalizing l with
  | nil => rfl
  | cons index indices ih =>
    simp only [map_cons, removeIndices, length_cons, Nat.add_lt_add_iff_right, eraseIdx_cons_succ,
      ih]
    split_ifs <;> rfl

theorem deadWeakDepsToRemove_cons (dep : WeakDependent σ ρ) :
    deadWeakDepsToRemove (dep :: deps) = if dep.isDead then
      0 :: (deadWeakDepsToRemove deps).map (· + 1) else (deadWeakDepsToRemove deps).map (· + 1) := by
  rw [deadWeakDepsToRemove, findIdxs_cons, findIdxs_start]
  rfl

theorem removeIndices_live {dep : WeakDependent σ ρ} (hdep : dep.isDead = false)
    (indices : List ℕ) :
    removeIndices (indices.map (· + 1)) (dep :: deps) = some ((dep :: deps).filter (!·.isDead)) ↔
      removeIndices indices deps = some (deps.filter (!·.isDead)) := by
  rw [removeIndices_succ, filter_cons_of_pos (by rw [hdep]; rfl), ← Option.map_some]
  exact (Option.map_injective cons_injective).eq_iff

/-- After the first removal the indices are one too high, and a dead entry stays. -/
theorem removeIndices_too_high_iff (deps : List (WeakDependent σ ρ)) :
    removeIndices ((deadWeakDepsToRemove deps).map (· + 1)) deps =
        some (deps.filter (!·.isDead)) ↔ deps.countP WeakDependent.isDead = 0 := by
  induction deps with
  | nil => exact iff_of_true rfl rfl
  | cons dep deps ih =>
    rw [deadWeakDepsToRemove_cons]
    cases hdep : dep.isDead with
    | true =>
      rw [countP_cons_of_pos hdep]
      refine iff_of_false (fun h => ?_) (Nat.succ_ne_zero _)
      -- no index is 0
      rw [removeIndices_succ] at h
      obtain ⟨l, -, hl⟩ := Option.map_eq_some_iff.mp h
      have hmem := mem_filter.mp (hl ▸ mem_cons_self : dep ∈ filter _ (dep :: deps))
      rw [hdep] at hmem
      cases hmem.2
    | false =>
      rw [if_neg Bool.false_ne_true, removeIndices_live hdep, ih, countP_cons_of_neg (by simp [hdep])]

/-- **The removal leaves exactly the live entries, in their order, if and only if at most one entry
is dead.** -/
theorem removeDead_exact_iff (deps : List (WeakDependent σ ρ)) :
    removeDead deps = some (deps.filter (!·.isDead)) ↔
      deps.countP WeakDependent.isDead ≤ 1 := by
  induction deps with
  | nil => exact iff_of_true rfl (Nat.zero_le 1)
  | cons dep deps ih =>
    rw [removeDead, deadWeakDepsToRemove_cons]
    cases hdep : dep.isDead with
    | true =>
      rw [countP_cons_of_pos hdep, filter_cons_of_neg (by simp [hdep]), Nat.succ_le_succ_iff,
        Nat.le_zero, ← removeIndices_too_high_iff]
      rfl
    | false =>
      rw [if_neg Bool.false_ne_true, removeIndices_live hdep, countP_cons_of_neg (by simp [hdep]),
        ← ih]
      rfl

/-- With two dead entries, the second removal panics, or takes the live entry behind them. -/
theorem two_dead_dependents :
    removeDead [(⟨none, 0⟩ : WeakDependent ℕ ℕ), ⟨none, 1⟩] = none ∧
    removeDead [(⟨none, 0⟩ : WeakDependent ℕ ℕ), ⟨none, 1⟩, ⟨some 7, 2⟩] = some [⟨none, 1⟩] := by
  decide

end Maios.Crates
