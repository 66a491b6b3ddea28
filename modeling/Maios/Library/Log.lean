import Mathlib.Data.List.Nodup
import Mathlib.Logic.Function.Basic
import Mathlib.Tactic.Common

/-!
# Logs with one entry for a process

Every process gets a value at most once, and the list of the values with their processes is kept in
the order in which they were given. `Logged value l` says that `l` is such a list for the current
values.

## Main definitions

* `Logged`

## Main results

* `Logged.concat` — a process gets its value
* `Logged.nodup` — no process has two entries
-/

namespace Maios

open List

variable {ι α γ : Type*} [DecidableEq ι] {value value' : ι → Option α} {l : List (ι × α)} {t : ι}

/-- The list has one entry for every process that has a value, and no other entry. -/
def Logged (value : ι → Option α) (l : List (ι × α)) : Prop :=
  ∀ t, l.filter (fun e => e.1 == t) = (value t).toList.map fun a => (t, a)

namespace Logged

variable (h : Logged value l) {a : α}

include h

theorem congr (heq : ∀ t, value' t = value t) : Logged value' l := by
  intro t
  rw [heq t, h t]

/-- A process gets a value, and an entry. -/
theorem concat (hold : value t = none) (hnew : value' t = some a)
    (hother : ∀ t', t' ≠ t → value' t' = value t') : Logged value' (l ++ [(t, a)]) := by
  intro t'
  rw [filter_append]
  rcases eq_or_ne t' t with rfl | hne
  · rw [h t', hold, hnew]
    simp
  · have hfalse : (t == t') = false := beq_false_of_ne hne.symm
    rw [hother t' hne, h t']
    simp [hfalse]

theorem filter_eq (hv : value t = some a) : l.filter (fun e => e.1 == t) = [(t, a)] := by
  rw [h t, hv]
  rfl

theorem mem (hv : value t = some a) : (t, a) ∈ l := by
  have hmem : (t, a) ∈ l.filter (fun e => e.1 == t) := by
    rw [h.filter_eq hv]
    exact mem_singleton.mpr rfl
  exact (mem_filter.mp hmem).1

theorem value_of_mem (hmem : (t, a) ∈ l) : value t = some a := by
  have hmem : (t, a) ∈ (value t).toList.map fun a => (t, a) := by
    rw [← h t]
    exact mem_filter.mpr ⟨hmem, beq_self_eq_true t⟩
  obtain ⟨a', ha', heq⟩ := mem_map.mp hmem
  obtain rfl : a' = a := (Prod.mk.inj heq).2
  exact Option.mem_toList.mp ha'

/-- No process has two entries. -/
theorem nodup : (l.map Prod.fst).Nodup := by
  rw [nodup_iff_count_le_one]
  intro t
  have hcount : (l.map Prod.fst).count t = (l.filter fun e => e.1 == t).length := by
    rw [count, countP_map, countP_eq_length_filter]
    rfl
  rw [hcount, h t]
  cases value t <;> simp

end Logged

/-- A property of the states of all processes, when one of them moves and the property stays. -/
theorem update_same {f : γ → α} {states : ι → γ} {x : γ} (hx : f x = f (states t)) (t' : ι) :
    f (Function.update states t x t') = f (states t') := by
  rcases eq_or_ne t' t with rfl | hne
  · rw [Function.update_self, hx]
  · rw [Function.update_of_ne hne]

end Maios
