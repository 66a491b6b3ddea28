import Mathlib.Data.List.Basic
import Mathlib.Tactic.Common

/-!
# Overwriting a part of a list

A list is overwritten from an offset on. If the offset is behind its end, the gap is filled. An
implementation grows the list first and then copies; the definition says what the result is.

## Main definitions

* `overwrite`

## Main results

* `copy_grown` — growing and copying overwrites
* `slice_overwrite_self` — what is read from the result
-/

namespace Maios

open List

variable {α : Type*} (pad : α) (l new : List α) (off : ℕ)

/-- The list with `new` from the offset on, and `pad` in a gap. -/
def overwrite : List α :=
  l.take off ++ List.replicate (off - l.length) pad ++ new ++ l.drop (off + new.length)

theorem length_overwrite : (overwrite pad l new off).length = max l.length (off + new.length) := by
  simp only [overwrite, length_append, length_take, length_replicate, length_drop]
  omega

/-- Growing the list to the end of what is written, and copying. -/
theorem copy_grown (grown : List α)
    (h : grown = if l.length < off + new.length then
      l ++ replicate (off + new.length - l.length) pad else l) :
    grown.take off ++ new ++ grown.drop (off + new.length) = overwrite pad l new off := by
  rw [overwrite]
  split_ifs at h with hshort
  · have hdrop : grown.drop (off + new.length) = [] := by
      refine drop_eq_nil_of_le ?_
      rw [h, length_append, length_replicate]
      omega
    have htake : grown.take off = l.take off ++ replicate (off - l.length) pad := by
      rw [h, take_append, take_replicate]
      congr 2
      omega
    rw [hdrop, htake, drop_eq_nil_of_le (Nat.le_of_lt hshort)]
  · have hgap : off - l.length = 0 := by omega
    rw [h, hgap, replicate_zero, append_nil]

/-- Reading from the first part of a list. -/
theorem slice_take {l : List α} {a n m : ℕ} (h : a + n ≤ m) :
    ((l.take m).drop a).take n = (l.drop a).take n := by
  rw [drop_take, take_take]
  congr 1
  omega

section Inside

variable {pad l new off} (h : off + new.length ≤ l.length)

include h

theorem overwrite_inside : overwrite pad l new off = l.take off ++ (new ++ l.drop (off + new.length)) := by
  have hgap : off - l.length = 0 := by omega
  rw [overwrite, hgap, replicate_zero, append_nil, append_assoc]

/-- What has been written is found at the offset. -/
theorem slice_overwrite_self : ((overwrite pad l new off).drop off).take new.length = new := by
  have hlen : (l.take off).length = off := length_take_of_le (by omega)
  rw [overwrite_inside h, drop_left' hlen, take_left' rfl]

theorem getElem?_overwrite_of_mem {k : ℕ} (hk : off ≤ k) (hk' : k < off + new.length) :
    (overwrite pad l new off)[k]? = new[k - off]? := by
  have hlen : (l.take off).length = off := length_take_of_le (by omega)
  rw [overwrite_inside h, getElem?_append_right (by omega), hlen,
    getElem?_append_left (by omega)]

theorem getElem?_overwrite_of_not_mem {k : ℕ} (hk : k < off ∨ off + new.length ≤ k) :
    (overwrite pad l new off)[k]? = l[k]? := by
  have hlen : (l.take off).length = off := length_take_of_le (by omega)
  rw [overwrite_inside h]
  rcases hk with hk | hk
  · rw [getElem?_append_left (by omega), getElem?_take_of_lt hk]
  · rw [getElem?_append_right (by omega), getElem?_append_right (by omega),
      getElem?_drop]
    congr 1
    omega

end Inside

end Maios
