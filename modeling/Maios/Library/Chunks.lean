import Mathlib.Data.List.Basic
import Mathlib.Tactic.Common

/-!
# Lists cut into pieces of one length

`chunks w n l` are the first `n` pieces of length `w` of `l`. A list whose length is `w * n` is the
concatenation of its pieces, and a change of one element, or of one piece, of the list is a change of
one piece.

## Main definitions

* `chunks`

## Main results

* `flatten_chunks`
* `chunks_set`, `chunks_splice`
-/

namespace Maios

open List

section Chunks

variable {α : Type*} {w n i : ℕ} {l c : List α}

/-- The first `n` pieces of length `w`. -/
def chunks (w : ℕ) : ℕ → List α → List (List α)
  | 0, _ => []
  | n + 1, l => l.take w :: chunks w n (l.drop w)

@[simp] theorem length_chunks (w n : ℕ) (l : List α) : (chunks w n l).length = n := by
  induction n generalizing l with
  | zero => rfl
  | succ n ih => rw [chunks, length_cons, ih]

private theorem length_drop_chunk (h : l.length = w * (n + 1)) : (l.drop w).length = w * n := by
  rw [length_drop, h, Nat.mul_succ, Nat.add_sub_cancel]

private theorem length_take_chunk (h : l.length = w * (n + 1)) : (l.take w).length = w := by
  rw [length_take, h]
  exact Nat.min_eq_left (Nat.le_add_left _ _)

theorem length_of_mem_chunks (h : l.length = w * n) (hc : c ∈ chunks w n l) : c.length = w := by
  induction n generalizing l with
  | zero => cases hc
  | succ n ih =>
    rcases mem_cons.mp hc with rfl | hc
    · exact length_take_chunk h
    · exact ih (length_drop_chunk h) hc

theorem getElem?_chunks (hi : i < n) : (chunks w n l)[i]? = some ((l.drop (w * i)).take w) := by
  induction n generalizing l i with
  | zero => cases hi
  | succ n ih =>
    cases i with
    | zero => rfl
    | succ i =>
      rw [chunks, getElem?_cons_succ, ih (Nat.lt_of_succ_lt_succ hi), drop_drop,
        Nat.mul_succ, Nat.add_comm]

/-- The pieces in order are the list. -/
theorem flatten_chunks (h : l.length = w * n) : (chunks w n l).flatten = l := by
  induction n generalizing l with
  | zero => exact (length_eq_zero_iff.mp (by rw [h, Nat.mul_zero])).symm
  | succ n ih =>
    rw [chunks, flatten_cons, ih (length_drop_chunk h), take_append_drop]

/-- The first piece, with the rest as a list to be cut. -/
theorem chunks_append (hc : c.length = w) : chunks w (n + 1) (c ++ l) = c :: chunks w n l := by
  rw [chunks, take_left' hc, drop_left' hc]

theorem chunks_replicate (w n : ℕ) (a : α) :
    chunks w n (replicate (w * n) a) = replicate n (replicate w a) := by
  induction n with
  | zero => rfl
  | succ n ih =>
    have hlen : w ≤ w * (n + 1) := Nat.le_mul_of_pos_right w (Nat.succ_pos n)
    rw [chunks, take_replicate, drop_replicate, Nat.min_eq_left hlen, Nat.mul_succ,
      Nat.add_sub_cancel, ih, replicate_succ]

/-- A change of one element changes it in its piece. -/
theorem chunks_set (h : l.length = w * n) {j : ℕ} (hj : j < w) (hi : i < n) (a : α) :
    chunks w n (l.set (w * i + j) a) = (chunks w n l).modify i (·.set j a) := by
  induction n generalizing l i with
  | zero => cases hi
  | succ n ih =>
    cases i with
    | zero =>
      rw [Nat.mul_zero, Nat.zero_add, chunks, chunks, modify_zero_cons, take_set, drop_set_of_lt hj]
    | succ i =>
      have hpos : w * (i + 1) + j = w * i + j + w := by rw [Nat.mul_succ]; omega
      have hdrop : w ≤ w * (i + 1) + j := by omega
      rw [chunks, chunks, modify_succ_cons, take_set_of_le hdrop, drop_set,
        if_neg (Nat.not_lt.mpr hdrop), hpos, Nat.add_sub_cancel,
        ih (length_drop_chunk h) (Nat.lt_of_succ_lt_succ hi)]

/-- A piece written over the list replaces the piece there. -/
theorem chunks_splice (h : l.length = w * n) (hi : i < n) (hc : c.length = w) :
    chunks w n (l.take (w * i) ++ c ++ l.drop (w * i + w)) = (chunks w n l).modify i fun _ => c := by
  induction n generalizing l i with
  | zero => cases hi
  | succ n ih =>
    cases i with
    | zero =>
      rw [Nat.mul_zero, Nat.zero_add, take_zero, nil_append, chunks_append hc, chunks,
        modify_zero_cons]
    | succ i => ?_
    have hfront : l.take (w * (i + 1)) = l.take w ++ (l.drop w).take (w * i) := by
      rw [Nat.mul_succ, Nat.add_comm, take_add]
    have hback : l.drop (w * (i + 1) + w) = (l.drop w).drop (w * i + w) := by
      rw [drop_drop, Nat.mul_succ]
      congr 1
      omega
    rw [hfront, hback, append_assoc, append_assoc,
      chunks_append (length_take_chunk h), ← append_assoc,
      ih (length_drop_chunk h) (Nat.lt_of_succ_lt_succ hi), chunks, modify_succ_cons]

end Chunks

end Maios
