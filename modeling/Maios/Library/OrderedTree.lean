import Mathlib.Data.List.Basic
import Mathlib.Data.List.Perm.Basic
import Mathlib.Data.List.Pairwise
import Mathlib.Tactic.Common

/-!
# Ordered trees with cursors

An ordered collection that is searched by key and edited through a cursor, as its users see it:
by the list of its elements in iteration order. A cursor is a position in that list; the position
one past the last element is the null cursor. `move_next` and `move_prev` are `+ 1` and `- 1` on
positions, except that `move_prev` of the first element is null.

The searches and `insert` are specified only while the elements are in key order. The edits
through a cursor (`removeAt`, `insertBefore`, `replaceWith`) are specified always and check
nothing: it is the user's business to keep the order.

## Main definitions

* `OrderedTree` — the operations together with their laws
* `OrderedTree.ofList` — an implementation, by sorted lists

## Main results

* `OrderedTree.Sorted.removeAt`, `OrderedTree.KeySorted.set` — when a cursor edit keeps the order
* `OrderedTree.elems_insertBefore_removeAt` — removing and reinserting at a cursor overwrites
-/

namespace Maios

open List

/-- Key order of a list: the keys never decrease. -/
def KeySorted {α : Type*} (key : α → ℕ) (l : List α) : Prop :=
  l.Pairwise fun a b => key a ≤ key b

/-- An ordered collection of `α` with keys `key`, with cursors as positions. -/
structure OrderedTree (α : Type) (key : α → ℕ) where
  /-- The type of the collection. -/
  Tree : Type
  /-- The elements in iteration order. -/
  elems : Tree → List α
  empty : Tree
  /-- Insert at the place the key determines. -/
  insert : Tree → α → Tree
  /-- The position of the first element whose key is at least `k`, or the null position. -/
  lowerBound : Tree → ℕ → ℕ
  /-- The position of the last element whose key is at most `k`, if there is one. -/
  upperBound : Tree → ℕ → Option ℕ
  /-- The position of an element with the key `k`, or the null position. -/
  find : Tree → ℕ → ℕ
  /-- Remove the element under the cursor. -/
  removeAt : Tree → ℕ → Tree
  /-- Insert before the cursor, at the end when the cursor is null. -/
  insertBefore : Tree → ℕ → α → Tree
  /-- Replace the element under the cursor. -/
  replaceWith : Tree → ℕ → α → Tree
  elems_empty : elems empty = []
  insert_perm : ∀ t a, KeySorted key (elems t) → (elems (insert t a)).Perm (a :: elems t)
  insert_sorted : ∀ t a, KeySorted key (elems t) → KeySorted key (elems (insert t a))
  lowerBound_le : ∀ t k, KeySorted key (elems t) → lowerBound t k ≤ (elems t).length
  lowerBound_lt : ∀ t k i a, KeySorted key (elems t) → (elems t)[i]? = some a →
    (i < lowerBound t k ↔ key a < k)
  upperBound_eq_some : ∀ t k i, KeySorted key (elems t) → upperBound t k = some i →
    ∃ a, (elems t)[i]? = some a ∧ key a ≤ k ∧ ∀ j b, i < j → (elems t)[j]? = some b → k < key b
  upperBound_eq_none : ∀ t k, KeySorted key (elems t) → upperBound t k = none →
    ∀ a ∈ elems t, k < key a
  find_eq_some : ∀ t k a, KeySorted key (elems t) → (elems t)[find t k]? = some a → key a = k
  find_eq_none : ∀ t k, KeySorted key (elems t) → (elems t)[find t k]? = none →
    ∀ a ∈ elems t, key a ≠ k
  elems_removeAt : ∀ t i, elems (removeAt t i) = (elems t).eraseIdx i
  elems_insertBefore : ∀ t i a, i ≤ (elems t).length →
    elems (insertBefore t i a) = (elems t).insertIdx i a
  elems_replaceWith : ∀ t i a, elems (replaceWith t i a) = (elems t).set i a

namespace OrderedTree

variable {α : Type} {key : α → ℕ} (R : OrderedTree α key) {t : R.Tree}

/-- The element under a cursor, nothing when the cursor is null. -/
def get (t : R.Tree) (i : ℕ) : Option α := (R.elems t)[i]?

/-- The elements of a tree are in key order. -/
def Sorted (t : R.Tree) : Prop := KeySorted key (R.elems t)

variable {R}

theorem Sorted.removeAt (h : R.Sorted t) (i : ℕ) : R.Sorted (R.removeAt t i) := by
  rw [Sorted, R.elems_removeAt]
  exact Pairwise.sublist (eraseIdx_sublist _ _) h

variable {l : List α} {i : ℕ}

/-- Elements at increasing positions have increasing keys. -/
theorem Sorted.key_le (h : R.Sorted t) {j : ℕ} {a b : α} (hij : i < j) (ha : R.get t i = some a)
    (hb : R.get t j = some b) : key a ≤ key b := by
  obtain ⟨hi, rfl⟩ := List.getElem?_eq_some_iff.mp ha
  obtain ⟨hj, rfl⟩ := List.getElem?_eq_some_iff.mp hb
  exact pairwise_iff_getElem.mp h i j hi hj hij

/-- A list is in key order when its keys increase with the position. -/
theorem keySorted_of_getElem?
    (h : ∀ (i j : ℕ) (a b : α), i < j → l[i]? = some a → l[j]? = some b → key a ≤ key b) :
    KeySorted key l := by
  refine pairwise_iff_getElem.mpr fun i j hi hj hij => ?_
  exact h i j _ _ hij (getElem?_eq_getElem hi) (getElem?_eq_getElem hj)

/-- Overwriting an element keeps the order when the new key fits between the neighbours. -/
theorem KeySorted.set (h : KeySorted key l) {a : α}
    (hlow : ∀ (j : ℕ) b, j < i → l[j]? = some b → key b ≤ key a)
    (hhigh : ∀ (j : ℕ) b, i < j → l[j]? = some b → key a ≤ key b) : KeySorted key (l.set i a) := by
  refine keySorted_of_getElem? fun m n x y hmn hx hy => ?_
  rw [getElem?_set] at hx hy
  split_ifs at hx hy with him hlen hin hlen' hin
  · omega
  · cases hx
    exact hhigh n y (by omega) hy
  · cases hy
    exact hlow m x (by omega) hx
  · obtain ⟨hm, rfl⟩ := List.getElem?_eq_some_iff.mp hx
    obtain ⟨hn, rfl⟩ := List.getElem?_eq_some_iff.mp hy
    exact pairwise_iff_getElem.mp h m n hm hn hmn

/-- Removing the element under a cursor and inserting another before the cursor, which has moved
on, overwrites the element. -/
theorem elems_insertBefore_removeAt {a b : α} (h : R.get t i = some b) :
    R.elems (R.insertBefore (R.removeAt t i) i a) = (R.elems t).set i a := by
  obtain ⟨hi, -⟩ := List.getElem?_eq_some_iff.mp h
  have hlen : i ≤ (R.elems (R.removeAt t i)).length := by
    rw [R.elems_removeAt, length_eraseIdx_of_lt hi]
    omega
  rw [R.elems_insertBefore _ _ _ hlen, R.elems_removeAt]
  exact insertIdx_eraseIdx_self (Nat.ne_of_lt hi) a

/-! ### Sorted lists as an implementation -/

/-- Insert before the first element with a larger key. -/
def insertKey (key : α → ℕ) (l : List α) (a : α) : List α :=
  match l with
  | [] => [a]
  | b :: l => if key a < key b then a :: b :: l else b :: insertKey key l a

theorem insertKey_perm (l : List α) (a : α) : (insertKey key l a).Perm (a :: l) := by
  induction l with
  | nil => exact Perm.refl _
  | cons b l ih =>
    rw [insertKey]
    split_ifs with h
    · exact Perm.refl _
    · exact (ih.cons b).trans (Perm.swap a b l)

theorem insertKey_sorted (h : KeySorted key l) (a : α) : KeySorted key (insertKey key l a) := by
  induction l with
  | nil => exact pairwise_singleton _ _
  | cons b l ih =>
    obtain ⟨hb, hl⟩ := pairwise_cons.mp h
    rw [insertKey]
    split_ifs with hab
    · refine pairwise_cons.mpr ⟨fun c hc => ?_, h⟩
      rcases mem_cons.mp hc with rfl | hc
      · exact Nat.le_of_lt hab
      · exact Nat.le_trans (Nat.le_of_lt hab) (hb c hc)
    · refine pairwise_cons.mpr ⟨fun c hc => ?_, ih hl⟩
      rcases mem_cons.mp ((insertKey_perm l a).mem_iff.mp hc) with rfl | hc
      · exact Nat.not_lt.mp hab
      · exact hb c hc

/-- In a list in key order the elements that satisfy a downward closed condition on keys are
exactly those before the first one that fails it. -/
theorem lt_findIdx_iff (h : KeySorted key l) {p : ℕ → Bool}
    (hp : ∀ m n, m ≤ n → p m = true → p n = true) {a : α} (ha : l[i]? = some a) :
    i < l.findIdx (fun b => p (key b)) ↔ p (key a) = false := by
  obtain ⟨hi, rfl⟩ := List.getElem?_eq_some_iff.mp ha
  constructor
  · intro hlt
    simpa using not_of_lt_findIdx hlt
  · intro hfalse
    by_contra hge
    have hlen : l.findIdx (fun b => p (key b)) < l.length := by omega
    have htrue := findIdx_getElem (w := hlen)
    have hle : key (l[l.findIdx fun b => p (key b)]) ≤ key l[i] := by
      rcases Nat.lt_or_ge (l.findIdx fun b => p (key b)) i with hlt | hle
      · exact pairwise_iff_getElem.mp h _ _ hlen hi hlt
      · have heq : l.findIdx (fun b => p (key b)) = i := by omega
        simp only [heq, Nat.le_refl]
    exact absurd (hp _ _ hle htrue) (by simp [hfalse])

/-- Sorted lists, as an ordered tree. -/
def ofList (α : Type) (key : α → ℕ) : OrderedTree α key where
  Tree := List α
  elems l := l
  empty := []
  insert := insertKey key
  lowerBound l k := l.findIdx fun a => decide (k ≤ key a)
  upperBound l k :=
    match l.findIdx fun a => decide (k < key a) with
    | 0 => none
    | n + 1 => some n
  find l k := l.findIdx fun a => key a == k
  removeAt := List.eraseIdx
  insertBefore l i a := l.insertIdx i a
  replaceWith := List.set
  elems_empty := rfl
  insert_perm t a _ := insertKey_perm t a
  insert_sorted _ a h := insertKey_sorted h a
  lowerBound_le _ _ _ := List.findIdx_le_length
  lowerBound_lt t k i a h ha := by
    rw [lt_findIdx_iff h (p := fun n => decide (k ≤ n)) (fun m n hmn hm => by
      simp only [decide_eq_true_eq] at hm ⊢; omega) ha]
    simp
  upperBound_eq_some t k i h hi := by
    have hfind : t.findIdx (fun a => decide (k < key a)) = i + 1 := by
      split at hi <;> simp_all
    have hlen : i < t.length := by
      have hle : t.findIdx (fun a => decide (k < key a)) ≤ t.length := List.findIdx_le_length
      omega
    have hiff := fun j b hb => lt_findIdx_iff h (p := fun n => decide (k < n))
      (fun m n hmn hm => by simp only [decide_eq_true_eq] at hm ⊢; omega)
      (i := j) (a := b) hb
    refine ⟨t[i], List.getElem?_eq_getElem hlen, ?_, fun j b hij hb => ?_⟩
    · have := (hiff i t[i] (List.getElem?_eq_getElem hlen)).mp (by omega)
      simpa using this
    · by_contra hle
      have := (hiff j b hb).mpr (by simpa using hle)
      omega
  upperBound_eq_none t k h hnone a ha := by
    have hfind : t.findIdx (fun a => decide (k < key a)) = 0 := by
      split at hnone <;> simp_all
    obtain ⟨i, hi⟩ := List.mem_iff_getElem?.mp ha
    by_contra hle
    have := (lt_findIdx_iff h (p := fun n => decide (k < n))
      (fun m n hmn hm => by simp only [decide_eq_true_eq] at hm ⊢; omega) hi).mpr
      (by simpa using hle)
    omega
  find_eq_some t k a _ ha := by
    obtain ⟨hlt, rfl⟩ := List.getElem?_eq_some_iff.mp ha
    exact beq_iff_eq.mp (findIdx_getElem (w := hlt))
  find_eq_none t k _ hnone a ha hkey := by
    have hlt := findIdx_lt_length_of_exists (p := fun a => key a == k) ⟨a, ha, beq_iff_eq.mpr hkey⟩
    rw [List.getElem?_eq_getElem hlt] at hnone
    cases hnone
  elems_removeAt _ _ := rfl
  elems_insertBefore _ _ _ _ := rfl
  elems_replaceWith _ _ _ := rfl

end OrderedTree

end Maios
