import Mathlib.Data.Finset.Basic
import Mathlib.Data.List.Basic
import Mathlib.Data.List.Perm.Basic
import Mathlib.Data.List.Pairwise
import Mathlib.Tactic.Common

/-!
# Counting owners

A collection of things that each own some points of an index type, and the number of owners a
point has. Two statements about ownership are phrased with that number:

* *exclusive*: no point has more than one owner, which is pairwise disjointness of the owners
  (`pairwise_disjoint_iff_cover_le_one`);
* *conserved*: a change of the collection leaves the number of owners of every point as it was.

Counting is preferred to pairwise disjointness because it is additive over `++`, blind to the
order of the list, and because removing, inserting, splitting or joining owners each becomes an
equation between numbers.

## Main definitions

* `cover` — the number of members of a list that contain a point

## Main results

* `pairwise_disjoint_iff_cover_le_one`
* `cover_append`, `cover_perm`, `cover_eraseIdx_add`, `cover_set_add`
* `Exchanged.cover_add` — members of a collection are exchanged for others
* `cover_union_le`, `cover_sdiff_add`, `cover_erase_add` — a finite set as an owner
-/

namespace Maios

open List

section Cover

variable {ι α : Type*} [Membership ι α] [∀ (i : ι) (a : α), Decidable (i ∈ a)]

/-- The number of members of `l` that contain the point `i`. -/
def cover (l : List α) (i : ι) : ℕ := l.countP fun a => decide (i ∈ a)

@[simp] theorem cover_nil (i : ι) : cover ([] : List α) i = 0 := rfl

theorem cover_cons (a : α) (l : List α) (i : ι) :
    cover (a :: l) i = cover l i + if i ∈ a then 1 else 0 := by
  simp [cover, countP_cons]

@[simp] theorem cover_append (l m : List α) (i : ι) : cover (l ++ m) i = cover l i + cover m i := by
  simp [cover]

theorem cover_singleton (a : α) (i : ι) : cover [a] i = if i ∈ a then 1 else 0 := by
  simp [cover_cons]

theorem cover_singleton_le_one (a : α) (i : ι) : cover [a] i ≤ 1 := by
  rw [cover_singleton]
  split_ifs <;> omega

theorem cover_cons_eq_add (a : α) (l : List α) (i : ι) : cover (a :: l) i = cover [a] i + cover l i :=
  cover_append [a] l i

variable {a : α} {k : ℕ} {l : List α} {β : Type*}

theorem cover_perm {m : List α} (h : l.Perm m) (i : ι) : cover l i = cover m i :=
  h.countP_eq _

theorem cover_pos_iff {i : ι} : 0 < cover l i ↔ ∃ a ∈ l, i ∈ a := by
  simp [cover]

theorem cover_cons_pos_iff {i : ι} : 0 < cover (a :: l) i ↔ i ∈ a ∨ 0 < cover l i := by
  simp [cover_pos_iff]

theorem mem_of_cover_pos {i : ι} (h : 0 < cover [a] i) : i ∈ a := by
  obtain ⟨b, hb, hi⟩ := cover_pos_iff.mp h
  rwa [← mem_singleton.mp hb]

theorem cover_eq_zero_iff {i : ι} : cover l i = 0 ↔ ∀ a ∈ l, i ∉ a := by
  simp [cover]

theorem cover_le_of_mem (h : a ∈ l) (i : ι) : cover [a] i ≤ cover l i :=
  (singleton_sublist.mpr h).countP_le

theorem perm_cons_eraseIdx {l : List β} {b : β} (h : l[k]? = some b) :
    (b :: l.eraseIdx k).Perm l := by
  obtain ⟨hk, rfl⟩ := List.getElem?_eq_some_iff.mp h
  exact getElem_cons_eraseIdx_perm hk

/-- Taking out one member takes out exactly its own points. -/
theorem cover_eraseIdx_add (h : l[k]? = some a) (i : ι) :
    cover (l.eraseIdx k) i + cover [a] i = cover l i := by
  rw [cover_singleton, ← cover_cons, cover_perm (perm_cons_eraseIdx h) i]

/-- The same for the points that a member stands for through a function. -/
theorem cover_flatMap_eraseIdx_add {l : List β} {b : β} (f : β → List α) (h : l[k]? = some b)
    (i : ι) : cover ((l.eraseIdx k).flatMap f) i + cover (f b) i = cover (l.flatMap f) i := by
  rw [← cover_perm ((perm_cons_eraseIdx h).flatMap_right f) i, flatMap_cons, cover_append,
    Nat.add_comm]

/-- Overwriting one member exchanges its points for those of the new one. -/
theorem cover_set_add (h : l[k]? = some a) (b : α) (i : ι) :
    cover (l.set k b) i + cover [a] i = cover l i + cover [b] i := by
  obtain ⟨hk, -⟩ := List.getElem?_eq_some_iff.mp h
  have herase := cover_eraseIdx_add h i
  rw [cover_perm (set_perm_cons_eraseIdx hk b) i, cover_cons_eq_add]
  omega

/-! ### Exchanging members -/

/-- `l'` has `Y` in the place of the members `X` of `l`. -/
def Exchanged (l l' X Y : List α) : Prop := ∃ rest, l.Perm (X ++ rest) ∧ l'.Perm (Y ++ rest)

namespace Exchanged

variable {l l' l'' X Y X' Y' : List α}

theorem refl (l : List α) : Exchanged l l [] [] := ⟨l, Perm.refl _, Perm.refl _⟩

theorem eraseIdx (h : l[k]? = some a) : Exchanged l (l.eraseIdx k) [a] [] :=
  ⟨l.eraseIdx k, (perm_cons_eraseIdx h).symm, Perm.refl _⟩

theorem set (h : l[k]? = some a) (b : α) : Exchanged l (l.set k b) [a] [b] := by
  obtain ⟨hk, -⟩ := List.getElem?_eq_some_iff.mp h
  exact ⟨l.eraseIdx k, (perm_cons_eraseIdx h).symm, set_perm_cons_eraseIdx hk b⟩

theorem of_perm_cons (h : l'.Perm (a :: l)) : Exchanged l l' [] [a] :=
  ⟨l, Perm.refl _, h⟩

/-- Members that stand in a row behind position `k` are taken out. -/
theorem of_drop {rest : List α} (h : l.drop k = X ++ rest) :
    Exchanged l (l.take k ++ rest) X [] := by
  refine ⟨l.take k ++ rest, ?_, Perm.refl _⟩
  have hl : l = l.take k ++ (X ++ rest) := by rw [← h, take_append_drop]
  nth_rewrite 1 [hl]
  rw [← append_assoc, ← append_assoc]
  exact perm_append_comm.append_right rest

/-- A removal, and then an exchange. -/
theorem trans_nil (h : Exchanged l l' X []) (h' : Exchanged l' l'' X' Y') :
    Exchanged l l'' (X' ++ X) Y' := by
  obtain ⟨rest, hl, hl'⟩ := h
  obtain ⟨rest', hm, hm'⟩ := h'
  refine ⟨rest', ?_, hm'⟩
  have hrest : rest.Perm (X' ++ rest') := hl'.symm.trans hm
  have hswap : (X ++ (X' ++ rest')).Perm (X' ++ X ++ rest') := by
    rw [← append_assoc]
    exact perm_append_comm.append_right rest'
  exact (hl.trans (hrest.append_left X)).trans hswap

variable (h : Exchanged l l' X Y)

include h

/-- The first of the exchanged parts were members. -/
theorem mem_left (ha : a ∈ X) : a ∈ l := by
  obtain ⟨rest, hl, -⟩ := h
  exact hl.mem_iff.mpr (mem_append_left _ ha)

/-- What is a member afterwards was one before, or came in. -/
theorem mem_or (ha : a ∈ l') : a ∈ l ∨ a ∈ Y := by
  obtain ⟨rest, hl, hl'⟩ := h
  rcases mem_append.mp (hl'.mem_iff.mp ha) with ha | ha
  · exact .inr ha
  · exact .inl (hl.mem_iff.mpr (mem_append_right _ ha))

theorem forall_mem {p : α → Prop} (hl : ∀ a ∈ l, p a) (hY : ∀ a ∈ Y, p a) : ∀ a ∈ l', p a :=
  fun a ha => (h.mem_or ha).elim (hl a) (hY a)

/-- **Accounting for an exchange.** -/
theorem cover_add (i : ι) : cover l' i + cover X i = cover l i + cover Y i := by
  obtain ⟨rest, hl, hl'⟩ := h
  rw [cover_perm hl i, cover_perm hl' i, cover_append, cover_append]
  omega

end Exchanged

/-- **Exclusive ownership.** The members of a list are pairwise disjoint exactly when no point
has two owners. -/
theorem pairwise_disjoint_iff_cover_le_one :
    (l.Pairwise fun a b => ∀ i : ι, i ∈ a → i ∉ b) ↔ ∀ i : ι, cover l i ≤ 1 := by
  induction l with
  | nil => simp
  | cons a l ih =>
    rw [pairwise_cons, ih]
    constructor
    · rintro ⟨hhead, htail⟩ i
      rw [cover_cons]
      split_ifs with hi
      · have hzero : cover l i = 0 := cover_eq_zero_iff.mpr fun b hb => hhead b hb i hi
        omega
      · exact htail i
    · intro h
      refine ⟨fun b hb i hi hib => ?_, fun i => ?_⟩
      · have hpos : 0 < cover l i := cover_pos_iff.mpr ⟨b, hb, hib⟩
        have hle := h i
        rw [cover_cons, if_pos hi] at hle
        omega
      · have hle := h i
        rw [cover_cons] at hle
        exact le_trans (Nat.le_add_right _ _) hle

end Cover

/-! ### Finite sets as owners -/

section Finset

variable {ι : Type*} [DecidableEq ι]

variable {A B : Finset ι}

theorem cover_le_of_subset (h : A ⊆ B) (i : ι) : cover [A] i ≤ cover [B] i := by
  rw [cover_singleton, cover_singleton]
  by_cases hi : i ∈ A
  · rw [if_pos hi, if_pos (h hi)]
  · rw [if_neg hi]
    exact Nat.zero_le _

theorem cover_union_le (A B : Finset ι) (i : ι) : cover [A ∪ B] i ≤ cover [A] i + cover [B] i := by
  simp only [cover_singleton, Finset.mem_union]
  split_ifs <;> first | omega | (exfalso; tauto)

theorem cover_sdiff_add (h : B ⊆ A) (i : ι) : cover [A \ B] i + cover [B] i = cover [A] i := by
  simp only [cover_singleton]
  by_cases hB : i ∈ B
  · simp [hB, h hB]
  · simp [hB]

theorem cover_erase_add {a : ι} (h : a ∈ A) (i : ι) :
    cover [A.erase a] i + [a].count i = cover [A] i := by
  simp only [cover_singleton]
  by_cases hi : i = a
  · simp [hi, h]
  · simp [hi, Ne.symm hi]

end Finset

end Maios
