import Maios.Library.OrdMap

/-!
# How often something is stored

A *place* is a list of identities; a structure built of places stores an identity as often as it
occurs in them together. The lemmas say how that number changes when one part of the structure is
replaced, for one identity at a time, so nothing has to be known about the others.

In an ordered map whose keys carry the identity of their value (`OrdMap.Keyed`) inserting one
identity never displaces another.

## Main definitions

* `OrdMap.ids` — the identities of the values of a map
* `OrdMap.Keyed` — keys carry the identity of their value

## Main results

* `count_flatMap_set` — replacing one part of a structure
* `OrdMap.count_remove_add`, `OrdMap.Keyed.count_insert_of_ne`, `OrdMap.Keyed.count_insert_self`
-/

namespace Maios

open List

section Parts

variable {α ι : Type}

/-- `l'` is `l` without one occurrence of `i`, if `taken`, and else has the same elements. -/
def TakenOut (l l' : List ι) (i : ι) (taken : Bool) : Prop :=
  l.Perm ((if taken then [i] else []) ++ l')

section TakenOut

variable {l l' : List ι} {i : ι} {taken : Bool} (h : TakenOut l l' i taken) (r : List ι)
include h

theorem TakenOut.length_add : l'.length + (if taken then 1 else 0) = l.length := by
  rw [h.length_eq, length_append, Nat.add_comm]
  cases taken <;> rfl

theorem TakenOut.append_left : TakenOut (r ++ l) (r ++ l') i taken := by
  refine (Perm.append_left r h).trans ?_
  rw [← append_assoc, ← append_assoc]
  exact perm_append_comm.append_right l'

theorem TakenOut.append_right : TakenOut (l ++ r) (l' ++ r) i taken := by
  refine (Perm.append_right r h).trans ?_
  rw [append_assoc]

variable [DecidableEq ι]

theorem TakenOut.count_add : l'.count i + (if taken then 1 else 0) = l.count i := by
  rw [h.count_eq i, count_append, Nat.add_comm]
  cases taken <;> simp

theorem TakenOut.count_of_ne {j : ι} (hne : j ≠ i) : l'.count j = l.count j := by
  rw [h.count_eq j]
  cases taken <;> simp [Ne.symm hne]

end TakenOut

theorem count_flatMap_set [DecidableEq ι] (f : α → List ι) {l : List α} {n : ℕ} {a : α}
    (h : l[n]? = some a) (b : α) (i : ι) :
    ((l.set n b).flatMap f).count i + (f a).count i = (l.flatMap f).count i + (f b).count i := by
  induction l generalizing n with
  | nil => cases h
  | cons x l ih =>
    cases n with
    | zero =>
      obtain rfl : x = a := Option.some.inj h
      rw [set_cons_zero, flatMap_cons, flatMap_cons, count_append, count_append]
      omega
    | succ n =>
      have hrest := ih (n := n) h
      rw [set_cons_succ, flatMap_cons, flatMap_cons, count_append, count_append]
      omega

end Parts

namespace OrdMap

variable {κ α ι : Type} [LinearOrder κ] {keyId : κ → ι} {valId : α → ι} {m : OrdMap κ α} {k : κ}
  {a : α}

/-- The identities of the values, in key order. -/
def ids (valId : α → ι) (m : OrdMap κ α) : List ι := m.entries.map fun e => valId e.2

/-- The keys of the map carry the identity of their value. -/
def Keyed (keyId : κ → ι) (valId : α → ι) (m : OrdMap κ α) : Prop :=
  ∀ e ∈ m.entries, keyId e.1 = valId e.2

theorem Keyed.empty : Keyed keyId valId (.empty : OrdMap κ α) := by
  intro e he
  cases he

section Keyed

variable (h : m.Keyed keyId valId)
include h

theorem Keyed.insert (hk : keyId k = valId a) : (m.insert k a).Keyed keyId valId := by
  intro e he
  rcases mem_insert he with rfl | he
  · exact hk
  · exact h e he

theorem Keyed.remove (k : κ) : (m.remove k).Keyed keyId valId := fun e he =>
  h e (mem_remove.mp he).1

/-- The key of an identity that is not in the map is not in it either. -/
theorem Keyed.ne_of_not_mem (hnot : keyId k ∉ m.ids valId) : ∀ e ∈ m.entries, e.1 ≠ k := by
  rintro e he rfl
  rw [h e he] at hnot
  exact hnot (mem_map_of_mem he)

/-- Removing a key takes out the identity that it carries. -/
theorem Keyed.takenOut_remove (k : κ) :
    TakenOut (m.ids valId) ((m.remove k).ids valId) (keyId k) (m.find? k).isSome := by
  cases hfind : m.find? k with
  | none =>
    rw [ids, ids, remove_eq_self (find?_eq_none.mp hfind)]
    exact Perm.refl _
  | some a =>
    have hmem := find?_eq_some.mp hfind
    rw [h _ hmem]
    exact (perm_cons_remove hmem).map fun e : κ × α => valId e.2

end Keyed

variable [DecidableEq ι]

/-- Removing an entry takes out one occurrence of its identity. -/
theorem count_remove_add (valId : α → ι) (h : (k, a) ∈ m.entries) (i : ι) :
    ((m.remove k).ids valId).count i + [valId a].count i = (m.ids valId).count i := by
  have hperm : (m.ids valId).Perm ([valId a] ++ (m.remove k).ids valId) :=
    (perm_cons_remove h).map fun e : κ × α => valId e.2
  rw [hperm.count_eq i, count_append, Nat.add_comm]

/-- Inserting an entry adds one occurrence of its identity to what removing its key leaves. -/
theorem count_insert (valId : α → ι) (m : OrdMap κ α) (k : κ) (a : α) (i : ι) :
    ((m.insert k a).ids valId).count i =
      ((m.remove k).ids valId).count i + [valId a].count i := by
  have hperm : ((m.insert k a).ids valId).Perm ([valId a] ++ (m.remove k).ids valId) :=
    (insert_perm m k a).map fun e : κ × α => valId e.2
  rw [hperm.count_eq i, count_append, Nat.add_comm]

/-- Changing the value of a key, but not its identity, changes no occurrence. -/
theorem count_insert_same (valId : α → ι) (h : (k, a) ∈ m.entries) (b : α)
    (hid : valId b = valId a) (i : ι) :
    ((m.insert k b).ids valId).count i = (m.ids valId).count i := by
  rw [count_insert, hid, count_remove_add valId h]

section Insert

variable (h : m.Keyed keyId valId) {i : ι} (hk : keyId k = i) (ha : valId a = i)
include h hk ha

/-- Inserting an identity leaves the others alone. -/
theorem Keyed.count_insert_of_ne {j : ι} (hne : j ≠ i) :
    ((m.insert k a).ids valId).count j = (m.ids valId).count j := by
  have hother : [valId a].count j = 0 := count_eq_zero.mpr (by simpa [ha] using hne)
  rw [count_insert, (h.takenOut_remove k).count_of_ne (hk ▸ hne), hother, Nat.add_zero]

/-- An identity that is not in the map is in it once after inserting it. -/
theorem Keyed.count_insert_self (hnone : (m.ids valId).count i = 0) :
    ((m.insert k a).ids valId).count i = 1 := by
  have habsent := h.ne_of_not_mem (k := k) (hk ▸ count_eq_zero.mp hnone)
  have hsame : (m.remove k).ids valId = m.ids valId := by
    rw [ids, ids, remove_eq_self habsent]
  rw [count_insert, hsame, hnone, ha, count_singleton_self]

end Insert

end OrdMap

end Maios
