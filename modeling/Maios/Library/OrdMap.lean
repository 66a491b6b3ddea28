import Mathlib.Data.List.Basic
import Mathlib.Data.List.Pairwise
import Mathlib.Data.List.Perm.Basic
import Mathlib.Data.List.Perm.Subperm
import Mathlib.Order.Lattice
import Mathlib.Tactic.Common

/-!
# Ordered maps

A finite map with a linear order on its keys, as the list of its entries in ascending key order.
The order is a field of the structure, so every map has it. Keys are unique because the order is
strict.

The specifications are permutations: what inserting and removing do to the entries, up to their
order. They are what a proof about the *content* of a map needs; the order itself matters only for
`first?` and `last?`.

## Main definitions

* `OrdMap`, `OrdMap.insert`, `OrdMap.remove`, `OrdMap.find?`, `OrdMap.first?`, `OrdMap.last?`

## Main results

* `OrdMap.insert_perm`, `OrdMap.perm_cons_remove`, `OrdMap.find?_eq_some`
-/

namespace Maios

open List

/-- A finite map from `κ` to `α`, in ascending key order. -/
structure OrdMap (κ α : Type) [LinearOrder κ] where
  entries : List (κ × α)
  sorted : entries.Pairwise fun e e' => e.1 < e'.1

namespace OrdMap

variable {κ α : Type} [LinearOrder κ]

def empty : OrdMap κ α := ⟨[], List.Pairwise.nil⟩

/-- Insertion into an ascending list; an entry with the same key is replaced. -/
def insertEntry (k : κ) (a : α) : List (κ × α) → List (κ × α)
  | [] => [(k, a)]
  | e :: l =>
    if k < e.1 then (k, a) :: e :: l
    else if k = e.1 then (k, a) :: l
    else e :: insertEntry k a l

variable {a : α} {m : OrdMap κ α} {e e' : κ × α} {k k' : κ} {l : List (κ × α)}

theorem mem_insertEntry (h : e ∈ insertEntry k a l) : e = (k, a) ∨ e ∈ l := by
  induction l with
  | nil => exact .inl (mem_singleton.mp h)
  | cons x l ih =>
    rw [insertEntry] at h
    split_ifs at h
    · exact mem_cons.mp h
    · exact (mem_cons.mp h).imp id (mem_cons_of_mem _)
    · rcases mem_cons.mp h with rfl | h
      · exact .inr mem_cons_self
      · exact (ih h).imp id (mem_cons_of_mem _)

theorem insertEntry_sorted (h : l.Pairwise fun e e' => e.1 < e'.1) :
    (insertEntry k a l).Pairwise fun e e' => e.1 < e'.1 := by
  induction l with
  | nil => exact pairwise_singleton _ _
  | cons e l ih =>
    obtain ⟨hhead, htail⟩ := pairwise_cons.mp h
    rw [insertEntry]
    split_ifs with hlt heq
    · refine pairwise_cons.mpr ⟨fun e' he' => ?_, h⟩
      rcases mem_cons.mp he' with rfl | he'
      · exact hlt
      · exact hlt.trans (hhead e' he')
    · subst heq
      exact pairwise_cons.mpr ⟨hhead, htail⟩
    · refine pairwise_cons.mpr ⟨fun e' he' => ?_, ih htail⟩
      rcases mem_insertEntry he' with rfl | he'
      · exact lt_of_le_of_ne (not_lt.mp hlt) (Ne.symm heq)
      · exact hhead e' he'

/-- A search by keys passes over an entry whose key does not match. -/
theorem find?_insertEntry_of_not {p : κ → Bool} (hk : p k = false) :
    (insertEntry k a l).find? (fun e => p e.1) = l.find? fun e => p e.1 := by
  have hnot : ¬ p k = true := Bool.not_eq_true _ ▸ hk
  induction l with
  | nil => exact find?_cons_of_neg hnot
  | cons e l ih =>
    rw [insertEntry]
    split_ifs with hlt heq
    · exact find?_cons_of_neg hnot
    · rw [find?_cons_of_neg (p := fun e : κ × α => p e.1) hnot,
        find?_cons_of_neg (p := fun e : κ × α => p e.1) (heq ▸ hnot)]
    · rw [find?_cons, find?_cons, ih]

/-- A search by keys that comes to an entry comes to the one that takes its place. -/
theorem find?_insertEntry_of_find? {p : κ → Bool} (h : l.find? (fun e => p e.1) = some e) :
    (insertEntry e.1 a l).find? (fun e => p e.1) = some (e.1, a) := by
  have hp : p e.1 = true := find?_some (p := fun e : κ × α => p e.1) h
  induction l with
  | nil => cases h
  | cons x l ih =>
    rw [insertEntry]
    split_ifs with hlt heq
    · exact find?_cons_of_pos hp
    · exact find?_cons_of_pos hp
    · -- the first entry has another key, so it is not the one that was found
      have hx : ¬ p x.1 = true := by
        intro hx
        rw [find?_cons_of_pos (p := fun e : κ × α => p e.1) hx] at h
        exact heq (congrArg Prod.fst (Option.some.inj h)).symm
      rw [find?_cons_of_neg (p := fun e : κ × α => p e.1) hx] at h ⊢
      exact ih h

/-- Insert an entry, replacing the one with the same key if there is one. -/
def insert (m : OrdMap κ α) (k : κ) (a : α) : OrdMap κ α :=
  ⟨insertEntry k a m.entries, insertEntry_sorted m.sorted⟩

/-- Remove the entry with a key, if there is one. -/
def remove (m : OrdMap κ α) (k : κ) : OrdMap κ α :=
  ⟨m.entries.filter fun e => decide (e.1 ≠ k), m.sorted.sublist List.filter_sublist⟩

/-- The value of a key. -/
def find? (m : OrdMap κ α) (k : κ) : Option α :=
  (m.entries.find? fun e => decide (e.1 = k)).map Prod.snd

/-- The entry with the least key. -/
def first? (m : OrdMap κ α) : Option (κ × α) := m.entries.head?

/-- The entry with the greatest key. -/
def last? (m : OrdMap κ α) : Option (κ × α) := m.entries.getLast?

def values (m : OrdMap κ α) : List α := m.entries.map Prod.snd

@[simp] theorem entries_empty : (empty : OrdMap κ α).entries = [] := rfl

theorem mem_remove : e ∈ (m.remove k).entries ↔ e ∈ m.entries ∧ e.1 ≠ k := by
  simp [remove]

theorem mem_insert (h : e ∈ (m.insert k a).entries) : e = (k, a) ∨ e ∈ m.entries :=
  mem_insertEntry h

/-- Inserting puts the entry in the place of what its key had. -/
theorem insert_perm (m : OrdMap κ α) (k : κ) (a : α) :
    (m.insert k a).entries.Perm ((k, a) :: (m.remove k).entries) := by
  have hlist : ∀ l : List (κ × α), l.Pairwise (fun e e' => e.1 < e'.1) →
      (insertEntry k a l).Perm ((k, a) :: l.filter fun e => decide (e.1 ≠ k)) := by
    intro l hs
    induction l with
    | nil => exact Perm.refl _
    | cons e l ih =>
      obtain ⟨hhead, htail⟩ := pairwise_cons.mp hs
      have hrest : k ≤ e.1 → l.filter (fun e => decide (e.1 ≠ k)) = l := fun hle =>
        filter_eq_self.mpr fun e' he' =>
          decide_eq_true (ne_of_gt (lt_of_le_of_lt hle (hhead e' he')))
      rw [insertEntry]
      split_ifs with hlt heq
      · rw [filter_cons_of_pos (by simpa using ne_of_gt hlt), hrest (le_of_lt hlt)]
      · rw [filter_cons_of_neg (by simpa using heq.symm), hrest (le_of_eq heq)]
      · rw [filter_cons_of_pos (by simpa using Ne.symm heq)]
        exact ((ih htail).cons e).trans (Perm.swap _ _ _)
  exact hlist m.entries m.sorted

/-- Removing a key takes out exactly its entry. -/
theorem perm_cons_remove (h : (k, a) ∈ m.entries) :
    m.entries.Perm ((k, a) :: (m.remove k).entries) := by
  have hlist : ∀ l : List (κ × α), l.Pairwise (fun e e' => e.1 < e'.1) → (k, a) ∈ l →
      l.Perm ((k, a) :: l.filter fun e => decide (e.1 ≠ k)) := by
    intro l hs hmem
    induction l with
    | nil => cases hmem
    | cons e l ih =>
      obtain ⟨hhead, htail⟩ := pairwise_cons.mp hs
      rcases mem_cons.mp hmem with rfl | hmem
      · have hrest : l.filter (fun e => decide (e.1 ≠ k)) = l :=
          filter_eq_self.mpr fun e he => decide_eq_true (ne_of_gt (hhead e he))
        rw [filter_cons_of_neg (by simp), hrest]
      · have hne : e.1 ≠ k := ne_of_lt (hhead (k, a) hmem)
        rw [filter_cons_of_pos (by simpa using hne)]
        exact ((ih htail hmem).cons e).trans (Perm.swap _ _ _)
  exact hlist m.entries m.sorted h

/-- The entries of a map are known by their keys. -/
theorem entry_unique {a' : α} (h : (k, a) ∈ m.entries) (h' : (k, a') ∈ m.entries) : a' = a := by
  rcases mem_cons.mp ((perm_cons_remove h).mem_iff.mp h') with heq | hmem
  · exact (Prod.mk.inj heq).2
  · exact absurd rfl (mem_remove.mp hmem).2

theorem entry_ext (h : e ∈ m.entries) (h' : e' ∈ m.entries) (hkey : e.1 = e'.1) : e = e' := by
  obtain ⟨k, a⟩ := e
  obtain ⟨k', a'⟩ := e'
  obtain rfl : k = k' := hkey
  rw [entry_unique h h']

/-- Removing a key that is not there changes nothing. -/
theorem remove_eq_self (h : ∀ e ∈ m.entries, e.1 ≠ k) : (m.remove k).entries = m.entries :=
  filter_eq_self.mpr fun e he => decide_eq_true (h e he)

theorem find?_eq_some : m.find? k = some a ↔ (k, a) ∈ m.entries := by
  rw [find?, Option.map_eq_some_iff]
  constructor
  · rintro ⟨⟨k', a'⟩, hfind, rfl⟩
    have hkey := find?_some hfind
    rw [decide_eq_true_iff] at hkey
    subst hkey
    exact mem_of_find?_eq_some hfind
  · intro hmem
    cases hfind : m.entries.find? fun e => decide (e.1 = k) with
    | none => exact absurd hmem fun h => by simpa using find?_eq_none.mp hfind (k, a) h
    | some e =>
      have hkey := find?_some hfind
      rw [decide_eq_true_iff] at hkey
      subst hkey
      exact ⟨_, rfl, entry_unique hmem (mem_of_find?_eq_some hfind)⟩

theorem find?_eq_none : m.find? k = none ↔ ∀ e ∈ m.entries, e.1 ≠ k := by
  simp [find?]

/-! ### How many entries -/

/-- Removing a key takes out one entry if the key is there. -/
theorem length_remove (m : OrdMap κ α) (k : κ) :
    (m.remove k).entries.length + (if (m.find? k).isSome then 1 else 0) = m.entries.length := by
  cases hfind : m.find? k with
  | none => rw [remove_eq_self (find?_eq_none.mp hfind)]; rfl
  | some a => exact (perm_cons_remove (find?_eq_some.mp hfind)).length_eq.symm

/-- Inserting adds one entry unless it replaces one. -/
theorem length_insert (m : OrdMap κ α) (k : κ) (a : α) :
    (m.insert k a).entries.length =
      m.entries.length + (if (m.find? k).isNone then 1 else 0) := by
  have hlen : (m.insert k a).entries.length = (m.remove k).entries.length + 1 :=
    (insert_perm m k a).length_eq
  rw [hlen, ← length_remove m k]
  cases m.find? k <;> rfl

/-- A map with fewer keys has fewer entries. -/
theorem length_le_of_keys {m' : OrdMap κ α} (h : ∀ e ∈ m'.entries, ∃ e' ∈ m.entries, e'.1 = e.1) :
    m'.entries.length ≤ m.entries.length := by
  have hnodup : (m'.entries.map Prod.fst).Nodup :=
    pairwise_map.mpr (m'.sorted.imp ne_of_lt)
  have hsub : m'.entries.map Prod.fst ⊆ m.entries.map Prod.fst := by
    intro k hk
    obtain ⟨e, he, rfl⟩ := mem_map.mp hk
    exact mem_map.mpr (h e he)
  simpa using (hnodup.subperm hsub).length_le

/-! ### Looking up after a change -/

theorem find?_remove_self (m : OrdMap κ α) (k : κ) : (m.remove k).find? k = none :=
  find?_eq_none.mpr fun _ he => (mem_remove.mp he).2

theorem find?_remove_of_ne (m : OrdMap κ α) (h : k' ≠ k) : (m.remove k).find? k' = m.find? k' := by
  refine Option.ext fun a => ?_
  rw [find?_eq_some, find?_eq_some, mem_remove]
  exact and_iff_left h

/-- What is left after a removal. -/
theorem find?_of_remove (m : OrdMap κ α) (h : (m.remove k).find? k' = some a) :
    k' ≠ k ∧ m.find? k' = some a := by
  have hne : k' ≠ k := by
    rintro rfl
    rw [find?_remove_self] at h
    cases h
  rw [find?_remove_of_ne m hne] at h
  exact ⟨hne, h⟩

theorem mem_insert_iff : e ∈ (m.insert k a).entries ↔ e = (k, a) ∨ e ∈ m.entries ∧ e.1 ≠ k := by
  rw [(insert_perm m k a).mem_iff, mem_cons, mem_remove]

theorem find?_insert_self (m : OrdMap κ α) (k : κ) (a : α) : (m.insert k a).find? k = some a :=
  find?_eq_some.mpr (mem_insert_iff.mpr (.inl rfl))

theorem find?_insert_of_ne (m : OrdMap κ α) (a : α) (h : k' ≠ k) :
    (m.insert k a).find? k' = m.find? k' := by
  refine Option.ext fun b => ?_
  rw [find?_eq_some, find?_eq_some, mem_insert_iff]
  refine ⟨fun hmem => ?_, fun hmem => .inr ⟨hmem, h⟩⟩
  rcases hmem with heq | ⟨hmem, -⟩
  · exact absurd (Prod.mk.inj heq).1 h
  · exact hmem

theorem first?_mem (h : m.first? = some e) : e ∈ m.entries :=
  mem_of_head? h

theorem last?_mem (h : m.last? = some e) : e ∈ m.entries :=
  mem_of_getLast? h

theorem first?_eq_none : m.first? = none ↔ m.entries = [] :=
  head?_eq_none_iff

theorem first?_le (h : m.first? = some e) (he' : e' ∈ m.entries) : e.1 ≤ e'.1 := by
  obtain ⟨rest, hrest⟩ : ∃ rest, m.entries = e :: rest := ⟨_, (cons_head?_tail h).symm⟩
  have hsorted := m.sorted
  rw [hrest] at hsorted he'
  rcases mem_cons.mp he' with rfl | he'
  · exact le_rfl
  · exact (rel_of_pairwise_cons hsorted he').le

theorem le_last? (h : m.last? = some e) (he' : e' ∈ m.entries) : e'.1 ≤ e.1 := by
  obtain ⟨init, hentries⟩ := getLast?_eq_some_iff.mp h
  have hsorted := m.sorted
  rw [hentries] at hsorted he'
  rcases mem_append.mp he' with he' | he'
  · exact le_of_lt ((pairwise_append.mp hsorted).2.2 e' he' e (mem_singleton_self e))
  · exact le_of_eq (congrArg Prod.fst (mem_singleton.mp he'))

/-- The scan of the keys from the front finds every key of a downward closed set. -/
theorem mem_takeWhile_keys {p : κ → Bool} (hp : ∀ k k', k ≤ k' → p k' → p k) (he : e ∈ m.entries)
    (hpe : p e.1) : e.1 ∈ (m.entries.map Prod.fst).takeWhile p := by
  have hsorted := m.sorted
  revert hsorted he
  induction m.entries with
  | nil => simp
  | cons x l ih =>
    intro he hsorted
    have hle : x.1 ≤ e.1 := by
      rcases mem_cons.mp he with rfl | he
      · exact le_rfl
      · exact (rel_of_pairwise_cons hsorted he).le
    rw [map_cons, takeWhile_cons, if_pos (hp _ _ hle hpe)]
    rcases mem_cons.mp he with rfl | he
    · exact mem_cons_self
    · exact mem_cons_of_mem _ (ih he hsorted.of_cons)

end OrdMap

end Maios
