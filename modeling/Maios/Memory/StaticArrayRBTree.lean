import Mathlib.Data.List.ReduceOption
import Maios.Library.OrderedTree

/-!
# `StaticArrayRBTree`

The collection both allocators keep their chunks in: an array of 32 slots until the heap exists,
an ordered tree afterwards. The tree is `intrusive_collections::RBTree`, which is not part of the
repository, so it stays a parameter `R : OrderedTree α key` and only its documented behaviour is
used.

The array is unordered and can be full; the tree is ordered and cannot. What the two have in
common is `elems`, the list of stored values.
-/

namespace Maios

/-! ### The array of slots -/

/-- `[Option<T>; 32]`. -/
structure StaticArray (α : Type) where
  slots : List (Option α)
  length_slots : slots.length = 32

variable {α : Type} {key : α → ℕ} {a : α} {p : α → Bool}

/-- Put a value into the first slot that is free. -/
def insertSlot : List (Option α) → α → Option (List (Option α))
  | [], _ => none
  | none :: slots, a => some (some a :: slots)
  | some b :: slots, a => (insertSlot slots a).map (some b :: ·)

/-- Take the first value that satisfies `p` out of its slot. -/
def takeSlot (p : α → Bool) : List (Option α) → Option (α × List (Option α))
  | [] => none
  | none :: slots => (takeSlot p slots).map fun r => (r.1, none :: r.2)
  | some a :: slots =>
    if p a then some (a, none :: slots)
    else (takeSlot p slots).map fun r => (r.1, some a :: r.2)

theorem insertSlot_spec {slots slots' : List (Option α)} (h : insertSlot slots a = some slots') :
    slots'.length = slots.length ∧ slots'.reduceOption.Perm (a :: slots.reduceOption) := by
  induction slots generalizing slots' with
  | nil => simp [insertSlot] at h
  | cons slot slots ih =>
    cases slot with
    | none =>
      cases h
      exact ⟨rfl, by simp⟩
    | some b =>
      obtain ⟨rest, hrest, rfl⟩ := Option.map_eq_some_iff.mp h
      obtain ⟨hlen, hperm⟩ := ih hrest
      refine ⟨by simp [hlen], ?_⟩
      exact (hperm.cons b).trans (List.Perm.swap a b _)

theorem takeSlot_spec {slots slots' : List (Option α)} (h : takeSlot p slots = some (a, slots')) :
    p a = true ∧ slots'.length = slots.length ∧
      slots.reduceOption.Perm (a :: slots'.reduceOption) := by
  induction slots generalizing slots' with
  | nil => simp [takeSlot] at h
  | cons slot slots ih =>
    cases slot with
    | none =>
      obtain ⟨⟨b, rest⟩, hrest, heq⟩ := Option.map_eq_some_iff.mp h
      cases heq
      obtain ⟨hp, hlen, hperm⟩ := ih hrest
      exact ⟨hp, by simp [hlen], by simpa using hperm⟩
    | some b => ?_
    rw [takeSlot] at h
    split_ifs at h with hb
    · cases h
      exact ⟨hb, rfl, by simp⟩
    obtain ⟨⟨c, rest⟩, hrest, heq⟩ := Option.map_eq_some_iff.mp h
    cases heq
    obtain ⟨hp, hlen, hperm⟩ := ih hrest
    refine ⟨hp, by simp [hlen], ?_⟩
    exact (hperm.cons b).trans (List.Perm.swap c b _)

/-- Take the first value that satisfies `p` out of the array. -/
def StaticArray.take (arr : StaticArray α) (p : α → Bool) : Option (α × StaticArray α) :=
  match h : takeSlot p arr.slots with
  | none => none
  | some (a, slots) => some (a, ⟨slots, (takeSlot_spec h).2.1.trans arr.length_slots⟩)

theorem StaticArray.take_spec {arr arr' : StaticArray α} (h : arr.take p = some (a, arr')) :
    arr.slots.reduceOption.Perm (a :: arr'.slots.reduceOption) := by
  rw [StaticArray.take] at h
  split at h
  · cases h
  · rename_i b slots hslots
    cases h
    exact (takeSlot_spec hslots).2.2

/-! ### The collection -/

/-- Either the static array or the ordered tree. -/
inductive StaticArrayRBTree (R : OrderedTree α key) where
  | array (arr : StaticArray α)
  | rbTree (tree : R.Tree)

namespace StaticArrayRBTree

variable {R : OrderedTree α key}

/-- The values stored, in iteration order. -/
def elems : StaticArrayRBTree R → List α
  | array arr => arr.slots.reduceOption
  | rbTree tree => R.elems tree

/-- A collection held as a tree is in key order; an array promises nothing. -/
def Sorted : StaticArrayRBTree R → Prop
  | array _ => True
  | rbTree tree => R.Sorted tree

@[simp] theorem elems_array (arr : StaticArray α) :
    (array arr : StaticArrayRBTree R).elems = arr.slots.reduceOption := rfl

@[simp] theorem elems_rbTree (tree : R.Tree) : (rbTree tree).elems = R.elems tree := rfl

/-- `insert`: nothing when the array has no free slot left. -/
def insert (list : StaticArrayRBTree R) (a : α) : Option (StaticArrayRBTree R) :=
  match list with
  | array arr =>
    match h : insertSlot arr.slots a with
    | none => none
    | some slots => some (array ⟨slots, (insertSlot_spec h).1.trans arr.length_slots⟩)
  | rbTree tree => some (rbTree (R.insert tree a))

theorem insert_spec {list list' : StaticArrayRBTree R} (hs : list.Sorted)
    (h : list.insert a = some list') : list'.Sorted ∧ list'.elems.Perm (a :: list.elems) := by
  cases list with
  | array arr =>
    simp only [insert] at h
    split at h
    · cases h
    · rename_i slots hslots
      cases h
      exact ⟨trivial, (insertSlot_spec hslots).2⟩
  | rbTree tree =>
    cases h
    exact ⟨R.insert_sorted tree a hs, R.insert_perm tree a hs⟩

/-- `convert_to_heap_allocated`: move the array's values into a tree, one insertion each. -/
def convertToHeapAllocated : StaticArrayRBTree R → StaticArrayRBTree R
  | array arr => rbTree (arr.slots.reduceOption.foldl R.insert R.empty)
  | rbTree tree => rbTree tree

theorem foldl_insert_spec (l : List α) {tree : R.Tree} (hs : R.Sorted tree) :
    R.Sorted (l.foldl R.insert tree) ∧
      (R.elems (l.foldl R.insert tree)).Perm (l ++ R.elems tree) := by
  induction l generalizing tree with
  | nil => exact ⟨hs, List.Perm.refl _⟩
  | cons a l ih =>
    obtain ⟨hsort, hperm⟩ := ih (R.insert_sorted tree a hs)
    have hhead : (l ++ R.elems (R.insert tree a)).Perm (l ++ a :: R.elems tree) :=
      (R.insert_perm tree a hs).append_left l
    exact ⟨hsort, hperm.trans (hhead.trans List.perm_middle)⟩

theorem convertToHeapAllocated_spec {list : StaticArrayRBTree R} (hs : list.Sorted) :
    list.convertToHeapAllocated.Sorted ∧ list.convertToHeapAllocated.elems.Perm list.elems := by
  cases list with
  | array arr =>
    have hempty : R.Sorted R.empty := by
      rw [OrderedTree.Sorted, R.elems_empty]
      exact List.Pairwise.nil
    obtain ⟨hsort, hperm⟩ := foldl_insert_spec arr.slots.reduceOption hempty
    rw [R.elems_empty, List.append_nil] at hperm
    exact ⟨hsort, hperm⟩
  | rbTree tree => exact ⟨hs, List.Perm.refl _⟩

end StaticArrayRBTree

end Maios
