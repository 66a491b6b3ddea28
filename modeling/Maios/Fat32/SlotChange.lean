import Maios.Fat32.Edit

/-!
# What a directory shows after a change

The driver changes one slot of a directory at a time. Writing the cluster and the size of an entry
keeps the name under which it is shown, deleting an entry makes its slot show nothing, and a new entry
comes to the free slot. In each case the other slots show what they showed.
-/

namespace Maios.Fat32

open List Option

variable {slots : List Bytes} {s s' : Bytes} {k k' : ℕ} {upper : Name → Name} {name n : Name}
  {e : DirEntry83}

section

variable (hk : slots[k]? = some s)

include hk

/-- The slot of a shown entry. -/
theorem shownAt_fields (h : shownAt slots k = some (n, e)) :
    (slotHead s ≠ 0x00 ∧ slotAttr s ≠ attrLfn) ∧ e.attr = slotAttr s ∧ e.cluster = slotCluster s := by
  rw [shownAt, shownFrom_eq hk] at h
  obtain ⟨_, -, hentry⟩ := bind_eq_some_iff.mp h
  exact slotEntry_fields hentry

/-- The other slots show the same if the long names behind the slot do not change. -/
theorem shownAt_set_of_ne (hsame : ∀ lfn, afterSlot lfn s' = afterSlot lfn s) (hne : k' ≠ k) :
    shownAt (slots.set k s') k' = shownAt slots k' := by
  refine shownFrom_set_of_ne hk (fun lfn j => ?_) hne
  rw [hsame]

/-- A slot with the same name is shown under the same name. -/
theorem shownAt_set_self (hs : s.length = 32) (hs' : s'.length = 32)
    (htake : s'.take 12 = s.take 12) :
    shownAt (slots.set k s') k = (shownAt slots k).map fun ne =>
      (ne.1, { ne.2 with clusterHi := ru16 s' 20, clusterLo := ru16 s' 26, fileSize := ru32 s' 28 }) := by
  have hlt : k < slots.length := (List.getElem?_eq_some_iff.mp hk).1
  rw [shownAt, shownAt, shownFrom_eq (getElem?_set_self hlt), shownFrom_eq hk,
    take_set_of_le (le_rfl)]
  rcases scanEnd [] (slots.take k) with _ | lfn
  · rfl
  · exact slotEntry_of_take hs hs' htake

end

theorem afterSlot_of_take (htake : s'.take 12 = s.take 12) (hhead : slotHead s ≠ 0x00)
    (hattr : slotAttr s ≠ attrLfn) (lfn : LfnCollector) : afterSlot lfn s' = afterSlot lfn s := by
  rw [afterSlot_eq_nil hhead (.inr hattr), afterSlot_eq_nil]
  · rwa [slotHead_of_take htake]
  · exact .inr (by rwa [slotAttr_of_take htake])

/-- Whether an entry has a name depends only on the name it is shown under. -/
theorem named_eq_none_congr {x y : Option (Name × DirEntry83)}
    (h : (x.map fun ne => ne.1) = y.map fun ne => ne.1) :
    named upper n x = none ↔ named upper n y = none := by
  rcases x with _ | ⟨a, e⟩
  · rcases y with _ | ⟨b, e'⟩
    · exact .rfl
    · cases h
  · rcases y with _ | ⟨b, e'⟩
    · cases h
    · obtain rfl : a = b := some.inj h
      simp [named]

section

variable (hk : slots[k]? = some s) (hs : s.length = 32) (hhead : slotHead s ≠ 0x00)
  (hattr : slotAttr s ≠ attrLfn)

include hk hs hhead hattr

/-- **What a directory shows after the cluster and the size of an entry have been written.** -/
theorem shownAt_update (first size : ℕ) :
    (∀ k' ≠ k, shownAt (slots.set k (updateSlot s 0 first size)) k' = shownAt slots k') ∧
      ((shownAt (slots.set k (updateSlot s 0 first size)) k).map fun ne => (ne.1, ne.2.attr)) =
        (shownAt slots k).map fun ne => (ne.1, ne.2.attr) := by
  have hs' : (updateSlot s 0 first size).length = 32 := (length_updateSlot 0).trans hs
  constructor
  · exact fun k' hne => shownAt_set_of_ne hk (afterSlot_of_take take_updateSlot hhead hattr) hne
  · rw [shownAt_set_self hk hs hs' take_updateSlot, Option.map_map]
    rfl

theorem named_update_eq_none {first size : ℕ} :
    named upper n (shownAt (slots.set k (updateSlot s 0 first size)) k) = none ↔
      named upper n (shownAt slots k) = none := by
  have hsame := congrArg (Option.map Prod.fst) (shownAt_update hk hs hhead hattr first size).2
  rw [Option.map_map, Option.map_map] at hsame
  exact named_eq_none_congr hsame

/-- An entry at another slot is found as before. -/
theorem findSlot_update (first size : ℕ) (hne : k' ≠ k)
    (hfind : findSlot upper name slots = some (k', e)) :
    findSlot upper name (slots.set k (updateSlot s 0 first size)) = some (k', e) := by
  obtain ⟨hnamed, hlast⟩ := findSlot_eq_some_iff.mp hfind
  have hother := (shownAt_update hk hs hhead hattr first size).1
  rw [findSlot_eq_some_iff, hother k' hne]
  refine ⟨hnamed, fun j hj => ?_⟩
  obtain rfl | hjk := eq_or_ne j k
  · exact (named_update_eq_none hk hs hhead hattr).mpr (hlast j hj)
  · rw [hother j hjk]
    exact hlast j hj

/-- **What a directory shows after an entry has been deleted.** -/
theorem shownAt_delete :
    (∀ k' ≠ k, shownAt (slots.set k (s.set 0 0xE5)) k' = shownAt slots k') ∧
      shownAt (slots.set k (s.set 0 0xE5)) k = none := by
  have hlt : k < slots.length := (List.getElem?_eq_some_iff.mp hk).1
  have hdeleted : slotHead (s.set 0 0xE5) = 0xE5 := by
    rw [slotHead, getD_eq_getElem?_getD, getElem?_set_self (by omega), getD_some]
  constructor
  · refine fun k' hne => shownAt_set_of_ne hk (fun lfn => ?_) hne
    rw [afterSlot_eq_nil hhead (.inr hattr),
      afterSlot_eq_nil (by rw [hdeleted]; decide) (.inl hdeleted)]
  · rw [shownAt, shownFrom_eq (getElem?_set_self hlt), take_set_of_le (le_rfl)]
    rcases scanEnd [] (slots.take k) with _ | lfn
    · rfl
    · rw [bind_some, slotEntry, hdeleted]
      rfl

end

/-- **A found entry is found with what has been written into its slot.** -/
theorem findSlot_set (s' : Bytes) (hk : slots[k]? = some s) (hs : s.length = 32) (hs' : s'.length = 32)
    (htake : s'.take 12 = s.take 12) (hfind : findSlot upper name slots = some (k, e)) :
    ∃ e', findSlot upper name (slots.set k s') = some (k, e') ∧ e'.cluster = slotCluster s' ∧
      e'.fileSize = slotSize s' := by
  obtain ⟨hnamed, hlast⟩ := findSlot_eq_some_iff.mp hfind
  obtain ⟨n, hshown, hupper⟩ := named_eq_some_iff.mp hnamed
  obtain ⟨⟨hhead, hattr⟩, -⟩ := shownAt_fields hk hshown
  have hself := shownAt_set_self hk hs hs' htake
  rw [hshown] at hself
  refine ⟨_, findSlot_eq_some_iff.mpr ⟨named_eq_some_iff.mpr ⟨n, hself, hupper⟩, fun k' hk' => ?_⟩,
    rfl, rfl⟩
  rw [shownAt_set_of_ne hk (afterSlot_of_take htake hhead hattr) (ne_of_gt hk')]
  exact hlast k' hk'

/-! ### New entries -/

section Put

variable {m : ℕ}

theorem afterSlot_ofCluster {name : Storage.Block 11} {attr : UInt8}
    (hhead : name.1.getD 0 0 ≠ 0x00) (hattr : attr ≠ attrLfn) (first size : ℕ) (lfn : LfnCollector) :
    afterSlot lfn (DirEntry83.ofCluster name attr first size).toBytes = some [] := by
  refine afterSlot_eq_nil ?_ (.inr ?_)
  · rwa [slotHead_ofCluster]
  · rwa [slotAttr_ofCluster]

theorem getElem?_putSlot (s : Bytes) : (putSlot m slots (freeSlot slots) s)[freeSlot slots]? = some s := by
  rw [putSlot]
  split_ifs with h
  · exact getElem?_set_self h
  · rw [freeSlot_eq_length h, getElem?_append_right (le_rfl), Nat.sub_self, getElem?_cons_zero]

theorem set_putSlot (s s' : Bytes) :
    (putSlot m slots (freeSlot slots) s).set (freeSlot slots) s' =
      putSlot m slots (freeSlot slots) s' := by
  rw [putSlot, putSlot]
  split_ifs with h
  · rw [set_set]
  · rw [freeSlot_eq_length h, set_append_right _ _ (le_rfl), Nat.sub_self, set_cons_zero]

/-- The name under which a new entry is shown does not depend on its cluster and its size. -/
theorem shownAt_putSlot_name (m : ℕ) (slots : List Bytes) (hs : s.length = 32) (hs' : s'.length = 32)
    (htake : s'.take 12 = s.take 12) :
    ((shownAt (putSlot m slots (freeSlot slots) s') (freeSlot slots)).map fun ne => ne.1) =
      (shownAt (putSlot m slots (freeSlot slots) s) (freeSlot slots)).map fun ne => ne.1 := by
  rw [← set_putSlot s s', shownAt_set_self (getElem?_putSlot s) hs hs' htake, Option.map_map]
  rfl

end Put

end Maios.Fat32
