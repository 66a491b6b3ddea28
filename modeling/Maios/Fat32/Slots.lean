import Maios.Fat32.Driver

/-!
# The slots of a directory

A directory is listed slot by slot. Here is what each single slot shows, at its place and with the
name it is shown under, and at which slot the driver finds a name: at the last one that shows it.
When one slot is replaced, the other slots show what they showed before, unless the slot carried or
hid something that listing the rest depends on.
-/

namespace Maios.Fat32

open List Option

/-! ### What a slot shows -/

/-- The entry shown at a slot when the listing starts with these pieces of a long name. -/
def shownFrom : LfnCollector → List Bytes → ℕ → Option (Name × DirEntry83)
  | _, [], _ => none
  | lfn, s :: _, 0 => slotEntry lfn s
  | lfn, s :: rest, k + 1 => (afterSlot lfn s).bind fun lfn' => shownFrom lfn' rest k

/-- The entry shown at a slot of a directory, with the name it is shown under. -/
def shownAt (slots : List Bytes) (k : ℕ) : Option (Name × DirEntry83) := shownFrom [] slots k

theorem snd_unique {α β : Type*} {x : Option (α × β)} {a a' : α} {b b' : β} (h : x = some (a, b))
    (h' : x = some (a', b')) : b = b' := (Prod.mk.inj (some.inj (h.symm.trans h'))).2

section Find

variable (upper : Name → Name) (name : Name)

/-- The entry, if it is shown under the name, up to case. -/
def named (shown : Option (Name × DirEntry83)) : Option DirEntry83 :=
  shown.bind fun ne => if upper ne.1 = upper name then some ne.2 else none

/-- The last slot that shows an entry with the name, and that entry. -/
def findSlotFrom : LfnCollector → List Bytes → Option (ℕ × DirEntry83)
  | _, [] => none
  | lfn, s :: rest =>
    match (afterSlot lfn s).bind fun lfn' => findSlotFrom lfn' rest with
    | some (k, e) => some (k + 1, e)
    | none => (named upper name (slotEntry lfn s)).map fun e => (0, e)

def findSlot (slots : List Bytes) : Option (ℕ × DirEntry83) := findSlotFrom upper name [] slots

variable {upper name}

variable {slots : List Bytes} {shown : Option (Name × DirEntry83)} {e : DirEntry83} {k : ℕ}
  {lfn : LfnCollector}

theorem named_eq_some_iff :
    named upper name shown = some e ↔ ∃ n, shown = some (n, e) ∧ upper n = upper name := by
  rcases shown with _ | ⟨n, e'⟩ <;> simp [named]
  tauto

theorem named_eq_none_iff :
    named upper name shown = none ↔ ∀ n e, shown = some (n, e) → upper n ≠ upper name := by
  rcases shown with _ | ⟨n, e'⟩ <;> simp [named]

theorem lastNamed_append (l l' : List (Name × DirEntry83)) :
    lastNamed upper name (l ++ l') = (lastNamed upper name l').or (lastNamed upper name l) := by
  have key : ∀ (l' : List (Name × DirEntry83)) (acc : Option DirEntry83),
      l'.foldl (fun found e => if upper e.1 = upper name then some e.2 else found) acc =
        (lastNamed upper name l').or acc := by
    intro l'
    induction l' with
    | nil => exact fun acc => rfl
    | cons e l' ih =>
      intro acc
      rw [lastNamed, foldl_cons, foldl_cons, ih, ih, Option.or_assoc]
      split_ifs with h
      · rfl
      · rfl
  rw [lastNamed, foldl_append]
  exact key l' _

theorem lastNamed_toList (shown : Option (Name × DirEntry83)) :
    lastNamed upper name shown.toList = named upper name shown := by
  rcases shown with _ | ⟨n, e⟩
  · rfl
  · rfl

/-- Behind the slot that ends the directory nothing is shown, and it shows nothing itself. -/
theorem slotEntry_of_afterSlot {s : Bytes} (h : afterSlot lfn s = none) :
    slotEntry lfn s = none := by
  rw [slotEntry, if_pos]
  by_contra hhead
  rw [afterSlot] at h
  split_ifs at h

/-- `find_entry` finds the entry of the slot. -/
theorem lastNamed_scan (lfn : LfnCollector) (slots : List Bytes) :
    lastNamed upper name (scan lfn slots) =
      (findSlotFrom upper name lfn slots).map fun found => found.2 := by
  induction slots generalizing lfn with
  | nil => rfl
  | cons s rest ih =>
    rw [scan, findSlotFrom]
    rcases hafter : afterSlot lfn s with _ | lfn'
    · rw [slotEntry_of_afterSlot hafter]
      rfl
    · simp only [bind_some]
      rw [lastNamed_append, ih lfn', lastNamed_toList]
      rcases findSlotFrom upper name lfn' rest with _ | ⟨k, e⟩
      · simp
      · rfl

/-- What a slot shows is listed. -/
theorem mem_scan_of_shownFrom {ne : Name × DirEntry83} (h : shownFrom lfn slots k = some ne) :
    ne ∈ scan lfn slots := by
  induction slots generalizing lfn k with
  | nil => cases h
  | cons s rest ih =>
    rw [scan]
    rcases hafter : afterSlot lfn s with _ | lfn'
    · rcases k with _ | k
      · rw [shownFrom, slotEntry_of_afterSlot hafter] at h
        cases h
      · rw [shownFrom, hafter] at h
        cases h
    · rcases k with _ | k
      · exact mem_append_left _ (mem_toList.mpr h)
      · rw [shownFrom, hafter] at h
        exact mem_append_right _ (ih h)

theorem findSlotFrom_cases (upper : Name → Name) (name : Name) (lfn : LfnCollector)
    (slots : List Bytes) :
    (∃ k e, findSlotFrom upper name lfn slots = some (k, e) ∧
      named upper name (shownFrom lfn slots k) = some e ∧
        ∀ k' > k, named upper name (shownFrom lfn slots k') = none) ∨
    findSlotFrom upper name lfn slots = none ∧
      ∀ k, named upper name (shownFrom lfn slots k) = none := by
  induction slots generalizing lfn with
  | nil => exact .inr ⟨rfl, fun k => rfl⟩
  | cons s rest ih =>
    have hrest : (∃ k e, ((afterSlot lfn s).bind fun lfn' => findSlotFrom upper name lfn' rest) =
          some (k, e) ∧ named upper name (shownFrom lfn (s :: rest) (k + 1)) = some e ∧
          ∀ k' > k, named upper name (shownFrom lfn (s :: rest) (k' + 1)) = none) ∨
        ((afterSlot lfn s).bind fun lfn' => findSlotFrom upper name lfn' rest) = none ∧
          ∀ k, named upper name (shownFrom lfn (s :: rest) (k + 1)) = none := by
      simp only [shownFrom]
      rcases afterSlot lfn s with _ | lfn'
      · exact .inr ⟨rfl, fun k => rfl⟩
      · exact ih lfn'
    rw [findSlotFrom]
    rcases hrest with ⟨k, e, hfind, hnamed, hlast⟩ | ⟨hfind, hlast⟩
    · refine .inl ⟨k + 1, e, by rw [hfind], hnamed, ?_⟩
      rintro (_ | k') hk'
      · omega
      · exact hlast k' (by omega)
    rw [hfind]
    rcases hhere : named upper name (slotEntry lfn s) with _ | e
    · refine .inr ⟨rfl, ?_⟩
      rintro (_ | k)
      · exact hhere
      · exact hlast k
    · refine .inl ⟨0, e, rfl, hhere, ?_⟩
      rintro (_ | k') hk'
      · omega
      · exact hlast k'

/-- **A name is found at the last slot that shows it.** -/
theorem findSlot_eq_some_iff :
    findSlot upper name slots = some (k, e) ↔
      named upper name (shownAt slots k) = some e ∧
        ∀ k' > k, named upper name (shownAt slots k') = none := by
  rcases findSlotFrom_cases upper name [] slots with
    ⟨j, e', hfind, hnamed, hlast⟩ | ⟨hfind, hall⟩ <;> rw [findSlot, hfind]
  · constructor
    · rintro ⟨⟩
      exact ⟨hnamed, hlast⟩
    · rintro ⟨hnamed', hlast'⟩
      have heq : k = j := by
        rcases lt_trichotomy k j with h | h | h
        · exact absurd ((hlast' j h).symm.trans hnamed) (by simp)
        · exact h
        · exact absurd ((hlast k h).symm.trans hnamed') (by simp)
      subst heq
      obtain rfl : e' = e := some.inj (hnamed.symm.trans hnamed')
      rfl
  · constructor
    · rintro ⟨⟩
    · rintro ⟨hnamed, -⟩
      exact absurd ((hall k).symm.trans hnamed) (by simp)

theorem shownAt_of_findSlot (h : findSlot upper name slots = some (k, e)) :
    ∃ n, shownAt slots k = some (n, e) := by
  obtain ⟨n, hshown, -⟩ := named_eq_some_iff.mp (findSlot_eq_some_iff.mp h).1
  exact ⟨n, hshown⟩

theorem named_of_findSlot_eq_none (h : findSlot upper name slots = none) :
    ∀ k, named upper name (shownAt slots k) = none := by
  rcases findSlotFrom_cases upper name [] slots with
    ⟨j, e', hfind, hnamed, hlast⟩ | ⟨hfind, hall⟩
  · rw [findSlot, hfind] at h
    cases h
  · exact hall

end Find

/-! ### Replacing a slot -/

section Change

variable {lfn : LfnCollector} {slots rest : List Bytes} {s s' t : Bytes} {k k' : ℕ}

theorem shownFrom_of_le (h : slots.length ≤ k) : shownFrom lfn slots k = none := by
  induction slots generalizing lfn k with
  | nil => rfl
  | cons t rest ih =>
    rcases k with _ | k
    · exact absurd h (Nat.not_succ_le_zero _)
    · rw [shownFrom]
      rcases afterSlot lfn t with _ | lfn'
      · rfl
      · exact ih (Nat.le_of_succ_le_succ h)

/-- Behind an end marker nothing is shown. -/
theorem shownFrom_of_head (ht : slotHead t = 0x00) : shownFrom lfn (t :: slots) k = none := by
  have hafter : afterSlot lfn t = none := if_pos ht
  rcases k with _ | k
  · exact slotEntry_of_afterSlot hafter
  · rw [shownFrom, hafter]
    rfl

/-- A slot shows what it shows behind the pieces that the slots before it leave. -/
theorem shownFrom_eq (h : slots[k]? = some s) :
    shownFrom lfn slots k = (scanEnd lfn (slots.take k)).bind fun lfn' => slotEntry lfn' s := by
  induction slots generalizing lfn k with
  | nil => cases h
  | cons t rest ih =>
    rcases k with _ | k
    · obtain rfl : t = s := some.inj h
      rfl
    · rw [shownFrom, take_succ_cons, scanEnd]
      rcases afterSlot lfn t with _ | lfn'
      · rfl
      · exact ih h

/-- The other slots show the same if the rest of the directory does behind the new slot. -/
theorem shownFrom_set_of_ne (hk : slots[k]? = some s)
    (hsame : ∀ lfn j,
      ((afterSlot lfn s').bind fun lfn' => shownFrom lfn' (slots.drop (k + 1)) j) =
        (afterSlot lfn s).bind fun lfn' => shownFrom lfn' (slots.drop (k + 1)) j)
    (hne : k' ≠ k) : shownFrom lfn (slots.set k s') k' = shownFrom lfn slots k' := by
  induction slots generalizing lfn k k' with
  | nil => rfl
  | cons t rest ih =>
    rcases k with _ | k
    · obtain rfl : t = s := some.inj hk
      rcases k' with _ | k'
      · exact absurd rfl hne
      · exact hsame lfn k'
    rcases k' with _ | k'
    · rfl
    · rw [shownFrom]
      refine congrArg (Option.bind _) ?_
      funext lfn'
      exact ih hk hsame fun h => hne (congrArg (· + 1) h)

/-- A slot that ends the directory only hides what is shown. -/
theorem shownFrom_set_end (hs' : slotHead s' = 0x00) :
    shownFrom lfn (slots.set k s') k' = none ∨
      shownFrom lfn (slots.set k s') k' = shownFrom lfn slots k' := by
  induction slots generalizing lfn k k' with
  | nil => exact .inl rfl
  | cons t rest ih =>
    rcases k with _ | k
    · exact .inl (shownFrom_of_head hs')
    rcases k' with _ | k'
    · exact .inr rfl
    · rw [set_cons_succ, shownFrom, shownFrom]
      rcases afterSlot lfn t with _ | lfn'
      · exact .inl rfl
      · exact ih

theorem shownFrom_append_of_lt (h : k < slots.length) :
    shownFrom lfn (slots ++ rest) k = shownFrom lfn slots k := by
  have hget := getElem?_eq_getElem h
  rw [shownFrom_eq ((getElem?_append_left h).trans hget), shownFrom_eq hget,
    take_append_of_le_length h.le]

theorem shownFrom_append_add :
    shownFrom lfn (slots ++ rest) (slots.length + k) =
      (scanEnd lfn slots).bind fun lfn' => shownFrom lfn' rest k := by
  induction slots generalizing lfn with
  | nil =>
    rw [length_nil, Nat.zero_add]
    rfl
  | cons t slots ih =>
    rw [cons_append, length_cons, Nat.add_right_comm, shownFrom, scanEnd]
    rcases afterSlot lfn t with _ | lfn'
    · rfl
    · exact ih

/-- Behind an entry or a deleted slot the pieces of a long name start anew. -/
theorem afterSlot_eq_nil (hhead : slotHead s ≠ 0x00)
    (hattr : slotHead s = 0xE5 ∨ slotAttr s ≠ attrLfn) : afterSlot lfn s = some [] := by
  rw [afterSlot, if_neg hhead]
  split_ifs with hdeleted hlfn
  · rfl
  · exact absurd hlfn (hattr.resolve_left hdeleted)
  · rfl

end Change

/-! ### Where a new entry goes -/

/-- The first slot that is deleted or ends the directory, or else the one behind the last. -/
def freeSlot (slots : List Bytes) : ℕ :=
  slots.findIdx fun s => slotHead s = 0x00 ∨ slotHead s = 0xE5

/-- The directory with a slot put at a place, in a new cluster of `n` slots if need be. -/
def putSlot (n : ℕ) (slots : List Bytes) (k : ℕ) (s : Bytes) : List Bytes :=
  if k < slots.length then slots.set k s
  else slots ++ s :: List.replicate (n - 1) (List.replicate 32 0)

/-- If the free slot ends the directory, then the one behind it does, too: an entry put there uncovers
nothing. -/
def Sealed (slots : List Bytes) : Prop :=
  slotHead (slots.getD (freeSlot slots) []) = 0x00 →
    slotHead (slots.getD (freeSlot slots + 1) []) = 0x00

instance (slots : List Bytes) : Decidable (Sealed slots) := inferInstanceAs (Decidable (_ → _))

section Put

variable {slots : List Bytes} {s' : Bytes} {k n : ℕ}

theorem freeSlot_eq_length (h : ¬ freeSlot slots < slots.length) : freeSlot slots = slots.length :=
  le_antisymm findIdx_le_length (not_lt.mp h)

theorem slotHead_freeSlot (h : freeSlot slots < slots.length) :
    slotHead slots[freeSlot slots] = 0x00 ∨ slotHead slots[freeSlot slots] = 0xE5 :=
  of_decide_eq_true (findIdx_getElem (w := h))

/-- A free slot shows nothing. -/
theorem shownAt_freeSlot : shownAt slots (freeSlot slots) = none := by
  rcases Nat.lt_or_ge (freeSlot slots) slots.length with h | h
  · rw [shownAt, shownFrom_eq (getElem?_eq_getElem h)]
    rcases scanEnd [] (slots.take (freeSlot slots)) with _ | lfn
    · rfl
    · rw [bind_some, slotEntry]
      rcases slotHead_freeSlot h with hhead | hhead
      · rw [if_pos hhead]
      · rw [hhead]
        rfl
  · exact shownFrom_of_le h

theorem shownAt_putSlot_end (hs' : slotHead s' = 0x00) (k : ℕ) :
    shownAt (putSlot n slots (freeSlot slots) s') k = none ∨
      shownAt (putSlot n slots (freeSlot slots) s') k = shownAt slots k := by
  rw [putSlot]
  split_ifs with h
  · exact shownFrom_set_end hs'
  rcases Nat.lt_or_ge k slots.length with hk | hk
  · exact .inr (shownFrom_append_of_lt hk)
  obtain ⟨j, rfl⟩ := Nat.exists_eq_add_of_le hk
  refine .inl ?_
  rw [shownAt, shownFrom_append_add]
  simp only [shownFrom_of_head hs']
  rcases scanEnd [] slots with _ | lfn
  · rfl
  · rfl

/-- **The other slots show the same when a slot is put in the free place.** -/
theorem shownAt_putSlot_of_ne (hnew : ∀ lfn, afterSlot lfn s' = some []) (hsealed : Sealed slots)
    (hne : k ≠ freeSlot slots) :
    shownAt (putSlot n slots (freeSlot slots) s') k = shownAt slots k := by
  rw [putSlot]
  split_ifs with h
  · refine shownFrom_set_of_ne (getElem?_eq_getElem h) (fun lfn j => ?_) hne
    rw [hnew]
    rcases slotHead_freeSlot h with hhead | hhead
    · -- the slot ended the directory, and so does the next one
      have hafter : afterSlot lfn slots[freeSlot slots] = none := if_pos hhead
      rw [hafter]
      rw [Sealed, getD_eq_getElem?_getD, getElem?_eq_getElem h] at hsealed
      have hnext := hsealed hhead
      rcases hdrop : slots.drop (freeSlot slots + 1) with _ | ⟨t, rest⟩
      · rfl
      · have ht : slots[freeSlot slots + 1]? = some t := by
          rw [← head?_drop, hdrop, head?_cons]
        rw [getD_eq_getElem?_getD, ht] at hnext
        exact shownFrom_of_head hnext
    · rw [afterSlot_eq_nil (by rw [hhead]; decide) (.inl hhead)]
  · rw [freeSlot_eq_length h] at hne
    rcases Nat.lt_or_ge k slots.length with hk | hk
    · exact shownFrom_append_of_lt hk
    obtain ⟨j, rfl⟩ : ∃ j, k = slots.length + (j + 1) := ⟨k - slots.length - 1, by omega⟩
    rw [shownAt, shownAt, shownFrom_append_add, shownFrom_of_le hk]
    rcases scanEnd [] slots with _ | lfn
    · rfl
    · rw [bind_some, shownFrom, hnew]
      rcases n - 1 with _ | n
      · rfl
      · exact shownFrom_of_head rfl

end Put

end Maios.Fat32
