import Maios.Fat32.Driver
import Mathlib.Data.List.GetD

/-!
# The bytes of a slot

The driver reads and writes whole clusters. Here is what its changes to the buffer of a cluster mean
for the slots in it: an entry put at a place, the first cluster and the size written into a slot, the
mark of a deleted entry. Each of them changes one slot and no other.

The name and the attribute are the first twelve bytes of a slot. Two slots that agree in them show
an entry under the same name.
-/

namespace Maios.Fat32

open List DirEntry83 Nat

/-- The first cluster that a slot names. -/
def slotCluster (s : Bytes) : ℕ := ru16 s 20 <<< 16 ||| ru16 s 26

/-- The size that a slot names. -/
def slotSize (s : Bytes) : ℕ := ru32 s 28

/-- A cluster number is put together from its two halves. -/
theorem halves_eq {first : ℕ} (h : first < 2 ^ 32) :
    ((first >>> 16) % 2 ^ 16) <<< 16 ||| first % 2 ^ 16 = first := by
  have hlow : first % 2 ^ 16 < 2 ^ 16 := mod_lt _ (by decide)
  rw [shiftLeft_eq, mul_comm, ← two_pow_add_eq_or_of_lt hlow]
  omega

section Entry

variable {s s' : Bytes} {lfn : LfnCollector} {n : Name} {e : DirEntry83} {first size off : ℕ}

theorem getD_of_take {t : Bytes} {k : ℕ} (h : s.take 12 = t) (hk : k < 12) :
    s.getD k 0 = t.getD k 0 := by
  rw [← h, getD_eq_getElem?_getD, getD_eq_getElem?_getD, getElem?_take_of_lt hk]

theorem slotHead_of_take (h : s'.take 12 = s.take 12) : slotHead s' = slotHead s :=
  (getD_of_take h (by decide)).trans (getD_of_take rfl (by decide)).symm

theorem slotAttr_of_take (h : s'.take 12 = s.take 12) : slotAttr s' = slotAttr s :=
  (getD_of_take h (by decide)).trans (getD_of_take rfl (by decide)).symm

/-- The fields of a shown entry are those of its slot. -/
theorem slotEntry_fields (h : slotEntry lfn s = some (n, e)) :
    (slotHead s ≠ 0x00 ∧ slotAttr s ≠ attrLfn) ∧ e.attr = slotAttr s ∧ e.cluster = slotCluster s := by
  rw [slotEntry] at h
  split_ifs at h with h0 _ hlfn
  rcases hparse : parse s with _ | e' <;> rw [hparse] at h
  · cases h
  have heq : e' = e := by
    simp only at h
    split_ifs at h
    exact (Prod.mk.inj (Option.some.inj h)).2
  subst heq
  rw [parse] at hparse
  split_ifs at hparse with hlen
  cases hparse
  exact ⟨⟨h0, hlfn⟩, rfl, rfl⟩

theorem parse_of_take (hs : s.length = 32) (hs' : s'.length = 32) (h : s'.take 12 = s.take 12) :
    parse s' = (parse s).map fun e =>
      { e with clusterHi := ru16 s' 20, clusterLo := ru16 s' 26, fileSize := ru32 s' 28 } := by
  have hname : s'.take 11 = s.take 11 := by
    have h11 : (s'.take 12).take 11 = (s.take 12).take 11 := by rw [h]
    rwa [take_take, take_take] at h11
  have hlen : ¬ s.length < 32 := by omega
  have hlen' : ¬ s'.length < 32 := by omega
  rw [parse, parse, slotHead_of_take h, slotAttr_of_take h]
  split_ifs
  · rfl
  · rfl
  · rfl
  · rw [Option.map_some]
    congr 2
    exact Subtype.ext hname

/-- **Slots with the same name and attribute show entries under the same name.** -/
theorem slotEntry_of_take (hs : s.length = 32) (hs' : s'.length = 32)
    (h : s'.take 12 = s.take 12) :
    slotEntry lfn s' = (slotEntry lfn s).map fun ne =>
      (ne.1, { ne.2 with clusterHi := ru16 s' 20, clusterLo := ru16 s' 26, fileSize := ru32 s' 28 }) := by
  rw [slotEntry, slotEntry, slotHead_of_take h, slotAttr_of_take h, parse_of_take hs hs' h]
  split_ifs
  · rfl
  · rfl
  · rfl
  · rcases parse s with _ | e
    · rfl
    simp only [Option.map_some]
    have hshort : shortName { e with
        clusterHi := ru16 s' 20, clusterLo := ru16 s' 26, fileSize := ru32 s' 28 } =
      e.shortName := rfl
    have hvol : isVolumeId { e with
        clusterHi := ru16 s' 20, clusterLo := ru16 s' 26, fileSize := ru32 s' 28 } =
      e.isVolumeId := rfl
    rw [hshort, hvol]
    split_ifs
    · rfl
    · rfl
    · rfl

/-! ### The slots that the driver writes -/

theorem length_toBytes (e : DirEntry83) : e.toBytes.length = 32 := by
  rw [toBytes, length_wu32, length_wu16, length_wu16, length_set, length_append,
    e.name.2, length_replicate]

theorem take_wu16 (h : 12 ≤ off) (val : ℕ) : (wu16 s off val).take 12 = s.take 12 := by
  rw [wu16, take_set_of_le (by omega), take_set_of_le (by omega)]

theorem take_wu32 (h : 12 ≤ off) (val : ℕ) : (wu32 s off val).take 12 = s.take 12 := by
  rw [wu32, take_set_of_le (by omega), take_set_of_le (by omega),
    take_set_of_le (by omega), take_set_of_le (by omega)]

/-- The first twelve bytes of the slot of an entry are its name and attribute. -/
theorem take_toBytes (e : DirEntry83) : e.toBytes.take 12 = e.name.1 ++ [e.attr] := by
  rw [toBytes, take_wu32 (by decide), take_wu16 (by decide), take_wu16 (by decide),
    set_append_right _ _ (by rw [e.name.2])]
  rw [take_append, e.name.2, take_of_length_le (by rw [e.name.2]; decide)]
  rfl

theorem length_updateSlot (off : ℕ) : (updateSlot s off first size).length = s.length := by
  rw [updateSlot, length_wu32, length_wu16, length_wu16]

theorem take_updateSlot : (updateSlot s 0 first size).take 12 = s.take 12 := by
  rw [updateSlot, take_wu32 (by decide), take_wu16 (by decide), take_wu16 (by decide)]

/-- **The first cluster written into a slot is read back.** -/
theorem slotCluster_updateSlot (hs : s.length = 32) (hfirst : first < 2 ^ 32) :
    slotCluster (updateSlot s 0 first size) = first := by
  have hhi : ru16 (updateSlot s 0 first size) 20 = (first >>> 16) % 2 ^ 16 := by
    rw [updateSlot, ru16_wu32_of_disjoint (by decide), ru16_wu16_of_disjoint (by decide),
      ru16_wu16_self (by rw [hs]; decide) (mod_lt _ (by decide))]
  have hlo : ru16 (updateSlot s 0 first size) 26 = first % 2 ^ 16 := by
    rw [updateSlot, ru16_wu32_of_disjoint (by decide),
      ru16_wu16_self (by rw [length_wu16, hs]; decide) (mod_lt _ (by decide))]
  rw [slotCluster, hhi, hlo, halves_eq hfirst]

/-- The size written into a slot is read back. -/
theorem slotSize_updateSlot (hs : s.length = 32) (hsize : size < 2 ^ 32) :
    slotSize (updateSlot s 0 first size) = size := by
  rw [slotSize, updateSlot, ru32_wu32_self (by rw [length_wu16, length_wu16, hs]) hsize]

variable (name : Storage.Block 11) (attr : UInt8)

theorem take_ofCluster (first size : ℕ) :
    (ofCluster name attr first size).toBytes.take 12 = name.1 ++ [attr] := take_toBytes _

theorem slotHead_ofCluster (first size : ℕ) :
    slotHead (ofCluster name attr first size).toBytes = name.1.getD 0 0 := by
  rw [slotHead, getD_of_take (take_ofCluster name attr first size) (by decide)]
  exact getD_append _ _ _ _ (by rw [name.2]; decide)

theorem slotAttr_ofCluster (first size : ℕ) :
    slotAttr (ofCluster name attr first size).toBytes = attr := by
  rw [slotAttr, getD_of_take (take_ofCluster name attr first size) (by decide),
    getD_append_right _ _ _ _ (by rw [name.2]), name.2]
  rfl

theorem length_named : ((name.1 ++ replicate 21 0).set 11 attr).length = 32 := by
  rw [length_set, length_append, name.2, length_replicate]

theorem slotCluster_ofCluster (hfirst : first < 2 ^ 32) :
    slotCluster (ofCluster name attr first size).toBytes = first := by
  exact slotCluster_updateSlot (length_named name attr) hfirst

theorem slotSize_ofCluster (hsize : size < 2 ^ 32) :
    slotSize (ofCluster name attr first size).toBytes = size := by
  exact slotSize_updateSlot (length_named name attr) hsize

end Entry

/-! ### Slots in the buffer of a cluster -/

section Buffer

variable {buf s : Bytes} {n i j : ℕ}

section

variable (h : buf.length = 32 * n)

include h

theorem slotsExact_eq : slotsExact buf = chunks 32 n buf := by
  rw [slotsExact, h, Nat.mul_div_cancel_left _ (by decide)]

theorem slotsStepped_eq : slotsStepped buf = slotsExact buf := by
  rw [slotsStepped, slotsExact]
  congr 1
  omega

theorem length_slotsExact : (slotsExact buf).length = n := by
  rw [slotsExact_eq h, length_chunks]

theorem length_of_mem_slotsExact (hs : s ∈ slotsExact buf) : s.length = 32 := by
  rw [slotsExact_eq h] at hs
  exact length_of_mem_chunks h hs

/-- An entry put at a place replaces the slot there. -/
theorem slotsExact_splice (hi : i < n) (hs : s.length = 32) :
    slotsExact (buf.take (32 * i) ++ s ++ buf.drop (32 * i + 32)) =
      (slotsExact buf).modify i fun _ => s := by
  have hlen : (buf.take (32 * i) ++ s ++ buf.drop (32 * i + 32)).length = 32 * n := by
    rw [length_append, length_append, length_take, length_drop]
    omega
  rw [slotsExact_eq hlen, slotsExact_eq h, chunks_splice h hi hs]

end

theorem slotsExact_append (hs : s.length = 32) (h : buf.length = 32 * n) :
    slotsExact (s ++ buf) = s :: slotsExact buf := by
  have hlen : (s ++ buf).length = 32 * (n + 1) := by
    rw [length_append, hs, h, mul_succ, add_comm]
  rw [slotsExact_eq hlen, slotsExact_eq h, chunks_append hs]

theorem slotsExact_zeros (n : ℕ) :
    slotsExact (replicate (32 * n) 0) = replicate n (replicate 32 0) := by
  rw [slotsExact_eq length_replicate, chunks_replicate]

variable (h : buf.length = 32 * n) (hi : i < n)

include h hi

/-- A byte written at a place of a slot changes this slot. -/
theorem slotsExact_set (hj : j < 32) (b : UInt8) :
    slotsExact (buf.set (32 * i + j) b) = (slotsExact buf).modify i fun s => s.set j b := by
  have hlen : (buf.set (32 * i + j) b).length = 32 * n := by rw [length_set, h]
  rw [slotsExact_eq hlen, slotsExact_eq h, chunks_set h hj hi]

theorem slotsExact_wu16 (hj : j + 1 < 32) (val : ℕ) :
    slotsExact (wu16 buf (32 * i + j) val) = (slotsExact buf).modify i fun s => wu16 s j val := by
  have hlen : (buf.set (32 * i + j) (UInt8.ofNat val)).length = 32 * n := by rw [length_set, h]
  rw [wu16, add_assoc, slotsExact_set hlen hi hj, slotsExact_set h hi (by omega),
    modify_modify_eq]
  rfl

theorem slotsExact_wu32 (hj : j + 3 < 32) (val : ℕ) :
    slotsExact (wu32 buf (32 * i + j) val) = (slotsExact buf).modify i fun s => wu32 s j val := by
  rw [wu32, add_assoc, add_assoc, add_assoc,
    slotsExact_set (by simpa using h) hi (by omega), slotsExact_set (by simpa using h) hi (by omega),
    slotsExact_set (by simpa using h) hi (by omega), slotsExact_set h hi (by omega),
    modify_modify_eq, modify_modify_eq, modify_modify_eq]
  rfl

/-- The first cluster and the size are written into one slot. -/
theorem slotsExact_updateSlot (first size : ℕ) :
    slotsExact (updateSlot buf (32 * i) first size) =
      (slotsExact buf).modify i fun s => updateSlot s 0 first size := by
  rw [updateSlot, slotsExact_wu32 (by rw [length_wu16, length_wu16, h]) hi (by decide),
    slotsExact_wu16 (by rw [length_wu16, h]) hi (by decide), slotsExact_wu16 h hi (by decide),
    modify_modify_eq, modify_modify_eq]
  rfl

/-- A byte of a slot is a byte of the buffer. -/
theorem byteAt_slot (hs : (slotsExact buf)[i]? = some s) (hj : j < 32) :
    byteAt buf (32 * i + j) = byteAt s j := by
  rw [slotsExact_eq h, getElem?_chunks hi] at hs
  cases hs
  rw [byteAt, byteAt, getD_eq_getElem?_getD, getD_eq_getElem?_getD,
    getElem?_take_of_lt hj, getElem?_drop]

/-- The first cluster read from the buffer is that of the slot. -/
theorem slotCluster_slot (hs : (slotsExact buf)[i]? = some s) :
    ru16 buf (32 * i + 20) <<< 16 ||| ru16 buf (32 * i + 26) = slotCluster s := by
  rw [slotCluster, ru16, ru16, ru16, ru16, add_assoc, add_assoc,
    byteAt_slot h hi hs (by decide), byteAt_slot h hi hs (by decide),
    byteAt_slot h hi hs (by decide), byteAt_slot h hi hs (by decide)]

end Buffer

end Maios.Fat32
