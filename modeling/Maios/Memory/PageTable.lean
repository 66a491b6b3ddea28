import Mathlib.Data.Nat.Bitwise
import Mathlib.Logic.Function.Basic
import Maios.Library.Outcome
import Maios.Memory.Structs

/-!
# Page table entries and the four-level page table

The `pte_flags` and `page_table_entry` crates and `paging/table.rs`, for `x86_64`. An entry is one
64-bit word: the frame it points to in bits 12 to 51, the flags around it. A table has 512 entries;
those of the three upper levels each lead to a table of the next level, so the whole page table is
a tree of depth four, but for one entry of the top table, which leads back to the top table. The
source reaches all tables through that entry. Mapping never goes along it, since pages of its slot
are not handed out; a walk may, and `AnyTable.nextTable` follows it.

A table reached through `next_table_mut` or `next_table_create` is borrowed; what the borrower does
with it is the argument `k` of the two functions here, and its result is put back.
-/

namespace Maios.Paging

open Function BitVec

/-! ### Flags -/

/-- `PTE_FRAME_MASK`: bits 12 to 51. -/
def pteFrameMask : BitVec 64 := 0x000FFFFFFFFFF000#64

/-- The flags of an entry. Two of them are also bits of the index into the page attribute table,
and so is the one for huge pages. -/
inductive PteFlag where
  | valid
  | writable
  | userAccessible
  | writeThrough
  | cacheDisable
  | accessed
  | dirty
  | hugePage
  | global
  | exclusive
  | notExecutable
  deriving DecidableEq, Repr

/-- The position of a flag in an entry. -/
def PteFlag.bit : PteFlag → ℕ
  | .valid => 0
  | .writable => 1
  | .userAccessible => 2
  | .writeThrough => 3
  | .cacheDisable => 4
  | .accessed => 5
  | .dirty => 6
  | .hugePage => 7
  | .global => 8
  | .exclusive => 55
  | .notExecutable => 63

/-- `PteFlagsX86_64::all`. -/
def allFlags : BitVec 64 := 0x80800000000001FF#64

variable {index : Index} {v : PageTableEntry} (e : PageTableEntry) (f : PteFlags) (flag : PteFlag)
  {o : Outcome String β}

theorem PteFlag.bit_mem_allFlags : allFlags.getLsbD flag.bit = true := by
  cases flag <;> rfl

theorem pteFrameMask_getLsbD (i : ℕ) :
    pteFrameMask.getLsbD i = (decide (12 ≤ i) && decide (i < 52)) := by
  by_cases hi : i < 64
  · have hbits : ∀ j : Fin 64,
        pteFrameMask.getLsbD j = (decide (12 ≤ (j : ℕ)) && decide ((j : ℕ) < 52)) := by decide
    exact hbits ⟨i, hi⟩
  · rw [getLsbD_of_ge _ _ (by omega), decide_eq_false (show ¬ i < 52 by omega),
      Bool.and_false]

/-- The source asserts this of its constants: no flag lies in the frame part of an entry. -/
theorem allFlags_disjoint {i : ℕ} (h : allFlags.getLsbD i = true) :
    pteFrameMask.getLsbD i = false := by
  have hi : i < 64 := lt_of_getLsbD h
  have hbits : ∀ j : Fin 64, allFlags.getLsbD j = true → pteFrameMask.getLsbD j = false := by
    decide
  exact hbits ⟨i, hi⟩ h

/-- `PteFlagsX86_64`: a set of flags, without any other bits. -/
structure PteFlags where
  bits : BitVec 64
  known : ∀ i, bits.getLsbD i = true → allFlags.getLsbD i = true

namespace PteFlags

@[ext] theorem ext {f g : PteFlags} (h : f.bits = g.bits) : f = g := by
  cases f
  cases g
  cases h
  rfl

instance : DecidableEq PteFlags := fun _ _ => decidable_of_iff _ PteFlags.ext_iff.symm

/-- `from_bits_truncate`. -/
def fromBitsTruncate (bits : BitVec 64) : PteFlags where
  bits := bits &&& allFlags
  known i h := by
    rw [BitVec.getLsbD_and, Bool.and_eq_true] at h
    exact h.2

def contains (f : PteFlags) (flag : PteFlag) : Bool := f.bits.getLsbD flag.bit

/-- `set`: put the flag in, or take it out. -/
def set (f : PteFlags) (flag : PteFlag) (enable : Bool) : PteFlags where
  bits := if enable then f.bits ||| BitVec.twoPow 64 flag.bit
    else f.bits &&& ~~~BitVec.twoPow 64 flag.bit
  known i h := by
    cases enable with
    | true =>
      rw [if_pos rfl, BitVec.getLsbD_or, Bool.or_eq_true, BitVec.getLsbD_twoPow,
        Bool.and_eq_true, decide_eq_true_eq, decide_eq_true_eq] at h
      rcases h with h | ⟨-, rfl⟩
      · exact f.known i h
      · exact flag.bit_mem_allFlags
    | false =>
      rw [if_neg Bool.false_ne_true, BitVec.getLsbD_and, Bool.and_eq_true] at h
      exact f.known i h.1

variable (enable : Bool)

theorem bits_set :
    (f.set flag enable).bits = if enable then f.bits ||| twoPow 64 flag.bit
      else f.bits &&& ~~~twoPow 64 flag.bit := rfl

theorem contains_set (flag' : PteFlag) (enable : Bool) :
    (f.set flag enable).contains flag' = if flag' = flag then enable else f.contains flag' := by
  have hbit : flag.bit = flag'.bit ↔ flag' = flag := by
    cases flag <;> cases flag' <;> decide
  have hlt : ∀ x : PteFlag, x.bit < 64 := fun x => by cases x <;> decide
  cases enable with
  | true =>
    rw [contains, bits_set, if_pos rfl, getLsbD_or, getLsbD_twoPow]
    split_ifs with h
    · rw [decide_eq_true (hlt flag), decide_eq_true (hbit.mpr h)]
      simp
    · rw [decide_eq_false (fun he => h (hbit.mp he))]
      simp [contains]
  | false =>
    rw [contains, bits_set, if_neg Bool.false_ne_true, getLsbD_and, getLsbD_not,
      getLsbD_twoPow, decide_eq_true (hlt flag'), decide_eq_true (hlt flag)]
    by_cases h : flag' = flag
    · rw [if_pos h, decide_eq_true (hbit.mpr h)]
      simp
    · rw [if_neg h, decide_eq_false (fun he => h (hbit.mp he))]
      simp [contains]

def valid (f : PteFlags) (enable : Bool) : PteFlags := f.set .valid enable
def writable (f : PteFlags) (enable : Bool) : PteFlags := f.set .writable enable
def executable (f : PteFlags) (enable : Bool) : PteFlags := f.set .notExecutable (!enable)
def exclusive (f : PteFlags) (enable : Bool) : PteFlags := f.set .exclusive enable

def isValid (f : PteFlags) : Bool := f.contains .valid
def isExclusive (f : PteFlags) : Bool := f.contains .exclusive
def isHuge (f : PteFlags) : Bool := f.contains .hugePage

/-- `pat_index`: spread the three bits of the slot over the entry. -/
def patIndex (f : PteFlags) (patSlot : ℕ) : PteFlags :=
  ((f.set .writeThrough (patSlot.testBit 0)).set .cacheDisable (patSlot.testBit 1)).set
    .hugePage (patSlot.testBit 2)

/-- `adjust_for_higher_level_pte`. -/
def adjustForHigherLevelPte (f : PteFlags) : PteFlags :=
  (((f.executable true).exclusive false).patIndex 0).valid true

@[simp] theorem isValid_valid : (f.valid enable).isValid = enable := by
  rw [isValid, valid, contains_set, if_pos rfl]

@[simp] theorem isExclusive_exclusive : (f.exclusive enable).isExclusive = enable := by
  rw [isExclusive, exclusive, contains_set, if_pos rfl]

@[simp] theorem isValid_exclusive : (f.exclusive enable).isValid = f.isValid := by
  rw [isValid, exclusive, contains_set, if_neg (by decide), isValid]

@[simp] theorem isExclusive_valid : (f.valid enable).isExclusive = f.isExclusive := by
  rw [isExclusive, valid, contains_set, if_neg (by decide), isExclusive]

end PteFlags

/-! ### Entries -/

/-- A page table entry, a `u64` under the hood. -/
structure PageTableEntry where
  value : BitVec 64
  deriving DecidableEq

/-- The frames that fit into an entry, which are those of a 52-bit physical address. -/
def IsFrame (f : ℕ) : Prop := f < 2 ^ 40

instance (f : ℕ) : Decidable (IsFrame f) := inferInstanceAs (Decidable (_ < _))

/-- The frames an entry gave up when it was unmapped. -/
inductive UnmapResult where
  | exclusive (frames : FrameRange)
  | nonExclusive (frames : FrameRange)

namespace PageTableEntry

/-- `zero`: the unused entry. -/
def zero : PageTableEntry := ⟨0#64⟩

def isUnused (e : PageTableEntry) : Bool := e.value == 0#64

def flags (e : PageTableEntry) : PteFlags := .fromBitsTruncate (e.value &&& ~~~pteFrameMask)

/-- `frame_value`: the number of the frame in the entry. -/
def frameValue (e : PageTableEntry) : ℕ := (e.value &&& pteFrameMask).toNat / pageSize

/-- `set_entry`. The word it overwrites is not looked at. -/
def setEntry (frame : ℕ) (flags : PteFlags) : PageTableEntry :=
  ⟨BitVec.ofNat 64 (frame * pageSize) ||| flags.bits⟩

/-- `set_flags`: the frame part stays. -/
def setFlags (e : PageTableEntry) (newFlags : PteFlags) : PageTableEntry :=
  ⟨(e.value &&& pteFrameMask) ||| (newFlags.bits &&& ~~~pteFrameMask)⟩

/-- `set_unmapped`: clear the entry, and give up its frame. -/
def setUnmapped (e : PageTableEntry) : UnmapResult × PageTableEntry :=
  let frameRange : FrameRange := ⟨e.frameValue, e.frameValue⟩
  (if e.flags.isExclusive then .exclusive frameRange else .nonExclusive frameRange, zero)

/-- What the two parts of a word hold, when the flags are kept apart from the frame. -/
theorem flags_mk (x : BitVec 64) (f : PteFlags) :
    (⟨(x &&& pteFrameMask) ||| f.bits⟩ : PageTableEntry).flags = f := by
  apply PteFlags.ext
  apply eq_of_getLsbD_eq
  intro i hi
  simp only [flags, PteFlags.fromBitsTruncate, getLsbD_and, getLsbD_or,
    getLsbD_not, hi]
  cases hf : f.bits.getLsbD i with
  | true =>
    have hall := f.known i hf
    rw [hall, allFlags_disjoint hall]
    simp
  | false =>
    cases pteFrameMask.getLsbD i <;> simp

theorem and_mask_mk (x : BitVec 64) (f : PteFlags) :
    ((x &&& pteFrameMask) ||| f.bits) &&& pteFrameMask = x &&& pteFrameMask := by
  apply eq_of_getLsbD_eq
  intro i _
  simp only [getLsbD_and, getLsbD_or]
  cases hf : f.bits.getLsbD i with
  | true =>
    rw [allFlags_disjoint (f.known i hf)]
    simp
  | false => cases x.getLsbD i <;> cases pteFrameMask.getLsbD i <;> rfl

variable {frame : ℕ}

/-- The address of a frame lies in the frame part of an entry. -/
theorem address_and_mask (h : IsFrame frame) :
    BitVec.ofNat 64 (frame * pageSize) &&& pteFrameMask = BitVec.ofNat 64 (frame * pageSize) := by
  apply eq_of_getLsbD_eq
  intro i hi
  have hbit : (frame * pageSize).testBit i = (decide (12 ≤ i) && frame.testBit (i - 12)) :=
    Nat.testBit_mul_two_pow frame i 12
  rw [getLsbD_and, getLsbD_ofNat, pteFrameMask_getLsbD, hbit]
  by_cases hhi : i < 52
  · simp only [hhi]
    cases decide (12 ≤ i) <;> simp
  · have hzero : frame.testBit (i - 12) = false := by
      apply Nat.testBit_lt_two_pow
      exact lt_of_lt_of_le h (Nat.pow_le_pow_right (by omega) (by omega))
    rw [hzero]
    simp

theorem setEntry_eq (h : IsFrame frame) (f : PteFlags) :
    setEntry frame f = ⟨(BitVec.ofNat 64 (frame * pageSize) &&& pteFrameMask) ||| f.bits⟩ := by
  rw [address_and_mask h, setEntry]

theorem setFlags_eq : e.setFlags f = ⟨(e.value &&& pteFrameMask) ||| f.bits⟩ := by
  rw [setFlags]
  congr 2
  apply eq_of_getLsbD_eq
  intro i hi
  simp only [getLsbD_and, getLsbD_not, hi]
  cases hf : f.bits.getLsbD i with
  | true => simp [allFlags_disjoint (f.known i hf)]
  | false => simp

theorem flags_setEntry (h : IsFrame frame) (f : PteFlags) : (setEntry frame f).flags = f := by
  rw [setEntry_eq h, flags_mk]

theorem flags_setFlags : (e.setFlags f).flags = f := by
  rw [setFlags_eq, flags_mk]

theorem frameValue_setFlags : (e.setFlags f).frameValue = e.frameValue := by
  rw [setFlags_eq, frameValue, and_mask_mk, frameValue]

theorem frameValue_setEntry (h : IsFrame frame) (f : PteFlags) :
    (setEntry frame f).frameValue = frame := by
  have hlt : frame * pageSize < 2 ^ 64 := by
    have : frame < 2 ^ 40 := h
    simp only [pageSize]
    omega
  rw [setEntry_eq h, frameValue, and_mask_mk, address_and_mask h, toNat_ofNat, Nat.mod_eq_of_lt hlt]
  exact Nat.mul_div_cancel frame (by decide)

/-- Whatever an entry holds, its frame part is the number of a frame. -/
theorem isFrame_frameValue : IsFrame e.frameValue := by
  have hle : (e.value &&& pteFrameMask).toNat ≤ 0x000FFFFFFFFFF000 := by
    exact Nat.and_le_right
  show (e.value &&& pteFrameMask).toNat / 4096 < 2 ^ 40
  omega

/-- An entry with the flag for valid entries is in use. -/
theorem isUnused_of_isValid {e : PageTableEntry} (h : e.flags.isValid = true) :
    e.isUnused = false := by
  by_contra hne
  rw [Bool.not_eq_false, isUnused, beq_iff_eq] at hne
  have hzero : e = zero := by
    cases e
    cases hne
    rfl
  rw [hzero] at h
  exact absurd h (by decide)

end PageTableEntry

/-! ### Pages and the way to their entry -/

/-- `ENTRIES_PER_PAGE_TABLE`, as the type of indices into a table. -/
abbrev Index := Fin 512

/-- Page numbers of canonical virtual addresses: bits 47 and up of the address are all equal. -/
def IsPage (p : ℕ) : Prop := p < 2 ^ 35 ∨ 2 ^ 52 - 2 ^ 35 ≤ p ∧ p < 2 ^ 52

instance (p : ℕ) : Decidable (IsPage p) := inferInstanceAs (Decidable (_ ∨ _))

def p4Index (p : ℕ) : Index := ⟨p / 2 ^ 27 % 512, Nat.mod_lt _ (by decide)⟩
def p3Index (p : ℕ) : Index := ⟨p / 2 ^ 18 % 512, Nat.mod_lt _ (by decide)⟩
def p2Index (p : ℕ) : Index := ⟨p / 2 ^ 9 % 512, Nat.mod_lt _ (by decide)⟩
def p1Index (p : ℕ) : Index := ⟨p % 512, Nat.mod_lt _ (by decide)⟩

/-- The four indices of a page, from the top table to its entry. -/
def path (p : ℕ) : Index × Index × Index × Index := (p4Index p, p3Index p, p2Index p, p1Index p)

/-- Two pages lead to the same entry only if they are equal. -/
theorem path_injective {p q : ℕ} (hp : IsPage p) (hq : IsPage q) (h : path p = path q) : p = q := by
  simp only [path, p4Index, p3Index, p2Index, p1Index, Prod.mk.injEq, Fin.mk.injEq] at h
  rw [IsPage] at hp hq
  omega

/-! ### Tables -/

/-- The frame allocator as the table code sees it: the set of free frames, and what the next
calls for one frame come to, a frame of the allocator's choice or a failure. -/
structure FrameSupply where
  free : Finset ℕ
  outcomes : List (Option ℕ)

namespace FrameSupply

/-- `allocate_frames(1)`. A frame that is not free is not a choice the allocator has. -/
def allocateFrame (s : FrameSupply) : Option ℕ × FrameSupply :=
  match s.outcomes with
  | some f :: rest =>
    if f ∈ s.free then (some f, ⟨s.free.erase f, rest⟩) else (none, ⟨s.free, rest⟩)
  | none :: rest => (none, ⟨s.free, rest⟩)
  | [] => (none, s)

/-- A single allocated frame is dropped. -/
def dropFrame (s : FrameSupply) (f : ℕ) : FrameSupply := { s with free := insert f s.free }

theorem allocateFrame_none {s s' : FrameSupply} (h : s.allocateFrame = (none, s')) :
    s'.free = s.free := by
  rw [allocateFrame] at h
  split at h
  · split_ifs at h <;> cases h
    rfl
  · cases h
    rfl
  · cases h
    rfl

theorem allocateFrame_some {s s' : FrameSupply} {f : ℕ} (h : s.allocateFrame = (some f, s')) :
    f ∈ s.free ∧ s'.free = s.free.erase f := by
  rw [allocateFrame] at h
  split at h
  · split_ifs at h with hf <;> cases h
    exact ⟨hf, rfl⟩
  · cases h
  · cases h

end FrameSupply

/-- A table of one of the three upper levels, over the tables `T` of the next one. -/
structure Table (T : Type) where
  entries : Index → PageTableEntry
  next : Index → T

/-- A `Table<Level1>`. -/
abbrev P1 := Index → PageTableEntry
abbrev P2 := Table P1
abbrev P3 := Table P2
abbrev P4 := Table P3

instance : Inhabited PageTableEntry := ⟨.zero⟩

/-- `zero`: all entries unused. -/
instance {T : Type} [Inhabited T] : Inhabited (Table T) := ⟨⟨fun _ => .zero, fun _ => default⟩⟩

namespace Table

variable {T κ β : Type}

/-- `next_table`: an entry leads to a table if it is valid and not that of a huge page. -/
def nextTable (t : Table T) (index : Index) : Option T :=
  let pteFlags := (t.entries index).flags
  if pteFlags.isValid && !pteFlags.isHuge then some (t.next index) else none

/-- `self[index].set_entry(..)`. -/
def setPte (t : Table T) (index : Index) (e : PageTableEntry) : Table T :=
  { t with entries := Function.update t.entries index e }

/-- The table after a borrower of the next table is done with it. -/
def setNext (t : Table T) (index : Index) (c : T) : Table T :=
  { t with next := Function.update t.next index c }

/-- `next_table_mut`. -/
def nextTableMut (t : Table T) (index : Index) (k : T → Option (β × T)) : Option (β × Table T) :=
  match t.nextTable index with
  | none => none
  | some c => (k c).map fun r => (r.1, t.setNext index r.2)

/-- `next_table_create`: where there is no next table, a new one is made of a fresh frame, which
the table then owns. Without a free frame the call panics. -/
def nextTableCreate [Inhabited T] (t : Table T) (index : Index) (flags : PteFlags)
    (supply : FrameSupply) (k : T → FrameSupply → Outcome String β × T × FrameSupply) :
    Outcome String β × Table T × FrameSupply :=
  match t.nextTable index with
  | some c =>
    let r := k c supply
    (r.1, t.setNext index r.2.1, r.2.2)
  | none =>
    if (t.entries index).flags.isHuge then (.panic, t, supply)
    else
      match supply.allocateFrame with
      | (none, supply) => (.panic, t, supply)
      | (some af, supply) =>
        let t := t.setPte index (.setEntry af ((flags.valid true).writable true))
        match t.nextTable index with
        | none => (.panic, t, supply.dropFrame af)
        | some _ =>
          let r := k default supply
          (r.1, t.setNext index r.2.1, r.2.2)

/-- The entry a path leads to, unused where a table on the way is missing. -/
def entryBy (look : T → κ → PageTableEntry) (t : Table T) : Index × κ → PageTableEntry :=
  fun i => match t.nextTable i.1 with
    | some c => look c i.2
    | none => .zero

theorem nextTable_setNext (t : Table T) (index i : Index) (c : T) :
    (t.setNext index c).nextTable i = if i = index then (t.nextTable i).map fun _ => c
      else t.nextTable i := by
  obtain rfl | h := eq_or_ne i index
  · rw [if_pos rfl, nextTable, nextTable, setNext]
    dsimp only
    rw [update_self]
    split_ifs <;> rfl
  · rw [if_neg h, nextTable, nextTable, setNext]
    dsimp only
    rw [update_of_ne h]

theorem nextTable_setPte_of_ne (t : Table T) {i : Index} (h : i ≠ index) (e : PageTableEntry) :
    (t.setPte index e).nextTable i = t.nextTable i := by
  have hentry : (t.setPte index e).entries i = t.entries i := update_of_ne h _ _
  rw [nextTable, nextTable, hentry, setPte]

/-- Writing one entry of the next table writes one entry of the whole. -/
theorem entryBy_setNext {look : T → κ → PageTableEntry} {t : Table T} {c c' : T}
    (hc : t.nextTable index = some c) :
    entryBy look (t.setNext index c') =
      fun i => if i.1 = index then look c' i.2 else entryBy look t i := by
  funext i
  rw [entryBy, nextTable_setNext]
  split_ifs with h
  · rw [h, hc, Option.map_some]
  · rw [entryBy]

end Table

/-! ### What changes -/

section Writes

variable {κ β : Type} [DecidableEq κ]

/-- A call that writes the value `v` at `i` if it succeeds, and nothing if it does not. -/
def Writes (o : Outcome String β) (e e' : κ → PageTableEntry) (i : κ) (v : PageTableEntry) : Prop :=
  match o with
  | .ok _ => e' = Function.update e i v
  | _ => e' = e

theorem Writes.congr {κ' : Type} [DecidableEq κ'] {e e' : κ → PageTableEntry}
    {g g' : κ' → PageTableEntry} {i : κ} {i' : κ'} (h : Writes o e e' i v)
    (hsame : e' = e → g' = g) (hnew : e' = update e i v → g' = update g i' v) :
    Writes o g g' i' v := by
  cases o with
  | ok b => exact hnew h
  | err m | panic => exact hsame h

end Writes

namespace Table

variable {T κ β : Type} [DecidableEq κ]

variable {look : T → κ → PageTableEntry} {t : Table T} {i : κ} {k : T → Option (β × T)}

/-- An update of the next table, seen from the table above. -/
theorem entryBy_setNext_update {c c' : T} (hc : t.nextTable index = some c)
    (h : look c' = update (look c) i v) :
    entryBy look (t.setNext index c') = update (entryBy look t) (index, i) v := by
  rw [entryBy_setNext hc]
  funext j
  split_ifs with hj
  · rw [h]
    by_cases hi : j.2 = i
    · have hji : j = (index, i) := Prod.ext hj hi
      rw [hji, update_self, update_self]
    · rw [update_of_ne hi, update_of_ne (fun he => hi (by rw [he])), entryBy, hj,
        hc]
  · rw [update_of_ne (fun he => hj (by rw [he]))]

omit [DecidableEq κ] in
theorem entryBy_setNext_same {look : T → κ → PageTableEntry} {t : Table T} {index : Index}
    {c c' : T} (hc : t.nextTable index = some c) (h : look c' = look c) :
    entryBy look (t.setNext index c') = entryBy look t := by
  rw [entryBy_setNext hc]
  funext j
  by_cases hj : j.1 = index
  · rw [if_pos hj, h, entryBy, hj, hc]
  · rw [if_neg hj]

theorem setNext_writes {c c' : T} (hc : t.nextTable index = some c)
    (h : Writes o (look c) (look c') i v) :
    Writes o (entryBy look t) (entryBy look (t.setNext index c')) (index, i) v :=
  h.congr (entryBy_setNext_same hc) (entryBy_setNext_update hc)

omit [DecidableEq κ] in
/-- An entry that led nowhere gets a new table: no entry below changes. -/
theorem entryBy_setPte (hnone : t.nextTable index = none) (e : PageTableEntry) {c : T}
    (hzero : look c = fun _ => .zero) :
    entryBy look ((t.setPte index e).setNext index c) = entryBy look t := by
  funext j
  rw [entryBy, nextTable_setNext]
  split_ifs with hj
  · rw [hj, entryBy, hj, hnone]
    cases nextTable _ index with
    | none => rfl
    | some _ => exact congrFun hzero j.2
  · rw [nextTable_setPte_of_ne t hj, entryBy]

/-- What `next_table_create` and its borrower do below a table. -/
theorem nextTableCreate_writes [Inhabited T] (t : Table T) (index : Index) (flags : PteFlags)
    (supply : FrameSupply) (k : T → FrameSupply → Outcome String β × T × FrameSupply)
    (hzero : look default = fun _ => .zero)
    (hk : ∀ c s, Writes (k c s).1 (look c) (look (k c s).2.1) i v) :
    Writes (t.nextTableCreate index flags supply k).1 (entryBy look t)
      (entryBy look (t.nextTableCreate index flags supply k).2.1) (index, i) v := by
  rw [nextTableCreate]
  cases hc : t.nextTable index with
  | some c => exact setNext_writes hc (hk c supply)
  | none => ?_
  split_ifs with hhuge
  · exact rfl
  rcases halloc : supply.allocateFrame with ⟨_ | af, supply'⟩
  · exact rfl
  dsimp only
  -- from here on the entry leads somewhere, or the call panics
  set t' := t.setPte index (.setEntry af ((flags.valid true).writable true)) with ht'
  cases hc' : t'.nextTable index with
  | none =>
    show entryBy look t' = entryBy look t
    funext j
    by_cases hj : j.1 = index
    · rw [entryBy, entryBy, hj, hc, hc']
    · rw [entryBy, entryBy, nextTable_setPte_of_ne t hj]
  | some c =>
    have hnew : (t'.setNext index default).nextTable index = some default := by
      rw [nextTable_setNext, if_pos rfl, hc', Option.map_some]
    have hbase : entryBy look (t'.setNext index default) = entryBy look t :=
      entryBy_setPte hc _ hzero
    have htwice : t'.setNext index (k default supply').2.1 =
        (t'.setNext index default).setNext index (k default supply').2.1 := by
      rw [setNext, setNext, setNext, update_idem]
    rw [htwice, ← hbase]
    exact setNext_writes hnew (hk default supply')

omit [DecidableEq κ] in
/-- What the borrower of the next table needs to succeed is so of the entry on the way: a table that
is only now made has no entries in use. -/
theorem nextTableCreate_ok [Inhabited T] {flags : PteFlags} {supply : FrameSupply}
    {k : T → FrameSupply → Outcome String β × T × FrameSupply} {b : β} (P : PageTableEntry → Prop)
    (hP : P .zero) (hk : ∀ c s, (k c s).1 = .ok b → P (look c i))
    (h : (t.nextTableCreate index flags supply k).1 = .ok b) : P (entryBy look t (index, i)) := by
  rw [nextTableCreate] at h
  rw [entryBy]
  cases hc : t.nextTable index with
  | some c =>
    rw [hc] at h
    exact hk c supply h
  | none => exact hP

omit [DecidableEq κ] in
theorem nextTableMut_eq_some {b : β} {t' : Table T} (h : t.nextTableMut index k = some (b, t')) :
    ∃ c c', t.nextTable index = some c ∧ k c = some (b, c') ∧ t' = t.setNext index c' := by
  rw [nextTableMut] at h
  rcases hc : t.nextTable index with _ | c <;> rw [hc] at h
  · cases h
  obtain ⟨⟨b', c'⟩, hk, heq⟩ := Option.map_eq_some_iff.mp h
  cases heq
  exact ⟨c, c', rfl, hk, rfl⟩

/-- On the way to an entry in use there is always a next table, and the borrower of it writes
below the table. -/
theorem nextTableMut_of_used {g : PageTableEntry → β} {v : PageTableEntry → PageTableEntry}
    (hk : ∀ c, (look c i).isUnused = false → ∃ c', k c = some (g (look c i), c') ∧
      look c' = update (look c) i (v (look c i)))
    (hused : (entryBy look t (index, i)).isUnused = false) :
    ∃ t', t.nextTableMut index k = some (g (entryBy look t (index, i)), t') ∧
      entryBy look t' =
        update (entryBy look t) (index, i) (v (entryBy look t (index, i))) := by
  cases hc : t.nextTable index with
  | none =>
    rw [entryBy, hc] at hused
    exact absurd (show PageTableEntry.zero.isUnused = false from hused) (by decide)
  | some c => ?_
  have hentry : entryBy look t (index, i) = look c i := by rw [entryBy, hc]
  rw [hentry] at hused ⊢
  obtain ⟨c', hkc, hlook⟩ := hk c hused
  refine ⟨t.setNext index c', ?_, entryBy_setNext_update hc hlook⟩
  rw [nextTableMut, hc]
  dsimp only
  rw [hkc, Option.map_some]

/-- A zeroed table leads nowhere. -/
theorem nextTable_default [Inhabited T] (i : Index) : (default : Table T).nextTable i = none :=
  if_neg (show ¬ (PageTableEntry.zero.flags.isValid && !PageTableEntry.zero.flags.isHuge) = true by
    decide)

omit [DecidableEq κ] in
/-- In a zeroed table every entry is unused. -/
theorem entryBy_default [Inhabited T] (look : T → κ → PageTableEntry) :
    entryBy look (default : Table T) = fun _ => .zero := by
  funext i
  rw [entryBy, nextTable_default]

/-- The supply of frames only shrinks while a table is made. -/
theorem nextTableCreate_free [Inhabited T] (t : Table T) (index : Index) (flags : PteFlags)
    (supply : FrameSupply) (k : T → FrameSupply → Outcome String β × T × FrameSupply)
    (hk : ∀ c s, (k c s).2.2.free ⊆ s.free) :
    (t.nextTableCreate index flags supply k).2.2.free ⊆ supply.free := by
  rw [nextTableCreate]
  cases t.nextTable index with
  | some c => exact hk c supply
  | none => ?_
  by_cases hhuge : (t.entries index).flags.isHuge = true
  · rw [if_pos hhuge]
  rw [if_neg hhuge]
  rcases halloc : supply.allocateFrame with ⟨_ | af, supply'⟩
  · exact (FrameSupply.allocateFrame_none halloc).subset
  obtain ⟨haf, hfree⟩ := FrameSupply.allocateFrame_some halloc
  dsimp only
  cases nextTable _ index with
  | none =>
    show insert af supply'.free ⊆ supply.free
    rw [hfree, Finset.insert_erase haf]
  | some c =>
    refine (hk default supply').trans ?_
    rw [hfree]
    exact Finset.erase_subset af supply.free

end Table

end Maios.Paging
