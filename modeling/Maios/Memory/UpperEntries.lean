import Maios.Memory.MappedPages

/-!
# The entries of the upper levels

The mapper writes entries of the three upper levels only where it makes a table, and the flags of
these have the bit for huge pages cleared. So whatever holds of every entry without that bit, and of
the entries of the upper levels at the start, holds of them for good (`P4.Upper`).

## Main results

* `mapPage_upper`, `withP1_upper`: the two ways in which the mapper writes to the page table.
-/

namespace Maios.Paging

open Option PageTableEntry PteFlags

/-- The entries of a table satisfy `ok`, and the tables that they lead to satisfy `below`. -/
def Table.Upper {T : Type} (ok : PageTableEntry → Prop) (below : T → Prop) (t : Table T) : Prop :=
  ∀ i, ok (t.entries i) ∧ ∀ c, t.nextTable i = some c → below c

/-- The entries of the three upper levels satisfy `ok`. -/
def P4.Upper (ok : PageTableEntry → Prop) : P4 → Prop :=
  Table.Upper ok (Table.Upper ok (Table.Upper ok fun _ : P1 => True))

/-- The twelve lowest bits of an entry are flags only, whatever the frame. -/
theorem PageTableEntry.contains_setEntry (frame : ℕ) (f : PteFlags) {flag : PteFlag}
    (hlow : flag.bit < 12) : (setEntry frame f).flags.contains flag = f.contains flag := by
  have haddr : (BitVec.ofNat 64 (frame * pageSize)).getLsbD flag.bit = false := by
    have hbit : (frame * pageSize).testBit flag.bit =
        (decide (12 ≤ flag.bit) && frame.testBit (flag.bit - 12)) :=
      Nat.testBit_mul_two_pow frame flag.bit 12
    rw [BitVec.getLsbD_ofNat, hbit, decide_eq_false (show ¬ 12 ≤ flag.bit by omega),
      Bool.false_and, Bool.and_false]
  have hmask : pteFrameMask.getLsbD flag.bit = false := by
    rw [pteFrameMask_getLsbD, decide_eq_false (by omega), Bool.false_and]
  rw [flags, setEntry, fromBitsTruncate]
  simp only [BitVec.getLsbD_and, BitVec.getLsbD_or, BitVec.getLsbD_not, haddr, hmask,
    flag.bit_mem_allFlags, contains, Bool.false_or, Bool.not_false, Bool.and_true]
  rw [decide_eq_true (by omega : flag.bit < 64), Bool.and_true]

theorem PteFlags.isHuge_adjustForHigherLevelPte (f : PteFlags) :
    ((f.adjustForHigherLevelPte.valid true).writable true).isHuge = false := by
  simp [isHuge, writable, valid, adjustForHigherLevelPte, patIndex, contains_set]

/-- The entry that `next_table_create` writes has the flags it is given. -/
theorem Table.nextTable_setPte_self {T : Type} (t : Table T) (index : Index) (frame : ℕ)
    {f : PteFlags} (hvalid : f.isValid = true) (hclear : f.isHuge = false) :
    (t.setPte index (setEntry frame f)).nextTable index = some (t.next index) := by
  have hentry : (t.setPte index (setEntry frame f)).entries index = setEntry frame f :=
    Function.update_self _ _ _
  rw [nextTable, hentry, isValid, contains_setEntry _ _ (by decide), isHuge,
    contains_setEntry _ _ (by decide)]
  exact if_pos (by rw [← isValid, hvalid, ← isHuge, hclear]; rfl)

theorem PteFlags.isValid_higher (f : PteFlags) : ((f.valid true).writable true).isValid = true := by
  rw [isValid, writable, contains_set]
  exact isValid_valid f true

section Upper

/- What holds of every entry without the bit for huge pages stays true of the entries of the upper
levels, whatever the mapper does. -/
variable {ok : PageTableEntry → Prop} (hok : ∀ e : PageTableEntry, e.flags.isHuge = false → ok e)

namespace Table

variable {T β : Type} {below : T → Prop} {t : Table T} {index : Index}

include hok in
theorem upper_default [Inhabited T] : (default : Table T).Upper ok below := by
  intro i
  refine ⟨hok zero (by decide), fun c hc => ?_⟩
  rw [nextTable_default] at hc
  cases hc

variable (h : t.Upper ok below)

include h

theorem Upper.setNext {c : T} (hc : below c) : (t.setNext index c).Upper ok below := by
  refine fun i => ⟨(h i).1, fun c' hc' => ?_⟩
  rw [nextTable_setNext] at hc'
  split_ifs at hc' with hi
  · rw [map_eq_some_iff] at hc'
    obtain ⟨-, -, rfl⟩ := hc'
    exact hc
  · exact (h i).2 c' hc'

/-- A new entry, and the table that it leads to. -/
theorem Upper.setPte {e : PageTableEntry} (he : ok e) {c : T} (hc : below c) :
    ((t.setPte index e).setNext index c).Upper ok below := by
  intro i
  obtain rfl | hi := eq_or_ne i index
  · have hentry : ((t.setPte i e).setNext i c).entries i = e := by
      simp [Table.setPte, Table.setNext]
    refine ⟨by rw [hentry]; exact he, fun c' hc' => ?_⟩
    rw [nextTable_setNext, if_pos rfl, map_eq_some_iff] at hc'
    obtain ⟨-, -, rfl⟩ := hc'
    exact hc
  · have hentry : ((t.setPte index e).setNext index c).entries i = t.entries i := by
      simp [Table.setPte, Table.setNext, hi]
    refine ⟨by rw [hentry]; exact (h i).1, fun c' hc' => ?_⟩
    rw [nextTable_setNext, if_neg hi, nextTable_setPte_of_ne t hi] at hc'
    exact (h i).2 c' hc'

include hok in
/-- Making tables on demand, with flags that have no bit for huge pages. -/
theorem Upper.nextTableCreate [Inhabited T] {flags : PteFlags}
    (hflags : ((flags.valid true).writable true).isHuge = false) (supply : FrameSupply)
    {k : T → FrameSupply → Outcome String β × T × FrameSupply} (hdefault : below default)
    (hk : ∀ c s, below c → below (k c s).2.1) :
    (t.nextTableCreate index flags supply k).2.1.Upper ok below := by
  rw [Table.nextTableCreate]
  cases hc : t.nextTable index with
  | some c => exact h.setNext (hk c supply ((h index).2 c hc))
  | none => ?_
  split_ifs with hhuge
  · exact h
  rcases supply.allocateFrame with ⟨_ | af, supply'⟩
  · exact h
  dsimp only
  rw [nextTable_setPte_self t index af (isValid_higher flags) hflags]
  refine h.setPte (hok _ ?_) (hk default supply' hdefault)
  rw [isHuge, contains_setEntry _ _ (by decide)]
  exact hflags

/-- Writing below a table that exists. -/
theorem Upper.nextTableMut {k : T → Option (β × T)} {b : β} {t' : Table T}
    (hk : ∀ c b c', below c → k c = some (b, c') → below c')
    (hmut : t.nextTableMut index k = some (b, t')) : t'.Upper ok below := by
  obtain ⟨c, c', hc, hkc, rfl⟩ := nextTableMut_eq_some hmut
  exact h.setNext (hk c b c' ((h index).2 c hc) hkc)

end Table

variable {p4 p4' : P4} (h : P4.Upper ok p4)

include h

include hok in
/-- Mapping a page, whether or not it succeeds. -/
theorem mapPage_upper {page frame : ℕ} {flags flags' : PteFlags} {inUse : String}
    {supply supply' : FrameSupply} {o : Outcome String Unit}
    (hr : mapPage p4 page frame flags.adjustForHigherLevelPte flags' inUse supply =
      (o, p4', supply')) : P4.Upper ok p4' := by
  have hflags := isHuge_adjustForHigherLevelPte flags
  obtain rfl := congrArg (·.2.1) hr
  refine Table.Upper.nextTableCreate hok h hflags _ (Table.upper_default hok) fun p3 s h3 => ?_
  refine h3.nextTableCreate hok hflags _ (Table.upper_default hok) fun p2 s h2 => ?_
  exact h2.nextTableCreate hok hflags _ trivial fun _ _ _ => trivial

/-- Writing an entry of the lowest level. -/
theorem withP1_upper {β : Type} {page : ℕ} {k : P1 → β × P1} {b : β}
    (hwith : P4.withP1 p4 page k = some (b, p4')) : P4.Upper ok p4' := by
  refine Table.Upper.nextTableMut h (fun p3 b p3' h3 hp3 => ?_) hwith
  refine h3.nextTableMut (fun p2 b p2' h2 hp2 => ?_) hp3
  exact h2.nextTableMut (fun _ _ _ _ _ => trivial) hp2

end Upper

end Maios.Paging
