import Mathlib.Algebra.Ring.Nat
import Mathlib.Data.Nat.Bitwise
import Mathlib.Logic.Function.Basic
import Mathlib.Order.Basic
import Mathlib.Tactic.Common

/-!
# Object pages

`slabmalloc/src/pages.rs`: a slab is a page of 8 KiB with room for blocks of one size at its
beginning and a bitmap of the blocks in use at its end. The bitmap has 512 bits in eight words; bits
for which there is no room are set for good.

`first_fit` looks at the first free block of each word only, and takes it if it is aligned as the
layout asks.
-/

namespace Maios.Slab

open List BitVec Nat

/-- `ObjectPage8k::SIZE`. -/
def objectPageSize : ℕ := 8192

/-- `ObjectPage8k::METADATA_SIZE`: 40 bytes for the mapped pages, 8 for the heap id, 16 for the two
links and 64 for the bitmap. -/
def metadataSize : ℕ := 40 + 8 + 16 + 64

/-- `ZoneAllocator::MAX_ALLOC_SIZE`, the size of the data area of a page. -/
def maxAllocSize : ℕ := objectPageSize - metadataSize

/-- A `Layout`: its alignment is a power of two. -/
structure Layout where
  size : ℕ
  align : ℕ
  powerOfTwo : ∃ k, align = 2 ^ k

theorem eight_eq_two_pow : ∃ k, 8 = 2 ^ k := ⟨3, rfl⟩

/-! ### Bitmaps -/

/-- `[AtomicU64; 8]`, by the index of the word. -/
abbrev Bitfield := ℕ → BitVec 64

/-- The number of trailing zeros of a word. -/
def trailingZeros (w : BitVec 64) : ℕ := ((List.range 64).find? fun j => w.getLsbD j).getD 64

namespace Bitfield

def isAllocated (bf : Bitfield) (idx : ℕ) : Bool := (bf (idx / 64)).getLsbD (idx % 64)

def setBit (bf : Bitfield) (idx : ℕ) : Bitfield :=
  Function.update bf (idx / 64) (bf (idx / 64) ||| BitVec.twoPow 64 (idx % 64))

def clearBit (bf : Bitfield) (idx : ℕ) : Bitfield :=
  Function.update bf (idx / 64) (bf (idx / 64) &&& ~~~BitVec.twoPow 64 (idx % 64))

/-- `initialize`: set everything, and clear the bits of the blocks that there is room for. -/
def initialized (forSize capacity : ℕ) : Bitfield :=
  (List.range (min (capacity / forSize) (8 * 64))).foldl clearBit fun _ => BitVec.allOnes 64

/-- The loop of `first_fit`, over the words that are left. -/
def firstFitFrom (bf : Bitfield) (baseAddr : ℕ) (layout : Layout) : List ℕ → Option (ℕ × ℕ)
  | [] => none
  | baseIdx :: rest =>
    let bitval := bf baseIdx
    if bitval = BitVec.allOnes 64 then firstFitFrom bf baseAddr layout rest
    else
      let firstFree := trailingZeros (~~~bitval)
      let idx := baseIdx * 64 + firstFree
      let offset := idx * layout.size
      if offset ≤ objectPageSize - metadataSize - layout.size then
        let addr := baseAddr + offset
        if addr % layout.align = 0 ∧ bitval.getLsbD firstFree = false then some (idx, addr)
        else firstFitFrom bf baseAddr layout rest
      else none

/-- `first_fit`: the index and the address of a free block. -/
def firstFit (bf : Bitfield) (baseAddr : ℕ) (layout : Layout) : Option (ℕ × ℕ) :=
  firstFitFrom bf baseAddr layout (List.range 8)

def isFull (bf : Bitfield) : Bool := (List.range 8).all fun i => bf i == BitVec.allOnes 64

/-- The loop of `all_free`. -/
def allFreeFrom (bf : Bitfield) (relevantBits : ℕ) : List ℕ → Bool
  | [] => true
  | idx :: rest =>
    if idx * 64 ≤ relevantBits ∧ relevantBits < (idx + 1) * 64 then
      ((1#64 <<< (relevantBits - idx * 64)) - 1#64) &&& bf idx == 0#64
    else if bf idx = 0#64 then allFreeFrom bf relevantBits rest
    else false

/-- `all_free`: none of the relevant bits is set. -/
def allFree (bf : Bitfield) (relevantBits : ℕ) : Bool := allFreeFrom bf relevantBits (List.range 8)

/-! ### What the operations do to the bits -/

theorem isAllocated_setBit (bf : Bitfield) (idx i : ℕ) :
    (bf.setBit idx).isAllocated i = (decide (i = idx) || bf.isAllocated i) := by
  rw [isAllocated, setBit]
  by_cases hword : i / 64 = idx / 64
  · rw [hword, Function.update_self, getLsbD_or, getLsbD_twoPow, isAllocated, hword,
      decide_eq_true (mod_lt idx (by decide)), Bool.or_comm]
    congr 1
    exact decide_eq_decide.mpr (by omega)
  · rw [Function.update_of_ne hword, decide_eq_false (fun he => hword (by rw [he])), isAllocated,
      Bool.false_or]

theorem isAllocated_clearBit (bf : Bitfield) (idx i : ℕ) :
    (bf.clearBit idx).isAllocated i = (!decide (i = idx) && bf.isAllocated i) := by
  rw [isAllocated, clearBit]
  by_cases hword : i / 64 = idx / 64
  · rw [hword, Function.update_self, getLsbD_and, getLsbD_not,
      getLsbD_twoPow, isAllocated, hword, decide_eq_true (mod_lt idx (by decide)),
      decide_eq_true (mod_lt i (by decide)), Bool.true_and, Bool.and_comm]
    congr 2
    exact decide_eq_decide.mpr (by omega)
  · rw [Function.update_of_ne hword, decide_eq_false (fun he => hword (by rw [he])), isAllocated,
      Bool.not_false, Bool.true_and]

/-- A new bitmap has free blocks for what there is room for. -/
theorem isAllocated_initialized (forSize capacity i : ℕ) :
    (initialized forSize capacity).isAllocated i =
      decide (min (capacity / forSize) (8 * 64) ≤ i) := by
  rw [initialized]
  generalize min (capacity / forSize) (8 * 64) = n
  induction n with
  | zero =>
    rw [range_zero, foldl_nil, isAllocated, getLsbD_allOnes,
      decide_eq_true (mod_lt i (by decide)), decide_eq_true (zero_le i)]
  | succ n ih =>
    rw [range_succ, foldl_append, foldl_cons, foldl_nil, isAllocated_clearBit,
      ih, ← decide_not, ← Bool.decide_and]
    exact decide_eq_decide.mpr (by omega)

variable {bf : Bitfield} {w : BitVec 64}

/-- A word that is not full has a free bit, which is the one found. -/
theorem trailingZeros_not (hw : w ≠ allOnes 64) :
    trailingZeros (~~~w) < 64 ∧ w.getLsbD (trailingZeros (~~~w)) = false := by
  rw [trailingZeros]
  cases hfind : (range 64).find? fun j => (~~~w).getLsbD j with
  | none =>
    refine absurd (eq_of_getLsbD_eq fun i hi => ?_) hw
    have hbit := find?_eq_none.mp hfind i (mem_range.mpr hi)
    rw [getLsbD_not, decide_eq_true hi] at hbit
    rw [getLsbD_allOnes, decide_eq_true hi]
    simpa using hbit
  | some j =>
    have hbit := find?_some hfind
    have hj := mem_range.mp (mem_of_find?_eq_some hfind)
    rw [getLsbD_not, decide_eq_true hj] at hbit
    exact ⟨hj, by simpa using hbit⟩

/-- The first free bit of a word is the lowest one. -/
theorem trailingZeros_of_getLsbD_zero (hw : w.getLsbD 0 = false) : trailingZeros (~~~w) = 0 := by
  have hbit : (~~~w).getLsbD 0 = true := by
    rw [getLsbD_not, hw]
    rfl
  have hrange : range 64 = 0 :: range' 1 63 := by decide
  rw [trailingZeros, hrange, find?_cons_of_pos hbit, Option.getD_some]

section FirstFit

variable {bf : Bitfield} {baseAddr : ℕ} {layout : Layout}

theorem firstFitFrom_spec {words : List ℕ} (hwords : ∀ i ∈ words, i < 8) {idx addr : ℕ}
    (h : firstFitFrom bf baseAddr layout words = some (idx, addr)) :
    idx < 512 ∧ bf.isAllocated idx = false ∧ addr = baseAddr + idx * layout.size ∧
      addr % layout.align = 0 ∧ idx * layout.size ≤ maxAllocSize - layout.size := by
  induction words with
  | nil => cases h
  | cons baseIdx rest ih =>
    have hrest := ih (forall_mem_cons.mp hwords).2
    have hlt := hwords baseIdx mem_cons_self
    rw [firstFitFrom] at h
    dsimp only at h
    by_cases hfull : bf baseIdx = allOnes 64
    · rw [if_pos hfull] at h
      exact hrest h
    obtain ⟨hfree, hbit⟩ := trailingZeros_not hfull
    split_ifs at h with hoffset hfit
    · obtain ⟨rfl, rfl⟩ : baseIdx * 64 + trailingZeros (~~~bf baseIdx) = idx ∧
          baseAddr + (baseIdx * 64 + trailingZeros (~~~bf baseIdx)) * layout.size = addr := by
        injection h with h
        exact ⟨congrArg Prod.fst h, congrArg Prod.snd h⟩
      refine ⟨by omega, ?_, rfl, hfit.1, hoffset⟩
      rw [isAllocated, show (baseIdx * 64 + trailingZeros (~~~bf baseIdx)) / 64 = baseIdx by omega,
        show (baseIdx * 64 + trailingZeros (~~~bf baseIdx)) % 64 = trailingZeros (~~~bf baseIdx) by
          omega]
      exact hbit
    · exact hrest h

/-- What `first_fit` finds is a free block inside of the data area, aligned as the layout asks. -/
theorem firstFit_spec {idx addr : ℕ} (h : firstFit bf baseAddr layout = some (idx, addr)) :
    idx < 512 ∧ bf.isAllocated idx = false ∧ addr = baseAddr + idx * layout.size ∧
      addr % layout.align = 0 ∧ idx * layout.size ≤ maxAllocSize - layout.size :=
  firstFitFrom_spec (fun _ hi => mem_range.mp hi) h

/-- The first block of a page is taken if it is free and aligned. -/
theorem firstFit_of_free (hfree : bf.isAllocated 0 = false)
    (halign : baseAddr % layout.align = 0) : firstFit bf baseAddr layout = some (0, baseAddr) := by
  have hbit : (bf 0).getLsbD 0 = false := hfree
  have hfull : bf 0 ≠ allOnes 64 := fun he => by
    rw [he] at hbit
    cases hbit
  have hrange : range 8 = 0 :: range' 1 7 := by decide
  rw [firstFit, hrange, firstFitFrom]
  dsimp only
  rw [if_neg hfull, trailingZeros_of_getLsbD_zero hbit, Nat.zero_mul,
    if_pos (zero_le _), add_zero, if_pos ⟨halign, hbit⟩]

end FirstFit

theorem word_eq_allOnes_iff : w = allOnes 64 ↔ ∀ j < 64, w.getLsbD j = true := by
  constructor
  · rintro rfl j hj
    rw [getLsbD_allOnes, decide_eq_true hj]
  · intro h
    refine eq_of_getLsbD_eq fun j hj => ?_
    rw [h j hj, getLsbD_allOnes, decide_eq_true hj]

theorem isFull_iff : bf.isFull = true ↔ ∀ i < 512, bf.isAllocated i = true := by
  rw [isFull, all_eq_true]
  constructor
  · intro h i hi
    have hword := h (i / 64) (mem_range.mpr (by omega))
    rw [beq_iff_eq, word_eq_allOnes_iff] at hword
    exact hword (i % 64) (mod_lt i (by decide))
  · intro h w hw
    rw [mem_range] at hw
    rw [beq_iff_eq, word_eq_allOnes_iff]
    intro j hj
    have hbit := h (w * 64 + j) (by omega)
    rw [isAllocated, show (w * 64 + j) / 64 = w by omega, show (w * 64 + j) % 64 = j by omega]
      at hbit
    exact hbit

/-- The mask of `all_free` covers the bits below. -/
theorem mask_and_eq_zero_iff {n : ℕ} (hn : n < 64) :
    ((1#64 <<< n) - 1#64) &&& w = 0#64 ↔ ∀ j < n, w.getLsbD j = false := by
  have hmask : ∀ j < 64, ((1#64 <<< n) - 1#64).getLsbD j = decide (j < n) := by
    intro j hj
    have hpow : 2 ^ n < 2 ^ 64 := Nat.pow_lt_pow_right (by decide) hn
    have hpos : 0 < 2 ^ n := Nat.two_pow_pos n
    have hval : ((1#64 <<< n) - 1#64).toNat = 2 ^ n - 1 := by
      rw [toNat_sub, toNat_shiftLeft, toNat_ofNat, one_shiftLeft]
      omega
    rw [getLsbD, hval, testBit_two_pow_sub_one]
  constructor
  · intro h j hj
    have hbit := congrArg (fun x => getLsbD x j) h
    rw [getLsbD_and, hmask j (by omega), decide_eq_true hj,
      getLsbD_zero] at hbit
    exact hbit
  · intro h
    refine eq_of_getLsbD_eq fun j hj => ?_
    rw [getLsbD_and, hmask j hj]
    by_cases hjn : j < n
    · rw [h j hjn, Bool.and_false, getLsbD_zero]
    · rw [decide_eq_false hjn, Bool.false_and, getLsbD_zero]

/-- The loop of `all_free` from the word `n` on. -/
theorem allFreeFrom_iff {k n m : ℕ} (hm : n + m = 8) (hn : n * 64 ≤ k) (hk : k ≤ 512) :
    allFreeFrom bf k (range' n m) = true ↔
      ∀ i, n * 64 ≤ i → i < k → bf.isAllocated i = false := by
  induction m generalizing n with
  | zero =>
    refine ⟨fun _ i hi hik => ?_, fun _ => rfl⟩
    omega
  | succ m ih =>
    rw [range'_succ, allFreeFrom]
    have hbit : ∀ j < 64, bf.isAllocated (n * 64 + j) = (bf n).getLsbD j := by
      intro j hj
      rw [isAllocated, show (n * 64 + j) / 64 = n by omega, show (n * 64 + j) % 64 = j by omega]
    by_cases hlast : k < (n + 1) * 64
    · rw [if_pos ⟨hn, hlast⟩, beq_iff_eq, mask_and_eq_zero_iff (by omega)]
      constructor
      · intro h i hi hik
        have := h (i - n * 64) (by omega)
        rw [← hbit _ (by omega), show n * 64 + (i - n * 64) = i by omega] at this
        exact this
      · intro h j hj
        rw [← hbit j (by omega)]
        exact h (n * 64 + j) (by omega) (by omega)
    · rw [if_neg fun h => hlast h.2]
      have hrest := ih (n := n + 1) (by omega) (by omega)
      by_cases hzero : bf n = 0#64
      · rw [if_pos hzero, hrest]
        constructor <;> intro h i hi hik
        · by_cases hword : i < (n + 1) * 64
          · have := hbit (i - n * 64) (by omega)
            rw [hzero, getLsbD_zero, show n * 64 + (i - n * 64) = i by omega] at this
            exact this
          · exact h i (by omega) hik
        · exact h i (by omega) hik
      · rw [if_neg hzero]
        refine ⟨fun h => absurd h Bool.false_ne_true, fun h => absurd ?_ hzero⟩
        refine eq_of_getLsbD_eq fun j hj => ?_
        rw [getLsbD_zero, ← hbit j hj]
        exact h (n * 64 + j) (by omega) (by omega)

/-- `all_free` says whether all relevant bits are clear. -/
theorem allFree_iff {k : ℕ} (hk : k ≤ 512) :
    bf.allFree k = true ↔ ∀ i < k, bf.isAllocated i = false := by
  rw [allFree, range_eq_range', allFreeFrom_iff rfl (zero_le _) hk]
  exact ⟨fun h i hi => h i (zero_le _) hi, fun h i _ hi => h i hi⟩

end Bitfield

/-- The metadata of an `ObjectPage8k`, its links apart. -/
structure ObjectPage where
  /-- The mapped pages that the page is in, known by their address. -/
  mp : Option ℕ
  heapId : ℕ
  bitfield : Bitfield

end Maios.Slab
