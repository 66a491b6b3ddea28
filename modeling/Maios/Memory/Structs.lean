import Mathlib.Algebra.Ring.Nat
import Mathlib.Order.Basic
import Maios.Library.Cover

/-!
# Pages, frames and ranges of them

The types of the `memory_structs` crate that both memory allocators work with. Pages and frames
come out of one macro, and so do their ranges; here they are *chunks*, known by their number in
units of 4 KiB, and `ChunkRange` is a range of chunks with both bounds included.

Addition on chunk numbers stops at `maxPageNumber` and subtraction stops at zero, so a successor
is not always the next number: at the very top of the address space it is the chunk itself. The
constants are those of `x86_64`.
-/

namespace Maios

/-- The size of a page or frame. -/
inductive PageSize where
  | page4K
  | page2M
  | page1G
  deriving DecidableEq, Repr

/-- `NUM_4K_PAGES`: how many 4 KiB chunks one chunk of this size spans. -/
def PageSize.num4KPages : PageSize → ℕ
  | .page4K => 1
  | .page2M => 512
  | .page1G => 512 * 512

@[simp] theorem PageSize.num4KPages_page4K : PageSize.page4K.num4KPages = 1 := rfl

/-- `PAGE_SIZE`, in bytes. -/
def pageSize : ℕ := 4096

/-- `MAX_VIRTUAL_ADDRESS`, the canonicalised `usize::MAX`. -/
def maxVirtualAddress : ℕ := 2 ^ 64 - 1

/-- `MAX_PAGE_NUMBER`, the largest page number, which is also the largest frame number. -/
def maxPageNumber : ℕ := maxVirtualAddress / pageSize

/-- A virtual or physical address is a `usize`. -/
abbrev Address := UInt64

/-- `containing_address`: the 4 KiB chunk an address lies in. -/
def containingAddress (addr : Address) : ℕ := addr.toNat / pageSize

theorem containingAddress_le (addr : Address) : containingAddress addr ≤ maxPageNumber := by
  have haddr : addr.toNat ≤ maxVirtualAddress := by
    have := addr.toNat_lt
    simp only [maxVirtualAddress]
    omega
  exact Nat.div_le_div_right haddr

/-! ### Saturating arithmetic -/

/-- Adding `k` chunks to a chunk number, stopping at the largest one. -/
def chunkAdd (P : PageSize) (n k : ℕ) : ℕ := min maxPageNumber (n + k * P.num4KPages)

/-- Subtracting `k` chunks from a chunk number, stopping at zero. -/
def chunkSub (P : PageSize) (n k : ℕ) : ℕ := n - k * P.num4KPages

@[simp] theorem chunkAdd_page4K (n k : ℕ) : chunkAdd .page4K n k = min maxPageNumber (n + k) := by
  simp [chunkAdd]

@[simp] theorem chunkSub_page4K (n k : ℕ) : chunkSub .page4K n k = n - k := by
  simp [chunkSub]

/-- `MAX` of a chunk type: the largest chunk number of that size. -/
def maxChunk (P : PageSize) : ℕ :=
  maxVirtualAddress / (P.num4KPages * pageSize) * P.num4KPages

@[simp] theorem maxChunk_page4K : maxChunk .page4K = maxPageNumber := by
  simp [maxChunk, maxPageNumber]

/-- `align_up`, for an alignment that is not zero: the next multiple of `alignment`. -/
def alignUp (n alignment : ℕ) : ℕ :=
  if n % alignment = 0 then n else n + (alignment - n % alignment)

theorem le_alignUp (n alignment : ℕ) : n ≤ alignUp n alignment := by
  rw [alignUp]
  split_ifs
  · exact Nat.le_refl n
  · exact Nat.le_add_right n _

/-! ### Ranges -/

/-- `RangeInclusive` over chunk numbers: the chunks from `start` to `end_`, both included. -/
structure ChunkRange where
  start : ℕ
  end_ : ℕ
  deriving DecidableEq, Repr

namespace ChunkRange

instance : Membership ℕ ChunkRange := ⟨fun r n => r.start ≤ n ∧ n ≤ r.end_⟩

variable {r other : ChunkRange}

theorem mem_iff {n : ℕ} : n ∈ r ↔ r.start ≤ n ∧ n ≤ r.end_ := Iff.rfl

instance (n : ℕ) (r : ChunkRange) : Decidable (n ∈ r) := inferInstanceAs (Decidable (_ ∧ _))

/-- The range that holds nothing, as the source spells it. -/
def empty : ChunkRange := ⟨1, 0⟩

def isEmpty (r : ChunkRange) : Bool := !decide (r.start ≤ r.end_)

/-- `size_in_pages` and `size_in_frames`. -/
def sizeInChunks (P : PageSize) (r : ChunkRange) : ℕ :=
  (r.end_ + 1 * P.num4KPages - r.start) / P.num4KPages

def contains (r : ChunkRange) (n : ℕ) : Bool := decide (n ∈ r)

def containsRange (r other : ChunkRange) : Bool :=
  !other.isEmpty && decide (r.start ≤ other.start) && decide (other.end_ ≤ r.end_)

/-- The chunks two ranges have in common, if there are any. -/
def overlap (r other : ChunkRange) : Option ChunkRange :=
  let starts := max r.start other.start
  let ends := min r.end_ other.end_
  if starts ≤ ends then some ⟨starts, ends⟩ else none

/-- `into_4k_pages` and `into_4k_frames`. -/
def into4K (P : PageSize) (r : ChunkRange) : ChunkRange :=
  ⟨r.start, r.end_ + 1 * P.num4KPages - 1⟩

@[simp] theorem into4K_page4K (r : ChunkRange) : r.into4K .page4K = r := by
  simp [into4K]

@[simp] theorem isEmpty_iff : r.isEmpty = true ↔ r.end_ < r.start := by
  simp [isEmpty]

@[simp] theorem isEmpty_eq_false_iff : r.isEmpty = false ↔ r.start ≤ r.end_ := by
  simp [isEmpty]

theorem sizeInChunks_eq_zero_iff : r.sizeInChunks .page4K = 0 ↔ r.end_ < r.start := by
  simp [sizeInChunks]
  omega

theorem containsRange_iff :
    r.containsRange other = true ↔
      other.start ≤ other.end_ ∧ r.start ≤ other.start ∧ other.end_ ≤ r.end_ := by
  simp [containsRange, and_assoc]

/-- Two ranges overlap when some chunk is in both. -/
theorem overlap_isSome_iff : (r.overlap other).isSome = true ↔ ∃ n, n ∈ r ∧ n ∈ other := by
  simp only [overlap]
  constructor
  · intro h
    split_ifs at h with hle
    · refine ⟨max r.start other.start, ?_, ?_⟩ <;> rw [mem_iff] <;> omega
    · simp at h
  · rintro ⟨n, hr, ho⟩
    rw [mem_iff] at hr ho
    rw [if_pos (by omega)]
    rfl

/-! ### Owners of a chunk -/

theorem cover_eq_zero_of_lt (h : r.end_ < r.start) (n : ℕ) : cover [r] n = 0 := by
  rw [cover_singleton, if_neg]
  rw [mem_iff]
  omega

end ChunkRange

/-- A range of physical frames. -/
abbrev FrameRange := ChunkRange

/-- A range of virtual pages. -/
abbrev PageRange := ChunkRange

end Maios
