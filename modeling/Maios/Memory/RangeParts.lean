import Maios.Memory.FrameAllocator
import Maios.Memory.PageAllocator

/-!
# Converting, splitting and merging ranges

Ranges of chunks of a size, seen through the chunks in them. Converting a range to chunks of 4 KiB
and back keeps what it covers, except for the empty range, whose bounds are not multiples of a large
size; and a range up to the last chunk of 4 KiB is not converted, since the chunk behind it does not
exist. The same chunk is its own successor, so that splitting there looks like splitting behind the
end.

## Main results

* `conversions_exact_iff`, `splits_exact_iff` — when conversions and splits keep what is covered
-/

namespace Maios

open FrameAllocator (Frames MemoryRegionType)

open FrameAllocator.Frames (SplitFrames)

open PageAllocator.AllocatedPages (split merge)

namespace PageSize

def name : PageSize → String
  | page4K => "4KiB"
  | page2M => "2MiB"
  | page1G => "1GiB"

/-- `TryFrom` for a chunk of 4 KiB. -/
def tryFrom (P : PageSize) (n : ℕ) : Except String ℕ :=
  if n % P.num4KPages = 0 then .ok n
  else .error ("Could not convert 4KiB to " ++ P.name ++ " page.")

variable {P : PageSize}

theorem num4KPages_pos : 0 < P.num4KPages := by cases P <;> decide

theorem next_le {a b : ℕ} (ha : P.num4KPages ∣ a) (hb : P.num4KPages ∣ b) (h : a < b) :
    a + P.num4KPages ≤ b := by
  have := Nat.le_of_dvd (Nat.sub_pos_of_lt h) (Nat.dvd_sub hb ha)
  omega

end PageSize

namespace ChunkRange

/-- `TryFrom` for a range of chunks of 4 KiB. -/
def tryFrom (P : PageSize) (p : ChunkRange) : Except String ChunkRange :=
  match P.tryFrom (chunkAdd .page4K p.end_ 1) with
  | .ok alignedUpperBound =>
    match P.tryFrom p.start with
    | .ok start => .ok ⟨start, chunkSub P alignedUpperBound 1⟩
    | .error e => .error e
  | .error _ => .error ("Could not convert 4KiB page range into " ++ P.name ++ " page range.")

end ChunkRange

open ChunkRange

theorem maxPageNumber_eq : maxPageNumber = 2 ^ 52 - 1 := by decide

/-! ### Other sizes -/

/-- The same memory in chunks of 4 KiB. -/
structure SameIn4K (P : PageSize) (r : ChunkRange) : Prop where
  covers : ∀ n, n ∈ r.into4K P ↔ ∃ m ∈ r, P.num4KPages ∣ m ∧ m ≤ n ∧ n < m + P.num4KPages
  size : (r.into4K P).sizeInChunks .page4K = r.sizeInChunks P * P.num4KPages

/-- A conversion that fails only where a bound is in the middle of a chunk. -/
structure ConvertsTo (P : PageSize) (p : ChunkRange) : Prop where
  ok_iff : (∃ q, p.tryFrom P = .ok q) ↔ P.num4KPages ∣ p.start ∧ P.num4KPages ∣ p.end_ + 1
  into4K : ∀ q, p.tryFrom P = .ok q → q.into4K P = p

variable {r : ChunkRange}

theorem sameIn4K {P : PageSize} (hstart : P.num4KPages ∣ r.start) (hend : P.num4KPages ∣ r.end_) :
    SameIn4K P r := by
  refine ⟨fun n => ⟨fun hn => ⟨n / P.num4KPages * P.num4KPages, ?_⟩, ?_⟩, ?_⟩
  all_goals
    cases P <;> simp only [PageSize.num4KPages, mem_iff, into4K, sizeInChunks] at * <;> omega

theorem tryFrom_eq_ok_iff {P : PageSize} {p q : ChunkRange} :
    p.tryFrom P = .ok q ↔ P.num4KPages ∣ min maxPageNumber (p.end_ + 1) ∧ P.num4KPages ∣ p.start ∧
      q = ⟨p.start, min maxPageNumber (p.end_ + 1) - P.num4KPages⟩ := by
  simp only [tryFrom, PageSize.tryFrom, ← Nat.dvd_iff_mod_eq_zero, chunkSub]
  by_cases hend : P.num4KPages ∣ min maxPageNumber (p.end_ + 1) <;>
    by_cases hstart : P.num4KPages ∣ p.start <;> simp [hend, hstart, eq_comm]

/-- **Ranges keep their memory in another size exactly if they are not the empty one**, and ranges
of 4 KiB are converted as they should be exactly if they do not reach from a large chunk to the last
one. -/
theorem conversions_exact_iff (P : PageSize) (hP : P ≠ .page4K) (r p : ChunkRange)
    (hr : r = .empty ∨ P.num4KPages ∣ r.start ∧ P.num4KPages ∣ r.end_)
    (hp : p.start ≤ p.end_ ∧ p.end_ ≤ maxPageNumber) :
    (SameIn4K P r ↔ r ≠ .empty) ∧
      (ConvertsTo P p ↔ ¬ (p.end_ = maxPageNumber ∧ P.num4KPages ∣ p.start)) := by
  have hmax := maxPageNumber_eq
  obtain ⟨start, end_⟩ := p
  refine ⟨⟨?_, fun hempty => ?_⟩, fun h => ?_, fun h => ⟨?_, fun q hq => ?_⟩⟩
  · rintro h rfl
    obtain ⟨m, hm, -⟩ := (h.covers 1).mp (by cases P <;> first | exact absurd rfl hP | decide)
    simp only [mem_iff, empty] at hm
    omega
  · obtain ⟨hstart, hend⟩ := hr.resolve_left hempty
    exact sameIn4K hstart hend
  · rintro ⟨hend, hstart⟩
    have hok := h.ok_iff
    simp only [tryFrom_eq_ok_iff]
      at hok hend
    cases P <;> simp only [PageSize.num4KPages, ne_eq, not_true_eq_false] at * <;> omega
  · simp only [tryFrom_eq_ok_iff, exists_and_left, exists_eq, and_true]
    cases P <;> simp only [PageSize.num4KPages] at * <;> omega
  · obtain ⟨hend, hstart, rfl⟩ := tryFrom_eq_ok_iff.mp hq
    cases P <;> simp only [PageSize.num4KPages, into4K, mk.injEq, true_and] at * <;> omega

theorem conversions_exact_2M : SameIn4K .page2M ⟨512, 1024⟩ ∧ ConvertsTo .page2M ⟨512, 1535⟩ := by
  have h := conversions_exact_iff .page2M (by decide) ⟨512, 1024⟩ ⟨512, 1535⟩ (.inr (by decide))
    (by decide)
  exact ⟨h.1.mpr (by decide), h.2.mpr (by decide)⟩

/-- The empty range of chunks of 2 MiB becomes the chunks 1 to 511, and the last 512 chunks of 4 KiB
are refused. -/
theorem conversions_inexact :
    ¬ SameIn4K .page2M .empty ∧ ¬ ConvertsTo .page2M ⟨2 ^ 52 - 512, 2 ^ 52 - 1⟩ := by
  constructor
  · intro h
    obtain ⟨m, hm, -⟩ := (h.covers 1).mp (by decide)
    exact absurd (hm.1.trans hm.2) (by decide)
  · intro h
    obtain ⟨q, hq⟩ := h.ok_iff.mpr (by decide)
    exact absurd (tryFrom_eq_ok_iff.mp hq).1 (by decide)

/-! ### Splitting and merging -/

section

variable {α : Type} (P : PageSize) (merge : α → α → Option α) (range : α → ChunkRange) (s : α)
  (c : ℕ) (result : Option (α × α))

/-- What is below a chunk, and what is from it on. -/
structure Partitions : Prop where
  isSome_iff : result.isSome = true ↔ (range s).start ≤ c ∧ c ≤ (range s).end_ + P.num4KPages
  first : ∀ parts ∈ result, ∀ n, P.num4KPages ∣ n → (n ∈ range parts.1 ↔ n ∈ range s ∧ n < c)
  second : ∀ parts ∈ result, ∀ n, P.num4KPages ∣ n → (n ∈ range parts.2 ↔ n ∈ range s ∧ c ≤ n)

def MergesBack : Prop := ∀ parts ∈ result, merge parts.1 parts.2 = some s

theorem mergesBack_some {a b : α} : MergesBack merge s (some (a, b)) ↔ merge a b = some s := by
  simp [MergesBack]

theorem mergesBack_none : MergesBack merge s none := nofun

end

/-- The chunk is the last one and so is the end of the range: it is also what follows that end. -/
def AtTop (s : ChunkRange) (c : ℕ) : Prop := c = maxPageNumber ∧ s.end_ = c ∧ s.start < c

/-- The parts that are there, merged from left to right. -/
def mergeParts (P : PageSize) (parts : SplitFrames) : Option Frames :=
  (parts.beforeStart.elim (some parts.startToEnd) fun b => b.merge P parts.startToEnd).bind
    fun f => parts.afterEnd.elim (some f) fun a => f.merge P a

/-- What is before, in and after a range. -/
structure Extracts (P : PageSize) (f : Frames) (r : ChunkRange) (result : Option SplitFrames) :
    Prop where
  isSome_iff : result.isSome = true ↔
    r.start ≤ r.end_ ∧ f.range.start ≤ r.start ∧ r.end_ ≤ f.range.end_
  before : ∀ parts ∈ result, ∀ n, P.num4KPages ∣ n →
    ((∃ b ∈ parts.beforeStart, n ∈ b) ↔ n ∈ f ∧ n < r.start)
  inside : ∀ parts ∈ result, parts.startToEnd.range = r
  after : ∀ parts ∈ result, ∀ n, P.num4KPages ∣ n →
    ((∃ a ∈ parts.afterEnd, n ∈ a) ↔ n ∈ f ∧ r.end_ < n)
  merged : ∀ parts ∈ result, mergeParts P parts = some f

section

variable {P : PageSize} {s : ChunkRange} {c : ℕ} {typ : MemoryRegionType}

theorem merge_eq_some_iff {a b m : ChunkRange} :
    merge P a b = some m ↔ b.start = chunkAdd P a.end_ 1 ∧ ⟨a.start, b.end_⟩ = m := by
  simp [merge]

theorem framesMerge_of_isEmpty {f g : Frames}
    (h : f.range.isEmpty = true ∨ g.range.isEmpty = true) : f.merge P g = none := by
  rw [Frames.merge, if_pos (by simpa using h)]

theorem framesMerge_adjacent {x w y z : ℕ} (hxw : x ≤ w) (hy : w + P.num4KPages = y) (hyz : y ≤ z)
    (hmax : z ≤ maxPageNumber) : Frames.merge P ⟨typ, x, w⟩ ⟨typ, y, z⟩ = some ⟨typ, x, z⟩ := by
  have hpos := PageSize.num4KPages_pos (P := P)
  have h : x ≠ chunkAdd P z 1 ∧ chunkAdd P w 1 = y := by
    simp only [chunkAdd]
    omega
  simp [Frames.merge, h, hyz, hxw]

theorem splitAt_eq (hne : s.start ≤ s.end_) : Frames.splitAt P ⟨typ, s⟩ c =
    (split P s c).map fun p => (⟨typ, p.1⟩, ⟨typ, p.2⟩) := by
  simp only [Frames.splitAt, split, isEmpty_eq_false_iff.mpr hne, Bool.false_eq_true, if_false]

variable (hs : s.start ≤ s.end_ ∧ s.end_ ≤ maxPageNumber)
  (hdvd : P.num4KPages ∣ s.start ∧ P.num4KPages ∣ s.end_)
  (hc : c ≤ maxPageNumber ∧ P.num4KPages ∣ c)

include hs hdvd hc

theorem split_cases :
    (c = s.start ∧ split P s c = some (.empty, s)) ∨
      ((c = s.end_ + P.num4KPages ∨ AtTop s c) ∧ split P s c = some (s, .empty)) ∨
      (s.start < c ∧ c ≤ s.end_ ∧ ¬ AtTop s c ∧
        split P s c = some (⟨s.start, c - P.num4KPages⟩, ⟨c, s.end_⟩)) ∨
      ((c < s.start ∨ s.end_ + P.num4KPages < c) ∧ split P s c = none) := by
  rw [split, chunkAdd, chunkSub, AtTop]
  split_ifs with h₁ h₂ h₃
  · obtain ⟨rfl, -⟩ := h₁
    exact .inl ⟨rfl, rfl⟩
  · refine .inr (.inl ⟨?_, rfl⟩)
    cases P <;> simp only [PageSize.num4KPages] at * <;> omega
  · refine .inr (.inr (.inl ⟨h₃.1, ?_, ?_, by rw [one_mul]⟩)) <;>
      cases P <;> simp only [PageSize.num4KPages] at * <;> omega
  · refine .inr (.inr (.inr ⟨?_, rfl⟩))
    cases P <;> simp only [PageSize.num4KPages] at * <;> omega

theorem partitions_iff {α : Type} {range : α → ChunkRange} {f : ChunkRange → α}
    (hf : ∀ r, range (f r) = r) :
    Partitions P range (f s) c ((split P s c).map fun p => (f p.1, f p.2)) ↔ ¬ AtTop s c := by
  constructor
  · rintro ⟨-, -, hsecond⟩ htop
    have hlt := htop.2
    obtain ⟨h, -⟩ | ⟨-, heq⟩ | ⟨-, -, h, -⟩ | ⟨h, -⟩ := split_cases hs hdvd hc
    · exact hlt.2.ne' h
    · have hmem := (hsecond _ (by rw [heq]; rfl) c hc.2).mpr
      simp only [hf, mem_iff, empty] at hmem
      omega
    · exact h htop
    · omega
  · intro htop
    obtain ⟨h, heq⟩ | ⟨h, heq⟩ | ⟨h, h', -, heq⟩ | ⟨h, heq⟩ := split_cases hs hdvd hc
    on_goal 2 => replace h := h.resolve_right htop
    all_goals
      refine ⟨?_, ?_, ?_⟩ <;> simp [heq, hf, mem_iff, empty] <;>
        cases P <;> simp only [PageSize.num4KPages] at * <;> omega

theorem mergesBack_split_iff : MergesBack (merge P) s (split P s c) ↔
      ¬ AtTop s c ∧ (c = 1 ∨ c ≠ s.start ∧ c ≠ s.end_ + P.num4KPages) := by
  have h := split_cases hs hdvd hc
  obtain ⟨start, end_⟩ := s
  simp only [AtTop] at h ⊢
  obtain ⟨h, heq⟩ | ⟨h, heq⟩ | ⟨h, h', hn, heq⟩ | ⟨h, heq⟩ := h
  all_goals
    simp only [heq, mergesBack_some, mergesBack_none, merge_eq_some_iff, chunkAdd, empty, mk.injEq,
      and_true, true_and, true_iff]
    cases P <;> simp only [PageSize.num4KPages] at * <;> omega

theorem mergesBack_splitAt_iff :
    MergesBack (Frames.merge P) ⟨typ, s⟩ ((split P s c).map fun p => (⟨typ, p.1⟩, ⟨typ, p.2⟩)) ↔
      ¬ AtTop s c ∧ c ≠ s.start ∧ c ≠ s.end_ + P.num4KPages := by
  have hpos := PageSize.num4KPages_pos (P := P)
  obtain ⟨h, heq⟩ | ⟨h, heq⟩ | ⟨h, h', hn, heq⟩ | ⟨h, heq⟩ := split_cases hs hdvd hc <;> rw [heq]
  · rw [Option.map_some, mergesBack_some, framesMerge_of_isEmpty (.inl rfl)]
    simp [h]
  · rw [Option.map_some, mergesBack_some, framesMerge_of_isEmpty (.inr rfl)]
    tauto
  · have hle := PageSize.next_le hdvd.1 hc.2 h
    rw [Option.map_some, mergesBack_some, framesMerge_adjacent (by omega) (by omega) h' hs.2]
    exact iff_of_true rfl ⟨hn, by omega⟩
  · refine iff_of_true (mergesBack_none _ _) ⟨fun htop => ?_, by omega⟩
    have := htop.2
    omega

omit hc

theorem splitRange_of_contains (hin : r.start ≤ r.end_ ∧ s.start ≤ r.start ∧ r.end_ ≤ s.end_)
    (hr : P.num4KPages ∣ r.start ∧ P.num4KPages ∣ r.end_) :
    Frames.splitRange P ⟨typ, s⟩ r = some ⟨
      if r.start = s.start then none else some ⟨typ, s.start, r.start - P.num4KPages⟩, ⟨typ, r⟩,
      if r.end_ = s.end_ then none else some ⟨typ, r.end_ + P.num4KPages, s.end_⟩⟩ := by
  have hfirst : (r.start = 0 ∨ r.start = s.start) = (r.start = s.start) := by
    rw [eq_iff_iff]
    omega
  have hafter : (r.end_ = maxChunk P ∨ r.end_ = s.end_) = (r.end_ = s.end_) := by
    have := maxPageNumber_eq
    have : maxChunk P = 2 ^ 52 - P.num4KPages := by cases P <;> decide
    rw [eq_iff_iff]
    cases P <;> simp only [PageSize.num4KPages] at * <;> omega
  have hadd : r.end_ ≠ s.end_ → chunkAdd P r.end_ 1 = r.end_ + P.num4KPages := by
    intro hne
    have := PageSize.next_le hr.2 hdvd.2 (hin.2.2.lt_of_ne hne)
    rw [chunkAdd]
    omega
  rw [Frames.splitRange, if_pos (containsRange_iff.mpr hin)]
  simp only [hfirst, hafter, chunkSub]
  split_ifs with h₁ h₂ h₂ <;> simp [*]

theorem extracts_splitRange
    (hr : r.start ≤ r.end_ → P.num4KPages ∣ r.start ∧ P.num4KPages ∣ r.end_) :
    Extracts P ⟨typ, s⟩ r (Frames.splitRange P ⟨typ, s⟩ r) := by
  by_cases hin : r.start ≤ r.end_ ∧ s.start ≤ r.start ∧ r.end_ ≤ s.end_
  · rw [splitRange_of_contains hs hdvd hin (hr hin.1)]
    obtain ⟨start, end_⟩ := s
    obtain ⟨first, last⟩ := r
    have hr := hr hin.1
    refine ⟨by simpa using hin, ?_, by simp, ?_, ?_⟩
    · simp only [Frames.mem_def]
      split_ifs <;> simp [mem_iff] <;>
        cases P <;> simp only [PageSize.num4KPages] at * <;> omega
    · simp only [Frames.mem_def]
      split_ifs <;> simp [mem_iff] <;>
        cases P <;> simp only [PageSize.num4KPages] at * <;> omega
    · have hleft : first ≠ start →
          Frames.merge P ⟨typ, start, first - P.num4KPages⟩ ⟨typ, first, last⟩ =
            some ⟨typ, start, last⟩ := fun h => by
        have hle := PageSize.next_le hdvd.1 hr.1 (hin.2.1.lt_of_ne' h)
        simp only at hle
        exact framesMerge_adjacent (by omega) (by omega) hin.1 (hin.2.2.trans hs.2)
      have hright : last ≠ end_ →
          Frames.merge P ⟨typ, start, last⟩ ⟨typ, last + P.num4KPages, end_⟩ =
            some ⟨typ, start, end_⟩ := fun h =>
        framesMerge_adjacent (hin.2.1.trans hin.1) rfl
          (PageSize.next_le hr.2 hdvd.2 (hin.2.2.lt_of_ne h)) hs.2
      simp only [mergeParts]
      split_ifs with h₁ h₂ h₂ <;> simp_all
  · have hnone : Frames.splitRange P ⟨typ, s⟩ r = none := by
      rw [Frames.splitRange, if_neg (mt containsRange_iff.mp hin)]
    rw [hnone]
    exact ⟨by simpa using hin, by simp, by simp, by simp, by simp⟩

end

/-- **A range is split as it should be exactly if this is not at the last chunk of a range up to
there**, and the parts of frames are merged back exactly if moreover neither is empty; of pages,
also if the empty part is next to page 1. Cutting a range out of the frames is always right. -/
theorem splits_exact_iff (P : PageSize) (typ : MemoryRegionType) (s r : ChunkRange) (c : ℕ)
    (hs : s.start ≤ s.end_ ∧ s.end_ ≤ maxPageNumber)
    (hdvd : P.num4KPages ∣ s.start ∧ P.num4KPages ∣ s.end_)
    (hc : c ≤ maxPageNumber ∧ P.num4KPages ∣ c)
    (hr : r.start ≤ r.end_ → P.num4KPages ∣ r.start ∧ P.num4KPages ∣ r.end_) :
    ((Partitions P id s c (split P s c) ↔ ¬ AtTop s c) ∧
      (MergesBack (merge P) s (split P s c) ↔
        ¬ AtTop s c ∧ (c = 1 ∨ c ≠ s.start ∧ c ≠ s.end_ + P.num4KPages))) ∧
    ((Partitions P Frames.range ⟨typ, s⟩ c (Frames.splitAt P ⟨typ, s⟩ c) ↔ ¬ AtTop s c) ∧
      (MergesBack (Frames.merge P) ⟨typ, s⟩ (Frames.splitAt P ⟨typ, s⟩ c) ↔
        ¬ AtTop s c ∧ c ≠ s.start ∧ c ≠ s.end_ + P.num4KPages)) ∧
    Extracts P ⟨typ, s⟩ r (Frames.splitRange P ⟨typ, s⟩ r) := by
  have hpages := partitions_iff hs hdvd hc fun r => id_eq r
  rw [Option.map_id'] at hpages
  rw [splitAt_eq hs.1]
  exact ⟨⟨hpages, mergesBack_split_iff hs hdvd hc⟩,
    ⟨partitions_iff hs hdvd hc fun _ => rfl, mergesBack_splitAt_iff hs hdvd hc⟩,
    extracts_splitRange hs hdvd hr⟩

theorem splits_exact_2M : Partitions .page2M id ⟨0, 1024⟩ 512 (split .page2M ⟨0, 1024⟩ 512) :=
  (splits_exact_iff .page2M .free ⟨0, 1024⟩ .empty 512 (by decide) (by decide) (by decide)
    (by decide)).1.1.mpr (by unfold AtTop; decide)

/-- The last two frames are not split between them, and neither are the last two pages, which the
allocator may hand out: all are in the first part. -/
theorem splits_inexact :
    (¬ Partitions .page4K Frames.range ⟨.free, 2 ^ 52 - 2, 2 ^ 52 - 1⟩
      (2 ^ 52 - 1) (Frames.splitAt .page4K ⟨.free, 2 ^ 52 - 2, 2 ^ 52 - 1⟩ (2 ^ 52 - 1))) ∧
    ¬ Partitions .page4K id ⟨2 ^ 52 - 2, 2 ^ 52 - 1⟩
      (2 ^ 52 - 1) (split .page4K ⟨2 ^ 52 - 2, 2 ^ 52 - 1⟩ (2 ^ 52 - 1)) := by
  refine ⟨fun h => ?_, fun h => ?_⟩
  · have hsecond := h.second (⟨.free, 2 ^ 52 - 2, 2 ^ 52 - 1⟩, ⟨.free, .empty⟩) (by decide)
      (2 ^ 52 - 1) (by decide)
    exact absurd (hsecond.mpr (by decide)) (by decide)
  · have hsecond := h.second (⟨2 ^ 52 - 2, 2 ^ 52 - 1⟩, .empty) (by decide) (2 ^ 52 - 1) (by decide)
    exact absurd (hsecond.mpr (by decide)) (by decide)

end Maios
