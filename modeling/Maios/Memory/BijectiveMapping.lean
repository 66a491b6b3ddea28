import Maios.Memory.MissingTables
import Maios.Memory.PageChunks

/-!
# Mappings stay bijective

A frame that is mapped exclusively belongs to the one entry that maps it. Every page has at most one
owner: the allocator, an `AllocatedPages`, or a `MappedPages`; every frame has at most one owner: the
allocator, an `AllocatedFrames`, or an entry; and the entries in use are those of the pages of
mappings (`Owned`). From that it follows that no frame is mapped twice or free while it is mapped.

The operations move ownership around, except for a mapping call that fails on its way. The entries
that it has written stay, while the pages they belong to go back to the allocator. In a state that
satisfies `Owned` a page to be mapped is never already in use, so what is left is that the allocator
of frames runs dry between the first page and the last. The condition that excludes this,
`FramesForAllOrNone`, counts the frames and the missing tables before the call, and is exact.

## Main results

* `mappings_bijective`: in every run that meets the condition the mapping is one-to-one, maps no free
  frame, and is about the pages of the live mappings; the next operation keeps it so if and only if
  it meets the condition.
* `live_mapping_unmaps`: in every such run a live mapping can be unmapped.
-/

namespace Maios

open List ChunkRange Prod Nat

open PageAllocator (Proper)

variable {held : List Frames}

namespace Paging

open FrameAllocator (Frames)

/-! ### What is claimed of a state -/

/-- The mapping of pages to frames in a state is one-to-one as far as it is exclusive, maps no free
frame exclusively, and is about the pages of the live mappings. -/
structure Bijective (s : MemState) : Prop where
  single : ∀ p q, IsPage p → IsPage q →
    (s.entry p).flags.isValid = true → (s.entry p).flags.isExclusive = true →
    (s.entry q).flags.isValid = true → (s.entry q).flags.isExclusive = true →
    (s.entry p).frameValue = (s.entry q).frameValue → p = q
  notFree : ∀ p, IsPage p →
    (s.entry p).flags.isValid = true → (s.entry p).flags.isExclusive = true →
    (s.entry p).frameValue ∉ s.freeFrames
  live : ∀ p, IsPage p →
    ((s.entry p).flags.isValid = true ↔ ∃ mp ∈ s.mappedPages, p ∈ mp.pages)

/-- The frames that the allocator yields in a mapping call are enough for all of its pages, if they
are enough for the first of them. What the pages need is counted in the page table before the call:
the tables missing on their ways, and a frame for each page where the call allocates these too. -/
def FramesForAllOrNone (s : MemState) : MemOp → Prop
  | .mapAllocatedPagesTo i j _ outcomes =>
    ∀ pages ∈ s.allocatedPages[i]?, ∀ frames ∈ s.allocatedFrames[j]?,
      pages.sizeInChunks .page4K = frames.range.sizeInChunks .page4K →
      (missingTables s.p4 (pages.toList.take 1)).card ≤ (s.supply outcomes).available →
      (missingTables s.p4 pages.toList).card ≤ (s.supply outcomes).available
  | .mapAllocatedPages i _ outcomes =>
    ∀ pages ∈ s.allocatedPages[i]?,
      (missingTables s.p4 (pages.toList.take 1)).card + (pages.toList.take 1).length ≤
        (s.supply outcomes).available →
      (missingTables s.p4 pages.toList).card + pages.toList.length ≤ (s.supply outcomes).available
  | _ => True

instance (s : MemState) : (op : MemOp) → Decidable (FramesForAllOrNone s op)
  | .mapAllocatedPagesTo i j _ _ => inferInstanceAs (Decidable
      (∀ pages ∈ s.allocatedPages[i]?, ∀ frames ∈ s.allocatedFrames[j]?, _ → _ → _))
  | .mapAllocatedPages i _ _ => inferInstanceAs (Decidable
      (∀ pages ∈ s.allocatedPages[i]?, _ → _))
  | .allocatePages _ | .allocateFrames _ | .dropPages _ | .dropFrames _ | .remap _ _ | .split _ _
  | .merge _ _ | .unmapIntoParts _ | .drop _ => isTrue trivial

/-! ### Owners of pages -/

/-- Every page has at most one owner, and ranges of pages are of the shapes that merging keeps. -/
structure PagesOwned (allocated mapped : List PageRange) (free : Finset ℕ) : Prop where
  once : ∀ p, cover (allocated ++ mapped) p + cover [free] p ≤ 1
  isPage : ∀ p, 0 < cover (allocated ++ mapped) p + cover [free] p → IsPage p
  proper : ∀ r ∈ allocated ++ mapped, Proper r

variable {s : MemState} {allocated allocated' mapped' : List PageRange} {p : ℕ}
  {l : List MappedPages} {free free' : Finset ℕ} {held' : List Frames} {e e' : ℕ → PageTableEntry}

/-- Moving pages from owner to owner keeps them owned. -/
theorem PagesOwned.of_le {mapped : List PageRange} (h : PagesOwned allocated mapped free)
    (hle : ∀ p, cover (allocated' ++ mapped') p + cover [free'] p ≤
      cover (allocated ++ mapped) p + cover [free] p)
    (hproper : ∀ r ∈ allocated' ++ mapped', Proper r) : PagesOwned allocated' mapped' free' :=
  ⟨fun p => (hle p).trans (h.once p), fun p hp => h.isPage p (lt_of_lt_of_le hp (hle p)),
    hproper⟩

theorem IsPage.le_maxPageNumber (h : IsPage p) : p ≤ maxPageNumber := by
  have hmax : maxPageNumber = 2 ^ 52 - 1 := by decide
  rw [IsPage] at h
  omega

section

variable {mapped : List PageRange} (h : PagesOwned allocated mapped free) {r : PageRange}

include h

/-- Pages come from the allocator. -/
theorem PagesOwned.allocate (hr : r.start ≤ r.end_) (hfree : r.toFinset ⊆ free) :
    PagesOwned (r :: allocated) mapped (free \ r.toFinset) := by
  have hproper : Proper r := by
    refine ⟨IsPage.le_maxPageNumber (h.isPage r.end_ ?_), .inl hr⟩
    have hend : r.end_ ∈ free :=
      hfree (mem_toFinset.mpr (mem_iff.mpr ⟨hr, le_rfl⟩))
    rw [cover_singleton, if_pos hend]
    exact succ_pos _
  refine h.of_le (fun p => ?_) fun r' hr' => ?_
  · have hadd := cover_sdiff_add hfree p
    rw [cover_toFinset] at hadd
    rw [cons_append, cover_cons_eq_add]
    omega
  · rcases mem_cons.mp hr' with rfl | hr'
    · exact hproper
    · exact h.proper r' hr'

/-- Pages that nobody has any more go back to the allocator. -/
theorem PagesOwned.drop (hperm : (r :: (allocated' ++ mapped')).Perm (allocated ++ mapped)) :
    PagesOwned allocated' mapped' (free ∪ r.toFinset) := by
  refine h.of_le (fun p => ?_) fun r' hr' =>
    h.proper r' (hperm.mem_iff.mp (mem_cons_of_mem r hr'))
  have hle := cover_union_le free r.toFinset p
  rw [cover_toFinset] at hle
  rw [← cover_perm hperm p, cover_cons_eq_add r]
  omega

/-- Mapping takes pages from one list to the other. -/
theorem PagesOwned.move (hperm : (allocated' ++ mapped').Perm (allocated ++ mapped)) :
    PagesOwned allocated' mapped' free :=
  h.of_le (fun p => le_of_eq (by rw [cover_perm hperm p])) fun r' hr' =>
    h.proper r' (hperm.mem_iff.mp hr')

end

/-! ### Owners of frames -/

/-- Every frame has at most one owner: someone who holds it, the allocator, or an entry in use. -/
structure FramesOwned (e : ℕ → PageTableEntry) (held : List Frames) (free : Finset ℕ) : Prop where
  once : ∀ f, cover held f + cover [free] f ≤ 1
  isFrame : ∀ f, 0 < cover held f + cover [free] f → IsFrame f
  apart : ∀ p, IsPage p → (e p).isUnused = false →
    cover held (e p).frameValue + cover [free] (e p).frameValue = 0
  single : ∀ p q, IsPage p → IsPage q → (e p).isUnused = false → (e q).isUnused = false →
    (e p).frameValue = (e q).frameValue → p = q

/-- Moving frames between their holders and the allocator keeps them owned. -/
theorem FramesOwned.of_le (h : FramesOwned e held free)
    (hused : ∀ p, IsPage p → (e' p).isUnused = (e p).isUnused)
    (hframe : ∀ p, IsPage p → (e' p).frameValue = (e p).frameValue)
    (hle : ∀ f, cover held' f + cover [free'] f ≤ cover held f + cover [free] f) :
    FramesOwned e' held' free' := by
  refine ⟨fun f => (hle f).trans (h.once f),
    fun f hf => h.isFrame f (lt_of_lt_of_le hf (hle f)), fun p hp hpu => ?_,
    fun p q hp hq hpu hqu hpq => ?_⟩ <;> rw [hused p hp] at hpu
  · rw [hframe p hp]
    exact le_zero.mp ((hle _).trans (le_of_eq (h.apart p hp hpu)))
  · rw [hused q hq] at hqu
    rw [hframe p hp, hframe q hq] at hpq
    exact h.single p q hp hq hpu hqu hpq

open PageTableEntry

/-- Mapping hands frames over to entries. -/
theorem FramesOwned.map {e e' : ℕ → PageTableEntry} {held' : List Frames} {free free' : Finset ℕ}
    (h : FramesOwned e held free) {flags : PteFlags} {done : List (ℕ × ℕ)}
    (hmapped : Mapped flags done e e')
    (hle : ∀ f, cover held' f + cover [free'] f + (done.map snd).count f ≤
      cover held f + cover [free] f) : FramesOwned e' held' free' := by
  have hone : ∀ p f, (p, f) ∈ done → 1 ≤ (done.map snd).count f := fun p f hmem =>
    count_pos_iff.mpr (mem_map.mpr ⟨(p, f), hmem, rfl⟩)
  -- the frame of a page that has just been mapped
  have hframe : ∀ p f, (p, f) ∈ done → (e' p).frameValue = f := by
    intro p f hmem
    have hf : IsFrame f := h.isFrame f (by have := hone p f hmem; have := hle f; omega)
    rw [hmapped.on p f hmem, frameValue_setEntry hf]
  have hcases : ∀ p, IsPage p → (∃ f, (p, f) ∈ done) ∨ e' p = e p := by
    intro p hp
    by_cases hmem : p ∈ done.map fst
    · obtain ⟨⟨p', f⟩, hx, rfl⟩ := mem_map.mp hmem
      exact .inl ⟨f, hx⟩
    · exact .inr (hmapped.off p hp hmem)
  have hnodup : (done.map snd).Nodup := by
    rw [nodup_iff_count_le_one]
    intro f
    have := hle f
    have := h.once f
    omega
  -- an entry from before does not map a frame that is only now mapped
  have hclash : ∀ p q f, (p, f) ∈ done → IsPage q → (e q).isUnused = false →
      (e q).frameValue ≠ f := by
    intro p q f hmem hq hqu heq
    have hzero := h.apart q hq hqu
    rw [heq] at hzero
    have := hone p f hmem
    have := hle f
    omega
  refine ⟨fun f => ?_, fun f hf => h.isFrame f ?_, fun p hp hpu => ?_,
    fun p q hp hq hpu hqu hpq => ?_⟩
  · have := hle f
    have := h.once f
    omega
  · have := hle f
    omega
  · rcases hcases p hp with ⟨f, hmem⟩ | hsame
    · rw [hframe p f hmem]
      have := hone p f hmem
      have := hle f
      have := h.once f
      omega
    · rw [hsame] at hpu ⊢
      have := h.apart p hp hpu
      have := hle (e p).frameValue
      omega
  · rcases hcases p hp with ⟨f, hpmem⟩ | hpsame <;> rcases hcases q hq with ⟨g, hqmem⟩ | hqsame
    · rw [hframe p f hpmem, hframe q g hqmem] at hpq
      have hpair := inj_on_of_nodup_map hnodup hpmem hqmem hpq
      exact congrArg fst hpair
    · rw [hframe p f hpmem, hqsame] at hpq
      rw [hqsame] at hqu
      exact absurd hpq.symm (hclash p q f hpmem hq hqu)
    · rw [hframe q g hqmem, hpsame] at hpq
      rw [hpsame] at hpu
      exact absurd hpq (hclash q p g hqmem hp hpu)
    · rw [hpsame] at hpu hpq
      rw [hqsame] at hqu hpq
      exact h.single p q hp hq hpu hqu hpq

/-- Unmapping takes them back. -/
theorem FramesOwned.unmap (h : FramesOwned e held free) {pages : List ℕ}
    (hpages : ∀ p ∈ pages, IsPage p ∧ (e p).isUnused = false) (hnodup : pages.Nodup)
    (hentry : ∀ q, IsPage q → e' q = if q ∈ pages then .zero else e q)
    (hle : ∀ f, cover held' f + cover [free'] f ≤
      cover held f + cover [free] f + (pages.map fun p => (e p).frameValue).count f) :
    FramesOwned e' held' free' := by
  have hold : ∀ p, IsPage p → (e' p).isUnused = false → p ∉ pages ∧ e' p = e p := by
    intro p hp hpu
    by_cases hmem : p ∈ pages
    · rw [hentry p hp, if_pos hmem] at hpu
      exact absurd hpu (by decide)
    · exact ⟨hmem, by rw [hentry p hp, if_neg hmem]⟩
  have hframes : (pages.map fun p => (e p).frameValue).Nodup :=
    hnodup.map_on fun p hp q hq hpq => h.single p q (hpages p hp).1 (hpages q hq).1
      (hpages p hp).2 (hpages q hq).2 hpq
  -- a frame of the pages had only its entry as an owner
  have hgone : ∀ f, 0 < (pages.map fun p => (e p).frameValue).count f →
      cover held f + cover [free] f = 0 := by
    intro f hf
    obtain ⟨p, hp, rfl⟩ := mem_map.mp (count_pos_iff.mp hf)
    exact h.apart p (hpages p hp).1 (hpages p hp).2
  have hatMost : ∀ f, (pages.map fun p => (e p).frameValue).count f ≤ 1 :=
    nodup_iff_count_le_one.mp hframes
  refine ⟨fun f => ?_, fun f hf => ?_, fun p hp hpu => ?_, fun p q hp hq hpu hqu hpq => ?_⟩
  · have := hle f
    have := h.once f
    have := hgone f
    have := hatMost f
    omega
  · by_cases hold : 0 < cover held f + cover [free] f
    · exact h.isFrame f hold
    · have hpos : 0 < (pages.map fun p => (e p).frameValue).count f := by
        have := hle f
        omega
      obtain ⟨p, hp, rfl⟩ := mem_map.mp (count_pos_iff.mp hpos)
      exact isFrame_frameValue (e p)
  · obtain ⟨hnot, hsame⟩ := hold p hp hpu
    rw [hsame] at hpu ⊢
    have hzero : (pages.map fun p => (e p).frameValue).count (e p).frameValue = 0 := by
      rw [count_eq_zero]
      intro hmem
      obtain ⟨q, hq, hqp⟩ := mem_map.mp hmem
      exact hnot (h.single q p (hpages q hq).1 hp (hpages q hq).2 hpu hqp ▸ hq)
    have := hle (e p).frameValue
    have := h.apart p hp hpu
    omega
  · obtain ⟨-, hpsame⟩ := hold p hp hpu
    obtain ⟨-, hqsame⟩ := hold q hq hqu
    rw [hpsame] at hpu hpq
    rw [hqsame] at hqu hpq
    exact h.single p q hp hq hpu hqu hpq

/-! ### Entries and mappings -/

/-- The entries in use are those of mapped pages, and all of them are exclusive. -/
structure EntriesOwned (e : ℕ → PageTableEntry) (mapped : List PageRange) : Prop where
  live : ∀ p, IsPage p → ((e p).isUnused = false ↔ 0 < cover mapped p)
  exclusive : ∀ p, IsPage p → (e p).isUnused = false →
    (e p).flags.isValid = true ∧ (e p).flags.isExclusive = true

theorem EntriesOwned.congr {mapped : List PageRange} (h : EntriesOwned e mapped)
    (hentry : ∀ p, IsPage p → e' p = e p) (hcover : ∀ p, cover mapped' p = cover mapped p) :
    EntriesOwned e' mapped' := by
  refine ⟨fun p hp => ?_, fun p hp hpu => ?_⟩
  · rw [hentry p hp, hcover p]
    exact h.live p hp
  · rw [hentry p hp] at hpu ⊢
    exact h.exclusive p hp hpu

/-- What holds of every state in a run whose mapping calls map all of their pages or none. -/
structure Owned (s : MemState) : Prop where
  pages : PagesOwned s.allocatedPages (s.mappedPages.map MappedPages.pages) s.freePages
  frames : FramesOwned s.entry s.allocatedFrames s.freeFrames
  entries : EntriesOwned s.entry (s.mappedPages.map MappedPages.pages)
  exclusive : ∀ mp ∈ s.mappedPages, mp.flags.isExclusive = true ∧ mp.pageTableP4 = s.targetP4

open MemState

open P4

theorem Owned.init (targetP4 : ℕ) (reserved pages frames : Finset ℕ) :
    Owned (.init targetP4 reserved pages frames) := by
  have hentry : ∀ p, (MemState.init targetP4 reserved pages frames).entry p = .zero :=
    entry_default
  have hunused : ∀ p,
      ((MemState.init targetP4 reserved pages frames).entry p).isUnused ≠ false := by
    intro p
    rw [hentry p]
    decide
  refine ⟨⟨fun p => ?_, fun p hp => ?_, nofun⟩,
    ⟨fun f => ?_, fun f hf => ?_, fun p _ hpu => absurd hpu (hunused p),
      fun p _ _ _ hpu => absurd hpu (hunused p)⟩,
    ⟨fun p _ => ⟨fun hpu => absurd hpu (hunused p), fun hpos => absurd hpos (lt_irrefl 0)⟩,
      fun p _ hpu => absurd hpu (hunused p)⟩, nofun⟩
  · show 0 + cover [_] p ≤ 1
    rw [zero_add]
    exact cover_singleton_le_one _ p
  · replace hp : 0 < 0 + cover [pages.filter IsPage] p := hp
    rw [zero_add] at hp
    exact (Finset.mem_filter.mp (mem_of_cover_pos hp)).2
  · show 0 + cover [_] f ≤ 1
    rw [zero_add]
    exact cover_singleton_le_one _ f
  · replace hf : 0 < 0 + cover [frames.filter IsFrame] f := hf
    rw [zero_add] at hf
    exact (Finset.mem_filter.mp (mem_of_cover_pos hf)).2

open MappedPages

/-- A state in which everything has one owner is bijective. -/
theorem Owned.bijective (h : Owned s) : Bijective s := by
  refine ⟨fun p q hp hq hpv _ hqv _ hpq => ?_, fun p hp hpv _ hfree => ?_, fun p hp => ?_⟩
  · exact h.frames.single p q hp hq (isUnused_of_isValid hpv)
      (isUnused_of_isValid hqv) hpq
  · have hzero := h.frames.apart p hp (isUnused_of_isValid hpv)
    rw [cover_singleton, if_pos hfree] at hzero
    omega
  · constructor
    · intro hpv
      have hpos := (h.entries.live p hp).mp (isUnused_of_isValid hpv)
      obtain ⟨r, hr, hpr⟩ := cover_pos_iff.mp hpos
      obtain ⟨mp, hmp, rfl⟩ := mem_map.mp hr
      exact ⟨mp, hmp, hpr⟩
    · rintro ⟨mp, hmp, hpr⟩
      have hpos : 0 < cover (s.mappedPages.map MappedPages.pages) p :=
        cover_pos_iff.mpr ⟨mp.pages, mem_map.mpr ⟨mp, hmp, rfl⟩, hpr⟩
      exact (h.entries.exclusive p hp ((h.entries.live p hp).mpr hpos)).1

/-! ### Mapping -/

section Map

variable {s : MemState} {i : ℕ} {pages : PageRange} (r : ChunkRange)

theorem actualFlags_true (flags : PteFlags) :
    (actualFlags flags true).isValid = true ∧ (actualFlags flags true).isExclusive = true := by
  rw [actualFlags, PteFlags.isValid_exclusive, PteFlags.isValid_valid,
    PteFlags.isExclusive_exclusive]
  exact ⟨rfl, rfl⟩

theorem length_toList : r.toList.length = r.sizeInChunks .page4K := by
  rw [toList, length_range', sizeInChunks, PageSize.num4KPages_page4K, Nat.div_one]

theorem count_toList (n : ℕ) : r.toList.count n = cover [r] n := by
  rw [cover_singleton]
  split_ifs with hn
  · exact count_eq_one_of_mem r.nodup_toList (mem_toList.mpr hn)
  · exact count_eq_zero.mpr fun hmem => hn (mem_toList.mp hmem)

section

variable (h : Owned s) (hi : s.allocatedPages[i]? = some pages)

include h hi

/-- The pages of an `AllocatedPages` are pages, and no mapping has them. -/
theorem Owned.allocated_page (hp : p ∈ pages) :
    IsPage p ∧ cover (s.mappedPages.map MappedPages.pages) p = 0 := by
  have hpos : 0 < cover s.allocatedPages p :=
    cover_pos_iff.mpr ⟨pages, mem_of_getElem? hi, hp⟩
  have hone := h.pages.once p
  have hpage := h.pages.isPage p
  rw [cover_append] at hone hpage
  exact ⟨hpage (by omega), by omega⟩

/-- All pages have been mapped: they and their frames belong to the new mapping. -/
theorem Owned.mapped {p4' : P4} {flags : PteFlags}
    (hflags : flags.isValid = true ∧ flags.isExclusive = true)
    {done : List (ℕ × ℕ)} (hdone : done.map fst = pages.toList)
    (hmapped : Mapped flags done s.entry (entry p4'))
    (hle : ∀ f, cover held' f + cover [free'] f +
      (done.map snd).count f ≤ cover s.allocatedFrames f + cover [s.freeFrames] f) :
    Owned { s with
      p4 := p4'
      freeFrames := free'
      allocatedPages := s.allocatedPages.eraseIdx i
      allocatedFrames := held'
      mappedPages := ⟨s.targetP4, pages, flags⟩ :: s.mappedPages } := by
  have hnew : ∀ p, p ∈ pages → entry p4' p ≠ .zero ∧ (entry p4' p).flags = flags := by
    intro p hp
    rw [← mem_toList, ← hdone] at hp
    obtain ⟨⟨p', f⟩, hmem, rfl⟩ := mem_map.mp hp
    have hcount : 0 < (done.map snd).count f :=
      count_pos_iff.mpr (mem_map.mpr ⟨_, hmem, rfl⟩)
    have hf : IsFrame f := h.frames.isFrame f (by have := hle f; omega)
    rw [hmapped.on p' f hmem]
    refine ⟨fun hzero => ?_, flags_setEntry hf flags⟩
    have hvalid := hflags.1
    rw [← flags_setEntry hf flags, hzero] at hvalid
    exact absurd hvalid (by decide)
  have hused : ∀ p, p ∈ pages → (entry p4' p).isUnused = false := fun p hp =>
    isUnused_of_isValid (by rw [(hnew p hp).2]; exact hflags.1)
  have hold : ∀ p, IsPage p → p ∉ pages → entry p4' p = s.entry p := by
    intro p hpage hp
    refine hmapped.off p hpage fun hmem => hp ?_
    rw [hdone] at hmem
    exact mem_toList.mp hmem
  have hpages : PagesOwned (s.allocatedPages.eraseIdx i)
      (pages :: s.mappedPages.map MappedPages.pages) s.freePages :=
    h.pages.move (perm_middle.trans ((perm_cons_eraseIdx hi).append_right _))
  have hentries : EntriesOwned (entry p4') (pages :: s.mappedPages.map MappedPages.pages) := by
    refine ⟨fun p hp => ?_, fun p hp hpu => ?_⟩
    · rw [cover_cons]
      split_ifs with hpm
      · exact ⟨fun _ => succ_pos _, fun _ => hused p hpm⟩
      · rw [hold p hp hpm]
        exact h.entries.live p hp
    · by_cases hpm : p ∈ pages
      · rw [(hnew p hpm).2]
        exact hflags
      · rw [hold p hp hpm] at hpu ⊢
        exact h.entries.exclusive p hp hpu
  exact ⟨hpages, h.frames.map hmapped hle, hentries,
    forall_mem_cons.mpr ⟨⟨hflags.2, rfl⟩, h.exclusive⟩⟩

/-- No page has been mapped: the pages go back. -/
theorem Owned.notMapped {p4' : P4} (hentry : ∀ q, IsPage q → entry p4' q = s.entry q)
    (hle : ∀ f, cover held' f + cover [free'] f ≤
      cover s.allocatedFrames f + cover [s.freeFrames] f) :
    Owned (dropPages { s with
      p4 := p4'
      freeFrames := free'
      allocatedPages := s.allocatedPages.eraseIdx i
      allocatedFrames := held' } pages) := by
  have hpages : PagesOwned (s.allocatedPages.eraseIdx i) (s.mappedPages.map MappedPages.pages)
      (s.freePages ∪ pages.toFinset) :=
    h.pages.drop ((perm_cons_eraseIdx hi).append_right _)
  have hframes : FramesOwned (entry p4') held' free' :=
    h.frames.of_le (fun p hp => congrArg isUnused (hentry p hp))
      (fun p hp => congrArg frameValue (hentry p hp)) hle
  exact ⟨hpages, hframes, h.entries.congr hentry fun _ => rfl, h.exclusive⟩

/-- A page that is mapped without a mapping to own it. -/
theorem Owned.not_bijective (hp : p ∈ pages) {s' : MemState}
    (hmps : s'.mappedPages = s.mappedPages) (hvalid : (s'.entry p).flags.isValid = true) :
    ¬ Bijective s' := by
  intro hbij
  obtain ⟨hpage, hzero⟩ := h.allocated_page hi hp
  obtain ⟨mp, hmp, hpm⟩ := (hbij.live p hpage).mp hvalid
  rw [hmps] at hmp
  exact cover_eq_zero_iff.mp hzero mp.pages (mem_map.mpr ⟨mp, hmp, rfl⟩) hpm

/-- A mapping call that got through the pages of `done`. It keeps everything owned if these are all
of its pages or none, and breaks bijectivity otherwise. -/
theorem Owned.mapCall {p4' : P4} {flags : PteFlags}
    (hflags : flags.isValid = true ∧ flags.isExclusive = true)
    {done : List (ℕ × ℕ)} {rest : List ℕ} (hsplit : pages.toList = done.map fst ++ rest)
    (hmapped : Mapped flags done s.entry (entry p4')) (hframes : ∀ x ∈ done, IsFrame x.2)
    (held' : List Frames) (freeOk freeErr : Finset ℕ) {s' : MemState}
    (hleOk : rest = [] → ∀ f, cover held' f + cover [freeOk] f + (done.map snd).count f ≤
      cover s.allocatedFrames f + cover [s.freeFrames] f)
    (hleErr : ∀ f, cover held' f + cover [freeErr] f ≤
      cover s.allocatedFrames f + cover [s.freeFrames] f)
    (hok : rest = [] → s' = { s with
      p4 := p4'
      freeFrames := freeOk
      allocatedPages := s.allocatedPages.eraseIdx i
      allocatedFrames := held'
      mappedPages := ⟨s.targetP4, pages, flags⟩ :: s.mappedPages })
    (herr : rest ≠ [] → s' = dropPages { s with
      p4 := p4'
      freeFrames := freeErr
      allocatedPages := s.allocatedPages.eraseIdx i
      allocatedFrames := held' } pages) :
    (((done = [] → pages.toList = []) → rest = []) → Owned s') ∧
      (Bijective s' → (done = [] → pages.toList = []) → rest = []) := by
  by_cases hrest : rest = []
  · refine ⟨fun _ => ?_, fun _ _ => hrest⟩
    have hdone : done.map fst = pages.toList := by rw [hsplit, hrest, append_nil]
    rw [hok hrest]
    exact h.mapped hi hflags hdone hmapped (hleOk hrest)
  rw [herr hrest]
  cases done with
  | nil =>
    refine ⟨fun _ => ?_, fun _ hempty => ?_⟩
    · exact h.notMapped hi (fun q hq => hmapped.off q hq not_mem_nil) hleErr
    · rw [← hempty rfl, hsplit]
      rfl
  | cons x done => ?_
  refine ⟨fun hg => absurd (hg fun hnil => absurd hnil (cons_ne_nil _ _)) hrest,
    fun hbij => ?_⟩
  have hx : x.1 ∈ pages := by
    rw [← mem_toList, hsplit]
    exact mem_append_left _ mem_cons_self
  refine absurd hbij (h.not_bijective hi hx rfl ?_)
  show (entry p4' x.1).flags.isValid = true
  rw [hmapped.on x.1 x.2 mem_cons_self, flags_setEntry (hframes x mem_cons_self)]
  exact hflags.1

end

/-- The pages of an `AllocatedPages` are unused, as the mapping loops ask for. -/
theorem Owned.unmappedPages (h : Owned s) (hi : s.allocatedPages[i]? = some pages) :
    Unmapped s.p4 pages.toList := by
  have hpages := fun p (hp : p ∈ pages.toList) => h.allocated_page hi (mem_toList.mp hp)
  refine ⟨fun p hp => ?_, pages.nodup_toList.imp_of_mem fun hp hq hne heq =>
    hne (path_injective (hpages _ hp).1 (hpages _ hq).1 heq)⟩
  obtain ⟨hpage, hzero⟩ := hpages p hp
  by_contra hused
  have hpos := (h.entries.live p hpage).mp (Bool.eq_false_of_not_eq_true hused)
  omega

/-- `map_allocated_pages`, in a state where everything is owned. -/
theorem Owned.mapAllocatedPages (h : Owned s) (hclear : s.p4.Clear) (i : ℕ) (flags : PteFlags)
    (outcomes : List (Option ℕ)) :
    (FramesForAllOrNone s (.mapAllocatedPages i flags outcomes) →
      Owned (s.mapAllocatedPages i flags outcomes)) ∧
    (Bijective (s.mapAllocatedPages i flags outcomes) →
      FramesForAllOrNone s (.mapAllocatedPages i flags outcomes)) := by
  cases hi : s.allocatedPages[i]? with
  | none =>
    rw [MemState.mapAllocatedPages, FramesForAllOrNone, hi]
    exact ⟨fun _ => h, fun _ => nofun⟩
  | some pages => ?_
  have hunmapped := h.unmappedPages hi
  rcases hr : mapFresh flags.adjustForHigherLevelPte (actualFlags flags true) pages.toList s.p4
    (s.supply outcomes) with ⟨o, p4', supply'⟩
  obtain ⟨done, rest, hsplit, hok, hfirst, hmapped, hcount⟩ :=
    mapFresh_spec (actualFlags_true flags).1 hr
  have hguard : FramesForAllOrNone s (.mapAllocatedPages i flags outcomes) ↔
      ((done = [] → pages.toList = []) → rest = []) := by
    have ho : o = _ := (congrArg fst hr).symm
    rw [FramesForAllOrNone, hi, ← hok, ← hfirst, ho, mapFresh_ok_iff hclear hunmapped,
      mapFresh_ok_iff hclear (hunmapped.take 1)]
    exact ⟨fun hg => hg pages rfl, fun hg p hp => by cases hp; exact hg⟩
  rw [hguard]
  have hpages : ∀ x ∈ done, IsPage x.1 := fun x hx => by
    refine (h.allocated_page hi (mem_toList.mp ?_)).1
    rw [hsplit]
    exact mem_append_left _ (mem_map.mpr ⟨x, hx, rfl⟩)
  replace hcount : ∀ f, cover [supply'.free] f + (done.map snd).count f ≤
    cover [s.freeFrames] f := hcount
  have hframes : ∀ x ∈ done, IsFrame x.2 := fun x hx => h.frames.isFrame x.2 (by
    have hpos : 0 < (done.map snd).count x.2 :=
      count_pos_iff.mpr (mem_map.mpr ⟨x, hx, rfl⟩)
    have := hcount x.2
    omega)
  refine h.mapCall hi (actualFlags_true flags) hsplit (hmapped.mapped hpages) hframes
    s.allocatedFrames supply'.free supply'.free
    (fun _ f => ?_) (fun f => ?_) (fun hrest => ?_) (fun hrest => ?_)
  · have := hcount f
    omega
  · have := hcount f
    omega
  · cases hok.mpr hrest
    rw [MemState.mapAllocatedPages, hi]
    dsimp only
    rw [Paging.mapAllocatedPages, hr]
  · rw [MemState.mapAllocatedPages, hi]
    dsimp only
    rw [Paging.mapAllocatedPages, hr]
    cases o with
    | ok u => exact absurd (hok.mp rfl) hrest
    | err e | panic => rfl

section

variable {j : ℕ} {frames : Frames} (hj : s.allocatedFrames[j]? = some frames)

include hj

/-- Frames that are dropped go back to the allocator. -/
theorem cover_back_le {A : Finset ℕ} (hA : A ⊆ s.freeFrames) (f : ℕ) :
    cover (s.allocatedFrames.eraseIdx j) f + cover [A ∪ frames.range.toFinset] f ≤
      cover s.allocatedFrames f + cover [s.freeFrames] f := by
  have hunion := cover_union_le A frames.range.toFinset f
  have herase := cover_eraseIdx_add hj f
  have hsub := cover_le_of_subset hA f
  rw [cover_toFinset, ← FrameAllocator.cover_frames] at hunion
  omega

/-- The loop of `internal_map_to` over as many frames as pages. -/
theorem Owned.mapInLockstep (h : Owned s) (hclear : s.p4.Clear)
    (hi : s.allocatedPages[i]? = some pages)
    (hsize : pages.sizeInChunks .page4K = frames.range.sizeInChunks .page4K) (flags : PteFlags)
    (outcomes : List (Option ℕ)) :
    (FramesForAllOrNone s (.mapAllocatedPagesTo i j flags outcomes) →
      Owned (s.mapAllocatedPagesTo i j flags outcomes)) ∧
    (Bijective (s.mapAllocatedPagesTo i j flags outcomes) →
      FramesForAllOrNone s (.mapAllocatedPagesTo i j flags outcomes)) := by
  have hlen : pages.toList.length = frames.range.toList.length := by
    rw [length_toList, length_toList, hsize]
  have hfst : (pages.toList.zip frames.range.toList).map fst = pages.toList :=
    map_fst_zip (le_of_eq hlen)
  have hsnd : (pages.toList.zip frames.range.toList).map snd = frames.range.toList :=
    map_snd_zip (le_of_eq hlen.symm)
  have hunmapped := h.unmappedPages hi
  rw [← hfst] at hunmapped
  rcases hr : mapFrames flags.adjustForHigherLevelPte (actualFlags flags true)
    (pages.toList.zip frames.range.toList) s.p4 (s.supply outcomes) with ⟨o, p4', supply'⟩
  obtain ⟨done, rest, hsplit, hok, hfirst, hmapped, hfree⟩ :=
    mapFrames_spec (actualFlags_true flags).1 hr
  have hguard : FramesForAllOrNone s (.mapAllocatedPagesTo i j flags outcomes) ↔
      ((done = [] → pages.toList = []) → rest.map fst = []) := by
    have ho : o = _ := (congrArg fst hr).symm
    have hnil : pages.toList = [] ↔ pages.toList.zip frames.range.toList = [] := by
      rw [← hfst, map_eq_nil_iff, hfst]
    have htake := hunmapped.take 1
    rw [← map_take] at htake
    rw [hnil, map_eq_nil_iff, ← hok, ← hfirst, ho, mapFrames_ok_iff hclear hunmapped,
      mapFrames_ok_iff hclear htake, map_take, hfst, FramesForAllOrNone, hi, hj]
    exact ⟨fun hg => hg pages rfl frames rfl hsize, fun hg p hp f hf _ => by
      cases hp
      cases hf
      exact hg⟩
  rw [hguard]
  replace hfree : supply'.free ⊆ s.freeFrames := hfree
  have hmem : ∀ x ∈ done, x.1 ∈ pages ∧ x.2 ∈ frames.range := fun x hx => by
    have hzip := of_mem_zip (hsplit ▸ mem_append_left rest hx)
    exact ⟨mem_toList.mp hzip.1, mem_toList.mp hzip.2⟩
  have hframes : ∀ x ∈ done, IsFrame x.2 := fun x hx => by
    refine h.frames.isFrame x.2 (lt_of_lt_of_le ?_ (le_add_right _ _))
    exact cover_pos_iff.mpr ⟨frames, mem_of_getElem? hj, (hmem x hx).2⟩
  refine h.mapCall hi (actualFlags_true flags) (by rw [← hfst, hsplit, map_append])
    (hmapped.mapped fun x hx => (h.allocated_page hi (hmem x hx).1).1) hframes
    (s.allocatedFrames.eraseIdx j) supply'.free (supply'.free ∪ frames.range.toFinset)
    (fun hrest f => ?_) (cover_back_le hj hfree) (fun hrest => ?_) (fun hrest => ?_)
  · rw [map_eq_nil_iff] at hrest
    rw [hrest, append_nil] at hsplit
    rw [← hsplit, hsnd, count_toList, ← FrameAllocator.cover_frames]
    have := cover_eraseIdx_add hj f
    have := cover_le_of_subset hfree f
    omega
  · cases hok.mpr (map_eq_nil_iff.mp hrest)
    rw [MemState.mapAllocatedPagesTo, hi, hj]
    dsimp only
    rw [internalMapTo, if_neg (not_not.mpr hsize), hr]
  · rw [MemState.mapAllocatedPagesTo, hi, hj]
    dsimp only
    rw [internalMapTo, if_neg (not_not.mpr hsize), hr]
    cases o with
    | ok u => exact absurd (map_eq_nil_iff.mpr (hok.mp rfl)) hrest
    | err e | panic => rfl

end

/-- `map_allocated_pages_to`, in a state where everything is owned. -/
theorem Owned.mapAllocatedPagesTo (h : Owned s) (hclear : s.p4.Clear) (i j : ℕ) (flags : PteFlags)
    (outcomes : List (Option ℕ)) :
    (FramesForAllOrNone s (.mapAllocatedPagesTo i j flags outcomes) →
      Owned (s.mapAllocatedPagesTo i j flags outcomes)) ∧
    (Bijective (s.mapAllocatedPagesTo i j flags outcomes) →
      FramesForAllOrNone s (.mapAllocatedPagesTo i j flags outcomes)) := by
  cases hi : s.allocatedPages[i]? with
  | none =>
    rw [MemState.mapAllocatedPagesTo, FramesForAllOrNone, hi]
    exact ⟨fun _ => h, fun _ => nofun⟩
  | some pages =>
  cases hj : s.allocatedFrames[j]? with
  | none =>
    rw [MemState.mapAllocatedPagesTo, FramesForAllOrNone, hi, hj]
    exact ⟨fun _ => h, fun _ _ _ => nofun⟩
  | some frames => ?_
  by_cases hsize : pages.sizeInChunks .page4K = frames.range.sizeInChunks .page4K
  · exact h.mapInLockstep hj hclear hi hsize flags outcomes
  -- with another number of frames no page is mapped
  refine ⟨fun _ => ?_, fun _ => ?_⟩
  · rw [MemState.mapAllocatedPagesTo, hi, hj]
    dsimp only
    rw [internalMapTo, if_pos hsize]
    exact h.notMapped hi (fun _ _ => rfl) (cover_back_le hj (Finset.Subset.refl _))
  · rw [FramesForAllOrNone, hi, hj]
    intro p hp f hf heq
    cases hp
    cases hf
    exact absurd heq hsize

end Map

/-! ### Unmapping -/

section Unmap

variable {s : MemState} {k : ℕ} {mp : MappedPages}

theorem getElem?_pages (hk : l[k]? = some mp) : (l.map pages)[k]? = some mp.pages := by
  rw [getElem?_map, hk, Option.map_some]

theorem set_of_getElem? {α : Type} {l : List α} {a : α} (h : l[k]? = some a) : l.set k a = l := by
  obtain ⟨hlt, rfl⟩ := List.getElem?_eq_some_iff.mp h
  exact set_getElem_self hlt

theorem map_eraseIdx_pages (l : List MappedPages) (k : ℕ) :
    (l.eraseIdx k).map pages = (l.map pages).eraseIdx k :=
  (eraseIdx_map pages l k).symm

section

variable (h : Owned s) (hk : s.mappedPages[k]? = some mp)

include h hk

/-- The pages of a mapping are pages in use, and mapped exclusively. -/
theorem Owned.mapped_page (hp : p ∈ mp.pages) :
    IsPage p ∧ (s.entry p).isUnused = false ∧
      (s.entry p).flags.isExclusive = true := by
  have hpos : 0 < cover (s.mappedPages.map MappedPages.pages) p :=
    cover_pos_iff.mpr ⟨mp.pages, mem_map.mpr ⟨mp, mem_of_getElem? hk, rfl⟩, hp⟩
  have hpage : IsPage p := h.pages.isPage p (by rw [cover_append]; omega)
  have hused := (h.entries.live p hpage).mpr hpos
  exact ⟨hpage, hused, (h.entries.exclusive p hpage hused).2⟩

theorem Owned.inUse : InUse s.p4 mp.pages.toList := by
  have hpages := fun p (hp : p ∈ mp.pages.toList) => h.mapped_page hk (mem_toList.mp hp)
  exact ⟨fun p hp => (hpages p hp).2.1, mp.pages.nodup_toList.imp_of_mem fun hp hq hne heq =>
    hne (path_injective (hpages _ hp).1 (hpages _ hq).1 heq)⟩

theorem Owned.mem_path {q : ℕ} (hq : IsPage q) :
    path q ∈ mp.pages.toList.map path ↔ q ∈ mp.pages.toList := by
  rw [mem_map]
  refine ⟨fun ⟨p, hp, heq⟩ => ?_, fun hmem => ⟨q, hmem, rfl⟩⟩
  rw [← path_injective (h.mapped_page hk (mem_toList.mp hp)).1 hq heq]
  exact hp

/-- **A live mapping can always be unmapped.** Its entries are cleared, and each of its frames gets
one owner in their place. -/
theorem Owned.unmap :
    ∃ res p4' free', mp.unmap s.p4 s.targetP4 s.reserved s.freeFrames = (.ok res, p4', free') ∧
      (∀ q, IsPage q → entry p4' q = if q ∈ mp.pages.toList then .zero else s.entry q) ∧
      ∀ f, cover res.toList f + cover [free'] f ≤ cover [s.freeFrames] f +
        (mp.pages.toList.map fun p => (s.entry p).frameValue).count f := by
  obtain ⟨res, p4', free', hloop, hentry, hcount⟩ :=
    unmapLoop_spec s.reserved (h.inUse hk) ⟨none, none, s.freeFrames⟩
  obtain heq | ⟨htarget, -⟩ := mp.unmap_eq s.p4 s.targetP4 s.reserved s.freeFrames
  · refine ⟨res, p4', free', heq.trans hloop, fun q hq => ?_, hcount⟩
    rw [hentry q]
    exact if_congr (h.mem_path hk hq) rfl rfl
  · exact absurd (h.exclusive mp (mem_of_getElem? hk)).2.symm htarget

/-- Everything stays owned when a mapping is gone, and its pages and frames are with others. -/
theorem Owned.unmapped {p4' : P4}
    (hentry : ∀ q, IsPage q → entry p4' q = if q ∈ mp.pages.toList then .zero else s.entry q)
    (hle : ∀ f, cover held' f + cover [free'] f ≤ cover s.allocatedFrames f +
      cover [s.freeFrames] f + (mp.pages.toList.map fun p => (s.entry p).frameValue).count f)
    {freePages' : Finset ℕ}
    (hpages : PagesOwned allocated' ((s.mappedPages.map MappedPages.pages).eraseIdx k) freePages') :
    Owned { s with
      p4 := p4'
      freePages := freePages'
      freeFrames := free'
      allocatedPages := allocated'
      allocatedFrames := held'
      mappedPages := s.mappedPages.eraseIdx k } := by
  have hranges := getElem?_pages hk
  have hcover := cover_eraseIdx_add hranges
  have hframes : FramesOwned (entry p4') held' free' := by
    refine h.frames.unmap (fun p hp => ?_) mp.pages.nodup_toList hentry hle
    obtain ⟨hpage, hused, -⟩ := h.mapped_page hk (mem_toList.mp hp)
    exact ⟨hpage, hused⟩
  have hentries : EntriesOwned (entry p4')
      ((s.mappedPages.map MappedPages.pages).eraseIdx k) := by
    refine ⟨fun p hp => ?_, fun p hp hpu => ?_⟩
    · have hadd := hcover p
      have hone := h.pages.once p
      rw [cover_append] at hone
      rw [hentry p hp]
      by_cases hpm : p ∈ mp.pages
      · rw [if_pos (mem_toList.mpr hpm)]
        rw [cover_singleton, if_pos hpm] at hadd
        exact ⟨fun hzero => absurd hzero (by decide), fun hpos => by omega⟩
      · rw [if_neg (fun hmem => hpm (mem_toList.mp hmem)), h.entries.live p hp]
        rw [cover_singleton, if_neg hpm] at hadd
        omega
    · rw [hentry p hp] at hpu ⊢
      by_cases hpm : p ∈ mp.pages.toList
      · rw [if_pos hpm] at hpu
        exact absurd hpu (by decide)
      · rw [if_neg hpm] at hpu ⊢
        exact h.entries.exclusive p hp hpu
  rw [← map_eraseIdx_pages] at hpages hentries
  exact ⟨hpages, hframes, hentries, fun mp' hmp' => h.exclusive mp' (mem_of_mem_eraseIdx hmp')⟩

end

theorem Owned.unmapIntoParts (h : Owned s) (k : ℕ) : Owned (s.unmapIntoParts k) := by
  rw [MemState.unmapIntoParts]
  cases hk : s.mappedPages[k]? with
  | none => exact h
  | some mp => ?_
  obtain ⟨res, p4', free', hunmap, hentry, hcount⟩ := h.unmap hk
  have hranges := getElem?_pages hk
  dsimp only
  rw [hunmap]
  have hle : ∀ f, cover (res.toList ++ s.allocatedFrames) f + cover [free'] f ≤
      cover s.allocatedFrames f + cover [s.freeFrames] f +
        (mp.pages.toList.map fun p => (s.entry p).frameValue).count f := by
    intro f
    have := hcount f
    rw [cover_append]
    omega
  exact h.unmapped hk hentry hle
    (h.pages.move (perm_middle.symm.trans ((perm_cons_eraseIdx hranges).append_left _)))

theorem Owned.drop (h : Owned s) (k : ℕ) : Owned (s.drop k) := by
  rw [MemState.drop]
  cases hk : s.mappedPages[k]? with
  | none => exact h
  | some mp => ?_
  obtain ⟨res, p4', free', hunmap, hentry, hcount⟩ := h.unmap hk
  have hpages : PagesOwned s.allocatedPages ((s.mappedPages.map MappedPages.pages).eraseIdx k)
      (s.freePages ∪ mp.pages.toFinset) :=
    h.pages.drop (perm_middle.symm.trans ((perm_cons_eraseIdx (getElem?_pages hk)).append_left _))
  dsimp only
  rw [hunmap]
  have hle : ∀ f, cover s.allocatedFrames f + cover [free' ∪ Collected.dropped res] f ≤
      cover s.allocatedFrames f + cover [s.freeFrames] f +
        (mp.pages.toList.map fun p => (s.entry p).frameValue).count f := by
    intro f
    have hunion := cover_union_le free' (Collected.dropped res) f
    have := hcount f
    rw [Collected.cover_dropped] at hunion
    omega
  have hdropped := h.unmapped hk hentry hle hpages
  cases res with
  | none =>
    rw [show free' ∪ Collected.dropped none = free' from Finset.union_empty free'] at hdropped
    exact hdropped
  | some frames => exact hdropped

end Unmap

/-! ### Splitting and merging -/

/-- The same pages in other mappings, each of which has its flags from a mapping that there was. -/
structure Regroups (l l' : List MappedPages) : Prop where
  covers : ∀ n, cover (l'.map MappedPages.pages) n = cover (l.map MappedPages.pages) n
  proper : ∀ x ∈ l', Proper x.pages
  origin : ∀ x ∈ l', ∃ y ∈ l, x.flags = y.flags ∧ x.pageTableP4 = y.pageTableP4
  live : ∀ x ∈ l', ∀ n ∈ x.pages, ∃ y ∈ l, n ∈ y.pages ∧ y.flags = x.flags

theorem Regroups.split {k : ℕ} {mp : MappedPages} (hk : l[k]? = some mp)
    (hproper : ∀ x ∈ l, Proper x.pages) {atPage : ℕ} (hat : atPage ≤ maxPageNumber)
    {first second : MappedPages} (hsplit : mp.split atPage = some (first, second)) :
    Regroups l (first :: second :: l.eraseIdx k) := by
  obtain ⟨⟨a, b⟩, hparts, heq⟩ := Option.map_eq_some_iff.mp hsplit
  cases heq
  have hmem := mem_of_getElem? hk
  obtain ⟨ha, hb⟩ := PageAllocator.AllocatedPages.split_proper hparts (hproper mp hmem) hat
  have hcover := PageAllocator.AllocatedPages.cover_split hparts
  have hsub : ∀ n, 0 < cover [a] n + cover [b] n → n ∈ mp.pages := fun n hn => by
    rw [hcover n] at hn
    exact mem_of_cover_pos hn
  refine ⟨fun n => ?_, fun x hx => ?_, fun x hx => ?_, fun x hx n hn => ?_⟩
  · have hadd := cover_eraseIdx_add (getElem?_pages hk) n
    have hn := hcover n
    rw [map_cons, map_cons, map_eraseIdx_pages, cover_cons_eq_add, cover_cons_eq_add b]
    dsimp only
    omega
  all_goals
    rw [mem_cons, mem_cons] at hx
    rcases hx with rfl | rfl | hx
  · exact ha
  · exact hb
  · exact hproper x (mem_of_mem_eraseIdx hx)
  · exact ⟨mp, hmem, rfl, rfl⟩
  · exact ⟨mp, hmem, rfl, rfl⟩
  · exact ⟨x, mem_of_mem_eraseIdx hx, rfl, rfl⟩
  · exact ⟨mp, hmem, hsub n (by rw [cover_singleton, if_pos hn]; omega), rfl⟩
  · exact ⟨mp, hmem, hsub n (by rw [cover_singleton b, if_pos hn]; omega), rfl⟩
  · exact ⟨x, mem_of_mem_eraseIdx hx, hn, rfl⟩

theorem MappedPages.merge_eq_ok {self other merged : MappedPages}
    (h : self.merge other = .ok merged) :
    other.flags = self.flags ∧
      ∃ pages, PageAllocator.AllocatedPages.merge .page4K self.pages other.pages = some pages ∧
        merged = { self with pages := pages } := by
  rw [merge] at h
  split_ifs at h with hp4 hflags
  refine ⟨not_not.mp hflags, ?_⟩
  rcases hpages : PageAllocator.AllocatedPages.merge .page4K self.pages other.pages with
    _ | pages <;>
    rw [hpages] at h <;> cases h
  exact ⟨pages, rfl, rfl⟩

theorem Regroups.merge {j k : ℕ} (hkj : k ≠ j) {mp other merged : MappedPages}
    (hk : l[k]? = some mp) (hj : l[j]? = some other) (hproper : ∀ x ∈ l, Proper x.pages)
    (honce : cover (l.map pages) maxPageNumber ≤ 1)
    (hmerge : mp.merge other = .ok merged) : Regroups l ((l.set k merged).eraseIdx j) := by
  obtain ⟨hflags, pages, hpages, rfl⟩ := merge_eq_ok hmerge
  obtain ⟨rfl, hnext⟩ := PageAllocator.AllocatedPages.merge_eq_some hpages
  have hmem := mem_of_getElem? hk
  have hmem' := mem_of_getElem? hj
  have hranges := getElem?_pages hk
  have hranges' : ∀ r, ((l.map pages).set k r)[j]? = some other.pages := by
    intro r
    rw [getElem?_set_ne hkj]
    exact getElem?_pages hj
  -- the two ranges have no page in common, not even the last one
  have hone : cover [mp.pages] maxPageNumber + cover [other.pages] maxPageNumber ≤ 1 := by
    have hset := cover_set_add hranges empty maxPageNumber
    have herase := cover_eraseIdx_add (hranges' .empty) maxPageNumber
    have hempty : cover [empty] maxPageNumber = 0 := by decide
    omega
  have hjoin := PageAllocator.cover_join (hproper mp hmem) (hproper other hmem') hnext hone
  refine ⟨fun n => ?_, fun x hx => ?_, fun x hx => ?_, fun x hx n hn => ?_⟩
  · have hset := cover_set_add hranges ⟨mp.pages.start, other.pages.end_⟩ n
    have herase := cover_eraseIdx_add (hranges' ⟨mp.pages.start, other.pages.end_⟩) n
    have hn := hjoin n
    rw [map_eraseIdx_pages, map_set]
    dsimp only
    omega
  all_goals
    rcases mem_or_eq_of_mem_set (mem_of_mem_eraseIdx hx) with hx | rfl
  · exact hproper x hx
  · exact (hproper mp hmem).join (hproper other hmem') hnext
  · exact ⟨x, hx, rfl, rfl⟩
  · exact ⟨mp, hmem, rfl, rfl⟩
  · exact ⟨x, hx, hn, rfl⟩
  · have hn' := hjoin n
    rw [cover_singleton, if_pos hn] at hn'
    by_cases hnp : n ∈ mp.pages
    · exact ⟨mp, hmem, hnp, rfl⟩
    · rw [cover_singleton, if_neg hnp] at hn'
      have hpos : 0 < cover [other.pages] n := by omega
      exact ⟨other, hmem', mem_of_cover_pos hpos, hflags⟩

/-! ### The other operations of a mapping -/

section Mapping

variable {s : MemState} {k : ℕ} {mp : MappedPages}

variable (h : Owned s)

include h

theorem Owned.once : cover (s.mappedPages.map MappedPages.pages) p ≤ 1 := by
  have honce := h.pages.once p
  rw [cover_append] at honce
  omega

/-- Rewriting the flags of a mapping moves nothing. -/
theorem Owned.reflagged (hk : s.mappedPages[k]? = some mp) {p4' : P4} {mp' : MappedPages}
    (hpages : mp'.pages = mp.pages) (hp4 : mp'.pageTableP4 = mp.pageTableP4)
    (hexcl : mp'.flags.isExclusive = true)
    (hframe : ∀ p, IsPage p → (entry p4' p).frameValue = (s.entry p).frameValue)
    (hused : ∀ p, IsPage p → (entry p4' p).isUnused = (s.entry p).isUnused)
    (hflags : ∀ p, IsPage p → (s.entry p).isUnused = false →
      (entry p4' p).flags.isValid = true ∧ (entry p4' p).flags.isExclusive = true) :
    Owned { s with p4 := p4', mappedPages := s.mappedPages.set k mp' } := by
  have hranges : (s.mappedPages.set k mp').map MappedPages.pages =
      s.mappedPages.map MappedPages.pages := by
    rw [map_set, hpages]
    exact set_of_getElem? (getElem?_pages hk)
  have hentries : EntriesOwned (entry p4') (s.mappedPages.map MappedPages.pages) := by
    refine ⟨fun p hp => ?_, fun p hp hpu => ?_⟩
    · rw [hused p hp]
      exact h.entries.live p hp
    · rw [hused p hp] at hpu
      exact hflags p hp hpu
  have hpagesOwned := h.pages
  rw [← hranges] at hpagesOwned hentries
  refine ⟨hpagesOwned, h.frames.of_le hused hframe fun _ => le_refl _, hentries,
    fun mp'' hmp => ?_⟩
  rcases mem_or_eq_of_mem_set hmp with hmp | rfl
  · exact h.exclusive mp'' hmp
  · exact ⟨hexcl, hp4.trans (h.exclusive mp (mem_of_getElem? hk)).2⟩

theorem Owned.remap (hk : s.mappedPages[k]? = some mp) (newFlags : PteFlags) :
    Owned { s with
      p4 := (mp.remap s.p4 newFlags).2.2
      mappedPages := s.mappedPages.set k (mp.remap s.p4 newFlags).2.1 } := by
  obtain ⟨hexcl, -⟩ := h.exclusive mp (mem_of_getElem? hk)
  have hsame : Owned { s with p4 := s.p4, mappedPages := s.mappedPages.set k mp } :=
    h.reflagged hk rfl rfl hexcl (fun _ _ => rfl) (fun _ _ => rfl) h.entries.exclusive
  rw [MappedPages.remap]
  by_cases hempty : mp.pages.sizeInChunks .page4K = 0
  · rw [if_pos hempty]
    exact hsame
  split_ifs with hflags
  · exact hsame
  obtain ⟨p4', hloop, hentry⟩ := remapLoop_spec (mp.remapFlags newFlags) (h.inUse hk)
  have hnew : (mp.remapFlags newFlags).isValid = true ∧
      (mp.remapFlags newFlags).isExclusive = true := by
    rw [remapFlags, PteFlags.isValid_valid, PteFlags.isExclusive_valid,
      PteFlags.isExclusive_exclusive]
    exact ⟨rfl, hexcl⟩
  rw [hloop]
  refine h.reflagged hk rfl rfl hnew.2 (fun p hp => ?_) (fun p hp => ?_) (fun p hp hpu => ?_) <;>
    rw [hentry p]
  · split_ifs
    · exact frameValue_setFlags _ _
    · rfl
  · split_ifs with hmem
    · rw [show (s.entry p).isUnused = false from (h.inUse hk).used p ((h.mem_path hk hp).mp hmem)]
      refine isUnused_of_isValid ?_
      rw [flags_setFlags]
      exact hnew.1
    · rfl
  · split_ifs
    · rw [flags_setFlags]
      exact hnew
    · exact h.entries.exclusive p hp hpu

theorem Owned.proper (mp : MappedPages) (hmp : mp ∈ s.mappedPages) : Proper mp.pages :=
  h.pages.proper mp.pages (mem_append_right _ (mem_map.mpr ⟨mp, hmp, rfl⟩))

/-- Replacing mappings by others of the same pages moves nothing. -/
theorem Owned.regrouped {mappedPages' : List MappedPages}
    (hr : Regroups s.mappedPages mappedPages') : Owned { s with mappedPages := mappedPages' } := by
  have hpages : PagesOwned s.allocatedPages (mappedPages'.map MappedPages.pages) s.freePages := by
    refine h.pages.of_le (fun p => ?_) fun r hmem => ?_
    · rw [cover_append, cover_append, hr.covers p]
    · rcases mem_append.mp hmem with hmem | hmem
      · exact h.pages.proper r (mem_append_left _ hmem)
      · obtain ⟨mp, hmp, rfl⟩ := mem_map.mp hmem
        exact hr.proper mp hmp
  refine ⟨hpages, h.frames, h.entries.congr (fun _ _ => rfl) hr.covers, fun x hx => ?_⟩
  obtain ⟨y, hy, hflags, hp4⟩ := hr.origin x hx
  rw [hflags, hp4]
  exact h.exclusive y hy

end Mapping

/-! ### Runs -/

section

variable (h : Owned s)

include h

/-- Dropping allocated pages or frames that were never mapped. -/
theorem Owned.dropPages {i : ℕ} {pages : PageRange} (hi : s.allocatedPages[i]? = some pages) :
    Owned (dropPages { s with allocatedPages := s.allocatedPages.eraseIdx i } pages) :=
  h.notMapped hi (fun _ _ => rfl) fun _ => le_rfl

theorem Owned.dropFrames {i : ℕ} {frames : Frames} (hi : s.allocatedFrames[i]? = some frames) :
    Owned (dropFrames { s with allocatedFrames := s.allocatedFrames.eraseIdx i }
      frames) := by
  refine ⟨h.pages, h.frames.of_le (fun _ _ => rfl) (fun _ _ => rfl) fun f => ?_, h.entries,
    h.exclusive⟩
  have hunion := cover_union_le s.freeFrames frames.range.toFinset f
  have herase := cover_eraseIdx_add hi f
  rw [cover_toFinset, ← FrameAllocator.cover_frames] at hunion
  show cover (s.allocatedFrames.eraseIdx i) f + cover [s.freeFrames ∪ frames.range.toFinset] f ≤ _
  omega

theorem Owned.allocateFrames {r : FrameRange} (hfree : r.toFinset ⊆ s.freeFrames) :
    Owned { s with
      freeFrames := s.freeFrames \ r.toFinset
      allocatedFrames := intoUnmappedFrames s.reserved r :: s.allocatedFrames } := by
  refine ⟨h.pages, h.frames.of_le (fun _ _ => rfl) (fun _ _ => rfl) fun f => ?_, h.entries,
    h.exclusive⟩
  have hadd := cover_sdiff_add hfree f
  rw [cover_toFinset] at hadd
  rw [cover_cons_eq_add]
  show cover [r] f + _ + cover [s.freeFrames \ r.toFinset] f ≤ _
  omega

omit h in
/-- No operation makes an entry of the upper levels with the bit for huge pages. -/
theorem clear_step (h : s.p4.Clear) (op : MemOp) : (s.step op).p4.Clear := by
  have hmapTo : ∀ pages frames flags supply,
      Clear (internalMapTo s.p4 s.targetP4 pages frames flags true supply).2.1 := by
    intro pages frames flags supply
    rw [internalMapTo]
    split_ifs
    · exact h
    · split
      all_goals exact mapFrames_upper (fun _ => id) h ‹_›
  have hmap : ∀ pages flags supply,
      Clear (Paging.mapAllocatedPages s.p4 s.targetP4 pages flags supply).2.1 := by
    intro pages flags supply
    rw [Paging.mapAllocatedPages]
    split
    all_goals exact mapFresh_upper (fun _ => id) h ‹_›
  have hunmap : ∀ mp : MappedPages, Clear (mp.unmap s.p4 s.targetP4 s.reserved s.freeFrames).2.1 := by
    intro mp
    obtain heq | ⟨-, e, heq⟩ := mp.unmap_eq s.p4 s.targetP4 s.reserved s.freeFrames <;> rw [heq]
    · exact unmapLoop_upper h rfl
    · exact h
  cases op with rw [MemState.step]
  | allocatePages range | allocateFrames range =>
    split_ifs <;> exact h
  | dropPages i | dropFrames i | split k atPage =>
    repeat' split
    all_goals exact h
  | mapAllocatedPagesTo i j flags outcomes =>
    rw [MemState.mapAllocatedPagesTo]
    split
    · dsimp only
      split
      all_goals exact hmapTo _ _ _ _
    · exact h
  | mapAllocatedPages i flags outcomes =>
    rw [MemState.mapAllocatedPages]
    split
    · dsimp only
      split
      all_goals exact hmap _ _ _
    · exact h
  | remap k newFlags =>
    split
    · show Clear (MappedPages.remap _ s.p4 newFlags).2.2
      rw [MappedPages.remap]
      split_ifs
      · exact h
      · exact h
      · split
        all_goals exact remapLoop_upper h ‹_›
    · exact h
  | merge k l =>
    repeat' split
    all_goals exact h
  | unmapIntoParts k =>
    rw [MemState.unmapIntoParts]
    split
    · dsimp only
      split
      all_goals exact hunmap _
    · exact h
  | drop k =>
    rw [MemState.drop]
    split
    · dsimp only
      split
      all_goals exact hunmap _
    · exact h

variable (hclear : s.p4.Clear)

include hclear

/-- **One operation.** Everything stays owned if the frames suffice for all pages or for none. -/
theorem Owned.step (op : MemOp) (hg : FramesForAllOrNone s op) : Owned (s.step op) := by
  cases op with rw [MemState.step]
  | allocatePages range =>
    split_ifs with hr
    · exact ⟨h.pages.allocate hr.1 hr.2, h.frames, h.entries, h.exclusive⟩
    · exact h
  | allocateFrames range =>
    split_ifs with hr
    · exact h.allocateFrames hr.2
    · exact h
  | dropPages i =>
    cases hi : s.allocatedPages[i]? with
    | none => exact h
    | some pages => exact h.dropPages hi
  | dropFrames i =>
    cases hi : s.allocatedFrames[i]? with
    | none => exact h
    | some frames => exact h.dropFrames hi
  | mapAllocatedPagesTo i j flags outcomes => exact
    (h.mapAllocatedPagesTo hclear i j flags outcomes).1 hg
  | mapAllocatedPages i flags outcomes => exact (h.mapAllocatedPages hclear i flags outcomes).1 hg
  | remap k newFlags =>
    cases hk : s.mappedPages[k]? with
    | none => exact h
    | some mp => exact h.remap hk newFlags
  | split k atPage =>
    cases hk : s.mappedPages[k]? with
    | none => exact h
    | some mp =>
      dsimp only
      rcases hsplit : mp.split (containingAddress atPage) with _ | ⟨first, second⟩
      · exact h
      · exact h.regrouped (.split hk h.proper (containingAddress_le atPage) hsplit)
  | merge k l =>
    split_ifs with hkl
    · exact h
    cases hk : s.mappedPages[k]? with
    | none => exact h
    | some mp => ?_
    cases hl : s.mappedPages[l]? with
    | none => exact h
    | some other =>
      dsimp only
      cases hmerge : mp.merge other with
      | error e => exact h
      | ok merged => exact h.regrouped (.merge hkl hk hl h.proper h.once hmerge)
  | unmapIntoParts k => exact h.unmapIntoParts k
  | drop k => exact h.drop k

/-- The condition is exact for a single step. -/
theorem Owned.step_iff (op : MemOp) : Bijective (s.step op) ↔ FramesForAllOrNone s op := by
  refine ⟨fun hbij => ?_, fun hg => (h.step hclear op hg).bijective⟩
  cases op with
  | mapAllocatedPagesTo i j flags outcomes =>
    exact (h.mapAllocatedPagesTo hclear i j flags outcomes).2 hbij
  | mapAllocatedPages i flags outcomes => exact
    (h.mapAllocatedPages hclear i flags outcomes).2 hbij
  | _ => trivial

end

theorem owned_run {targetP4 : ℕ} {reserved pages frames : Finset ℕ} {ops : List MemOp}
    (hg : Guarded MemState.step FramesForAllOrNone (.init targetP4 reserved pages frames) ops) :
    Owned (run MemState.step (.init targetP4 reserved pages frames) ops) ∧
      Clear (run MemState.step (.init targetP4 reserved pages frames) ops).p4 := by
  refine hg.invariant (I := fun s => Owned s ∧ s.p4.Clear) ?_ ?_
  · exact fun s op h hop => ⟨h.1.step h.2 op hop, clear_step h.2 op⟩
  · exact ⟨Owned.init targetP4 reserved pages frames, Table.upper_default fun _ => id⟩

end Paging

end Maios
