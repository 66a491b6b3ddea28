import Mathlib.Order.Interval.Finset.Nat
import Maios.Memory.FrameAllocator
import Maios.Memory.PageAllocator
import Maios.Memory.PageTable

/-!
# Mapping and unmapping pages

`paging/mapper.rs`: the two functions that map allocated pages, to given frames or to fresh ones,
and the operations of the `MappedPages` they return. A mapping owns its pages as an object, and its
frames only through its page table entries: the `AllocatedFrames` are forgotten once the entries are
written, and unmapping makes them anew out of what the entries hold.

The two allocators are sets here. Which frame an allocation inside of a call yields, and whether it
yields one, is part of the operation; so is the range that an allocation of the client yields. Pages
and frames are those of 4 KiB, since nothing in the source makes `AllocatedFrames` of another size.
There is one page table, which is the current one, and the callback that makes `UnmappedFrames` is in
place.

A call that panics for want of a frame unwinds its stack, which drops the objects it was given, as
returning an error does.
-/

namespace Maios

namespace ChunkRange

/-- The chunks of a range in order, as its iterator yields them. -/
def toList (r : ChunkRange) : List ℕ := List.range' r.start (r.end_ + 1 - r.start)

/-- The chunks of a range as a set. -/
def toFinset (r : ChunkRange) : Finset ℕ := Finset.Icc r.start r.end_

@[simp] theorem mem_toList {r : ChunkRange} {n : ℕ} : n ∈ r.toList ↔ n ∈ r := by
  rw [toList, List.mem_range'_1, mem_iff]
  omega

@[simp] theorem mem_toFinset {r : ChunkRange} {n : ℕ} : n ∈ r.toFinset ↔ n ∈ r := by
  rw [toFinset, Finset.mem_Icc, mem_iff]

theorem nodup_toList (r : ChunkRange) : r.toList.Nodup := List.nodup_range'

end ChunkRange

namespace Paging

open FrameAllocator (Frames MemoryRegionType)

/-! ### The page table as a whole -/

/-- The entry that the four indices of a page lead to. -/
def P4.entryAt (p4 : P4) : Index × Index × Index × Index → PageTableEntry :=
  Table.entryBy (Table.entryBy (Table.entryBy fun (p1 : P1) i => p1 i)) p4

/-- The entry of a page. -/
def P4.entry (p4 : P4) (page : ℕ) : PageTableEntry := P4.entryAt p4 (path page)

/-- Borrow the lowest table on the way to a page, if all tables on the way exist. -/
def P4.withP1 {β : Type} (p4 : P4) (page : ℕ) (k : P1 → β × P1) : Option (β × P4) :=
  p4.nextTableMut (p4Index page) fun p3 =>
    p3.nextTableMut (p3Index page) fun p2 =>
      p2.nextTableMut (p2Index page) fun p1 => some (k p1)

/-- The body of the two mapping loops: make the tables on the way, and write an unused entry. -/
def mapPage (p4 : P4) (page frame : ℕ) (higherLevelFlags actualFlags : PteFlags) (inUse : String)
    (supply : FrameSupply) : Outcome String Unit × P4 × FrameSupply :=
  p4.nextTableCreate (p4Index page) higherLevelFlags supply fun p3 supply =>
    p3.nextTableCreate (p3Index page) higherLevelFlags supply fun p2 supply =>
      p2.nextTableCreate (p2Index page) higherLevelFlags supply fun p1 supply =>
        if !(p1 (p1Index page)).isUnused then (.err inUse, p1, supply)
        else
          (.ok (), Function.update p1 (p1Index page) (.setEntry frame actualFlags), supply)

/-! ### Mapping -/

/-- The region of contiguous pages that a `MappedPages` stands for. -/
structure MappedPages where
  pageTableP4 : ℕ
  pages : PageRange
  flags : PteFlags

/-- The loop of `internal_map_to`, over pages and frames in lockstep. -/
def mapFrames (higherLevelFlags actualFlags : PteFlags) :
    List (ℕ × ℕ) → P4 → FrameSupply → Outcome String Unit × P4 × FrameSupply
  | [], p4, supply => (.ok (), p4, supply)
  | (page, frame) :: rest, p4, supply =>
    match mapPage p4 page frame higherLevelFlags actualFlags
      "map_allocated_pages_to(): page was already in use" supply with
    | (.ok _, p4, supply) => mapFrames higherLevelFlags actualFlags rest p4 supply
    | failed => failed

/-- The loop of `map_allocated_pages`: every page gets a frame of its own. -/
def mapFresh (higherLevelFlags actualFlags : PteFlags) :
    List ℕ → P4 → FrameSupply → Outcome String Unit × P4 × FrameSupply
  | [], p4, supply => (.ok (), p4, supply)
  | page :: rest, p4, supply =>
    match supply.allocateFrame with
    | (none, supply) =>
      (.err "map_allocated_pages(): couldn't allocate new frame, out of memory", p4, supply)
    | (some af, supply) =>
      match mapPage p4 page af higherLevelFlags actualFlags
        "map_allocated_pages(): page was already in use" supply with
      | (.ok _, p4, supply) => mapFresh higherLevelFlags actualFlags rest p4 supply
      | (failed, p4, supply) => (failed, p4, supply.dropFrame af)

/-- The flags that the entries of a mapping get. Only owned frames are mapped exclusively. -/
def actualFlags (flags : PteFlags) (owned : Bool) : PteFlags := (flags.valid true).exclusive owned

/-- `internal_map_to`. -/
def internalMapTo (p4 : P4) (targetP4 : ℕ) (pages : PageRange) (frames : FrameRange)
    (flags : PteFlags) (owned : Bool) (supply : FrameSupply) :
    Outcome String MappedPages × P4 × FrameSupply :=
  if pages.sizeInChunks .page4K ≠ frames.sizeInChunks .page4K then
    (.err "map_allocated_pages_to(): page count must equal frame count", p4, supply)
  else
    match mapFrames flags.adjustForHigherLevelPte (actualFlags flags owned)
      (pages.toList.zip frames.toList) p4 supply with
    | (.ok _, p4, supply) => (.ok ⟨targetP4, pages, actualFlags flags owned⟩, p4, supply)
    | (.err e, p4, supply) => (.err e, p4, supply)
    | (.panic, p4, supply) => (.panic, p4, supply)

/-- `map_allocated_pages`. -/
def mapAllocatedPages (p4 : P4) (targetP4 : ℕ) (pages : PageRange) (flags : PteFlags)
    (supply : FrameSupply) : Outcome String MappedPages × P4 × FrameSupply :=
  match mapFresh flags.adjustForHigherLevelPte (actualFlags flags true) pages.toList p4 supply with
  | (.ok _, p4, supply) => (.ok ⟨targetP4, pages, actualFlags flags true⟩, p4, supply)
  | (.err e, p4, supply) => (.err e, p4, supply)
  | (.panic, p4, supply) => (.panic, p4, supply)

/-! ### Unmapping -/

/-- `into_unmapped_frames`, with the frames of the reserved regions. -/
def intoUnmappedFrames (reserved : Finset ℕ) (frames : FrameRange) : Frames :=
  ⟨if (reserved ∩ frames.toFinset).Nonempty then .reserved else .free, frames⟩

/-- The local variables of `unmap`, together with the frames it has dropped so far. -/
structure Collected where
  firstFrameRange : Option Frames
  currentFrameRange : Option Frames
  free : Finset ℕ

namespace Collected

/-- Take over the frame of one entry: extend the current range, or finish it and begin a new one. -/
def push (c : Collected) (newly : Frames) : Collected :=
  match c.currentFrameRange with
  | none => { c with currentFrameRange := some newly }
  | some curr =>
    match curr.merge .page4K newly with
    | some merged => { c with currentFrameRange := some merged }
    | none =>
      match c.firstFrameRange with
      | none => { c with firstFrameRange := some curr, currentFrameRange := some newly }
      | some _ =>
        { c with currentFrameRange := some newly, free := c.free ∪ curr.range.toFinset }

/-- Frames that go out of scope. -/
def dropped (frames : Option Frames) : Finset ℕ := frames.elim ∅ fun f => f.range.toFinset

/-- The end of the loop: the first range is returned, or else the current one. -/
def finish (c : Collected) : Option Frames × Finset ℕ :=
  match c.firstFrameRange with
  | some first => (some first, c.free ∪ dropped c.currentFrameRange)
  | none => (c.currentFrameRange, c.free)

/-- An early return: both ranges are dropped. -/
def abandon (c : Collected) : Finset ℕ :=
  c.free ∪ dropped c.firstFrameRange ∪ dropped c.currentFrameRange

end Collected

/-- The body of the loop of `unmap`. Nothing comes back where a table is missing, and no result
where the entry is unused. -/
def unmapPage (p4 : P4) (page : ℕ) : Option (Option UnmapResult × P4) :=
  P4.withP1 p4 page fun p1 =>
    if (p1 (p1Index page)).isUnused then (none, p1)
    else
      let r := (p1 (p1Index page)).setUnmapped
      (some r.1, Function.update p1 (p1Index page) r.2)

/-- The loop of `unmap`. -/
def unmapLoop (reserved : Finset ℕ) :
    List ℕ → P4 → Collected → Outcome String (Option Frames) × P4 × Finset ℕ
  | [], p4, c => (.ok c.finish.1, p4, c.finish.2)
  | page :: rest, p4, c =>
    match unmapPage p4 page with
    | none => (.err "mapping code does not support huge pages", p4, c.abandon)
    | some (none, p4) => (.err "unmap(): page not mapped", p4, c.abandon)
    | some (some (.exclusive frames), p4) =>
      unmapLoop reserved rest p4 (c.push (intoUnmappedFrames reserved frames))
    | some (some (.nonExclusive _), p4) => unmapLoop reserved rest p4 c

namespace MappedPages

/-- `unmap`, with the free frames before and after. -/
def unmap (self : MappedPages) (p4 : P4) (targetP4 : ℕ) (reserved free : Finset ℕ) :
    Outcome String (Option Frames) × P4 × Finset ℕ :=
  if self.pages.sizeInChunks .page4K = 0 then (.ok none, p4, free)
  else if targetP4 ≠ self.pageTableP4 then
    (.err ("BUG: MappedPages::unmap(): current P4 must equal original P4, cannot unmap MappedPages " ++
      "from a different page table than they were originally mapped to!"), p4, free)
  else unmapLoop reserved self.pages.toList p4 ⟨none, none, free⟩

/-! ### The other operations of a mapping -/

/-- `merge`: the mapping that `self` is afterwards, or the error. -/
def merge (self mp : MappedPages) : Except String MappedPages :=
  if mp.pageTableP4 ≠ self.pageTableP4 then
    .error "failed to merge MappedPages that were mapped into different page tables"
  else if mp.flags ≠ self.flags then
    .error "failed to merge MappedPages that were mapped with different flags"
  else
    match PageAllocator.AllocatedPages.merge .page4K self.pages mp.pages with
    | none => .error "failed to merge MappedPages that weren't virtually contiguous"
    | some pages => .ok { self with pages := pages }

/-- `split`: the two parts, or nothing if the page is out of bounds. -/
def split (self : MappedPages) (atPage : ℕ) : Option (MappedPages × MappedPages) :=
  (PageAllocator.AllocatedPages.split .page4K self.pages atPage).map fun parts =>
    ({ self with pages := parts.1 }, { self with pages := parts.2 })

/-- The loop of `remap`. -/
def remapLoop (newFlags : PteFlags) : List ℕ → P4 → Outcome String Unit × P4
  | [], p4 => (.ok (), p4)
  | page :: rest, p4 =>
    let rewritten := P4.withP1 p4 page fun p1 =>
      ((), Function.update p1 (p1Index page) ((p1 (p1Index page)).setFlags newFlags))
    match rewritten with
    | none => (.err "mapping code does not support huge pages", p4)
    | some (_, p4) => remapLoop newFlags rest p4

/-- The flags that `remap` writes: the entries stay valid, and exclusive or not as they were. -/
def remapFlags (self : MappedPages) (newFlags : PteFlags) : PteFlags :=
  (newFlags.exclusive self.flags.isExclusive).valid true

/-- `remap`. -/
def remap (self : MappedPages) (p4 : P4) (newFlags : PteFlags) :
    Outcome String Unit × MappedPages × P4 :=
  if self.pages.sizeInChunks .page4K = 0 then (.ok (), self, p4)
  else if self.remapFlags newFlags = self.flags then (.ok (), self, p4)
  else
    match remapLoop (self.remapFlags newFlags) self.pages.toList p4 with
    | (.ok _, p4) => (.ok (), { self with flags := self.remapFlags newFlags }, p4)
    | (failed, p4) => (failed, self, p4)

end MappedPages

/-! ### The memory system -/

/-- The page table, the two allocators, and the objects that clients hold. -/
structure MemState where
  p4 : P4
  targetP4 : ℕ
  reserved : Finset ℕ
  freePages : Finset ℕ
  freeFrames : Finset ℕ
  allocatedPages : List PageRange
  allocatedFrames : List Frames
  mappedPages : List MappedPages

/-- The operations of clients, on objects by their place in the lists of the state. An allocation
carries the range that the allocator chose; a call that allocates frames on its way carries what each
of these allocations comes to. -/
inductive MemOp where
  | allocatePages (range : PageRange)
  | allocateFrames (range : FrameRange)
  | dropPages (i : ℕ)
  | dropFrames (i : ℕ)
  | mapAllocatedPagesTo (i j : ℕ) (flags : PteFlags) (outcomes : List (Option ℕ))
  | mapAllocatedPages (i : ℕ) (flags : PteFlags) (outcomes : List (Option ℕ))
  | remap (k : ℕ) (newFlags : PteFlags)
  | split (k : ℕ) (atPage : Address)
  | merge (k l : ℕ)
  | unmapIntoParts (k : ℕ)
  | drop (k : ℕ)

namespace MemState

/-- Nothing is mapped and nothing is handed out; the allocators have any pages and frames. -/
def init (targetP4 : ℕ) (reserved pages frames : Finset ℕ) : MemState where
  p4 := default
  targetP4 := targetP4
  reserved := reserved
  freePages := pages.filter IsPage
  freeFrames := frames.filter IsFrame
  allocatedPages := []
  allocatedFrames := []
  mappedPages := []

def entry (s : MemState) (page : ℕ) : PageTableEntry := P4.entry s.p4 page

/-- What the allocator of frames does for the duration of a call. -/
def supply (s : MemState) (outcomes : List (Option ℕ)) : FrameSupply := ⟨s.freeFrames, outcomes⟩

def dropPages (s : MemState) (pages : PageRange) : MemState :=
  { s with freePages := s.freePages ∪ pages.toFinset }

def dropFrames (s : MemState) (frames : Frames) : MemState :=
  { s with freeFrames := s.freeFrames ∪ frames.range.toFinset }

/-- `map_allocated_pages_to`. On success the frames are forgotten; an error or a panic drops both
arguments. -/
def mapAllocatedPagesTo (s : MemState) (i j : ℕ) (flags : PteFlags)
    (outcomes : List (Option ℕ)) : MemState :=
  match s.allocatedPages[i]?, s.allocatedFrames[j]? with
  | some pages, some frames =>
    let r := internalMapTo s.p4 s.targetP4 pages frames.range flags true (s.supply outcomes)
    let s := { s with
      p4 := r.2.1
      freeFrames := r.2.2.free
      allocatedPages := s.allocatedPages.eraseIdx i
      allocatedFrames := s.allocatedFrames.eraseIdx j }
    match r.1 with
    | .ok mp => { s with mappedPages := mp :: s.mappedPages }
    | _ => (s.dropPages pages).dropFrames frames
  | _, _ => s

/-- `map_allocated_pages`. An error or a panic drops the pages. -/
def mapAllocatedPages (s : MemState) (i : ℕ) (flags : PteFlags)
    (outcomes : List (Option ℕ)) : MemState :=
  match s.allocatedPages[i]? with
  | some pages =>
    let r := Paging.mapAllocatedPages s.p4 s.targetP4 pages flags (s.supply outcomes)
    let s := { s with
      p4 := r.2.1
      freeFrames := r.2.2.free
      allocatedPages := s.allocatedPages.eraseIdx i }
    match r.1 with
    | .ok mp => { s with mappedPages := mp :: s.mappedPages }
    | _ => s.dropPages pages
  | none => s

/-- `unmap_into_parts`: a mapping that could not be unmapped is given back. -/
def unmapIntoParts (s : MemState) (k : ℕ) : MemState :=
  match s.mappedPages[k]? with
  | some mp =>
    let r := mp.unmap s.p4 s.targetP4 s.reserved s.freeFrames
    let s := { s with p4 := r.2.1, freeFrames := r.2.2 }
    match r.1 with
    | .ok firstFrames =>
      { s with
        mappedPages := s.mappedPages.eraseIdx k
        allocatedPages := mp.pages :: s.allocatedPages
        allocatedFrames := firstFrames.toList ++ s.allocatedFrames }
    | _ => s
  | none => s

/-- The drop handler of a mapping: its pages are deallocated whether or not it could be unmapped. -/
def drop (s : MemState) (k : ℕ) : MemState :=
  match s.mappedPages[k]? with
  | some mp =>
    let r := mp.unmap s.p4 s.targetP4 s.reserved s.freeFrames
    let s := { s with
      p4 := r.2.1
      freeFrames := r.2.2
      mappedPages := s.mappedPages.eraseIdx k }
    match r.1 with
    | .ok (some firstFrames) => (s.dropFrames firstFrames).dropPages mp.pages
    | _ => s.dropPages mp.pages
  | none => s

/-- One operation. An operation on an object that does not exist is none, and so is an allocation of
what is not free. -/
def step (s : MemState) : MemOp → MemState
  | .allocatePages range =>
    if range.start ≤ range.end_ ∧ range.toFinset ⊆ s.freePages then
      { s with
        freePages := s.freePages \ range.toFinset
        allocatedPages := range :: s.allocatedPages }
    else s
  | .allocateFrames range =>
    if range.start ≤ range.end_ ∧ range.toFinset ⊆ s.freeFrames then
      { s with
        freeFrames := s.freeFrames \ range.toFinset
        allocatedFrames := intoUnmappedFrames s.reserved range :: s.allocatedFrames }
    else s
  | .dropPages i =>
    match s.allocatedPages[i]? with
    | some pages =>
      { s with allocatedPages := s.allocatedPages.eraseIdx i }.dropPages pages
    | none => s
  | .dropFrames i =>
    match s.allocatedFrames[i]? with
    | some frames =>
      { s with allocatedFrames := s.allocatedFrames.eraseIdx i }.dropFrames frames
    | none => s
  | .mapAllocatedPagesTo i j flags outcomes => s.mapAllocatedPagesTo i j flags outcomes
  | .mapAllocatedPages i flags outcomes => s.mapAllocatedPages i flags outcomes
  | .remap k newFlags =>
    match s.mappedPages[k]? with
    | some mp =>
      let r := mp.remap s.p4 newFlags
      { s with p4 := r.2.2, mappedPages := s.mappedPages.set k r.2.1 }
    | none => s
  | .split k atPage =>
    match s.mappedPages[k]? with
    | some mp =>
      match mp.split (containingAddress atPage) with
      | some (first, second) =>
        { s with mappedPages := first :: second :: s.mappedPages.eraseIdx k }
      | none => s
    | none => s
  | .merge k l =>
    if k = l then s
    else
      match s.mappedPages[k]?, s.mappedPages[l]? with
      | some self, some mp =>
        match self.merge mp with
        | .ok merged => { s with mappedPages := (s.mappedPages.set k merged).eraseIdx l }
        | .error _ => s
      | _, _ => s
  | .unmapIntoParts k => s.unmapIntoParts k
  | .drop k => s.drop k

end MemState

end Paging

end Maios
