import Maios.Library.Outcome
import Maios.Library.Run
import Maios.Memory.Structs
import Maios.Memory.StaticArrayRBTree

/-!
# The page allocator

The `page_allocator` crate: chunks of free virtual pages in one list, an `AllocatedPages` for
every range that was handed out, and the `DeferredAllocAction` that gives the unused parts of the
chosen chunk back when it is dropped.

Page numbers saturate at both ends of the address space, except in `align_up`, which may yield a
page number beyond the largest one. A request at an address for which the chunk found is too
short first merges the chunks that follow contiguously, and then cuts the request out of the
chunk as it was *before* merging.
-/

namespace Maios.PageAllocator

/-! ### Constants of the address space -/

/-- `canonicalize` on x86_64 for an address in the upper half. -/
def canonicalHigh (addr : ℕ) : ℕ := 0xFFFF000000000000 + addr

/-- The first page of an entry of the top-level page table in the upper half. -/
def pageOfP4Index (index : ℕ) : ℕ := canonicalHigh (index * 2 ^ 39) / pageSize

/-- `DESIGNATED_PAGES_HIGH_START`: the start of the P4 entry that maps the upcoming page table. -/
def designatedPagesHighStart : ℕ := pageOfP4Index 508

/-- The page of `KERNEL_HEAP_START`. -/
def kernelHeapStart : ℕ := pageOfP4Index 509

/-- The page of `RECURSIVE_P4_START`. -/
def recursiveP4Start : ℕ := pageOfP4Index 510

/-- The page of `KERNEL_TEXT_START`. -/
def kernelTextStart : ℕ := pageOfP4Index 511

/-- A chunk of free pages. Chunks are ordered by their first page only. -/
abbrev Chunk := PageRange

/-! ### Allocated pages -/

namespace AllocatedPages

/-- `merge`: the pages of `ap` must begin right behind those of `self`. -/
def merge (P : PageSize) (self ap : PageRange) : Option PageRange :=
  if ap.start ≠ chunkAdd P self.end_ 1 then none else some ⟨self.start, ap.end_⟩

/-- `split`: the pages below `atPage`, and those from it on. -/
def split (P : PageSize) (self : PageRange) (atPage : ℕ) : Option (PageRange × PageRange) :=
  let endOfFirst := chunkSub P atPage 1
  if atPage = self.start ∧ atPage ≤ self.end_ then some (.empty, ⟨atPage, self.end_⟩)
  else if atPage = chunkAdd P self.end_ 1 ∧ self.start ≤ endOfFirst then
    some (⟨self.start, self.end_⟩, .empty)
  else if self.start < atPage ∧ endOfFirst ≤ self.end_ then
    some (⟨self.start, endOfFirst⟩, ⟨atPage, self.end_⟩)
  else none

end AllocatedPages

/-! ### Errors and deferred actions -/

inductive AllocationError where
  | addressNotFree (page numPages : ℕ)
  | outOfAddressSpace (numPages : ℕ) (range : Option PageRange)
  | notInitialized
  deriving DecidableEq, Repr

/-- `From<AllocationError> for &'static str`. -/
def AllocationError.message : AllocationError → String
  | .addressNotFree .. => "address was in use or outside of this page allocator's range"
  | .outOfAddressSpace _ (some _) => "out of virtual address space in specified range"
  | .outOfAddressSpace _ none => "out of virtual address space"
  | .notInitialized => "the page allocator has not yet been initialized"

/-- The chunks that go back to the free list when the action is dropped. -/
structure DeferredAllocAction where
  free1 : Chunk
  free2 : Chunk
  deriving DecidableEq, Repr

def DeferredAllocAction.new (free1 free2 : Option Chunk) : DeferredAllocAction :=
  ⟨free1.getD .empty, free2.getD .empty⟩

section List

variable {R : OrderedTree Chunk ChunkRange.start}

/-! ### Giving pages back -/

/-- `Drop` for `AllocatedPages` on the tree, when the chunk behind the cursor `i` cannot take the
pages: the chunk before it may, otherwise they become a chunk of their own. -/
def appendOrInsert (tree : R.Tree) (i : ℕ) (chunk : Chunk) : R.Tree :=
  match if i = 0 then none else R.get tree (i - 1) with
  | some prev =>
    if chunkAdd .page4K prev.end_ 1 = chunk.start then
      R.replaceWith tree (i - 1) ⟨prev.start, chunk.end_⟩
    else R.insert tree chunk
  | none => R.insert tree chunk

/-- `Drop` for `AllocatedPages`. Pages that a full array refuses are lost. -/
def dropPages (P : PageSize) (list : StaticArrayRBTree R) (pages : PageRange) :
    StaticArrayRBTree R :=
  if pages.sizeInChunks P = 0 then list
  else
    let chunk := pages.into4K P
    match list with
    | .array arr => ((StaticArrayRBTree.array arr).insert chunk).getD (.array arr)
    | .rbTree tree =>
      let i := R.lowerBound tree chunk.start
      match R.get tree i with
      | some next =>
        if chunkAdd .page4K chunk.end_ 1 = next.start then
          .rbTree (R.replaceWith tree i ⟨chunk.start, next.end_⟩)
        else .rbTree (appendOrInsert tree i chunk)
      | none => .rbTree (appendOrInsert tree i chunk)

/-- One of the two insertions of `Drop` for `DeferredAllocAction`. A full array makes it panic,
and the chunk is lost. -/
def insertDeferred (list : StaticArrayRBTree R) (chunk : Chunk) : StaticArrayRBTree R :=
  if 0 < chunk.sizeInChunks .page4K then (list.insert chunk).getD list else list

/-- `Drop` for `DeferredAllocAction`. -/
def dropAction (list : StaticArrayRBTree R) (action : DeferredAllocAction) : StaticArrayRBTree R :=
  insertDeferred (insertDeferred list action.free1) action.free2

/-! ### Taking pages out -/

/-- The pages a request gets. -/
def newAllocation (startPage numPages : ℕ) : PageRange :=
  ⟨startPage, chunkAdd .page4K startPage (numPages - 1)⟩

/-- What is left of the chosen chunk below the allocation. -/
def before (startPage : ℕ) (chosenChunk : Chunk) : Option Chunk :=
  if startPage = 0 then none else some ⟨chosenChunk.start, chunkSub .page4K startPage 1⟩

/-- What is left of the chosen chunk above the allocation. -/
def after (endPage : ℕ) (chosenChunk : Chunk) : Option Chunk :=
  if endPage = maxPageNumber then none
  else some ⟨chunkAdd .page4K endPage 1, chosenChunk.end_⟩

/-- `adjust_chosen_chunk`. `chosenChunk` is the caller's copy of the chosen chunk; `removed` is
the chunk that the reference into `list` removes, and `rest` the list without it. The last
assertion compares the first pages of the two only. -/
def adjustChosenChunk (startPage numPages : ℕ) (chosenChunk : Chunk) (list : StaticArrayRBTree R)
    (removed : Chunk) (rest : StaticArrayRBTree R) :
    Outcome AllocationError (PageRange × DeferredAllocAction) × StaticArrayRBTree R :=
  let allocation := newAllocation startPage numPages
  let before := before startPage chosenChunk
  let after := after allocation.end_ chosenChunk
  let beforeOk := before.all fun b => !allocation.contains b.end_ && !b.contains allocation.start
  let afterOk := after.all fun a => !allocation.contains a.start && !a.contains allocation.end_
  if beforeOk && afterOk then
    if chosenChunk.start = removed.start then (.ok (allocation, .new before after), rest)
    else (.panic, rest)
  else (.panic, list)

/-- The loop that removes the chunks that follow contiguously, with the cursor at `i`. Each turn
removes a chunk, so as many turns as there are chunks are enough. -/
def mergeContiguous (tree : R.Tree) (i newEndPage : ℕ) : ℕ → R.Tree × ℕ
  | 0 => (tree, newEndPage)
  | turns + 1 =>
    match R.get tree i with
    | some nextChunk =>
      if chunkSub .page4K nextChunk.start 1 = newEndPage then
        mergeContiguous (R.removeAt tree i) i nextChunk.end_ turns
      else (tree, newEndPage)
    | none => (tree, newEndPage)

/-- `find_specific_chunk`, with the list afterwards. -/
def findSpecificChunk (list : StaticArrayRBTree R) (requestedPage numPages : ℕ) :
    Outcome AllocationError (PageRange × DeferredAllocAction) × StaticArrayRBTree R :=
  let requestedEndPage := chunkAdd .page4K requestedPage (numPages - 1)
  let notFree := Outcome.err (AllocationError.addressNotFree requestedPage numPages)
  match list with
  | .array arr =>
    match arr.take fun chunk =>
        decide (chunk.start ≤ requestedPage) && decide (requestedEndPage ≤ chunk.end_) with
    | some (chunk, arr') => adjustChosenChunk requestedPage numPages chunk list chunk (.array arr')
    | none => (notFree, list)
  | .rbTree tree =>
    match R.upperBound tree requestedPage with
    | none => (notFree, list)
    | some i =>
      match R.get tree i with
      | none => (notFree, list)
      | some chunk =>
        if chunk.start ≤ requestedPage then
          if requestedEndPage ≤ chunk.end_ then
            adjustChosenChunk requestedPage numPages chunk list chunk (.rbTree (R.removeAt tree i))
          else
            let (tree', newEndPage) :=
              mergeContiguous tree (i + 1) chunk.end_ (R.elems tree).length
            if chunk.end_ < newEndPage then
              let merged : Chunk := ⟨chunk.start, newEndPage⟩
              let tree'' := R.replaceWith tree' i merged
              adjustChosenChunk requestedPage numPages chunk (.rbTree tree'') merged
                (.rbTree (R.removeAt tree'' i))
            else (notFree, .rbTree tree')
        else (notFree, list)

/-- The lowest page at which a request can begin in a chunk: aligned, and in the range when one is
to be respected. -/
def lowestStart (range : Option PageRange) (alignment : ℕ) (chunk : Chunk) : ℕ :=
  alignUp (match range with
    | some r => max chunk.start r.start
    | none => chunk.start) alignment

/-- The highest page at which a request can end in a chunk. -/
def highestEnd (range : Option PageRange) (chunk : Chunk) : ℕ :=
  match range with
  | some r => min chunk.end_ r.end_
  | none => chunk.end_

/-- The test for a chunk in `find_any_chunk`. The end page of the request would be one less. -/
def fits (range : Option PageRange) (alignment numPages : ℕ) (chunk : Chunk) : Bool :=
  decide (chunkAdd .page4K (lowestStart range alignment chunk) numPages ≤ highestEnd range chunk)

/-- What a pass over the list ends with. -/
inductive Scan (R : OrderedTree Chunk ChunkRange.start) where
  /-- `next_multiple_of` panics on zero. -/
  | panicked
  | exhausted
  /-- The chosen chunk, and the list without it. -/
  | found (chunk : Chunk) (rest : StaticArrayRBTree R)

/-- A pass over the tree, downwards from the position below `n`: `stopBefore` ends it before a
chunk is tested and `stopAfter` after a test that failed. -/
def scanDown (tree : R.Tree) (range : Option PageRange) (alignment numPages : ℕ)
    (stopBefore stopAfter : Chunk → Bool) : ℕ → Scan R
  | 0 => .exhausted
  | n + 1 =>
    match R.get tree n with
    | none => .exhausted
    | some chunk =>
      if stopBefore chunk then .exhausted
      else if alignment = 0 then .panicked
      else if fits range alignment numPages chunk then
        .found chunk (.rbTree (R.removeAt tree n))
      else if stopAfter chunk then .exhausted
      else scanDown tree range alignment numPages stopBefore stopAfter n

/-- A pass over the array. -/
def scanArray (arr : StaticArray Chunk) (range : Option PageRange) (alignment numPages : ℕ) :
    Scan R :=
  if alignment = 0 then
    if arr.slots.reduceOption = [] then .exhausted else .panicked
  else
    match arr.take (fits range alignment numPages) with
    | some (chunk, arr') => .found chunk (.array arr')
    | none => .exhausted

/-- The positions a descending cursor visits from the last chunk that starts at or below `page`. -/
def countUpTo (tree : R.Tree) (page : ℕ) : ℕ :=
  match R.upperBound tree page with
  | some i => i + 1
  | none => 0

/-- The first pass of `find_any_chunk`: inside a range. -/
def scanRange (list : StaticArrayRBTree R) (range : PageRange) (alignment numPages : ℕ) : Scan R :=
  match list with
  | .array arr => scanArray arr (some range) alignment numPages
  | .rbTree tree =>
    scanDown tree (some range) alignment numPages (fun _ => false)
      (fun chunk => decide (chunk.start ≤ range.start)) (countUpTo tree range.end_)

/-- The second pass: first the lower designated region, then the higher one. -/
def scanDesignated (list : StaticArrayRBTree R) (designatedLowEnd alignment numPages : ℕ) :
    Scan R :=
  match list with
  | .array arr => scanArray arr none alignment numPages
  | .rbTree tree =>
    match scanDown tree none alignment numPages (fun _ => false) (fun _ => false)
        (countUpTo tree designatedLowEnd) with
    | .exhausted =>
      scanDown tree none alignment numPages
        (fun chunk => decide (chunk.start < designatedPagesHighStart)) (fun _ => false)
        (R.elems tree).length
    | result => result

/-- `find_any_chunk`, with the list afterwards. -/
def findAnyChunk (list : StaticArrayRBTree R) (designatedLowEnd : Option ℕ) (numPages : ℕ)
    (withinRange : Option PageRange) (alignment : ℕ) :
    Outcome AllocationError (PageRange × DeferredAllocAction) × StaticArrayRBTree R :=
  match designatedLowEnd with
  | none => (.err .notInitialized, list)
  | some lowEnd =>
    let fullRange : PageRange :=
      ⟨chunkAdd .page4K lowEnd 1, chunkSub .page4K designatedPagesHighStart 1⟩
    let range := withinRange.getD fullRange
    match scanRange list range alignment numPages with
    | .panicked => (.panic, list)
    | .found chunk rest =>
      adjustChosenChunk (lowestStart (some range) alignment chunk) numPages chunk list chunk rest
    | .exhausted =>
      match withinRange with
      | some range => (.err (.outOfAddressSpace numPages (some range)), list)
      | none =>
        match scanDesignated list lowEnd alignment numPages with
        | .panicked => (.panic, list)
        | .found chunk rest =>
          adjustChosenChunk (lowestStart none alignment chunk) numPages chunk list chunk rest
        | .exhausted => (.err (.outOfAddressSpace numPages none), list)

/-! ### The allocator -/

inductive AllocationRequest where
  | atVirtualAddress (vaddr : Address)
  | alignedTo (alignment4kPages : ℕ)
  | withinRange (range : PageRange)
  | any

/-- `allocate_pages_deferred`, with the list afterwards. -/
def allocatePagesDeferred (list : StaticArrayRBTree R) (designatedLowEnd : Option ℕ)
    (request : AllocationRequest) (numPages : ℕ) :
    Outcome String (PageRange × DeferredAllocAction) × StaticArrayRBTree R :=
  if numPages = 0 then (.err "cannot allocate zero pages", list)
  else
    let res :=
      match request with
      | .atVirtualAddress vaddr => findSpecificChunk list (containingAddress vaddr) numPages
      | .alignedTo alignment => findAnyChunk list designatedLowEnd numPages none alignment
      | .withinRange range => findAnyChunk list designatedLowEnd numPages (some range) 1
      | .any => findAnyChunk list designatedLowEnd numPages none 1
    (res.1.mapError AllocationError.message, res.2)

end List

/-- The chunks that `init` puts into the free list. The P4 entries of the two recursive mappings
are left out. -/
def initialFreeChunks (designatedLowEnd : ℕ) : List Chunk :=
  [⟨0, designatedLowEnd⟩,
    ⟨chunkAdd .page4K designatedLowEnd 1, chunkSub .page4K designatedPagesHighStart 1⟩,
    ⟨kernelHeapStart, recursiveP4Start - 1⟩,
    ⟨kernelTextStart, maxPageNumber⟩]

/-- The free list, the outstanding `AllocatedPages`, and the actions not yet dropped. -/
structure State (R : OrderedTree Chunk ChunkRange.start) where
  freeList : StaticArrayRBTree R
  designatedLowEnd : Option ℕ
  allocated : List PageRange
  pending : List DeferredAllocAction

section Allocator

variable {R : OrderedTree Chunk ChunkRange.start}

/-- `init`: panics when the low designated region reaches the high one. -/
def init (endVaddrOfLowDesignatedRegion : Address) : Outcome String (State R) :=
  if endVaddrOfLowDesignatedRegion.toNat < designatedPagesHighStart * pageSize then
    let designatedLowEnd := containingAddress endVaddrOfLowDesignatedRegion
    .ok {
      freeList := .array
        ⟨(initialFreeChunks designatedLowEnd).map some ++ List.replicate 28 none, rfl⟩
      designatedLowEnd := some designatedLowEnd
      allocated := []
      pending := [] }
  else .panic

/-- `convert_page_allocator_to_heap_based`. -/
def convertToHeapBased (s : State R) : State R :=
  { s with freeList := s.freeList.convertToHeapAllocated }

/-- What clients can do. Objects are named by their place in `allocated` or `pending`. -/
inductive Op where
  | allocate (request : AllocationRequest) (numPages : ℕ)
  | dropAction (i : ℕ)
  | merge (i j : ℕ)
  | split (i atPage : ℕ)
  | drop (i : ℕ)

/-- One operation of a client. An operation on an object that does not exist is no operation. -/
def step (s : State R) : Op → State R
  | .allocate request numPages =>
    match allocatePagesDeferred s.freeList s.designatedLowEnd request numPages with
    | (.ok (pages, action), list) =>
      { s with
        freeList := list
        allocated := pages :: s.allocated
        pending := action :: s.pending }
    | (_, list) => { s with freeList := list }
  | .dropAction i =>
    match s.pending[i]? with
    | none => s
    | some action =>
      { s with freeList := dropAction s.freeList action, pending := s.pending.eraseIdx i }
  | .merge i j =>
    -- `ap` is consumed: it leaves `allocated` before `self` is overwritten
    match s.allocated[j]?, (s.allocated.eraseIdx j)[i]? with
    | some ap, some self =>
      match AllocatedPages.merge .page4K self ap with
      | some merged => { s with allocated := (s.allocated.eraseIdx j).set i merged }
      | none => s
    | _, _ => s
  | .split i atPage =>
    match s.allocated[i]? with
    | none => s
    | some pages =>
      match AllocatedPages.split .page4K pages atPage with
      | none => s
      | some (first, second) =>
        { s with allocated := first :: second :: s.allocated.eraseIdx i }
  | .drop i =>
    match s.allocated[i]? with
    | none => s
    | some pages =>
      { s with
        freeList := dropPages .page4K s.freeList pages
        allocated := s.allocated.eraseIdx i }

end Allocator

end Maios.PageAllocator
