import Maios.Library.Outcome
import Maios.Library.Run
import Maios.Memory.Structs
import Maios.Memory.StaticArrayRBTree

/-!
# The frame allocator

The `frame_allocator` crate: chunks of free physical frames in two lists (general and reserved),
the regions they come from in two further lists, and the objects it hands out. An allocation
takes a chunk out of a list, cuts the requested frames out of it and leaves the remainders in a
`DeferredAllocAction`, which puts them back when it is dropped. Dropping the frames themselves
puts them back too, joined to a neighbour when there is one.

A request for a given address that no list can serve is not always refused: outside the general
regions the allocator *invents* a reserved region for it.

## What a call that does not return leaves behind

Some calls panic (`todo!`, `expect`) and some wait for a lock they hold themselves (dropping a
chunk that a full array refused). The operations below say what the lists hold at that moment;
chunks that the call still had in its hands are then nowhere.
-/

namespace Maios.FrameAllocator

/-- Types of physical memory. -/
inductive MemoryRegionType where
  | free
  | reserved
  | unknown
  deriving DecidableEq, Repr

/-- A range of frames known to the allocator, whether allocated or not. -/
structure PhysicalMemoryRegion where
  frames : FrameRange
  typ : MemoryRegionType
  deriving DecidableEq, Repr

/-- Regions are ordered by their first frame only. -/
def PhysicalMemoryRegion.start (r : PhysicalMemoryRegion) : ℕ := r.frames.start

/-- A range of frames with an owner. Whether they are free or allocated is told by who holds the
object: a free list, a deferred action or a client. -/
structure Frames where
  typ : MemoryRegionType
  range : FrameRange
  deriving DecidableEq, Repr

namespace Frames

/-- Frames are ordered by their first frame only. -/
def start (f : Frames) : ℕ := f.range.start

instance : Membership ℕ Frames := ⟨fun f n => n ∈ f.range⟩

instance (n : ℕ) (f : Frames) : Decidable (n ∈ f) := inferInstanceAs (Decidable (n ∈ f.range))

theorem mem_def {f : Frames} {n : ℕ} : n ∈ f ↔ n ∈ f.range := .rfl

def empty : Frames := ⟨.unknown, .empty⟩

/-- Merge `other` into `self`; nothing when they are not contiguous. -/
def merge (P : PageSize) (self other : Frames) : Option Frames :=
  if self.range.isEmpty || other.range.isEmpty then none
  else if self.range.start = chunkAdd P other.range.end_ 1 then
    some { self with range := ⟨other.range.start, self.range.end_⟩ }
  else if chunkAdd P self.range.end_ 1 = other.range.start then
    some { self with range := ⟨self.range.start, other.range.end_⟩ }
  else none

/-- The three parts of a split. -/
structure SplitFrames where
  beforeStart : Option Frames
  startToEnd : Frames
  afterEnd : Option Frames

/-- Cut `toExtract` out of `self`; nothing when it is not contained. -/
def splitRange (P : PageSize) (self : Frames) (toExtract : FrameRange) : Option SplitFrames :=
  if self.range.containsRange toExtract then
    let beforeStart : Option FrameRange :=
      if toExtract.start = 0 ∨ toExtract.start = self.range.start then none
      else some ⟨self.range.start, chunkSub P toExtract.start 1⟩
    let afterEnd : Option FrameRange :=
      if toExtract.end_ = maxChunk P ∨ toExtract.end_ = self.range.end_ then none
      else some ⟨chunkAdd P toExtract.end_ 1, self.range.end_⟩
    some {
      beforeStart := beforeStart.map fun range => ⟨self.typ, range⟩
      startToEnd := ⟨self.typ, toExtract⟩
      afterEnd := afterEnd.map fun range => ⟨self.typ, range⟩ }
  else none

/-- Split `self` into the frames below `atFrame` and those from it on. -/
def splitAt (P : PageSize) (self : Frames) (atFrame : ℕ) : Option (Frames × Frames) :=
  if self.range.isEmpty then none
  else
    let endOfFirst := chunkSub P atFrame 1
    let pieces : Option (FrameRange × FrameRange) :=
      if atFrame = self.range.start ∧ atFrame ≤ self.range.end_ then
        some (.empty, ⟨atFrame, self.range.end_⟩)
      else if atFrame = chunkAdd P self.range.end_ 1 ∧ self.range.start ≤ endOfFirst then
        some (⟨self.range.start, self.range.end_⟩, .empty)
      else if self.range.start < atFrame ∧ endOfFirst ≤ self.range.end_ then
        some (⟨self.range.start, endOfFirst⟩, ⟨atFrame, self.range.end_⟩)
      else none
    pieces.map fun p => (⟨self.typ, p.1⟩, ⟨self.typ, p.2⟩)

end Frames

/-! ### Errors and deferred actions -/

inductive AllocationError where
  | addressNotFree (frame numFrames : ℕ)
  | addressNotFound (frame numFrames : ℕ)
  | outOfAddressSpace (numFrames : ℕ)
  | contiguousChunkNotFound (frame numFrames : ℕ)
  deriving DecidableEq, Repr

/-- `From<AllocationError> for &'static str`. -/
def AllocationError.message : AllocationError → String
  | .addressNotFree .. => "requested address was in use"
  | .addressNotFound .. => "requested address was outside of this frame allocator's range"
  | .outOfAddressSpace .. => "out of physical address space"
  | .contiguousChunkNotFound .. => "only some of the requested frames were available"

/-- The chunks that go back to the free lists when the action is dropped. -/
structure DeferredAllocAction where
  free1 : Frames
  free2 : Frames
  deriving DecidableEq, Repr

def DeferredAllocAction.new (free1 free2 : Option Frames) : DeferredAllocAction :=
  ⟨free1.getD .empty, free2.getD .empty⟩

/-! ### Free lists -/

section Lists

variable {R : OrderedTree Frames Frames.start}
  {G : OrderedTree PhysicalMemoryRegion PhysicalMemoryRegion.start}

/-- `Drop` for frames in the `Free` state, once the list is chosen. A full array refuses the
chunk, and dropping the refused chunk waits for the list's own lock. -/
def insertDropped (list : StaticArrayRBTree R) (f : Frames) : StaticArrayRBTree R :=
  match list with
  | .array arr => ((StaticArrayRBTree.array arr).insert f).getD (.array arr)
  | .rbTree tree =>
    let i := R.lowerBound tree f.start
    let afterPrev : StaticArrayRBTree R :=
      match if i = 0 then none else R.get tree (i - 1) with
      | some prev =>
        if chunkAdd .page4K prev.range.end_ 1 = f.range.start then
          let tree' := R.removeAt tree (i - 1)
          match prev.merge .page4K f with
          | some merged => .rbTree (R.insertBefore tree' (i - 1) merged)
          | none => .rbTree tree'
        else .rbTree (R.insert tree f)
      | none => .rbTree (R.insert tree f)
    match R.get tree i with
    | some next =>
      if chunkAdd .page4K f.range.end_ 1 = next.range.start then
        let tree' := R.removeAt tree i
        match next.merge .page4K f with
        | some merged => .rbTree (R.insertBefore tree' i merged)
        | none => .rbTree tree'
      else afterPrev
    | none => afterPrev

/-- The final part of an allocation: the chunks have left the list; join them, and cut the
requested frames out. -/
def allocateFromChosenChunk (framesToAllocate : FrameRange) (chosenChunk : Frames)
    (nextChunk : Option Frames) : Outcome AllocationError (Frames × DeferredAllocAction) :=
  let joined : Option Frames :=
    match nextChunk with
    | some next => chosenChunk.merge .page4K next
    | none => some chosenChunk
  match joined with
  | none => .panic
  | some chunk =>
    match chunk.splitRange .page4K framesToAllocate with
    | none => .panic
    | some split => .ok (split.startToEnd, .new split.beforeStart split.afterEnd)

/-- Search a list for the chunk that contains `numFrames` frames from `requestedFrame` on. In the
tree two contiguous chunks may serve the request together; three may not, and the call panics. -/
def findSpecificChunk (list : StaticArrayRBTree R) (requestedFrame numFrames : ℕ) :
    Outcome AllocationError (Frames × DeferredAllocAction) × StaticArrayRBTree R :=
  let requestedEndFrame := chunkAdd .page4K requestedFrame (numFrames - 1)
  let toAllocate : FrameRange :=
    ⟨requestedFrame, chunkSub .page4K (chunkAdd .page4K requestedFrame numFrames) 1⟩
  let notFound := Outcome.err (AllocationError.addressNotFound requestedFrame numFrames)
  match list with
  | .array arr =>
    match arr.take fun chunk =>
        decide (chunk.range.start ≤ requestedFrame) &&
          decide (requestedEndFrame ≤ chunk.range.end_) with
    | some (chunk, arr') => (allocateFromChosenChunk toAllocate chunk none, .array arr')
    | none => (notFound, list)
  | .rbTree tree =>
    match R.upperBound tree requestedFrame with
    | none => (notFound, list)
    | some i =>
      match R.get tree i with
      | none => (notFound, list)
      | some chunk =>
        if chunk.range.contains requestedFrame then
          if requestedEndFrame ≤ chunk.range.end_ then
            (allocateFromChosenChunk toAllocate chunk none, .rbTree (R.removeAt tree i))
          else
            match R.get tree (i + 1) with
            | some next =>
              if chunkAdd .page4K chunk.range.end_ 1 = next.range.start then
                if requestedEndFrame ≤ next.range.end_ then
                  (allocateFromChosenChunk toAllocate chunk (some next),
                    .rbTree (R.removeAt (R.removeAt tree (i + 1)) i))
                else (.panic, list)
              else (notFound, list)
            | none =>
              (.err (.contiguousChunkNotFound (chunkAdd .page4K chunk.range.end_ 1)
                (requestedEndFrame - chunk.range.end_)), list)
        else (notFound, list)

/-- Whether a chunk can serve a request for `numFrames` frames anywhere. -/
def suitable (numFrames : ℕ) (chunk : Frames) : Bool :=
  decide (numFrames ≤ chunk.range.sizeInChunks .page4K) && decide (chunk.typ = .free)

/-- The frames handed out from the beginning of a chunk. -/
def firstFrames (numFrames : ℕ) (chunk : Frames) : FrameRange :=
  ⟨chunk.range.start, chunkSub .page4K (chunkAdd .page4K chunk.range.start numFrames) 1⟩

/-- The cursor of `find_any_chunk` on a tree: from position `n` down, the first suitable chunk. -/
def lastSuitable (tree : R.Tree) (numFrames : ℕ) : ℕ → Option (ℕ × Frames)
  | 0 => none
  | n + 1 =>
    match R.get tree n with
    | some chunk =>
      if suitable numFrames chunk then some (n, chunk) else lastSuitable tree numFrames n
    | none => none

/-- Search a list for any chunk of at least `numFrames` frames. -/
def findAnyChunk (list : StaticArrayRBTree R) (numFrames : ℕ) :
    Outcome AllocationError (Frames × DeferredAllocAction) × StaticArrayRBTree R :=
  match list with
  | .array arr =>
    match arr.take (suitable numFrames) with
    | some (chunk, arr') =>
      (allocateFromChosenChunk (firstFrames numFrames chunk) chunk none, .array arr')
    | none => (.err (.outOfAddressSpace numFrames), list)
  | .rbTree tree =>
    match lastSuitable tree numFrames (R.elems tree).length with
    | some (i, chunk) =>
      (allocateFromChosenChunk (firstFrames numFrames chunk) chunk none,
        .rbTree (R.removeAt tree i))
    | none => (.err (.outOfAddressSpace numFrames), list)

/-! ### Regions -/

/-- The ascending scan for an overlap: it stops behind the end of `frames`. -/
def scanOverlap {α : Type} (range : α → FrameRange) (frames : FrameRange) : List α → Bool
  | [] => false
  | chunk :: rest =>
    if frames.end_ < (range chunk).start then false
    else if ((range chunk).overlap frames).isSome then true
    else scanOverlap range frames rest

/-- Whether some value stored in the list overlaps `frames`. On a tree the scan starts at the
last value that begins at or below `frames.start`; when there is none the cursor is null and the
scan sees nothing. -/
def anyOverlap {α : Type} {key : α → ℕ} {T : OrderedTree α key} (range : α → FrameRange)
    (list : StaticArrayRBTree T) (frames : FrameRange) : Bool :=
  match list with
  | .array arr => arr.slots.reduceOption.any fun chunk => ((range chunk).overlap frames).isSome
  | .rbTree tree =>
    match T.upperBound tree frames.start with
    | none => false
    | some i => scanOverlap range frames ((T.elems tree).drop i)

/-- `contains_any`. -/
def containsAny (list : StaticArrayRBTree G) (frames : FrameRange) : Bool :=
  anyOverlap PhysicalMemoryRegion.frames list frames

/-- `add_reserved_region_to_lists`, with the two lists afterwards. A frames list that refuses the
chunk makes the call wait for the lock it holds. -/
def addReservedRegionToLists (regionsList : StaticArrayRBTree G) (framesList : StaticArrayRBTree R)
    (frames : FrameRange) :
    Outcome String FrameRange × StaticArrayRBTree G × StaticArrayRBTree R :=
  if containsAny regionsList frames then
    (.err "Failed to add reserved region that overlapped with existing reserved regions.",
      regionsList, framesList)
  else if anyOverlap Frames.range framesList frames then
    (.err (match framesList with
      | .array _ => "Failed to add free frames that overlapped with existing frames (array)."
      | .rbTree _ => "Failed to add free frames that overlapped with existing frames (RBTree)."),
      regionsList, framesList)
  else
    match regionsList.insert ⟨frames, .reserved⟩ with
    | none =>
      (.err "BUG: Failed to insert non-overlapping physical memory region into reserved regions list.",
        regionsList, framesList)
    | some regionsList' =>
      match framesList.insert ⟨.reserved, frames⟩ with
      | none => (.panic, regionsList', framesList)
      | some framesList' => (.ok frames, regionsList', framesList')

end Lists

/-! ### The allocator -/

/-- The four static lists of the allocator. -/
structure Lists (R : OrderedTree Frames Frames.start)
    (G : OrderedTree PhysicalMemoryRegion PhysicalMemoryRegion.start) where
  /-- `FREE_GENERAL_FRAMES_LIST` -/
  freeGeneral : StaticArrayRBTree R
  /-- `FREE_RESERVED_FRAMES_LIST` -/
  freeReserved : StaticArrayRBTree R
  /-- `GENERAL_REGIONS` -/
  generalRegions : StaticArrayRBTree G
  /-- `RESERVED_REGIONS` -/
  reservedRegions : StaticArrayRBTree G

section Allocator

variable {R : OrderedTree Frames Frames.start}
  {G : OrderedTree PhysicalMemoryRegion PhysicalMemoryRegion.start}

/-- What the two free lists can do for a request at an address: either the call is over, or no
list serves the request and these are the first frame and the number of frames still missing. -/
inductive Search where
  | done (result : Outcome String (Frames × DeferredAllocAction))
  | missing (startFrame numFrames : ℕ)

/-- The attempts on the reserved list and then on the general list. -/
def searchFreeLists (lists : Lists R G) (startFrame numFrames : ℕ) : Search × Lists R G :=
  match findSpecificChunk lists.freeReserved startFrame numFrames with
  | (.ok success, reserved) => (.done (.ok success), { lists with freeReserved := reserved })
  | (.panic, reserved) => (.done .panic, { lists with freeReserved := reserved })
  | (.err (.contiguousChunkNotFound f numf), reserved) =>
    (.missing f numf, { lists with freeReserved := reserved })
  | (.err (.addressNotFound f n), reserved) =>
    let allocErr := AllocationError.addressNotFound f n
    match findSpecificChunk lists.freeGeneral startFrame numFrames with
    | (.ok result, general) =>
      (.done (.ok result), { lists with freeReserved := reserved, freeGeneral := general })
    | (.panic, general) =>
      (.done .panic, { lists with freeReserved := reserved, freeGeneral := general })
    | (.err (.addressNotFound ..), general) =>
      (.missing startFrame numFrames,
        { lists with freeReserved := reserved, freeGeneral := general })
    | (.err _, general) =>
      (.done (.err allocErr.message),
        { lists with freeReserved := reserved, freeGeneral := general })
  | (.err allocErr, reserved) =>
    (.done (.err allocErr.message), { lists with freeReserved := reserved })

/-- The frames of a run of `numFrames` from `startFrame` on. -/
def requestedFrames (startFrame numFrames : ℕ) : FrameRange :=
  ⟨startFrame, chunkAdd .page4K startFrame (numFrames - 1)⟩

/-- The last resort of `allocate_frames_deferred`: frames that are in no general region become a
new reserved region, and the request is tried once more. -/
def allocateNewRegion (lists : Lists R G) (startFrame numFrames : ℕ) (frames : FrameRange) :
    Outcome String (Frames × DeferredAllocAction) × Lists R G :=
  if containsAny lists.generalRegions frames then
    (.err (AllocationError.addressNotFree startFrame numFrames).message, lists)
  else
    match addReservedRegionToLists lists.reservedRegions lists.freeReserved frames with
    | (.ok _, regions, reserved) =>
      let r := findSpecificChunk reserved startFrame numFrames
      (r.1.mapError AllocationError.message,
        { lists with reservedRegions := regions, freeReserved := r.2 })
    | (.err e, regions, reserved) =>
      (.err e, { lists with reservedRegions := regions, freeReserved := reserved })
    | (.panic, regions, reserved) =>
      (.panic, { lists with reservedRegions := regions, freeReserved := reserved })

/-- `allocate_frames_deferred`, with the lists afterwards. -/
def allocateFramesDeferred (lists : Lists R G) (requestedPaddr : Option Address) (numFrames : ℕ) :
    Outcome String (Frames × DeferredAllocAction) × Lists R G :=
  if numFrames = 0 then (.err "cannot allocate zero frames", lists)
  else
    match requestedPaddr with
    | none =>
      let r := findAnyChunk lists.freeGeneral numFrames
      (r.1.mapError AllocationError.message, { lists with freeGeneral := r.2 })
    | some paddr =>
      let startFrame := containingAddress paddr
      match searchFreeLists lists startFrame numFrames with
      | (.done result, lists) => (result, lists)
      | (.missing requestedStartFrame requestedNumFrames, lists) =>
        allocateNewRegion lists startFrame numFrames
          (requestedFrames requestedStartFrame requestedNumFrames)

/-- Dropping frames, allocated or free: they go to the list their type names. -/
def dropFrames (lists : Lists R G) (f : Frames) : Lists R G :=
  if f.range.sizeInChunks .page4K = 0 then lists
  else if f.typ = .reserved then
    { lists with freeReserved := insertDropped lists.freeReserved f }
  else { lists with freeGeneral := insertDropped lists.freeGeneral f }

/-- One of the two insertions of `Drop` for `DeferredAllocAction`. Frames of an unknown type are
not inserted here; they stay a local variable and are dropped with it. -/
def insertDeferred (lists : Lists R G) (f : Frames) : Lists R G :=
  if f.range.sizeInChunks .page4K = 0 then lists
  else
    match f.typ with
    | .free => { lists with freeGeneral := (lists.freeGeneral.insert f).getD lists.freeGeneral }
    | .reserved =>
      { lists with freeReserved := (lists.freeReserved.insert f).getD lists.freeReserved }
    | .unknown => dropFrames lists f

/-- `Drop` for `DeferredAllocAction`. -/
def dropAction (lists : Lists R G) (action : DeferredAllocAction) : Lists R G :=
  insertDeferred (insertDeferred lists action.free1) action.free2

/-- `convert_frame_allocator_to_heap_based`. -/
def convertToHeapBased (lists : Lists R G) : Lists R G where
  freeGeneral := lists.freeGeneral.convertToHeapAllocated
  freeReserved := lists.freeReserved.convertToHeapAllocated
  generalRegions := lists.generalRegions.convertToHeapAllocated
  reservedRegions := lists.reservedRegions.convertToHeapAllocated

/-! ### Everything the allocator has handed out -/

/-- The allocator, the outstanding `AllocatedFrames` and the deferred actions not yet dropped. -/
structure State (R : OrderedTree Frames Frames.start)
    (G : OrderedTree PhysicalMemoryRegion PhysicalMemoryRegion.start) extends Lists R G where
  allocated : List Frames
  pending : List DeferredAllocAction

/-- What clients can do. Objects are named by their place in `allocated` or `pending`. -/
inductive Op where
  | allocate (requestedPaddr : Option Address) (numFrames : ℕ)
  | dropAction (i : ℕ)
  | merge (i j : ℕ)
  | splitAt (i atFrame : ℕ)
  | splitRange (i : ℕ) (range : FrameRange)
  | drop (i : ℕ)
  | convertToHeapBased

/-- One operation of a client. An operation on an object that does not exist is no operation. -/
def step (s : State R G) : Op → State R G
  | .allocate paddr n =>
    match allocateFramesDeferred s.toLists paddr n with
    | (.ok (frames, action), lists) =>
      { s with toLists := lists, allocated := frames :: s.allocated, pending := action :: s.pending }
    | (_, lists) => { s with toLists := lists }
  | .dropAction i =>
    match s.pending[i]? with
    | none => s
    | some action =>
      { s with toLists := dropAction s.toLists action, pending := s.pending.eraseIdx i }
  | .merge i j =>
    -- `other` is consumed: it leaves `allocated` before `self` is overwritten
    match s.allocated[j]?, (s.allocated.eraseIdx j)[i]? with
    | some other, some self =>
      match self.merge .page4K other with
      | some merged => { s with allocated := (s.allocated.eraseIdx j).set i merged }
      | none => s
    | _, _ => s
  | .splitAt i atFrame =>
    match s.allocated[i]? with
    | none => s
    | some f =>
      match f.splitAt .page4K atFrame with
      | none => s
      | some (first, second) =>
        { s with allocated := first :: second :: s.allocated.eraseIdx i }
  | .splitRange i range =>
    match s.allocated[i]? with
    | none => s
    | some f =>
      match f.splitRange .page4K range with
      | none => s
      | some split =>
        { s with
          allocated := split.beforeStart.toList ++ split.startToEnd ::
            (split.afterEnd.toList ++ s.allocated.eraseIdx i) }
  | .drop i =>
    match s.allocated[i]? with
    | none => s
    | some f => { s with toLists := dropFrames s.toLists f, allocated := s.allocated.eraseIdx i }
  | .convertToHeapBased => { s with toLists := convertToHeapBased s.toLists }

end Allocator

end Maios.FrameAllocator
