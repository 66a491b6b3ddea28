import Maios.Heap.ObjectPage
import Maios.Library.LinkedList
import Maios.Library.Outcome
import Maios.Library.Run
import Maios.Library.Word

/-!
# The slab allocator

`slabmalloc/src/sc.rs` and `zone.rs`. An `SCAllocator` gives out blocks of one size. It has its pages
in three lists: those without blocks in use, those with some, and those without free ones; pages move
from list to list as blocks come and go. A `ZoneAllocator` has one of them for each of eleven sizes,
and takes an empty page from another size when one size runs out. There may be any number of zones.

The lists are linked through the pages, and a page is taken out of a list without a look whether it is
in that list. What the pages hold is one memory for all zones. A walk along a list need not end when
the links are wrong; such a call does not return. The build is one without debug assertions, where
counters wrap around.
-/

namespace Maios.Slab

/-! ### Pages and lists of them -/

/-- What is at the addresses of pages. -/
structure Memory where
  pages : ℕ → ObjectPage
  links : Links ℕ

def Memory.setPage (mem : Memory) (page : ℕ) (p : ObjectPage) : Memory :=
  { mem with pages := Function.update mem.pages page p }

structure PageList where
  head : Option ℕ
  elements : ℕ

namespace PageList

def new : PageList := ⟨none, 0⟩

def insertFront (l : PageList) (mem : Memory) (newHead : ℕ) : PageList × Memory :=
  (⟨some newHead, wrap (l.elements + 1)⟩,
    { mem with links := mem.links.insertFront l.head newHead })

def removeFromList (l : PageList) (mem : Memory) (slabPage : ℕ) : PageList × Memory :=
  let r := mem.links.remove l.head slabPage
  (⟨r.1, wrapSub l.elements 1⟩, { mem with links := r.2 })

def pop (l : PageList) (mem : Memory) : Option ℕ × PageList × Memory :=
  match l.head with
  | none => (none, l, mem)
  | some head =>
    let r := mem.links.pop head
    (some head, ⟨r.1, wrapSub l.elements 1⟩, { mem with links := r.2 })

end PageList

/-- `AllocablePage::allocate`: the address of the block, if there is one. -/
def Memory.allocate (mem : Memory) (page : ℕ) (layout : Layout) : Option ℕ × Memory :=
  match (mem.pages page).bitfield.firstFit page layout with
  | some (idx, addr) =>
    (some addr, mem.setPage page
      { mem.pages page with bitfield := (mem.pages page).bitfield.setBit idx })
  | none => (none, mem)

/-- `AllocablePage::deallocate`. -/
def Memory.deallocate (mem : Memory) (page ptr : ℕ) (layout : Layout) :
    Outcome String Unit × Memory :=
  let pageOffset := ptr % objectPageSize
  if pageOffset % layout.size ≠ 0 then (.panic, mem)
  else
    let idx := pageOffset / layout.size
    if 512 ≤ idx then (.panic, mem)
    else if !(mem.pages page).bitfield.isAllocated idx then
      (.err "deallocate: pointer not marked allocated (double-free)", mem)
    else
      (.ok (), mem.setPage page
        { mem.pages page with bitfield := (mem.pages page).bitfield.clearBit idx })

/-! ### One size -/

/-- The lists of a size, by what is said of their pages. -/
inductive Kind where
  | empty
  | used
  | full
  deriving DecidableEq

structure SCAllocator where
  size : ℕ
  objPerPage : ℕ
  emptySlabs : PageList
  slabs : PageList
  fullSlabs : PageList

namespace SCAllocator

def new (size : ℕ) : SCAllocator where
  size := size
  objPerPage := min ((objectPageSize - metadataSize) / size) (8 * 64)
  emptySlabs := .new
  slabs := .new
  fullSlabs := .new

def list (sc : SCAllocator) : Kind → PageList
  | .empty => sc.emptySlabs
  | .used => sc.slabs
  | .full => sc.fullSlabs

def setList (sc : SCAllocator) (κ : Kind) (l : PageList) : SCAllocator :=
  match κ with
  | .empty => { sc with emptySlabs := l }
  | .used => { sc with slabs := l }
  | .full => { sc with fullSlabs := l }

/-- Move a page from list to list. -/
def move (sc : SCAllocator) (mem : Memory) (source target : Kind) (page : ℕ) :
    SCAllocator × Memory :=
  let r := (sc.list source).removeFromList mem page
  let sc := sc.setList source r.1
  let r' := (sc.list target).insertFront r.2 page
  (sc.setList target r'.1, r'.2)

def moveToEmpty (sc : SCAllocator) (mem : Memory) (page : ℕ) : SCAllocator × Memory :=
  sc.move mem .used .empty page

def movePartialToFull (sc : SCAllocator) (mem : Memory) (page : ℕ) : SCAllocator × Memory :=
  sc.move mem .used .full page

def moveFullToPartial (sc : SCAllocator) (mem : Memory) (page : ℕ) : SCAllocator × Memory :=
  sc.move mem .full .used page

/-- The page at which the walk along a list stops: the first one with a block for the layout. A walk
over more pages than there are goes round in a circle. -/
def findPage (mem : Memory) (layout : Layout) : ℕ → Option ℕ → Outcome String (Option ℕ)
  | _, none => .ok none
  | 0, some _ => .panic
  | fuel + 1, some page =>
    if ((mem.pages page).bitfield.firstFit page layout).isSome then .ok (some page)
    else findPage mem layout fuel (mem.links.next page)

/-- `try_allocate_from_pagelist`. -/
def tryAllocateFromPagelist (sc : SCAllocator) (mem : Memory) (fuel : ℕ) (scLayout : Layout) :
    Outcome String (Option ℕ) × SCAllocator × Memory :=
  match findPage mem scLayout fuel sc.slabs.head with
  | .ok none => (.ok none, sc, mem)
  | .ok (some page) =>
    let r := mem.allocate page scLayout
    if (r.2.pages page).bitfield.isFull then
      let r' := sc.movePartialToFull r.2 page
      (.ok r.1, r'.1, r'.2)
    else (.ok r.1, sc, r.2)
  | .err e => (.err e, sc, mem)
  | .panic => (.panic, sc, mem)

/-- `refill`: the page is made anew, whatever it held before. -/
def refill (sc : SCAllocator) (mem : Memory) (mp heapId : ℕ) : SCAllocator × Memory :=
  let page : ObjectPage :=
    ⟨some mp, heapId, Bitfield.initialized sc.size (objectPageSize - metadataSize)⟩
  let mem : Memory :=
    { pages := Function.update mem.pages mp page
      links := ⟨Function.update mem.links.next mp none, Function.update mem.links.prev mp none⟩ }
  let r := sc.emptySlabs.insertFront mem mp
  (sc.setList .empty r.1, r.2)

/-- `retrieve_empty_page`. -/
def retrieveEmptyPage (sc : SCAllocator) (mem : Memory) : Option ℕ × SCAllocator × Memory :=
  match sc.emptySlabs.pop mem with
  | (some page, emptySlabs, mem) =>
    ((mem.pages page).mp, sc.setList .empty emptySlabs,
      mem.setPage page { mem.pages page with mp := none })
  | (none, _, mem) => (none, sc, mem)

/-- `allocate`. An empty page is asked for a block of the layout itself, and becomes one with blocks
in use even if it has none to offer. -/
def allocate (sc : SCAllocator) (mem : Memory) (fuel : ℕ) (layout : Layout) :
    Outcome String ℕ × SCAllocator × Memory :=
  if layout.size ≤ sc.size ∧ sc.size ≤ objectPageSize - 64 then
    match sc.tryAllocateFromPagelist mem fuel ⟨sc.size, layout.align, layout.powerOfTwo⟩ with
    | (.ok (some ptr), sc, mem) => (.ok ptr, sc, mem)
    | (.ok none, sc, mem) =>
      match sc.emptySlabs.pop mem with
      | (none, _, _) => (.err "AllocationError::OutOfMemory", sc, mem)
      | (some emptyPage, emptySlabs, mem) =>
        let sc := sc.setList .empty emptySlabs
        let r := mem.allocate emptyPage layout
        let r' := sc.slabs.insertFront r.2 emptyPage
        match r.1 with
        | some ptr => (.ok ptr, sc.setList .used r'.1, r'.2)
        | none => (.err "AllocationError::OutOfMemory", sc.setList .used r'.1, r'.2)
    | (.err e, sc, mem) => (.err e, sc, mem)
    | (.panic, sc, mem) => (.panic, sc, mem)
  else (.panic, sc, mem)

/-- `deallocate`. The page is known from the address of the block. -/
def deallocate (sc : SCAllocator) (mem : Memory) (ptr : ℕ) (layout : Layout) :
    Outcome String Unit × SCAllocator × Memory :=
  if layout.size ≤ sc.size ∧ sc.size ≤ objectPageSize - 64 then
    let page := ptr - ptr % objectPageSize
    let slabPageWasFull := (mem.pages page).bitfield.isFull
    match mem.deallocate page ptr ⟨sc.size, layout.align, layout.powerOfTwo⟩ with
    | (.panic, mem) => (.panic, sc, mem)
    | (ret, mem) =>
      if (mem.pages page).bitfield.allFree sc.objPerPage then
        let r := sc.moveToEmpty mem page
        (ret, r.1, r.2)
      else if slabPageWasFull then
        let r := sc.moveFullToPartial mem page
        (ret, r.1, r.2)
      else (ret, sc, mem)
  else (.panic, sc, mem)

end SCAllocator

/-! ### All sizes -/

/-- `BASE_ALLOC_SIZES`. -/
def classSize (c : Fin 11) : ℕ := if c = 10 then maxAllocSize else 2 ^ (c.1 + 3)

/-- `get_slab`: the size class of a request, if there is one. -/
def getSlab (requestedSize : ℕ) : Option (Fin 11) :=
  if requestedSize ≤ 8 then some 0
  else if requestedSize ≤ 16 then some 1
  else if requestedSize ≤ 32 then some 2
  else if requestedSize ≤ 64 then some 3
  else if requestedSize ≤ 128 then some 4
  else if requestedSize ≤ 256 then some 5
  else if requestedSize ≤ 512 then some 6
  else if requestedSize ≤ 1024 then some 7
  else if requestedSize ≤ 2048 then some 8
  else if requestedSize ≤ 4096 then some 9
  else if requestedSize ≤ maxAllocSize then some 10
  else none

structure ZoneAllocator where
  heapId : ℕ
  smallSlabs : Fin 11 → SCAllocator

namespace ZoneAllocator

def new (heapId : ℕ) : ZoneAllocator := ⟨heapId, fun c => .new (classSize c)⟩

def setSlab (z : ZoneAllocator) (c : Fin 11) (sc : SCAllocator) : ZoneAllocator :=
  { z with smallSlabs := Function.update z.smallSlabs c sc }

/-- `empty_pages`. -/
def emptyPages (z : ZoneAllocator) : ℕ :=
  (List.finRange 11).foldl (fun n c => wrap (n + (z.smallSlabs c).emptySlabs.elements)) 0

/-- The first size class that has an empty page, going by the counters. -/
def firstWithEmpty (z : ZoneAllocator) : Option (Fin 11) :=
  (List.finRange 11).find? fun c => decide (0 < (z.smallSlabs c).emptySlabs.elements)

/-- `retrieve_empty_page`: the page that is given back, if any. -/
def retrieveEmptyPage (z : ZoneAllocator) (mem : Memory) (heapEmptyPageThreshold : ℕ) :
    Option ℕ × ZoneAllocator × Memory :=
  if z.emptyPages ≤ heapEmptyPageThreshold then (none, z, mem)
  else
    match z.firstWithEmpty with
    | none => (none, z, mem)
    | some c =>
      let r := (z.smallSlabs c).retrieveEmptyPage mem
      (r.1, z.setSlab c r.2.1, r.2.2)

/-- `refill`. -/
def refill (z : ZoneAllocator) (mem : Memory) (layout : Layout) (mp : ℕ) :
    Outcome String Unit × ZoneAllocator × Memory :=
  match getSlab layout.size with
  | none => (.err "AllocationError::InvalidLayout", z, mem)
  | some c =>
    let r := (z.smallSlabs c).refill mem mp z.heapId
    (.ok (), z.setSlab c r.1, r.2)

/-- `exchange_pages_within_heap`. -/
def exchangePagesWithinHeap (z : ZoneAllocator) (mem : Memory) (layout : Layout) :
    Outcome String Unit × ZoneAllocator × Memory :=
  match z.retrieveEmptyPage mem 0 with
  | (none, z, mem) => (.err "Couldn't find an empty page to exchange within the heap", z, mem)
  | (some mp, z, mem) => z.refill mem layout mp

/-- `self.small_slabs[idx].allocate(layout)`. -/
def allocateIn (z : ZoneAllocator) (mem : Memory) (fuel : ℕ) (c : Fin 11) (layout : Layout) :
    Outcome String ℕ × ZoneAllocator × Memory :=
  let r := (z.smallSlabs c).allocate mem fuel layout
  (r.1, z.setSlab c r.2.1, r.2.2)

/-- `allocate`. -/
def allocate (z : ZoneAllocator) (mem : Memory) (fuel : ℕ) (layout : Layout) :
    Outcome String ℕ × ZoneAllocator × Memory :=
  match getSlab layout.size with
  | none => (.err "AllocationError::InvalidLayout", z, mem)
  | some c =>
    match z.allocateIn mem fuel c layout with
    | (.err _, z, mem) =>
      match z.exchangePagesWithinHeap mem layout with
      | (.ok _, z, mem) => z.allocateIn mem fuel c layout
      | (.err e, z, mem) => (.err e, z, mem)
      | (.panic, z, mem) => (.panic, z, mem)
    | returned => returned

/-- `deallocate`. -/
def deallocate (z : ZoneAllocator) (mem : Memory) (ptr : ℕ) (layout : Layout) :
    Outcome String Unit × ZoneAllocator × Memory :=
  match getSlab layout.size with
  | none => (.err "AllocationError::InvalidLayout", z, mem)
  | some c =>
    let r := (z.smallSlabs c).deallocate mem ptr layout
    (r.1, z.setSlab c r.2.1, r.2.2)

end ZoneAllocator

/-! ### Heaps and their clients -/

/-- A `MappedPages8k`: pages of 8 KiB, aligned, and not at the null address. -/
structure MappedPages8k where
  start : ℕ
  aligned : start % objectPageSize = 0
  nonnull : 0 < start

/-- A block that a client has, with the layout it asked for and the heap it comes from. -/
structure Block where
  heap : ℕ
  layout : Layout
  ptr : ℕ

/-- The zones, the memory they share, the blocks in use, and the pages that the zones have been given
and have not given back. -/
structure HeapState where
  mem : Memory
  zones : ℕ → ZoneAllocator
  live : List Block
  held : List ℕ

/-- The calls of clients. Blocks are known by their place in the list of all blocks in use. -/
inductive HeapOp where
  | allocate (heap : ℕ) (layout : Layout)
  | deallocate (i : ℕ)
  | refill (heap : ℕ) (layout : Layout) (mp : MappedPages8k)
  | retrieveEmptyPage (heap heapEmptyPageThreshold : ℕ)

namespace HeapState

/-- Zones without pages. -/
def init : HeapState where
  mem := ⟨fun _ => ⟨none, 0, fun _ => 0#64⟩, ⟨fun _ => none, fun _ => none⟩⟩
  zones := .new
  live := []
  held := []

def setZone (s : HeapState) (heap : ℕ) (z : ZoneAllocator) (mem : Memory) : HeapState :=
  { s with zones := Function.update s.zones heap z, mem := mem }

/-- No list has more pages than all zones have. -/
def fuel (s : HeapState) : ℕ := s.held.length + 1

/-- What `retrieve_empty_page` gives back. -/
def retrieved (s : HeapState) (heap heapEmptyPageThreshold : ℕ) : Option ℕ :=
  ((s.zones heap).retrieveEmptyPage s.mem heapEmptyPageThreshold).1

/-- One call. A client does not hand in a page that a zone has already, and frees only what it
has. -/
def step (s : HeapState) : HeapOp → HeapState
  | .allocate heap layout =>
    let r := (s.zones heap).allocate s.mem s.fuel layout
    let s := s.setZone heap r.2.1 r.2.2
    match r.1 with
    | .ok ptr => { s with live := ⟨heap, layout, ptr⟩ :: s.live }
    | _ => s
  | .deallocate i =>
    match s.live[i]? with
    | none => s
    | some block =>
      let r := (s.zones block.heap).deallocate s.mem block.ptr block.layout
      { s.setZone block.heap r.2.1 r.2.2 with live := s.live.eraseIdx i }
  | .refill heap layout mp =>
    if mp.start ∈ s.held ∨ getSlab layout.size = none then s
    else
      let r := (s.zones heap).refill s.mem layout mp.start
      { s.setZone heap r.2.1 r.2.2 with held := mp.start :: s.held }
  | .retrieveEmptyPage heap heapEmptyPageThreshold =>
    let r := (s.zones heap).retrieveEmptyPage s.mem heapEmptyPageThreshold
    let s := s.setZone heap r.2.1 r.2.2
    match r.1 with
    | some page => { s with held := s.held.erase page }
    | none => s

end HeapState

end Maios.Slab
