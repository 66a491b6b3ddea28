import Maios.Heap.Slab
import Maios.Library.OrderedTree

/-!
# The heap of the kernel

`multiple_heaps/src/lib.rs`, in its default configuration. Each CPU has a heap, which is a
`ZoneAllocator`. A request that the heap of the CPU cannot serve makes it grow: by an empty page of
some heap that has many, or by two new pages at the end of the memory for heaps. Requests beyond the
largest size class get a mapping of their own, which is kept in a tree by its address; the node of the
tree is itself a block of the heap. A block is given back to the heap named in the page that it is in.

What the rest of the kernel decides comes with each call: the CPU, the heaps that are not locked,
which pages can be mapped, and where a new mapping is. A mapping is never made of pages that are in
use. What other parts of the kernel allocate meanwhile are calls of their own.
-/

namespace Maios.Slab

/-- `PAGE_SIZE`. -/
def pageSize : ℕ := 4096

/-- `EMPTY_PAGES_THRESHOLD`. -/
def emptyPagesThreshold : ℕ := 11 * 2

/-- `HEAP_GROWTH_AMOUNT`. -/
def heapGrowthAmount : ℕ := 2

/-- `KERNEL_HEAP_START + KERNEL_HEAP_INITIAL_SIZE`, where the memory for heaps begins. -/
def heapStart : ℕ := 0xFFFFFE8000000000 + 64 * 1024 * 1024

/-- The pages of a size class that a heap starts with:
`PER_CORE_HEAP_INITIAL_SIZE_PAGES / (MAX_BASE_SIZE_CLASSES * HEAP_MAPPED_PAGES_SIZE_IN_PAGES)`. -/
def mappedPagesPerSizeClass : ℕ := 11 * 128 / (11 * (objectPageSize / pageSize))

/-- The layout of a `LargeAllocation`: 24 bytes of links and 32 for the mapped pages. -/
def nodeLayout : Layout := ⟨24 + 32, 8, eight_eq_two_pow⟩

/-- Pages mapped for a large object. -/
structure Mapping where
  start : ℕ
  pages : ℕ
  deriving DecidableEq

/-- A `LargeAllocation` in the tree, at the address of its box. -/
structure LargeAllocation where
  mp : Mapping
  node : ℕ

/-- `get_key` -/
abbrev LargeAllocation.getKey (a : LargeAllocation) : ℕ := a.mp.start

/-- What the rest of the kernel decides about a call. -/
structure Surroundings where
  /-- The CPU that makes the call. -/
  key : ℕ
  /-- The heaps whose lock is free, in the order in which they come. -/
  tried : List ℕ
  /-- Whether the 8 KiB at an address can be mapped. -/
  mappable : ℕ → Bool
  /-- Where `create_mapping` puts a large object, if it can. -/
  mapping : Option ℕ

/-- The heaps with the memory that they share, and a red-black tree of large allocations, for which any
ordered tree may stand. Of the mappings of large objects and the pages that heaps have been given, the
code keeps no list. -/
structure MultipleHeaps (R : OrderedTree LargeAllocation LargeAllocation.getKey) where
  mem : Memory
  zones : ℕ → ZoneAllocator
  /-- The keys of the heaps. -/
  heaps : List ℕ
  largeAllocations : R.Tree
  /-- The end of the memory for heaps, which is contiguous. -/
  heapEnd : ℕ
  mapped : List Mapping
  held : List ℕ

variable {R : OrderedTree LargeAllocation LargeAllocation.getKey}

namespace MultipleHeaps

def empty : MultipleHeaps R where
  mem := ⟨fun _ => ⟨none, 0, fun _ => 0#64⟩, ⟨fun _ => none, fun _ => none⟩⟩
  zones := .new
  heaps := []
  largeAllocations := R.empty
  heapEnd := heapStart
  mapped := []
  held := []

def setZone (s : MultipleHeaps R) (heap : ℕ) (z : ZoneAllocator) (mem : Memory) : MultipleHeaps R :=
  { s with zones := Function.update s.zones heap z, mem := mem }

/-- No list has more pages than all heaps have. -/
def fuel (s : MultipleHeaps R) : ℕ := s.held.length + 1

/-- No page of the range is in use, neither by heaps nor for large objects. -/
def isFree (s : MultipleHeaps R) (start size : ℕ) : Bool :=
  decide (start + size ≤ heapStart ∨ s.heapEnd ≤ start) && s.mapped.all fun mp =>
    decide (start + size ≤ mp.start ∨ mp.start + mp.pages * pageSize ≤ start)

/-! ### Growing -/

/-- `heap_to_grow.lock().refill(layout, mp)`. -/
def refill (s : MultipleHeaps R) (heapToGrow : ℕ) (layout : Layout) (mp : ℕ) :
    Outcome String Unit × MultipleHeaps R :=
  let r := (s.zones heapToGrow).refill s.mem layout mp
  (r.1, s.setZone heapToGrow r.2.1 r.2.2)

/-- The loop of `grow_heap` over the other heaps: a page of the first one that has many. -/
def takePage (s : MultipleHeaps R) : List ℕ → Option ℕ × MultipleHeaps R
  | [] => (none, s)
  | heap :: rest =>
    let r := (s.zones heap).retrieveEmptyPage s.mem emptyPagesThreshold
    let s := s.setZone heap r.2.1 r.2.2
    match r.1 with
    | some mp => (some mp, s)
    | none => s.takePage rest

/-- Whether `create_heap_mapping` can map the pages at an address. -/
def mapsAt (s : MultipleHeaps R) (surroundings : Surroundings) (startingAddress : ℕ) : Bool :=
  surroundings.mappable startingAddress && s.isFree startingAddress objectPageSize &&
    decide (startingAddress % objectPageSize = 0)

/-- The loop of `grow_heap` over new pages. -/
def mapPages (s : MultipleHeaps R) (surroundings : Surroundings) (heapToGrow : ℕ) (layout : Layout) :
    ℕ → Outcome String Unit × MultipleHeaps R
  | 0 => (.ok (), s)
  | n + 1 =>
    if s.mapsAt surroundings s.heapEnd then
      let mp := s.heapEnd
      let s := { s with heapEnd := s.heapEnd + objectPageSize, held := mp :: s.held }
      match s.refill heapToGrow layout mp with
      | (.ok (), s) => s.mapPages surroundings heapToGrow layout n
      | (.err e, s) => (.err e, s)
      | (.panic, s) => (.panic, s)
    else (.err "create_heap_mapping(): failed to allocate pages at the starting address", s)

def growHeap (s : MultipleHeaps R) (surroundings : Surroundings) (layout : Layout)
    (heapToGrow : ℕ) : Outcome String Unit × MultipleHeaps R :=
  match s.takePage (surroundings.tried.filter fun heap => decide (heap ∈ s.heaps)) with
  | (some mp, s) => s.refill heapToGrow layout mp
  | (none, s) => s.mapPages surroundings heapToGrow layout heapGrowthAmount

/-! ### Allocation -/

/-- `our_heap.lock().allocate(layout)`. -/
def allocateFrom (s : MultipleHeaps R) (heap : ℕ) (layout : Layout) :
    Outcome String ℕ × MultipleHeaps R :=
  let r := (s.zones heap).allocate s.mem s.fuel layout
  (r.1, s.setZone heap r.2.1 r.2.2)

/-- A request that a size class is there for: the address of the block, or null. -/
def allocSmall (s : MultipleHeaps R) (surroundings : Surroundings) (layout : Layout) :
    Outcome String (Option ℕ) × MultipleHeaps R :=
  let ourHeap := surroundings.key
  if ourHeap ∈ s.heaps then
    match s.allocateFrom ourHeap layout with
    | (.ok ptr, s) => (.ok (some ptr), s)
    | (.panic, s) => (.panic, s)
    | (.err _, s) =>
      match s.growHeap surroundings layout ourHeap with
      | (.panic, s) => (.panic, s)
      | (.err _, s) => (.ok none, s)
      | (.ok (), s) =>
        match s.allocateFrom ourHeap layout with
        | (.ok ptr, s) => (.ok (some ptr), s)
        | (.panic, s) => (.panic, s)
        | (.err _, s) => (.ok none, s)
  else (.panic, s)

/-- What `create_mapping` returns: whole pages that are not in use. -/
def createMapping (s : MultipleHeaps R) (surroundings : Surroundings) (sizeInBytes : ℕ) :
    Option Mapping :=
  surroundings.mapping.bind fun start =>
    let pages := (sizeInBytes + pageSize - 1) / pageSize
    if start % pageSize = 0 ∧ 0 < start ∧ s.isFree start (pages * pageSize) then some ⟨start, pages⟩
    else none

/-- `allocate_large_object`. Without memory for the node the kernel stops. -/
def allocateLargeObject (s : MultipleHeaps R) (surroundings : Surroundings) (layout : Layout) :
    Outcome String (Option ℕ) × MultipleHeaps R :=
  match s.createMapping surroundings layout.size with
  | none => (.ok none, s)
  | some mp =>
    let s := { s with mapped := mp :: s.mapped }
    match s.allocSmall surroundings nodeLayout with
    | (.ok (some node), s) =>
      (.ok (some mp.start), { s with largeAllocations := R.insert s.largeAllocations ⟨mp, node⟩ })
    | (_, s) => (.panic, s)

/-- `alloc`: the address, or null. -/
def alloc (s : MultipleHeaps R) (surroundings : Surroundings) (layout : Layout) :
    Outcome String (Option ℕ) × MultipleHeaps R :=
  if maxAllocSize < layout.size then s.allocateLargeObject surroundings layout
  else s.allocSmall surroundings layout

/-! ### Deallocation -/

/-- The block is given back to the heap named in its page. -/
def deallocSmall (s : MultipleHeaps R) (ptr : ℕ) (layout : Layout) :
    Outcome String Unit × MultipleHeaps R :=
  let pageAddr := ptr - ptr % objectPageSize
  let id := (s.mem.pages pageAddr).heapId
  if id ∈ s.heaps then
    let r := (s.zones id).deallocate s.mem ptr layout
    match r.1 with
    | .ok () => (.ok (), s.setZone id r.2.1 r.2.2)
    | _ => (.panic, s.setZone id r.2.1 r.2.2)
  else (.panic, s)

/-- `deallocate_large_object`: the node is taken out of the tree and dropped, the mapping first and
the box then. -/
def deallocateLargeObject (s : MultipleHeaps R) (ptr : ℕ) : Outcome String Unit × MultipleHeaps R :=
  let cursor := R.find s.largeAllocations ptr
  match R.get s.largeAllocations cursor with
  | none => (.panic, s)
  | some a =>
    let s := { s with
      largeAllocations := R.removeAt s.largeAllocations cursor
      mapped := s.mapped.erase a.mp }
    s.deallocSmall a.node nodeLayout

def dealloc (s : MultipleHeaps R) (ptr : ℕ) (layout : Layout) : Outcome String Unit × MultipleHeaps R :=
  if maxAllocSize < layout.size then s.deallocateLargeObject ptr
  else s.deallocSmall ptr layout

/-! ### Initialization -/

/-- The layout for which the pages of a size class are handed in. -/
def classLayout (c : Fin 11) : Layout :=
  if c.1 = 10 then ⟨classSize c, 8, eight_eq_two_pow⟩ else ⟨classSize c, 2 ^ (c.1 + 3), c.1 + 3, rfl⟩

/-- The loop of `init_individual_heap` for one size. -/
def initClass (surroundings : Surroundings) (key : ℕ) (s : MultipleHeaps R) (c : Fin 11) :
    Outcome String (MultipleHeaps R) :=
  match s.mapPages surroundings key (classLayout c) mappedPagesPerSizeClass with
  | (.ok (), s) => .ok s
  | (.err e, _) => .err e
  | (.panic, _) => .panic

/-- `init_individual_heap`. -/
def initIndividualHeap (surroundings : Surroundings) (s : MultipleHeaps R) (key : ℕ) :
    Outcome String (MultipleHeaps R) :=
  (Outcome.foldl (initClass surroundings key) s (List.finRange 11)).bind fun s =>
    if key ∈ s.heaps then .err "New heap created with a previously used id"
    else .ok { s with heaps := key :: s.heaps }

end MultipleHeaps

/-- `initialize_multiple_heaps`: a heap for each CPU. -/
def initializeMultipleHeaps (surroundings : Surroundings) (keys : List ℕ) :
    Outcome String (MultipleHeaps R) :=
  Outcome.foldl (MultipleHeaps.initIndividualHeap surroundings) .empty keys

/-! ### The kernel and its heap -/

/-- What a client has got. -/
structure Allocation where
  layout : Layout
  ptr : ℕ

/-- The heap, and what clients have got and not given back. -/
structure Kernel (R : OrderedTree LargeAllocation LargeAllocation.getKey) where
  heap : MultipleHeaps R
  live : List Allocation

/-- The calls of clients. Allocations are known by their place in the list of all. -/
inductive KernelOp where
  | alloc (surroundings : Surroundings) (layout : Layout)
  | dealloc (i : ℕ)

namespace Kernel

def step (s : Kernel R) : KernelOp → Kernel R
  | .alloc surroundings layout =>
    match s.heap.alloc surroundings layout with
    | (.ok (some ptr), heap) => ⟨heap, ⟨layout, ptr⟩ :: s.live⟩
    | (_, heap) => ⟨heap, s.live⟩
  | .dealloc i =>
    match s.live[i]? with
    | none => s
    | some a => ⟨(s.heap.dealloc a.ptr a.layout).2, s.live.eraseIdx i⟩

end Kernel

end Maios.Slab
