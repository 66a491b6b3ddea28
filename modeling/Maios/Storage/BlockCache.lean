import Mathlib.Data.List.MinMax
import Maios.Library.Act
import Maios.Library.OrdMap
import Maios.Library.Word
import Maios.Storage.Device

/-!
# The write-back block cache

`BlockCache` keeps blocks of a device in memory. A written block is `modified` until it is
flushed, a block read from the device is `shared`, and an `invalid` block is read again before it
is used. A cache that is full makes room by dropping the block accessed least recently among those
that are not modified, after flushing everything if all are.

The cache of the source is a hash map. Its content is an ordered map here, and the order in which
it is iterated is an argument of the operations that iterate it: any permutation of the entries.
-/

namespace Maios.Storage

inductive CacheState where
  /-- Changed in the cache and not yet written to the device. -/
  | modified
  /-- In step with the device. -/
  | shared
  /-- To be read again. -/
  | invalid
  deriving DecidableEq, Repr

structure CachedBlock (bs : ℕ) where
  data : Block bs
  state : CacheState
  lruTick : ℕ

structure BlockCache (bs : ℕ) where
  cache : OrdMap ℕ (CachedBlock bs)
  device : Device bs
  capacity : ℕ
  tick : ℕ
  hits : ℕ
  misses : ℕ
  evictions : ℕ
  dirtyFlushes : ℕ

/-- An order in which the entries of a hash map are iterated. -/
structure IterOrder (α : Type) where
  order : List α → List α
  perm : ∀ l, (order l).Perm l

/-- The errors of block readers and writers. -/
inductive IoError where
  | invalidInput
  | timedOut
  | other (msg : String)
  deriving DecidableEq, Repr

namespace BlockCache

variable {bs : ℕ}

abbrev Entry (bs : ℕ) := ℕ × CachedBlock bs

/-- `with_capacity` -/
def withCapacity (device : Device bs) (capacity : ℕ) : BlockCache bs :=
  ⟨.empty, device, capacity, 0, 0, 0, 0, 0⟩

/-- Actions on a cache. -/
abbrev CacheM (bs : ℕ) := Act (BlockCache bs) String

/-! ### Flushing -/

/-- Write a cached block to the device and mark it as shared. -/
def writeBack (block : ℕ) (cb : CachedBlock bs) (msg : String) : CacheM bs Unit := fun c =>
  let r := c.device.write block cb.data
  if r.1 then
    (.ok (), { c with
      device := r.2
      cache := c.cache.insert block { cb with state := .shared }
      dirtyFlushes := wrap (c.dirtyFlushes + 1) })
  else (.err msg, { c with device := r.2 })

/-- The loop of `flush(None)` over the blocks to be written. -/
def flushLoop : List ℕ → CacheM bs Unit
  | [] => pure ()
  | block :: dirty => do
    let c ← Act.get
    match c.cache.find? block with
    | some cb => writeBack block cb "BlockCache::flush_all: device write error"
    | none => Act.crash
    flushLoop dirty

/-- The modified blocks, in iteration order. -/
def dirtyBlocks (iter : IterOrder (Entry bs)) (c : BlockCache bs) : List ℕ :=
  ((iter.order c.cache.entries).filter fun e => decide (e.2.state = .modified)).map Prod.fst

/-- `flush` -/
def flush (iter : IterOrder (Entry bs)) : Option ℕ → CacheM bs Unit
  | some block => do
    let c ← Act.get
    match c.cache.find? block with
    | some cb =>
      if cb.state = .modified then writeBack block cb "BlockCache::flush: device write error"
      else pure ()
    | none => pure ()
  | none => do
    let c ← Act.get
    flushLoop (dirtyBlocks iter c)

/-! ### Making room -/

/-- The block accessed least recently, among those that `p` selects. -/
def victim (iter : IterOrder (Entry bs)) (p : CachedBlock bs → Bool) (c : BlockCache bs) :
    Option ℕ :=
  (((iter.order c.cache.entries).filter fun e => p e.2).argmin fun e => e.2.lruTick).map Prod.fst

/-- Drop a block from the cache. -/
def evict (block : ℕ) : CacheM bs Unit := fun c =>
  (.ok (), { c with cache := c.cache.remove block, evictions := wrap (c.evictions + 1) })

/-- `evict_one` -/
def evictOne (iter : IterOrder (Entry bs)) : CacheM bs Unit := do
  let c ← Act.get
  match victim iter (fun cb => decide (cb.state ≠ .modified)) c with
  | some block => evict block
  | none =>
    flush iter none
    let c ← Act.get
    match victim iter (fun _ => true) c with
    | some block => evict block
    | none => pure ()

/-- Make room for a block that is not in a full cache. -/
def makeRoom (iter : IterOrder (Entry bs)) (block : ℕ) : CacheM bs Unit := do
  let c ← Act.get
  if c.cache.find? block = none ∧ c.capacity ≤ c.cache.entries.length then evictOne iter
  else pure ()

/-! ### Reading and writing blocks -/

/-- Read a block of the device into the cache. -/
def fetch (block : ℕ) : CacheM bs Unit := fun c =>
  let r := c.device.read block
  match r.1 with
  | some data =>
    (.ok (), { c with
      device := r.2
      misses := wrap (c.misses + 1)
      cache := c.cache.insert block ⟨data, .shared, c.tick⟩ })
  | none => (.err "BlockCache: device read error", { c with device := r.2 })

/-- `load_from_device` -/
def loadFromDevice (iter : IterOrder (Entry bs)) (block : ℕ) : CacheM bs Unit := do
  makeRoom iter block
  fetch block

/-- Count one more operation. -/
def nextTick : CacheM bs Unit := fun c => (.ok (), { c with tick := wrap (c.tick + 1) })

/-- Note the access to a cached block, and return its data. -/
def touch (block : ℕ) : CacheM bs (Block bs) := fun c =>
  match c.cache.find? block with
  | some cb => (.ok cb.data, { c with cache := c.cache.insert block { cb with lruTick := c.tick } })
  | none => (.panic, c)

/-- A block that is in the cache and not invalid. -/
def isValid (c : BlockCache bs) (block : ℕ) : Bool :=
  match c.cache.find? block with
  | some cb => decide (cb.state ≠ .invalid)
  | none => false

/-- Count a hit. -/
def countHit : CacheM bs Unit := fun c => (.ok (), { c with hits := wrap (c.hits + 1) })

/-- Load a block unless it is in the cache and valid. -/
def makeValid (iter : IterOrder (Entry bs)) (block : ℕ) : CacheM bs Unit := do
  let c ← Act.get
  if c.isValid block then countHit else loadFromDevice iter block

/-- `read_block` -/
def readBlock (iter : IterOrder (Entry bs)) (block : ℕ) : CacheM bs (Block bs) := do
  nextTick
  makeValid iter block
  touch block

/-- Put a written block into the cache. -/
def store (block : ℕ) (data : Block bs) (tick : ℕ) : CacheM bs Unit := fun c =>
  (.ok (), { c with cache := c.cache.insert block ⟨data, .modified, tick⟩ })

/-- `write_block` -/
def writeBlock (iter : IterOrder (Entry bs)) (block : ℕ) (data : List UInt8) : CacheM bs Unit := do
  nextTick
  let c ← Act.get
  match Block.ofList bs data with
  | some owned =>
    makeRoom iter block
    store block owned c.tick
  | none => Act.fail "BlockCache::write_block: buffer size mismatch"

/-- `invalidate` -/
def invalidate (block : ℕ) : CacheM bs Unit := fun c =>
  match c.cache.find? block with
  | some cb => (.ok (), { c with cache := c.cache.insert block { cb with state := .invalid } })
  | none => (.ok (), c)

/-! ### Several blocks -/

/-- The loop of `read_blocks`, from block `i` of the buffer on. -/
def readBlocksLoop (iter : IterOrder (Entry bs)) (blockOffset : ℕ) :
    ℕ → ℕ → List UInt8 → Act (BlockCache bs) IoError (List UInt8)
  | 0, _, buffer => pure buffer
  | n + 1, i, buffer => do
    let src ← (readBlock iter (wrap (blockOffset + i))).mapError fun _ => .invalidInput
    readBlocksLoop iter blockOffset n (i + 1)
      (buffer.take (i * bs) ++ src.1 ++ buffer.drop ((i + 1) * bs))

/-- `read_blocks`, with the buffer afterwards. -/
def readBlocks (iter : IterOrder (Entry bs)) (buffer : List UInt8) (blockOffset : ℕ) :
    Act (BlockCache bs) IoError (ℕ × List UInt8) :=
  if bs = 0 then Act.crash
  else do
    let numBlocks := buffer.length / bs
    let buffer' ← readBlocksLoop iter blockOffset numBlocks 0 buffer
    pure (numBlocks, buffer')

/-- The writes that `write_blocks` makes: block numbers and contents. -/
def blockWrites (bs : ℕ) (buffer : List UInt8) (blockOffset : ℕ) : List (ℕ × List UInt8) :=
  (List.range (buffer.length / bs)).map fun i =>
    (wrap (blockOffset + i), (buffer.drop (i * bs)).take bs)

/-- The loop of `write_blocks`. -/
def writeBlocksLoop (iter : IterOrder (Entry bs)) :
    List (ℕ × List UInt8) → Act (BlockCache bs) IoError Unit
  | [] => pure ()
  | w :: writes => do
    (writeBlock iter w.1 w.2).mapError fun _ => .invalidInput
    writeBlocksLoop iter writes

/-- `write_blocks` -/
def writeBlocks (iter : IterOrder (Entry bs)) (buffer : List UInt8) (blockOffset : ℕ) :
    Act (BlockCache bs) IoError ℕ :=
  if bs = 0 then Act.crash
  else do
    writeBlocksLoop iter (blockWrites bs buffer blockOffset)
    pure (buffer.length / bs)

end BlockCache

end Maios.Storage
