import Maios.Fat32.DirEntry
import Maios.Library.Chunks
import Maios.Library.Program

/-!
# The FAT32 driver above its accesses to the disk

Everything the driver does is made of four accesses: read or write the FAT entry of a cluster, and
read or write a whole cluster. The functions of `Fat32Volume` above them are programs over this
interface. What the four accesses do to the sectors of a device is said elsewhere.

Machine arithmetic that would overflow, an index outside a slice and a division by zero are panics.
-/

namespace Maios.Fat32

def fat32Eoc : ℕ := 0x0FFFFFF8
def fat32Free : ℕ := 0
def fat32Bad : ℕ := 0x0FFFFFF7

/-- The number of clusters after which a chain is taken for a loop. -/
def maxChain : ℕ := 1000000

/-- The geometry of a volume, as its boot sector gives it. -/
structure Fat32Params where
  bytesPerSector : ℕ
  sectorsPerCluster : ℕ
  numFats : ℕ
  totalSectors : ℕ
  sectorsPerFat : ℕ
  rootCluster : ℕ
  fatStartSector : ℕ
  dataStartSector : ℕ
  bytesPerCluster : ℕ
  deriving DecidableEq, Repr

/-- The first number that is no cluster, `total_clusters + 2`, if it can be computed. -/
def Fat32Params.clusterLimit (p : Fat32Params) : Option ℕ :=
  if p.totalSectors < p.dataStartSector ∨ p.sectorsPerCluster = 0 then none
  else
    let limit := (p.totalSectors - p.dataStartSector) / p.sectorsPerCluster + 2
    if limit < 2 ^ 32 then some limit else none

/-- The accesses of the driver to its volume. -/
inductive Access where
  | fatEntry (cluster : ℕ)
  | setFatEntry (cluster value : ℕ)
  | readCluster (cluster : ℕ)
  | writeCluster (cluster : ℕ) (data : Bytes)

abbrev Access.Result : Access → Type
  | fatEntry _ => ℕ
  | setFatEntry _ _ => Unit
  | readCluster _ => Bytes
  | writeCluster _ _ => Unit

/-- Programs of the driver; errors are messages. -/
abbrev DriverM := Prog Access Access.Result String

def fatEntry (cluster : ℕ) : DriverM ℕ := Prog.ofCall (Access.fatEntry cluster)

def setFatEntry (cluster value : ℕ) : DriverM Unit := Prog.ofCall (Access.setFatEntry cluster value)

def readCluster (cluster : ℕ) : DriverM Bytes := Prog.ofCall (Access.readCluster cluster)

def writeCluster (cluster : ℕ) (data : Bytes) : DriverM Unit :=
  Prog.ofCall (Access.writeCluster cluster data)

/-! ### Chains -/

/-- The rest of a chain from `cur`, where `n` more clusters are allowed. -/
def clusterChainFrom : ℕ → ℕ → DriverM (List ℕ)
  | 0, cur => if cur < 2 ∨ fat32Bad ≤ cur then pure [] else Prog.fail "FAT32: chain loop"
  | n + 1, cur =>
    if cur < 2 ∨ fat32Bad ≤ cur then pure []
    else do
      let next ← fatEntry cur
      if fat32Eoc ≤ next then pure [cur]
      else do
        let rest ← clusterChainFrom n next
        pure (cur :: rest)

def clusterChain (first : ℕ) : DriverM (List ℕ) := clusterChainFrom maxChain first

/-- Take the first free cluster of a list and mark it as the end of a chain. -/
def allocateFrom : List ℕ → DriverM (Option ℕ)
  | [] => pure none
  | c :: cs => do
    let entry ← fatEntry c
    if entry = fat32Free then do
      setFatEntry c 0x0FFFFFFF
      pure (some c)
    else allocateFrom cs

/-- The clusters in the order in which they are tried: from the hint on, then from the start. -/
def candidates (limit hint : ℕ) : List ℕ :=
  let start := if hint < 2 then 2 else hint
  List.range' start (limit - start) ++ List.range' 2 (start - 2)

def allocateCluster (p : Fat32Params) (hint : ℕ) : DriverM ℕ :=
  match p.clusterLimit with
  | none => Prog.crash
  | some limit => do
    match ← allocateFrom (candidates limit hint) with
    | some c => pure c
    | none => Prog.fail "FAT32: no free clusters"

/-- Allocate `count` clusters, each one searched for behind the one before. -/
def allocateMany (p : Fat32Params) : ℕ → ℕ → DriverM (List ℕ)
  | 0, _ => pure []
  | count + 1, hint => do
    let c ← allocateCluster p hint
    let cs ← allocateMany p count (c + 1)
    pure (c :: cs)

/-- Make each cluster point to the next; the last one is left as it is. -/
def linkClusters : List ℕ → DriverM Unit
  | c :: d :: cs => do
    setFatEntry c d
    linkClusters (d :: cs)
  | _ => pure ()

def allocateChain (p : Fat32Params) (count : ℕ) : DriverM (List ℕ) :=
  if count = 0 then pure []
  else do
    let clusters ← allocateMany p count 2
    linkClusters clusters
    pure clusters

def extendChain (p : Fat32Params) (lastCluster additional : ℕ) : DriverM (List ℕ) :=
  if additional = 0 then pure []
  else do
    match ← allocateChain p additional with
    | [] => Prog.crash
    | new :: rest => do
      setFatEntry lastCluster new
      pure (new :: rest)

/-- Mark every cluster of a list as free. -/
def freeClusters : List ℕ → DriverM Unit
  | [] => pure ()
  | c :: cs => do
    setFatEntry c fat32Free
    freeClusters cs

def freeChain (firstCluster : ℕ) : DriverM Unit := do
  let chain ← clusterChain firstCluster
  freeClusters chain

/-- Free the chain of an entry, if it has one. -/
def freeChainOf (cluster : ℕ) : DriverM Unit :=
  if 2 ≤ cluster then freeChain cluster else pure ()

/-! ### Reading -/

/-- `chunks_exact(32)` -/
def slotsExact (buf : Bytes) : List Bytes := chunks 32 (buf.length / 32) buf

/-- The slots at the offsets `(0..len).step_by(32)`; the last one may be incomplete. -/
def slotsStepped (buf : Bytes) : List Bytes := chunks 32 ((buf.length + 31) / 32) buf

/-- The entries shown by the clusters of a directory. -/
def iterClusters : List ℕ → LfnCollector → DriverM (List (Name × DirEntry83))
  | [], _ => pure []
  | c :: cs, lfn => do
    let buf ← readCluster c
    match scanEnd lfn (slotsExact buf) with
    | none => pure (scan lfn (slotsExact buf))
    | some lfn' => do
      let rest ← iterClusters cs lfn'
      pure (scan lfn (slotsExact buf) ++ rest)

/-- The calls of the callback of `iter_dir`, in order. -/
def iterDir (dirCluster : ℕ) : DriverM (List (Name × DirEntry83)) := do
  let chain ← clusterChain dirCluster
  iterClusters chain []

/-- Append clusters to `out` until it has `size` bytes. -/
def readClusters (bpc size : ℕ) : List ℕ → Bytes → DriverM Bytes
  | [], out => pure out
  | c :: cs, out =>
    if size ≤ out.length then pure out
    else do
      let buf ← readCluster c
      readClusters bpc size cs (out ++ buf.take (min (size - out.length) bpc))

def readFile (p : Fat32Params) (firstCluster size : ℕ) : DriverM Bytes := do
  let chain ← clusterChain firstCluster
  let out ← readClusters p.bytesPerCluster size chain []
  pure (out.take size)

section Upper

variable (upper : Name → Name)

/-- The last of the entries that have the name, up to case. -/
def lastNamed (name : Name) (entries : List (Name × DirEntry83)) : Option DirEntry83 :=
  entries.foldl (fun found e => if upper e.1 = upper name then some e.2 else found) none

def findEntry (dirCluster : ℕ) (name : Name) : DriverM (Option DirEntry83) := do
  let entries ← iterDir dirCluster
  pure (lastNamed upper name entries)

end Upper

/-! ### Searching the slots of a directory

`create_dir_entry`, `update_dir_entry` and `delete_file` walk through the slots of a directory in the
same way. They differ in what they look for and in whether the end marker stops them. -/

/-- What a search does at a slot. -/
inductive Visit where
  | next
  | hit
  | stop
  | crash
  deriving DecidableEq, Repr

/-- How a search of slots ends. -/
inductive Search where
  | absent
  | hit (i : ℕ)
  | stop
  | crash
  deriving DecidableEq, Repr

/-- The result of a search when a slot is put in front. -/
def Search.succ : Search → Search
  | hit i => hit (i + 1)
  | r => r

/-- The first slot at which a search does not go on. -/
def firstHit (visit : Bytes → Visit) : List Bytes → Search
  | [] => .absent
  | s :: rest =>
    match visit s with
    | .next => (firstHit visit rest).succ
    | .hit => .hit 0
    | .stop => .stop
    | .crash => .crash

/-- How a search of a directory ends: at a slot of a cluster, with the contents of the cluster, at
the end marker, or at the end of the chain. -/
inductive Found where
  | absent
  | stop
  | hit (cluster slot : ℕ) (buf : Bytes)

def searchChain (visit : Bytes → Visit) : List ℕ → DriverM Found
  | [] => pure .absent
  | c :: cs => do
    let buf ← readCluster c
    match firstHit visit (slotsStepped buf) with
    | .absent => searchChain visit cs
    | .stop => pure .stop
    | .crash => Prog.crash
    | .hit i => if 32 * i + 32 ≤ buf.length then pure (.hit c i buf) else Prog.crash

/-- A slot that a new entry may take. -/
def visitFree (s : Bytes) : Visit :=
  if slotHead s = 0x00 ∨ slotHead s = 0xE5 then .hit else .next

/-- The slot of the entry with these eleven bytes. -/
def visitNamed (target : Bytes) (s : Bytes) : Visit :=
  if slotHead s = 0x00 then .stop
  else if slotHead s = 0xE5 then .next
  else if s.length < 12 then .crash
  else if slotAttr s = attrLfn then .next
  else if s.take 11 = target then .hit
  else .next

/-! ### Directory entries -/

def createDirEntry (p : Fat32Params) (dirCluster : ℕ) (name : Name) (attr : UInt8)
    (firstCluster fileSize : ℕ) : DriverM Unit := do
  let entryBytes := (DirEntry83.ofCluster (nameTo83 name) attr firstCluster fileSize).toBytes
  let chain ← clusterChain dirCluster
  match ← searchChain visitFree chain with
  | .hit c i buf =>
    writeCluster c (buf.take (32 * i) ++ entryBytes ++ buf.drop (32 * i + 32))
  | _ =>
    -- no free slot: one more cluster for the directory
    match chain.getLast? with
    | none => Prog.fail "FAT32: empty directory chain"
    | some last => do
      match ← extendChain p last 1 with
      | [] => Prog.crash
      | new :: _ =>
        if p.bytesPerCluster < 32 then Prog.crash
        else writeCluster new (entryBytes ++ List.replicate (p.bytesPerCluster - 32) 0)

/-- Write the first cluster and the size into the slot at `off`. -/
def updateSlot (buf : Bytes) (off firstCluster fileSize : ℕ) : Bytes :=
  wu32 (wu16 (wu16 buf (off + 20) ((firstCluster >>> 16) % 2 ^ 16)) (off + 26)
    (firstCluster % 2 ^ 16)) (off + 28) fileSize

def updateDirEntry (dirCluster : ℕ) (name : Name) (firstCluster fileSize : ℕ) : DriverM Unit := do
  let chain ← clusterChain dirCluster
  match ← searchChain (visitNamed (nameTo83 name).1) chain with
  | .hit c i buf => writeCluster c (updateSlot buf (32 * i) firstCluster fileSize)
  | .stop => Prog.fail "FAT32: entry not found"
  | .absent => Prog.fail "FAT32: entry not found for update"

/-! ### Files -/

/-- Write the data cluster by cluster, the last one filled with zeros. -/
def writeClusters (bpc : ℕ) : List ℕ → Bytes → DriverM Unit
  | [], _ => pure ()
  | c :: cs, data => do
    writeCluster c (resize (data.take bpc) bpc)
    writeClusters bpc cs (data.drop bpc)

/-- The number of clusters for `n` bytes, if clusters are not empty. -/
def clustersNeeded (bpc n : ℕ) : Option ℕ :=
  if n = 0 then some 0 else if bpc = 0 then none else some ((n + bpc - 1) / bpc)

/-- Store the data in a new chain and return its first cluster, or 0 if there is no data. -/
def storeData (p : Fat32Params) (needed : ℕ) (data : Bytes) : DriverM ℕ :=
  if needed = 0 then pure 0
  else do
    let chain ← allocateChain p needed
    writeClusters p.bytesPerCluster chain data
    match chain with
    | [] => Prog.crash
    | first :: _ => pure first

/-- Create or replace a file. -/
def writeFile (upper : Name → Name) (p : Fat32Params) (dirCluster : ℕ) (name : Name)
    (data : Bytes) : DriverM Unit :=
  match clustersNeeded p.bytesPerCluster data.length with
  | none => Prog.crash
  | some needed => do
    match ← findEntry upper dirCluster name with
    | some entry => do
      freeChainOf entry.cluster
      let first ← storeData p needed data
      updateDirEntry dirCluster name first (data.length % 2 ^ 32)
    | none => do
      let first ← storeData p needed data
      createDirEntry p dirCluster name attrArchive first (data.length % 2 ^ 32)

/-- Mark the entry of a file as deleted and free its chain. -/
def deleteFile (dirCluster : ℕ) (name : Name) : DriverM Unit := do
  let chain ← clusterChain dirCluster
  match ← searchChain (visitNamed (nameTo83 name).1) chain with
  | .hit c i buf => do
    let fileCluster := ru16 buf (32 * i + 20) <<< 16 ||| ru16 buf (32 * i + 26)
    writeCluster c (buf.set (32 * i) 0xE5)
    freeChainOf fileCluster
  | .stop => Prog.fail "FAT32: file not found"
  | .absent => Prog.fail "FAT32: file not found for deletion"

/-! ### Nodes of the file system -/

/-- `insert` of a file: an empty entry. -/
def insertFile (p : Fat32Params) (dirCluster : ℕ) (name : Name) : DriverM Unit :=
  createDirEntry p dirCluster name attrArchive 0 0

/-- The eleven bytes of the entries by which a directory refers to itself and its parent. -/
def dotName : Storage.Block 11 := ⟨0x2E :: List.replicate 10 0x20, rfl⟩

def dotDotName : Storage.Block 11 := ⟨0x2E :: 0x2E :: List.replicate 9 0x20, rfl⟩

/-- `insert` of a directory: a cluster of its own with the entries for itself and its parent, and an
entry. -/
def insertDir (p : Fat32Params) (dirCluster : ℕ) (name : Name) : DriverM Unit := do
  let newCluster ← allocateCluster p 2
  let dot := (DirEntry83.ofCluster dotName attrDirectory newCluster 0).toBytes
  let dotDot := (DirEntry83.ofCluster dotDotName attrDirectory dirCluster 0).toBytes
  if p.bytesPerCluster < 64 then Prog.crash
  else do
    writeCluster newCluster (dot ++ dotDot ++ List.replicate (p.bytesPerCluster - 64) 0)
    createDirEntry p dirCluster name attrDirectory newCluster 0

end Maios.Fat32
