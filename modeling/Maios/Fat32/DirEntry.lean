import Mathlib.Data.List.Sort
import Maios.Fat32.Bytes
import Maios.Storage.Device

/-!
# Directory entries and their names

A directory is a sequence of slots of 32 bytes. A slot whose first byte is `0x00` ends the
directory, one that starts with `0xE5` is deleted, one with attribute `0x0F` carries a piece of the
long name of an entry that follows, and every other slot is an entry with a name of eight and three
bytes.

Two notions of the name of an entry meet here. Listing a directory gives the long name collected
from the slots before the entry, or else its short name; `nameTo83` is what the driver compares with
the eleven bytes of an entry when it creates, updates or deletes one.

Texts are lists of characters, and `to_uppercase` is an argument of the functions that use it.
-/

namespace Maios.Fat32

abbrev Name := List Char

def attrVolumeId : UInt8 := 0x08
def attrDirectory : UInt8 := 0x10
def attrArchive : UInt8 := 0x20
def attrLfn : UInt8 := 0x0F

/-- The first byte of a slot. -/
def slotHead (s : Bytes) : UInt8 := s.getD 0 0

/-- The attribute byte of a slot. -/
def slotAttr (s : Bytes) : UInt8 := s.getD 11 0

structure DirEntry83 where
  name : Storage.Block 11
  attr : UInt8
  clusterHi : ℕ
  clusterLo : ℕ
  fileSize : ℕ
  deriving DecidableEq

namespace DirEntry83

def parse (buf : Bytes) : Option DirEntry83 :=
  if h : buf.length < 32 then none
  else if slotAttr buf = attrLfn then none
  else if slotHead buf = 0xE5 then none
  else if slotHead buf = 0x00 then none
  else some
    { name := ⟨buf.take 11, by rw [List.length_take]; omega⟩
      attr := slotAttr buf
      clusterHi := ru16 buf 20
      clusterLo := ru16 buf 26
      fileSize := ru32 buf 28 }

def isDir (e : DirEntry83) : Bool := e.attr &&& attrDirectory ≠ 0

def isVolumeId (e : DirEntry83) : Bool := e.attr &&& attrVolumeId ≠ 0

def cluster (e : DirEntry83) : ℕ := e.clusterHi <<< 16 ||| e.clusterLo

/-- The name as text: the bytes before the first space of either part. -/
def shortName (e : DirEntry83) : Name :=
  let text (b : Bytes) : Name := (b.takeWhile (· ≠ 0x20)).map fun c => Char.ofNat c.toNat
  let base := text (e.name.1.take 8)
  let ext := text (e.name.1.drop 8)
  if ext = [] then base else base ++ '.' :: ext

/-- The slot of an entry. The bytes of times and dates are zero. -/
def toBytes (e : DirEntry83) : Bytes :=
  let buf := (e.name.1 ++ List.replicate 21 0).set 11 e.attr
  wu32 (wu16 (wu16 buf 20 e.clusterHi) 26 e.clusterLo) 28 e.fileSize

/-- The entry of a chain that starts at a cluster. -/
def ofCluster (name : Storage.Block 11) (attr : UInt8) (first size : ℕ) : DirEntry83 :=
  { name, attr, clusterHi := (first >>> 16) % 2 ^ 16, clusterLo := first % 2 ^ 16, fileSize := size }

end DirEntry83

/-! ### Names -/

/-- The UTF-8 bytes of a text. -/
def utf8 (name : Name) : Bytes := name.flatMap String.utf8EncodeChar

/-- A part of an 8.3 name: cut or filled with spaces to `n` bytes. -/
def field83 (n : ℕ) (b : Bytes) : Bytes := b.take n ++ List.replicate (n - b.length) 0x20

theorem length_field83 (n : ℕ) (b : Bytes) : (field83 n b).length = n := by
  rw [field83, List.length_append, List.length_take, List.length_replicate]
  omega

/-- The eleven bytes of a file name, split at its last dot. -/
def nameTo83 (name : Name) : Storage.Block 11 :=
  let upper := (utf8 name).map fun b => if 0x61 ≤ b ∧ b ≤ 0x7A then b - 32 else b
  let ext := (upper.reverse.takeWhile (· ≠ 0x2E)).reverse
  let base := upper.take (upper.length - ext.length - 1)
  if 0x2E ∈ upper then
    ⟨field83 8 base ++ field83 3 ext, by rw [List.length_append, length_field83, length_field83]⟩
  else
    ⟨field83 8 upper ++ field83 3 [], by rw [List.length_append, length_field83, length_field83]⟩

/-! ### Long names -/

/-- The pieces of a long name collected so far, each with its place in the name. -/
abbrev LfnCollector := List (ℕ × List ℕ)

namespace LfnCollector

def push (parts : LfnCollector) (buf : Bytes) : LfnCollector :=
  if buf.length < 32 ∨ slotAttr buf ≠ attrLfn then parts
  else
    let order := byteAt buf 0 &&& 0x3F
    let chars := [1, 3, 5, 7, 9, 14, 16, 18, 20, 22, 24, 28, 30].map (ru16 buf)
    parts ++ [(order, chars)]

/-- The long name, unless nothing was collected or the name is empty. -/
def build (parts : LfnCollector) : Option Name :=
  let sorted := parts.insertionSort fun p q => p.1 ≤ q.1
  let name := sorted.flatMap fun p =>
    (p.2.takeWhile fun c => c ≠ 0 ∧ c ≠ 0xFFFF).map fun c =>
      if c < 0x80 then Char.ofNat c else '?'
  if name = [] then none else some name

end LfnCollector

/-! ### Listing slots

The body of the loop in `iter_dir`, as the entry that it hands to its callback and the collector
that it goes on with. -/

/-- The entry of a slot that is shown, with the name it is shown under. -/
def slotEntry (lfn : LfnCollector) (s : Bytes) : Option (Name × DirEntry83) :=
  if slotHead s = 0x00 then none
  else if slotHead s = 0xE5 then none
  else if slotAttr s = attrLfn then none
  else
    match DirEntry83.parse s with
    | some entry =>
      if entry.isVolumeId then none
      else
        let name := lfn.build.getD entry.shortName
        if name ≠ ['.'] ∧ name ≠ ['.', '.'] then some (name, entry) else none
    | none => none

/-- The collector after a slot, or nothing after the slot that ends the directory. -/
def afterSlot (lfn : LfnCollector) (s : Bytes) : Option LfnCollector :=
  if slotHead s = 0x00 then none
  else if slotHead s = 0xE5 then some []
  else if slotAttr s = attrLfn then some (lfn.push s)
  else some []

/-- The entries shown by a run of slots. -/
def scan : LfnCollector → List Bytes → List (Name × DirEntry83)
  | _, [] => []
  | lfn, s :: rest =>
    match afterSlot lfn s with
    | none => []
    | some lfn' => (slotEntry lfn s).toList ++ scan lfn' rest

/-- The collector after a run of slots, or nothing if the directory ended in it. -/
def scanEnd : LfnCollector → List Bytes → Option LfnCollector
  | lfn, [] => some lfn
  | lfn, s :: rest =>
    match afterSlot lfn s with
    | none => none
    | some lfn' => scanEnd lfn' rest

end Maios.Fat32
