import Maios.Library.LittleEndian
import Maios.Library.Outcome
import Maios.Library.Overwrite
import Maios.Library.Word

/-!
# Loading PE binaries

A PE32+ file is copied into one mapping: its headers at the start and each section at its relative
virtual address. If the mapping is not at the address for which the file has been linked, the fields
listed in the base relocation directory are changed by the difference.

A mapping has at least the bytes that were asked for, with any contents. The entry of the data
directory is read through a pointer that is not checked, so it may be read from what is behind the
file in memory: `behind`.
-/

namespace Maios.Pe

abbrev Bytes := List UInt8

/-! ### Headers -/

/-- The fields of the COFF header and the optional header that are used, and where the optional header
and the section headers are. -/
structure Header where
  numberOfSections : ℕ
  sizeOfOptionalHeader : ℕ
  addressOfEntryPoint : ℕ
  imageBase : ℕ
  sizeOfImage : ℕ
  sizeOfHeaders : ℕ
  numberOfRvaAndSizes : ℕ
  optOff : ℕ
  sectionOff : ℕ
  deriving DecidableEq

def sizeOfDosHeader : ℕ := 64
def sizeOfCoffHeader : ℕ := 20
def sizeOfOptionalHeader64 : ℕ := 112

def parseHeader (data : Bytes) : Outcome String Header :=
  if data.length < sizeOfDosHeader then .err "pe_loader: data too small for DOS header"
  else if data.take 2 ≠ [0x4D, 0x5A] then .err "pe_loader: invalid DOS magic (expected MZ)"
  else
    let eLfanew := leAt data 0x3C 4
    if data.length < eLfanew + 4 then .err "pe_loader: e_lfanew points beyond data"
    else if (data.drop eLfanew).take 4 ≠ [0x50, 0x45, 0, 0] then
      .err "pe_loader: invalid PE signature (expected PE\\0\\0)"
    else
      let coffOff := eLfanew + 4
      let coffEnd := coffOff + sizeOfCoffHeader
      if data.length < coffEnd then .err "pe_loader: data too small for COFF header"
      else if leAt data coffOff 2 ≠ 0x8664 then
        .err "pe_loader: not an x86_64 PE (IMAGE_FILE_MACHINE_AMD64 expected)"
      else
        let optOff := coffEnd
        if data.length < optOff + sizeOfOptionalHeader64 then
          .err "pe_loader: data too small for PE32+ optional header"
        else if leAt data optOff 2 ≠ 0x020B then
          .err "pe_loader: not a PE32+ binary (expected magic 0x020B)"
        else
          .ok {
            numberOfSections := leAt data (coffOff + 2) 2
            sizeOfOptionalHeader := leAt data (coffOff + 16) 2
            addressOfEntryPoint := leAt data (optOff + 16) 4
            imageBase := leAt data (optOff + 24) 8
            sizeOfImage := leAt data (optOff + 56) 4
            sizeOfHeaders := leAt data (optOff + 60) 4
            numberOfRvaAndSizes := leAt data (optOff + 108) 4
            optOff := optOff
            sectionOff := optOff + leAt data (coffOff + 16) 2 }

structure SectionHeader where
  virtualSize : ℕ
  virtualAddress : ℕ
  sizeOfRawData : ℕ
  pointerToRawData : ℕ
  characteristics : ℕ
  deriving DecidableEq

def sizeOfSectionHeader : ℕ := 40

def sectionHeaderAt (data : Bytes) (off : ℕ) : SectionHeader where
  virtualSize := leAt data (off + 8) 4
  virtualAddress := leAt data (off + 12) 4
  sizeOfRawData := leAt data (off + 16) 4
  pointerToRawData := leAt data (off + 20) 4
  characteristics := leAt data (off + 36) 4

def sectionHeaders (data : Bytes) (sectionOff count : ℕ) : Outcome String (List SectionHeader) :=
  if data.length < sectionOff + count * sizeOfSectionHeader then
    .err "pe_loader: section headers extend beyond PE data"
  else .ok ((List.range count).map fun i => sectionHeaderAt data (sectionOff + i * sizeOfSectionHeader))

/-! ### The mapping -/

structure Mapping where
  start : ℕ
  contents : Bytes

/-- `create_mapping`, which returns at least the bytes that are asked for. -/
structure MappingSource where
  create : ℕ → Option Mapping
  room : ∀ n m, create n = some m → n ≤ m.contents.length ∧ m.start < 2 ^ 64

/-- Copies bytes to the offset. -/
def Mapping.write (m : Mapping) (off : ℕ) (bytes : Bytes) (e : String) : Outcome String Mapping :=
  if off + bytes.length ≤ m.contents.length then
    .ok { m with contents := overwrite 0 m.contents bytes off }
  else .err e

namespace SectionHeader

variable (s : SectionHeader)

/-- The bytes that the section takes in the image. -/
def size : ℕ := max s.virtualSize s.sizeOfRawData

/-- The section has code or data, or can be accessed. -/
def isLoadable : Bool :=
  s.characteristics &&& (0x00000020 ||| 0x00000040 ||| 0x00000080 ||| 0x40000000 ||| 0x80000000 |||
    0x20000000) ≠ 0

end SectionHeader

/-- The body of the loop over the sections. -/
def copySection (data : Bytes) (sizeOfImage : ℕ) (m : Mapping) (s : SectionHeader) :
    Outcome String Mapping :=
  if s.virtualSize = 0 ∧ s.sizeOfRawData = 0 then .ok m
  else if s.size = 0 then .ok m
  else if ¬ s.isLoadable then .ok m
  else if sizeOfImage < s.virtualAddress + s.size then .ok m
  else if 0 < s.sizeOfRawData ∧ s.pointerToRawData + s.sizeOfRawData ≤ data.length then
    let copyLen := min s.sizeOfRawData s.size
    m.write s.virtualAddress ((data.drop s.pointerToRawData).take copyLen)
      "pe_loader: failed to write section data"
  else .ok m

/-! ### Relocations -/

/-- An entry of a relocation block: its type and the address of the field. -/
structure Reloc where
  typ : ℕ
  rva : ℕ
  deriving DecidableEq

/-- The field of `w` bytes, increased modulo `256 ^ w`. -/
def increase (contents : Bytes) (rva w delta : ℕ) : Bytes :=
  overwrite 0 contents (leBytes w (leAt contents rva w + delta)) rva

/-- The change of one field, if it lies in the image. -/
def fixup (sizeOfImage delta : ℕ) (m : Mapping) (r : Reloc) : Outcome String Mapping :=
  if r.typ = 3 then
    if r.rva + 4 ≤ sizeOfImage then
      if r.rva + 4 ≤ m.contents.length then .ok { m with contents := increase m.contents r.rva 4 delta }
      else .err "pe_loader: reloc fixup write failed"
    else .ok m
  else if r.typ = 10 then
    if r.rva + 8 ≤ sizeOfImage then
      if r.rva + 8 ≤ m.contents.length then .ok { m with contents := increase m.contents r.rva 8 delta }
      else .err "pe_loader: reloc fixup write failed"
    else .ok m
  else .ok m

/-- The entries of the block at the offset, as far as they are in the data. -/
def blockRelocs (relocData : Bytes) (offset : ℕ) : List Reloc :=
  let pageRva := leAt relocData offset 4
  let blockSize := leAt relocData (offset + 4) 4
  ((List.range ((blockSize - 8) / 2)).takeWhile fun i =>
    offset + 8 + i * 2 + 2 ≤ relocData.length).map fun i =>
      let entry := leAt relocData (offset + 8 + i * 2) 2
      ⟨entry / 2 ^ 12 % 16, pageRva + entry % 2 ^ 12⟩

/-- The loop over the blocks, with a bound on the number of blocks. -/
def applyBlocks (relocData : Bytes) (sizeOfImage delta : ℕ) :
    ℕ → ℕ → Mapping → Outcome String Mapping
  | 0, _, m => .ok m
  | fuel + 1, offset, m =>
    if offset + 8 ≤ relocData.length then
      let blockSize := leAt relocData (offset + 4) 4
      if blockSize < 8 then .ok m
      else
        .bind (.foldl (fixup sizeOfImage delta) m (blockRelocs relocData offset)) fun m =>
          applyBlocks relocData sizeOfImage delta fuel (offset + blockSize) m
    else .ok m

def applyBaseRelocations (m : Mapping) (data behind : Bytes) (h : Header) (delta : ℕ) :
    Outcome String Mapping :=
  if h.numberOfRvaAndSizes < 6 then .ok m
  else
    let ddOff := h.optOff + sizeOfOptionalHeader64 + 5 * 8
    let relocRva := leAt (data ++ behind) ddOff 4
    let relocSize := leAt (data ++ behind) (ddOff + 4) 4
    if relocRva = 0 ∨ relocSize = 0 then .ok m
    else if h.sizeOfImage < relocRva + relocSize then
      .err "pe_loader: relocation table extends beyond image"
    else if relocRva + relocSize ≤ m.contents.length then
      let relocData := (m.contents.drop relocRva).take relocSize
      applyBlocks relocData h.sizeOfImage delta relocData.length 0 m
    else .err "pe_loader: failed to read reloc data"

/-! ### The loader -/

structure LoadedPe where
  entryPoint : ℕ
  imageBase : ℕ
  image : Mapping

/-- `VirtualAddress::new_canonical`. -/
def newCanonical (addr : ℕ) : ℕ :=
  if addr / 2 ^ 47 % 2 = 0 then addr % 2 ^ 48 else 2 ^ 64 - 2 ^ 48 + addr % 2 ^ 48

/-- The image without relocations. -/
def loadSections (data : Bytes) (source : MappingSource) (h : Header)
    (sections : List SectionHeader) : Outcome String Mapping :=
  if h.sizeOfImage = 0 then .err "pe_loader: SizeOfImage is zero"
  else
    match source.create h.sizeOfImage with
    | none => .err "create_mapping(): couldn't create the mapping"
    | some m =>
      .bind (m.write 0 (List.replicate h.sizeOfImage 0)
        "pe_loader: failed to get mutable slice for image") fun m =>
      let hdrCopyLen := min (min h.sizeOfHeaders data.length) h.sizeOfImage
      .bind (m.write 0 (data.take hdrCopyLen) "pe_loader: failed to write headers") fun m =>
        .foldl (copySection data h.sizeOfImage) m sections

def load (data behind : Bytes) (source : MappingSource) : Outcome String LoadedPe :=
  .bind (parseHeader data) fun h =>
  .bind (sectionHeaders data h.sectionOff h.numberOfSections) fun sections =>
  .bind (loadSections data source h sections) fun m =>
    let delta := wrapSub m.start h.imageBase
    .bind (if delta ≠ 0 then applyBaseRelocations m data behind h delta else .ok m) fun image =>
      .ok ⟨newCanonical (wrap (m.start + h.addressOfEntryPoint)), m.start, image⟩

end Maios.Pe
