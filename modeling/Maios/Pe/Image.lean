import Maios.Pe.Loader

/-!
# What a PE image contains

The image of a file is, byte for byte, its headers, the raw data of the loadable sections and zeroes
elsewhere, with the fields of the base relocation directory increased by the difference between the two
base addresses. The loader makes this image if nothing is left out: it passes over a section that does
not fit in the image or whose raw data is not in the file, and over a field outside of the image, and
returns no error.

## Main results

* `image_exact` — the image is as the file describes it if and only if nothing is left out
-/

namespace Maios.Pe

open List Outcome Option

/-! ### The image of a file -/

/-- The byte at a relative address: from the last section that has raw data there. -/
def baseByte (data : Bytes) (h : Header) (sections : List SectionHeader) (k : ℕ) : UInt8 :=
  match (sections.filter (·.isLoadable)).reverse.find? fun s =>
    s.virtualAddress ≤ k && k < s.virtualAddress + s.sizeOfRawData with
  | some s => data.getD (s.pointerToRawData + (k - s.virtualAddress)) 0
  | none => if k < h.sizeOfHeaders then data.getD k 0 else 0

def baseImage (data : Bytes) (h : Header) (sections : List SectionHeader) : Bytes :=
  (List.range h.sizeOfImage).map (baseByte data h sections)

/-- The relocations that are listed from an offset on, block by block. -/
inductive Listed (relocData : Bytes) : ℕ → List Reloc → Prop
  | done {offset : ℕ}
      (h : relocData.length < offset + 8 ∨ leAt relocData (offset + 4) 4 < 8) :
      Listed relocData offset []
  | block {offset : ℕ} {relocs : List Reloc} (h : offset + 8 ≤ relocData.length)
      (h' : 8 ≤ leAt relocData (offset + 4) 4)
      (hrest : Listed relocData (offset + leAt relocData (offset + 4) 4) relocs) :
      Listed relocData offset (blockRelocs relocData offset ++ relocs)

/-- The relocations listed in the directory of the file, of which `image` is the image. -/
def ListedIn (data : Bytes) (h : Header) (image : Bytes) (relocs : List Reloc) : Prop :=
  if h.numberOfRvaAndSizes < 6 then relocs = []
  else
    let ddOff := h.optOff + sizeOfOptionalHeader64 + 5 * 8
    let relocRva := leAt data ddOff 4
    let relocSize := leAt data (ddOff + 4) 4
    ddOff + 8 ≤ data.length ∧
      if relocRva = 0 ∨ relocSize = 0 then relocs = []
      else relocRva + relocSize ≤ image.length ∧
        Listed ((image.drop relocRva).take relocSize) 0 relocs

/-- The bytes of the field, for the types `HIGHLOW` and `DIR64`. -/
def Reloc.width (r : Reloc) : Option ℕ :=
  if r.typ = 3 then some 4 else if r.typ = 10 then some 8 else none

/-- The field of `w` bytes is increased, and nothing else is changed. -/
structure Increased (image image' : Bytes) (rva w delta : ℕ) : Prop where
  length : image'.length = image.length
  field : leAt image' rva w = (leAt image rva w + delta) % 256 ^ w
  others : ∀ k, k < rva ∨ rva + w ≤ k → image'[k]? = image[k]?

/-- Every field of the list is in the image and is increased once per listing. -/
inductive Relocated (delta : ℕ) : List Reloc → Bytes → Bytes → Prop
  | nil (image : Bytes) : Relocated delta [] image image
  | skip {r : Reloc} {rs : List Reloc} {image image' : Bytes} (h : r.width = none)
      (hrest : Relocated delta rs image image') : Relocated delta (r :: rs) image image'
  | field {r : Reloc} {rs : List Reloc} {w : ℕ} {image image₁ image' : Bytes} (h : r.width = some w)
      (hin : r.rva + w ≤ image.length) (hinc : Increased image image₁ r.rva w delta)
      (hrest : Relocated delta rs image₁ image') : Relocated delta (r :: rs) image image'

/-- No loadable section is left out: it lies in the image, and its raw data in the file. -/
def Included (data : Bytes) (h : Header) (sections : List SectionHeader) : Prop :=
  ∀ s ∈ sections, s.isLoadable = true → 0 < s.size →
    s.virtualAddress + s.size ≤ h.sizeOfImage ∧
      (s.sizeOfRawData = 0 ∨ s.pointerToRawData + s.sizeOfRawData ≤ data.length)

/-- The image at the base address is as the file describes it. -/
def Exact (data : Bytes) (base : ℕ) (contents : Bytes) : Prop :=
  ∃ h sections, parseHeader data = .ok h ∧
    sectionHeaders data h.sectionOff h.numberOfSections = .ok sections ∧ Included data h sections ∧
    if base = h.imageBase then contents.take h.sizeOfImage = baseImage data h sections
    else ∃ relocs, ListedIn data h (baseImage data h sections) relocs ∧
      Relocated (wrapSub base h.imageBase) relocs (baseImage data h sections)
        (contents.take h.sizeOfImage)

/-- The condition on the file and the base address: nothing is left out. -/
def Complete (data : Bytes) (base : ℕ) : Prop :=
  ∃ h sections, parseHeader data = .ok h ∧
    sectionHeaders data h.sectionOff h.numberOfSections = .ok sections ∧ Included data h sections ∧
    (base = h.imageBase ∨ ∃ relocs, ListedIn data h (baseImage data h sections) relocs ∧
      ∀ r ∈ relocs, ∀ w, r.width = some w → r.rva + w ≤ h.sizeOfImage)

/-! ### The image before relocations -/

variable {m m' : Mapping} {start : ℕ}

section Base

variable {data : Bytes} {h : Header} {sections : List SectionHeader} {s : SectionHeader} {k : ℕ}

@[simp] theorem length_baseImage : (baseImage data h sections).length = h.sizeOfImage := by
  rw [baseImage, length_map, length_range]

theorem baseByte_concat_of_not_mem
    (hk : s.isLoadable = true → ¬ (s.virtualAddress ≤ k ∧ k < s.virtualAddress + s.sizeOfRawData)) :
    baseByte data h (sections ++ [s]) k = baseByte data h sections k := by
  rw [baseByte, filter_append, reverse_append, find?_append]
  by_cases hload : s.isLoadable = true
  · have hnot : ¬ (decide (s.virtualAddress ≤ k) &&
        decide (k < s.virtualAddress + s.sizeOfRawData)) = true := by
      rw [Bool.and_eq_true, decide_eq_true_eq, decide_eq_true_eq]
      exact hk hload
    simp only [filter_cons, hload, if_true, filter_nil, reverse_singleton,
      find?_singleton, if_neg hnot]
    rfl
  · simp only [filter_cons, hload]
    rfl

theorem baseByte_concat_of_mem (hload : s.isLoadable = true) (hk : s.virtualAddress ≤ k)
    (hk' : k < s.virtualAddress + s.sizeOfRawData) :
    baseByte data h (sections ++ [s]) k =
      data.getD (s.pointerToRawData + (k - s.virtualAddress)) 0 := by
  have hmem : (decide (s.virtualAddress ≤ k) &&
      decide (k < s.virtualAddress + s.sizeOfRawData)) = true := by
    rw [Bool.and_eq_true, decide_eq_true_eq, decide_eq_true_eq]
    exact ⟨hk, hk'⟩
  rw [baseByte, filter_append, reverse_append, find?_append]
  simp only [filter_cons, hload, if_true, filter_nil, reverse_singleton,
    find?_singleton, if_pos hmem, some_or]

/-- The mapping has the bytes of the image without relocations, for the sections so far. -/
structure Filled (data : Bytes) (h : Header) (start : ℕ) (sections : List SectionHeader)
    (m : Mapping) : Prop where
  start_eq : m.start = start
  room : h.sizeOfImage ≤ m.contents.length
  bytes : ∀ k < h.sizeOfImage, m.contents[k]? = some (baseByte data h sections k)

theorem Mapping.write_eq_ok {off : ℕ} {bytes : Bytes} {e : String}
    (hw : m.write off bytes e = .ok m') : off + bytes.length ≤ m.contents.length ∧
      m' = { m with contents := overwrite 0 m.contents bytes off } := by
  rw [Mapping.write] at hw
  split_ifs at hw with hroom
  injection hw with hw
  exact ⟨hroom, hw.symm⟩

theorem filled_step (hm : Filled data h start sections m)
    (hs : s.isLoadable = true → 0 < s.size → s.virtualAddress + s.size ≤ h.sizeOfImage ∧
      (s.sizeOfRawData = 0 ∨ s.pointerToRawData + s.sizeOfRawData ≤ data.length))
    (hcopy : copySection data h.sizeOfImage m s = .ok m') :
    Filled data h start (sections ++ [s]) m' := by
  -- a section without raw data changes nothing
  have hsame : (s.isLoadable = true → s.sizeOfRawData = 0) → m = m' →
      Filled data h start (sections ++ [s]) m' := by
    rintro hraw rfl
    refine ⟨hm.start_eq, hm.room, fun k hk => ?_⟩
    rw [hm.bytes k hk, baseByte_concat_of_not_mem]
    intro hload
    rw [hraw hload]
    omega
  have hsize : s.size = max s.virtualSize s.sizeOfRawData := rfl
  rw [copySection] at hcopy
  split_ifs at hcopy with hzero hempty hload hout hraw
  · injection hcopy with hcopy
    exact hsame (fun _ => hzero.2) hcopy
  · injection hcopy with hcopy
    exact hsame (fun _ => by omega) hcopy
  · have hin := (hs hload (by omega)).1
    omega
  · obtain ⟨hroom, rfl⟩ := Mapping.write_eq_ok hcopy
    have hmin : min s.sizeOfRawData s.size = s.sizeOfRawData := by omega
    rw [hmin] at hroom ⊢
    have hlen : ((data.drop s.pointerToRawData).take s.sizeOfRawData).length = s.sizeOfRawData := by
      rw [length_take, length_drop]
      omega
    refine ⟨hm.start_eq, ?_, fun k hk => ?_⟩
    · have hold := hm.room
      rw [length_overwrite]
      omega
    · by_cases hmem : s.virtualAddress ≤ k ∧ k < s.virtualAddress + s.sizeOfRawData
      · rw [baseByte_concat_of_mem hload hmem.1 hmem.2,
          getElem?_overwrite_of_mem hroom hmem.1 (by omega), getElem?_take_of_lt (by omega),
          getElem?_drop, getD_eq_getElem?_getD, getElem?_eq_getElem (by omega)]
        rfl
      · rw [baseByte_concat_of_not_mem fun _ => hmem, getElem?_overwrite_of_not_mem hroom (by omega)]
        exact hm.bytes k hk
  · injection hcopy with hcopy
    have hin := (hs hload (by omega)).2
    exact hsame (fun _ => by omega) hcopy
  · injection hcopy with hcopy
    exact hsame (fun hyes => absurd hyes hload) hcopy

/-- The image before relocations, if no section is left out. -/
theorem loadSections_contents {source : MappingSource} (hin : Included data h sections)
    (hload : loadSections data source h sections = .ok m) :
    Filled data h m.start sections m ∧ m.start < 2 ^ 64 := by
  rw [loadSections] at hload
  split_ifs at hload with hzero
  rcases hcreate : source.create h.sizeOfImage with _ | m₀ <;> rw [hcreate] at hload
  · cases hload
  obtain ⟨m₁, hzeroes, hload⟩ := bind_eq_ok.mp hload
  obtain ⟨m₂, hheaders, hload⟩ := bind_eq_ok.mp hload
  obtain ⟨hroom, hstart⟩ := source.room _ _ hcreate
  obtain ⟨hroom₁, rfl⟩ := Mapping.write_eq_ok hzeroes
  obtain ⟨hroom₂, rfl⟩ := Mapping.write_eq_ok hheaders
  have hfirst : Filled data h m₀.start [] { m₀ with
      contents := overwrite 0 (overwrite 0 m₀.contents (replicate h.sizeOfImage 0) 0)
        (data.take (min (min h.sizeOfHeaders data.length) h.sizeOfImage)) 0 } := by
    have hlen : (data.take (min (min h.sizeOfHeaders data.length) h.sizeOfImage)).length =
        min (min h.sizeOfHeaders data.length) h.sizeOfImage := by
      rw [length_take]
      omega
    refine ⟨rfl, ?_, fun k hk => ?_⟩
    · rw [length_overwrite, length_overwrite]
      omega
    · show _ = some (if k < h.sizeOfHeaders then data.getD k 0 else 0)
      by_cases hheader : k < min (min h.sizeOfHeaders data.length) h.sizeOfImage
      · rw [getElem?_overwrite_of_mem hroom₂ (Nat.zero_le k) (by omega), if_pos (by omega),
          Nat.sub_zero, getElem?_take_of_lt hheader, getD_eq_getElem?_getD,
          getElem?_eq_getElem (by omega)]
        rfl
      have hbehind : (if k < h.sizeOfHeaders then data.getD k 0 else 0) = 0 := by
        split_ifs
        · rw [getD_eq_getElem?_getD, getElem?_eq_none (by omega)]
          rfl
        · rfl
      rw [getElem?_overwrite_of_not_mem hroom₂ (by omega), getElem?_overwrite_of_mem hroom₁
        (Nat.zero_le k) (by rw [length_replicate]; omega), hbehind]
      exact getElem?_replicate_of_lt hk
  have hfilled := foldl_invariant (I := fun done m => (∀ s ∈ done, s ∈ sections) →
    Filled data h m₀.start done m) (fun done s m m' hm hcopy hall => ?_) (fun _ => hfirst) hload
  · have hm := hfilled fun s hs => hs
    have hstart' := hm.start_eq
    rw [hstart']
    exact ⟨hm, hstart⟩
  · refine filled_step (hm fun s' hs' => hall s' (mem_append_left _ hs')) ?_ hcopy
    exact hin s (hall s (mem_append_right _ (mem_singleton.mpr rfl)))

theorem Filled.take_eq (hm : Filled data h start sections m) :
    m.contents.take h.sizeOfImage = baseImage data h sections := by
  refine ext_getElem? fun k => ?_
  by_cases hk : k < h.sizeOfImage
  · rw [getElem?_take_of_lt hk, hm.bytes k hk, baseImage, getElem?_map, getElem?_range hk]
    rfl
  · rw [getElem?_eq_none, getElem?_eq_none]
    · rw [length_baseImage]
      omega
    · rw [length_take]
      omega

end Base

/-! ### Relocations -/

section Relocations

variable {relocData : Bytes} {offset sizeOfImage delta : ℕ} {relocs : List Reloc}

/-- The loop over the blocks changes the fields that are listed. -/
theorem applyBlocks_listed (h : Listed relocData offset relocs) (fuel : ℕ)
    (hfuel : relocData.length ≤ offset + fuel) (m : Mapping) :
    applyBlocks relocData sizeOfImage delta fuel offset m =
      foldl (fixup sizeOfImage delta) m relocs := by
  induction h generalizing fuel m with
  | @done offset h =>
    rcases fuel with _ | fuel
    · rfl
    rw [applyBlocks]
    split_ifs with hroom
    · exact if_pos (h.resolve_left (by omega))
    · rfl
  | @block offset relocs h h' _ ih =>
    rcases fuel with _ | fuel
    · omega
    · rw [applyBlocks, if_pos h, Outcome.foldl_append]
      simp only [if_neg (not_lt.mpr h')]
      congr 1
      funext m'
      exact ih fuel (by omega) m'

/-- A field in the image is increased. -/
theorem increased_take {contents : Bytes} {rva w : ℕ} (hin : rva + w ≤ sizeOfImage)
    (hroom : sizeOfImage ≤ contents.length) :
    Increased (contents.take sizeOfImage) ((increase contents rva w delta).take sizeOfImage) rva w
      delta := by
  have hlen : (leBytes w (leAt contents rva w + delta)).length = w := length_leBytes _ _
  have hinside : rva + (leBytes w (leAt contents rva w + delta)).length ≤ contents.length := by omega
  refine ⟨?_, ?_, fun k hk => ?_⟩
  · rw [length_take, length_take, increase, length_overwrite]
    omega
  · rw [leAt, slice_take hin, increase]
    nth_rewrite 1 [← hlen]
    rw [slice_overwrite_self hinside, leNat_leBytes, leAt, leAt, slice_take hin]
  · rw [getElem?_take, getElem?_take, increase,
      getElem?_overwrite_of_not_mem hinside (by omega)]

/-- **All listed fields are changed** if they are in the image. -/
theorem foldl_fixup (hroom : sizeOfImage ≤ m.contents.length)
    (hin : ∀ r ∈ relocs, ∀ w, r.width = some w → r.rva + w ≤ sizeOfImage) :
    ∃ m', foldl (fixup sizeOfImage delta) m relocs = .ok m' ∧
      Relocated delta relocs (m.contents.take sizeOfImage) (m'.contents.take sizeOfImage) := by
  induction relocs generalizing m with
  | nil => exact ⟨m, rfl, .nil _⟩
  | cons r relocs ih =>
    have hrest : ∀ r ∈ relocs, ∀ w, r.width = some w → r.rva + w ≤ sizeOfImage :=
      (forall_mem_cons.mp hin).2
    have hfield : ∀ w, r.width = some w → fixup sizeOfImage delta m r =
        .ok { m with contents := increase m.contents r.rva w delta } := by
      intro w hw
      have hle := hin r mem_cons_self w hw
      rw [Reloc.width] at hw
      rw [fixup]
      split_ifs at hw ⊢
      · obtain rfl : 4 = w := some.inj hw
        rfl
      · omega
      · obtain rfl : 4 = w := some.inj hw
        omega
      · obtain rfl : 8 = w := some.inj hw
        rfl
      · omega
      · obtain rfl : 8 = w := some.inj hw
        omega
    rcases hwidth : r.width with _ | w
    · have hskip : fixup sizeOfImage delta m r = .ok m := by
        rw [Reloc.width] at hwidth
        rw [fixup]
        split_ifs at hwidth ⊢
        rfl
      obtain ⟨m', hfold, hrel⟩ := ih hroom hrest
      refine ⟨m', ?_, .skip hwidth hrel⟩
      rw [Outcome.foldl, hskip]
      exact hfold
    · have hle := hin r mem_cons_self w hwidth
      have hroom' : sizeOfImage ≤ (increase m.contents r.rva w delta).length := by
        rw [increase, length_overwrite]
        omega
      obtain ⟨m', hfold, hrel⟩ :=
        ih (m := { m with contents := increase m.contents r.rva w delta }) hroom' hrest
      refine ⟨m', ?_, .field hwidth ?_ (increased_take hle hroom) hrel⟩
      · rw [Outcome.foldl, hfield w hwidth]
        exact hfold
      · rw [length_take]
        omega

/-- Fields that have been changed are in the image. -/
theorem Relocated.fields_in {image image' : Bytes} (h : Relocated delta relocs image image') :
    ∀ r ∈ relocs, ∀ w, r.width = some w → r.rva + w ≤ image.length := by
  induction h with
  | nil image => exact forall_mem_nil _
  | @skip r rs image image' hwidth hrest ih =>
    intro r' hr' w hw
    rcases mem_cons.mp hr' with rfl | hr'
    · rw [hwidth] at hw
      cases hw
    · exact ih r' hr' w hw
  | @field r rs w image image₁ image' hwidth hin hinc hrest ih =>
    intro r' hr' w' hw'
    rcases mem_cons.mp hr' with rfl | hr'
    · obtain rfl : w = w' := some.inj (hwidth.symm.trans hw')
      exact hin
    · rw [← hinc.length]
      exact ih r' hr' w' hw'

end Relocations

/-! ### The loader -/

theorem parseHeader_imageBase {data : Bytes} {h : Header} (hparse : parseHeader data = .ok h) :
    h.imageBase < 2 ^ 64 := by
  simp only [parseHeader] at hparse
  split_ifs at hparse
  cases hparse
  exact leAt_lt _ _ _

/-- The relocations of the directory are applied to the image. -/
theorem applyBaseRelocations_listed {data behind : Bytes} {h : Header}
    {sections : List SectionHeader} {delta : ℕ} {relocs : List Reloc}
    (hm : Filled data h start sections m)
    (hlisted : ListedIn data h (baseImage data h sections) relocs)
    (hin : ∀ r ∈ relocs, ∀ w, r.width = some w → r.rva + w ≤ h.sizeOfImage)
    (happly : applyBaseRelocations m data behind h delta = .ok m') :
    Relocated delta relocs (baseImage data h sections) (m'.contents.take h.sizeOfImage) := by
  have hsame : relocs = [] → m = m' →
      Relocated delta relocs (baseImage data h sections) (m'.contents.take h.sizeOfImage) := by
    rintro rfl rfl
    rw [hm.take_eq]
    exact .nil _
  rw [ListedIn] at hlisted
  rw [applyBaseRelocations] at happly
  split_ifs at hlisted happly with hnum
  · injection happly with happly
    exact hsame hlisted happly
  obtain ⟨hdir, hlisted⟩ := hlisted
  have hrva : leAt (data ++ behind) (h.optOff + sizeOfOptionalHeader64 + 5 * 8) 4 =
      leAt data (h.optOff + sizeOfOptionalHeader64 + 5 * 8) 4 := leAt_append (by omega) _
  have hsize : leAt (data ++ behind) (h.optOff + sizeOfOptionalHeader64 + 5 * 8 + 4) 4 =
      leAt data (h.optOff + sizeOfOptionalHeader64 + 5 * 8 + 4) 4 := leAt_append (by omega) _
  dsimp only at happly
  rw [hrva, hsize] at happly
  split_ifs at hlisted happly with hempty hout hroom
  · injection happly with happly
    exact hsame hlisted happly
  obtain ⟨-, hlisted⟩ := hlisted
  rw [← hm.take_eq, slice_take (Nat.not_lt.mp hout)] at hlisted
  rw [applyBlocks_listed hlisted _ (by omega)] at happly
  obtain ⟨m₁, hfold, hrel⟩ := foldl_fixup hm.room hin
  obtain rfl : m₁ = m' := by
    rw [hfold] at happly
    injection happly
  rwa [hm.take_eq] at hrel

/-- **The image of a PE file.** For a file that is loaded, at whatever address, the image is as the file
describes it if and only if no section and no relocation is left out. -/
theorem image_exact {data behind : Bytes} {source : MappingSource} {pe : LoadedPe}
    (h : load data behind source = .ok pe) :
    Exact data pe.imageBase pe.image.contents ↔ Complete data pe.imageBase := by
  obtain ⟨hdr, hparse, h⟩ := bind_eq_ok.mp h
  obtain ⟨sections, hsections, h⟩ := bind_eq_ok.mp h
  obtain ⟨m, hm, h⟩ := bind_eq_ok.mp h
  obtain ⟨m', hreloc, h⟩ := bind_eq_ok.mp h
  cases h
  constructor
  · rintro ⟨hdr', sections', hparse', hsections', hin, himage⟩
    refine ⟨hdr', sections', hparse', hsections', hin, ?_⟩
    split_ifs at himage with hbase
    · exact .inl hbase
    · obtain ⟨relocs, hlisted, hrel⟩ := himage
      have hfields := hrel.fields_in
      rw [length_baseImage] at hfields
      exact .inr ⟨relocs, hlisted, hfields⟩
  · rintro ⟨hdr', sections', hparse', hsections', hin, hrelocs⟩
    obtain rfl : hdr = hdr' := by
      rw [hparse] at hparse'
      injection hparse'
    obtain rfl : sections = sections' := by
      rw [hsections] at hsections'
      injection hsections'
    refine ⟨hdr, sections, hparse, hsections, hin, ?_⟩
    obtain ⟨hfilled, hstart⟩ := loadSections_contents hin hm
    have hbound := parseHeader_imageBase hparse
    have hdelta : wrapSub m.start hdr.imageBase = 0 ↔ m.start = hdr.imageBase := by
      rw [wrapSub]
      split_ifs
      · omega
      · omega
    by_cases hbase : m.start = hdr.imageBase
    · rw [if_neg (not_not.mpr (hdelta.mpr hbase))] at hreloc
      cases hreloc
      rw [if_pos hbase]
      exact hfilled.take_eq
    · rw [if_pos (fun hzero => hbase (hdelta.mp hzero))] at hreloc
      obtain ⟨relocs, hlisted, hfields⟩ := hrelocs.resolve_left hbase
      rw [if_neg hbase]
      exact ⟨relocs, hlisted, applyBaseRelocations_listed hfilled hlisted hfields hreloc⟩

/-- A file for the base address `0x20000` with one section of 18 bytes at 512: a field of eight bytes
with the address of byte 16, and the base relocation directory, which lists this field. -/
def relocFile : Bytes :=
  -- the DOS header, the signature and the COFF header
  [0x4D, 0x5A] ++ List.replicate 58 0 ++ leBytes 4 64 ++ [0x50, 0x45, 0, 0] ++
  leBytes 2 0x8664 ++ leBytes 2 1 ++ List.replicate 12 0 ++ leBytes 2 160 ++ leBytes 2 0 ++
  -- the optional header: the image has 600 bytes, of which 288 are headers; the directories
  leBytes 2 0x020B ++ List.replicate 22 0 ++ leBytes 8 0x20000 ++ List.replicate 24 0 ++
  leBytes 4 600 ++ leBytes 4 288 ++ List.replicate 44 0 ++ leBytes 4 6 ++
  List.replicate 40 0 ++ leBytes 4 520 ++ leBytes 4 10 ++
  -- the section, and its raw data
  List.replicate 8 0 ++ leBytes 4 18 ++ leBytes 4 512 ++ leBytes 4 18 ++ leBytes 4 288 ++
  List.replicate 12 0 ++ leBytes 4 0x40 ++
  leBytes 8 0x20010 ++ leBytes 4 512 ++ leBytes 4 10 ++ leBytes 2 (10 * 2 ^ 12)

/-- One page. -/
def oneMapping : MappingSource where
  create n := if n ≤ 4096 then some ⟨4096, List.replicate 4096 9⟩ else none
  room := by
    intro n m h
    split_ifs at h with hn
    cases h
    rw [List.length_replicate]
    exact ⟨hn, by decide⟩

/-- The file is mapped at 4096, and its field has the new address of byte 16. -/
theorem image_exact_once : ∃ pe, load relocFile [] oneMapping = .ok pe ∧ pe.imageBase = 4096 ∧
    leAt pe.image.contents 512 8 = 4096 + 16 ∧
    Exact relocFile pe.imageBase pe.image.contents := by
  obtain ⟨pe, hload, hpe⟩ : ∃ pe, load relocFile [] oneMapping = .ok pe ∧
      (pe.imageBase, leAt pe.image.contents 512 8) = (4096, 4096 + 16) :=
    exists_of_toOption_map (by decide +kernel)
  obtain ⟨hbase, hfield⟩ := Prod.mk.inj hpe
  refine ⟨pe, hload, hbase, hfield, (image_exact hload).mpr ?_⟩
  refine ⟨⟨1, 160, 0, 0x20000, 600, 288, 6, 88, 248⟩, [⟨18, 512, 18, 288, 0x40⟩], by decide +kernel,
    by decide +kernel, by unfold Included; decide +kernel, .inr ⟨[⟨10, 512⟩], ?_, ?_⟩⟩
  · rw [ListedIn, if_neg (by decide)]
    refine ⟨by decide +kernel, ?_⟩
    rw [if_neg (by decide +kernel)]
    refine ⟨by decide +kernel, ?_⟩
    have hdata : ((baseImage relocFile ⟨1, 160, 0, 0x20000, 600, 288, 6, 88, 248⟩
        [⟨18, 512, 18, 288, 0x40⟩]).drop 520).take 10 = [0, 2, 0, 0, 10, 0, 0, 0, 0, 160] := by
      decide +kernel
    have hrelocs : blockRelocs [0, 2, 0, 0, 10, 0, 0, 0, 0, 160] 0 ++ [] = [⟨10, 512⟩] := by decide
    have hdir : leAt relocFile (88 + sizeOfOptionalHeader64 + 5 * 8) 4 = 520 ∧
        leAt relocFile (88 + sizeOfOptionalHeader64 + 5 * 8 + 4) 4 = 10 := by decide +kernel
    rw [hdir.1, hdir.2, hdata, ← hrelocs]
    exact .block (by decide) (by decide) (.done (.inl (by decide)))
  · intro r hr w hw
    obtain rfl := mem_singleton.mp hr
    obtain rfl : 8 = w := some.inj hw
    decide

/-- A file of 244 bytes with one section of 4 bytes, whose raw data is said to be at byte 241, so that
the last byte of it is not in the file. -/
def cutFile : Bytes :=
  [0x4D, 0x5A] ++ List.replicate 58 0 ++ leBytes 4 64 ++ [0x50, 0x45, 0, 0] ++
  leBytes 2 0x8664 ++ leBytes 2 1 ++ List.replicate 12 0 ++ leBytes 2 112 ++ leBytes 2 0 ++
  -- the optional header: the image has 300 bytes, of which 240 are headers
  leBytes 2 0x020B ++ List.replicate 22 0 ++ leBytes 8 4096 ++ List.replicate 24 0 ++ leBytes 4 300 ++
  leBytes 4 240 ++ List.replicate 48 0 ++
  -- the section at 256, and its raw data
  List.replicate 8 0 ++ leBytes 4 4 ++ leBytes 4 256 ++ leBytes 4 4 ++ leBytes 4 241 ++
  List.replicate 12 0 ++ leBytes 4 0x40 ++ [1, 2, 3, 4]

/-- The file is loaded without its section: the image has zeroes where the section belongs. -/
theorem section_left_out : ∃ pe, load cutFile [] oneMapping = .ok pe ∧
    (pe.image.contents.drop 256).take 4 = [0, 0, 0, 0] ∧ cutFile.drop 241 = [2, 3, 4] ∧
    ¬ Exact cutFile pe.imageBase pe.image.contents := by
  obtain ⟨pe, hload, hpe⟩ : ∃ pe, load cutFile [] oneMapping = .ok pe ∧
      (pe.image.contents.drop 256).take 4 = [0, 0, 0, 0] :=
    exists_of_toOption_map (by decide +kernel)
  refine ⟨pe, hload, hpe, by decide +kernel, ?_⟩
  rintro ⟨hdr, sections, hparse, hsections, hin, -⟩
  have hhdr : parseHeader cutFile = .ok ⟨1, 112, 0, 4096, 300, 240, 0, 88, 200⟩ := by
    decide +kernel
  obtain rfl : Header.mk 1 112 0 4096 300 240 0 88 200 = hdr := by
    rw [hhdr] at hparse
    injection hparse
  have hsecs : sectionHeaders cutFile 200 1 = .ok [⟨4, 256, 4, 241, 0x40⟩] := by decide +kernel
  obtain rfl : [SectionHeader.mk 4 256 4 241 0x40] = sections := by
    rw [hsecs] at hsections
    injection hsections
  have hraw := (hin _ (mem_singleton.mpr rfl) (by decide) (by decide)).2
  have hlen : cutFile.length = 244 := by decide +kernel
  rw [hlen] at hraw
  exact absurd hraw (by decide)

end Maios.Pe
