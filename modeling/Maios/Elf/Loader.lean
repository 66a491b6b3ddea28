import Maios.Pe.Loader

/-!
# Loading ELF binaries

`elf_loader::load` maps each `PT_LOAD` segment of an ELF64 file into pages of its own, copies the
bytes of the file there and clears the rest. It returns the mappings, and the entry point of the
file as it is.

The pages are wherever `create_mapping` finds them. A segment may begin inside a page; then it
begins at the same place of the first page of its mapping. The flags of a segment are computed and
not used, so they are left out.

## Main results

* `load_right_iff` — the condition under which loading is right
-/

namespace Maios.Elf

open List Outcome

open Pe (Bytes Mapping newCanonical)

/-! ### Headers -/

/-- The fields of the file header that are used after it has been checked. -/
structure Header where
  eEntry : ℕ
  ePhoff : ℕ
  ePhnum : ℕ
deriving DecidableEq, Repr

def sizeOfHeader : ℕ := 64
def sizeOfProgramHeader : ℕ := 56

def parseHeader (data : Bytes) : Outcome String Header :=
  if data.length < sizeOfHeader then .err "elf_loader: data too small for ELF64 header"
  else if data.take 4 ≠ [0x7f, 0x45, 0x4c, 0x46] then
    .err "elf_loader: invalid ELF magic number"
  else if leAt data 4 1 ≠ 2 then
    .err "elf_loader: not a 64-bit ELF (ELFCLASS64 expected)"
  else if leAt data 5 1 ≠ 1 then
    .err "elf_loader: not a little-endian ELF (ELFDATA2LSB expected)"
  else if leAt data 18 2 ≠ 62 then
    .err "elf_loader: not an x86_64 ELF (EM_X86_64 expected)"
  else if leAt data 16 2 ≠ 2 ∧ leAt data 16 2 ≠ 3 then
    .err "elf_loader: ELF type is neither ET_EXEC nor ET_DYN"
  else if leAt data 54 2 ≠ sizeOfProgramHeader then
    .err "elf_loader: unexpected e_phentsize for ELF64"
  else .ok ⟨leAt data 24 8, leAt data 32 8, leAt data 56 2⟩

structure ProgramHeader where
  pType : ℕ
  pOffset : ℕ
  pVaddr : ℕ
  pFilesz : ℕ
  pMemsz : ℕ
deriving DecidableEq, Repr

def programHeaderAt (data : Bytes) (off : ℕ) : ProgramHeader where
  pType := leAt data off 4
  pOffset := leAt data (off + 8) 8
  pVaddr := leAt data (off + 16) 8
  pFilesz := leAt data (off + 32) 8
  pMemsz := leAt data (off + 40) 8

def programHeaders (data : Bytes) (h : Header) : Outcome String (List ProgramHeader) :=
  let total := h.ePhnum * sizeOfProgramHeader
  if 2 ^ 64 ≤ total then .err "elf_loader: program header table size overflow"
  else if 2 ^ 64 ≤ h.ePhoff + total then .err "elf_loader: program header table offset overflow"
  else if data.length < h.ePhoff + total then
    .err "elf_loader: program headers extend beyond ELF data"
  else .ok ((List.range h.ePhnum).map fun i =>
    programHeaderAt data (h.ePhoff + i * sizeOfProgramHeader))

/-! ### The loader -/

/-- `create_mapping`: what the call number `k` for a number of bytes returns. A mapping begins with
a page, has at least the bytes asked for and ends in the address space. -/
structure MappingSource where
  create : ℕ → ℕ → Except String Mapping
  room : ∀ k n m, create k n = .ok m → n ≤ m.contents.length
  aligned : ∀ k n m, create k n = .ok m → m.start % 4096 = 0
  bounded : ∀ k n m, create k n = .ok m → m.start + m.contents.length ≤ 2 ^ 64

namespace ProgramHeader

variable (ph : ProgramHeader)

/-- A segment that is loaded: the loop goes on at once with all others. -/
def isLoad : Bool := ph.pType == 1 && ph.pMemsz != 0

/-- Where the segment begins in its first page. -/
def pageOffset : ℕ := ph.pVaddr &&& (4096 - 1)

def allocSize : ℕ := ph.pMemsz + ph.pageOffset

/-- What belongs into the memory of the segment. -/
def image (data : Bytes) : Bytes :=
  (data.drop ph.pOffset).take ph.pFilesz ++ List.replicate (ph.pMemsz - ph.pFilesz) 0

/-- The mapping with the image of the segment in its place. -/
def place (data : Bytes) (m : Mapping) : Mapping :=
  { m with contents := overwrite 0 m.contents (ph.image data) ph.pageOffset }

end ProgramHeader

/-- The body of the loop over the segments. `copy_from_slice` goes into a part of the memory of the
segment, which has to be as long as the bytes of the file. -/
def loadSegment (data : Bytes) (source : MappingSource) (segments : List Mapping)
    (ph : ProgramHeader) : Outcome String (List Mapping) :=
  if ph.pType ≠ 1 then .ok segments
  else if ph.pMemsz = 0 then .ok segments
  else if 0 < ph.pFilesz ∧ 2 ^ 64 ≤ ph.pOffset + ph.pFilesz then
    .err "elf_loader: segment file offset + filesz overflow"
  else if 0 < ph.pFilesz ∧ data.length < ph.pOffset + ph.pFilesz then
    .err "elf_loader: segment file data exceeds ELF input bounds"
  else if 2 ^ 64 ≤ ph.allocSize then .err "elf_loader: allocation size overflow"
  else
    match source.create segments.length ph.allocSize with
    | .error e => .err e
    | .ok m =>
      if 2 ^ 63 ≤ ph.pMemsz ∨ 2 ^ 64 ≤ m.start + ph.pageOffset ∨
          m.contents.length < ph.pageOffset + ph.pMemsz then
        .err "elf_loader: failed to obtain mutable slice for mapped segment"
      else if ph.pMemsz < ph.pFilesz then .panic
      else .ok (segments ++ [ph.place data m])

structure LoadedElf where
  entryPoint : ℕ
  segments : List Mapping

def load (data : Bytes) (source : MappingSource) : Outcome String LoadedElf :=
  .bind (parseHeader data) fun h =>
  .bind (programHeaders data h) fun phdrs =>
  .bind (.foldl (loadSegment data source) [] phdrs) fun segments =>
    if segments.isEmpty then .err "elf_loader: no PT_LOAD segments found in ELF binary"
    else .ok ⟨newCanonical h.eEntry, segments⟩

/-! ### What loading should do -/

/-- The memory of the segment holds the bytes of the file and then zeroes. -/
structure SegmentRight (data : Bytes) (ph : ProgramHeader) (m : Mapping) : Prop where
  filesz_le : ph.pFilesz ≤ ph.pMemsz
  in_file : 0 < ph.pFilesz → ph.pOffset + ph.pFilesz ≤ data.length
  contents : (m.contents.drop ph.pageOffset).take ph.pMemsz = ph.image data

/-- The address is the one at which the byte of the segment is that the file places at `addr`. -/
def PlacedAt (ph : ProgramHeader) (start addr target : ℕ) : Prop :=
  ph.pVaddr ≤ addr ∧ addr < ph.pVaddr + ph.pMemsz ∧
    target = start + ph.pageOffset + (addr - ph.pVaddr)

/-- One mapping for each segment to be loaded, each of them right, and the entry point in one. -/
structure LoadedRight (data : Bytes) (eEntry : ℕ) (loads : List ProgramHeader) (elf : LoadedElf) :
    Prop where
  segments : List.Forall₂ (SegmentRight data) loads elf.segments
  entry : ∃ (k : ℕ) (ph : ProgramHeader) (m : Mapping), loads[k]? = some ph ∧
    elf.segments[k]? = some m ∧ PlacedAt ph m.start eEntry elf.entryPoint ∧
    elf.entryPoint < m.start + m.contents.length

/-- The file is loaded right: `load` returns, and what it returns is right. -/
def Right (data : Bytes) (source : MappingSource) : Prop :=
  load data source ≠ .panic ∧ ∀ elf, load data source = .ok elf →
    ∀ h phdrs, parseHeader data = .ok h → programHeaders data h = .ok phdrs →
      LoadedRight data h.eEntry (phdrs.filter ProgramHeader.isLoad) elf

/-- The checks of the loader admit the segment, and it gets a mapping, as the one number `k`. -/
def Admitted (data : Bytes) (source : MappingSource) (k : ℕ) (ph : ProgramHeader) : Prop :=
  (0 < ph.pFilesz → ph.pOffset + ph.pFilesz < 2 ^ 64 ∧ ph.pOffset + ph.pFilesz ≤ data.length) ∧
    ph.allocSize < 2 ^ 64 ∧ ph.pMemsz < 2 ^ 63 ∧ ∃ m, source.create k ph.allocSize = .ok m

/-- Up to the first segment that is not admitted, none has more bytes in the file than in memory. -/
def NoOverlong (data : Bytes) (source : MappingSource) : ℕ → List ProgramHeader → Prop
  | _, [] => True
  | k, ph :: rest =>
    Admitted data source k ph → ph.pFilesz ≤ ph.pMemsz ∧ NoOverlong data source (k + 1) rest

/-- All segments are admitted. -/
def AllAdmitted (data : Bytes) (source : MappingSource) : ℕ → List ProgramHeader → Prop
  | _, [] => True
  | k, ph :: rest => Admitted data source k ph ∧ AllAdmitted data source (k + 1) rest

/-- A segment with the entry point has been given the pages for which the file was linked. -/
def EntryPlaced (source : MappingSource) (eEntry : ℕ) (loads : List ProgramHeader) : Prop :=
  ∃ (k : ℕ) (ph : ProgramHeader) (m : Mapping), loads[k]? = some ph ∧
    source.create k ph.allocSize = .ok m ∧ PlacedAt ph m.start eEntry (newCanonical eEntry)

/-! ### One segment -/

variable {data : Bytes} {source : MappingSource} {segments : List Mapping} {ph : ProgramHeader}

theorem ProgramHeader.isLoad_iff : ph.isLoad = true ↔ ph.pType = 1 ∧ ph.pMemsz ≠ 0 := by
  simp [isLoad]

theorem loadSegment_of_not_isLoad (h : ¬ ph.isLoad = true) :
    loadSegment data source segments ph = .ok segments := by
  rw [ProgramHeader.isLoad_iff, not_and_or, not_not] at h
  rw [loadSegment]
  by_cases htype : ph.pType = 1
  · rw [if_neg (not_not.mpr htype), if_pos (h.resolve_left (not_not.mpr htype))]
  · rw [if_pos htype]

/-- A segment that is not admitted ends the loop with an error. -/
theorem loadSegment_of_not_admitted (h : ph.isLoad = true)
    (hnot : ¬ Admitted data source segments.length ph) :
    ∃ e, loadSegment data source segments ph = .err e := by
  obtain ⟨htype, hmem⟩ := ProgramHeader.isLoad_iff.mp h
  rw [loadSegment, if_neg (not_not.mpr htype), if_neg hmem]
  by_cases hover : 0 < ph.pFilesz ∧ 2 ^ 64 ≤ ph.pOffset + ph.pFilesz
  · exact ⟨_, if_pos hover⟩
  by_cases hlong : 0 < ph.pFilesz ∧ data.length < ph.pOffset + ph.pFilesz
  · exact ⟨_, (if_neg hover).trans (if_pos hlong)⟩
  by_cases halloc : 2 ^ 64 ≤ ph.allocSize
  · exact ⟨_, (if_neg hover).trans ((if_neg hlong).trans (if_pos halloc))⟩
  rw [if_neg hover, if_neg hlong, if_neg halloc]
  cases hcreate : source.create segments.length ph.allocSize with
  | error e => exact ⟨e, rfl⟩
  | ok m => ?_
  -- Everything else has been checked, so it is the size of the slice.
  have hbig : 2 ^ 63 ≤ ph.pMemsz := by
    by_contra hsmall
    refine hnot ⟨fun hpos => ⟨?_, ?_⟩, not_le.mp halloc, not_le.mp hsmall, m, hcreate⟩
    · exact not_le.mp fun hle => hover ⟨hpos, hle⟩
    · exact not_lt.mp fun hlt => hlong ⟨hpos, hlt⟩
  dsimp only
  rw [if_pos (.inl hbig)]
  exact ⟨_, rfl⟩

variable {m : Mapping}

/-- A segment that is admitted is placed, or the copying panics. -/
theorem loadSegment_of_admitted (h : ph.isLoad = true)
    (hadm : Admitted data source segments.length ph)
    (hcreate : source.create segments.length ph.allocSize = .ok m) :
    loadSegment data source segments ph =
      if ph.pMemsz < ph.pFilesz then .panic else .ok (segments ++ [ph.place data m]) := by
  obtain ⟨htype, hmem⟩ := ProgramHeader.isLoad_iff.mp h
  obtain ⟨hfile, halloc, hsmall, _⟩ := hadm
  have hroom : ph.pMemsz + ph.pageOffset ≤ m.contents.length := source.room _ _ _ hcreate
  have hbound := source.bounded _ _ _ hcreate
  have hover : ¬ (0 < ph.pFilesz ∧ 2 ^ 64 ≤ ph.pOffset + ph.pFilesz) := fun hbad =>
    not_le.mpr (hfile hbad.1).1 hbad.2
  have hlong : ¬ (0 < ph.pFilesz ∧ data.length < ph.pOffset + ph.pFilesz) := fun hbad =>
    not_lt.mpr (hfile hbad.1).2 hbad.2
  have hslice : ¬ (2 ^ 63 ≤ ph.pMemsz ∨ 2 ^ 64 ≤ m.start + ph.pageOffset ∨
      m.contents.length < ph.pageOffset + ph.pMemsz) := by omega
  rw [loadSegment, if_neg (not_not.mpr htype), if_neg hmem, if_neg hover, if_neg hlong,
    if_neg (not_le.mpr halloc), hcreate]
  dsimp only
  rw [if_neg hslice]

theorem ProgramHeader.length_image (hle : ph.pFilesz ≤ ph.pMemsz)
    (hin : 0 < ph.pFilesz → ph.pOffset + ph.pFilesz ≤ data.length) :
    (ph.image data).length = ph.pMemsz := by
  rw [image, length_append, length_take, length_drop, length_replicate]
  omega

/-- What has been placed is right. -/
theorem segmentRight_place {k : ℕ} (hadm : Admitted data source k ph)
    (hcreate : source.create k ph.allocSize = .ok m) (hle : ph.pFilesz ≤ ph.pMemsz) :
    SegmentRight data ph (ph.place data m) := by
  have hin : 0 < ph.pFilesz → ph.pOffset + ph.pFilesz ≤ data.length := fun hpos => (hadm.1 hpos).2
  have hlen := ProgramHeader.length_image hle hin
  have hroom : ph.pMemsz + ph.pageOffset ≤ m.contents.length := source.room _ _ _ hcreate
  refine ⟨hle, hin, ?_⟩
  have hfits : ph.pageOffset + (ph.image data).length ≤ m.contents.length := by omega
  have hslice : (drop ph.pageOffset (overwrite 0 m.contents (ph.image data) _)).take _ = _ :=
    slice_overwrite_self hfits
  rwa [hlen] at hslice

/-! ### The loop -/

/-- The mappings are those of the segments, from the number `k` on, with their images. -/
def Placed (data : Bytes) (source : MappingSource) : ℕ → List ProgramHeader → List Mapping → Prop
  | _, [], [] => True
  | k, ph :: rest, m :: ms =>
    (ph.pFilesz ≤ ph.pMemsz ∧ ∃ m', source.create k ph.allocSize = .ok m' ∧ m = ph.place data m') ∧
      Placed data source (k + 1) rest ms
  | _, _, _ => False

/-- **How the loop over the segments ends.** With all segments placed; with an error at one that is
not admitted; or by a panic at one that is too long. -/
theorem foldl_loadSegment (phdrs : List ProgramHeader) (segments : List Mapping) :
    let loads := phdrs.filter ProgramHeader.isLoad
    (∃ ms, foldl (loadSegment data source) segments phdrs = .ok (segments ++ ms) ∧
        AllAdmitted data source segments.length loads ∧
        NoOverlong data source segments.length loads ∧
        Placed data source segments.length loads ms) ∨
      (∃ e, foldl (loadSegment data source) segments phdrs = .err e ∧
        ¬ AllAdmitted data source segments.length loads ∧
        NoOverlong data source segments.length loads) ∨
      (foldl (loadSegment data source) segments phdrs = .panic ∧
        ¬ NoOverlong data source segments.length loads) := by
  induction phdrs generalizing segments with
  | nil =>
    refine .inl ⟨[], ?_, trivial, trivial, trivial⟩
    rw [append_nil, Outcome.foldl]
  | cons ph phdrs ih =>
    rw [Outcome.foldl]
    by_cases hload : ph.isLoad = true
    · rw [filter_cons_of_pos hload]
      by_cases hadm : Admitted data source segments.length ph
      · obtain ⟨m, hcreate⟩ := hadm.2.2.2
        rw [loadSegment_of_admitted hload hadm hcreate]
        by_cases hlong : ph.pMemsz < ph.pFilesz
        · rw [if_pos hlong]
          exact .inr (.inr ⟨rfl, fun hno => not_le.mpr hlong (hno hadm).1⟩)
        have hle : ph.pFilesz ≤ ph.pMemsz := not_lt.mp hlong
        have hrest := ih (segments ++ [ph.place data m])
        rw [length_append] at hrest
        rw [if_neg hlong, bind_ok]
        rcases hrest with ⟨ms, heq, hall, hno, hplaced⟩ | ⟨e, heq, hall, hno⟩ | ⟨heq, hno⟩
        · refine .inl ⟨ph.place data m :: ms, ?_, ⟨hadm, hall⟩, fun _ => ⟨hle, hno⟩,
            ⟨hle, m, hcreate, rfl⟩, hplaced⟩
          rw [heq, append_assoc, singleton_append]
        · exact .inr (.inl ⟨e, heq, fun h => hall h.2, fun _ => ⟨hle, hno⟩⟩)
        · exact .inr (.inr ⟨heq, fun h => hno (h hadm).2⟩)
      · obtain ⟨e, heq⟩ := loadSegment_of_not_admitted hload hadm
        rw [heq]
        exact .inr (.inl ⟨e, rfl, fun h => hadm h.1, fun h => absurd h hadm⟩)
    · rw [filter_cons_of_neg hload, loadSegment_of_not_isLoad hload]
      exact ih segments

/-! ### The entry point -/

variable {loads : List ProgramHeader} {ms : List Mapping} {k : ℕ}

theorem forall₂_of_placed (h : Placed data source k loads ms)
    (hall : AllAdmitted data source k loads) : List.Forall₂ (SegmentRight data) loads ms := by
  induction loads generalizing k ms with
  | nil =>
    cases ms with
    | nil => exact .nil
    | cons => exact h.elim
  | cons ph rest ih =>
    cases ms with
    | nil => exact h.elim
    | cons m ms =>
      obtain ⟨⟨hle, m', hcreate, rfl⟩, hrest⟩ := h
      exact .cons (segmentRight_place hall.1 hcreate hle) (ih hrest hall.2)

/-- The mapping at a position is the one of the segment at that position. -/
theorem Placed.getElem? (h : Placed data source k loads ms) {i : ℕ} (hph : loads[i]? = some ph) :
    ∃ m, source.create (k + i) ph.allocSize = .ok m ∧ ms[i]? = some (ph.place data m) := by
  induction loads generalizing k ms i with
  | nil => simp at hph
  | cons ph' rest ih =>
    cases ms with
    | nil => exact h.elim
    | cons m ms => ?_
    obtain ⟨⟨_, m', hcreate, rfl⟩, hrest⟩ := h
    cases i with
    | zero =>
      obtain rfl : ph' = ph := by simpa using hph
      exact ⟨m', hcreate, rfl⟩
    | succ i =>
      obtain ⟨m, hm, hms⟩ := ih hrest hph
      refine ⟨m, ?_, hms⟩
      rwa [add_comm i 1, ← add_assoc]

theorem loadedRight_iff {eEntry : ℕ} (h : Placed data source 0 loads ms)
    (hall : AllAdmitted data source 0 loads) :
    LoadedRight data eEntry loads ⟨newCanonical eEntry, ms⟩ ↔ EntryPlaced source eEntry loads := by
  constructor
  · rintro ⟨_, i, ph, m, hph, hm, hplaced, _⟩
    obtain ⟨m', hcreate, hm'⟩ := h.getElem? hph
    rw [zero_add] at hcreate
    obtain rfl : ph.place data m' = m := Option.some.inj (hm'.symm.trans hm)
    exact ⟨i, ph, m', hph, hcreate, hplaced⟩
  · rintro ⟨i, ph, m, hph, hcreate, hplaced⟩
    refine ⟨forall₂_of_placed h hall, i, ph, ph.place data m, hph, ?_, hplaced, ?_⟩
    · obtain ⟨m', hcreate', hm'⟩ := h.getElem? hph
      rw [zero_add, hcreate] at hcreate'
      cases hcreate'
      exact hm'
    · have hroom : ph.pMemsz + ph.pageOffset ≤ m.contents.length := source.room _ _ _ hcreate
      have hgrow : m.contents.length ≤ (ph.place data m).contents.length := by
        rw [ProgramHeader.place, length_overwrite]
        exact le_max_left _ _
      obtain ⟨hge, hlt, heq⟩ := hplaced
      dsimp only [ProgramHeader.place] at hgrow ⊢
      omega

theorem placed_nil_iff (h : Placed data source k loads ms) : ms = [] ↔ loads = [] := by
  cases loads <;> cases ms <;> simp_all [Placed]

theorem parseHeader_ne_panic (data : Bytes) : parseHeader data ≠ .panic := by
  rw [parseHeader]
  split_ifs <;> exact fun h => by cases h

theorem programHeaders_ne_panic (data : Bytes) (h : Header) : programHeaders data h ≠ .panic := by
  simp only [programHeaders]
  split_ifs <;> exact fun h => by cases h

/-- A file that is refused is not loaded wrongly. -/
theorem right_of_err {e : String} (h : load data source = .err e) : Right data source := by
  rw [Right, h]
  constructor
  · intro hp
    cases hp
  · intro elf hok
    cases hok

/-- A file whose headers are accepted. -/
theorem right_iff_of_headers {h : Header} {phdrs : List ProgramHeader}
    (hparse : parseHeader data = .ok h) (hheaders : programHeaders data h = .ok phdrs)
    (hloads : loads = phdrs.filter ProgramHeader.isLoad) :
    Right data source ↔ NoOverlong data source 0 loads ∧
      (AllAdmitted data source 0 loads → loads ≠ [] → EntryPlaced source h.eEntry loads) := by
  have hload : load data source =
      .bind (.foldl (loadSegment data source) [] phdrs) fun segments =>
        if segments.isEmpty then .err "elf_loader: no PT_LOAD segments found in ELF binary"
        else .ok ⟨newCanonical h.eEntry, segments⟩ := by
    rw [load, hparse, bind_ok, hheaders, bind_ok]
  have hloop := @foldl_loadSegment data source phdrs []
  rw [← hloads] at hloop
  rcases hloop with ⟨ms, heq, hall, hno, hplaced⟩ | ⟨e, heq, hall, hno⟩ | ⟨heq, hno⟩
  · rw [heq, bind_ok] at hload
    by_cases hempty : ms = []
    · rw [hempty] at hload
      refine iff_of_true (right_of_err hload) ⟨hno, fun _ hne => ?_⟩
      exact absurd ((placed_nil_iff hplaced).mp hempty) hne
    rw [if_neg (by simpa using hempty)] at hload
    have hne : loads ≠ [] := fun hnil => hempty ((placed_nil_iff hplaced).mpr hnil)
    rw [← loadedRight_iff hplaced hall]
    constructor
    · intro hright
      exact ⟨hno, fun _ _ => hloads ▸ hright.2 _ hload h phdrs hparse hheaders⟩
    · rintro ⟨_, hentry⟩
      refine ⟨fun hp => ?_, fun elf hok h' phdrs' hparse' hheaders' => ?_⟩
      · rw [hload] at hp
        cases hp
      · rw [hload] at hok
        obtain rfl : _ = elf := by injection hok
        obtain rfl : h = h' := by
          rw [hparse] at hparse'
          injection hparse'
        obtain rfl : phdrs = phdrs' := by
          rw [hheaders] at hheaders'
          injection hheaders'
        exact hloads ▸ hentry hall hne
  · rw [heq] at hload
    exact iff_of_true (right_of_err hload) ⟨hno, fun h => absurd h hall⟩
  · rw [heq] at hload
    exact iff_of_false (fun hright => hright.1 hload) fun hcond => hno hcond.1

/-- **Loading is right** exactly when no segment that the loader comes to has more bytes in the file
than in memory and, if all segments are admitted, the pages of a segment with the entry point are
those for which the file was linked. -/
theorem load_right_iff (data : Bytes) (source : MappingSource) :
    Right data source ↔
      ∀ h phdrs, parseHeader data = .ok h → programHeaders data h = .ok phdrs →
        NoOverlong data source 0 (phdrs.filter ProgramHeader.isLoad) ∧
          (AllAdmitted data source 0 (phdrs.filter ProgramHeader.isLoad) →
            phdrs.filter ProgramHeader.isLoad ≠ [] →
            EntryPlaced source h.eEntry (phdrs.filter ProgramHeader.isLoad)) := by
  rcases hparse : parseHeader data with h | e | _
  · rcases hheaders : programHeaders data h with phdrs | e | _
    · rw [right_iff_of_headers hparse hheaders rfl]
      constructor
      · intro hcond h' phdrs' hh hp
        obtain rfl : h = h' := by injection hh
        obtain rfl : phdrs = phdrs' := by
          rw [hheaders] at hp
          injection hp
        exact hcond
      · exact fun hcond => hcond h phdrs rfl hheaders
    · have herr : load data source = .err e := by
        rw [load, hparse, bind_ok, hheaders, bind_err]
      refine iff_of_true (right_of_err herr) fun h' phdrs hh hp => ?_
      obtain rfl : h = h' := by injection hh
      rw [hheaders] at hp
      cases hp
    · exact absurd hheaders (programHeaders_ne_panic data h)
  · have herr : load data source = .err e := by rw [load, hparse, bind_err]
    refine iff_of_true (right_of_err herr) fun h phdrs hh => ?_
    cases hh
  · exact absurd hparse (parseHeader_ne_panic data)

/-! ### A file with one segment -/

/-- An executable with one segment for the address `0x400000`, which has 4 bytes in the file and
`memsz` in memory. -/
def oneSegmentFile (memsz : ℕ) : Bytes :=
  [0x7f, 0x45, 0x4c, 0x46, 2, 1] ++ List.replicate 10 0 ++ leBytes 2 2 ++ leBytes 2 62 ++
  List.replicate 4 0 ++ leBytes 8 0x400000 ++ leBytes 8 64 ++ List.replicate 14 0 ++ leBytes 2 56 ++
  leBytes 2 1 ++ List.replicate 6 0 ++
  -- the program header
  leBytes 4 1 ++ List.replicate 4 0 ++ leBytes 8 120 ++ leBytes 8 0x400000 ++ List.replicate 8 0 ++
  leBytes 8 4 ++ leBytes 8 memsz ++ List.replicate 8 0 ++
  [1, 2, 3, 4]

/-- `create_mapping` with one page left, at `0x7000`. -/
def createOnePage (_ n : ℕ) : Except String Mapping :=
  if n ≤ 4096 then .ok ⟨0x7000, List.replicate 4096 9⟩
  else .error "memory::create_mapping(): couldn't allocate pages!"

theorem createOnePage_eq_ok {k n : ℕ} {m : Mapping} (h : createOnePage k n = .ok m) :
    n ≤ m.contents.length ∧ m.contents.length = 4096 ∧ m.start = 0x7000 := by
  rw [createOnePage] at h
  split_ifs at h with hn
  · cases h
    rw [length_replicate]
    exact ⟨hn, rfl, rfl⟩

theorem createOnePage_aligned {k n : ℕ} (h : createOnePage k n = .ok m) : m.start % 4096 = 0 := by
  rw [(createOnePage_eq_ok h).2.2]

theorem createOnePage_bounded {k n : ℕ} (h : createOnePage k n = .ok m) :
    m.start + m.contents.length ≤ 2 ^ 64 := by
  rw [(createOnePage_eq_ok h).2.1, (createOnePage_eq_ok h).2.2]
  decide

def onePage : MappingSource where
  create := createOnePage
  room := fun _ _ _ h => (createOnePage_eq_ok h).1
  aligned := fun _ _ _ h => createOnePage_aligned h
  bounded := fun _ _ _ h => createOnePage_bounded h

/-- The segment is loaded at `0x7000`, and the entry point is still the one at `0x400000`, where
nothing is mapped. If the segment has fewer bytes in memory than in the file, the loader panics. -/
theorem entry_not_mapped :
    ¬ Right (oneSegmentFile 4) onePage ∧ load (oneSegmentFile 2) onePage = .panic := by
  have hcreate : ∀ k n m, onePage.create k n = .ok m → m.start = 0x7000 := fun k n m h =>
    (@createOnePage_eq_ok k n m h).2.2
  constructor
  · have hparse : parseHeader (oneSegmentFile 4) = .ok ⟨0x400000, 64, 1⟩ := by decide +kernel
    have hheaders : programHeaders (oneSegmentFile 4) ⟨0x400000, 64, 1⟩ =
        .ok [⟨1, 120, 0x400000, 4, 4⟩] := by decide +kernel
    rw [right_iff_of_headers hparse hheaders rfl]
    rintro ⟨_, hentry⟩
    have hadm : Admitted (oneSegmentFile 4) onePage 0 ⟨1, 120, 0x400000, 4, 4⟩ :=
      ⟨fun _ => by decide +kernel, by decide, by decide, _, rfl⟩
    obtain ⟨k, ph, m, hph, hm, hplaced⟩ := hentry ⟨hadm, trivial⟩ (by decide)
    obtain rfl : ph = ⟨1, 120, 0x400000, 4, 4⟩ := mem_singleton.mp (mem_of_getElem? hph)
    have htarget := hplaced.2.2
    rw [hcreate k _ m hm] at htarget
    exact absurd htarget (by decide)
  · have hparse : parseHeader (oneSegmentFile 2) = .ok ⟨0x400000, 64, 1⟩ := by decide +kernel
    have hheaders : programHeaders (oneSegmentFile 2) ⟨0x400000, 64, 1⟩ =
        .ok [⟨1, 120, 0x400000, 4, 2⟩] := by decide +kernel
    have hadm : Admitted (oneSegmentFile 2) onePage 0 ⟨1, 120, 0x400000, 4, 2⟩ :=
      ⟨fun _ => by decide +kernel, by decide, by decide, _, rfl⟩
    rw [load, hparse, Outcome.bind_ok, hheaders, Outcome.bind_ok, Outcome.foldl,
      loadSegment_of_admitted (by decide) hadm rfl, if_pos (by decide), bind_panic,
      bind_panic]

end Maios.Elf
