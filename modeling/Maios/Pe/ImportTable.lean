import Mathlib.Data.List.Pairwise
import Maios.Pe.Image
import Maios.Pe.Imports

/-!
# What resolving PE imports should do

The imports of a program are those of its loaded image. `resolve_imports` reads the file instead, at
the same offsets. It makes stubs for the imports it finds there, as many as one page has room for,
and writes their addresses wherever the descriptors say.

## Main results

* `resolved_iff_importsFit` — all imports are resolved if and only if those of the file fit
-/

namespace Maios.Pe

open List StubKind Option

/-- The bytes are at the address after all writes, and a write has put them there. -/
def HoldsFinally (mem : ℕ → UInt8) (log : List ByteWrite) (a : ℕ) (bytes : List UInt8) : Prop :=
  readBytes (applyWrites mem log) a bytes.length = bytes ∧ Final log a bytes

/-- The imports of the image: `none` is a file without import directory. -/
def importsIn (image : Bytes) (directory : Option ℕ) : List Import :=
  directory.elim [] (importsAt image)

/-- Every import has its slot in the image, with the address of a stub for it in the page; different
imports have stubs apart from each other; and each write is a slot of an import or a stub. -/
structure Resolved (imports : List Import) (imageBase sizeOfImage : ℕ) (mem : ℕ → UInt8)
    (r : ResolvedImports) : Prop where
  stubs : ∃ off : ℕ → ℕ,
    (∀ (i : ℕ) (imp : Import), imports[i]? = some imp →
      imp.slot + 8 ≤ sizeOfImage ∧ off i + 12 ≤ 4096 ∧
        HoldsFinally mem r.log (imageBase + imp.slot) (leBytes 8 (r.page.start + off i)) ∧
        HoldsFinally mem r.log (r.page.start + off i) imp.kind.stub) ∧
    ∀ i j, i < imports.length → j < imports.length → i ≠ j → Apart (off i) 12 (off j) 12
  confined : ∀ w ∈ r.log,
    (∃ imp ∈ imports, w.1 = imageBase + imp.slot ∧ imp.slot + 8 ≤ sizeOfImage ∧ w.2.length = 8) ∨
      (r.page.start ≤ w.1 ∧ w.1 + w.2.length ≤ r.page.start + 4096 ∧ w.2.length = 12)

/-- The slots of two imports do not overlap. -/
def Import.SlotsApart (imp imp' : Import) : Prop := Apart imp.slot 8 imp'.slot 8

instance : Std.Symm Import.SlotsApart := ⟨fun _ _ h => Apart.symm h⟩

/-- The import number `n` of the file is the last one that patches the slot, and has the same
stub. -/
def LastPatch (file : List Import) (imageBase : ℕ) (imp : Import) (n : ℕ) : Prop :=
  ∃ f : Import, file[n]? = some f ∧ f.patchAddr imageBase = imageBase + imp.slot ∧
    f.kind.stub = imp.kind.stub ∧ ∀ (m : ℕ) (g : Import), n < m → file[m]? = some g →
      g.patchAddr imageBase ≠ imageBase + imp.slot

/-- What the first imports found in the file have to meet for the imports of the image: the slots of
the image are in it and apart from each other, no other address is patched, and the last patch of
each slot is for an import with the same stub. -/
structure ImportsFit (file imports : List Import) (imageBase sizeOfImage : ℕ) : Prop where
  inImage : ∀ imp ∈ imports, imp.slot + 8 ≤ sizeOfImage
  apart : imports.Pairwise Import.SlotsApart
  onlySlots : ∀ f ∈ file, ∃ imp ∈ imports, f.patchAddr imageBase = imageBase + imp.slot
  last : ∀ imp ∈ imports, ∃ n, LastPatch file imageBase imp n

/-! ### The log by number -/

section Log

variable {start imageBase : ℕ} {file : List Import}

/-- The stub number `k + n` is the write number `2 * n`, and its patch is the next one. -/
theorem getElem?_stubWrites (file : List Import) (k n : ℕ) :
    (stubWrites start imageBase k file)[2 * n]? =
        file[n]?.map (fun f => (start + 12 * (k + n), f.kind.stub)) ∧
      (stubWrites start imageBase k file)[2 * n + 1]? =
        file[n]?.map (fun f => (f.patchAddr imageBase, leBytes 8 (start + 12 * (k + n)))) := by
  induction file generalizing k n with
  | nil => simp [stubWrites]
  | cons f file ih =>
    cases n with
    | zero => simp [stubWrites]
    | succ n =>
      obtain ⟨hstub, hpatch⟩ := ih (k + 1) n
      have hk : k + 1 + n = k + (n + 1) := by omega
      rw [hk] at hstub hpatch
      exact ⟨hstub, hpatch⟩

/-- A write of the log is a stub or a patch. -/
theorem stubWrites_cases {q : ℕ} {w : ByteWrite}
    (h : (stubWrites start imageBase 0 file)[q]? = some w) :
    ∃ (n : ℕ) (f : Import), file[n]? = some f ∧
      ((q = 2 * n ∧ w = (start + 12 * n, f.kind.stub)) ∨
        (q = 2 * n + 1 ∧ w = (f.patchAddr imageBase, leBytes 8 (start + 12 * n)))) := by
  obtain ⟨n, rfl | rfl⟩ : ∃ n, q = 2 * n ∨ q = 2 * n + 1 := ⟨q / 2, by omega⟩
  · rw [(getElem?_stubWrites file 0 n).1, map_eq_some_iff, zero_add] at h
    obtain ⟨f, hf, rfl⟩ := h
    exact ⟨n, f, hf, .inl ⟨rfl, rfl⟩⟩
  · rw [(getElem?_stubWrites file 0 n).2, map_eq_some_iff, zero_add] at h
    obtain ⟨f, hf, rfl⟩ := h
    exact ⟨n, f, hf, .inr ⟨rfl, rfl⟩⟩

theorem stub_of_getElem? {n : ℕ} {f : Import} (h : file[n]? = some f) :
    (stubWrites start imageBase 0 file)[2 * n]? = some (start + 12 * n, f.kind.stub) := by
  rw [(getElem?_stubWrites file 0 n).1, h, zero_add, map_some]

theorem patch_of_getElem? {n : ℕ} {f : Import} (h : file[n]? = some f) :
    (stubWrites start imageBase 0 file)[2 * n + 1]? =
      some (f.patchAddr imageBase, leBytes 8 (start + 12 * n)) := by
  rw [(getElem?_stubWrites file 0 n).2, h, zero_add, map_some]

end Log

theorem leBytes_injective {a b : ℕ} (ha : a < 2 ^ 64) (hb : b < 2 ^ 64)
    (h : leBytes 8 a = leBytes 8 b) : a = b := by
  have hnat := congrArg leNat h
  rw [leNat_leBytes, leNat_leBytes] at hnat
  omega

/-! ### Both directions -/

section Table

variable {file imports : List Import} {imageBase sizeOfImage n : ℕ} {mem : ℕ → UInt8}
  {r : ResolvedImports} (hlog : r.log = stubWrites r.page.start imageBase 0 file)
  (hlimit : file.length ≤ stubLimit) (hapart : Apart imageBase sizeOfImage r.page.start 4096)
  (hbound : r.page.start + 4096 ≤ 2 ^ 64) {f imp : Import}

include hlimit in
/-- Every stub lies in the page. -/
theorem stub_in_page (h : file[n]? = some f) : 12 * n + 12 ≤ 4096 := by
  have hn := (List.getElem?_eq_some_iff.mp h).1
  simp only [stubLimit] at hlimit
  omega

include hlog hlimit hapart in
/-- The last patch of a slot stays. -/
theorem ImportsFit.final_slot (hfit : ImportsFit file imports imageBase sizeOfImage)
    (himp : imp ∈ imports) (hf : file[n]? = some f)
    (hslot : f.patchAddr imageBase = imageBase + imp.slot)
    (hlast : ∀ (m : ℕ) (g : Import), n < m → file[m]? = some g →
      g.patchAddr imageBase ≠ imageBase + imp.slot) :
    Final r.log (imageBase + imp.slot) (leBytes 8 (r.page.start + 12 * n)) := by
  rw [hlog]
  refine ⟨2 * n + 1, hslot ▸ patch_of_getElem? hf, fun q w hq hw => ?_⟩
  have hin := hfit.inImage imp himp
  rw [length_leBytes]
  obtain ⟨m, g, hg, ⟨rfl, rfl⟩ | ⟨rfl, rfl⟩⟩ := stubWrites_cases hw
  · have hpage := stub_in_page hlimit hg
    rw [length_stub]
    unfold Apart at hapart ⊢
    omega
  -- Another slot of the image, since this one is not patched again.
  obtain ⟨imp', himp', haddr⟩ := hfit.onlySlots g (mem_of_getElem? hg)
  have hne : imp ≠ imp' := by
    rintro rfl
    exact hlast m g (by omega) hg haddr
  have hslots : Apart imp.slot 8 imp'.slot 8 :=
    hfit.apart.forall himp himp' hne
  dsimp only
  rw [haddr, length_leBytes]
  unfold Apart at hslots ⊢
  omega

include hlog hlimit hapart in
/-- A stub stays. -/
theorem ImportsFit.final_stub (hfit : ImportsFit file imports imageBase sizeOfImage)
    (hf : file[n]? = some f) : Final r.log (r.page.start + 12 * n) f.kind.stub := by
  rw [hlog]
  refine ⟨2 * n, stub_of_getElem? hf, fun q w hq hw => ?_⟩
  have hpage := stub_in_page hlimit hf
  rw [length_stub]
  obtain ⟨m, g, hg, ⟨rfl, rfl⟩ | ⟨rfl, rfl⟩⟩ := stubWrites_cases hw
  · rw [length_stub]
    unfold Apart
    omega
  obtain ⟨imp', himp', haddr⟩ := hfit.onlySlots g (mem_of_getElem? hg)
  have hin := hfit.inImage imp' himp'
  dsimp only
  rw [haddr, length_leBytes]
  unfold Apart at hapart ⊢
  omega

include hlog hlimit hapart in
theorem resolved_of_importsFit (hfit : ImportsFit file imports imageBase sizeOfImage) :
    Resolved imports imageBase sizeOfImage mem r := by
  have hlast : ∀ i : ℕ, ∃ n, ∀ imp, imports[i]? = some imp → LastPatch file imageBase imp n := by
    intro i
    cases himp : imports[i]? with
    | none => exact ⟨0, fun imp h => by cases h⟩
    | some imp =>
      obtain ⟨n, hn⟩ := hfit.last imp (mem_of_getElem? himp)
      exact ⟨n, fun imp' h => some.inj h ▸ hn⟩
  choose pos hpos using hlast
  refine ⟨⟨fun i => 12 * pos i, fun i imp himp => ?_, fun i j hi hj hne => ?_⟩, fun w hw => ?_⟩
  · obtain ⟨f, hf, hslot, hstub, hlater⟩ := hpos i imp himp
    have hmem := mem_of_getElem? himp
    have hfinal := hfit.final_slot hlog hlimit hapart hmem hf hslot hlater
    have hfinal' := hfit.final_stub hlog hlimit hapart hf
    rw [hstub] at hfinal'
    exact ⟨hfit.inImage imp hmem, stub_in_page hlimit hf, ⟨hfinal.readBytes_eq mem, hfinal⟩,
      ⟨hfinal'.readBytes_eq mem, hfinal'⟩⟩
  · -- Different imports have different slots, so they have different patches.
    obtain ⟨f, hf, hslot, -⟩ := hpos i _ (getElem?_eq_getElem hi)
    obtain ⟨g, hg, hslot', -⟩ := hpos j _ (getElem?_eq_getElem hj)
    have hslots : Apart (imports[i]).slot 8 (imports[j]).slot 8 := by
      rcases Nat.lt_or_gt_of_ne hne with hlt | hgt
      · exact pairwise_iff_getElem.mp hfit.apart i j hi hj hlt
      · exact (pairwise_iff_getElem.mp hfit.apart j i hj hi hgt).symm
    have hpne : pos i ≠ pos j := by
      intro heq
      rw [heq, hg] at hf
      cases hf
      unfold Apart at hslots
      omega
    dsimp only [Apart]
    omega
  · rw [hlog] at hw
    obtain ⟨q, hq⟩ := getElem?_of_mem hw
    obtain ⟨n, f, hf, ⟨-, rfl⟩ | ⟨-, rfl⟩⟩ := stubWrites_cases hq
    · have hpage := stub_in_page hlimit hf
      refine Or.inr ⟨Nat.le_add_right _ _, ?_, length_stub _⟩
      rw [length_stub]
      omega
    · obtain ⟨imp, himp, haddr⟩ := hfit.onlySlots f (mem_of_getElem? hf)
      exact Or.inl ⟨imp, himp, haddr, hfit.inImage imp himp, length_leBytes _ _⟩

include hlog hlimit hapart hbound in
/-- Where the writes for an import of the image are in the log. -/
theorem exists_patch (hin : imp.slot + 8 ≤ sizeOfImage) {off : ℕ} (hoff : off + 12 ≤ 4096)
    (hslot : Final r.log (imageBase + imp.slot) (leBytes 8 (r.page.start + off)))
    (hstub : Final r.log (r.page.start + off) imp.kind.stub) :
    ∃ (n : ℕ) (f : Import), file[n]? = some f ∧ off = 12 * n ∧
      f.patchAddr imageBase = imageBase + imp.slot ∧ f.kind.stub = imp.kind.stub ∧
      ∀ (m : ℕ) (g : Import), n < m → file[m]? = some g →
        Apart (imageBase + imp.slot) 8 (g.patchAddr imageBase) 8 := by
  rw [hlog] at hslot hstub
  obtain ⟨p, hp, hlater⟩ := hslot
  obtain ⟨n, f, hf, ⟨-, hw⟩ | ⟨rfl, hw⟩⟩ := stubWrites_cases hp
  · -- A stub is in the page, and the slot is in the image.
    have hpage := stub_in_page hlimit hf
    have haddr : imageBase + imp.slot = r.page.start + 12 * n := congrArg Prod.fst hw
    unfold Apart at hapart
    omega
  have haddr : imageBase + imp.slot = f.patchAddr imageBase := congrArg Prod.fst hw
  have hpage := stub_in_page hlimit hf
  have hoffset : r.page.start + off = r.page.start + 12 * n :=
    leBytes_injective (by omega) (by omega) (congrArg Prod.snd hw)
  refine ⟨n, f, hf, Nat.add_left_cancel hoffset, haddr.symm, ?_, fun m g hm hg => ?_⟩
  · obtain ⟨p', hp', -⟩ := hstub
    obtain ⟨n', f', hf', ⟨-, hw'⟩ | ⟨-, hw'⟩⟩ := stubWrites_cases hp'
    · have haddr' : r.page.start + off = r.page.start + 12 * n' := congrArg Prod.fst hw'
      obtain rfl : n = n' := by omega
      obtain rfl := some.inj (hf.symm.trans hf')
      exact (congrArg Prod.snd hw').symm
    · have hlen := congrArg (fun w : ByteWrite => w.2.length) hw'
      simp at hlen
  · have hfar := hlater (2 * m + 1) _ (by omega) (patch_of_getElem? hg)
    rwa [length_leBytes, length_leBytes] at hfar

include hlog hlimit hapart hbound in
theorem importsFit_of_resolved (h : Resolved imports imageBase sizeOfImage mem r) :
    ImportsFit file imports imageBase sizeOfImage := by
  obtain ⟨⟨off, hstubs, hoffs⟩, hconfined⟩ := h
  have hpatch := fun i imp himp =>
    let ⟨hin, hoff, hslot, hstub⟩ := hstubs i imp himp
    exists_patch hlog hlimit hapart hbound hin hoff hslot.2 hstub.2
  refine ⟨fun imp himp => ?_, ?_, fun f hf => ?_, fun imp himp => ?_⟩
  · obtain ⟨i, hi⟩ := getElem?_of_mem himp
    exact (hstubs i imp hi).1
  · -- The slot that is patched later does not touch the other one.
    refine pairwise_iff_getElem.mpr fun i j hi hj hlt => ?_
    obtain ⟨n, f, hf, hn, haddr, -, hlater⟩ := hpatch i _ (getElem?_eq_getElem hi)
    obtain ⟨m, g, hg, hm, haddr', -, hlater'⟩ := hpatch j _ (getElem?_eq_getElem hj)
    have hapart' := hoffs i j hi hj (Nat.ne_of_lt hlt)
    have hne : n ≠ m := by
      rintro rfl
      unfold Apart at hapart'
      omega
    rcases Nat.lt_or_gt_of_ne hne with hnm | hmn
    · have hfar := hlater m g hnm hg
      rw [haddr'] at hfar
      unfold Import.SlotsApart
      unfold Apart at hfar ⊢
      omega
    · have hfar := hlater' n f hmn hf
      rw [haddr] at hfar
      unfold Import.SlotsApart
      unfold Apart at hfar ⊢
      omega
  · obtain ⟨n, hn⟩ := getElem?_of_mem hf
    have hmem := mem_of_getElem? (@patch_of_getElem? r.page.start imageBase file n f hn)
    rw [← hlog] at hmem
    rcases hconfined _ hmem with ⟨imp, himp, haddr, -⟩ | ⟨-, -, hlen⟩
    · exact ⟨imp, himp, haddr⟩
    · simp at hlen
  · obtain ⟨i, hi⟩ := getElem?_of_mem himp
    obtain ⟨n, f, hf, -, haddr, hstub, hlater⟩ := hpatch i imp hi
    refine ⟨n, f, hf, haddr, hstub, fun m g hm hg heq => ?_⟩
    have hfar := hlater m g hm hg
    rw [heq] at hfar
    unfold Apart at hfar
    omega

end Table

/-- **Imports are resolved** exactly when the first 341 imports that are found in the file fit those
of the image. The pages of the image and of the stubs are apart, as they are allocated. -/
theorem resolved_iff_importsFit {data behind : Bytes} {source stubSource : MappingSource}
    {pe : LoadedPe} {h : Header} {r : ResolvedImports} (_hload : load data behind source = .ok pe)
    (hparse : parseHeader data = .ok h)
    (hres : resolveImports data behind stubSource pe.imageBase = .ok r)
    (hapart : Apart pe.imageBase h.sizeOfImage r.page.start 4096)
    (hbound : r.page.start + 4096 ≤ 2 ^ 64) (mem : ℕ → UInt8) :
    Resolved (importsIn (pe.image.contents.take h.sizeOfImage) (importDirectory data behind h))
        pe.imageBase h.sizeOfImage mem r ↔
      ImportsFit ((importsIn data (importDirectory data behind h)).take stubLimit)
        (importsIn (pe.image.contents.take h.sizeOfImage) (importDirectory data behind h))
        pe.imageBase h.sizeOfImage := by
  have hlog := resolveImports_log hparse hres
  have hlimit := length_take_le stubLimit (importsIn data (importDirectory data behind h))
  exact ⟨importsFit_of_resolved hlog hlimit hapart hbound,
    resolved_of_importsFit hlog hlimit hapart⟩

/-! ### A file with two imports -/

/-- A file with one section, which holds the import directory: one descriptor, with an import by name
and one by ordinal. The section is at byte 256 of the file and belongs at `rva`. -/
def importFile (rva : ℕ) : Bytes :=
  [0x4D, 0x5A] ++ List.replicate 58 0 ++ leBytes 4 64 ++ [0x50, 0x45, 0, 0] ++
  leBytes 2 0x8664 ++ leBytes 2 1 ++ List.replicate 12 0 ++ leBytes 2 128 ++ leBytes 2 0 ++
  -- the optional header, with two data directories
  leBytes 2 0x020B ++ List.replicate 22 0 ++ leBytes 8 4096 ++ List.replicate 24 0 ++
  leBytes 4 (rva + 80) ++ leBytes 4 256 ++ List.replicate 44 0 ++ leBytes 4 2 ++
  List.replicate 8 0 ++ leBytes 4 rva ++ leBytes 4 40 ++
  -- the section header
  List.replicate 8 0 ++ leBytes 4 80 ++ leBytes 4 rva ++ leBytes 4 80 ++ leBytes 4 256 ++
  List.replicate 12 0 ++ leBytes 4 0x40 ++
  -- the descriptor, the one that ends the list, and the thunks
  leBytes 4 (rva + 40) ++ List.replicate 8 0 ++ leBytes 4 (rva + 74) ++ leBytes 4 (rva + 40) ++
  List.replicate 20 0 ++ leBytes 8 (rva + 64) ++ leBytes 8 (2 ^ 63 + 1) ++ List.replicate 8 0 ++
  -- `NtClose`, after two bytes, and `ntdll`
  [0, 0, 0x4E, 0x74, 0x43, 0x6C, 0x6F, 0x73, 0x65, 0] ++ [0x6E, 0x74, 0x64, 0x6C, 0x6C, 0]

theorem stubMapping_room (n : ℕ) (m : Mapping)
    (h : (if n ≤ 4096 then some (⟨0x9000, replicate 4096 0⟩ : Mapping) else none) = some m) :
    n ≤ m.contents.length ∧ m.start < 2 ^ 64 := by
  split_ifs at h with hn
  cases h
  rw [length_replicate]
  exact ⟨hn, by decide⟩

/-- One page for stubs. -/
def stubMapping : MappingSource where
  create n := if n ≤ 4096 then some ⟨0x9000, List.replicate 4096 0⟩ else none
  room := stubMapping_room

/-- The section is where it is in the file. -/
theorem resolved_importFile : ∃ pe r, load (importFile 256) [] oneMapping = .ok pe ∧
    resolveImports (importFile 256) [] stubMapping pe.imageBase = .ok r ∧
    Resolved [⟨296, .syscall 0x000F⟩, ⟨304, .unknown⟩] pe.imageBase 336 (fun _ => 0) r := by
  have hparse : parseHeader (importFile 256) = .ok ⟨1, 128, 0, 4096, 336, 256, 2, 88, 216⟩ := by
    decide +kernel
  have hfile : importsIn (importFile 256) (some 256) =
      [⟨296, .syscall 0x000F⟩, ⟨304, .unknown⟩] := by decide +kernel
  obtain ⟨pe, hload, hpe⟩ : ∃ pe, load (importFile 256) [] oneMapping = .ok pe ∧
      (pe.imageBase, importsIn (pe.image.contents.take 336) (some 256)) =
        (4096, [⟨296, .syscall 0x000F⟩, ⟨304, .unknown⟩]) :=
    Outcome.exists_of_toOption_map (by decide +kernel)
  obtain ⟨r, hres, hstart⟩ : ∃ r, resolveImports (importFile 256) [] stubMapping 4096 = .ok r ∧
      r.page.start = 0x9000 := Outcome.exists_of_toOption_map (by decide +kernel)
  obtain ⟨hbase, himports⟩ := Prod.mk.inj hpe
  have hres' : resolveImports (importFile 256) [] stubMapping pe.imageBase = .ok r := by
    rw [hbase, hres]
  have hapart : Apart pe.imageBase 336 r.page.start 4096 := by
    rw [hbase, hstart]
    exact Or.inl (by decide)
  have hiff := resolved_iff_importsFit hload hparse hres' hapart (by rw [hstart]; decide)
    fun _ => 0
  have hdir : importDirectory (importFile 256) [] ⟨1, 128, 0, 4096, 336, 256, 2, 88, 216⟩ =
      some 256 := by decide +kernel
  rw [hdir, hfile, himports] at hiff
  refine ⟨pe, r, hload, hres', hiff.mpr ?_⟩
  rw [hbase]
  refine ⟨by decide, pairwise_pair.mpr (.inl (by decide)), by decide, fun imp himp => ?_⟩
  rcases mem_cons.mp himp with rfl | himp
  · refine ⟨0, _, rfl, by decide, rfl, ?_⟩
    rintro (_ | _ | m) g hm hg
    · cases hm
    · obtain rfl := some.inj hg
      decide
    · cases hg
  · obtain rfl := mem_singleton.mp himp
    refine ⟨1, _, rfl, by decide, rfl, fun m g hm hg => ?_⟩
    rw [getElem?_eq_none (Nat.succ_le_of_lt hm)] at hg
    cases hg

/-- The memory with the loaded image. -/
def LoadedPe.memory (pe : LoadedPe) : ℕ → UInt8 := fun a =>
  pe.image.contents.getD (a - pe.imageBase) 0

/-- The section belongs at another offset than it has in the file. Nothing is found in the file
where the directory of the image is, so the slots of the imports keep their thunks. -/
theorem import_not_resolved : ∃ pe r, load (importFile 400) [] oneMapping = .ok pe ∧
    resolveImports (importFile 400) [] stubMapping pe.imageBase = .ok r ∧
    ¬ Resolved (importsIn (pe.image.contents.take 480) (some 400)) pe.imageBase 480 pe.memory
      r := by
  obtain ⟨pe, hload, hpe⟩ : ∃ pe, load (importFile 400) [] oneMapping = .ok pe ∧
      (pe.imageBase, importsIn (pe.image.contents.take 480) (some 400),
        readBytes pe.memory 4536 8) = (4096, [⟨440, .syscall 0x000F⟩, ⟨448, .unknown⟩], leBytes 8 464) :=
    Outcome.exists_of_toOption_map (by decide +kernel)
  obtain ⟨r, hres, hr⟩ : ∃ r, resolveImports (importFile 400) [] stubMapping 4096 = .ok r ∧
      (r.page.start, r.log) = (0x9000, []) := Outcome.exists_of_toOption_map (by decide +kernel)
  obtain ⟨hbase, himports, hslot⟩ := by simpa only [Prod.mk.injEq] using hpe
  obtain ⟨hstart, hlog⟩ := by simpa only [Prod.mk.injEq] using hr
  refine ⟨pe, r, hload, by rw [hbase, hres], fun hresolved => ?_⟩
  obtain ⟨⟨off, hstubs, -⟩, -⟩ := hresolved
  rw [himports, hlog, hbase] at hstubs
  obtain ⟨-, hoff, ⟨hread, -⟩, -⟩ := hstubs 0 _ rfl
  have heq := leBytes_injective (by decide) (by omega) (hslot.symm.trans hread)
  omega

end Maios.Pe
