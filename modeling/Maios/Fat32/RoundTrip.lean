import Maios.Fat32.SlotChange
import Maios.Fat32.Tree

/-!
# Reading back what was written

After a successful `write_file` one expects to find the file under its name and to read the data. The
driver looks a name up among the long and short names that a directory shows, takes the last one, and
writes to the first slot with the eleven bytes made from the name, or to the free slot. So the data is
read back if, in the directory with the entry written, the name is found at the slot that was written.

Of the volume no more is asked than the call touches: the clusters of the directory are a chain, and
the clusters that the call frees are a chain apart from it. Other files may share clusters, and
clusters may be lost or marked as bad.

## Main results

* `write_then_read`: what is written is found and read back, under `ReadsBack`, and with two
  exceptions only then.
* `written_not_found`: a name that does not fit into eight and three bytes. The entry is created under
  a cut name, and the name itself is not found.
-/

namespace Maios.Fat32

open List

/-- The slot of a new file of this name, without clusters. -/
def newSlot (name : Name) : Bytes := (DirEntry83.ofCluster (nameTo83 name) attrArchive 0 0).toBytes

/-- The slot to which a file of this name is written is the slot at which the name is found, before
the file is written if there is one, and else with the new entry in its place. A new entry does not
make the directory longer than a million clusters. -/
def WritesFound (upper : Name → Name) (n : ℕ) (name : Name) (slots : List Bytes) : Prop :=
  match findSlot upper name slots with
  | some (j, _) => targetSlot name slots = .hit j
  | none =>
    (findSlot upper name (putSlot n slots (freeSlot slots) (newSlot name))).map Prod.fst =
        some (freeSlot slots) ∧
      (freeSlot slots < slots.length ∨ slots.length < n * maxChain)

instance (upper : Name → Name) (n : ℕ) (name : Name) (slots : List Bytes) :
    Decidable (WritesFound upper n name slots) :=
  match h : findSlot upper name slots with
  | some (j, e) => decidable_of_iff (targetSlot name slots = .hit j) (by rw [WritesFound, h])
  | none =>
    decidable_of_iff
      ((findSlot upper name (putSlot n slots (freeSlot slots) (newSlot name))).map Prod.fst =
          some (freeSlot slots) ∧ (freeSlot slots < slots.length ∨ slots.length < n * maxChain))
      (by rw [WritesFound, h])

/-- A file of this name is written to the slot at which it is found, and it has at most a million
clusters. -/
def ReadsBack (upper : Name → Name) (p : Fat32Params) (name : Name) (data : Bytes)
    (slots : List Bytes) : Prop :=
  WritesFound upper p.slotsPerCluster name slots ∧ data.length ≤ p.bytesPerCluster * maxChain

instance (upper : Name → Name) (p : Fat32Params) (name : Name) (data : Bytes) (slots : List Bytes) :
    Decidable (ReadsBack upper p name data slots) := inferInstanceAs (Decidable (_ ∧ _))

section

variable {upper : Name → Name} {name : Name} {slots slots' : List Bytes} {n k first size : ℕ}

theorem writtenSlots_cases (h : writtenSlots upper n name first size slots = some (k, slots')) :
    (∃ j e s, findSlot upper name slots = some (j, e) ∧ targetSlot name slots = .hit k ∧
      slots[k]? = some s ∧ (slotHead s ≠ 0x00 ∧ slotAttr s ≠ attrLfn) ∧
      slots' = slots.set k (updateSlot s 0 first size)) ∨
    findSlot upper name slots = none ∧ k = freeSlot slots ∧
      slots' = putSlot n slots k
        (DirEntry83.ofCluster (nameTo83 name) attrArchive first size).toBytes := by
  rw [writtenSlots] at h
  rcases hfind : findSlot upper name slots with _ | ⟨j, e⟩
  · rw [hfind] at h
    cases h
    exact .inr ⟨rfl, rfl, rfl⟩
  rw [hfind] at h
  rcases htarget : targetSlot name slots with _ | i | _ | _
  · simp [htarget] at h
  · rw [htarget] at h
    cases h
    obtain ⟨s, hs, hhead, hattr⟩ := targetSlot_eq_hit htarget
    refine .inl ⟨j, e, s, rfl, rfl, hs, ⟨hhead, hattr⟩, ?_⟩
    rw [getD_eq_getElem?_getD, hs, Option.getD_some]
  · simp [htarget] at h
  · simp [htarget] at h

/-- A file that is written to the slot at which its name is found is found there, with the cluster
and the size that were written. -/
theorem findSlot_written (hslots : ∀ s ∈ slots, s.length = 32) (hfirst : first < 2 ^ 32)
    (hsize : size < 2 ^ 32) (hcond : WritesFound upper n name slots)
    (hwritten : writtenSlots upper n name first size slots = some (k, slots')) :
    ∃ e, findSlot upper name slots' = some (k, e) ∧ e.cluster = first ∧ e.fileSize = size := by
  rcases writtenSlots_cases hwritten with ⟨j, e, s, hfind, htarget, hs, -, rfl⟩ | ⟨hnone, rfl, rfl⟩
  · rw [WritesFound, hfind] at hcond
    obtain rfl : j = k := Search.hit.inj (hcond.symm.trans htarget)
    have hlen : s.length = 32 := hslots s (mem_of_getElem? hs)
    obtain ⟨e', hfind', hcluster, hsize'⟩ := findSlot_set (updateSlot s 0 first size) hs hlen
      ((length_updateSlot 0).trans hlen) take_updateSlot hfind
    rw [slotCluster_updateSlot hlen hfirst] at hcluster
    rw [slotSize_updateSlot hlen hsize] at hsize'
    exact ⟨e', hfind', hcluster, hsize'⟩
  · rw [WritesFound, hnone] at hcond
    obtain ⟨⟨k', e⟩, hfind, hk'⟩ := Option.map_eq_some_iff.mp hcond.1
    obtain rfl : k' = freeSlot slots := hk'
    obtain ⟨e', hfind', hcluster, hsize'⟩ := findSlot_set
      (DirEntry83.ofCluster (nameTo83 name) attrArchive first size).toBytes
      (getElem?_putSlot _) (length_toBytes _) (length_toBytes _)
      ((take_ofCluster _ _ _ _).trans (take_ofCluster _ _ _ _).symm) hfind
    rw [set_putSlot] at hfind'
    rw [slotCluster_ofCluster _ _ hfirst] at hcluster
    rw [slotSize_ofCluster _ _ hsize] at hsize'
    exact ⟨e', hfind', hcluster, hsize'⟩

/-- A file that is written again keeps its attributes. -/
theorem attr_written {e e' : DirEntry83} (hslots : ∀ s ∈ slots, s.length = 32)
    (hwritten : writtenSlots upper n name first size slots = some (k, slots'))
    (hfind : findSlot upper name slots = some (k, e))
    (hfind' : findSlot upper name slots' = some (k, e')) : e'.attr = e.attr := by
  rcases writtenSlots_cases hwritten with ⟨_, _, s, -, -, hs, ⟨hhead, hattr⟩, rfl⟩ | ⟨hnone, -⟩
  · obtain ⟨_, hshown⟩ := shownAt_of_findSlot hfind
    obtain ⟨_, hshown'⟩ := shownAt_of_findSlot hfind'
    have hsame := (shownAt_update hs (hslots s (mem_of_getElem? hs)) hhead hattr first size).2
    rw [hshown, hshown'] at hsame
    exact (Prod.mk.inj (Option.some.inj hsame)).2
  · cases hfind.symm.trans hnone

theorem WritesFound.grows (h : WritesFound upper n name slots)
    (hnone : findSlot upper name slots = none) :
    freeSlot slots < slots.length ∨ slots.length < n * maxChain := by
  rw [WritesFound, hnone] at h
  exact h.2

/-- The directory does not get too long to be walked. -/
theorem length_written {m : ℕ} (hn : 0 < n) (hlen : slots.length = n * m) (hm : m ≤ maxChain)
    (hgrows : findSlot upper name slots = none →
      freeSlot slots < slots.length ∨ slots.length < n * maxChain)
    (hwritten : writtenSlots upper n name first size slots = some (k, slots')) :
    slots'.length ≤ n * maxChain := by
  have hle : slots.length ≤ n * maxChain := hlen ▸ Nat.mul_le_mul_left n hm
  rcases writtenSlots_cases hwritten with ⟨-, -, -, -, -, -, -, rfl⟩ | ⟨hnone, rfl, rfl⟩
  · rw [length_set]
    exact hle
  rw [putSlot]
  split_ifs with hfree
  · rw [length_set]
    exact hle
  have hlt : m < maxChain := by
    have := (hgrows hnone).resolve_left hfree
    rw [hlen] at this
    exact Nat.lt_of_mul_lt_mul_left this
  have hnext : n * m + n ≤ n * maxChain := by
    exact Nat.mul_le_mul_left n hlt
  rw [length_append, length_cons, length_replicate]
  omega

/-- A file that is found with the size of the data is found at the slot to which it was written. -/
theorem writesFound_of_written {len j : ℕ} {e : DirEntry83} (hslots : ∀ s ∈ slots, s.length = 32)
    (hsealed : Sealed slots)
    (hsizes : ∀ found, findSlot upper name slots = some found → found.2.fileSize ≠ len)
    (hwritten : writtenSlots upper n name first size slots = some (k, slots'))
    (hfind : findSlot upper name slots' = some (j, e)) (hlen : e.fileSize = len)
    (hshort : slots'.length ≤ n * maxChain) : WritesFound upper n name slots := by
  obtain ⟨hnamed, hlast⟩ := findSlot_eq_some_iff.mp hfind
  rcases writtenSlots_cases hwritten with
    ⟨i, e', s, hfind', htarget, hs, ⟨hhead, hattr⟩, rfl⟩ | ⟨hnone, rfl, rfl⟩
  · rw [WritesFound, hfind', htarget]
    by_contra hne
    have hik : i ≠ k := fun h => hne (by rw [h])
    -- the update has changed no name, so the entry is the one found before
    have hsame := findSlot_update hs (hslots s (mem_of_getElem? hs)) hhead hattr first size hik
      hfind'
    have heq := Option.some.inj (hfind.symm.trans hsame)
    exact hsizes _ hfind' (by rw [← (Prod.mk.inj heq).2, hlen])
  · -- nothing else is shown under the name, so the new entry is
    have hj : j = freeSlot slots := by
      by_contra hne
      suffices hshown : named upper name (shownAt slots j) = some e by
        cases (named_of_findSlot_eq_none hnone j).symm.trans hshown
      by_cases hhead : (nameTo83 name).1.getD 0 0 = 0x00
      · rw [← slotHead_ofCluster (nameTo83 name) attrArchive first size] at hhead
        rcases shownAt_putSlot_end hhead j with hend | hsame
        · rw [hend] at hnamed
          cases hnamed
        · rwa [hsame] at hnamed
      · rwa [shownAt_putSlot_of_ne (afterSlot_ofCluster hhead (by decide) _ _) hsealed hne] at hnamed
    subst hj
    rw [WritesFound, hnone]
    constructor
    · obtain ⟨e', hfind', -⟩ := findSlot_set (newSlot name) (getElem?_putSlot _)
        (length_toBytes _) (length_toBytes _)
        ((take_ofCluster _ _ _ _).trans (take_ofCluster _ _ _ _).symm) hfind
      rw [set_putSlot] at hfind'
      rw [hfind']
      rfl
    · rw [putSlot] at hshort
      split_ifs at hshort with hfree
      · exact .inl hfree
      · rw [length_append, length_cons] at hshort
        exact .inr (by omega)

end

/-- What is freed when a file of this name is written: the clusters of the entry that is found, which
are a chain or none, and none of which is a cluster of the directory. The second part is load-bearing:
a freed cluster is taken again for the data, and the data would be written over the directory. -/
def FreesApart (upper : Name → Name) (p : Fat32Params) (v : Vol p.bytesPerCluster) (name : Name)
    (ds : List ℕ) : Prop :=
  ∃ olds, Clusters p v.fat (foundCluster upper name (v.slots ds)) olds ∧ ∀ c ∈ olds, c ∉ ds

theorem FreesApart.of_not_found {p : Fat32Params} {v : Vol p.bytesPerCluster} {ds : List ℕ}
    {upper : Name → Name} {name : Name} (h : findSlot upper name (v.slots ds) = none) :
    FreesApart upper p v name ds := by
  refine ⟨[], ?_, forall_mem_nil _⟩
  rw [foundCluster, h]
  exact .of_lt (by decide)

/-- On a consistent volume every file is apart from its directory. -/
theorem Consistent.freesApart {p : Fat32Params} {v : Vol p.bytesPerCluster} {dir : ℕ}
    {ds : List ℕ} (hcon : Consistent p v) (hdir : IsDir p v dir) (hds : Chain p v.fat dir ds)
    (upper : Name → Name) (name : Name) : FreesApart upper p v name ds := by
  rw [FreesApart, foundCluster]
  rcases hfind : findSlot upper name (v.slots ds) with _ | ⟨j, e⟩
  · exact ⟨[], .of_lt (by decide), forall_mem_nil _⟩
  · have hlists := Lists.of_findSlot hds hfind
    obtain ⟨olds, holds⟩ := hcon.clusters_of_lists hdir hlists
    exact ⟨olds, holds, fun c hc => hcon.not_mem_of_lists hdir hds hlists holds hc⟩

section Volume

variable {p : Fat32Params} (g : Geometry p) {v : Vol p.bytesPerCluster} {dir : ℕ} {ds : List ℕ}
  {upper : Name → Name} {name : Name} {data : Bytes}

include g

theorem Geometry.clustersNeeded (n : ℕ) :
    ∃ needed, clustersNeeded p.bytesPerCluster n = some needed := by
  have hpos : p.bytesPerCluster ≠ 0 := by
    have := g.le_bytesPerCluster
    omega
  rw [Fat32.clustersNeeded]
  split_ifs
  · exact ⟨0, rfl⟩
  · exact ⟨_, rfl⟩

/-- A file has been written: the new clusters hold its data, and its entry is in one slot of the
directory. -/
structure Written (upper : Name → Name) (p : Fat32Params) (v v' : Vol p.bytesPerCluster) (dir : ℕ)
    (ds : List ℕ) (name : Name) (data : Bytes) (ext olds news : List ℕ) (first k : ℕ)
    (slots : List Bytes) : Prop where
  short : ds.length ≤ maxChain
  needed : clustersNeeded p.bytesPerCluster data.length = some news.length
  first_lt : first < 2 ^ 28
  old : Clusters p v.fat (foundCluster upper name (v.slots ds)) olds
  written : writtenSlots upper p.slotsPerCluster name first (data.length % 2 ^ 32) (v.slots ds) =
    some (k, slots)
  edit : Edit p v v' dir ds ext olds news first slots
  contents : (v'.contents news).take data.length = data

/-- **Writing a file**, where what is freed is apart from the directory. -/
theorem does_writeFile_written (hds : Chain p v.fat dir ds) (hapart : FreesApart upper p v name ds)
    (data : Bytes) :
    Does p (writeFile upper p dir name data) v True fun _ v' =>
      ∃ ext olds news first k slots,
        Written upper p v v' dir ds name data ext olds news first k slots := by
  obtain ⟨needed, hneeded⟩ := g.clustersNeeded data.length
  obtain ⟨olds, hold, holds⟩ := hapart
  refine leaves_writeFile g hds hneeded hold holds (fun _ => trivial) (fun _ => trivial)
    (fun _ _ _ => trivial) (fun _ _ _ _ _ _ _ _ _ => trivial) (fun _ _ _ _ _ _ _ _ _ => trivial) ?_
  rintro ext news first v' k slots hshort rfl hfirst hwritten hedit htake
  exact ⟨ext, olds, news, first, k, slots, hshort, hneeded, hfirst, hold, hwritten, hedit, htake⟩

namespace Written

variable {v' : Vol p.bytesPerCluster} {ext olds news : List ℕ} {first k : ℕ} {slots : List Bytes}
  (h : Written upper p v v' dir ds name data ext olds news first k slots)

include h

/-- The directory can still be walked. -/
theorem length_le (hgrows : findSlot upper name (v.slots ds) = none →
      freeSlot (v.slots ds) < (v.slots ds).length ∨
        (v.slots ds).length < p.slotsPerCluster * maxChain) : (ds ++ ext).length ≤ maxChain := by
  have hn := g.slotsPerCluster_pos
  have hle := length_written hn (Vol.length_slots g) h.short hgrows h.written
  rw [← h.edit.slots, Vol.length_slots g] at hle
  exact Nat.le_of_mul_le_mul_left hle hn

/-- The file is found, if the name is found at the slot to which it is written. -/
theorem found (hdata : data.length < 2 ^ 32)
    (hcond : WritesFound upper p.slotsPerCluster name (v.slots ds)) :
    ∃ e, findSlot upper name slots = some (k, e) ∧ e.cluster = first ∧ e.fileSize = data.length := by
  have hslots : ∀ s ∈ v.slots ds, s.length = 32 := fun s hs => Vol.length_of_mem_slots g hs
  have hwritten := h.written
  rw [Nat.mod_eq_of_lt hdata] at hwritten
  exact findSlot_written hslots (lt_trans h.first_lt (by decide)) hdata hcond hwritten

end Written

end Volume

/-- The file is found with the right size, and reading it returns the data. -/
def RoundTrip (upper : Name → Name) (p : Fat32Params) (dir : ℕ) (name : Name) (data : Bytes)
    (d : Disk) : Prop :=
  ∃ e, ((findEntry upper dir name).run (onDisk p) d).1 = .ok (some e) ∧ e.fileSize = data.length ∧
    ((readFile p e.cluster e.fileSize).run (onDisk p) d).1 = .ok data

/-- **What is written is found and read back**, in every directory whose clusters are a chain apart
from the clusters that are freed, if the name is found at the slot to which the file is written. The
condition `ReadsBack` is also necessary, unless the name is found at an entry that the call has not written: one that has been uncovered behind
the end of the directory, or one that happens to have the size of the data. -/
theorem write_then_read {p : Fat32Params} (g : Geometry p) (d d' : Disk)
    (hsize : p.totalSectors ≤ d.size) (dir : ℕ) (ds : List ℕ)
    (hds : Chain p (view p d).fat dir ds) (upper : Name → Name) (name : Name)
    (hapart : FreesApart upper p (view p d) name ds) (data : Bytes) (hdata : data.length < 2 ^ 32)
    (hok : (writeFile upper p dir name data).run (onDisk p) d = (.ok (), d')) :
    (ReadsBack upper p name data ((view p d).slots ds) → RoundTrip upper p dir name data d') ∧
      (Sealed ((view p d).slots ds) →
        (∀ found, findSlot upper name ((view p d).slots ds) = some found →
          found.2.fileSize ≠ data.length) →
        RoundTrip upper p dir name data d' → ReadsBack upper p name data ((view p d).slots ds)) := by
  have hwrite := does_writeFile_written g hds hapart data
  obtain ⟨hsize', ext, olds, news, first, k, slots, h⟩ := hwrite.of_ok g hsize hok
  have hfindEntry : ∀ found, ((findEntry upper dir name).run (onDisk p) d').1 = .ok found ↔
      (ds ++ ext).length ≤ maxChain ∧ found = (findSlot upper name slots).map fun found => found.2 := by
    intro found
    rw [findEntry_ok_iff g hsize' h.edit.chain, h.edit.slots]
  have hread : ∀ size bytes, ((readFile p first size).run (onDisk p) d').1 = .ok bytes ↔
      news.length ≤ maxChain ∧ bytes = ((view p d').contents news).take size :=
    fun size bytes => readFile_ok_iff g hsize' h.edit.clusters
  constructor
  · rintro ⟨hcond, hfits⟩
    obtain ⟨e, hfind, rfl, hlen⟩ := h.found g hdata hcond
    refine ⟨e, (hfindEntry _).mpr ⟨h.length_le g hcond.grows, by rw [hfind]; rfl⟩, hlen, ?_⟩
    rw [hread, hlen]
    exact ⟨(clustersNeeded_le_iff h.needed).mpr hfits, h.contents.symm⟩
  · rintro hsealed hsizes ⟨e, hrun, hlen, hbytes⟩
    obtain ⟨hshort, hfound⟩ := (hfindEntry _).mp hrun
    obtain ⟨⟨j, e'⟩, hfind, rfl⟩ := Option.map_eq_some_iff.mp hfound.symm
    have hslots : ∀ s ∈ (view p d).slots ds, s.length = 32 := fun s hs => Vol.length_of_mem_slots g hs
    have hcond := writesFound_of_written hslots hsealed hsizes h.written hfind hlen (by
      rw [← h.edit.slots, Vol.length_slots g]
      exact Nat.mul_le_mul_left _ hshort)
    obtain ⟨e₁, hfind₁, hcluster, -⟩ := h.found g hdata hcond
    obtain rfl := snd_unique hfind hfind₁
    rw [hcluster, hread] at hbytes
    refine ⟨hcond, le_trans ((clustersNeeded_le_iff h.needed).mp le_rfl) ?_⟩
    exact Nat.mul_le_mul_left _ hbytes.1

/-! ### A small volume -/

/-- Six clusters of one sector, one FAT and the root directory at cluster 2. -/
def smallParams : Fat32Params where
  bytesPerSector := 512
  sectorsPerCluster := 1
  numFats := 1
  totalSectors := 8
  sectorsPerFat := 1
  rootCluster := 2
  fatStartSector := 1
  dataStartSector := 2
  bytesPerCluster := 512

theorem smallParams_geometry : Geometry smallParams := by
  constructor <;> decide

/-- A disk with this volume, where only the root directory has a cluster, and these bytes are at its
start. -/
def smallDisk (root : Bytes) : Disk where
  sectors i :=
    if i = 1 then ⟨wu32 (List.replicate 512 0) 8 endMark, by rw [length_wu32, List.length_replicate]⟩
    else if i = 2 then ⟨resize root 512, length_resize _ _⟩
    else ⟨List.replicate 512 0, List.length_replicate⟩
  size := 8

theorem smallDisk_fat (root : Bytes) {c : ℕ} (hc : smallParams.Valid c) :
    (view smallParams (smallDisk root)).fat c =
      ru32 (wu32 (replicate 512 0) 8 endMark) (c * 4) &&& entryMask := by
  have hlt : c < 8 := hc.2
  have hsector : smallParams.fatStartSector + c * 4 / 512 = 1 := by
    show 1 + c * 4 / 512 = 1
    omega
  have hoffset : c * 4 % 512 = c * 4 := Nat.mod_eq_of_lt (by omega)
  show (if smallParams.Valid c then _ else 0) = _
  rw [if_pos hc, hsector, hoffset]
  rfl

theorem smallDisk_chain (root : Bytes) :
    Chain smallParams (view smallParams (smallDisk root)).fat 2 [2] := by
  have hvalid : smallParams.Valid 2 := by decide
  refine .last hvalid ?_
  rw [smallDisk_fat root hvalid]
  decide +kernel

theorem smallDisk_wellFormed {root : Bytes}
    (h : ∀ ne ∈ scan [] ((view smallParams (smallDisk root)).slots [2]), ne.2.cluster < 2) :
    WellFormed smallParams (view smallParams (smallDisk root)) := by
  refine wellFormed_of_root (smallDisk_chain root) h fun x hx hmem => ?_
  have hother : ∀ x < 8, 2 ≤ x → x ∉ [2] →
      ru32 (wu32 (replicate 512 0) 8 endMark) (x * 4) &&& entryMask = fat32Free := by
    decide +kernel
  rw [smallDisk_fat root hx]
  exact hother x hx.2 hx.1 hmem

/-- The volume with an empty root directory. -/
theorem emptyDisk_wellFormed : WellFormed smallParams (view smallParams (smallDisk [])) :=
  smallDisk_wellFormed (by decide +kernel)

/-- Upper case for the letters of ASCII. -/
def asciiUpper (name : Name) : Name := name.map Char.toUpper

/-- The round trip of a file whose name fits. -/
theorem write_then_read_short :
    Sealed ((view smallParams (smallDisk [])).slots [2]) ∧
      findSlot asciiUpper "a.txt".toList ((view smallParams (smallDisk [])).slots [2]) = none ∧
      ReadsBack asciiUpper smallParams "a.txt".toList [0x41]
        ((view smallParams (smallDisk [])).slots [2]) ∧
      RoundTrip asciiUpper smallParams 2 "a.txt".toList [0x41]
        ((writeFile asciiUpper smallParams 2 "a.txt".toList [0x41]).run (onDisk smallParams)
          (smallDisk [])).2 := by
  have hok : ((writeFile asciiUpper smallParams 2 "a.txt".toList [0x41]).run (onDisk smallParams)
      (smallDisk [])).1 = .ok () := by
    decide +kernel
  generalize hd' : ((writeFile asciiUpper smallParams 2 "a.txt".toList [0x41]).run
    (onDisk smallParams) (smallDisk [])).2 = d'
  have hnone : findSlot asciiUpper "a.txt".toList ((view smallParams (smallDisk [])).slots [2]) =
      none := by
    decide +kernel
  have hcond : ReadsBack asciiUpper smallParams "a.txt".toList [0x41]
      ((view smallParams (smallDisk [])).slots [2]) := by
    decide +kernel
  have hboth := write_then_read smallParams_geometry (smallDisk []) _ (by decide)
    2 [2] (smallDisk_chain []) asciiUpper "a.txt".toList (.of_not_found hnone) [0x41] (by decide)
    (Prod.ext hok hd')
  exact ⟨by decide +kernel, hnone, hcond, hboth.1 hcond⟩

/-- **A long name is not found after it has been written.** On an empty volume the file
`longname1.txt` is created under the name `LONGNAME.TXT`. -/
theorem written_not_found :
    Geometry smallParams ∧ smallParams.totalSectors ≤ (smallDisk []).size ∧
      WellFormed smallParams (view smallParams (smallDisk [])) ∧
      IsDir smallParams (view smallParams (smallDisk [])) 2 ∧
      ((writeFile asciiUpper smallParams 2 "longname1.txt".toList [0x41]).run (onDisk smallParams)
        (smallDisk [])).1 = .ok () ∧
      ((findEntry asciiUpper 2 "longname1.txt".toList).run (onDisk smallParams)
        ((writeFile asciiUpper smallParams 2 "longname1.txt".toList [0x41]).run (onDisk smallParams)
          (smallDisk [])).2).1 = .ok none := by
  exact ⟨smallParams_geometry, by decide, emptyDisk_wellFormed, .root,
    by decide +kernel, by decide +kernel⟩

end Maios.Fat32
