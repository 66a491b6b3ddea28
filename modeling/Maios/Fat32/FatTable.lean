import Mathlib.Data.List.Iterate
import Mathlib.Data.Fintype.Pigeonhole
import Maios.Fat32.Volume

/-!
# The table on the disk

What holds of the FAT on every disk, whatever its sectors contain. One entry can be written without
touching any other. The only condition on the geometry is that the copies of the FAT lie below sector
2^32; beyond it the number of the sector wraps around, and the update of one entry lands in another.

The entries are a function on cluster numbers. Following it from a cluster either comes to a value
that ends a chain or runs into a cycle, and the driver tells the two apart by counting to a million.

## Main results

* `setFatEntry_updates_entry`: an entry is updated alone, in all copies.
* `setFatEntry_wraps`: with copies beyond sector 2^32 another entry changes.
* `clusterChain_decides_iff`: the driver decides the chains of at most a million clusters.
-/

namespace Maios.Fat32

open Function Nat

/-! ### Disks with a given table -/

/-- The bytes of a sector of the table whose entry for a cluster is `fat c`. -/
def tableSector (fat : ℕ → ℕ) (s : ℕ) : Sector :=
  ⟨List.ofFn fun i : Fin 512 => UInt8.ofNat (fat (s * 128 + i / 4) / 256 ^ (i % 4 : ℕ)),
    List.length_ofFn⟩

/-- A disk with this table and nothing else. -/
def ofFat (p : Fat32Params) (fat : ℕ → ℕ) : Disk where
  sectors s := tableSector fat (s - p.fatStartSector)
  size := p.totalSectors

theorem link_ofFat (p : Fat32Params) {fat : ℕ → ℕ} {c : ℕ} (h : fat c < 2 ^ 28) :
    link p (ofFat p fat) c = fat c := by
  have hbyte : ∀ k < 4, byteAt (tableSector fat (c * 4 / 512)).1 (c * 4 % 512 + k) =
      fat c / 256 ^ k % 256 := by
    intro k hk
    have hpos : c * 4 % 512 + k < 512 := by omega
    have hcluster : c * 4 / 512 * 128 + (c * 4 % 512 + k) / 4 = c := by omega
    have hshift : (c * 4 % 512 + k) % 4 = k := by omega
    have hlen : c * 4 % 512 + k < (tableSector fat (c * 4 / 512)).1.length :=
      lt_of_lt_of_eq hpos (tableSector fat (c * 4 / 512)).2.symm
    rw [byteAt, List.getD_eq_getElem _ _ hlen]
    simp only [tableSector, List.getElem_ofFn, hcluster, hshift, UInt8.toNat_ofNat']
  have hsector : p.fatStartSector + c * 4 / 512 - p.fatStartSector = c * 4 / 512 := by omega
  have h₀ := hbyte 0 (by decide)
  rw [link, ofFat, and_entryMask]
  dsimp only
  rw [hsector, ru32, hbyte 1 (by decide), hbyte 2 (by decide), hbyte 3 (by decide)]
  rw [add_zero] at h₀
  omega

/-- A volume with two copies of a FAT of one sector. -/
def smallTable : Fat32Params where
  bytesPerSector := 512
  sectorsPerCluster := 1
  numFats := 2
  totalSectors := 8
  sectorsPerFat := 1
  rootCluster := 2
  fatStartSector := 1
  dataStartSector := 3
  bytesPerCluster := 512

/-! ### Writing an entry -/

section Update

variable {p : Fat32Params} {d d' : Disk} {c c' v : ℕ}

/-- All copies of the FAT have the same sectors. -/
def CopiesAgree (p : Fat32Params) (d : Disk) : Prop :=
  ∀ i < p.numFats, ∀ s < p.sectorsPerFat,
    d.sectors (p.fatStartSector + i * p.sectorsPerFat + s) = d.sectors (p.fatStartSector + s)

theorem Disk.fatEntry_of_le (hc : c < 2 ^ 28) (h : d.size ≤ p.fatStartSector + c * 4 / 512) :
    Disk.fatEntry p c d = (.err "FAT32: read error", d) := by
  have hread : readSector (p.fatStartSector + c * 4 / 512) d = (.err "FAT32: read error", d) :=
    if_neg (by omega)
  rw [Disk.fatEntry, if_neg (by omega), Act.bind_of_err _ hread]

/-- A write that succeeds found every copy on the device. -/
theorem lt_of_setFatCopies {copies : List ℕ} (h32 : ∀ i ∈ copies, p.copySector c i < 2 ^ 32)
    (h : setFatCopies p (c * 4) v copies d = (.ok (), d')) : ∀ i ∈ copies, p.copySector c i < d.size := by
  induction copies generalizing d with
  | nil => simp
  | cons i copies ih =>
    have hsec : (p.fatStartSector + i * p.sectorsPerFat + c * 4 / 512) % 2 ^ 32 = p.copySector c i :=
      mod_eq_of_lt (h32 i List.mem_cons_self)
    rw [setFatCopies] at h
    simp only [hsec] at h
    by_cases hlt : p.copySector c i < d.size
    · rw [Act.bind_of_ok _ (readSector_of_lt hlt), Act.bind_of_ok _ (writeSector_of_lt hlt
        (by rw [length_wu32, (d.sectors _).2]))] at h
      intro j hj
      rcases List.mem_cons.mp hj with rfl | hj
      · exact hlt
      · exact ih (List.forall_mem_cons.mp h32).2 h j hj
    · have hread : readSector (p.copySector c i) d = (.err "FAT32: read error", d) := if_neg hlt
      rw [Act.bind_of_err _ hread] at h
      simp at h

/-- The copies of the FAT lie below sector 2^32, so that no sector of an entry wraps around. -/
def Fat32Params.CopiesAddressable (p : Fat32Params) : Prop :=
  p.fatStartSector + p.numFats * p.sectorsPerFat ≤ 2 ^ 32

instance (p : Fat32Params) : Decidable p.CopiesAddressable := inferInstanceAs (Decidable (_ ≤ _))

theorem Fat32Params.CopiesAddressable.lt (hp : p.CopiesAddressable)
    (hc : c * 4 / 512 < p.sectorsPerFat) {i : ℕ} (hi : i ∈ List.range p.numFats) :
    p.copySector c i < 2 ^ 32 := by
  have hcopy : (i + 1) * p.sectorsPerFat ≤ p.numFats * p.sectorsPerFat :=
    Nat.mul_le_mul_right _ (List.mem_range.mp hi)
  rw [Nat.add_mul, one_mul] at hcopy
  rw [CopiesAddressable] at hp
  show p.fatStartSector + i * p.sectorsPerFat + c * 4 / 512 < 2 ^ 32
  omega

section

variable (hp : p.CopiesAddressable) (hc : c * 4 / 512 < p.sectorsPerFat) (hc28 : c < 2 ^ 28)

include hp hc hc28

/-- A write that succeeds is a write of every copy, all of them on the device. -/
theorem setFatCopies_of_setFatEntry (h : Disk.setFatEntry p c v d = (.ok (), d')) :
    setFatCopies p (c * 4) v (List.range p.numFats) d = (.ok (), d') ∧
      ∀ i ∈ List.range p.numFats, p.copySector c i < d.size := by
  have hoff : c * 4 % 2 ^ 32 = c * 4 := mod_eq_of_lt (by omega)
  rw [Disk.setFatEntry, hoff] at h
  exact ⟨h, lt_of_setFatCopies (fun i hi => hp.lt hc hi) h⟩

/-- The sectors after a successful write: the entry is merged into every copy. -/
theorem sectors_setFatEntry (h : Disk.setFatEntry p c v d = (.ok (), d')) :
    d'.size = d.size ∧ ∀ s, (d'.sectors s).1 =
      if s ∈ (List.range p.numFats).map (p.copySector c) then
        wu32 (d.sectors s).1 (c * 4 % 512) (mergeEntry (ru32 (d.sectors s).1 (c * 4 % 512)) v)
      else (d.sectors s).1 := by
  obtain ⟨h, hlt⟩ := setFatCopies_of_setFatEntry hp hc hc28 h
  obtain ⟨e, he, hsize, hsectors⟩ := setFatCopies_of_lt v
    (List.nodup_range.map (copySector_injective hc)) hlt fun i hi => hp.lt hc hi
  obtain rfl : e = d' := by rw [he] at h; exact (Prod.ext_iff.mp h).2
  exact ⟨hsize, hsectors⟩

end

theorem mergeEntry_div {existing : ℕ} (h : existing < 2 ^ 32) (value : ℕ) :
    mergeEntry existing value / 2 ^ 28 = existing / 2 ^ 28 := by
  rw [mergeEntry, ← shiftRight_eq_div_pow, shiftRight_or_distrib, shiftRight_and_distrib,
    shiftRight_and_distrib, show 0xF0000000 >>> 28 = 2 ^ 4 - 1 from rfl,
    show entryMask >>> 28 = 0 from rfl, and_zero, or_zero, and_two_pow_sub_one_eq_mod]
  omega

/-- **An entry is updated alone**, if the copies of the FAT lie below sector 2^32. After a successful
write of an entry that the FAT covers, the entry is the value without its top bits, the other entries
are what they were, the top four bits of every entry are kept, and copies of the FAT that agreed still
agree. -/
theorem setFatEntry_updates_entry (hp : p.CopiesAddressable) (hnum : 0 < p.numFats)
    (hc : c * 4 / 512 < p.sectorsPerFat) (hc28 : c < 2 ^ 28)
    (h : Disk.setFatEntry p c v d = (.ok (), d')) :
    (Disk.fatEntry p c d').1 = .ok (v % 2 ^ 28) ∧
      (∀ c', c' ≠ c → c' * 4 / 512 < p.sectorsPerFat → c' < 2 ^ 28 →
        (Disk.fatEntry p c' d').1 = (Disk.fatEntry p c' d).1) ∧
      (∀ s, ∀ j < 128, ru32 (d'.sectors s).1 (4 * j) / 2 ^ 28 = ru32 (d.sectors s).1 (4 * j) / 2 ^ 28) ∧
      (CopiesAgree p d → CopiesAgree p d') := by
  obtain ⟨hsize, hsectors⟩ := sectors_setFatEntry hp hc hc28 h
  have hlen (s : ℕ) : (d.sectors s).1.length = 512 := (d.sectors s).2
  have hfirst {s : ℕ} (hs : s < p.sectorsPerFat) :
      p.fatStartSector + s ∈ (List.range p.numFats).map (p.copySector c) ↔ s = c * 4 / 512 := by
    simpa using mem_copySectors_iff hc hnum hs
  refine ⟨?_, fun c' hne hc' hc28' => ?_, fun s j hj => ?_, fun hagree i hi s hs => ?_⟩
  · have hlt : p.fatStartSector + c * 4 / 512 < d'.size := by
      have hlt := (setFatCopies_of_setFatEntry hp hc hc28 h).2 0 (List.mem_range.mpr hnum)
      rw [hsize]
      simpa [Fat32Params.copySector] using hlt
    rw [Disk.fatEntry_of_lt hc28 hlt, link, hsectors, if_pos ((hfirst hc).mpr rfl),
      ru32_wu32_self (by rw [hlen]; omega) (mergeEntry_lt _ _), mergeEntry_and_entryMask]
  · have hlink : link p d' c' = link p d c' := by
      rw [link, link, hsectors]
      split_ifs with hmem
      · have hsec := (hfirst hc').mp hmem
        rw [ru32_wu32_of_disjoint (by omega)]
      · rfl
    by_cases hlt : p.fatStartSector + c' * 4 / 512 < d.size
    · rw [Disk.fatEntry_of_lt hc28' hlt, Disk.fatEntry_of_lt hc28' (hsize ▸ hlt), hlink]
    · rw [Disk.fatEntry_of_le hc28' (by omega), Disk.fatEntry_of_le hc28' (by omega)]
  · rw [hsectors]
    split_ifs with hmem
    · by_cases hpos : 4 * j = c * 4 % 512
      · rw [hpos, ru32_wu32_self (by rw [hlen]; omega) (mergeEntry_lt _ _),
          mergeEntry_div (ru32_lt _ _)]
      · rw [ru32_wu32_of_disjoint (by omega)]
    · rfl
  · refine Subtype.ext ?_
    rw [hsectors, hsectors, hagree i hi s hs]
    simp only [mem_copySectors_iff hc hi hs, hfirst hs]

/-- An update of the entry of the second cluster of a small volume: the entry has the value, and that of
the third cluster is kept. -/
theorem setFatEntry_updates_entry_small :
    ∃ d', Disk.setFatEntry smallTable 2 5 (ofFat smallTable fun c => c) = (.ok (), d') ∧
      (Disk.fatEntry smallTable 2 d').1 = .ok 5 ∧ (Disk.fatEntry smallTable 3 d').1 = .ok 3 := by
  obtain ⟨d', hd', -⟩ := @setFatCopies_of_lt (ofFat smallTable fun c => c) smallTable 8 5
    (List.range 2) (by decide) (by decide) (by decide)
  have hset : Disk.setFatEntry smallTable 2 5 (ofFat smallTable fun c => c) = (.ok (), d') := hd'
  have hthree : (Disk.fatEntry smallTable 3 (ofFat smallTable fun c => c)).1 = .ok 3 := by
    decide +kernel
  obtain ⟨hself, hother, -⟩ :=
    setFatEntry_updates_entry (by decide) (by decide) (by decide) (by decide) hset
  exact ⟨d', hset, hself, (hother 3 (by decide) (by decide) (by decide)).trans hthree⟩

/-- A volume whose second copy of the FAT begins at sector 2^32 + 31. -/
def wideTable : Fat32Params where
  bytesPerSector := 512
  sectorsPerCluster := 1
  numFats := 2
  totalSectors := 64
  sectorsPerFat := 0xFFFFFFFF
  rootCluster := 2
  fatStartSector := 32
  dataStartSector := 30
  bytesPerCluster := 512

/-- **An update can change another entry.** The sector of cluster 130 in the second copy wraps around
to the first sector of the first copy, where the entry of cluster 2 is at the same place. -/
theorem setFatEntry_wraps :
    0 < wideTable.numFats ∧ 130 * 4 / 512 < wideTable.sectorsPerFat ∧
      2 * 4 / 512 < wideTable.sectorsPerFat ∧
      (Disk.setFatEntry wideTable 130 5 (ofFat wideTable fun _ => 0)).1 = .ok () ∧
      (Disk.fatEntry wideTable 2 (ofFat wideTable fun _ => 0)).1 = .ok 0 ∧
      (Disk.fatEntry wideTable 2
        (Disk.setFatEntry wideTable 130 5 (ofFat wideTable fun _ => 0)).2).1 = .ok 5 := by
  refine ⟨by decide, by decide, by decide, ?_, ?_, ?_⟩
  · decide +kernel
  · decide +kernel
  · decide +kernel

end Update

/-! ### Following the links -/

/-- The values at which a chain stops: free and reserved ones, the bad mark and the end marks. -/
abbrev Ends (c : ℕ) : Prop := c < 2 ∨ fat32Bad ≤ c

theorem lt_of_not_ends {c : ℕ} (h : ¬ Ends c) : c < fat32Bad := by
  omega

section Walk

variable (next : ℕ → ℕ) (first : ℕ)

/-- The first `n` values from `first` on are clusters. -/
def Walks (n : ℕ) : Prop := ∀ k < n, ¬ Ends (next^[k] first)

/-- Following the links comes to a value that ends a chain, after `n` clusters. -/
def EndsAfter (n : ℕ) : Prop := Walks next first n ∧ Ends (next^[n] first)

/-- Following the links comes back to a cluster. -/
def Cycles : Prop := ∃ i j, i < j ∧ Walks next first (j + 1) ∧ next^[i] first = next^[j] first

variable {next first} {n : ℕ}

theorem walks_succ_iff : Walks next first (n + 1) ↔ ¬ Ends first ∧ Walks next (next first) n := by
  constructor
  · exact fun h => ⟨h 0 n.succ_pos, fun k hk => h (k + 1) (by omega)⟩
  · rintro ⟨h₀, h⟩ (_ | k) hk
    · exact h₀
    · exact h k (by omega)

/-- There are only finitely many clusters, so that a walk without end comes back. -/
theorem endsAfter_or_cycles : (∃ n, EndsAfter next first n) ∨ Cycles next first := by
  classical
  by_cases h : ∃ n, Ends (next^[n] first)
  · exact .inl ⟨Nat.find h, fun k hk => Nat.find_min h hk, Nat.find_spec h⟩
  rw [not_exists] at h
  have hlt (k : ℕ) : next^[k] first < fat32Bad := lt_of_not_ends (h k)
  obtain ⟨i, j, hne, hij⟩ := Finite.exists_ne_map_eq_of_infinite
    fun k => (⟨next^[k] first, hlt k⟩ : Fin fat32Bad)
  have heq : next^[i] first = next^[j] first := Fin.mk.inj hij
  rcases lt_or_gt_of_ne hne with hlt | hlt
  · exact .inr ⟨i, j, hlt, fun k _ => h k, heq⟩
  · exact .inr ⟨j, i, hlt, fun k _ => h k, heq.symm⟩

theorem EndsAfter.not_cycles (h : EndsAfter next first n) : ¬ Cycles next first := by
  rintro ⟨i, j, hij, hwalk, heq⟩
  have hj : j < n := by
    by_contra hle
    exact hwalk n (by omega) h.2
  -- what comes after the second visit also comes after the first one
  have hback : next^[n - j + i] first = next^[n] first := by
    rw [iterate_add_apply, heq, ← iterate_add_apply, Nat.sub_add_cancel hj.le]
  exact h.1 (n - j + i) (by omega) (hback ▸ h.2)

end Walk

section Chains

variable {p : Fat32Params} {d : Disk} {c first : ℕ} (n : ℕ)

/-- The device has the entries of all clusters that are met from `first` on. -/
def EntriesOnDevice (p : Fat32Params) (d : Disk) (first : ℕ) : Prop :=
  ∀ k, Walks (link p d) first (k + 1) →
    p.fatStartSector + (link p d)^[k] first * 4 / 512 < d.size

theorem EntriesOnDevice.link (h : EntriesOnDevice p d first) (hfirst : ¬ Ends first) :
    EntriesOnDevice p d (link p d first) :=
  fun k hk => h (k + 1) (walks_succ_iff.mpr ⟨hfirst, hk⟩)

theorem clusterChainFrom_of_ends (h : Ends c) : clusterChainFrom n c = pure [] := by
  cases n <;> exact if_pos h

/-- One step of the walk. An end mark is not walked into, which makes no difference. -/
theorem run_clusterChainFrom_succ (hc : ¬ Ends c) (hdev : p.fatStartSector + c * 4 / 512 < d.size) :
    (clusterChainFrom (n + 1) c).run (onDisk p) d =
      ((clusterChainFrom n (link p d c)).run (onDisk p) >>= fun rest => pure (c :: rest)) d := by
  have hlt : c < 2 ^ 28 := (lt_of_not_ends hc).trans (by decide)
  have hentry : onDisk p (.fatEntry c) d = (.ok (link p d c), d) := Disk.fatEntry_of_lt hlt hdev
  rw [clusterChainFrom, if_neg hc, fatEntry, Prog.run_bind, Prog.run_ofCall,
    Act.bind_of_ok _ hentry]
  by_cases heoc : fat32Eoc ≤ link p d c
  · have hbad : fat32Bad ≤ link p d c := le_trans (by decide) heoc
    rw [if_pos heoc, clusterChainFrom_of_ends n (.inr hbad)]
    rfl
  · rw [if_neg heoc, Prog.run_bind]
    rfl

theorem run_clusterChainFrom_of_endsAfter {m n : ℕ} (hdev : EntriesOnDevice p d first)
    (h : EndsAfter (link p d) first n) (hn : n ≤ m) :
    (clusterChainFrom m first).run (onDisk p) d = (.ok (List.iterate (link p d) first n), d) := by
  induction n generalizing m first with
  | zero =>
    have hfirst : Ends first := h.2
    rw [clusterChainFrom_of_ends m hfirst]
    rfl
  | succ n ih =>
    obtain ⟨m, rfl⟩ : ∃ k, m = k + 1 := ⟨m - 1, by omega⟩
    obtain ⟨hfirst, hwalk⟩ := walks_succ_iff.mp h.1
    have hrest := ih (hdev.link hfirst) ⟨hwalk, h.2⟩ (le_of_succ_le_succ hn)
    rw [run_clusterChainFrom_succ m hfirst (hdev 0 (walks_succ_iff.mpr ⟨hfirst, by simp [Walks]⟩)),
      Act.bind_of_ok _ hrest]
    rfl

theorem run_clusterChainFrom_of_walks {m : ℕ} (hdev : EntriesOnDevice p d first)
    (h : Walks (link p d) first (m + 1)) :
    (clusterChainFrom m first).run (onDisk p) d = (.err "FAT32: chain loop", d) := by
  induction m generalizing first with
  | zero =>
    have hfirst : ¬ Ends first := h 0 one_pos
    rw [clusterChainFrom, if_neg hfirst]
    rfl
  | succ m ih =>
    obtain ⟨hfirst, hwalk⟩ := walks_succ_iff.mp h
    rw [run_clusterChainFrom_succ m hfirst (hdev 0 fun k hk => h k (by omega)),
      Act.bind_of_err _ (ih (hdev.link hfirst) hwalk)]

/-- The walk of the driver gives the clusters it meets, in order, if it comes to an end, and an
error if and only if the links run into a cycle. -/
def DecidesChain (p : Fat32Params) (d : Disk) (first : ℕ) : Prop :=
  (∀ n, EndsAfter (link p d) first n →
    ((clusterChain first).run (onDisk p) d).1 = .ok (List.iterate (link p d) first n)) ∧
  ((∃ e, ((clusterChain first).run (onDisk p) d).1 = .err e) ↔ Cycles (link p d) first)

/-- **The driver decides the chains of at most a million clusters.** On a device that has the
entries, the walk from a cluster gives the clusters met before the end and an error for a cycle,
exactly if it does not come to an end after more than a million of them. -/
theorem clusterChain_decides_iff (hdev : EntriesOnDevice p d first) :
    DecidesChain p d first ↔ ∀ n, EndsAfter (link p d) first n → n ≤ maxChain := by
  constructor
  · rintro ⟨hok, -⟩ n hn
    by_contra hlong
    have herr := run_clusterChainFrom_of_walks (m := maxChain) hdev fun k hk => hn.1 k (by omega)
    have hres := hok n hn
    rw [clusterChain, herr] at hres
    simp at hres
  · intro hshort
    refine ⟨fun n hn => ?_, ?_⟩
    · rw [clusterChain, run_clusterChainFrom_of_endsAfter hdev hn (hshort n hn)]
    rcases @endsAfter_or_cycles (link p d) first with ⟨n, hn⟩ | hcycle
    · simp [clusterChain, run_clusterChainFrom_of_endsAfter hdev hn (hshort n hn), hn.not_cycles]
    -- a walk that stopped within a million clusters would rule the cycle out
    have hwalk : Walks (link p d) first (maxChain + 1) := by
      intro k hk hend
      classical
      have hex : ∃ n, Ends ((link p d)^[n] first) := ⟨k, hend⟩
      exact EndsAfter.not_cycles
        ⟨fun j hj => Nat.find_min hex hj, Nat.find_spec hex⟩ hcycle
    simp [clusterChain, run_clusterChainFrom_of_walks hdev hwalk, hcycle]

/-- The table in which the clusters from 2 to `last` are one chain. -/
def ascending (last c : ℕ) : ℕ := if c < last then c + 1 else fat32Eoc

section Ascending

variable (p) {last : ℕ} (hlast : last < fat32Bad)

include hlast

theorem link_ascending (c : ℕ) : link p (ofFat p (ascending last)) c = ascending last c := by
  have hbad : fat32Bad < 2 ^ 28 := by decide
  refine link_ofFat _ ?_
  rw [ascending]
  split_ifs
  · omega
  · decide

theorem iterate_ascending {k : ℕ} (hk : k + 2 ≤ last) :
    (link p (ofFat p (ascending last)))^[k] 2 = k + 2 := by
  induction k with
  | zero => rfl
  | succ k ih =>
    rw [iterate_succ_apply', ih (by omega), link_ascending p hlast, ascending, if_pos (by omega)]

theorem endsAfter_ascending (htwo : 2 ≤ last) :
    EndsAfter (link p (ofFat p (ascending last))) 2 (last - 1) := by
  obtain ⟨m, rfl⟩ : ∃ m, last = m + 2 := ⟨last - 2, by omega⟩
  refine ⟨fun k hk => ?_, ?_⟩
  · rw [iterate_ascending p hlast (by omega)]
    omega
  · show Ends ((link p (ofFat p (ascending (m + 2))))^[m + 1] 2)
    rw [iterate_succ_apply', iterate_ascending p hlast le_rfl, link_ascending p hlast, ascending,
      if_neg (lt_irrefl _)]
    decide

theorem entriesOnDevice_ascending (htwo : 2 ≤ last)
    (hsize : p.fatStartSector + last * 4 / 512 < p.totalSectors) :
    EntriesOnDevice p (ofFat p (ascending last)) 2 := by
  intro k hk
  have hle : k + 2 ≤ last := by
    by_contra hlt
    exact hk (last - 1) (by omega) (endsAfter_ascending p hlast htwo).2
  rw [iterate_ascending p hlast hle]
  show p.fatStartSector + (k + 2) * 4 / 512 < p.totalSectors
  omega

end Ascending

theorem EndsAfter.unique {next : ℕ → ℕ} {m n : ℕ} (hm : EndsAfter next first m)
    (hn : EndsAfter next first n) : m = n := by
  rcases lt_trichotomy m n with hlt | heq | hlt
  · exact absurd hm.2 (hn.1 m hlt)
  · exact heq
  · exact absurd hn.2 (hm.1 n hlt)

/-- A chain of three clusters. -/
theorem clusterChain_decides_three :
    EntriesOnDevice smallTable (ofFat smallTable (ascending 4)) 2 ∧
      ((clusterChain 2).run (onDisk smallTable) (ofFat smallTable (ascending 4))).1 =
        .ok [2, 3, 4] := by
  have hdev : EntriesOnDevice smallTable (ofFat smallTable (ascending 4)) 2 :=
    entriesOnDevice_ascending smallTable (by decide) (by decide) (by decide)
  have hends : EndsAfter (link smallTable (ofFat smallTable (ascending 4))) 2 3 :=
    endsAfter_ascending smallTable (by decide) (by decide)
  have hdecides := (clusterChain_decides_iff hdev).mpr fun n hn => by
    rw [hn.unique hends]
    decide
  refine ⟨hdev, (hdecides.1 3 hends).trans ?_⟩
  decide +kernel

/-- A volume with two million clusters. -/
def largeTable : Fat32Params where
  bytesPerSector := 512
  sectorsPerCluster := 8
  numFats := 2
  totalSectors := 16040000
  sectorsPerFat := 15700
  rootCluster := 2
  fatStartSector := 32
  dataStartSector := 31432
  bytesPerCluster := 4096

/-- The table in which the clusters from 2 on are one chain of a million and one clusters. -/
def longChain : ℕ → ℕ := ascending 1000002

/-- A chain of a million and one clusters is taken for a loop. -/
theorem clusterChain_long_chain_not_decided :
    EntriesOnDevice largeTable (ofFat largeTable longChain) 2 ∧
      ¬ DecidesChain largeTable (ofFat largeTable longChain) 2 := by
  have hwalk : EndsAfter (link largeTable (ofFat largeTable longChain)) 2 1000001 :=
    endsAfter_ascending largeTable (by decide) (by decide)
  have hdev : EntriesOnDevice largeTable (ofFat largeTable longChain) 2 :=
    entriesOnDevice_ascending largeTable (by decide) (by decide) (by decide)
  refine ⟨hdev, fun hdecides => ?_⟩
  have hres := hdecides.1 1000001 hwalk
  have herr := run_clusterChainFrom_of_walks (m := maxChain) hdev hwalk.1
  rw [clusterChain, herr] at hres
  exact nomatch hres

end Chains

end Maios.Fat32
