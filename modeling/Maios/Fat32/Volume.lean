import Mathlib.Data.Nat.Bitwise
import Maios.Fat32.Disk

/-!
# Volumes

A volume is what the driver means by the sectors of a disk: an entry of the FAT and a block of data
for each cluster. On a disk with a sound geometry the accesses of the driver act on the sectors as the
accesses of a volume act on the volume that the disk shows, as long as they name clusters of the
volume. Hence every program of the driver does, and all that is said about the driver from here on
is said about volumes.
-/

namespace Maios.Fat32

open Function List Fat32Params Disk Act Nat

open Storage (Block)

/-- The first number that is no cluster. -/
def Fat32Params.limit (p : Fat32Params) : ℕ :=
  (p.totalSectors - p.dataStartSector) / p.sectorsPerCluster + 2

theorem Fat32Params.two_le_limit (p : Fat32Params) : 2 ≤ p.limit := le_add_left _ _

/-- The number of a cluster of the volume. -/
def Fat32Params.Valid (p : Fat32Params) (c : ℕ) : Prop := 2 ≤ c ∧ c < p.limit

instance (p : Fat32Params) (c : ℕ) : Decidable (p.Valid c) :=
  inferInstanceAs (Decidable (_ ∧ _))

/-- A well-formed volume. -/
structure Geometry (p : Fat32Params) : Prop where
  bytesPerSector : p.bytesPerSector = 512
  sectorsPerCluster : 0 < p.sectorsPerCluster
  bytesPerCluster : p.bytesPerCluster = 512 * p.sectorsPerCluster
  numFats : 0 < p.numFats
  dataStart : p.dataStartSector = p.fatStartSector + p.numFats * p.sectorsPerFat
  dataFits : p.dataStartSector ≤ p.totalSectors
  totalSectors : p.totalSectors < 2 ^ 32
  /-- A sector of the FAT has 128 entries. -/
  fatFits : p.limit ≤ p.sectorsPerFat * 128
  limit_le : p.limit ≤ fat32Bad

/-- The entries of the FAT and the contents of the clusters. -/
@[ext]
structure Vol (bpc : ℕ) where
  fat : ℕ → ℕ
  data : ℕ → Block bpc

namespace Vol

variable {bpc : ℕ}

def setFat (v : Vol bpc) (c x : ℕ) : Vol bpc := { v with fat := Function.update v.fat c x }

def setData (v : Vol bpc) (c : ℕ) (b : Block bpc) : Vol bpc :=
  { v with data := Function.update v.data c b }

variable (v : Vol bpc) {c c' : ℕ} (b : Block bpc)

@[simp] theorem setFat_fat_self (x : ℕ) : (v.setFat c x).fat c = x := by
  simp [setFat]

theorem setFat_fat_of_ne (h : c' ≠ c) (x : ℕ) : (v.setFat c x).fat c' = v.fat c' := by
  simp [setFat, h]

@[simp] theorem setFat_data (x : ℕ) : (v.setFat c x).data = v.data := rfl

@[simp] theorem setData_fat : (v.setData c b).fat = v.fat := rfl

@[simp] theorem setData_data_self : (v.setData c b).data c = b := by
  simp [setData]

theorem setData_data_of_ne (h : c' ≠ c) (b : Block bpc) : (v.setData c b).data c' = v.data c' := by
  simp [setData, h]

end Vol

/-- A buffer made a block, filled with zeros. -/
def padded (bpc : ℕ) (buf : Bytes) : Block bpc := ⟨resize buf bpc, length_resize buf bpc⟩

/-- Actions on a volume. -/
abbrev VolM (p : Fat32Params) := Act (Vol p.bytesPerCluster) String

namespace Vol

def fatEntry (p : Fat32Params) (c : ℕ) : VolM p ℕ := fun v =>
  if p.Valid c then (.ok (v.fat c), v) else (.panic, v)

def setFatEntry (p : Fat32Params) (c x : ℕ) : VolM p Unit := fun v =>
  if p.Valid c then (.ok (), v.setFat c (x % 2 ^ 28)) else (.panic, v)

def readCluster (p : Fat32Params) (c : ℕ) : VolM p Bytes := fun v =>
  if p.Valid c then (.ok (v.data c).1, v) else (.panic, v)

def writeCluster (p : Fat32Params) (c : ℕ) (buf : Bytes) : VolM p Unit := fun v =>
  if p.Valid c then
    if p.bytesPerCluster < buf.length then (.err "FAT32: data exceeds cluster size", v)
    else (.ok (), v.setData c (padded p.bytesPerCluster buf))
  else (.panic, v)

end Vol

/-- The accesses of the driver to a volume. To access what is no cluster is a panic here, which only
means that nothing is said about it. -/
def onVol (p : Fat32Params) : (a : Access) → Act (Vol p.bytesPerCluster) String a.Result
  | .fatEntry c => Vol.fatEntry p c
  | .setFatEntry c x => Vol.setFatEntry p c x
  | .readCluster c => Vol.readCluster p c
  | .writeCluster c buf => Vol.writeCluster p c buf

/-- The first sector of a cluster. -/
def Fat32Params.firstSector (p : Fat32Params) (c : ℕ) : ℕ :=
  p.dataStartSector + (c - 2) * p.sectorsPerCluster

/-- The volume that a disk shows. -/
def view (p : Fat32Params) (d : Disk) : Vol p.bytesPerCluster where
  fat c :=
    if p.Valid c then
      ru32 (d.sectors (p.fatStartSector + c * 4 / 512)).1 (c * 4 % 512) &&& entryMask
    else 0
  data c :=
    if p.Valid c then
      padded p.bytesPerCluster ((List.range' (p.firstSector c) p.sectorsPerCluster).flatMap
        fun s => (d.sectors s).1)
    else padded p.bytesPerCluster []

/-! ### Entries of the FAT -/

theorem and_entryMask (x : ℕ) : x &&& entryMask = x % 2 ^ 28 :=
  and_two_pow_sub_one_eq_mod x 28

theorem mergeEntry_and_entryMask (existing value : ℕ) :
    mergeEntry existing value &&& entryMask = value % 2 ^ 28 := by
  rw [and_entryMask, mergeEntry, and_entryMask, or_mod_two_pow, and_mod_two_pow,
    and_zero, zero_or, mod_mod]

theorem mergeEntry_lt (existing value : ℕ) : mergeEntry existing value < 2 ^ 32 := by
  refine or_lt_two_pow (lt_of_le_of_lt and_le_right (by decide)) ?_
  rw [and_entryMask]
  omega

/-- The entry of a cluster in the first copy of the table. -/
def link (p : Fat32Params) (d : Disk) (c : ℕ) : ℕ :=
  ru32 (d.sectors (p.fatStartSector + c * 4 / 512)).1 (c * 4 % 512) &&& entryMask

/-- The sector of a copy of the FAT that holds the entry of a cluster. -/
abbrev Fat32Params.copySector (p : Fat32Params) (c i : ℕ) : ℕ :=
  p.fatStartSector + i * p.sectorsPerFat + c * 4 / 512

/-! ### Where things are -/

section Layout

variable {p : Fat32Params} (g : Geometry p) {c c' : ℕ}

include g

theorem Geometry.clusterLimit : p.clusterLimit = some p.limit := by
  have hpos := g.sectorsPerCluster
  have hfits := g.dataFits
  have hle := g.limit_le
  rw [Fat32Params.clusterLimit, if_neg (by omega)]
  refine if_pos (lt_of_le_of_lt hle ?_)
  decide

/-- The FAT entry of a cluster is in the first copy of the FAT. -/
theorem Geometry.entry_lt (hc : p.Valid c) : c * 4 / 512 < p.sectorsPerFat := by
  have hlt := hc.2
  have hfits := g.fatFits
  omega

theorem Geometry.copy_le {i : ℕ} (hi : i < p.numFats) :
    p.fatStartSector + i * p.sectorsPerFat + p.sectorsPerFat ≤ p.dataStartSector := by
  have hmul : (i + 1) * p.sectorsPerFat ≤ p.numFats * p.sectorsPerFat :=
    mul_le_mul_right _ hi
  rw [succ_mul] at hmul
  have hstart := g.dataStart
  omega

/-- The sectors of a cluster are in the data area. -/
theorem Geometry.cluster_le (hc : p.Valid c) :
    p.firstSector c + p.sectorsPerCluster ≤ p.totalSectors := by
  have hlt := hc.2
  have htwo := hc.1
  have hfits := g.dataFits
  rw [limit] at hlt
  have hindex : c - 2 + 1 ≤ (p.totalSectors - p.dataStartSector) / p.sectorsPerCluster := by omega
  have hmul : (c - 2 + 1) * p.sectorsPerCluster ≤ p.totalSectors - p.dataStartSector :=
    (le_div_iff_mul_le g.sectorsPerCluster).mp hindex
  rw [succ_mul] at hmul
  rw [firstSector]
  omega

theorem Geometry.clusterToSector (hc : p.Valid c) :
    p.clusterToSector c = some (p.firstSector c) := by
  have hle := g.cluster_le hc
  have htotal := g.totalSectors
  have htwo := hc.1
  rw [Fat32Params.clusterToSector, if_neg (by omega)]
  refine if_pos ?_
  rw [firstSector] at hle
  omega

omit g in
/-- The sectors of different clusters are different. -/
theorem cluster_disjoint (hc : p.Valid c) (hc' : p.Valid c') (hne : c ≠ c') :
    p.firstSector c + p.sectorsPerCluster ≤ p.firstSector c' ∨
      p.firstSector c' + p.sectorsPerCluster ≤ p.firstSector c := by
  have key : ∀ {a b : ℕ}, 2 ≤ a → a < b →
      p.firstSector a + p.sectorsPerCluster ≤ p.firstSector b := by
    intro a b ha hab
    have hmul : (a - 2 + 1) * p.sectorsPerCluster ≤ (b - 2) * p.sectorsPerCluster :=
      mul_le_mul_right _ (by omega)
    rw [succ_mul] at hmul
    rw [firstSector, firstSector]
    omega
  rcases lt_or_gt_of_ne hne with h | h
  · exact .inl (key hc.1 h)
  · exact .inr (key hc'.1 h)

omit g in
theorem copySector_injective (hc : c * 4 / 512 < p.sectorsPerFat) :
    Function.Injective (p.copySector c) := by
  intro i j hij
  rw [copySector, copySector] at hij
  exact eq_of_mul_eq_mul_right (by omega : 0 < p.sectorsPerFat) (by omega)

omit g in
/-- An entry that is covered by the FAT lies in one copy only. -/
theorem mem_copySectors_iff (hc : c * 4 / 512 < p.sectorsPerFat) {i s : ℕ} (hi : i < p.numFats)
    (hs : s < p.sectorsPerFat) :
    p.fatStartSector + i * p.sectorsPerFat + s ∈ (range p.numFats).map (p.copySector c) ↔
      s = c * 4 / 512 := by
  rw [mem_map]
  constructor
  · rintro ⟨j, -, hj⟩
    rw [copySector] at hj
    have hdiv : (j * p.sectorsPerFat + c * 4 / 512) % p.sectorsPerFat =
        (i * p.sectorsPerFat + s) % p.sectorsPerFat := by
      congr 1
      omega
    rw [mul_add_mod', mul_add_mod', mod_eq_of_lt hc, mod_eq_of_lt hs] at hdiv
    exact hdiv.symm
  · rintro rfl
    exact ⟨i, mem_range.mpr hi, rfl⟩

omit g in
theorem Disk.fatEntry_of_lt {d : Disk} (hc : c < 2 ^ 28) (h : p.fatStartSector + c * 4 / 512 < d.size) :
    fatEntry p c d = (.ok (link p d c), d) := by
  rw [fatEntry, if_neg (by omega), bind_of_ok _ (readSector_of_lt h)]
  rfl

end Layout

/-! ### The accesses on a disk follow those on its volume -/

/-- The disk shows the volume, and holds all of it. -/
def Shows (p : Fat32Params) (d : Disk) (v : Vol p.bytesPerCluster) : Prop :=
  v = view p d ∧ p.totalSectors ≤ d.size

section Simulation

variable {p : Fat32Params} (g : Geometry p) {d : Disk} {c : ℕ}
  (hsize : p.totalSectors ≤ d.size) (hc : p.Valid c)

include g hsize hc

theorem Disk.fatEntry_eq : fatEntry p c d = (.ok ((view p d).fat c), d) := by
  have hentry := g.entry_lt hc
  have hcopy := g.copy_le g.numFats
  have hfits := g.dataFits
  have hlt := hc.2
  have hle := g.limit_le
  have hbad : fat32Bad < 2 ^ 28 := by decide
  rw [fatEntry_of_lt (by omega) (by omega)]
  show _ = (Outcome.ok (if p.Valid c then _ else _), d)
  rw [if_pos hc]
  rfl

theorem Disk.readCluster_eq : readCluster p c d = (.ok ((view p d).data c).1, d) := by
  have hle := g.cluster_le hc
  have htotal := g.totalSectors
  have hread := readSectors_of_le (d := d) p.sectorsPerCluster
    (show p.firstSector c + p.sectorsPerCluster ≤ d.size by omega) (by omega)
  have hdata : ((view p d).data c).1 =
      (range' (p.firstSector c) p.sectorsPerCluster).flatMap fun s => (d.sectors s).1 := by
    show (if p.Valid c then padded p.bytesPerCluster _ else _).1 = _
    rw [if_pos hc]
    refine resize_of_length _ ?_
    rw [g.bytesPerCluster, length_flatMap]
    have hconst : ∀ s ∈ range' (p.firstSector c) p.sectorsPerCluster,
        (d.sectors s).1.length = 512 := fun s _ => (d.sectors s).2
    rw [map_congr_left hconst, map_const', sum_replicate_nat, length_range', mul_comm]
  rw [readCluster, g.clusterToSector hc, g.bytesPerSector, hdata]
  exact hread

theorem Disk.writeCluster_eq {buf : Bytes} (hbuf : buf.length ≤ p.bytesPerCluster) :
    ∃ d', writeCluster p c buf d = (.ok (), d') ∧ d'.size = d.size ∧
      view p d' = (view p d).setData c (padded p.bytesPerCluster buf) := by
  have hle := g.cluster_le hc
  have htotal := g.totalSectors
  have hlen : (resize buf p.bytesPerCluster).length = 512 * p.sectorsPerCluster := by
    rw [length_resize, g.bytesPerCluster]
  have hcount := length_chunks 512 p.sectorsPerCluster (resize buf p.bytesPerCluster)
  obtain ⟨d', hd', hsz, hin, hout⟩ :=
    writeSectors_of_le (d := d) (fun b hb => length_of_mem_chunks hlen hb)
      (show p.firstSector c + (chunks 512 p.sectorsPerCluster
        (resize buf p.bytesPerCluster)).length ≤ d.size by rw [hcount]; omega)
      (by rw [hcount]; omega)
  rw [hcount] at hin hout
  refine ⟨d', ?_, hsz, ?_⟩
  · rw [writeCluster, if_neg (not_lt.mpr hbuf), g.clusterToSector hc, g.bytesPerSector]
    exact hd'
  · ext c' : 2
    · -- the FAT is in front of the data area
      show (if p.Valid c' then _ else _) = (view p d).fat c'
      show _ = if p.Valid c' then _ else _
      split_ifs with hc'
      · have hentry := g.entry_lt hc'
        have hcopy := g.copy_le g.numFats
        rw [hout _ (.inl (by rw [firstSector]; omega))]
      · rfl
    · show (if p.Valid c' then _ else _) = update (view p d).data c _ c'
      obtain rfl | heq := eq_or_ne c' c
      · rw [if_pos hc, update_self]
        refine Subtype.ext ?_
        show resize _ _ = resize _ _
        rw [flatMap_def, hin, flatten_chunks hlen, resize_of_length _ (length_resize _ _)]
      rw [update_of_ne heq]
      show _ = if p.Valid c' then _ else _
      split_ifs with hc'
      · have hdisj := cluster_disjoint hc hc' (Ne.symm heq)
        congr 1
        refine flatMap_congr fun s hs => ?_
        obtain ⟨i, hi, rfl⟩ := mem_range'.mp hs
        rw [hout _ (by omega)]
      · rfl

theorem Disk.setFatEntry_eq (x : ℕ) :
    ∃ d', setFatEntry p c x d = (.ok (), d') ∧ d'.size = d.size ∧
      view p d' = (view p d).setFat c (x % 2 ^ 28) := by
  have hentry := g.entry_lt hc
  have hlt := hc.2
  have hlimit := g.limit_le
  have hbad : fat32Bad < 2 ^ 28 := by decide
  have hfits := g.dataFits
  have hcopies : ∀ i ∈ range p.numFats,
      p.fatStartSector + i * p.sectorsPerFat + c * 4 / 512 < p.totalSectors := by
    intro i hi
    have hcopy := g.copy_le (mem_range.mp hi)
    omega
  have hoff : c * 4 % 2 ^ 32 = c * 4 := Nat.mod_eq_of_lt (by omega)
  obtain ⟨d', hd', hsz, hsectors⟩ := @setFatCopies_of_lt d p (c * 4) x _
    (nodup_range.map (copySector_injective hentry))
    (fun i hi => lt_of_lt_of_le (hcopies i hi) hsize)
    (fun i hi => lt_trans (hcopies i hi) g.totalSectors)
  refine ⟨d', ?_, hsz, ?_⟩
  · rw [setFatEntry, hoff]
    exact hd'
  · ext c' : 2
    · show (if p.Valid c' then _ else _) = update (view p d).fat c _ c'
      by_cases hc' : p.Valid c'
      · have hentry' := g.entry_lt hc'
        -- only the first copy is read
        have hmem : p.fatStartSector + c' * 4 / 512 ∈ (range p.numFats).map (p.copySector c) ↔
            c' * 4 / 512 = c * 4 / 512 := by
          simpa using mem_copySectors_iff hentry g.numFats hentry'
        rw [if_pos hc', hsectors]
        obtain rfl | heq := eq_or_ne c' c
        · rw [update_self, if_pos (hmem.mpr rfl), ru32_wu32_self _ (mergeEntry_lt _ _),
            mergeEntry_and_entryMask]
          rw [(d.sectors _).2]
          omega
        rw [update_of_ne heq]
        show _ = if p.Valid c' then _ else _
        split_ifs with hsec
        · rw [ru32_wu32_of_disjoint]
          have := hmem.mp hsec
          omega
        · rfl
      · rw [if_neg hc', update_of_ne fun (h : c' = c) => hc' (h ▸ hc)]
        exact (if_neg hc').symm
    · -- the data area is behind the FAT
      show (if p.Valid c' then _ else _) = (view p d).data c'
      show _ = if p.Valid c' then _ else _
      split_ifs with hc'
      · congr 1
        refine flatMap_congr fun s hs => ?_
        obtain ⟨i, hi, rfl⟩ := mem_range'.mp hs
        rw [hsectors, if_neg]
        rw [mem_map]
        rintro ⟨j, hj, heq⟩
        have hcopy := g.copy_le (mem_range.mp hj)
        rw [firstSector] at heq
        omega
      · rfl

end Simulation

/-- The cluster that an access names. -/
def Access.cluster : Access → ℕ
  | .fatEntry c | .setFatEntry c _ | .readCluster c | .writeCluster c _ => c

/-- **The accesses on a disk follow those on the volume it shows.** -/
theorem onDisk_simulates {p : Fat32Params} (g : Geometry p) (a : Access) (d : Disk)
    (v : Vol p.bytesPerCluster) (h : Shows p d v) (hp : (onVol p a v).1 ≠ .panic) :
    (onDisk p a d).1 = (onVol p a v).1 ∧ Shows p (onDisk p a d).2 (onVol p a v).2 := by
  obtain ⟨rfl, hsize⟩ := h
  have hc : p.Valid a.cluster := by
    by_contra hc
    refine hp ?_
    cases a <;> exact congrArg Prod.fst (if_neg hc)
  cases a with replace hc : p.Valid c := hc
  | fatEntry c =>
    have hvol : onVol p (.fatEntry c) (view p d) = (.ok ((view p d).fat c), view p d) := if_pos hc
    rw [hvol, onDisk, fatEntry_eq g hsize hc]
    exact ⟨rfl, rfl, hsize⟩
  | readCluster c =>
    have hvol : onVol p (.readCluster c) (view p d) = (.ok ((view p d).data c).1, view p d) :=
      if_pos hc
    rw [hvol, onDisk, readCluster_eq g hsize hc]
    exact ⟨rfl, rfl, hsize⟩
  | setFatEntry c x =>
    obtain ⟨d', hd', hsz, hview⟩ := setFatEntry_eq g hsize hc x
    have hvol : onVol p (.setFatEntry c x) (view p d) =
        (.ok (), (view p d).setFat c (x % 2 ^ 28)) := if_pos hc
    rw [hvol, onDisk, hd']
    exact ⟨rfl, hview.symm, hsz ▸ hsize⟩
  | writeCluster c buf =>
    have hvol : onVol p (.writeCluster c buf) (view p d) = _ := if_pos hc
    rw [hvol, onDisk]
    split_ifs with hbuf
    · have hdisk : Disk.writeCluster p c buf d = (.err "FAT32: data exceeds cluster size", d) := by
        rw [Disk.writeCluster, if_pos hbuf, fail_apply]
      rw [hdisk]
      exact ⟨rfl, rfl, hsize⟩
    · obtain ⟨d', hd', hsz, hview⟩ := writeCluster_eq g hsize hc (not_lt.mp hbuf)
      rw [hd']
      exact ⟨rfl, hview.symm, hsz ▸ hsize⟩

/-- **Programs of the driver do on a disk what they do on the volume it shows.** -/
theorem run_onDisk {p : Fat32Params} (g : Geometry p) {α : Type} (x : DriverM α) {d : Disk}
    (hsize : p.totalSectors ≤ d.size)
    (hp : (x.run (onVol p) (view p d)).1 ≠ .panic) :
    (x.run (onDisk p) d).1 = (x.run (onVol p) (view p d)).1 ∧
      Shows p (x.run (onDisk p) d).2 (x.run (onVol p) (view p d)).2 :=
  Prog.simulates (onDisk_simulates g) x ⟨rfl, hsize⟩ hp

/-! ### What a program does on a volume -/

section Does

variable {p : Fat32Params} {α β : Type} {v : Vol p.bytesPerCluster} {R R' : Prop}
  {S : Vol p.bytesPerCluster → Prop} {c : ℕ}

/-- Started on the volume, the program does not panic; it fails only if `R`, and otherwise its value
and the volume it leaves are in `Q`. -/
def Does (p : Fat32Params) (x : DriverM α) (v : Vol p.bytesPerCluster) (R : Prop)
    (Q : α → Vol p.bytesPerCluster → Prop) : Prop :=
  (x.run (onVol p)).wp Q (fun _ _ => R) v

/-- As `Does`, but what is said about a failure is said about the volume it leaves. -/
def Leaves (p : Fat32Params) (x : DriverM α) (v : Vol p.bytesPerCluster)
    (S : Vol p.bytesPerCluster → Prop) (Q : α → Vol p.bytesPerCluster → Prop) : Prop :=
  (x.run (onVol p)).wp Q (fun _ => S) v

variable {a : α} {d : Disk} {x : DriverM α} {Q : α → Vol p.bytesPerCluster → Prop}
  {f : α → DriverM β}

theorem leaves_bind {Q : β → Vol p.bytesPerCluster → Prop} :
    Leaves p (x >>= f) v S Q ↔ Leaves p x v S fun a v' => Leaves p (f a) v' S Q := by
  rw [Leaves, Prog.run_bind, wp_bind]
  rfl

theorem does_bind {Q : β → Vol p.bytesPerCluster → Prop} :
    Does p (x >>= f) v R Q ↔ Does p x v R fun a v' => Does p (f a) v' R Q :=
  leaves_bind

@[simp] theorem leaves_pure : Leaves p (pure a) v S Q ↔ Q a v := .rfl

@[simp] theorem does_pure : Does p (pure a) v R Q ↔ Q a v := .rfl

theorem Does.mono {Q' : α → Vol p.bytesPerCluster → Prop} (h : Does p x v R Q) (hR : R → R')
    (hQ : ∀ a v', Q a v' → Q' a v') : Does p x v R' Q' :=
  wp.mono h hQ fun _ _ => hR

variable {Q : Unit → Vol p.bytesPerCluster → Prop}

theorem leaves_fatEntry (hc : p.Valid c) {Q : ℕ → Vol p.bytesPerCluster → Prop} (hQ : Q (v.fat c) v) :
    Leaves p (fatEntry c) v S Q := by
  rw [Leaves, fatEntry, Prog.run_ofCall]
  exact wp_of_ok (if_pos hc) hQ

theorem leaves_setFatEntry (hc : p.Valid c) {x : ℕ} (hx : x < 2 ^ 28) (hQ : Q () (v.setFat c x)) :
    Leaves p (setFatEntry c x) v S Q := by
  rw [Leaves, setFatEntry, Prog.run_ofCall]
  refine wp_of_ok (if_pos hc) ?_
  rw [mod_eq_of_lt hx]
  exact hQ

theorem leaves_readCluster (hc : p.Valid c) {Q : Bytes → Vol p.bytesPerCluster → Prop}
    (hQ : Q (v.data c).1 v) : Leaves p (readCluster c) v S Q := by
  rw [Leaves, readCluster, Prog.run_ofCall]
  exact wp_of_ok (if_pos hc) hQ

theorem leaves_writeCluster (hc : p.Valid c) {buf : Bytes} (hbuf : buf.length = p.bytesPerCluster)
    (hQ : Q () (v.setData c ⟨buf, hbuf⟩)) : Leaves p (writeCluster c buf) v S Q := by
  rw [Leaves, writeCluster, Prog.run_ofCall]
  have hwrite : onVol p (.writeCluster c buf) v =
      (.ok (), v.setData c (padded p.bytesPerCluster buf)) := by
    show Vol.writeCluster p c buf v = _
    rw [Vol.writeCluster, if_pos hc, if_neg (not_lt.mpr (le_of_eq hbuf))]
  refine wp_of_ok hwrite ?_
  have hpad : padded p.bytesPerCluster buf = ⟨buf, hbuf⟩ := Subtype.ext (resize_of_length _ hbuf)
  rw [hpad]
  exact hQ

variable {Q : α → Vol p.bytesPerCluster → Prop} (g : Geometry p) (hsize : p.totalSectors ≤ d.size)

include g hsize

/-- **What a program does on the volume that a disk shows, it does on the disk.** -/
theorem Leaves.onDisk (h : Leaves p x (view p d) S Q) :
    (∃ a d', x.run (onDisk p) d = (.ok a, d') ∧ p.totalSectors ≤ d'.size ∧ Q a (view p d')) ∨
      ∃ e d', x.run (onDisk p) d = (.err e, d') ∧ p.totalSectors ≤ d'.size ∧
        S (view p d') := by
  obtain ⟨hout, hview, hsize'⟩ := run_onDisk g x hsize (wp.ne_panic h)
  rw [Leaves, wp] at h
  rcases hvol : x.run (onVol p) (view p d) with ⟨o, v'⟩
  rcases hdisk : x.run (Fat32.onDisk p) d with ⟨o', d'⟩
  rw [hvol] at h hout hview
  rw [hdisk] at hout hview hsize'
  obtain rfl : o' = o := hout
  obtain rfl : v' = view p d' := hview
  cases o' with
  | ok a => exact .inl ⟨a, d', rfl, hsize', h⟩
  | err e => exact .inr ⟨e, d', rfl, hsize', h⟩
  | panic => exact absurd h id

theorem Does.onDisk (h : Does p x (view p d) R Q) :
    (∃ a d', x.run (onDisk p) d = (.ok a, d') ∧ p.totalSectors ≤ d'.size ∧ Q a (view p d')) ∨
      ∃ e d', x.run (onDisk p) d = (.err e, d') ∧ R :=
  (Leaves.onDisk g hsize h).imp id fun ⟨e, d', hrun, _, hR⟩ => ⟨e, d', hrun, hR⟩

theorem Does.of_ok {d' : Disk} (h : Does p x (view p d) R Q)
    (hok : x.run (Fat32.onDisk p) d = (.ok a, d')) :
    p.totalSectors ≤ d'.size ∧ Q a (view p d') := by
  rcases h.onDisk g hsize with ⟨b, d₁, hrun, hsize', hQ⟩ | ⟨e, d₁, hrun, -⟩
  · obtain ⟨hab, rfl⟩ := Prod.mk.inj (hok.symm.trans hrun)
    obtain rfl : a = b := Outcome.ok.inj hab
    exact ⟨hsize', hQ⟩
  · cases hok.symm.trans hrun

/-- A program that cannot fail and of which the value and the volume are known. -/
theorem Does.run_eq {v : Vol p.bytesPerCluster}
    (h : Does p x (view p d) False fun b v' => b = a ∧ v' = v) :
    ∃ d', x.run (Fat32.onDisk p) d = (.ok a, d') ∧ p.totalSectors ≤ d'.size ∧ view p d' = v := by
  rcases h.onDisk g hsize with ⟨b, d', hrun, hsize', rfl, hv⟩ | ⟨e, d', hrun, hfalse⟩
  · exact ⟨d', hrun, hsize', hv⟩
  · exact absurd hfalse id

/-- A program that returns a certain value if a condition holds, and fails otherwise. -/
theorem Does.ok_iff {b : α} {P : Prop} (h : Does p x (view p d) (¬ P) fun b _ => P ∧ b = a) :
    (x.run (Fat32.onDisk p) d).1 = .ok b ↔ P ∧ b = a := by
  rcases h.onDisk g hsize with ⟨b', d', hrun, -, hP, rfl⟩ | ⟨e, d', hrun, hP⟩ <;> rw [hrun]
  · exact ⟨fun hb => ⟨hP, (Outcome.ok.inj hb).symm⟩, fun hb => by rw [hb.2]⟩
  · exact ⟨fun hb => (by cases hb), fun hb => absurd hb.1 hP⟩

end Does

end Maios.Fat32
