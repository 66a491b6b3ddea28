import Maios.Fat32.Driver

/-!
# The accesses of the driver on the sectors of a device

The device holds sectors of 512 bytes; an access outside it is an error. Here are the four accesses
of the driver, sector by sector: the entry of a cluster is a number of four bytes in the first copy
of the FAT, its update goes to all copies and keeps the top four bits, and a cluster is a run of
sectors of the data area.

The sector of an entry in a copy of the FAT is computed in 32 bits and wraps around, as it does in a
release build. With copies that reach beyond 2^32 sectors an update then goes to a sector of another
entry, or outside the FAT. The other sums stop the driver where they overflow, as a build with
overflow checks does.
-/

namespace Maios.Fat32

open List

abbrev Sector := Storage.Block 512

structure Disk where
  sectors : ℕ → Sector
  /-- The number of sectors of the device. -/
  size : ℕ

abbrev DiskM := Act Disk String

def readSector (sector : ℕ) : DiskM Sector := fun d =>
  if sector < d.size then (.ok (d.sectors sector), d) else (.err "FAT32: read error", d)

/-- The sector replaced by another one. -/
def Disk.setSector (d : Disk) (sector : ℕ) (s : Sector) : Disk :=
  { d with sectors := fun i => if i = sector then s else d.sectors i }

/-- Write a buffer, which the device takes only if it is one sector long. -/
def writeSector (sector : ℕ) (buf : Bytes) : DiskM Unit := fun d =>
  match Storage.Block.ofList 512 buf with
  | none => (.err "FAT32: write error", d)
  | some s =>
    if sector < d.size then (.ok (), d.setSector sector s) else (.err "FAT32: write error", d)

/-- The first sector of a cluster, if it can be computed. -/
def Fat32Params.clusterToSector (p : Fat32Params) (cluster : ℕ) : Option ℕ :=
  if cluster < 2 then none
  else
    let sector := p.dataStartSector + (cluster - 2) * p.sectorsPerCluster
    if sector < 2 ^ 32 then some sector else none

/-- The first `bps` bytes of each of `n` sectors. -/
def readSectors (bps : ℕ) : ℕ → ℕ → DiskM Bytes
  | 0, _ => pure []
  | n + 1, sector =>
    if 2 ^ 32 ≤ sector then Act.crash
    else do
      let sec ← readSector sector
      if 512 < bps then Act.crash
      else do
        let rest ← readSectors bps n (sector + 1)
        pure (sec.1.take bps ++ rest)

/-- Write the pieces of a buffer to consecutive sectors. -/
def writeSectors : List Bytes → ℕ → DiskM Unit
  | [], _ => pure ()
  | buf :: bufs, sector =>
    if 2 ^ 32 ≤ sector then Act.crash
    else do
      writeSector sector buf
      writeSectors bufs (sector + 1)

/-- The bits of a FAT entry that belong to the cluster number. -/
def entryMask : ℕ := 0x0FFFFFFF

/-- The value written over an entry: its top four bits are kept. -/
def mergeEntry (existing value : ℕ) : ℕ := existing &&& 0xF0000000 ||| value &&& entryMask

/-- Write the entry at the offset `off` into the copies of the FAT with these numbers. -/
def setFatCopies (p : Fat32Params) (off value : ℕ) : List ℕ → DiskM Unit
  | [] => pure ()
  | fatIdx :: rest => do
    let sec := (p.fatStartSector + fatIdx * p.sectorsPerFat + off / 512) % 2 ^ 32
    let pos := off % 512
    let buf ← readSector sec
    writeSector sec (wu32 buf.1 pos (mergeEntry (ru32 buf.1 pos) value))
    setFatCopies p off value rest

namespace Disk

def fatEntry (p : Fat32Params) (cluster : ℕ) : DiskM ℕ :=
  if 2 ^ 32 ≤ cluster * 4 then Act.crash
  else do
    let buf ← readSector (p.fatStartSector + cluster * 4 / 512)
    pure (ru32 buf.1 (cluster * 4 % 512) &&& entryMask)

def setFatEntry (p : Fat32Params) (cluster value : ℕ) : DiskM Unit :=
  setFatCopies p (cluster * 4 % 2 ^ 32) value (List.range p.numFats)

def readCluster (p : Fat32Params) (cluster : ℕ) : DiskM Bytes :=
  match p.clusterToSector cluster with
  | none => Act.crash
  | some first => readSectors p.bytesPerSector p.sectorsPerCluster first

def writeCluster (p : Fat32Params) (cluster : ℕ) (data : Bytes) : DiskM Unit :=
  if p.bytesPerCluster < data.length then Act.fail "FAT32: data exceeds cluster size"
  else
    match p.clusterToSector cluster with
    | none => Act.crash
    | some first =>
      writeSectors
        (chunks p.bytesPerSector p.sectorsPerCluster (resize data p.bytesPerCluster)) first

end Disk

/-- The accesses of the driver. -/
def onDisk (p : Fat32Params) : (a : Access) → Act Disk String a.Result
  | .fatEntry cluster => Disk.fatEntry p cluster
  | .setFatEntry cluster value => Disk.setFatEntry p cluster value
  | .readCluster cluster => Disk.readCluster p cluster
  | .writeCluster cluster data => Disk.writeCluster p cluster data

/-! ### What the accesses do when they stay inside the device -/

variable {d : Disk}

variable {sector : ℕ}

theorem readSector_of_lt (h : sector < d.size) :
    readSector sector d = (.ok (d.sectors sector), d) := if_pos h

theorem writeSector_of_lt (h : sector < d.size) {buf : Bytes} (hbuf : buf.length = 512) :
    writeSector sector buf d = (.ok (), d.setSector sector ⟨buf, hbuf⟩) := by
  rw [writeSector, Storage.Block.ofList, dif_pos hbuf]
  exact if_pos h

theorem readSectors_of_le (n : ℕ) (h : sector + n ≤ d.size) (h32 : sector + n ≤ 2 ^ 32) :
    readSectors 512 n sector d =
      (.ok ((range' sector n).flatMap fun s => (d.sectors s).1), d) := by
  induction n generalizing sector with
  | zero => rfl
  | succ n ih =>
    have hread : readSector sector d = (.ok (d.sectors sector), d) := readSector_of_lt (by omega)
    rw [readSectors, if_neg (by omega), Act.bind_of_ok _ hread, if_neg (lt_irrefl _),
      Act.bind_of_ok _ (ih (by omega) (by omega)), Act.pure_apply, range'_succ, flatMap_cons,
      take_of_length_le (le_of_eq (d.sectors sector).2)]

/-- The pieces end up in their sectors, and nothing else changes. -/
theorem writeSectors_of_le {bufs : List Bytes} (hbufs : ∀ buf ∈ bufs, buf.length = 512)
    (h : sector + bufs.length ≤ d.size) (h32 : sector + bufs.length ≤ 2 ^ 32) :
    ∃ d', writeSectors bufs sector d = (.ok (), d') ∧ d'.size = d.size ∧
      (range' sector bufs.length).map (fun s => (d'.sectors s).1) = bufs ∧
      ∀ s, s < sector ∨ sector + bufs.length ≤ s → d'.sectors s = d.sectors s := by
  induction bufs generalizing sector d with
  | nil => exact ⟨d, rfl, rfl, rfl, fun _ _ => rfl⟩
  | cons buf bufs ih =>
    have hbuf : buf.length = 512 := hbufs buf mem_cons_self
    rw [length_cons] at h h32
    have hwrite : writeSector sector buf d = (.ok (), d.setSector sector ⟨buf, hbuf⟩) :=
      writeSector_of_lt (by omega) hbuf
    have hfit : sector + 1 + bufs.length ≤ (d.setSector sector ⟨buf, hbuf⟩).size := by
      show sector + 1 + bufs.length ≤ d.size
      omega
    obtain ⟨d', hd', hsize', hin, hout⟩ :=
      ih (forall_mem_cons.mp hbufs).2 hfit (by omega)
    refine ⟨d', ?_, hsize', ?_, fun s hs => ?_⟩
    · rw [writeSectors, if_neg (by omega), Act.bind_of_ok _ hwrite, hd']
    · rw [length_cons, range'_succ, map_cons, hin, hout sector (.inl (Nat.lt_succ_self _))]
      show (if sector = sector then (⟨buf, hbuf⟩ : Sector) else d.sectors sector).1 :: bufs = _
      rw [if_pos rfl]
    · rw [length_cons] at hs
      rw [hout s (by omega)]
      exact if_neg (by omega)

/-- Each copy of the FAT gets the entry, and nothing else changes, if no sector wraps around. -/
theorem setFatCopies_of_lt {p : Fat32Params} {off : ℕ} (value : ℕ) {copies : List ℕ}
    (hnodup : (copies.map fun i => p.fatStartSector + i * p.sectorsPerFat + off / 512).Nodup)
    (h : ∀ i ∈ copies, p.fatStartSector + i * p.sectorsPerFat + off / 512 < d.size)
    (h32 : ∀ i ∈ copies, p.fatStartSector + i * p.sectorsPerFat + off / 512 < 2 ^ 32) :
    ∃ d', setFatCopies p off value copies d = (.ok (), d') ∧ d'.size = d.size ∧ ∀ s,
      (d'.sectors s).1 =
        if s ∈ copies.map (fun i => p.fatStartSector + i * p.sectorsPerFat + off / 512) then
          wu32 (d.sectors s).1 (off % 512) (mergeEntry (ru32 (d.sectors s).1 (off % 512)) value)
        else (d.sectors s).1 := by
  induction copies generalizing d with
  | nil => exact ⟨d, rfl, rfl, fun s => (if_neg (not_mem_nil)).symm⟩
  | cons i copies ih =>
    rw [map_cons, nodup_cons] at hnodup
    set sec := p.fatStartSector + i * p.sectorsPerFat + off / 512 with hsec
    set pos := off % 512 with hpos
    have hlt : sec < d.size := h i mem_cons_self
    have hmod : sec % 2 ^ 32 = sec := Nat.mod_eq_of_lt (h32 i mem_cons_self)
    set buf := wu32 (d.sectors sec).1 pos (mergeEntry (ru32 (d.sectors sec).1 pos) value) with hbufdef
    have hbuf : buf.length = 512 := by rw [length_wu32, (d.sectors sec).2]
    obtain ⟨d', hd', hsize', hsectors⟩ := ih (d := d.setSector sec ⟨buf, hbuf⟩) hnodup.2
      (forall_mem_cons.mp h).2 (forall_mem_cons.mp h32).2
    refine ⟨d', ?_, hsize', fun s => ?_⟩
    · rw [setFatCopies]
      simp only [← hsec, hmod]
      rw [Act.bind_of_ok _ (readSector_of_lt hlt), Act.bind_of_ok _ (writeSector_of_lt hlt hbuf), hd']
    · rw [hsectors s, map_cons, ← hsec]
      by_cases hs : s = sec
      · rw [hs, if_neg hnodup.1, if_pos mem_cons_self]
        show (if sec = sec then (⟨buf, hbuf⟩ : Sector) else d.sectors sec).1 = _
        rw [if_pos rfl]
      · have hsame : (d.setSector sec ⟨buf, hbuf⟩).sectors s = d.sectors s := if_neg hs
        simp only [hsame, mem_cons, hs, false_or]

end Maios.Fat32
