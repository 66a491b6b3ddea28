import Mathlib.Data.Set.Pairwise.Basic
import Maios.Library.Overwrite
import Maios.Library.Run
import Maios.Storage.BlockCache

/-!
# Partitions of a disk

A `PartitionDevice` forwards requests to the disk it lies on, after checking them against its
number of sectors and adding its first sector to the offset. Both sums are those of machine words,
and the check counts only the whole blocks of the buffer.

The disk is any device that transfers as many blocks as the buffer touches, starting at the offset
it is given, or refuses.

## Main results

* `partitions_isolated` — confined requests stay in their partition, along every run
* `forwarded_in_sectors_iff` — the check lets exactly the confined requests stay in it
-/

namespace Maios.Storage

/-- The number of blocks that a buffer of `len` bytes touches. -/
def blocksOf (blockSize len : ℕ) : ℕ := (len + (blockSize - 1)) / blockSize

/-- A block lies in the range of `n` blocks from `start` on. -/
def InRange (start n b : ℕ) : Prop := start ≤ b ∧ b < start + n

instance (start n b : ℕ) : Decidable (InRange start n b) := inferInstanceAs (Decidable (_ ∧ _))

/-- A disk: a transfer moves all blocks that the buffer touches, or nothing if it is refused. -/
structure StorageDevice (σ : Type*) where
  blockSize : ℕ
  blockSize_pos : 0 < blockSize
  sizeInBlocks : ℕ
  sizeInBlocks_le : sizeInBlocks ≤ 2 ^ 64
  contents : σ → ℕ → List UInt8
  /-- The number of blocks read and the buffer, or the error, and the disk afterwards. -/
  readBlocks : σ → List UInt8 → ℕ → Except IoError (ℕ × List UInt8) × σ
  writeBlocks : σ → List UInt8 → ℕ → Except IoError ℕ × σ
  contents_readBlocks : ∀ s buffer offset, contents (readBlocks s buffer offset).2 = contents s
  /-- What is read comes from the blocks of the request. -/
  readBlocks_ok : ∀ s buffer offset r, (readBlocks s buffer offset).1 = .ok r →
    r.2 = ((List.range (blocksOf blockSize buffer.length)).flatMap fun i =>
      contents s (offset + i)).take buffer.length
  contents_writeBlocks_error : ∀ s buffer offset e, (writeBlocks s buffer offset).1 = .error e →
    contents (writeBlocks s buffer offset).2 = contents s
  /-- A write changes no other block. -/
  contents_writeBlocks_ok : ∀ s buffer offset n b, (writeBlocks s buffer offset).1 = .ok n →
    ¬InRange offset (blocksOf blockSize buffer.length) b →
    contents (writeBlocks s buffer offset).2 b = contents s b

structure PartitionDevice where
  startLba : UInt64
  sectorCount : UInt64
  deriving DecidableEq

namespace PartitionDevice

variable {σ : Type*} (D : StorageDevice σ)

/-- A block of the disk belongs to the partition. -/
def Sector (p : PartitionDevice) (b : ℕ) : Prop := InRange p.startLba.toNat p.sectorCount.toNat b

/-- The partition lies on the disk. -/
def Inside (p : PartitionDevice) : Prop :=
  p.startLba.toNat + p.sectorCount.toNat ≤ D.sizeInBlocks

/-- The offset on the disk of a request for `len` bytes, if it passes the check. -/
def actualOffset (p : PartitionDevice) (len : ℕ) (blockOffset : UInt64) : Option UInt64 :=
  let blocksRequested := UInt64.ofNat (len / D.blockSize)
  if p.sectorCount < blockOffset + blocksRequested then none
  else some (p.startLba + blockOffset)

/-- Refuse a request, or hand it to the disk. -/
def forward {α : Type*} (p : PartitionDevice) (s : σ) (len : ℕ) (blockOffset : UInt64)
    (msg : String) (request : ℕ → Except IoError α × σ) : Except IoError α × σ :=
  match p.actualOffset D len blockOffset with
  | none => (.error (.other msg), s)
  | some offset => request offset.toNat

/-- `read_blocks` -/
def readBlocks (p : PartitionDevice) (s : σ) (buffer : List UInt8) (blockOffset : UInt64) :
    Except IoError (ℕ × List UInt8) × σ :=
  p.forward D s buffer.length blockOffset "PartitionDevice: read beyond partition boundary"
    (D.readBlocks s buffer)

/-- `write_blocks` -/
def writeBlocks (p : PartitionDevice) (s : σ) (buffer : List UInt8) (blockOffset : UInt64) :
    Except IoError ℕ × σ :=
  p.forward D s buffer.length blockOffset "PartitionDevice: write beyond partition boundary"
    (D.writeBlocks s buffer)

/-- A request that is refused, that is empty, or whose blocks lie in the partition. The sum is the
one of natural numbers, and a block of which only a part is asked for counts. -/
def Confined (p : PartitionDevice) (len : ℕ) (blockOffset : UInt64) : Prop :=
  p.sectorCount < blockOffset + UInt64.ofNat (len / D.blockSize) ∨ len = 0 ∨
    blockOffset.toNat + blocksOf D.blockSize len ≤ p.sectorCount.toNat

theorem blocksOf_pos {len : ℕ} (hlen : len ≠ 0) : 0 < blocksOf D.blockSize len := by
  have hpos := D.blockSize_pos
  exact Nat.div_pos (by omega) hpos

theorem blocksOf_zero : blocksOf D.blockSize 0 = 0 := by
  have hpos := D.blockSize_pos
  exact Nat.div_eq_of_lt (by omega)

variable {p q : PartitionDevice} {b : ℕ} {s : σ}

/-- Where a confined request is handed to, its blocks lie in the partition. -/
theorem Confined.in_sectors (hin : p.Inside D) {len : ℕ} {blockOffset offset : UInt64}
    (h : p.Confined D len blockOffset) (hoff : p.actualOffset D len blockOffset = some offset)
    (hb : InRange offset.toNat (blocksOf D.blockSize len) b) : p.Sector b := by
  rw [actualOffset] at hoff
  split_ifs at hoff with hcheck
  cases hoff
  rcases h with h | rfl | h
  · exact absurd h hcheck
  · rw [blocksOf_zero] at hb
    exact absurd hb.2 (not_lt.mpr hb.1)
  · obtain ⟨hb₁, hb₂⟩ := hb
    have hsize := le_trans hin D.sizeInBlocks_le
    rw [UInt64.toNat_add] at hb₁ hb₂
    constructor <;> omega

/-- **The check lets exactly the confined requests stay in their partition.** If it lets through a
request that is not confined, then the request starts before the partition, or ends behind it. -/
theorem forwarded_in_sectors_iff (hin : p.Inside D) (len : ℕ) (blockOffset : UInt64) :
    (∀ offset, p.actualOffset D len blockOffset = some offset →
      ∀ b, InRange offset.toNat (blocksOf D.blockSize len) b → p.Sector b) ↔
    p.Confined D len blockOffset := by
  refine ⟨fun h => ?_, fun h _ hoff _ hb => h.in_sectors D hin hoff hb⟩
  by_contra hnot
  simp only [Confined, not_or] at hnot
  obtain ⟨hcheck, hlen, hends⟩ := hnot
  have hpos := blocksOf_pos D hlen
  have hoff : p.actualOffset D len blockOffset = some (p.startLba + blockOffset) := if_neg hcheck
  have hlow := h _ hoff (p.startLba + blockOffset).toNat ⟨le_rfl, by omega⟩
  have hhigh := h _ hoff ((p.startLba + blockOffset).toNat + (blocksOf D.blockSize len - 1))
    ⟨by omega, by omega⟩
  have hlt := blockOffset.toNat_lt
  obtain ⟨hlow, -⟩ := hlow
  obtain ⟨-, hhigh⟩ := hhigh
  rw [UInt64.toNat_add] at hlow hhigh
  omega

/-! ### Calls through the partitions of a disk -/

inductive Call where
  | read (p : PartitionDevice) (buffer : List UInt8) (blockOffset : UInt64)
  | write (p : PartitionDevice) (buffer : List UInt8) (blockOffset : UInt64)

namespace Call

def device : Call → PartitionDevice
  | read p _ _ | write p _ _ => p

def buffer : Call → List UInt8
  | read _ buffer _ | write _ buffer _ => buffer

def blockOffset : Call → UInt64
  | read _ _ offset | write _ _ offset => offset

def isWrite : Call → Bool
  | read .. => false
  | write .. => true

end Call

/-- The disk after a call. -/
def step (s : σ) : Call → σ
  | .read p buffer blockOffset => (p.readBlocks D s buffer blockOffset).2
  | .write p buffer blockOffset => (p.writeBlocks D s buffer blockOffset).2

/-- The disk does not refuse a request at this offset. -/
def Accepted (s : σ) (offset : ℕ) : Call → Prop
  | .read _ buffer _ => ∃ r, (D.readBlocks s buffer offset).1 = .ok r
  | .write _ buffer _ => ∃ n, (D.writeBlocks s buffer offset).1 = .ok n

/-- The block `b` of the disk is transferred by a call. -/
def Accesses (s : σ) (c : Call) (b : ℕ) : Prop :=
  ∃ offset, c.device.actualOffset D c.buffer.length c.blockOffset = some offset ∧
    Accepted D s offset.toNat c ∧ InRange offset.toNat (blocksOf D.blockSize c.buffer.length) b

/-- A call whose request is confined. -/
def CallConfined (_ : σ) (c : Call) : Prop := c.device.Confined D c.buffer.length c.blockOffset

theorem contents_step_read (s : σ) (p : PartitionDevice) (buffer : List UInt8) (off : UInt64) :
    D.contents (step D s (.read p buffer off)) = D.contents s := by
  rw [step, readBlocks, forward]
  cases p.actualOffset D buffer.length off with
  | none => rfl
  | some offset => exact D.contents_readBlocks s buffer offset.toNat

/-- A write changes only blocks that it accesses. -/
theorem contents_step_write (s : σ) (p : PartitionDevice) (buffer : List UInt8) (off : UInt64)
    (hb : ¬Accesses D s (.write p buffer off) b) :
    D.contents (step D s (.write p buffer off)) b = D.contents s b := by
  rw [step, writeBlocks, forward]
  cases hoff : p.actualOffset D buffer.length off with
  | none => rfl
  | some offset => ?_
  show D.contents (D.writeBlocks s buffer offset.toNat).2 b = D.contents s b
  cases hw : (D.writeBlocks s buffer offset.toNat).1 with
  | error e => rw [D.contents_writeBlocks_error s buffer _ e hw]
  | ok n =>
    refine D.contents_writeBlocks_ok s buffer _ n b hw ?_
    intro hin
    exact hb ⟨offset, hoff, ⟨n, hw⟩, hin⟩

/-- What a confined request reads is in the sectors of the partition. -/
theorem readBlocks_congr (hin : p.Inside D) {s' : σ} {buffer : List UInt8} {off : UInt64}
    (hconf : p.Confined D buffer.length off)
    (hsame : ∀ b, p.Sector b → D.contents s' b = D.contents s b) {r r' : ℕ × List UInt8}
    (h : (p.readBlocks D s buffer off).1 = .ok r) (h' : (p.readBlocks D s' buffer off).1 = .ok r') :
    r'.2 = r.2 := by
  rw [readBlocks, forward] at h h'
  cases hoff : p.actualOffset D buffer.length off with
  | none =>
    rw [hoff] at h
    cases h
  | some offset =>
    rw [hoff] at h h'
    rw [D.readBlocks_ok s buffer offset.toNat r h, D.readBlocks_ok s' buffer offset.toNat r' h']
    congr 1
    refine List.flatMap_congr fun i hi => hsame _ (hconf.in_sectors D hin hoff ?_)
    exact ⟨by omega, by have := List.mem_range.mp hi; omega⟩

section Isolation

variable {D} {parts : Set PartitionDevice} (hin : ∀ p ∈ parts, p.Inside D)
  (hdisj : parts.Pairwise fun p q => ∀ b, p.Sector b → ¬q.Sector b)

include hin

theorem accesses_sector {c : Call} (hmem : c.device ∈ parts) (hc : CallConfined D s c)
    (hb : Accesses D s c b) : c.device.Sector b := by
  obtain ⟨offset, hoff, -, hrange⟩ := hb
  exact hc.in_sectors D (hin _ hmem) hoff hrange

include hdisj

/-- A call changes no sector of a partition that it does not write through. -/
theorem contents_step {c : Call} (hmem : c.device ∈ parts) (hc : CallConfined D s c)
    (hq : q ∈ parts) (hne : c.isWrite = true → c.device ≠ q) (hb : q.Sector b) :
    D.contents (step D s c) b = D.contents s b := by
  cases c with
  | read p buffer off => rw [contents_step_read]
  | write p buffer off =>
    refine contents_step_write D s p buffer off fun hacc => ?_
    exact hdisj hmem hq (hne rfl) b (accesses_sector hin hmem hc hacc) hb

/-- The same for a run. -/
theorem contents_run {calls : List Call} (hmem : ∀ c ∈ calls, c.device ∈ parts)
    (hg : Guarded (step D) (CallConfined D) s calls) (hq : q ∈ parts)
    (hne : ∀ c ∈ calls, c.isWrite = true → c.device ≠ q) (hb : q.Sector b) :
    D.contents (run (step D) s calls) b = D.contents s b := by
  induction calls generalizing s with
  | nil => rfl
  | cons c calls ih =>
    obtain ⟨hc, hg⟩ := hg
    rw [run_cons, ih (fun c' h => hmem c' (List.mem_cons_of_mem c h)) hg
      fun c' h => hne c' (List.mem_cons_of_mem c h)]
    exact contents_step hin hdisj (hmem c List.mem_cons_self) hc hq
      (hne c List.mem_cons_self) hb

end Isolation

/-- **Partitions are isolated as long as every request is confined.** Every call of a run accesses
only sectors of its own partition. A stretch of the run without a write through a partition leaves
its sectors alone, and a request that is read before and after it reads the same. -/
theorem partitions_isolated {σ : Type*} (D : StorageDevice σ) (parts : Set PartitionDevice)
    (hin : ∀ p ∈ parts, p.Inside D)
    (hdisj : parts.Pairwise fun p q => ∀ b, p.Sector b → ¬q.Sector b) (s : σ)
    (done calls : List Call) (hmem : ∀ c ∈ done ++ calls, c.device ∈ parts)
    (hg : Guarded (step D) (CallConfined D) s (done ++ calls)) :
    (∀ c rest, calls = c :: rest → ∀ b, Accesses D (run (step D) s done) c b →
      c.device.Sector b) ∧
    ∀ q ∈ parts, (∀ c ∈ calls, c.isWrite = true → c.device ≠ q) →
      (∀ b, q.Sector b → D.contents (run (step D) s (done ++ calls)) b =
        D.contents (run (step D) s done) b) ∧
      ∀ buffer off r r', q.Confined D buffer.length off →
        (q.readBlocks D (run (step D) s done) buffer off).1 = .ok r →
        (q.readBlocks D (run (step D) s (done ++ calls)) buffer off).1 = .ok r' → r'.2 = r.2 := by
  obtain ⟨-, hg⟩ := guarded_append.mp hg
  have hmem' : ∀ c ∈ calls, c.device ∈ parts := fun c hc => hmem c (List.mem_append_right _ hc)
  constructor
  · rintro c rest rfl b hb
    exact accesses_sector hin (hmem' c List.mem_cons_self) hg.1 hb
  · intro q hq hne
    have hsame : ∀ b, q.Sector b → D.contents (run (step D) s (done ++ calls)) b =
        D.contents (run (step D) s done) b := by
      intro b hb
      rw [run_append]
      exact contents_run hin hdisj hmem' hg hq hne hb
    exact ⟨hsame, fun buffer off r r' hconf h h' => readBlocks_congr D (hin q hq) hconf hsame h h'⟩

/-! ### A disk in memory -/

theorem four_le_two_pow : 4 ≤ 2 ^ 64 := by decide

/-- A disk of four blocks of two bytes that refuses requests behind its end. -/
def memoryDisk : StorageDevice (ℕ → List UInt8) where
  blockSize := 2
  blockSize_pos := Nat.zero_lt_two
  sizeInBlocks := 4
  sizeInBlocks_le := four_le_two_pow
  contents := id
  readBlocks s buffer offset :=
    if offset + blocksOf 2 buffer.length ≤ 4 then
      (.ok (blocksOf 2 buffer.length, ((List.range (blocksOf 2 buffer.length)).flatMap fun i =>
        s (offset + i)).take buffer.length), s)
    else (.error .invalidInput, s)
  writeBlocks s buffer offset :=
    if offset + blocksOf 2 buffer.length ≤ 4 then
      (.ok (blocksOf 2 buffer.length), fun b =>
        if InRange offset (blocksOf 2 buffer.length) b then
          overwrite 0 (s b) ((buffer.drop (2 * (b - offset))).take 2) 0
        else s b)
    else (.error .invalidInput, s)
  contents_readBlocks s buffer offset := by
    split_ifs <;> rfl
  readBlocks_ok s buffer offset r h := by
    split_ifs at h
    cases h
    rfl
  contents_writeBlocks_error s buffer offset e h := by
    split_ifs at h ⊢
    rfl
  contents_writeBlocks_ok s buffer offset n b h hb := by
    split_ifs at h ⊢
    exact if_neg hb

def lower : PartitionDevice := ⟨0, 2⟩

def upper : PartitionDevice := ⟨2, 2⟩

theorem lower_upper_disjoint :
    ({lower, upper} : Set PartitionDevice).Pairwise fun p q => ∀ b, p.Sector b → ¬q.Sector b := by
  have hlower : ∀ b, lower.Sector b → b < 2 := fun b hb => hb.2
  have hupper : ∀ b, upper.Sector b → 2 ≤ b := fun b hb => hb.1
  rintro p (rfl | rfl) q (rfl | rfl) hne b hp hq
  · exact hne rfl
  · exact not_lt.mpr (hupper b hq) (hlower b hp)
  · exact not_lt.mpr (hupper b hp) (hlower b hq)
  · exact hne rfl

theorem lower_upper_inside (p : PartitionDevice) (hp : p ∈ ({lower, upper} : Set PartitionDevice)) :
    p.Inside memoryDisk := by
  rcases hp with rfl | rfl
  · show 0 + 2 ≤ 4
    decide
  · show 2 + 2 ≤ 4
    decide

theorem forwarded_in_sectors_upper :
    upper.actualOffset memoryDisk 4 0 = some 2 ∧ upper.Sector 2 ∧ upper.Sector 3 := by
  have h := (forwarded_in_sectors_iff memoryDisk (lower_upper_inside upper (.inr rfl)) 4 0).mpr
    (.inr (.inr (by decide))) 2 rfl
  exact ⟨rfl, h 2 (by decide), h 3 (by decide)⟩

/-- Both halves of a disk are written. -/
theorem partitions_isolated_halves :
    run (step memoryDisk) (fun _ => [0, 0])
      ([.write lower [1, 2, 3] 0] ++ [.write upper [4, 5, 6, 7] 0]) 1 =
    run (step memoryDisk) (fun _ => [0, 0]) [.write lower [1, 2, 3] 0] 1 :=
  ((partitions_isolated memoryDisk {lower, upper} lower_upper_inside
    lower_upper_disjoint (fun _ => [0, 0]) [.write lower [1, 2, 3] 0]
    [.write upper [4, 5, 6, 7] 0] (by simp [Call.device])
    ⟨.inr (.inr (by decide)), .inr (.inr (by decide)), trivial⟩).2 lower (.inl rfl)
    (by simp [Call.device, lower, upper])).1 1 (by decide : InRange 0 2 1)

/-- An offset that wraps around leaves the partition at its lower end, and a buffer that ends
within a block leaves it at its upper end. The other partition then reads what was written. -/
theorem partition_left :
    (∃ b, Accesses memoryDisk (fun _ => [0, 0])
      (.write upper [1, 2, 3, 4] (UInt64.ofNat (2 ^ 64 - 2))) b ∧ ¬upper.Sector b) ∧
    (lower.readBlocks memoryDisk (fun _ => [0, 0]) [9, 9] 0).1 = .ok (1, [0, 0]) ∧
    (lower.readBlocks memoryDisk (step memoryDisk (fun _ => [0, 0])
      (.write upper [1, 2, 3, 4] (UInt64.ofNat (2 ^ 64 - 2)))) [9, 9] 0).1 = .ok (1, [1, 2]) ∧
    (∃ b, Accesses memoryDisk (fun _ => [0, 0])
      (.write lower [1, 2, 3, 4, 5] 0) b ∧ ¬lower.Sector b) ∧
    (upper.readBlocks memoryDisk (step memoryDisk (fun _ => [0, 0])
      (.write lower [1, 2, 3, 4, 5] 0)) [9, 9] 0).1 = .ok (1, [5, 0]) := by
  refine ⟨⟨0, ⟨0, rfl, ⟨2, rfl⟩, by decide⟩, fun h => absurd h.1 (by decide)⟩, rfl, rfl,
    ⟨2, ⟨0, rfl, ⟨3, rfl⟩, by decide⟩, fun h => absurd h.2 (by decide)⟩, rfl⟩

end PartitionDevice

end Maios.Storage
