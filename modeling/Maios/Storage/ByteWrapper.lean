import Maios.Library.Overwrite
import Maios.Storage.BlockCache

/-!
# Bytes on top of blocks

The byte-wise reader and writer split a range of bytes into at most three transfers: a part of the
first block, the whole blocks in the middle, and a part of the last block. Whole blocks are moved
between the buffer and the device. A part of a block goes through a block in memory, which is read
first and, in a write, written back.

Every transfer of the device may fail, after some of its blocks have been moved.

## Main results

* `blocks_from_bytes_exact` — every range is decomposed into at most three transfers
-/

namespace Maios.Storage

open Nat

/-- `Range<usize>` -/
structure ByteRange where
  start : ℕ
  stop : ℕ
  deriving DecidableEq, Repr

/-- The bytes of a device, and the transfers that fail: with which error, and after how many
blocks. -/
structure FlatDevice where
  bytes : ℕ → UInt8
  /-- The number of transfers so far. -/
  accesses : ℕ
  faults : ℕ → Option (IoError × ℕ)

/-- The `n` bytes from `start` on. -/
def bytesFrom (f : ℕ → UInt8) (start n : ℕ) : List UInt8 :=
  (List.range n).map fun i => f (start + i)

/-- The bytes `l` from `start` on, and the old ones elsewhere. -/
def patch (f : ℕ → UInt8) (start : ℕ) (l : List UInt8) : ℕ → UInt8 := fun x =>
  if start ≤ x then l[x - start]?.getD (f x) else f x

namespace FlatDevice

/-- Read as many blocks as fit into the buffer. -/
def readBlocks (bs : ℕ) (d : FlatDevice) (buffer : List UInt8) (block : ℕ) :
    Except IoError ℕ × List UInt8 × FlatDevice :=
  let d' := { d with accesses := d.accesses + 1 }
  match d.faults d.accesses with
  | none => (.ok (buffer.length / bs), bytesFrom d.bytes (block * bs) buffer.length, d')
  | some (e, k) =>
    let n := min (k * bs) buffer.length
    (.error e, bytesFrom d.bytes (block * bs) n ++ buffer.drop n, d')

/-- Write the blocks of the buffer. -/
def writeBlocks (bs : ℕ) (d : FlatDevice) (buffer : List UInt8) (block : ℕ) :
    Except IoError ℕ × FlatDevice :=
  let d' := { d with accesses := d.accesses + 1 }
  match d.faults d.accesses with
  | none => (.ok (buffer.length / bs), { d' with bytes := patch d.bytes (block * bs) buffer })
  | some (e, k) =>
    (.error e, { d' with bytes := patch d.bytes (block * bs) (buffer.take (k * bs)) })

end FlatDevice

/-! ### The transfers of a range of bytes -/

structure BlockByteTransfer where
  byteRangeAbsolute : ByteRange
  blockRange : ByteRange
  bytesInBlockRange : ByteRange
  deriving DecidableEq, Repr

/-- `round_down` -/
def roundDown (value multiple : ℕ) : ℕ := value / multiple * multiple

/-- `next_multiple_of` -/
def nextMultipleOf (value multiple : ℕ) : ℕ := (value + (multiple - 1)) / multiple * multiple

/-- The loop of `blocks_from_bytes`, with the number of free places in the array of transfers. It
panics when it needs another one. -/
def blocksLoop (bs stop : ℕ) : ℕ → ℕ → Option (List BlockByteTransfer)
  | 0, currByte => if currByte < stop then none else some []
  | slots + 1, currByte =>
    if currByte < stop then
      let currBlock := currByte / bs
      let offsetIntoCurrBlock := currByte % bs
      if offsetIntoCurrBlock = 0 then
        if stop % bs = 0 then
          let lastBlock := stop / bs
          some [⟨⟨currByte, stop⟩, ⟨currBlock, lastBlock⟩, ⟨0, (lastBlock - currBlock) * bs⟩⟩]
        else
          let endByte := if bs < stop - currByte then roundDown stop bs else stop
          (blocksLoop bs stop slots endByte).map (⟨⟨currByte, endByte⟩,
            ⟨currBlock, nextMultipleOf endByte bs / bs⟩, ⟨0, endByte - currByte⟩⟩ :: ·)
      else
        let endByte := min stop (nextMultipleOf currByte bs)
        (blocksLoop bs stop slots endByte).map (⟨⟨currByte, endByte⟩,
          ⟨currBlock, currBlock + 1⟩,
          ⟨offsetIntoCurrBlock, offsetIntoCurrBlock + (endByte - currByte)⟩⟩ :: ·)
    else some []

/-- `blocks_from_bytes` -/
def blocksFromBytes (range : ByteRange) (bs : ℕ) : Option (List BlockByteTransfer) :=
  blocksLoop bs range.stop 3 range.start

/-- The transfer is aligned to blocks on both sides. -/
def BlockByteTransfer.direct (bs : ℕ) (t : BlockByteTransfer) : Bool :=
  t.bytesInBlockRange.start % bs == 0 && t.bytesInBlockRange.stop % bs == 0

/-- A transfer of some bytes: whole blocks, or a part of one. -/
structure BlockByteTransfer.Ok (bs : ℕ) (t : BlockByteTransfer) : Prop where
  start_lt : t.byteRangeAbsolute.start < t.byteRangeAbsolute.stop
  start_eq : t.blockRange.start * bs + t.bytesInBlockRange.start = t.byteRangeAbsolute.start
  stop_eq : t.bytesInBlockRange.stop =
    t.bytesInBlockRange.start + (t.byteRangeAbsolute.stop - t.byteRangeAbsolute.start)
  shape : (t.direct bs = true ∧ t.bytesInBlockRange.start = 0) ∨
    (t.direct bs = false ∧ t.blockRange.stop = t.blockRange.start + 1 ∧
      t.bytesInBlockRange.stop ≤ bs)

/-- The transfers cover the bytes from `curr` to `stop`, one after the other. -/
def Plan (bs stop : ℕ) : ℕ → List BlockByteTransfer → Prop
  | curr, [] => curr = stop
  | curr, t :: ts => t.Ok bs ∧ t.byteRangeAbsolute.start = curr ∧
      t.byteRangeAbsolute.stop ≤ stop ∧ Plan bs stop t.byteRangeAbsolute.stop ts

theorem roundDown_add_mod (value bs : ℕ) : roundDown value bs + value % bs = value := by
  rw [roundDown, mul_comm]
  exact div_add_mod value bs

/-- The transfer of a range of bytes: the blocks that they are in, and where in these. -/
def transferOf (bs : ℕ) (range : ByteRange) : BlockByteTransfer :=
  ⟨range, ⟨range.start / bs, nextMultipleOf range.stop bs / bs⟩,
    ⟨range.start % bs, range.start % bs + (range.stop - range.start)⟩⟩

/-- There are bytes in the range, which are whole blocks or in one block. -/
structure ByteRange.InBlocks (bs : ℕ) (range : ByteRange) : Prop where
  start_lt : range.start < range.stop
  whole : range.start % bs = 0 ∧ range.stop % bs = 0 ∨ range.stop ≤ roundDown range.start bs + bs

section Plan

variable {bs stop curr : ℕ} (hbs : 0 < bs) {range : ByteRange}

include hbs

theorem nextMultipleOf_eq {q value : ℕ} (hlt : q * bs < value) (hle : value ≤ (q + 1) * bs) :
    nextMultipleOf value bs = (q + 1) * bs := by
  rw [nextMultipleOf, Nat.div_eq_of_lt_le (k := q + 1)]
  · rw [succ_mul] at hle ⊢
    omega
  · rw [succ_mul (q + 1)]
    omega

/-- In one block, the range of blocks is that block. -/
theorem stop_of_le (hlt : range.start < range.stop)
    (hle : range.stop ≤ roundDown range.start bs + bs) :
    (transferOf bs range).blockRange.stop = range.start / bs + 1 := by
  have hround := roundDown_add_mod range.start bs
  rw [roundDown] at hround hle
  rw [transferOf, nextMultipleOf_eq hbs (q := range.start / bs) (by omega) (by rwa [succ_mul]),
    Nat.mul_div_cancel _ hbs]

theorem ByteRange.InBlocks.ok (h : range.InBlocks bs) : (transferOf bs range).Ok bs := by
  have hround := roundDown_add_mod range.start bs
  have hlt := h.start_lt
  have hdirect : (transferOf bs range).direct bs = true ↔
      range.start % bs = 0 ∧ range.stop % bs = 0 := by
    simp only [BlockByteTransfer.direct, transferOf, Bool.and_eq_true, beq_iff_eq, mod_mod]
    refine and_congr_right fun hstart => ?_
    rw [hstart, zero_add, ← dvd_iff_mod_eq_zero, ← dvd_iff_mod_eq_zero,
      dvd_sub_iff_left hlt.le (dvd_of_mod_eq_zero hstart)]
  refine ⟨hlt, hround, rfl, ?_⟩
  by_cases hwhole : range.start % bs = 0 ∧ range.stop % bs = 0
  · exact .inl ⟨hdirect.mpr hwhole, hwhole.1⟩
  · have hle := h.whole.resolve_left hwhole
    refine .inr ⟨Bool.eq_false_iff.mpr (mt hdirect.mp hwhole), stop_of_le hbs hlt hle, ?_⟩
    show range.start % bs + (range.stop - range.start) ≤ bs
    omega

/-- One pass of the loop. -/
theorem blocksLoop_step (hlt : curr < stop) :
    ∃ endByte, ByteRange.InBlocks bs ⟨curr, endByte⟩ ∧ endByte ≤ stop ∧
      (endByte = stop ∨ endByte % bs = 0 ∧ (curr % bs = 0 → stop < endByte + bs)) ∧
      ∀ slots, blocksLoop bs stop (slots + 1) curr =
        (blocksLoop bs stop slots endByte).map (transferOf bs ⟨curr, endByte⟩ :: ·) := by
  have hround := roundDown_add_mod curr bs
  have hmod := mod_lt curr hbs
  by_cases hcurr : curr % bs = 0
  · by_cases hstop : stop % bs = 0
    · refine ⟨stop, ⟨hlt, .inl ⟨hcurr, hstop⟩⟩, le_rfl, .inl rfl, fun slots => ?_⟩
      have hdone : blocksLoop bs stop slots stop = some [] := by
        cases slots with exact if_neg (lt_irrefl stop)
      have hnext : nextMultipleOf stop bs = stop := by
        rw [nextMultipleOf, ← div_add_mod stop bs, hstop, add_zero, mul_add_div hbs,
          Nat.div_eq_of_lt (Nat.sub_lt hbs Nat.one_pos), add_zero, mul_comm]
      simp only [blocksLoop, transferOf, if_pos hlt, hcurr, hstop, if_true, hdone, Option.map_some,
        hnext, Nat.sub_mul, Nat.div_mul_cancel (Nat.dvd_of_mod_eq_zero hstop),
        Nat.div_mul_cancel (Nat.dvd_of_mod_eq_zero hcurr), zero_add]
    · have hlast := roundDown_add_mod stop bs
      have hmod' := mod_lt stop hbs
      refine ⟨if bs < stop - curr then roundDown stop bs else stop, ?_, ?_, ?_, fun slots => ?_⟩
      · split_ifs with hlong
        · exact ⟨by dsimp only; omega, .inl ⟨hcurr, mul_mod_left _ _⟩⟩
        · exact ⟨hlt, .inr (by dsimp only; omega)⟩
      · split_ifs <;> omega
      · split_ifs with hlong
        · exact .inr ⟨mul_mod_left _ _, fun _ => by omega⟩
        · exact .inl rfl
      · simp only [blocksLoop, transferOf, if_pos hlt, hcurr, hstop, if_true, if_false, zero_add]
  · have hnext : nextMultipleOf curr bs = roundDown curr bs + bs := by
      have hle : roundDown curr bs < curr := by omega
      rw [nextMultipleOf_eq hbs hle (by rw [succ_mul, ← roundDown]; omega), succ_mul, roundDown]
    have hend : ByteRange.InBlocks bs ⟨curr, min stop (nextMultipleOf curr bs)⟩ := by
      rw [hnext]
      exact ⟨by dsimp only; omega, .inr (min_le_right _ _)⟩
    refine ⟨min stop (nextMultipleOf curr bs), hend, min_le_left _ _, ?_, fun slots => ?_⟩
    · rcases le_total stop (nextMultipleOf curr bs) with h | h
      · exact .inl (min_eq_left h)
      · rw [min_eq_right h]
        exact .inr ⟨mul_mod_left _ _, fun h => absurd h hcurr⟩
    · have hblock := stop_of_le hbs hend.start_lt (by rw [hnext]; exact min_le_right _ _)
      simp only [blocksLoop, if_pos hlt, if_neg hcurr]
      rw [transferOf] at hblock ⊢
      dsimp only at hblock
      rw [hblock]

/-- The loop ends, and its transfers cover what is left. -/
def Decomposes (bs stop slots curr : ℕ) : Prop :=
  ∃ ts, blocksLoop bs stop slots curr = some ts ∧ Plan bs stop curr ts ∧ ts.length ≤ slots ∧
    ∀ t ∈ ts, ∃ range : ByteRange, range.InBlocks bs ∧ t = transferOf bs range

omit hbs in
theorem decomposes_stop (slots : ℕ) : Decomposes bs stop slots stop := by
  refine ⟨[], ?_, rfl, zero_le _, by simp⟩
  cases slots with exact if_neg (lt_irrefl stop)

theorem decomposes_succ {slots : ℕ} (hle : curr ≤ stop)
    (hrest : ∀ endByte, curr < endByte → endByte ≤ stop → endByte % bs = 0 →
      (curr % bs = 0 → stop < endByte + bs) → Decomposes bs stop slots endByte) :
    Decomposes bs stop (slots + 1) curr := by
  rcases eq_or_lt_of_le hle with rfl | hlt
  · exact decomposes_stop _
  obtain ⟨endByte, hrange, hend, hnext, hstep⟩ := blocksLoop_step hbs hlt
  have h : Decomposes bs stop slots endByte := by
    rcases hnext with rfl | ⟨hmod, hnear⟩
    · exact decomposes_stop slots
    · exact hrest endByte hrange.start_lt hend hmod hnear
  obtain ⟨ts, hts, hplan, hlen, hall⟩ := h
  refine ⟨transferOf bs ⟨curr, endByte⟩ :: ts, by rw [hstep, hts, Option.map_some],
    ⟨hrange.ok hbs, rfl, hend, hplan⟩, succ_le_succ hlen, ?_⟩
  exact List.forall_mem_cons.mpr ⟨⟨_, hrange, rfl⟩, hall⟩

/-- **The array of three transfers is large enough, and the transfers cover the range.** -/
theorem plan_blocksFromBytes {start : ℕ} (hle : start ≤ stop) : Decomposes bs stop 3 start := by
  -- a part of a block, whole blocks, and a part of the last one
  refine decomposes_succ hbs hle fun e₁ _ hle₁ hmod₁ _ => ?_
  refine decomposes_succ hbs hle₁ fun e₂ _ hle₂ hmod₂ hnear => ?_
  refine decomposes_succ hbs hle₂ fun e₃ hlt₃ hle₃ hmod₃ _ => ?_
  have hdvd := dvd_sub (dvd_of_mod_eq_zero hmod₃) (dvd_of_mod_eq_zero hmod₂)
  have := le_of_dvd (by omega) hdvd
  omega

omit hbs in
theorem bytes_of_plan {ts : List BlockByteTransfer} (h : Plan bs stop curr ts) :
    curr ≤ stop ∧ (ts.flatMap fun t => List.range' t.byteRangeAbsolute.start
      (t.byteRangeAbsolute.stop - t.byteRangeAbsolute.start)) = List.range' curr (stop - curr) := by
  induction ts generalizing curr with
  | nil =>
    obtain rfl : curr = stop := h
    exact ⟨le_rfl, by rw [Nat.sub_self]; rfl⟩
  | cons t ts ih =>
    obtain ⟨hok, rfl, -, hplan⟩ := h
    obtain ⟨hle, hbytes⟩ := ih hplan
    have hlt := hok.start_lt
    refine ⟨hlt.le.trans hle, ?_⟩
    rw [List.flatMap_cons, hbytes]
    conv_lhs => rw [← Nat.add_sub_cancel' hlt.le, Nat.add_sub_cancel_left, List.range'_append_1]
    congr 1
    omega

/-- The transfer is of the smallest range of blocks with its bytes, and of one block unless it is
aligned. -/
structure BlockByteTransfer.Smallest (bs : ℕ) (t : BlockByteTransfer) : Prop extends t.Ok bs where
  covers : t.blockRange.start * bs ≤ t.byteRangeAbsolute.start ∧
    t.byteRangeAbsolute.stop ≤ t.blockRange.stop * bs
  smallest : ∀ first last, first * bs ≤ t.byteRangeAbsolute.start →
    t.byteRangeAbsolute.stop ≤ last * bs → first ≤ t.blockRange.start ∧ t.blockRange.stop ≤ last
  one : ¬ (t.byteRangeAbsolute.start % bs = 0 ∧ t.byteRangeAbsolute.stop % bs = 0) →
    t.blockRange.stop = t.blockRange.start + 1

theorem ByteRange.InBlocks.smallest (h : range.InBlocks bs) :
    (transferOf bs range).Smallest bs := by
  have hstop : (transferOf bs range).blockRange.stop = (range.stop + (bs - 1)) / bs :=
    Nat.mul_div_cancel _ hbs
  have hsum := div_add_mod (range.stop + (bs - 1)) bs
  have hmod := mod_lt (range.stop + (bs - 1)) hbs
  refine ⟨h.ok hbs, ⟨?_, ?_⟩, fun first last hfirst hlast => ⟨?_, ?_⟩, fun hnot => ?_⟩
  · exact div_mul_le_self _ _
  · rw [hstop, mul_comm]
    show range.stop ≤ _
    omega
  · exact (le_div_iff_mul_le hbs).mpr hfirst
  · rw [hstop, ← Nat.lt_succ_iff]
    refine Nat.div_lt_of_lt_mul ?_
    rw [Nat.mul_comm, Nat.succ_mul]
    exact lt_of_le_of_lt (Nat.add_le_add_right hlast _) (by omega)
  · exact stop_of_le hbs h.start_lt (h.whole.resolve_left hnot)

/-- **Every range of bytes is decomposed into at most three transfers**, which are of its bytes, one
after the other. -/
theorem blocks_from_bytes_exact (range : ByteRange) :
    ∃ ts, blocksFromBytes range bs = some ts ∧ ts.length ≤ 3 ∧
      (ts.flatMap fun t => List.range' t.byteRangeAbsolute.start
        (t.byteRangeAbsolute.stop - t.byteRangeAbsolute.start)) =
        List.range' range.start (range.stop - range.start) ∧
      ∀ t ∈ ts, t.Smallest bs := by
  rcases le_total range.start range.stop with hle | hle
  · obtain ⟨ts, hts, hplan, hlen, hall⟩ := plan_blocksFromBytes hbs hle
    refine ⟨ts, hts, hlen, (bytes_of_plan hplan).2, fun t ht => ?_⟩
    obtain ⟨range, hrange, rfl⟩ := hall t ht
    exact hrange.smallest hbs
  · refine ⟨[], if_neg (not_lt.mpr hle), zero_le _, ?_, by simp⟩
    rw [Nat.sub_eq_zero_of_le hle]
    rfl

end Plan

theorem blocks_from_bytes_unaligned : ∃ ts, blocksFromBytes ⟨3, 13⟩ 4 = some ts ∧ ts.length ≤ 3 ∧
    (ts.flatMap fun t => List.range' t.byteRangeAbsolute.start
      (t.byteRangeAbsolute.stop - t.byteRangeAbsolute.start)) = List.range' 3 10 ∧
    ∀ t ∈ ts, t.Smallest 4 :=
  blocks_from_bytes_exact (by decide) ⟨3, 13⟩

/-! ### Reading and writing -/

/-- A call in progress: the block in memory, the buffer of the caller and the device. -/
structure Transferring where
  tmp : List UInt8
  buffer : List UInt8
  device : FlatDevice

/-- A part of a slice, or a panic. -/
def slice? (l : List UInt8) (r : ByteRange) : Option (List UInt8) :=
  if r.start ≤ r.stop ∧ r.stop ≤ l.length then some ((l.drop r.start).take (r.stop - r.start))
  else none

/-- `copy_from_slice` into a part of a slice, or a panic. -/
def copyFromSlice (l : List UInt8) (r : ByteRange) (src : List UInt8) : Option (List UInt8) :=
  if r.start ≤ r.stop ∧ r.stop ≤ l.length ∧ src.length = r.stop - r.start then
    some (overwrite 0 l src r.start)
  else none

namespace BlockByteTransfer

def bufferRange (t : BlockByteTransfer) (offset : ℕ) : ByteRange :=
  ⟨t.byteRangeAbsolute.start - offset, t.byteRangeAbsolute.stop - offset⟩

/-- The block in memory, which is made when it is needed first. -/
def tmpBlockBytes (t : BlockByteTransfer) (bs : ℕ) (tmp : List UInt8) : List UInt8 :=
  if tmp.isEmpty then List.replicate (bs * (t.blockRange.stop - t.blockRange.start)) 0 else tmp

/-- One pass of the loop of `read_at`. The result of a transfer of whole blocks is ignored. -/
def read (bs offset : ℕ) (t : BlockByteTransfer) : Act Transferring IoError Unit := fun x =>
  let range := t.bufferRange offset
  if t.direct bs then
    match slice? x.buffer range with
    | none => (.panic, x)
    | some part =>
      let r := x.device.readBlocks bs part t.blockRange.start
      (.ok (), { x with buffer := overwrite 0 x.buffer r.2.1 range.start, device := r.2.2 })
  else
    match x.device.readBlocks bs (t.tmpBlockBytes bs x.tmp) t.blockRange.start with
    | (.error e, tmp, d) => (.err e, { x with tmp := tmp, device := d })
    | (.ok _, tmp, d) =>
      match (slice? tmp t.bytesInBlockRange).bind (copyFromSlice x.buffer range) with
      | none => (.panic, { x with tmp := tmp, device := d })
      | some buffer => (.ok (), ⟨tmp, buffer, d⟩)

/-- One pass of the loop of `write_at`. -/
def write (bs offset : ℕ) (t : BlockByteTransfer) : Act Transferring IoError Unit := fun x =>
  let range := t.bufferRange offset
  if t.direct bs then
    match slice? x.buffer range with
    | none => (.panic, x)
    | some part =>
      (.ok (), { x with device := (x.device.writeBlocks bs part t.blockRange.start).2 })
  else
    match x.device.readBlocks bs (t.tmpBlockBytes bs x.tmp) t.blockRange.start with
    | (.error e, tmp, d) => (.err e, { x with tmp := tmp, device := d })
    | (.ok _, tmp, d) =>
      match (slice? x.buffer range).bind (copyFromSlice tmp t.bytesInBlockRange) with
      | none => (.panic, { x with tmp := tmp, device := d })
      | some tmp =>
        match d.writeBlocks bs tmp t.blockRange.start with
        | (.error e, d) => (.err e, { x with tmp := tmp, device := d })
        | (.ok _, d) => (.ok (), { x with tmp := tmp, device := d })

/-- The loop over the transfers. -/
def forEach (f : BlockByteTransfer → Act Transferring IoError Unit) :
    List BlockByteTransfer → Act Transferring IoError Unit
  | [] => pure ()
  | t :: ts => f t >>= fun _ => forEach f ts

end BlockByteTransfer

/-- The transfers of a request, one after the other. -/
def transferAll (f : BlockByteTransfer → Act Transferring IoError Unit) (bs : ℕ) (d : FlatDevice)
    (buffer : List UInt8) (offset : ℕ) : Outcome IoError ℕ × List UInt8 × FlatDevice :=
  match blocksFromBytes ⟨offset, offset + buffer.length⟩ bs with
  | none => (.panic, buffer, d)
  | some ts =>
    let r := BlockByteTransfer.forEach f ts ⟨[], buffer, d⟩
    (r.1.bind fun _ => .ok buffer.length, r.2.buffer, r.2.device)

/-- `ByteReaderWrapper::read_at` -/
def readAt (bs : ℕ) (d : FlatDevice) (buffer : List UInt8) (offset : ℕ) :
    Outcome IoError ℕ × List UInt8 × FlatDevice :=
  transferAll (BlockByteTransfer.read bs offset) bs d buffer offset

/-- `ByteReaderWriterWrapper::write_at` -/
def writeAt (bs : ℕ) (d : FlatDevice) (buffer : List UInt8) (offset : ℕ) :
    Outcome IoError ℕ × List UInt8 × FlatDevice :=
  transferAll (BlockByteTransfer.write bs offset) bs d buffer offset

end Maios.Storage
