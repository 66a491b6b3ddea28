import Maios.Storage.ByteWrapper

/-!
# The byte-wise wrappers and a flat device

A read that returns has the bytes of the device in its buffer, a write that returns has written
exactly the bytes of its buffer, and a transfer that failed makes the call fail. All this holds as
long as a transfer of whole blocks does not fail alone: the wrappers ignore its result, and only a
part of a block that fails as well makes the call fail.

## Main results

* `read_ends`, `write_ends` — what one transfer does
* `byteWrapper_refines_iff` — when reads and writes are those of a flat device
-/

namespace Maios.Storage

open List BlockByteTransfer Option Nat

/-! ### Bytes and buffers -/

variable {n : ℕ}

section Bytes

variable (f : ℕ → UInt8)

@[simp] theorem length_bytesFrom (a n : ℕ) : (bytesFrom f a n).length = n := by
  rw [bytesFrom, length_map, length_range]

variable {a i : ℕ} {l : List UInt8}

theorem getElem?_bytesFrom (hi : i < n) : (bytesFrom f a n)[i]? = some (f (a + i)) := by
  rw [bytesFrom, getElem?_map, getElem?_range hi, map_some]

theorem bytesFrom_append (a n m : ℕ) :
    bytesFrom f a n ++ bytesFrom f (a + n) m = bytesFrom f a (n + m) := by
  simp only [bytesFrom, range_add, map_append, List.map_map, Function.comp_def, add_assoc]

theorem slice_bytesFrom {m : ℕ} (h : i + m ≤ n) :
    ((bytesFrom f a n).drop i).take m = bytesFrom f (a + i) m := by
  refine ext_getElem? fun j => ?_
  rw [getElem?_take]
  split_ifs with hj
  · rw [getElem?_drop, getElem?_bytesFrom f (by omega), getElem?_bytesFrom f hj, add_assoc]
  · rw [getElem?_eq_none (by rw [length_bytesFrom]; omega)]

variable {f} {x : ℕ}

/-- A byte that is not written, or written with its old value. -/
theorem patch_eq_self (h : a ≤ x → ∀ y, l[x - a]? = some y → y = f x) : patch f a l x = f x := by
  rw [patch]
  split_ifs with hx
  · cases hy : l[x - a]? with
    | none => rfl
    | some y => exact h hx y hy
  · rfl

theorem patch_outside (hx : x < a ∨ a + l.length ≤ x) : patch f a l x = f x := by
  refine patch_eq_self fun hle y hy => ?_
  rw [getElem?_eq_none (by omega)] at hy
  cases hy

theorem patch_patch (a : ℕ) (l l' : List UInt8) :
    patch (patch f a l) (a + l.length) l' = patch f a (l ++ l') := by
  funext x
  rcases lt_or_ge x (a + l.length) with hx | hx
  · rw [patch_outside (.inl hx)]
    simp only [patch]
    split_ifs with hle
    · rw [getElem?_append_left (by omega)]
    · rfl
  · have hle : a ≤ x := by omega
    rw [patch, if_pos hx, patch_outside (.inr hx), patch, if_pos hle,
      getElem?_append_right (by omega), sub_add_eq]

/-- Writing back a part of what was read, changed in the middle. -/
theorem patch_take_overwrite (h : i + l.length ≤ n) (m : ℕ)
    (hx : x < a + i ∨ a + i + l.length ≤ x) :
    patch f a ((overwrite 0 (bytesFrom f a n) l i).take m) x = f x := by
  refine patch_eq_self fun hle y hy => ?_
  rw [getElem?_take] at hy
  split_ifs at hy with hm
  rw [getElem?_overwrite_of_not_mem (by rwa [length_bytesFrom]) (by omega)] at hy
  rcases lt_or_ge (x - a) n with hn | hn
  · rw [getElem?_bytesFrom f hn, Nat.add_sub_cancel' hle] at hy
    exact (some.inj hy).symm
  · rw [getElem?_eq_none (by rwa [length_bytesFrom])] at hy
    cases hy

theorem patch_overwrite (h : i + l.length ≤ n) :
    patch f a (overwrite 0 (bytesFrom f a n) l i) = patch f (a + i) l := by
  funext x
  by_cases hx : x < a + i ∨ a + i + l.length ≤ x
  · rw [patch_outside hx]
    have := patch_take_overwrite (f := f) h (overwrite 0 (bytesFrom f a n) l i).length hx
    rwa [take_length] at this
  · have hle : a + i ≤ x := by omega
    have hin : (overwrite 0 (bytesFrom f a n) l i)[x - a]? = l[x - (a + i)]? := by
      rw [getElem?_overwrite_of_mem (by rwa [length_bytesFrom]) (by omega) (by omega), Nat.sub_sub]
    rw [patch, if_pos (by omega), patch, if_pos hle, hin]

end Bytes

/-! ### Transfers and their accesses -/

namespace BlockByteTransfer

/-- The first byte of a transfer. -/
abbrev first (t : BlockByteTransfer) : ℕ := t.byteRangeAbsolute.start

/-- The end of a transfer. -/
abbrev last (t : BlockByteTransfer) : ℕ := t.byteRangeAbsolute.stop

variable {bs : ℕ} {t : BlockByteTransfer}

theorem Ok.first_lt (h : t.Ok bs) : t.first < t.last := h.start_lt

theorem Ok.first_eq (h : t.Ok bs) :
    t.blockRange.start * bs + t.bytesInBlockRange.start = t.first := h.start_eq

theorem Ok.last_eq (h : t.Ok bs) :
    t.bytesInBlockRange.stop = t.bytesInBlockRange.start + (t.last - t.first) := h.stop_eq

theorem Ok.block_eq (h : t.Ok bs) (hzero : t.bytesInBlockRange.start = 0) :
    t.blockRange.start * bs = t.first := by
  rw [← h.first_eq, hzero, add_zero]

end BlockByteTransfer

/-- The transfers with the number of accesses before each of them, where `cost` is the number of
accesses of a transfer. -/
def schedule (cost : BlockByteTransfer → ℕ) :
    ℕ → List BlockByteTransfer → List (BlockByteTransfer × ℕ)
  | _, [] => []
  | n, t :: ts => (t, n) :: schedule cost (n + cost t) ts

/-- One of the accesses of a transfer fails. -/
def TransferFails (cost : BlockByteTransfer → ℕ) (faults : ℕ → Option (IoError × ℕ))
    (y : BlockByteTransfer × ℕ) : Prop :=
  ∃ j < cost y.1, faults (y.2 + j) ≠ none

/-- A read accesses the device once for every transfer. -/
def readCost (_ : BlockByteTransfer) : ℕ := 1

/-- A write reads a block of which it writes a part. -/
def writeCost (bs : ℕ) (t : BlockByteTransfer) : ℕ := if t.direct bs then 1 else 2

/-- If the transfer of whole blocks fails, then so does a transfer of a part of a block. -/
def FailureReported (cost : BlockByteTransfer → ℕ) (bs : ℕ) (d : FlatDevice) (len offset : ℕ) :
    Prop :=
  ∀ ts, blocksFromBytes ⟨offset, offset + len⟩ bs = some ts →
    (∃ y ∈ schedule cost d.accesses ts, y.1.direct bs = true ∧ TransferFails cost d.faults y) →
    ∃ y ∈ schedule cost d.accesses ts, y.1.direct bs = false ∧ TransferFails cost d.faults y

section Loop

variable {bs stop : ℕ} {cost : BlockByteTransfer → ℕ} {faults : ℕ → Option (IoError × ℕ)}

variable {ts : List BlockByteTransfer}

/-- An access made by the transfers fails, if and only if one of the transfers does: their accesses
are numbered without a gap. -/
theorem exists_fault_iff :
    (∃ k, n ≤ k ∧ k < n + (ts.map cost).sum ∧ faults k ≠ none) ↔
      ∃ y ∈ schedule cost n ts, TransferFails cost faults y := by
  induction ts generalizing n with
  | nil =>
    simp only [schedule, not_mem_nil, false_and, exists_false, iff_false]
    rintro ⟨k, h₁, h₂, -⟩
    exact absurd h₂ (not_lt.mpr h₁)
  | cons t ts ih =>
    simp only [schedule, mem_cons, exists_eq_or_imp, map_cons, sum_cons, ← ih]
    constructor
    · rintro ⟨k, h₁, h₂, hk⟩
      rcases lt_or_ge k (n + cost t) with hlt | hge
      · exact .inl ⟨k - n, by dsimp only; omega, by rwa [Nat.add_sub_cancel' h₁]⟩
      · exact .inr ⟨k, hge, by omega, hk⟩
    · rintro (⟨j, hj, hk⟩ | ⟨k, h₁, h₂, hk⟩)
      · exact ⟨n + j, by omega, by dsimp only at hj; omega, hk⟩
      · exact ⟨k, by omega, by omega, hk⟩

/-- How a transfer may end. `I` holds before and after it, `C` says that the bytes up to a position
are right, and `E` is what an error leaves. -/
def Ends (bs : ℕ) (cost : BlockByteTransfer → ℕ) (faults : ℕ → Option (IoError × ℕ))
    (I C : ℕ → Transferring → Prop) (E : Transferring → Prop) (t : BlockByteTransfer)
    (x : Transferring) (r : Outcome IoError Unit × Transferring) : Prop :=
  (r.1 = .ok () ∧ r.2.device.accesses = x.device.accesses + cost t ∧
    I t.byteRangeAbsolute.stop r.2 ∧
    (t.direct bs = false → ¬TransferFails cost faults (t, x.device.accesses)) ∧
    (C t.byteRangeAbsolute.start x → ¬TransferFails cost faults (t, x.device.accesses) →
      C t.byteRangeAbsolute.stop r.2)) ∨
  ((∃ e, r.1 = .err e) ∧ t.direct bs = false ∧
    TransferFails cost faults (t, x.device.accesses) ∧ E r.2)

variable {f : BlockByteTransfer → Act Transferring IoError Unit}
  {I C : ℕ → Transferring → Prop} {E : Transferring → Prop}

/-- **The rule for the loops over transfers.** The loop ends with the last transfer, after all
transfers of parts of blocks succeeded, or with the first such transfer that failed. -/
theorem forEach_transfers
    (hstep : ∀ t x, t.Ok bs → t.last ≤ stop → I t.first x →
      Ends bs cost faults I C E t x (f t x)) {curr : ℕ} {x : Transferring}
    (hplan : Plan bs stop curr ts) (hI : I curr x) :
    ((forEach f ts x).1 = .ok () ∧
      (forEach f ts x).2.device.accesses =
        x.device.accesses + (ts.map cost).sum ∧
      I stop (forEach f ts x).2 ∧
      (∀ y ∈ schedule cost x.device.accesses ts, y.1.direct bs = false →
        ¬TransferFails cost faults y) ∧
      (C curr x → (∀ y ∈ schedule cost x.device.accesses ts, ¬TransferFails cost faults y) →
        C stop (forEach f ts x).2)) ∨
    ((∃ e, (forEach f ts x).1 = .err e) ∧
      (∃ y ∈ schedule cost x.device.accesses ts, y.1.direct bs = false ∧
        TransferFails cost faults y) ∧
      E (forEach f ts x).2) := by
  induction ts generalizing curr x with
  | nil =>
    obtain rfl : curr = stop := hplan
    exact .inl ⟨rfl, rfl, hI, forall_mem_nil _, fun hC _ => hC⟩
  | cons t ts ih =>
    obtain ⟨hok, rfl, hstop, hrest⟩ := hplan
    rcases hf : f t x with ⟨o, x'⟩
    have hends := hstep t x hok hstop hI
    rw [hf] at hends
    rcases hends with ⟨ho, hacc, hI', hpart, hC⟩ | ⟨⟨e, ho⟩, hdirect, hfails, hE⟩
    · obtain rfl : o = .ok () := ho
      have hloop : forEach f (t :: ts) x = forEach f ts x' :=
        Act.bind_of_ok _ hf
      rw [hloop]
      simp only [schedule, mem_cons, map_cons, sum_cons, forall_eq_or_imp,
        exists_eq_or_imp, ← add_assoc, ← hacc]
      rcases ih hrest hI' with ⟨h₁, h₂, h₃, h₄, h₅⟩ | ⟨h₁, h₂, h₃⟩
      · exact .inl ⟨h₁, h₂, h₃, ⟨hpart, h₄⟩, fun hCx hnone => h₅ (hC hCx hnone.1) hnone.2⟩
      · exact .inr ⟨h₁, .inr h₂, h₃⟩
    · obtain rfl : o = .err e := ho
      have hloop : forEach f (t :: ts) x = (.err e, x') := Act.bind_of_err _ hf
      rw [hloop]
      exact .inr ⟨⟨e, rfl⟩, ⟨_, mem_cons_self, hdirect, hfails⟩, hE⟩

end Loop

/-! ### One transfer -/

theorem readBlocks_cases (bs : ℕ) (d : FlatDevice) (buffer : List UInt8) (block : ℕ) :
    (d.faults d.accesses = none ∧ d.readBlocks bs buffer block =
      (.ok (buffer.length / bs), bytesFrom d.bytes (block * bs) buffer.length,
        { d with accesses := d.accesses + 1 })) ∨
    (d.faults d.accesses ≠ none ∧ ∃ e read, read.length = buffer.length ∧
      d.readBlocks bs buffer block = (.error e, read, { d with accesses := d.accesses + 1 })) := by
  rw [FlatDevice.readBlocks]
  cases hf : d.faults d.accesses with
  | none => exact .inl ⟨rfl, rfl⟩
  | some ek =>
    refine .inr ⟨some_ne_none _, ek.1, _, ?_, rfl⟩
    rw [length_append, length_bytesFrom, length_drop]
    omega

theorem writeBlocks_cases (bs : ℕ) (d : FlatDevice) (buffer : List UInt8) (block : ℕ) :
    (d.faults d.accesses = none ∧ d.writeBlocks bs buffer block =
      (.ok (buffer.length / bs), { d with
        accesses := d.accesses + 1, bytes := patch d.bytes (block * bs) buffer })) ∨
    (d.faults d.accesses ≠ none ∧ ∃ e m, d.writeBlocks bs buffer block =
      (.error e, { d with
        accesses := d.accesses + 1, bytes := patch d.bytes (block * bs) (buffer.take m) })) := by
  rw [FlatDevice.writeBlocks]
  cases hf : d.faults d.accesses with
  | none => exact .inl ⟨rfl, rfl⟩
  | some ek => exact .inr ⟨some_ne_none _, ek.1, _, rfl⟩

/-- What stays the same during a call: the length of the buffer, the size of the block in memory and
the faults of the device. -/
structure InCall (bs offset stop : ℕ) (faults : ℕ → Option (IoError × ℕ)) (curr : ℕ)
    (x : Transferring) : Prop where
  offset_le : offset ≤ curr
  length_buffer : x.buffer.length = stop - offset
  tmp : x.tmp = [] ∨ x.tmp.length = bs
  faults_eq : x.device.faults = faults

section Step

variable {bs offset stop : ℕ} {faults : ℕ → Option (IoError × ℕ)} {t : BlockByteTransfer}
  {x : Transferring}

variable {src : List UInt8} {bytes : ℕ → UInt8} {cost : BlockByteTransfer → ℕ}

theorem transferFails_one (hcost : cost t = 1) :
    TransferFails cost faults (t, n) ↔ faults n ≠ none := by
  simp only [TransferFails, hcost, lt_one_iff, exists_eq_left, add_zero]

theorem transferFails_two (hcost : cost t = 2) :
    TransferFails cost faults (t, n) ↔ faults n ≠ none ∨ faults (n + 1) ≠ none := by
  simp only [TransferFails, hcost, Nat.lt_succ_iff_lt_or_eq, or_and_right, exists_or,
    exists_eq_left, Nat.add_zero, Nat.not_lt_zero, false_or]

/-- A transfer of whole blocks that fails goes on. -/
theorem ends_direct {I C : ℕ → Transferring → Prop} {E : Transferring → Prop}
    {r : Outcome IoError Unit × Transferring} (hdirect : t.direct bs = true) (hcost : cost t = 1)
    (hr : r.1 = .ok ()) (hacc : r.2.device.accesses = x.device.accesses + 1) (hI : I t.last r.2)
    (hC : faults x.device.accesses = none → C t.first x → C t.last r.2) :
    Ends bs cost faults I C E t x r := by
  rw [Ends, transferFails_one hcost, hcost, hdirect, not_not]
  exact .inl ⟨hr, hacc, hI, nofun, fun hCx hnone => hC hnone hCx⟩

/-- The bytes of the buffer that a transfer is about. -/
def BlockByteTransfer.part (t : BlockByteTransfer) (offset : ℕ) (buffer : List UInt8) :
    List UInt8 :=
  (buffer.drop (t.byteRangeAbsolute.start - offset)).take
    (t.byteRangeAbsolute.stop - t.byteRangeAbsolute.start)

theorem part_eq (t : BlockByteTransfer) (offset : ℕ) (buffer : List UInt8) :
    t.part offset buffer = (buffer.drop (t.first - offset)).take (t.last - t.first) := rfl

namespace InCall

variable (hx : InCall bs offset stop faults t.first x) (hok : t.Ok bs) (hstop : t.last ≤ stop)

include hx hok hstop

theorem bounds : offset ≤ t.first ∧ t.first < t.last ∧ t.last - offset ≤ x.buffer.length := by
  have hlen := hx.length_buffer
  exact ⟨hx.offset_le, hok.first_lt, by omega⟩

theorem length_part : (t.part offset x.buffer).length = t.last - t.first := by
  have hb := hx.bounds hok hstop
  rw [part_eq, length_take, length_drop]
  omega

theorem slice_buffer : slice? x.buffer (t.bufferRange offset) = some (t.part offset x.buffer) := by
  have hb := hx.bounds hok hstop
  have hrange : (t.bufferRange offset).stop - (t.bufferRange offset).start = t.last - t.first := by
    show t.last - offset - (t.first - offset) = _
    omega
  rw [slice?, if_pos ⟨Nat.sub_le_sub_right hb.2.1.le _, hb.2.2⟩, hrange]
  rfl

theorem copy_to_buffer (hsrc : src.length = t.last - t.first) :
    copyFromSlice x.buffer (t.bufferRange offset) src =
      some (overwrite 0 x.buffer src (t.first - offset)) := by
  have hb := hx.bounds hok hstop
  refine if_pos ⟨Nat.sub_le_sub_right hb.2.1.le _, hb.2.2, ?_⟩
  show src.length = t.last - offset - (t.first - offset)
  omega

theorem overwrite_inside_buffer (hsrc : src.length = t.last - t.first) :
    t.first - offset + src.length ≤ x.buffer.length := by
  have hb := hx.bounds hok hstop
  omega

omit hok hstop

theorem length_tmp (hblock : t.blockRange.stop = t.blockRange.start + 1) :
    (t.tmpBlockBytes bs x.tmp).length = bs := by
  rw [tmpBlockBytes]
  rcases hx.tmp with h | h
  · rw [h, isEmpty_nil, if_pos rfl, length_replicate, hblock, Nat.add_sub_cancel_left, Nat.mul_one]
  · split_ifs with hempty
    · rw [length_replicate, hblock, Nat.add_sub_cancel_left, Nat.mul_one]
    · exact h

end InCall

/-- The bytes of the device that are right in the buffer of a read. -/
def ReadUpTo (offset : ℕ) (bytes : ℕ → UInt8) (curr : ℕ) (x : Transferring) : Prop :=
  x.buffer.take (curr - offset) = bytesFrom bytes offset (curr - offset)

/-- A call of `read_at`. -/
def InRead (bs offset stop : ℕ) (faults : ℕ → Option (IoError × ℕ)) (bytes : ℕ → UInt8)
    (curr : ℕ) (x : Transferring) : Prop :=
  InCall bs offset stop faults curr x ∧ x.device.bytes = bytes

/-- The part of the buffer that a transfer fills, and what follows for the read so far. -/
theorem readUpTo_overwrite (hx : InCall bs offset stop faults t.first x) (hok : t.Ok bs)
    (hstop : t.last ≤ stop) (hsrc : src = bytesFrom bytes t.first (t.last - t.first))
    (hC : ReadUpTo offset bytes t.first x) (tmp : List UInt8) (d : FlatDevice) :
    ReadUpTo offset bytes t.last ⟨tmp, overwrite 0 x.buffer src (t.first - offset), d⟩ := by
  have hlen : src.length = t.last - t.first := by rw [hsrc, length_bytesFrom]
  have hin := hx.overwrite_inside_buffer hok hstop hlen
  have h₁ := hx.offset_le
  have h₂ := hok.first_lt
  have hsplit : t.last - offset = (x.buffer.take (t.first - offset) ++ src).length := by
    rw [length_append, length_take]
    omega
  have hbytes : t.last - offset = t.first - offset + (t.last - t.first) := by omega
  have hpos : offset + (t.first - offset) = t.first := by omega
  rw [ReadUpTo] at hC ⊢
  rw [overwrite_inside hin, ← append_assoc, hsplit, take_left' rfl, ← hsplit, hC, hsrc,
    hbytes, ← bytesFrom_append, hpos]

theorem read_ends (hok : t.Ok bs) (hstop : t.last ≤ stop)
    (hx : InRead bs offset stop faults bytes t.first x) :
    Ends bs readCost faults (InRead bs offset stop faults bytes) (ReadUpTo offset bytes)
      (fun x' => x'.device.bytes = bytes) t x (t.read bs offset x) := by
  obtain ⟨hx, rfl⟩ := hx
  have hfaults := hx.faults_eq
  have hle := le_trans hx.offset_le (le_of_lt hok.first_lt)
  rw [← hfaults]
  -- The state after filling a part of the buffer.
  have hfilled : ∀ {src tmp : List UInt8}, (tmp = [] ∨ tmp.length = bs) →
      src.length = t.last - t.first →
      InRead bs offset stop x.device.faults x.device.bytes t.last
        ⟨tmp, overwrite 0 x.buffer src (t.first - offset),
          { x.device with accesses := x.device.accesses + 1 }⟩ := by
    intro src tmp htmp hsrc
    refine ⟨⟨hle, ?_, htmp, rfl⟩, rfl⟩
    rw [length_overwrite, max_eq_left (hx.overwrite_inside_buffer hok hstop hsrc)]
    exact hx.length_buffer
  rcases hok.shape with ⟨hdirect, hzero⟩ | ⟨hdirect, hblock, hin⟩
  · have hlen := hx.length_part hok hstop
    have hval : t.read bs offset x = (.ok (), { x with
        buffer := overwrite 0 x.buffer (x.device.readBlocks bs (t.part offset x.buffer)
          t.blockRange.start).2.1 (t.first - offset)
        device := (x.device.readBlocks bs (t.part offset x.buffer) t.blockRange.start).2.2 }) := by
      rw [BlockByteTransfer.read, if_pos hdirect, hx.slice_buffer hok hstop]
      rfl
    rw [hval]
    rcases readBlocks_cases bs x.device (t.part offset x.buffer) t.blockRange.start with
      ⟨-, hread⟩ | ⟨hsome, e, read, hread_len, hread⟩ <;> rw [hread]
    · refine ends_direct hdirect rfl rfl rfl (hfilled hx.tmp (by rw [length_bytesFrom, hlen])) ?_
      intro _ hC
      exact readUpTo_overwrite hx hok hstop (by rw [hlen, hok.block_eq hzero]) hC _ _
    · exact ends_direct hdirect rfl rfl rfl (hfilled hx.tmp (hread_len.trans hlen))
        fun hnone => absurd hnone hsome
  · rw [Ends, transferFails_one rfl]
    rcases readBlocks_cases bs x.device (t.tmpBlockBytes bs x.tmp) t.blockRange.start with
      ⟨hnone, hread⟩ | ⟨hsome, e, read, -, hread⟩
    · have hstop_eq := hok.last_eq
      have hslice : slice? (bytesFrom x.device.bytes (t.blockRange.start * bs) bs)
          t.bytesInBlockRange = some (bytesFrom x.device.bytes t.first (t.last - t.first)) := by
        rw [slice?, if_pos ⟨by omega, by rw [length_bytesFrom]; exact hin⟩, hstop_eq,
          Nat.add_sub_cancel_left, slice_bytesFrom _ (by omega), hok.first_eq]
      have hval : t.read bs offset x = (.ok (),
          ⟨bytesFrom x.device.bytes (t.blockRange.start * bs) bs,
            overwrite 0 x.buffer (bytesFrom x.device.bytes t.first (t.last - t.first))
              (t.first - offset), { x.device with accesses := x.device.accesses + 1 }⟩) := by
        simp only [BlockByteTransfer.read, hdirect, Bool.false_eq_true, if_false, hread,
          hx.length_tmp hblock, hslice, bind_some,
          hx.copy_to_buffer hok hstop (length_bytesFrom _ _ _)]
      rw [hval]
      refine .inl ⟨rfl, rfl, hfilled (.inr (length_bytesFrom _ _ _)) (length_bytesFrom _ _ _),
        fun _ h => h hnone, ?_⟩
      intro hC _
      exact readUpTo_overwrite hx hok hstop rfl hC _ _
    · have hval : t.read bs offset x = (.err e, ⟨read, x.buffer,
          { x.device with accesses := x.device.accesses + 1 }⟩) := by
        simp only [BlockByteTransfer.read, hdirect, Bool.false_eq_true, if_false, hread]
      rw [hval]
      exact .inr ⟨⟨e, rfl⟩, hdirect, hsome, rfl⟩

/-- A call of `write_at`: its buffer and the bytes outside of its range are as before. -/
structure InWrite (bs offset stop : ℕ) (faults : ℕ → Option (IoError × ℕ)) (bytes : ℕ → UInt8)
    (buffer : List UInt8) (curr : ℕ) (x : Transferring) : Prop where
  inCall : InCall bs offset stop faults curr x
  buffer_eq : x.buffer = buffer
  outside : ∀ y, y < offset ∨ stop ≤ y → x.device.bytes y = bytes y

/-- The bytes of the buffer that a write has written. -/
def WrittenUpTo (offset : ℕ) (bytes : ℕ → UInt8) (buffer : List UInt8) (curr : ℕ)
    (x : Transferring) : Prop :=
  x.device.bytes = patch bytes offset (buffer.take (curr - offset))

theorem writtenUpTo_patch (hx : InCall bs offset stop faults t.first x) (hok : t.Ok bs)
    (hstop : t.last ≤ stop) (hC : WrittenUpTo offset bytes x.buffer t.first x) {x' : Transferring}
    (hx' : x'.device.bytes = patch x.device.bytes t.first (t.part offset x.buffer)) :
    WrittenUpTo offset bytes x.buffer t.last x' := by
  have h₁ := hx.offset_le
  have h₂ := hok.first_lt
  have h₃ := hx.length_buffer
  have hpos : t.first = offset + (x.buffer.take (t.first - offset)).length := by
    rw [length_take]
    omega
  have htake : x.buffer.take (t.first - offset) ++ t.part offset x.buffer =
      x.buffer.take (t.last - offset) := by
    rw [part_eq, ← take_add]
    congr 1
    omega
  rw [WrittenUpTo] at hC ⊢
  rw [hx', hC, ← htake, ← patch_patch, ← hpos]

/-- The block in memory, after the part of the buffer was copied into it. -/
def BlockByteTransfer.patched (bs offset : ℕ) (t : BlockByteTransfer) (x : Transferring) :
    List UInt8 :=
  overwrite 0 (bytesFrom x.device.bytes (t.blockRange.start * bs) bs) (t.part offset x.buffer)
    t.bytesInBlockRange.start

namespace InCall

variable (hx : InCall bs offset stop faults t.first x) (hok : t.Ok bs) (hstop : t.last ≤ stop)
  (hin : t.bytesInBlockRange.stop ≤ bs)

include hx hok hstop hin

theorem part_fits : t.bytesInBlockRange.start + (t.part offset x.buffer).length ≤ bs := by
  have hlt := hok.first_lt
  have hlen := hx.length_part hok hstop
  have hstop_eq := hok.last_eq
  omega

theorem length_patched : (t.patched bs offset x).length = bs := by
  rw [patched, length_overwrite, length_bytesFrom, max_eq_left (hx.part_fits hok hstop hin)]

theorem copy_to_block : copyFromSlice (bytesFrom x.device.bytes (t.blockRange.start * bs) bs)
    t.bytesInBlockRange (t.part offset x.buffer) = some (t.patched bs offset x) := by
  have hlt := hok.first_lt
  have hlen := hx.length_part hok hstop
  have hstop_eq := hok.last_eq
  refine if_pos ⟨?_, ?_, ?_⟩
  · omega
  · rw [length_bytesFrom]
    exact hin
  · omega

/-- The ends of a write of a part of a block: the block cannot be read, it is written, or only a
part of it is. -/
theorem write_part_cases (hdirect : t.direct bs = false)
    (hblock : t.blockRange.stop = t.blockRange.start + 1) :
    (x.device.faults x.device.accesses ≠ none ∧ ∃ e read, t.write bs offset x =
      (.err e, ⟨read, x.buffer, { x.device with accesses := x.device.accesses + 1 }⟩)) ∨
    (x.device.faults x.device.accesses = none ∧ x.device.faults (x.device.accesses + 1) = none ∧
      t.write bs offset x = (.ok (), ⟨t.patched bs offset x, x.buffer, { x.device with
        accesses := x.device.accesses + 1 + 1
        bytes := patch x.device.bytes t.first (t.part offset x.buffer) }⟩)) ∨
    (x.device.faults (x.device.accesses + 1) ≠ none ∧ ∃ e m, t.write bs offset x =
      (.err e, ⟨t.patched bs offset x, x.buffer, { x.device with
        accesses := x.device.accesses + 1 + 1
        bytes := patch x.device.bytes (t.blockRange.start * bs)
          ((t.patched bs offset x).take m) }⟩)) := by
  have hslice := hx.slice_buffer hok hstop
  have hcopy := hx.copy_to_block hok hstop hin
  have hfits := hx.part_fits hok hstop hin
  rcases readBlocks_cases bs x.device (t.tmpBlockBytes bs x.tmp) t.blockRange.start with
    ⟨hnone, hread⟩ | ⟨hsome, e, read, -, hread⟩
  · rcases writeBlocks_cases bs { x.device with accesses := x.device.accesses + 1 }
        (t.patched bs offset x) t.blockRange.start with
      ⟨hnone', hwrite⟩ | ⟨hsome, e, m, hwrite⟩
    · refine .inr (.inl ⟨hnone, hnone', ?_⟩)
      simp only [write, hdirect, Bool.false_eq_true, if_false, hread, hx.length_tmp hblock, hslice,
        bind_some, hcopy, hwrite]
      rw [patched, patch_overwrite hfits, hok.first_eq]
    · refine .inr (.inr ⟨hsome, e, m, ?_⟩)
      simp only [write, hdirect, Bool.false_eq_true, if_false, hread, hx.length_tmp hblock, hslice,
        bind_some, hcopy, hwrite]
  · refine .inl ⟨hsome, e, read, ?_⟩
    simp only [write, hdirect, Bool.false_eq_true, if_false, hread]

end InCall

theorem write_ends {buffer : List UInt8} (hok : t.Ok bs) (hstop : t.last ≤ stop)
    (hx : InWrite bs offset stop faults bytes buffer t.first x) :
    Ends bs (writeCost bs) faults (InWrite bs offset stop faults bytes buffer)
      (WrittenUpTo offset bytes buffer)
      (fun x' => ∀ y, y < offset ∨ stop ≤ y → x'.device.bytes y = bytes y) t x
      (t.write bs offset x) := by
  obtain ⟨hx, rfl, hout⟩ := hx
  have hfaults := hx.faults_eq
  have hlt := hok.first_lt
  have hoff := hx.offset_le
  have hlen := hx.length_part hok hstop
  rw [← hfaults]
  -- A write that changes nothing but bytes of the transfer leaves the bytes outside alone.
  have hkept : ∀ {f : ℕ → UInt8}, (∀ y, y < t.first ∨ t.last ≤ y → f y = x.device.bytes y) →
      ∀ y, y < offset ∨ stop ≤ y → f y = bytes y := by
    intro f hf y hy
    rw [hf y (by omega), hout y hy]
  have hcall : ∀ {tmp : List UInt8} {d : FlatDevice}, (tmp = [] ∨ tmp.length = bs) →
      d.faults = x.device.faults →
      InCall bs offset stop x.device.faults t.last ⟨tmp, x.buffer, d⟩ :=
    fun htmp hd => ⟨by omega, hx.length_buffer, htmp, hd⟩
  rcases hok.shape with ⟨hdirect, hzero⟩ | ⟨hdirect, hblock, hin⟩
  · have hcost : writeCost bs t = 1 := if_pos hdirect
    have hval : t.write bs offset x = (.ok (), { x with
        device := (x.device.writeBlocks bs (t.part offset x.buffer) t.blockRange.start).2 }) := by
      rw [write, if_pos hdirect, hx.slice_buffer hok hstop]
    rw [hval]
    rcases writeBlocks_cases bs x.device (t.part offset x.buffer) t.blockRange.start with
      ⟨-, hwrite⟩ | ⟨hsome, e, m, hwrite⟩ <;> rw [hwrite, hok.block_eq hzero]
    · exact ends_direct hdirect hcost rfl rfl
        ⟨hcall hx.tmp rfl, rfl, hkept fun y hy => patch_outside (by omega)⟩
        fun _ hC => writtenUpTo_patch hx hok hstop hC rfl
    · refine ends_direct hdirect hcost rfl rfl
        ⟨hcall hx.tmp rfl, rfl, hkept fun y hy => patch_outside ?_⟩ fun hnone => absurd hnone hsome
      rw [length_take]
      omega
  · have hcost : writeCost bs t = 2 := if_neg (by rw [hdirect]; exact Bool.false_ne_true)
    rw [Ends, transferFails_two hcost, hcost]
    rcases hx.write_part_cases hok hstop hin hdirect hblock with
      ⟨hsome, e, read, hval⟩ | ⟨hnone, hnone', hval⟩ | ⟨hsome, e, m, hval⟩ <;> rw [hval]
    · exact .inr ⟨⟨e, rfl⟩, hdirect, .inl hsome, hout⟩
    · refine .inl ⟨rfl, rfl, ⟨hcall (.inr (hx.length_patched hok hstop hin)) rfl, rfl,
        hkept fun y hy => patch_outside (by omega)⟩, ?_, ?_⟩
      · rintro _ (h | h)
        · exact h hnone
        · exact h hnone'
      · intro hC _
        exact writtenUpTo_patch hx hok hstop hC rfl
    · refine .inr ⟨⟨e, rfl⟩, hdirect, .inr hsome, ?_⟩
      refine hkept fun y hy => patch_take_overwrite (hx.part_fits hok hstop hin) m ?_
      rw [hok.first_eq]
      omega

end Step

/-! ### Whole calls -/

/-- If an access made by a call fails, then the call returns an error. -/
def Reports (d : FlatDevice) (r : Outcome IoError ℕ × List UInt8 × FlatDevice) : Prop :=
  (∃ k, d.accesses ≤ k ∧ k < r.2.2.accesses ∧ d.faults k ≠ none) → ∃ e, r.1 = .err e

/-- A read does what a read of a flat device does. -/
structure ReadRefines (bs : ℕ) (d : FlatDevice) (buffer : List UInt8) (offset : ℕ) : Prop where
  ne_panic : (readAt bs d buffer offset).1 ≠ .panic
  ok : ∀ n, (readAt bs d buffer offset).1 = .ok n → n = buffer.length ∧
    (readAt bs d buffer offset).2.1 = bytesFrom d.bytes offset buffer.length
  unchanged : (readAt bs d buffer offset).2.2.bytes = d.bytes
  reports : Reports d (readAt bs d buffer offset)

/-- A write does what a write of a flat device does. -/
structure WriteRefines (bs : ℕ) (d : FlatDevice) (buffer : List UInt8) (offset : ℕ) : Prop where
  ne_panic : (writeAt bs d buffer offset).1 ≠ .panic
  ok : ∀ n, (writeAt bs d buffer offset).1 = .ok n → n = buffer.length ∧
    (writeAt bs d buffer offset).2.2.bytes = patch d.bytes offset buffer
  unchanged : ∀ y, y < offset ∨ offset + buffer.length ≤ y →
    (writeAt bs d buffer offset).2.2.bytes y = d.bytes y
  reports : Reports d (writeAt bs d buffer offset)

section Calls

variable {bs : ℕ} (hbs : 0 < bs) {cost : BlockByteTransfer → ℕ} {d : FlatDevice}
  {buffer : List UInt8} {offset : ℕ} {f : BlockByteTransfer → Act Transferring IoError Unit}
  {I C : ℕ → Transferring → Prop} {E : Transferring → Prop}
  (hstep : ∀ t x, t.Ok bs → t.last ≤ offset + buffer.length →
    I t.first x → Ends bs cost d.faults I C E t x (f t x))
  (hI : I offset ⟨[], buffer, d⟩) (hC : C offset ⟨[], buffer, d⟩)

include hbs hstep hI hC

/-- How a call may end. It reports its failures if and only if a failed transfer of whole blocks
is not the only one that failed. If it does and returns, then all bytes are right. -/
theorem transferAll_cases :
    (Reports d (transferAll f bs d buffer offset) ↔
      FailureReported cost bs d buffer.length offset) ∧
    ((∃ x, transferAll f bs d buffer offset = (.ok buffer.length, x.buffer, x.device) ∧
        I (offset + buffer.length) x ∧ (FailureReported cost bs d buffer.length offset →
          C (offset + buffer.length) x)) ∨
      ∃ e x, transferAll f bs d buffer offset = (.err e, x.buffer, x.device) ∧ E x) := by
  obtain ⟨ts, hts, hplan, -⟩ := plan_blocksFromBytes hbs (le_add_right offset buffer.length)
  have hrep : FailureReported cost bs d buffer.length offset ↔
      ((∃ y ∈ schedule cost d.accesses ts, y.1.direct bs = true ∧
        TransferFails cost d.faults y) →
      ∃ y ∈ schedule cost d.accesses ts, y.1.direct bs = false ∧
        TransferFails cost d.faults y) := by
    refine ⟨fun h => h ts hts, fun h ts' hts' => ?_⟩
    obtain rfl : ts = ts' := some.inj (hts.symm.trans hts')
    exact h
  have hcall : transferAll f bs d buffer offset =
      ((forEach f ts ⟨[], buffer, d⟩).1.bind fun _ => .ok buffer.length,
        (forEach f ts ⟨[], buffer, d⟩).2.buffer,
        (forEach f ts ⟨[], buffer, d⟩).2.device) := by
    rw [transferAll, blocksFromBytes, hts]
  rw [hrep, Reports, hcall]
  rcases forEach_transfers hstep hplan hI with
    ⟨hok, hacc, hI', hpart, hC'⟩ | ⟨⟨e, herr⟩, hfails, hE⟩
  · rw [hok, hacc]
    -- All failures, if there are any, are of transfers of whole blocks.
    have hdirect : (∃ y ∈ schedule cost d.accesses ts, TransferFails cost d.faults y) ↔
        ∃ y ∈ schedule cost d.accesses ts, y.1.direct bs = true ∧
          TransferFails cost d.faults y := by
      constructor
      · rintro ⟨y, hy, hfails⟩
        exact ⟨y, hy, Bool.eq_true_of_not_eq_false fun h => hpart y hy h hfails, hfails⟩
      · rintro ⟨y, hy, -, hfails⟩
        exact ⟨y, hy, hfails⟩
    have hnone : ¬∃ y ∈ schedule cost d.accesses ts, y.1.direct bs = false ∧
        TransferFails cost d.faults y := by
      rintro ⟨y, hy, hdirect, hfails⟩
      exact hpart y hy hdirect hfails
    refine ⟨?_, .inl ⟨_, rfl, hI', ?_⟩⟩
    · rw [exists_fault_iff, hdirect]
      refine ⟨fun h hy => ?_, fun h hy => absurd (h hy) hnone⟩
      obtain ⟨e, he⟩ := h hy
      cases he
    · intro h
      refine hC' hC fun y hy hfails => hnone (h (hdirect.mp ⟨y, hy, hfails⟩))
  · rw [herr]
    exact ⟨⟨fun _ _ => hfails, fun _ _ => ⟨e, rfl⟩⟩, .inr ⟨e, _, rfl, hE⟩⟩

end Calls

section Refines

variable {bs : ℕ} (hbs : 0 < bs) (d : FlatDevice) (buffer : List UInt8) (offset : ℕ)

theorem inCall_start : InCall bs offset (offset + buffer.length) d.faults offset ⟨[], buffer, d⟩ :=
  ⟨le_rfl, (Nat.add_sub_cancel_left _ _).symm, .inl rfl, rfl⟩

include hbs

theorem readRefines_iff :
    ReadRefines bs d buffer offset ↔ FailureReported readCost bs d buffer.length offset := by
  have hstart : ReadUpTo offset d.bytes offset ⟨[], buffer, d⟩ := by
    rw [ReadUpTo, Nat.sub_self]
    rfl
  obtain ⟨hreports, hcases⟩ := transferAll_cases hbs
    (fun t x hok hstop hx => read_ends hok hstop hx) ⟨inCall_start d buffer offset, rfl⟩ hstart
  refine ⟨fun h => hreports.mp h.reports, fun h => ?_⟩
  rcases hcases with ⟨x, hval, ⟨hcall, hbytes⟩, hdone⟩ | ⟨e, x, hval, hbytes⟩
  · have hlen := hcall.length_buffer
    have hfull := hdone h
    rw [ReadUpTo, Nat.add_sub_cancel_left] at hfull
    rw [Nat.add_sub_cancel_left] at hlen
    refine ⟨?_, ?_, ?_, hreports.mpr h⟩ <;> rw [readAt, hval]
    · exact fun hp => (by cases hp)
    · rintro n ⟨⟩
      exact ⟨rfl, by rw [← hfull, ← hlen, take_length]⟩
    · exact hbytes
  · refine ⟨?_, ?_, ?_, hreports.mpr h⟩ <;> rw [readAt, hval]
    · exact fun hp => (by cases hp)
    · exact fun n hn => (by cases hn)
    · exact hbytes

theorem writeRefines_iff :
    WriteRefines bs d buffer offset ↔
      FailureReported (writeCost bs) bs d buffer.length offset := by
  have hstart : WrittenUpTo offset d.bytes buffer offset ⟨[], buffer, d⟩ := by
    rw [WrittenUpTo, Nat.sub_self]
    funext y
    exact (patch_eq_self fun _ y hy => by cases hy).symm
  obtain ⟨hreports, hcases⟩ := transferAll_cases hbs
    (fun t x hok hstop hx => write_ends hok hstop hx)
    ⟨inCall_start d buffer offset, rfl, fun _ _ => rfl⟩ hstart
  refine ⟨fun h => hreports.mp h.reports, fun h => ?_⟩
  rcases hcases with ⟨x, hval, hinv, hdone⟩ | ⟨e, x, hval, hout⟩
  · have hfull := hdone h
    rw [WrittenUpTo, Nat.add_sub_cancel_left, take_length] at hfull
    refine ⟨?_, ?_, ?_, hreports.mpr h⟩ <;> rw [writeAt, hval]
    · exact fun hp => (by cases hp)
    · rintro n ⟨⟩
      exact ⟨rfl, hfull⟩
    · exact hinv.outside
  · refine ⟨?_, ?_, ?_, hreports.mpr h⟩ <;> rw [writeAt, hval]
    · exact fun hp => (by cases hp)
    · exact fun n hn => (by cases hn)
    · exact hout

end Refines

/-- **The byte-wise wrappers refine a flat device exactly where a transfer of whole blocks never
fails alone.** -/
theorem byteWrapper_refines_iff (bs : ℕ) (hbs : 0 < bs) (d : FlatDevice) (buffer : List UInt8)
    (offset : ℕ) :
    (ReadRefines bs d buffer offset ↔ FailureReported readCost bs d buffer.length offset) ∧
    (WriteRefines bs d buffer offset ↔
      FailureReported (writeCost bs) bs d buffer.length offset) :=
  ⟨readRefines_iff hbs d buffer offset, writeRefines_iff hbs d buffer offset⟩

/-- A device whose bytes count upwards. -/
def countingDevice (faults : ℕ → Option (IoError × ℕ)) : FlatDevice :=
  ⟨fun i => UInt8.ofNat i, 0, faults⟩

theorem byteWrapper_refines_counting :
    ReadRefines 4 (countingDevice fun _ => none) [0, 0, 0, 0, 0, 0, 0] 3 := by
  refine (byteWrapper_refines_iff 4 (by decide) _ _ 3).1.mpr ?_
  rintro ts - ⟨y, -, -, j, -, h⟩
  exact absurd rfl h

/-- A read of one whole block, and a write of one, that fail and return as if they had not. -/
theorem direct_failure_ignored :
    ¬ReadRefines 4 (countingDevice fun _ => some (.timedOut, 0)) [0, 0, 0, 0] 4 ∧
    ¬WriteRefines 4 (countingDevice fun _ => some (.timedOut, 0)) [9, 9, 9, 9] 4 := by
  constructor
  · intro h
    have hbuffer : ([0, 0, 0, 0] : List UInt8) = [4, 5, 6, 7] := (h.ok 4 rfl).2
    exact absurd hbuffer (by decide)
  · intro h
    have hbyte := congrFun (h.ok 4 rfl).2 4
    exact absurd hbyte (by decide)

end Maios.Storage
