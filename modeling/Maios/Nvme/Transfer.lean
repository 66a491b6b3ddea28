import Mathlib.Data.List.GetD
import Maios.Library.CopyAll
import Maios.Library.LittleEndian

/-!
# NVMe transfers

`read_lba` and `write_lba` move blocks through pages that are mapped for one call, each page to a
frame of its own. They describe these pages to the controller by two addresses: the one the first
page translates to, and that address plus the size of a page. The controller takes the second one
as the second page of a transfer of at most two pages, and else as the address of a list of pages.

## Main results

* `exact_iff_prpFits` — a transfer is exact if and only if its two addresses describe its pages
-/

namespace Maios.Nvme

open List Nat

abbrev pageSize : ℕ := 4096

/-- The number of pages for some bytes. -/
def pagesFor (bytes : ℕ) : ℕ := (bytes + (pageSize - 1)) / pageSize

/-- The frames of the pages mapped for `len` bytes. `map_allocated_pages` allocates one frame for
each page, wherever there is one. -/
structure Dma (len : ℕ) where
  frames : List ℕ
  length_eq : frames.length = pagesFor len
  nodup : frames.Nodup

/-- The address of the byte at offset `i` in a list of pages. -/
def physAt (pages : List ℕ) (i : ℕ) : ℕ := pages.getD (i / pageSize) 0 * pageSize + i % pageSize

/-- The physical memory and the contents of the drive. -/
structure World where
  mem : ℕ → UInt8
  disk : ℕ → UInt8

inductive NvmOpcode
  | write
  | read
deriving DecidableEq, Repr

/-- The fields of a submission queue entry that describe a transfer. -/
structure SubmissionEntry where
  opcode : NvmOpcode
  prp1 : ℕ
  prp2 : ℕ
  cdw10 : ℕ
  cdw11 : ℕ
  cdw12 : ℕ
deriving DecidableEq, Repr

/-! ### The controller -/

/-- The address at an entry of a list of pages. -/
def read64 (mem : ℕ → UInt8) (addr : ℕ) : ℕ := leNat ((List.range 8).map fun i => mem (addr + i))

/-- Where the next of `left` entries is: the last entry of a page of a list that goes on is the
address of its next page. -/
def prpEntryAddress (mem : ℕ → UInt8) (left addr : ℕ) : ℕ :=
  if 1 < left ∧ addr % pageSize = pageSize - 8 then read64 mem addr else addr

/-- The pages that a list of pages names. -/
def prpEntries (mem : ℕ → UInt8) : ℕ → ℕ → List ℕ
  | 0, _ => []
  | left + 1, addr =>
    let entry := prpEntryAddress mem (left + 1) addr
    read64 mem entry / pageSize :: prpEntries mem left (entry + 8)

/-- The pages that are read for the list itself. -/
def prpListPages (mem : ℕ → UInt8) : ℕ → ℕ → List ℕ
  | 0, _ => []
  | left + 1, addr =>
    let entry := prpEntryAddress mem (left + 1) addr
    addr / pageSize :: entry / pageSize :: prpListPages mem left (entry + 8)

namespace SubmissionEntry

/-- The first block of the transfer. -/
def slba (cmd : SubmissionEntry) : ℕ := cmd.cdw11 * 2 ^ 32 + cmd.cdw10

/-- The size of the transfer; the number of blocks is counted from zero. -/
def bytes (cmd : SubmissionEntry) (lbaSize : ℕ) : ℕ := (cmd.cdw12 % 2 ^ 16 + 1) * lbaSize

/-- The pages of the data. -/
def dataPages (cmd : SubmissionEntry) (lbaSize : ℕ) (mem : ℕ → UInt8) : List ℕ :=
  match pagesFor (cmd.bytes lbaSize) with
  | 0 => []
  | 1 => [cmd.prp1 / pageSize]
  | 2 => [cmd.prp1 / pageSize, cmd.prp2 / pageSize]
  | left + 3 => cmd.prp1 / pageSize :: prpEntries mem (left + 2) cmd.prp2

/-- The pages of the list of pages, if there is one. -/
def listPages (cmd : SubmissionEntry) (lbaSize : ℕ) (mem : ℕ → UInt8) : List ℕ :=
  match pagesFor (cmd.bytes lbaSize) with
  | left + 3 => prpListPages mem (left + 2) cmd.prp2
  | _ => []

end SubmissionEntry

/-- The bytes of a transfer in order: where on the drive, and where in memory. -/
def movesThrough (start bytes : ℕ) (pages : List ℕ) : List (ℕ × ℕ) :=
  (List.range bytes).map fun i => (start + i, physAt pages i)

namespace SubmissionEntry

def moves (cmd : SubmissionEntry) (lbaSize : ℕ) (mem : ℕ → UInt8) : List (ℕ × ℕ) :=
  movesThrough (cmd.slba * lbaSize) (cmd.bytes lbaSize) (cmd.dataPages lbaSize mem)

/-- The effect of the moves `ms` of a transfer. -/
def execute (cmd : SubmissionEntry) (ms : List (ℕ × ℕ)) (w : World) : World :=
  match cmd.opcode with
  | .read => { w with mem := copyAll w.disk w.mem ms }
  | .write => { w with disk := copyAll w.mem w.disk (ms.map Prod.swap) }

end SubmissionEntry

/-- How the submission ends: the controller makes all moves, or fails after some of them. -/
inductive Completion
  | success
  | failure (message : String) (moved : ℕ)
deriving DecidableEq, Repr

/-! ### The driver -/

/-- What the parts of the kernel return that a call asks for its pages. -/
structure Kernel (len : ℕ) where
  hasMmi : Bool
  hasPages : Bool
  mapAllocatedPages : Except String (Dma len)

/-- The error of a call that gets no pages. -/
def NvmOpcode.noPages : NvmOpcode → String
  | write => "NVMe write: cannot alloc DMA buf"
  | read => "NVMe read: cannot alloc DMA buf"

/-- The pages of a call, or the error with which it ends. -/
def Kernel.mapDma {len : ℕ} (kernel : Kernel len) (opcode : NvmOpcode) : Except String (Dma len) :=
  if !kernel.hasMmi then .error "no kernel MMI"
  else if !kernel.hasPages then .error opcode.noPages
  else kernel.mapAllocatedPages

/-- The command of a call, where `pa` is the address of the first page. -/
def command (opcode : NvmOpcode) (pa len sectors lba : ℕ) : SubmissionEntry where
  opcode := opcode
  prp1 := pa
  prp2 := if len > 4096 then pa + 4096 else 0
  cdw10 := lba &&& 0xFFFFFFFF
  cdw11 := (lba >>> 32) % 2 ^ 32
  cdw12 := (sectors % 2 ^ 32 + (2 ^ 32 - 1)) % 2 ^ 32 &&& 0xFFFF

/-- What a call returns and leaves, and the command it submitted, with the memory at that time. -/
structure CallResult where
  result : Except String ℕ
  buf : List UInt8
  world : World
  submitted : Option (SubmissionEntry × (ℕ → UInt8))

/-- The buffer is copied to the pages of the call. -/
def Dma.copyIn {len : ℕ} (dma : Dma len) (buf : List UInt8) (mem : ℕ → UInt8) : ℕ → UInt8 :=
  copyAll (buf.getD · 0) mem (movesThrough 0 buf.length dma.frames)

/-- The pages of the call are copied to the buffer. -/
def Dma.copyOut {len : ℕ} (dma : Dma len) (mem : ℕ → UInt8) : List UInt8 :=
  (List.range len).map fun i => mem (physAt dma.frames i)

section Calls

variable (lbaSize : ℕ) (buf : List UInt8) (lba : ℕ) (kernel : Kernel buf.length)
  (completion : Completion) (w : World)

def readLba : CallResult :=
  let sectors := buf.length / lbaSize
  if sectors = 0 then ⟨.ok 0, buf, w, none⟩
  else
    match kernel.mapDma .read with
    | .error e => ⟨.error e, buf, w, none⟩
    | .ok dma =>
      match dma.frames.head? with
      | none => ⟨.error "NVMe read: VA→PA failed", buf, w, none⟩
      | some frame =>
        let cmd := command .read (frame * pageSize) buf.length sectors lba
        let moves := cmd.moves lbaSize w.mem
        match completion with
        | .failure e moved => ⟨.error e, buf, cmd.execute (moves.take moved) w, some (cmd, w.mem)⟩
        | .success =>
          let w' := cmd.execute moves w
          ⟨.ok sectors, dma.copyOut w'.mem, w', some (cmd, w.mem)⟩

def writeLba : CallResult :=
  let sectors := buf.length / lbaSize
  if sectors = 0 then ⟨.ok 0, buf, w, none⟩
  else
    match kernel.mapDma .write with
    | .error e => ⟨.error e, buf, w, none⟩
    | .ok dma =>
      match dma.frames.head? with
      | none => ⟨.error "NVMe write: VA→PA failed", buf, w, none⟩
      | some frame =>
        let w := { w with mem := dma.copyIn buf w.mem }
        let cmd := command .write (frame * pageSize) buf.length sectors lba
        let moves := cmd.moves lbaSize w.mem
        match completion with
        | .failure e moved => ⟨.error e, buf, cmd.execute (moves.take moved) w, some (cmd, w.mem)⟩
        | .success => ⟨.ok sectors, buf, cmd.execute moves w, some (cmd, w.mem)⟩

/-- The call for an opcode. -/
def transferLba (opcode : NvmOpcode) : CallResult :=
  match opcode with
  | .read => readLba lbaSize buf lba kernel completion w
  | .write => writeLba lbaSize buf lba kernel completion w

end Calls

/-! ### What a call should do -/

/-- The moves the controller makes for a call. -/
def CallResult.moves (r : CallResult) (lbaSize : ℕ) : List (ℕ × ℕ) :=
  match r.submitted with
  | none => []
  | some (cmd, mem) => cmd.moves lbaSize mem

/-- The pages the controller accesses for a call. -/
def CallResult.accesses (r : CallResult) (lbaSize : ℕ) : List ℕ :=
  match r.submitted with
  | none => []
  | some (cmd, mem) => cmd.listPages lbaSize mem ++ cmd.dataPages lbaSize mem

/-- What `n` blocks transferred mean for the buffer and the drive. -/
def Transferred (opcode : NvmOpcode) (lbaSize : ℕ) (buf : List UInt8) (lba n : ℕ) (w : World)
    (r : CallResult) : Prop :=
  match opcode with
  | .read =>
    (∀ i < n * lbaSize, r.buf[i]? = some (w.disk (lba * lbaSize + i))) ∧ r.world.disk = w.disk
  | .write =>
    r.buf = buf ∧ ∀ d, r.world.disk d =
      if lba * lbaSize ≤ d ∧ d < lba * lbaSize + n * lbaSize then buf.getD (d - lba * lbaSize) 0
      else w.disk d

/-- A call that succeeds has moved as many blocks as fit into the buffer, in order, from the block
asked for on and through its own pages; and no call makes the controller access another page. -/
structure Exact (opcode : NvmOpcode) (lbaSize : ℕ) (buf : List UInt8) (lba : ℕ)
    (kernel : Kernel buf.length) (w : World) (r : CallResult) : Prop where
  count : ∀ n, r.result = .ok n → n = buf.length / lbaSize
  moved : ∀ n dma, r.result = .ok n → kernel.mapAllocatedPages = .ok dma →
    r.moves lbaSize = movesThrough (lba * lbaSize) (n * lbaSize) dma.frames
  transferred : ∀ n, r.result = .ok n → Transferred opcode lbaSize buf lba n w r
  confined : ∀ dma, kernel.mapAllocatedPages = .ok dma →
    ∀ page ∈ r.accesses lbaSize, page ∈ dma.frames

/-- The memory when the command is submitted. -/
def submittedMem (opcode : NvmOpcode) (buf : List UInt8) (dma : Dma buf.length) (w : World) :
    ℕ → UInt8 :=
  match opcode with
  | .read => w.mem
  | .write => dma.copyIn buf w.mem

/-- The buffer when a call has succeeded, with `mem` the memory at that time. -/
def returnedBuf (opcode : NvmOpcode) (buf : List UInt8) (dma : Dma buf.length) (mem : ℕ → UInt8) :
    List UInt8 :=
  match opcode with
  | .read => dma.copyOut mem
  | .write => buf

/-- The page behind the first one holds a list of the other pages, in pages of the call. -/
def ListReady (bytes : ℕ) (frames : List ℕ) (mem : ℕ → UInt8) : Prop :=
  prpEntries mem (pagesFor bytes - 1) ((frames.headD 0 + 1) * pageSize) =
      (frames.take (pagesFor bytes)).tail ∧
    ∀ page ∈ prpListPages mem (pagesFor bytes - 1) ((frames.headD 0 + 1) * pageSize), page ∈ frames

/-- The number of blocks fits into its field. The data fits into one page; or into two, of which the
second has the frame behind the first; or there is, by chance, a list of its pages where the
controller looks for it. -/
def PrpFits (lbaSize len : ℕ) (frames : List ℕ) (mem : ℕ → UInt8) : Prop :=
  len / lbaSize ≤ 2 ^ 16 ∧
    (len / lbaSize * lbaSize ≤ pageSize ∨
      (len / lbaSize * lbaSize ≤ 2 * pageSize ∧ frames[1]? = some (frames.headD 0 + 1)) ∨
      (2 * pageSize < len / lbaSize * lbaSize ∧
        ListReady (len / lbaSize * lbaSize) frames mem))

/-! ### Transfers through pages -/

theorem lt_pagesFor_iff {j bytes : ℕ} : j < pagesFor bytes ↔ j * pageSize < bytes := by
  rw [pagesFor]
  simp only [pageSize]
  omega

variable {cmd : SubmissionEntry} {frame i : ℕ} {mem : ℕ → UInt8} {rest pages : List ℕ}

theorem div_lt_pagesFor {bytes : ℕ} (h : i < bytes) : i / pageSize < pagesFor bytes :=
  lt_pagesFor_iff.mpr (lt_of_le_of_lt (div_mul_le_self i pageSize) h)

theorem pagesFor_mono {bytes bytes' : ℕ} (h : bytes ≤ bytes') : pagesFor bytes ≤ pagesFor bytes' :=
  Nat.div_le_div_right (Nat.add_le_add_right h _)

theorem physAt_page (pages : List ℕ) (j : ℕ) :
    physAt pages (j * pageSize) = pages.getD j 0 * pageSize := by
  rw [physAt, Nat.mul_div_cancel _ (by decide), Nat.mul_mod_left, add_zero]

/-- **Two transfers are the same** exactly when they have the same size and go through the same
pages. -/
theorem movesThrough_eq_iff {start bytes bytes' : ℕ} {frames : List ℕ}
    (hpages : pages.length = pagesFor bytes) (hframes : pagesFor bytes' ≤ frames.length) :
    movesThrough start bytes pages = movesThrough start bytes' frames ↔
      bytes = bytes' ∧ pages = frames.take (pagesFor bytes') := by
  constructor
  · intro h
    have hlen : bytes = bytes' := by simpa [movesThrough] using congrArg length h
    subst hlen
    refine ⟨rfl, ext_getElem ?_ fun j hj hj' => ?_⟩
    · rw [hpages, length_take, min_eq_left hframes]
    · have hat : j * pageSize < bytes := lt_pagesFor_iff.mp (hpages ▸ hj)
      have hmove := congrArg (·[j * pageSize]?) h
      simp only [movesThrough, getElem?_map, getElem?_range hat, Option.map_some,
        Option.some.injEq, Prod.mk.injEq, physAt_page, true_and] at hmove
      have heq : pages.getD j 0 = frames.getD j 0 := eq_of_mul_eq_mul_right (by decide) hmove
      have hj'' : j < frames.length := lt_of_lt_of_le (hpages ▸ hj) hframes
      rwa [getElem_take, ← getD_eq_getElem _ 0 hj, ← getD_eq_getElem _ 0 hj'']
  · rintro ⟨rfl, rfl⟩
    refine map_congr_left fun i hi => ?_
    have hi' : i / pageSize < pagesFor bytes := div_lt_pagesFor (mem_range.mp hi)
    rw [physAt, physAt, getD_eq_getElem?_getD, getElem?_take_of_lt hi', ← getD_eq_getElem?_getD]

theorem physAt_div_mod (pages : List ℕ) (i : ℕ) :
    physAt pages i / pageSize = pages.getD (i / pageSize) 0 ∧
      physAt pages i % pageSize = i % pageSize := by
  have hlt : i % pageSize < pageSize := mod_lt _ (by decide)
  constructor
  · rw [physAt, mul_comm, mul_add_div (by decide), div_eq_of_lt hlt, add_zero]
  · rw [physAt, mul_comm, mul_add_mod, mod_mod]

/-- Different bytes of the pages of a call have different addresses. -/
theorem Dma.physAt_injective {len : ℕ} (dma : Dma len) {j : ℕ} (hi : i < len) (hj : j < len)
    (h : physAt dma.frames i = physAt dma.frames j) : i = j := by
  have hi' : i / pageSize < dma.frames.length := dma.length_eq ▸ div_lt_pagesFor hi
  have hj' : j / pageSize < dma.frames.length := dma.length_eq ▸ div_lt_pagesFor hj
  obtain ⟨hpi, hoi⟩ := physAt_div_mod dma.frames i
  obtain ⟨hpj, hoj⟩ := physAt_div_mod dma.frames j
  have hframe : dma.frames[i / pageSize] = dma.frames[j / pageSize] := by
    rw [← getD_eq_getElem _ 0 hi', ← getD_eq_getElem _ 0 hj', ← hpi, ← hpj, h]
  have hpage : i / pageSize = j / pageSize := (Nodup.getElem_inj_iff dma.nodup).mp hframe
  rw [← div_add_mod i pageSize, ← div_add_mod j pageSize, hpage, ← hoi, ← hoj, h]

theorem Dma.nodup_movesThrough {len : ℕ} (dma : Dma len) (start : ℕ) {bytes : ℕ} (h : bytes ≤ len) :
    ((movesThrough start bytes dma.frames).map Prod.snd).Nodup := by
  rw [movesThrough, map_map]
  refine Nodup.map_on (fun i hi j hj heq => ?_) nodup_range
  exact dma.physAt_injective (lt_of_lt_of_le (mem_range.mp hi) h)
    (lt_of_lt_of_le (mem_range.mp hj) h) heq

theorem mem_movesThrough {start bytes : ℕ} (h : i < bytes) :
    (start + i, physAt pages i) ∈ movesThrough start bytes pages :=
  mem_map.mpr ⟨i, mem_range.mpr h, rfl⟩

theorem Dma.copyIn_physAt {buf : List UInt8} (dma : Dma buf.length) (mem : ℕ → UInt8)
    (h : i < buf.length) : dma.copyIn buf mem (physAt dma.frames i) = buf.getD i 0 := by
  have hmove : (0 + i, physAt dma.frames i) ∈ movesThrough 0 buf.length dma.frames :=
    mem_movesThrough h
  rw [zero_add] at hmove
  exact copyAll_of_mem (dma.nodup_movesThrough 0 (le_rfl)) hmove

/-! ### The command -/

theorem length_prpEntries (mem : ℕ → UInt8) (left addr : ℕ) :
    (prpEntries mem left addr).length = left := by
  induction left generalizing addr with
  | zero => rfl
  | succ left ih => rw [prpEntries, length_cons, ih]

theorem SubmissionEntry.length_dataPages (cmd : SubmissionEntry) (lbaSize : ℕ) (mem : ℕ → UInt8) :
    (cmd.dataPages lbaSize mem).length = pagesFor (cmd.bytes lbaSize) := by
  rw [dataPages]
  split <;> simp [*, length_prpEntries]

section Command

variable {opcode : NvmOpcode} {pa len sectors lba lbaSize : ℕ}

theorem command_slba (hlba : lba < 2 ^ 64) : (command opcode pa len sectors lba).slba = lba := by
  have hand : lba &&& 0xFFFFFFFF = lba % 2 ^ 32 := and_two_pow_sub_one_eq_mod lba 32
  simp only [SubmissionEntry.slba, command]
  omega

/-- The number of blocks is cut to sixteen bits. -/
theorem command_bytes_eq_iff (hpos : 0 < lbaSize) (hsectors : sectors ≠ 0) :
    (command opcode pa len sectors lba).bytes lbaSize = sectors * lbaSize ↔ sectors ≤ 2 ^ 16 := by
  have hand : ∀ n : ℕ, n &&& 0xFFFF = n % 2 ^ 16 := fun n => and_two_pow_sub_one_eq_mod n 16
  simp only [SubmissionEntry.bytes, command, hand, Nat.mul_right_cancel_iff hpos]
  omega

/-- **What the two addresses describe**: the pages of the call in order, and a list that lies in
them, exactly in these three cases. -/
theorem dataPages_fit_iff {total : ℕ}
    (hcmd : cmd = command opcode (frame * pageSize) len sectors lba)
    (hbytes : cmd.bytes lbaSize = total) (hpos : 0 < total) (hlen : total ≤ len) :
    (cmd.dataPages lbaSize mem = (frame :: rest).take (pagesFor total) ∧
        ∀ page ∈ cmd.listPages lbaSize mem, page ∈ frame :: rest) ↔
      total ≤ pageSize ∨
        (total ≤ 2 * pageSize ∧ (frame :: rest)[1]? = some ((frame :: rest).headD 0 + 1)) ∨
        (2 * pageSize < total ∧ ListReady total (frame :: rest) mem) := by
  have hprp1 : cmd.prp1 / pageSize = frame := by
    rw [hcmd]
    exact Nat.mul_div_cancel frame (by decide)
  have hprp2 : pageSize < total → cmd.prp2 = (frame + 1) * pageSize := fun hbig => by
    rw [hcmd, succ_mul]
    exact if_pos (lt_of_lt_of_le hbig hlen)
  have hdiv : (frame + 1) * pageSize / pageSize = frame + 1 := Nat.mul_div_cancel _ (by decide)
  have hpages := @lt_pagesFor_iff 0 total
  have hpages1 := @lt_pagesFor_iff 1 total
  have hpages2 := @lt_pagesFor_iff 2 total
  rw [SubmissionEntry.dataPages, SubmissionEntry.listPages, hbytes]
  match hk : pagesFor total with
  | 0 => omega
  | 1 =>
    have hle : total ≤ pageSize := by omega
    simp [hprp1, hle]
  | 2 =>
    have hbig : pageSize < total := by omega
    have hle : total ≤ 2 * pageSize := by omega
    rw [hprp2 hbig, hprp1]
    simp only [not_le.mpr hbig,
      not_lt.mpr hle, hle]
    cases rest with
    | nil => simp
    | cons second rest => simp [eq_comm]
  | left + 3 =>
    have hbig : 2 * pageSize < total := by omega
    rw [hprp2 (by omega), hprp1]
    have hle : ¬ total ≤ pageSize := by omega
    simp only [ListReady, hk, take_succ_cons, cons.injEq, true_and, headD_cons, tail_cons, hle,
      Nat.not_le.mpr hbig, hbig, false_or, false_and, Nat.add_one_sub_one]

end Command

/-! ### The calls -/

section Exactness

variable {opcode : NvmOpcode} {lbaSize : ℕ} {buf : List UInt8} {lba : ℕ}
  {kernel : Kernel buf.length} {dma : Dma buf.length} {w : World}

theorem Kernel.mapDma_ok (h : kernel.mapDma opcode = .ok dma) :
    kernel.mapAllocatedPages = .ok dma := by
  rw [mapDma] at h
  split at h
  · cases h
  · split at h
    · cases h
    · exact h

variable (completion : Completion) {r : CallResult}

theorem transferLba_of_zero (h : buf.length / lbaSize = 0) :
    transferLba lbaSize buf lba kernel completion w opcode = ⟨.ok 0, buf, w, none⟩ := by
  cases opcode <;> simp [transferLba, readLba, writeLba, h]

theorem transferLba_of_error {e : String} (h : buf.length / lbaSize ≠ 0)
    (hmap : kernel.mapDma opcode = .error e) :
    transferLba lbaSize buf lba kernel completion w opcode = ⟨.error e, buf, w, none⟩ := by
  cases opcode <;> simp [transferLba, readLba, writeLba, h, hmap]

/-- What is in the buffer and on the drive after the right moves. -/
theorem transferred_of_moves (hop : cmd.opcode = opcode) {n : ℕ} (hn : n * lbaSize ≤ buf.length)
    (hmem : mem = submittedMem opcode buf dma w)
    (hmoves : cmd.moves lbaSize mem = movesThrough (lba * lbaSize) (n * lbaSize) dma.frames)
    (hworld : r.world = cmd.execute (cmd.moves lbaSize mem) { w with mem := mem })
    (hbuf : r.buf = returnedBuf opcode buf dma r.world.mem) :
    Transferred opcode lbaSize buf lba n w r := by
  rw [hmoves] at hworld
  cases opcode with simp only [SubmissionEntry.execute, hop] at hworld
  | read =>
    refine ⟨fun i hi => ?_, by rw [hworld]⟩
    have hlt : i < buf.length := lt_of_lt_of_le hi hn
    simp only [hbuf, returnedBuf, hworld, Dma.copyOut, getElem?_map, getElem?_range hlt,
      Option.map_some, Option.some.injEq]
    exact copyAll_of_mem (dma.nodup_movesThrough _ hn) (mem_movesThrough hi)
  | write =>
    refine ⟨hbuf, fun d => ?_⟩
    have hdst : ((movesThrough (lba * lbaSize) (n * lbaSize) dma.frames).map Prod.swap).map
        Prod.snd = (range (n * lbaSize)).map (lba * lbaSize + ·) := by
      simp [movesThrough]
    rw [hworld]
    split_ifs with hd
    · obtain ⟨i, rfl⟩ := Nat.exists_eq_add_of_le hd.1
      have hi : i < n * lbaSize := Nat.lt_of_add_lt_add_left hd.2
      have hmove : (physAt dma.frames i, lba * lbaSize + i) ∈
          (movesThrough (lba * lbaSize) (n * lbaSize) dma.frames).map Prod.swap :=
        mem_map.mpr ⟨_, mem_movesThrough hi, rfl⟩
      have hnodup := hdst ▸ nodup_range.map (fun _ _ => add_left_cancel)
      dsimp only
      rw [copyAll_of_mem hnodup hmove, hmem, Nat.add_sub_cancel_left]
      exact dma.copyIn_physAt w.mem (lt_of_lt_of_le hi hn)
    · refine copyAll_of_not_mem ?_
      rw [hdst, mem_map]
      rintro ⟨i, hi, rfl⟩
      exact hd ⟨Nat.le_add_right _ _, Nat.add_lt_add_left (mem_range.mp hi) _⟩

section

variable (h : buf.length / lbaSize ≠ 0) (hmap : kernel.mapDma opcode = .ok dma)
  (hframes : dma.frames = frame :: rest)
  (hcmd : cmd = command opcode (frame * pageSize) buf.length (buf.length / lbaSize) lba)
  (hmem : mem = submittedMem opcode buf dma w)

include h hmap hframes hcmd hmem

/-- What a call does once it has its pages. -/
theorem transferLba_of_ok :
    transferLba lbaSize buf lba kernel completion w opcode =
      match completion with
      | .failure e moved =>
        ⟨.error e, buf, cmd.execute ((cmd.moves lbaSize mem).take moved) { w with mem := mem },
          some (cmd, mem)⟩
      | .success =>
        ⟨.ok (buf.length / lbaSize),
          returnedBuf opcode buf dma
            (cmd.execute (cmd.moves lbaSize mem) { w with mem := mem }).mem,
          cmd.execute (cmd.moves lbaSize mem) { w with mem := mem }, some (cmd, mem)⟩ := by
  subst hcmd hmem
  cases opcode <;> cases completion <;>
    simp [transferLba, readLba, writeLba, h, hmap, hframes, submittedMem, returnedBuf]

/-- A call that has its pages is exact, however the controller completes it, exactly when the
command makes the right moves and accesses no other page. -/
theorem exact_iff_of_ok :
    (∀ completion, Exact opcode lbaSize buf lba kernel w
        (transferLba lbaSize buf lba kernel completion w opcode)) ↔
      cmd.moves lbaSize mem =
          movesThrough (lba * lbaSize) (buf.length / lbaSize * lbaSize) dma.frames ∧
        ∀ page ∈ cmd.listPages lbaSize mem ++ cmd.dataPages lbaSize mem, page ∈ dma.frames := by
  have hdma := Kernel.mapDma_ok hmap
  constructor
  · intro hall
    have hexact := hall .success
    rw [transferLba_of_ok .success h hmap hframes hcmd hmem] at hexact
    exact ⟨hexact.moved _ dma rfl hdma, hexact.confined dma hdma⟩
  · rintro ⟨hmoves, hconfined⟩ completion
    rw [transferLba_of_ok completion h hmap hframes hcmd hmem]
    cases completion with
    | failure e moved =>
      refine ⟨fun n hn => ?_, fun n _ hn => ?_, fun n hn => ?_, fun dma' hdma' => ?_⟩
      iterate 3 cases hn
      obtain rfl : dma = dma' := Except.ok.inj (hdma.symm.trans hdma')
      exact hconfined
    | success => ?_
    refine ⟨fun n hn => (Except.ok.inj hn).symm, fun n dma' hn hdma' => ?_, fun n hn => ?_,
      fun dma' hdma' => ?_⟩
    · obtain rfl : dma = dma' := Except.ok.inj (hdma.symm.trans hdma')
      cases hn
      exact hmoves
    · cases hn
      exact transferred_of_moves (by rw [hcmd]; rfl) (div_mul_le_self _ _) hmem hmoves rfl rfl
    · obtain rfl : dma = dma' := Except.ok.inj (hdma.symm.trans hdma')
      exact hconfined

end

theorem prpFits_of_zero (h : buf.length / lbaSize = 0) (frames : List ℕ) (mem : ℕ → UInt8) :
    PrpFits lbaSize buf.length frames mem := by
  rw [PrpFits, h, zero_mul]
  exact ⟨zero_le _, .inl (zero_le _)⟩

/-- A call that submits nothing is exact. -/
theorem exact_of_not_submitted (hr : r.submitted = none)
    (hcount : ∀ n, r.result = .ok n → n = 0 ∧ buf.length / lbaSize = 0)
    (hsame : r.buf = buf ∧ r.world = w) : Exact opcode lbaSize buf lba kernel w r where
  count := fun n hn => (hcount n hn).1.trans (hcount n hn).2.symm
  moved := fun n dma hn _ => by
    rw [CallResult.moves, hr, (hcount n hn).1, zero_mul]
    rfl
  transferred := fun n hn => by
    rw [(hcount n hn).1]
    cases opcode with
    | read => simp [Transferred, hsame]
    | write =>
      refine ⟨hsame.1, fun d => ?_⟩
      rw [hsame.2, if_neg (by omega)]
  confined := fun dma _ page hpage => by simp [CallResult.accesses, hr] at hpage

end Exactness

/-- **A transfer is exact**, whatever the controller reports, exactly when the two addresses of its
command describe the pages of the call and its number of blocks fits into sixteen bits. -/
theorem exact_iff_prpFits (opcode : NvmOpcode) (lbaSize : ℕ) (hpos : 0 < lbaSize)
    (buf : List UInt8) (lba : ℕ) (hlba : lba < 2 ^ 64) (kernel : Kernel buf.length) (w : World) :
    (∀ completion, Exact opcode lbaSize buf lba kernel w
        (transferLba lbaSize buf lba kernel completion w opcode)) ↔
      ∀ dma, kernel.mapDma opcode = .ok dma →
        PrpFits lbaSize buf.length dma.frames (submittedMem opcode buf dma w) := by
  by_cases hzero : buf.length / lbaSize = 0
  · refine iff_of_true (fun completion => ?_) fun dma _ => prpFits_of_zero hzero _ _
    rw [transferLba_of_zero completion hzero]
    exact exact_of_not_submitted rfl (fun n hn => ⟨(Except.ok.inj hn).symm, hzero⟩) ⟨rfl, rfl⟩
  cases hmap : kernel.mapDma opcode with
  | error e =>
    refine iff_of_true (fun completion => ?_) fun dma hdma => by cases hdma
    rw [transferLba_of_error completion hzero hmap]
    exact exact_of_not_submitted rfl (fun n hn => by cases hn) ⟨rfl, rfl⟩
  | ok dma => ?_
  have htotal : 0 < buf.length / lbaSize * lbaSize :=
    Nat.mul_pos (Nat.pos_of_ne_zero hzero) hpos
  have hle : buf.length / lbaSize * lbaSize ≤ buf.length := div_mul_le_self _ _
  have hframesLen : pagesFor (buf.length / lbaSize * lbaSize) ≤ dma.frames.length :=
    dma.length_eq ▸ pagesFor_mono hle
  obtain ⟨frame, rest, hframes⟩ : ∃ frame rest, dma.frames = frame :: rest := by
    refine exists_cons_of_length_pos (lt_of_lt_of_le ?_ hframesLen)
    exact lt_pagesFor_iff.mpr (by rwa [zero_mul])
  rw [exact_iff_of_ok hzero hmap hframes rfl rfl]
  simp only [Except.ok.injEq, forall_eq']
  rw [SubmissionEntry.moves, command_slba hlba,
    movesThrough_eq_iff (SubmissionEntry.length_dataPages _ _ _) hframesLen,
    command_bytes_eq_iff hpos hzero]
  rw [and_assoc]
  refine and_congr_right fun hcount => ?_
  have hbytes : (command opcode (frame * pageSize) buf.length (buf.length / lbaSize) lba).bytes
      lbaSize = buf.length / lbaSize * lbaSize := (command_bytes_eq_iff hpos hzero).mpr hcount
  rw [hframes, ← dataPages_fit_iff rfl hbytes htotal hle]
  refine and_congr_right fun hpages => ?_
  have hdata : ∀ page ∈ (frame :: rest).take (pagesFor (buf.length / lbaSize * lbaSize)),
      page ∈ frame :: rest := fun _ => mem_of_mem_take
  simp only [mem_append, or_imp, forall_and, hpages]
  exact and_iff_left hdata

/-- A buffer of two pages. -/
@[irreducible] def twoPages : List UInt8 := List.replicate 8192 0

theorem length_twoPages : twoPages.length = 8192 := by
  rw [twoPages, length_replicate]

theorem length_framePair (frame : ℕ) : [5, frame].length = pagesFor twoPages.length := by
  rw [length_twoPages, length_cons, length_singleton]
  decide

/-- The two pages are mapped to the frame 5 and to another one. -/
def framePair (frame : ℕ) (h : [5, frame].Nodup) : Kernel twoPages.length :=
  ⟨true, true, .ok ⟨[5, frame], length_framePair frame, h⟩⟩

/-- All zeroes. -/
def blankWorld : World := ⟨fun _ => 0, fun _ => 0⟩

/-- Two pages whose frames follow one another. -/
theorem exact_framePair_six :
    0 < 512 ∧ 7 < 2 ^ 64 ∧
      ∀ completion, Exact .read 512 twoPages 7 (framePair 6 (by decide)) blankWorld
        (transferLba 512 twoPages 7 (framePair 6 (by decide)) completion blankWorld .read) := by
  refine ⟨by decide, by decide,
    (exact_iff_prpFits .read 512 (by decide) twoPages 7 (by decide) _ _).mpr fun dma hdma => ?_⟩
  have hframes : dma.frames = [5, 6] := by
    cases hdma
    rfl
  rw [hframes]
  refine ⟨?_, .inr (.inl ⟨?_, rfl⟩)⟩ <;> rw [length_twoPages] <;> decide

/-- With the second page in the frame 9, the controller accesses the frame 6, which is not of the
call. -/
theorem foreign_page_accessed :
    6 ∈ (transferLba 512 twoPages 7 (framePair 9 (by decide)) .success blankWorld .read).accesses
        512 ∧
      ¬ Exact .read 512 twoPages 7 (framePair 9 (by decide)) blankWorld
        (transferLba 512 twoPages 7 (framePair 9 (by decide)) .success blankWorld .read) := by
  have hmap : (framePair 9 (by decide)).mapDma .read =
      .ok ⟨[5, 9], length_framePair 9, by decide⟩ := rfl
  have hne : twoPages.length / 512 ≠ 0 := by
    rw [length_twoPages]
    decide
  have hdata : (command .read (5 * pageSize) twoPages.length (twoPages.length / 512) 7).dataPages
      512 blankWorld.mem = [5, 6] := by
    decide +kernel
  have hmem : 6 ∈ (transferLba 512 twoPages 7 (framePair 9 (by decide)) .success blankWorld
      .read).accesses 512 := by
    have hcall : transferLba 512 twoPages 7 (framePair 9 (by decide)) .success blankWorld .read =
        _ := transferLba_of_ok .success hne hmap rfl rfl (rfl : blankWorld.mem = _)
    rw [hcall]
    refine mem_append_right _ ?_
    rw [hdata]
    decide
  refine ⟨hmem, fun hexact => ?_⟩
  have hframes : 6 ∈ [5, 9] := hexact.confined _ hmap 6 hmem
  exact absurd hframes (by decide)

end Maios.Nvme
