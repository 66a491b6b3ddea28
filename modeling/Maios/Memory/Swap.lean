import Mathlib.Data.Nat.Bitwise
import Maios.Library.Chunks
import Maios.Library.Run
import Maios.Library.Word
import Maios.Storage.Device

/-!
# Swapping pages to a disk

`swap_out` writes a page to a free slot of the swap area and returns an entry for the page table that
names the slot; `swap_in` reads the page back into a new frame and frees the slot. A slot is eight
sectors of the disk.

The device, the frame allocator, the page allocator and the page table are not modelled: each of
their calls succeeds or fails as an argument of the operation says, and a write that fails leaves
arbitrary bytes in the sectors that it was for.

The entries that `swap_out` has returned and `swap_in` has not taken back are tracked with the pages
they stand for. Their pages are always on the disk, each in sectors of its own. What goes wrong is
only this: if the write of `swap_out` fails, then the slot that it had taken stays taken; and
`swap_in` frees any slot that an entry names, in use or not, and counts one slot less.

## Main results

* `swap_preserves` — a page that is swapped in is the page that was swapped out
* `slots_accounted` — the slots in use are counted as long as no free slot is freed
-/

namespace Maios.Swap

open List Option

open Storage (Block)

/-! ### Pages and sectors -/

abbrev Sector := Block 512

abbrev Page := Block 4096

/-- `SECTORS_PER_PAGE` -/
def sectorsPerPage : ℕ := 8

theorem length_page (p : Page) : p.1.length = 512 * sectorsPerPage := p.2

/-- One of the sectors of a page. -/
def Page.sector (p : Page) (i : Fin sectorsPerPage) : Sector :=
  ⟨(chunks 512 sectorsPerPage p.1).get (i.cast (length_chunks _ _ _).symm),
    length_of_mem_chunks (length_page p) (List.get_mem _ _)⟩

/-- The device with a page written to it by `write_blocks`. -/
def writeBlocks (sectors : ℕ → Sector) (first : ℕ) (p : Page) (n : ℕ) : Sector :=
  if h : first ≤ n ∧ n - first < sectorsPerPage then p.sector ⟨n - first, h.2⟩ else sectors n

theorem length_flatten_sectors (l : List Sector) :
    (l.map Subtype.val).flatten.length = 512 * l.length := by
  induction l with
  | nil => rfl
  | cons s l ih =>
    rw [map_cons, flatten_cons, length_append, length_cons]
    omega

/-- The page that `read_blocks` reads. -/
def readBlocks (sectors : ℕ → Sector) (first : ℕ) : Page :=
  ⟨((List.ofFn fun i : Fin sectorsPerPage => sectors (first + i)).map Subtype.val).flatten, by
    rw [length_flatten_sectors, List.length_ofFn]
    rfl⟩

variable {sw sw' : SwapManager} {slot slot' : ℕ} {s : SwapState} (sectors : ℕ → Sector)

/-- What was written is read. -/
theorem readBlocks_writeBlocks (first : ℕ) (p : Page) :
    readBlocks (writeBlocks sectors first p) first = p := by
  refine Subtype.ext (Eq.trans ?_ (flatten_chunks (length_page p)))
  refine congrArg flatten (ext_getElem ?_ fun i hi hi' => ?_)
  · rw [length_map, length_ofFn, length_chunks]
  · rw [getElem_map, List.getElem_ofFn, writeBlocks, dif_pos]
    · have hsub : first + i - first = i := Nat.add_sub_cancel_left first i
      simp only [hsub]
      rfl
    · rw [length_chunks] at hi'
      exact ⟨Nat.le_add_right _ _, by dsimp only; omega⟩

/-- Writing a page leaves the other sectors. -/
theorem readBlocks_writeBlocks_of_disjoint {first first' : ℕ}
    (h : ∀ i < sectorsPerPage, ∀ j < sectorsPerPage, first + i ≠ first' + j) (p : Page) :
    readBlocks (writeBlocks sectors first p) first' = readBlocks sectors first' := by
  have hsector : (fun i : Fin sectorsPerPage => writeBlocks sectors first p (first' + i)) =
      fun i : Fin sectorsPerPage => sectors (first' + i) := by
    funext i
    rw [writeBlocks, dif_neg]
    rintro ⟨hle, hlt⟩
    exact h _ hlt i i.2 (Nat.add_sub_of_le hle)
  rw [readBlocks, readBlocks, Subtype.mk.injEq, hsector]

/-! ### Slots -/

/-- `SWAP_DISK_OFFSET_SECS` -/
def swapDiskOffsetSecs : ℕ := 2048

/-- `MAX_SWAP_PAGES` -/
def maxSwapPages : ℕ := 131072

structure SwapManager where
  freeSlots : List Bool
  usedSlots : ℕ
  totalSlots : ℕ
  length_freeSlots : freeSlots.length = totalSlots
  totalSlots_le : totalSlots ≤ maxSwapPages

namespace SwapManager

def new (swapSizeMb : ℕ) : SwapManager where
  freeSlots := List.replicate (min (wrap (swapSizeMb * 1024 * 1024) / 4096) maxSwapPages) true
  usedSlots := 0
  totalSlots := min (wrap (swapSizeMb * 1024 * 1024) / 4096) maxSwapPages
  length_freeSlots := List.length_replicate
  totalSlots_le := Nat.min_le_right _ _

/-- The slots with one of them changed. -/
def setSlot (sw : SwapManager) (slot : ℕ) (free : Bool) (usedSlots : ℕ) : SwapManager :=
  { sw with
    freeSlots := sw.freeSlots.set slot free
    usedSlots := usedSlots
    length_freeSlots := by rw [List.length_set, sw.length_freeSlots] }

/-- `alloc_slot` -/
def allocSlot (sw : SwapManager) : Option (ℕ × SwapManager) :=
  match sw.freeSlots.findIdx? id with
  | some slot => some (slot, sw.setSlot slot false (sw.usedSlots + 1))
  | none => none

/-- `free_slot` -/
def freeSlot (sw : SwapManager) (slot : ℕ) : SwapManager :=
  if slot < sw.totalSlots then sw.setSlot slot true (sw.usedSlots - 1) else sw

/-- A slot that is in use. -/
def InUse (sw : SwapManager) (slot : ℕ) : Prop := sw.freeSlots[slot]? = some false

theorem InUse.lt (h : sw.InUse slot) : slot < sw.totalSlots := by
  rw [← sw.length_freeSlots]
  exact (List.getElem?_eq_some_iff.mp h).1

/-- A slot that is allocated was free and is in use, and the others are as they were. -/
theorem allocSlot_spec (h : sw.allocSlot = some (slot, sw')) :
    ¬ sw.InUse slot ∧ sw'.InUse slot ∧ ∀ slot', slot' ≠ slot → (sw'.InUse slot' ↔ sw.InUse slot') := by
  rw [allocSlot] at h
  rcases hfind : sw.freeSlots.findIdx? id with _ | i <;> rw [hfind] at h
  · cases h
  cases h
  obtain ⟨hlt, hfree, -⟩ := findIdx?_eq_some_iff_getElem.mp hfind
  refine ⟨fun huse => ?_, getElem?_set_self hlt, fun slot' hne => ?_⟩
  · rw [InUse, getElem?_eq_getElem hlt] at huse
    rw [some.inj huse] at hfree
    cases hfree
  · exact of_eq (congrArg (· = some false) (getElem?_set_ne (Ne.symm hne)))

/-- A slot that is freed is free, and the others are as they were. -/
theorem inUse_freeSlot_of_ne (sw : SwapManager) (hne : slot' ≠ slot) :
    (sw.freeSlot slot).InUse slot' ↔ sw.InUse slot' := by
  rw [freeSlot]
  split_ifs
  · exact of_eq (congrArg (· = some false) (getElem?_set_ne (Ne.symm hne)))
  · exact .rfl

end SwapManager

/-- `sector_of` -/
def sectorOf (slot : ℕ) : ℕ := wrap (swapDiskOffsetSecs + wrap (slot * sectorsPerPage))

/-- The sectors of a slot that exists. -/
theorem sectorOf_eq (h : slot < maxSwapPages) : sectorOf slot = 2048 + slot * 8 := by
  have hlt : slot < 131072 := h
  rw [sectorOf, wrap, wrap, swapDiskOffsetSecs, sectorsPerPage]
  omega

theorem sectors_disjoint (h : slot < maxSwapPages) (h' : slot' < maxSwapPages)
    (hne : slot ≠ slot') :
    ∀ i < sectorsPerPage, ∀ j < sectorsPerPage, sectorOf slot + i ≠ sectorOf slot' + j := by
  intro i hi j hj
  rw [sectorOf_eq h, sectorOf_eq h']
  rw [sectorsPerPage] at hi hj
  omega

/-! ### Entries of the page table -/

/-- `encode_swap_pte` -/
def encodeSwapPte (slot : ℕ) : ℕ := wrap (slot <<< 2) ||| 2

/-- `decode_swap_slot` -/
def decodeSwapSlot (pte : ℕ) : ℕ := pte >>> 2

/-- `is_swap_pte` -/
def isSwapPte (pte : ℕ) : Bool := decide (pte &&& 3 = 2)

theorem encodeSwapPte_eq (h : slot < maxSwapPages) : encodeSwapPte slot = 4 * slot + 2 := by
  have hlt : slot < 131072 := h
  have hwrap : wrap (slot <<< 2) = slot <<< 2 := by
    rw [wrap]
    omega
  rw [encodeSwapPte, hwrap, ← Nat.shiftLeft_add_eq_or_of_lt (by decide : 2 < 2 ^ 2)]
  omega

theorem isSwapPte_encode (h : slot < maxSwapPages) : isSwapPte (encodeSwapPte slot) = true := by
  rw [isSwapPte, encodeSwapPte_eq h, show (3 : ℕ) = 2 ^ 2 - 1 from rfl,
    Nat.and_two_pow_sub_one_eq_mod]
  exact decide_eq_true (by omega)

theorem decodeSwapSlot_encode (h : slot < maxSwapPages) :
    decodeSwapSlot (encodeSwapPte slot) = slot := by
  rw [decodeSwapSlot, encodeSwapPte_eq h]
  omega

/-- A swap entry is known by its slot. -/
theorem eq_of_decodeSwapSlot {pte pte' : ℕ} (h : isSwapPte pte = true) (h' : isSwapPte pte' = true)
    (heq : decodeSwapSlot pte = decodeSwapSlot pte') : pte = pte' := by
  rw [isSwapPte, decide_eq_true_iff, show (3 : ℕ) = 2 ^ 2 - 1 from rfl,
    Nat.and_two_pow_sub_one_eq_mod] at h h'
  rw [decodeSwapSlot, decodeSwapSlot] at heq
  omega

/-! ### The operations -/

/-- The swap area, the memory that pages are loaded to, and the entries that were returned by
`swap_out` and not taken back by `swap_in`, with the pages that were written out. -/
structure SwapState where
  /-- `SWAP` -/
  swap : Option SwapManager
  sectors : ℕ → Sector
  /-- The pages by physical address. -/
  memory : ℕ → Page
  live : List (ℕ × Page)

/-- `swap_out` of a page with these bytes. A write that fails leaves some bytes behind. -/
def swapOut (s : SwapState) (data : Page) (fault : Option Page) : Except String ℕ × SwapState :=
  match s.swap with
  | none => (.error "swap: non initialisé", s)
  | some sw =>
    match sw.allocSlot with
    | none => (.error "swap: plus de slots libres", s)
    | some (slot, sw') =>
      match fault with
      | some junk => (.error "swap: write_blocks échoué",
          { s with swap := some sw', sectors := writeBlocks s.sectors (sectorOf slot) junk })
      | none => (.ok (encodeSwapPte slot),
          { s with
            swap := some sw'
            sectors := writeBlocks s.sectors (sectorOf slot) data
            live := (encodeSwapPte slot, data) :: s.live })

/-- What the calls made by `swap_in` return. -/
structure Calls where
  readOk : Bool
  /-- The address of the frame that is allocated. -/
  frame : Option ℕ
  pageOk : Bool
  mmiOk : Bool
  /-- The error of `map_allocated_pages_to`. -/
  mapError : Option String

/-- All the calls succeed. -/
def Calls.Succeed (calls : Calls) : Prop :=
  calls.readOk = true ∧ calls.frame.isSome = true ∧ calls.pageOk = true ∧ calls.mmiOk = true ∧
    calls.mapError = none

/-- `swap_in` -/
def swapIn (s : SwapState) (pte : ℕ) (calls : Calls) : Except String ℕ × SwapState :=
  if isSwapPte pte = false then (.error "swap: pas une swap PTE", s)
  else
    match s.swap with
    | none => (.error "swap: non initialisé", s)
    | some sw =>
      if calls.readOk = false then (.error "swap: read_blocks échoué", s)
      else
        match calls.frame with
        | none => (.error "swap: plus de frames physiques", s)
        | some paddr =>
          if calls.pageOk = false then (.error "swap: plus de pages virtuelles", s)
          else if calls.mmiOk = false then (.error "swap: kernel MMI non disponible", s)
          else
            match calls.mapError with
            | some e => (.error e, s)
            | none => (.ok paddr,
                { s with
                  swap := some (sw.freeSlot (decodeSwapSlot pte))
                  memory := Function.update s.memory paddr
                    (readBlocks s.sectors (sectorOf (decodeSwapSlot pte)))
                  live := s.live.filter fun e => decide (e.1 ≠ pte) })

inductive SwapOp where
  /-- `init`, which only its first call performs. -/
  | init (swapSizeMb : ℕ)
  | swapOut (data : Page) (fault : Option Page)
  | swapIn (pte : ℕ) (calls : Calls)

namespace SwapState

def new (sectors : ℕ → Sector) (memory : ℕ → Page) : SwapState := ⟨none, sectors, memory, []⟩

/-- The result of a call and the state afterwards. -/
def call (s : SwapState) : SwapOp → Except String ℕ × SwapState
  | .init swapSizeMb =>
    match s.swap with
    | none => (.ok 0, { s with swap := some (.new swapSizeMb) })
    | some _ => (.ok 0, s)
  | .swapOut data fault => Swap.swapOut s data fault
  | .swapIn pte calls => Swap.swapIn s pte calls

def step (s : SwapState) (op : SwapOp) : SwapState := (s.call op).2

/-- A slot is in use. -/
def SlotInUse (s : SwapState) (slot : ℕ) : Prop := ∃ sw, s.swap = some sw ∧ sw.InUse slot

end SwapState

/-- `swap_in` of a live entry loads the page that was written out, if all that it calls succeeds; and
live entries have slots and sectors of their own. -/
structure Preserved (s : SwapState) : Prop where
  loaded : ∀ e ∈ s.live, ∀ calls paddr, (swapIn s e.1 calls).1 = .ok paddr →
    (swapIn s e.1 calls).2.memory paddr = e.2
  succeeds : ∀ e ∈ s.live, ∀ paddr,
    (swapIn s e.1 ⟨true, some paddr, true, true, none⟩).1 = .ok paddr
  separate : s.live.Pairwise fun e e' => decodeSwapSlot e.1 ≠ decodeSwapSlot e'.1 ∧
    ∀ i < sectorsPerPage, ∀ j < sectorsPerPage,
      sectorOf (decodeSwapSlot e.1) + i ≠ sectorOf (decodeSwapSlot e'.1) + j

/-- If the call returns an error, the slots in use are those that were. -/
def ErrKeepsSlots (s : SwapState) (op : SwapOp) : Prop :=
  ∀ e, (s.call op).1 = .error e → ∀ slot, (s.step op).SlotInUse slot ↔ s.SlotInUse slot

/-- The call does not write to the disk in vain. -/
def NoWriteFault (s : SwapState) : SwapOp → Prop
  | .swapOut _ fault => ∀ sw ∈ s.swap, sw.allocSlot.isSome = true → fault = none
  | _ => True

/-! ### What holds in every state -/

/-- A live entry names a slot in use that holds its page, and no other live entry does. -/
structure SwapInv (s : SwapState) : Prop where
  stored : ∀ e ∈ s.live, ∃ slot, e.1 = encodeSwapPte slot ∧ s.SlotInUse slot ∧
    slot < maxSwapPages ∧ readBlocks s.sectors (sectorOf slot) = e.2
  distinct : s.live.Pairwise fun e e' => e.1 ≠ e'.1

/-- What `swap_in` can do. -/
theorem swapIn_cases (s : SwapState) (pte : ℕ) (calls : Calls) :
    (∃ e, swapIn s pte calls = (.error e, s)) ∨
    ∃ sw paddr, isSwapPte pte = true ∧ s.swap = some sw ∧ calls.Succeed ∧
      swapIn s pte calls = (.ok paddr,
        { s with
          swap := some (sw.freeSlot (decodeSwapSlot pte))
          memory := Function.update s.memory paddr
            (readBlocks s.sectors (sectorOf (decodeSwapSlot pte)))
          live := s.live.filter fun e => decide (e.1 ≠ pte) }) := by
  rw [swapIn]
  by_cases hpte : isSwapPte pte = false
  · exact .inl ⟨_, if_pos hpte⟩
  rw [if_neg hpte]
  cases hsw : s.swap with
  | none => exact .inl ⟨_, rfl⟩
  | some sw => ?_
  by_cases hread : calls.readOk = false
  · exact .inl ⟨_, if_pos hread⟩
  dsimp only
  rw [if_neg hread]
  cases hframe : calls.frame with
  | none => exact .inl ⟨_, rfl⟩
  | some paddr => ?_
  split_ifs with hpage hmmi
  · exact .inl ⟨_, rfl⟩
  · exact .inl ⟨_, rfl⟩
  · cases hmap : calls.mapError with
    | some e => exact .inl ⟨e, rfl⟩
    | none =>
      have hcalls : calls.Succeed := by simp_all [Calls.Succeed]
      exact .inr ⟨sw, paddr, Bool.eq_true_of_not_eq_false hpte, rfl, hcalls, rfl⟩

theorem SwapInv.preserved (h : SwapInv s) : Preserved s := by
  have hslot : ∀ e ∈ s.live, isSwapPte e.1 = true ∧ decodeSwapSlot e.1 < maxSwapPages ∧
      s.SlotInUse (decodeSwapSlot e.1) ∧
      readBlocks s.sectors (sectorOf (decodeSwapSlot e.1)) = e.2 := by
    intro e he
    obtain ⟨slot, hpte, huse, hlt, hread⟩ := h.stored e he
    rw [hpte, decodeSwapSlot_encode hlt]
    exact ⟨isSwapPte_encode hlt, hlt, huse, hread⟩
  refine ⟨fun e he calls paddr hok => ?_, fun e he paddr => ?_, ?_⟩
  · rcases swapIn_cases s e.1 calls with ⟨err, heq⟩ | ⟨sw, paddr', -, -, -, heq⟩
    · rw [heq] at hok
      cases hok
    · rw [heq] at hok ⊢
      cases hok
      dsimp only
      rw [Function.update_self]
      exact (hslot e he).2.2.2
  · obtain ⟨hpte, -, ⟨sw, hsw, -⟩, -⟩ := hslot e he
    rw [swapIn, if_neg (by rw [hpte]; exact nofun), hsw]
    rfl
  · refine h.distinct.imp_of_mem fun {e e'} he he' hne => ?_
    obtain ⟨hpte, hlt, -⟩ := hslot e he
    obtain ⟨hpte', hlt', -⟩ := hslot e' he'
    have hslots : decodeSwapSlot e.1 ≠ decodeSwapSlot e'.1 :=
      fun heq => hne (eq_of_decodeSwapSlot hpte hpte' heq)
    exact ⟨hslots, sectors_disjoint hlt hlt' hslots⟩

/-- Writing to a slot that was just allocated. -/
theorem SwapInv.alloc (h : SwapInv s) (hsw : s.swap = some sw)
    (halloc : sw.allocSlot = some (slot, sw')) (p : Page) :
    SwapInv { s with swap := some sw', sectors := writeBlocks s.sectors (sectorOf slot) p } := by
  obtain ⟨hfree, huse, hothers⟩ := SwapManager.allocSlot_spec halloc
  refine ⟨fun e he => ?_, h.distinct⟩
  obtain ⟨slot', hpte, ⟨sw₀, hsw₀, huse'⟩, hlt, hread⟩ := h.stored e he
  obtain rfl := some.inj (hsw.symm.trans hsw₀)
  have hne : slot' ≠ slot := by
    rintro rfl
    exact hfree huse'
  refine ⟨slot', hpte, ⟨sw', rfl, (hothers slot' hne).mpr huse'⟩, hlt, ?_⟩
  have hlt' : slot < maxSwapPages := Nat.lt_of_lt_of_le huse.lt sw'.totalSlots_le
  rw [readBlocks_writeBlocks_of_disjoint s.sectors (sectors_disjoint hlt' hlt (Ne.symm hne))]
  exact hread

theorem swapInv_swapOut (h : SwapInv s) (data : Page) (fault : Option Page) :
    SwapInv (swapOut s data fault).2 := by
  rw [swapOut]
  cases hsw : s.swap with
  | none => exact h
  | some sw => ?_
  dsimp only
  cases halloc : sw.allocSlot with
  | none => exact h
  | some r => ?_
  obtain ⟨slot, sw'⟩ := r
  cases fault with
  | some junk => exact h.alloc hsw halloc junk
  | none => ?_
  obtain ⟨hstored, hdistinct⟩ := h.alloc hsw halloc data
  obtain ⟨hfree, huse, -⟩ := SwapManager.allocSlot_spec halloc
  have hlt : slot < maxSwapPages := Nat.lt_of_lt_of_le huse.lt sw'.totalSlots_le
  refine ⟨forall_mem_cons.mpr ⟨?_, hstored⟩, pairwise_cons.mpr ⟨?_, hdistinct⟩⟩
  · exact ⟨slot, rfl, ⟨sw', rfl, huse⟩, hlt, readBlocks_writeBlocks _ _ _⟩
  · intro e he heq
    obtain ⟨slot', hpte, ⟨sw₀, hsw₀, huse'⟩, hlt', -⟩ := h.stored e he
    obtain rfl := some.inj (hsw.symm.trans hsw₀)
    have hslot := congrArg decodeSwapSlot (heq.trans hpte)
    rw [decodeSwapSlot_encode hlt, decodeSwapSlot_encode hlt'] at hslot
    rw [hslot] at hfree
    exact hfree huse'

theorem swapInv_swapIn (h : SwapInv s) (pte : ℕ) (calls : Calls) :
    SwapInv (swapIn s pte calls).2 := by
  rcases swapIn_cases s pte calls with ⟨err, heq⟩ | ⟨sw, paddr, hpte, hsw, -, heq⟩ <;> rw [heq]
  · exact h
  refine ⟨fun e he => ?_, h.distinct.filter _⟩
  obtain ⟨hmem, hne⟩ := mem_filter.mp he
  obtain ⟨slot, hencode, ⟨sw₀, hsw₀, huse⟩, hlt, hread⟩ := h.stored e hmem
  obtain rfl := some.inj (hsw.symm.trans hsw₀)
  have hslot : slot ≠ decodeSwapSlot pte := by
    intro heq
    refine of_decide_eq_true hne (eq_of_decodeSwapSlot ?_ hpte ?_)
    · rw [hencode]
      exact isSwapPte_encode hlt
    · rw [hencode, decodeSwapSlot_encode hlt]
      exact heq
  exact ⟨slot, hencode, ⟨_, rfl, (sw.inUse_freeSlot_of_ne hslot).mpr huse⟩, hlt, hread⟩

theorem swapInv_step (s : SwapState) (op : SwapOp) (h : SwapInv s) : SwapInv (s.step op) := by
  cases op with
  | init swapSizeMb =>
    rw [SwapState.step, SwapState.call]
    cases hsw : s.swap with
    | some sw => exact h
    | none =>
      refine ⟨fun e he => ?_, h.distinct⟩
      obtain ⟨slot, -, ⟨sw, hsome, -⟩, -⟩ := h.stored e he
      rw [hsw] at hsome
      cases hsome
  | swapOut data fault => exact swapInv_swapOut h data fault
  | swapIn pte calls => exact swapInv_swapIn h pte calls

/-! ### Errors -/

/-- An error leaves the slots exactly if it is not that of a write. -/
theorem errKeepsSlots_iff (s : SwapState) (op : SwapOp) :
    ErrKeepsSlots s op ↔ NoWriteFault s op := by
  cases op with
  | init swapSizeMb =>
    refine ⟨fun _ => trivial, fun _ e herr => ?_⟩
    rw [SwapState.call] at herr
    rcases hsw : s.swap with _ | sw <;> rw [hsw] at herr
    · cases herr
    cases herr
  | swapIn pte calls =>
    refine ⟨fun _ => trivial, fun _ e herr slot => ?_⟩
    rw [SwapState.step]
    rw [SwapState.call] at herr ⊢
    rcases swapIn_cases s pte calls with ⟨err, heq⟩ | ⟨sw, paddr, -, -, -, heq⟩
    · rw [heq]
    · rw [heq] at herr
      cases herr
  | swapOut data fault =>
    rw [ErrKeepsSlots, NoWriteFault, SwapState.step, SwapState.call, swapOut]
    cases hsw : s.swap with
    | none => exact ⟨fun _ sw hmem => (nomatch hmem), fun _ e _ slot => .rfl⟩
    | some sw => ?_
    dsimp only
    cases halloc : sw.allocSlot with
    | none =>
      refine ⟨fun _ sw' hmem hsome => ?_, fun _ e _ slot => .rfl⟩
      cases hmem
      rw [halloc] at hsome
      cases hsome
    | some r => ?_
    obtain ⟨slot, sw'⟩ := r
    obtain ⟨hfree, huse, -⟩ := SwapManager.allocSlot_spec halloc
    cases fault with
    | none => exact ⟨fun _ _ _ _ => rfl, fun _ e herr => (nomatch herr)⟩
    | some junk => ?_
    -- the slot was free, and is in use after the error
    refine ⟨fun hkeeps => ?_, fun hnone => ?_⟩
    · obtain ⟨sw₀, hsw₀, huse₀⟩ := (hkeeps _ rfl slot).mp ⟨sw', rfl, huse⟩
      obtain rfl := some.inj (hsw.symm.trans hsw₀)
      exact absurd huse₀ hfree
    · have hfault := hnone sw rfl (by rw [halloc]; rfl)
      cases hfault

/-- **Swap.** In every state that calls lead to, whatever fails in them, the pages of the live
entries are preserved, in slots and sectors of their own; and a call that returns an error leaves
the slots in use as they were exactly if it is not a `swap_out` whose write failed. -/
theorem swap_preserves (sectors : ℕ → Sector) (memory : ℕ → Page) (ops : List SwapOp) :
    Preserved (run SwapState.step (.new sectors memory) ops) ∧
      ∀ op, ErrKeepsSlots (run SwapState.step (.new sectors memory) ops) op ↔
        NoWriteFault (run SwapState.step (.new sectors memory) ops) op := by
  have hnew : SwapInv (.new sectors memory) :=
    ⟨forall_mem_nil _, List.Pairwise.nil⟩
  exact ⟨(run_invariant swapInv_step hnew ops).preserved, errKeepsSlots_iff _⟩

/-- A block of zeros. -/
def zeros (n : ℕ) : Block n := ⟨List.replicate n 0, List.length_replicate⟩

/-- The first write to the swap area fails: slot 0 was free, and is in use. -/
theorem swap_leaks :
    ¬ ErrKeepsSlots (run SwapState.step (.new (fun _ => zeros 512) fun _ => zeros 4096) [.init 1])
      (.swapOut (zeros 4096) (some (zeros 4096))) := by
  rw [errKeepsSlots_iff]
  intro h
  have hfault := h _ rfl rfl
  cases hfault

/-! ### The number of slots in use -/

/-- The slots in use are counted, and a slot that is given out is a free one, if there is any. -/
structure SwapManager.Accounted (sw : SwapManager) : Prop where
  usedSlots : sw.usedSlots = sw.freeSlots.count false
  free : ∀ slot sw', sw.allocSlot = some (slot, sw') → ¬ sw.InUse slot
  none : sw.allocSlot = none → ∀ slot < sw.totalSlots, sw.InUse slot

def Accounted (s : SwapState) : Prop := ∀ sw ∈ s.swap, sw.Accounted

/-- `swap_in` of an entry for a slot that is not in use gets nothing, unless no slot is in use. -/
def FreesUsed (s : SwapState) : SwapOp → Prop
  | .swapIn pte calls => ∀ sw ∈ s.swap, isSwapPte pte = true → calls.Succeed →
      decodeSwapSlot pte < sw.totalSlots →
        sw.InUse (decodeSwapSlot pte) ∨ ∀ slot, ¬ sw.InUse slot
  | _ => True

namespace SwapManager

/-- What `alloc_slot` returns is right whatever is counted. -/
theorem accounted_iff : sw.Accounted ↔ sw.usedSlots = sw.freeSlots.count false := by
  refine ⟨Accounted.usedSlots, fun h => ⟨h, fun _ _ halloc => (allocSlot_spec halloc).1, ?_⟩⟩
  intro hnone slot hlt
  rw [allocSlot] at hnone
  cases hfind : sw.freeSlots.findIdx? id with
  | some i =>
    rw [hfind] at hnone
    cases hnone
  | none =>
    rw [← sw.length_freeSlots] at hlt
    have hused := findIdx?_eq_none_iff.mp hfind _ (getElem_mem hlt)
    exact List.getElem?_eq_some_iff.mpr ⟨hlt, hused⟩

theorem count_eq_zero_iff : sw.freeSlots.count false = 0 ↔ ∀ slot, ¬ sw.InUse slot := by
  simp only [count_eq_zero, mem_iff_getElem?, not_exists, InUse]

theorem accounted_allocSlot (h : sw.Accounted) (halloc : sw.allocSlot = some (slot, sw')) :
    sw'.Accounted := by
  rw [allocSlot] at halloc
  rcases hfind : sw.freeSlots.findIdx? id with _ | i <;> rw [hfind] at halloc
  · cases halloc
  cases halloc
  obtain ⟨hlt, hfree, -⟩ := findIdx?_eq_some_iff_getElem.mp hfind
  rw [id_eq] at hfree
  rw [accounted_iff, setSlot, count_set hlt, hfree]
  exact congrArg (· + 1) h.usedSlots

theorem accounted_freeSlot_iff (slot : ℕ) (h : sw.Accounted) : (sw.freeSlot slot).Accounted ↔
    (slot < sw.totalSlots → sw.InUse slot ∨ ∀ slot', ¬ sw.InUse slot') := by
  rw [freeSlot]
  split_ifs with hlt
  · have hlt' := hlt
    rw [← sw.length_freeSlots] at hlt'
    have huse : sw.InUse slot ↔ sw.freeSlots[slot] = false := by
      rw [InUse, getElem?_eq_getElem hlt', some_inj]
    rw [← count_eq_zero_iff, huse, accounted_iff, setSlot, count_set hlt', ← h.usedSlots]
    cases hbit : sw.freeSlots[slot] with
    | true => simp [hlt]; omega
    | false => simp [hlt]
  · exact iff_of_true h fun hlt' => absurd hlt' hlt

end SwapManager

/-- A call keeps the count exactly if it frees no slot that is free. -/
theorem accounted_step_iff (h : Accounted s) (op : SwapOp) : Accounted (s.step op) ↔ FreesUsed s op := by
  cases op with
  | init swapSizeMb =>
    refine iff_of_true ?_ trivial
    rw [SwapState.step, SwapState.call]
    cases hsw : s.swap with
    | some sw => exact h
    | none =>
      rintro _ ⟨⟩
      rw [SwapManager.accounted_iff, SwapManager.new, count_replicate]
      rfl
  | swapOut data fault =>
    refine iff_of_true ?_ trivial
    rw [SwapState.step, SwapState.call, swapOut]
    cases hsw : s.swap with
    | none => exact h
    | some sw => ?_
    dsimp only
    cases halloc : sw.allocSlot with
    | none => exact h
    | some r =>
      have hkept := SwapManager.accounted_allocSlot (h sw hsw) halloc
      cases fault <;> rintro _ ⟨⟩ <;> exact hkept
  | swapIn pte calls =>
    rw [SwapState.step, SwapState.call, FreesUsed]
    rcases swapIn_cases s pte calls with ⟨e, heq⟩ | ⟨sw, paddr, hpte, hsw, hcalls, heq⟩
    · rw [heq]
      refine iff_of_true h fun sw hsw hpte hcalls => ?_
      obtain ⟨hread, hframe, hpage, hmmi, hmap⟩ := hcalls
      obtain ⟨paddr, hframe⟩ := isSome_iff_exists.mp hframe
      simp [swapIn, hpte, mem_def.mp hsw, hread, hframe, hpage, hmmi, hmap] at heq
    · have hfree := SwapManager.accounted_freeSlot_iff (decodeSwapSlot pte) (h sw hsw)
      rw [heq, Accounted, hsw]
      simpa [hpte, hcalls] using hfree

/-- **The slots in use are counted as long as no slot is freed that is free.** After every such run,
whatever fails in its calls, the next one keeps the count exactly if it frees no such slot. -/
theorem slots_accounted (sectors : ℕ → Sector) (memory : ℕ → Page) (ops : List SwapOp)
    (h : Guarded SwapState.step FreesUsed (.new sectors memory) ops) :
    Accounted (run SwapState.step (.new sectors memory) ops) ∧
      ∀ op, Accounted (SwapState.step (run SwapState.step (.new sectors memory) ops) op) ↔
        FreesUsed (run SwapState.step (.new sectors memory) ops) op := by
  have hnew : Accounted (.new sectors memory) := by rintro _ ⟨⟩
  have hrun := Guarded.invariant (I := Accounted)
    (fun s op hs hop => (accounted_step_iff hs op).mpr hop) h hnew
  exact ⟨hrun, accounted_step_iff hrun⟩

/-- Two pages are written out. -/
def twoOut : SwapState :=
  run SwapState.step (.new (fun _ => zeros 512) fun _ => zeros 4096)
    [.init 1, .swapOut (zeros 4096) none, .swapOut (zeros 4096) none]

/-- The first of them is read back, which frees its slot. -/
theorem slots_accounted_twoOut :
    Accounted (SwapState.step twoOut (.swapIn 2 ⟨true, some 0, true, true, none⟩)) := by
  refine (slots_accounted (fun _ => zeros 512) (fun _ => zeros 4096)
    [.init 1, .swapOut (zeros 4096) none, .swapOut (zeros 4096) none,
      .swapIn 2 ⟨true, some 0, true, true, none⟩] ⟨trivial, trivial, trivial, ?_, trivial⟩).1
  rintro sw ⟨⟩ - - -
  exact .inl (by rw [SwapManager.InUse]; decide +kernel)

/-- The first page is read back twice: the other one is in use, and no slot is counted. -/
theorem slots_miscounted :
    ¬ Accounted (run SwapState.step twoOut [.swapIn 2 ⟨true, some 0, true, true, none⟩,
      .swapIn 2 ⟨true, some 4096, true, true, none⟩]) := by
  intro h
  have hused := (h _ rfl).usedSlots
  revert hused
  decide +kernel

end Maios.Swap
