import Maios.Heap.SlabLists

/-!
# One size of a slab allocator

What the operations of an `SCAllocator` do as long as each page is in the list that its bitmap calls
for (`ScOk`). With room for more than one block, the pages of the middle list have a block to offer
and those of the last one do not. A page with room for a single block is in the middle list while
the block is in use, and never in the last one.

A call moves at most one page, and sets or clears one bit. When an empty page is asked for a block
with an alignment beyond that of pages, it may have none to offer, and is moved all the same. With
room for a single block that page would be in the wrong list.
-/

namespace Maios.Slab

open List Bitfield Memory SCAllocator Nat
open Function (update update_self update_of_ne)

/-! ### Room in a page -/

/-- How many blocks of a size class there is room for in a page. -/
def perPage (c : Fin 11) : ℕ := min (maxAllocSize / classSize c) (8 * 64)

variable {bf : Bitfield} {κ : Kind} (c : Fin 11)

theorem perPage_pos : 0 < perPage c := by
  revert c
  decide

theorem perPage_le : perPage c ≤ 512 := min_le_right _ _

theorem classSize_pos : 0 < classSize c := by
  revert c
  decide

theorem classSize_le : classSize c ≤ maxAllocSize := by
  revert c
  decide

theorem perPage_mul_le : perPage c * classSize c ≤ maxAllocSize :=
  (mul_le_mul_right _ (min_le_left _ _)).trans (div_mul_le_self _ _)

/-- Where a page has room for a single block, the empty page that a request takes is aligned as the
layout asks. -/
def SuitsPage (c : Fin 11) (layout : Layout) (next : Option ℕ) : Prop :=
  perPage c = 1 → ∀ page, next = some page → page % layout.align = 0

/-! ### Bitmaps by list -/

/-- The bitmap of a page of a list. The bits for which there is no room are set. -/
structure Bits (bf : Bitfield) (k : ℕ) (κ : Kind) : Prop where
  high : ∀ i, k ≤ i → i < 512 → bf.isAllocated i = true
  low : match κ with
    | .empty => ∀ i < k, bf.isAllocated i = false
    | .used => (k ≤ 1 → ∀ i < k, bf.isAllocated i = true) ∧
        (1 < k → ∃ i < k, bf.isAllocated i = false)
    | .full => 1 < k ∧ ∀ i < k, bf.isAllocated i = true

namespace Bits

variable {bf : Bitfield} {k idx : ℕ} {κ : Kind}

section

variable (h : Bits bf k κ)

include h

theorem index_lt (hidx : idx < 512) (hclear : bf.isAllocated idx = false) : idx < k := by
  by_contra hk
  rw [h.high idx (by omega) hidx] at hclear
  cases hclear

theorem isFull_iff (hk : k ≤ 512) : bf.isFull = true ↔ ∀ i < k, bf.isAllocated i = true := by
  rw [Bitfield.isFull_iff]
  refine ⟨fun hall i hi => hall i (by omega), fun hall i hi => ?_⟩
  by_cases hik : i < k
  · exact hall i hik
  · exact h.high i (by omega) hi

theorem high_setBit (i : ℕ) (hi : k ≤ i) (hi' : i < 512) :
    (bf.setBit idx).isAllocated i = true := by
  rw [isAllocated_setBit, h.high i hi hi', Bool.or_true]

theorem high_clearBit (hidx : idx < k) (i : ℕ) (hi : k ≤ i) (hi' : i < 512) :
    (bf.clearBit idx).isAllocated i = true := by
  rw [isAllocated_clearBit, h.high i hi hi', decide_eq_false (by omega)]
  rfl

end

/-- A page of the middle list that has a free block has room for more than one. -/
theorem one_lt (h : Bits bf k .used) (hidx : idx < k) (hclear : bf.isAllocated idx = false) :
    1 < k := by
  by_contra hk
  rw [h.low.1 (by omega) idx hidx] at hclear
  cases hclear

/-- A block of a page of the middle list is taken: the page is full now or stays. -/
theorem setBit (h : Bits bf k .used) (hk : k ≤ 512) (hidx : idx < k)
    (hclear : bf.isAllocated idx = false) :
    Bits (bf.setBit idx) k (if (bf.setBit idx).isFull then .full else .used) := by
  have hone := h.one_lt hidx hclear
  split_ifs with hfull
  · refine ⟨h.high_setBit, hone, fun i hi => ?_⟩
    exact Bitfield.isFull_iff.mp hfull i (by omega)
  refine ⟨h.high_setBit, fun hle => absurd hone (by omega), fun _ => ?_⟩
  by_contra hnone
  refine hfull (Bitfield.isFull_iff.mpr fun i hi => ?_)
  by_cases hik : i < k
  · by_contra hbit
    exact hnone ⟨i, hik, Bool.eq_false_iff.mpr hbit⟩
  · exact h.high_setBit i (by omega) hi

/-- The first block of an empty page is taken. -/
theorem setBit_zero (h : Bits bf k .empty) : Bits (bf.setBit 0) k .used := by
  refine ⟨h.high_setBit, fun hle i hi => ?_, fun hlt => ⟨1, hlt, ?_⟩⟩
  · rw [isAllocated_setBit, decide_eq_true (by omega), Bool.true_or]
  · rw [isAllocated_setBit, h.low 1 hlt]
    rfl

/-- An empty page with room for more than one block may be in the middle list as well. -/
theorem used_of_empty (h : Bits bf k .empty) (hk : 1 < k) : Bits bf k .used :=
  ⟨h.high, fun hle => absurd hk (by omega), fun _ => ⟨0, by omega, h.low 0 (by omega)⟩⟩

theorem clearBit_self (bf : Bitfield) (idx : ℕ) : (bf.clearBit idx).isAllocated idx = false := by
  rw [isAllocated_clearBit, decide_eq_true rfl]
  rfl

/-- The last block in use is given back: the page was in the middle list. -/
theorem kind_of_allFree (h : Bits bf k κ) (hidx : idx < k) (hset : bf.isAllocated idx = true)
    (hfree : ∀ i < k, (bf.clearBit idx).isAllocated i = false) :
    κ = .used ∧ Bits (bf.clearBit idx) k .empty := by
  refine ⟨?_, h.high_clearBit hidx, hfree⟩
  cases κ with
  | empty =>
    rw [h.low idx hidx] at hset
    cases hset
  | used => rfl
  | full => ?_
  -- with another block in use the page is not free
  obtain ⟨hone, hall⟩ := h.low
  obtain ⟨j, hj, hne⟩ : ∃ j < k, j ≠ idx := by
    by_cases hzero : idx = 0
    · exact ⟨1, hone, by omega⟩
    · exact ⟨0, by omega, by omega⟩
  have hbit := hfree j hj
  rw [isAllocated_clearBit, hall j hj, decide_eq_false hne] at hbit
  cases hbit

/-- Another block is given back: the page is in the middle list now, and was in the last one if it was
full. -/
theorem kind_of_not_allFree (h : Bits bf k κ) (hk : k ≤ 512) (hidx : idx < k)
    (hset : bf.isAllocated idx = true)
    (hfree : ¬ ∀ i < k, (bf.clearBit idx).isAllocated i = false) :
    κ = (if bf.isFull then .full else .used) ∧ Bits (bf.clearBit idx) k .used := by
  have hone : 1 < k := by
    by_contra hle
    refine hfree fun i hi => ?_
    rw [show i = idx by omega]
    exact clearBit_self bf idx
  refine ⟨?_, h.high_clearBit hidx, fun hle => absurd hone (by omega),
    fun _ => ⟨idx, hidx, clearBit_self bf idx⟩⟩
  cases κ with
  | empty =>
    rw [h.low idx hidx] at hset
    cases hset
  | used =>
    rw [if_neg]
    intro hfull
    obtain ⟨i, hi, hbit⟩ := h.low.2 hone
    rw [(h.isFull_iff hk).mp hfull i hi] at hbit
    cases hbit
  | full => rw [if_pos ((h.isFull_iff hk).mpr h.low.2)]

theorem initialized :
    Bits (initialized (classSize c) maxAllocSize) (perPage c) .empty := by
  refine ⟨fun i hi _ => ?_, fun i hi => ?_⟩ <;> rw [isAllocated_initialized]
  · exact decide_eq_true hi
  · exact decide_eq_false (not_le.mpr hi)

end Bits

/-! ### Pages in the right list -/

/-- The page at an address as a zone has it. -/
structure PageOk (mem : Memory) (heap : ℕ) (c : Fin 11) (κ : Kind) (b : ℕ) : Prop where
  heapId : (mem.pages b).heapId = heap
  mp : (mem.pages b).mp = some b
  aligned : b % objectPageSize = 0
  bits : Bits (mem.pages b).bitfield (perPage c) κ

/-- A size class of a zone with its pages. -/
structure ScOk (mem : Memory) (sc : SCAllocator) (heap : ℕ) (c : Fin 11) (l : Kind → List ℕ) :
    Prop where
  size_eq : sc.size = classSize c
  objPerPage_eq : sc.objPerPage = perPage c
  lists : Lists mem.links sc l
  page : ∀ κ, ∀ b ∈ l κ, PageOk mem heap c κ b

/-- Whether a block of a page is in use. -/
def Memory.bit (mem : Memory) (b i : ℕ) : Bool := (mem.pages b).bitfield.isAllocated i

/-- Nothing has changed at a page. -/
structure Memory.Same (mem mem' : Memory) (b : ℕ) : Prop where
  pages : mem'.pages b = mem.pages b
  next : mem'.links.next b = mem.links.next b
  prev : mem'.links.prev b = mem.links.prev b

section

variable {mem mem' : Memory} {heap b : ℕ} {c : Fin 11} (h : PageOk mem heap c κ b)

include h

theorem PageOk.congr (hpage : mem'.pages b = mem.pages b) : PageOk mem' heap c κ b := by
  obtain ⟨hid, hmp, haligned, hbits⟩ := h
  rw [← hpage] at hid hmp hbits
  exact ⟨hid, hmp, haligned, hbits⟩

/-- Only the bitmap of the page has changed. -/
theorem PageOk.withBits {κ' : Kind} (hpage : mem'.pages b = { mem.pages b with bitfield := bf })
    (hbits : Bits bf (perPage c) κ') : PageOk mem' heap c κ' b := by
  refine ⟨?_, ?_, h.aligned, ?_⟩ <;> rw [hpage]
  · exact h.heapId
  · exact h.mp
  · exact hbits

end

/-- The blocks in use in the pages of a size class. -/
structure On (mem : Memory) (c : Fin 11) (l : Kind → List ℕ) (b i : ℕ) : Prop where
  page : Pages l b
  lt : i < perPage c
  bit : mem.bit b i = true

/-- What a call has made of a size class: its pages and the blocks in use are as said, and what is
neither one of its pages before nor after has not changed. -/
structure Replaced (mem : Memory) (l : Kind → List ℕ) (mem' : Memory) (sc' : SCAllocator)
    (heap : ℕ) (c : Fin 11) (l' : Kind → List ℕ) (pages : ℕ → Prop) (on : ℕ → ℕ → Prop) :
    Prop where
  ok : ScOk mem' sc' heap c l'
  frame : ∀ x, ¬ Pages l x → ¬ Pages l' x → mem.Same mem' x
  pages_iff : ∀ x, Pages l' x ↔ pages x
  on_iff : ∀ x i, On mem' c l' x i ↔ on x i

section Operations

variable {mem mem' : Memory} {sc sc' : SCAllocator} {heap x : ℕ} {c : Fin 11} {l l' : Kind → List ℕ}
  {layout : Layout} {b : ℕ} {l₁ l₂ : List ℕ} {source target : Kind}

section

variable (h : ScOk mem sc heap c l)

include h

theorem ScOk.congr (hsame : ∀ x, Pages l x → mem.Same mem' x) : ScOk mem' sc heap c l :=
  ⟨h.size_eq, h.objPerPage_eq,
    h.lists.congr fun κ a ha => ⟨(hsame a ⟨κ, ha⟩).next, (hsame a ⟨κ, ha⟩).prev⟩,
    fun κ x hx => (h.page κ x hx).congr (hsame x ⟨κ, hx⟩).pages⟩

/-- The lists have changed, but the pages other than one are in those that they were in. -/
theorem ScOk.relist (hsize : sc'.size = sc.size) (hobj : sc'.objPerPage = sc.objPerPage)
    (hlists : Lists mem'.links sc' l') (hother : ∀ x ≠ b, mem'.pages x = mem.pages x)
    (hmem : ∀ κ x, x ∈ l' κ → x ≠ b → x ∈ l κ) (hpage : ∀ κ, b ∈ l' κ → PageOk mem' heap c κ b) :
    ScOk mem' sc' heap c l' := by
  refine ⟨hsize.trans h.size_eq, hobj.trans h.objPerPage_eq, hlists, fun κ x hx => ?_⟩
  by_cases hxb : x = b
  · rw [hxb] at hx ⊢
    exact hpage κ hx
  · exact (h.page κ x (hmem κ x hx hxb)).congr (hother x hxb)

/-- A page has gone from one list to another. -/
theorem ScOk.moved (hne : target ≠ source) (hl : l source = l₁ ++ b :: l₂) {pl pl' : PageList}
    (hlists : Lists mem'.links ((sc.setList source pl).setList target pl')
      (update (update l source (l₁ ++ l₂)) target (b :: l target)))
    (hother : ∀ x ≠ b, mem'.pages x = mem.pages x) (hpage : PageOk mem' heap c target b) :
    ScOk mem' ((sc.setList source pl).setList target pl') heap c
      (update (update l source (l₁ ++ l₂)) target (b :: l target)) := by
  have hmem := h.lists.mem_moved hne hl
  refine h.relist (by simp) (by simp) hlists hother (fun κ x hx hxb => ?_) fun κ hb => ?_
  · exact (((hmem κ x).mp hx).resolve_left fun hx => hxb hx.2).1
  · rw [(((hmem κ b).mp hb).resolve_right fun hb => hb.2 rfl).1]
    exact hpage

end

/-- Another description of the same blocks. -/
theorem Replaced.congr {pages pages' : ℕ → Prop} {on on' : ℕ → ℕ → Prop}
    (h : Replaced mem l mem' sc' heap c l' pages on) (hpages : ∀ x, pages x ↔ pages' x)
    (hon : ∀ x i, on x i ↔ on' x i) : Replaced mem l mem' sc' heap c l' pages' on' :=
  ⟨h.ok, h.frame, fun x => (h.pages_iff x).trans (hpages x),
    fun x i => (h.on_iff x i).trans (hon x i)⟩

/-! ### A new bitmap for a page -/

/-- The memory with another bitmap in a page. -/
def Memory.setBits (mem : Memory) (b : ℕ) (bf : Bitfield) : Memory :=
  mem.setPage b { mem.pages b with bitfield := bf }

theorem Memory.pages_setBits_self (mem : Memory) (b : ℕ) (bf : Bitfield) :
    (mem.setBits b bf).pages b = { mem.pages b with bitfield := bf } := update_self _ _ _

theorem Memory.pages_setBits_of_ne (mem : Memory) (bf : Bitfield) (hx : x ≠ b) :
    (mem.setBits b bf).pages x = mem.pages x := update_of_ne hx _ _

theorem Memory.bit_setBits (mem : Memory) (b : ℕ) (bf : Bitfield) (x i : ℕ) :
    (mem.setBits b bf).bit x i = if x = b then bf.isAllocated i else mem.bit x i := by
  split_ifs with hx
  · rw [hx, bit, pages_setBits_self]
  · rw [bit, pages_setBits_of_ne mem bf hx, bit]

/-- A block is taken. -/
theorem on_setBit (mem : Memory) {idx : ℕ} (hb : Pages l b) (hidx : idx < perPage c) (x i : ℕ) :
    On (mem.setBits b ((mem.pages b).bitfield.setBit idx)) c l x i ↔
      On mem c l x i ∨ x = b ∧ i = idx := by
  have hbit : (mem.setBits b ((mem.pages b).bitfield.setBit idx)).bit x i =
      (decide (x = b ∧ i = idx) || mem.bit x i) := by
    rw [bit_setBits, isAllocated_setBit]
    by_cases hx : x = b
    · simp [hx, Memory.bit]
    · simp [hx]
  constructor
  · rintro ⟨hpage, hlt, hon⟩
    rw [hbit, Bool.or_eq_true, decide_eq_true_eq] at hon
    rcases hon with hon | hon
    · exact .inr hon
    · exact .inl ⟨hpage, hlt, hon⟩
  · rintro (⟨hpage, hlt, hon⟩ | ⟨rfl, rfl⟩)
    · exact ⟨hpage, hlt, by rw [hbit, hon, Bool.or_true]⟩
    · exact ⟨hb, hidx, by rw [hbit]; simp⟩

/-- A block is given back. -/
theorem on_clearBit (mem : Memory) (c : Fin 11) (l : Kind → List ℕ) (b idx x i : ℕ) :
    On (mem.setBits b ((mem.pages b).bitfield.clearBit idx)) c l x i ↔
      On mem c l x i ∧ ¬ (x = b ∧ i = idx) := by
  have hbit : (mem.setBits b ((mem.pages b).bitfield.clearBit idx)).bit x i =
      (!decide (x = b ∧ i = idx) && mem.bit x i) := by
    rw [bit_setBits, isAllocated_clearBit]
    by_cases hx : x = b
    · simp [hx, Memory.bit]
    · simp [hx]
  constructor
  · rintro ⟨hpage, hlt, hon⟩
    rw [hbit, Bool.and_eq_true, Bool.not_eq_true', decide_eq_false_iff_not] at hon
    exact ⟨⟨hpage, hlt, hon.2⟩, hon.1⟩
  · rintro ⟨⟨hpage, hlt, hon⟩, hne⟩
    exact ⟨hpage, hlt, by rw [hbit, hon, decide_eq_false hne]; rfl⟩

/-- The lists have changed, but neither whether a page is in them nor its bitmap. -/
theorem on_congr (hpages : Pages l' x ↔ Pages l x) (hsame : mem'.pages x = mem.pages x) (i : ℕ) :
    On mem' c l' x i ↔ On mem c l x i := by
  have hbit : mem'.bit x i = mem.bit x i := by rw [Memory.bit, hsame, Memory.bit]
  constructor <;> rintro ⟨hpage, hlt, hon⟩
  · exact ⟨hpages.mp hpage, hlt, hbit ▸ hon⟩
  · exact ⟨hpages.mpr hpage, hlt, hbit ▸ hon⟩

/-- The page stays in its list. -/
theorem ScOk.setBits (h : ScOk mem sc heap c l) (hb : b ∈ l κ) (hbits : Bits bf (perPage c) κ) :
    Replaced mem l (mem.setBits b bf) sc heap c l (Pages l) (On (mem.setBits b bf) c l) := by
  refine ⟨⟨h.size_eq, h.objPerPage_eq, h.lists, fun κ' x hx => ?_⟩, fun x hx _ => ?_,
    fun _ => .rfl, fun _ _ => .rfl⟩
  · by_cases hxb : x = b
    · rw [h.lists.apart κ' κ b (hxb ▸ hx) hb, hxb]
      exact (h.page κ b hb).withBits (mem.pages_setBits_self b bf) hbits
    · exact (h.page κ' x hx).congr (mem.pages_setBits_of_ne bf hxb)
  · exact ⟨mem.pages_setBits_of_ne bf fun he => hx ⟨κ, he ▸ hb⟩, rfl, rfl⟩

/-- The page goes to another list. -/
theorem ScOk.move (h : ScOk mem sc heap c l) (hne : target ≠ source) (hb : b ∈ l source)
    (hbits : Bits bf (perPage c) target) :
    ∃ l', Replaced mem l (sc.move (mem.setBits b bf) source target b).2
      (sc.move (mem.setBits b bf) source target b).1 heap c l' (Pages l)
      (On (mem.setBits b bf) c l) := by
  obtain ⟨l₁, l₂, hl⟩ := append_of_mem hb
  have hpages := h.lists.pages_moved hne hl
  refine ⟨_, h.moved hne hl (h.lists.move hne hl) ?_ ?_, fun x hx _ => ?_, hpages,
    fun x => on_congr (hpages x) rfl⟩
  · exact fun x hx => mem.pages_setBits_of_ne bf hx
  · exact (h.page source b hb).withBits (mem.pages_setBits_self b bf) hbits
  · have hxb : x ≠ b := fun he => hx ⟨source, he ▸ hb⟩
    obtain ⟨hnext, hprev⟩ := Lists.move_of_not_mem (mem.setBits b bf) h.lists hne hl (a := x)
      fun κ hκ => hx ⟨κ, hκ⟩
    exact ⟨mem.pages_setBits_of_ne bf hxb, hnext, hprev⟩

/-! ### Allocation -/

/-- The block that a call returns: it was free, and is aligned. -/
structure Served (mem : Memory) (c : Fin 11) (l : Kind → List ℕ) (align ptr b idx : ℕ) : Prop where
  page : Pages l b
  lt : idx < perPage c
  clear : mem.bit b idx = false
  ptr_eq : ptr = b + idx * classSize c
  aligned : ptr % align = 0

variable {fuel : ℕ}

/-- The walk along a list ends, at a page with a block to offer if anywhere. -/
theorem findPage_spec (layout : Layout) {p head : Option ℕ} {row : List ℕ}
    (hrow : Links.Row mem.links none p row) (hhead : head = row.head?) (hfuel : row.length ≤ fuel) :
    findPage mem layout fuel head = .ok none ∨
      ∃ page ∈ row, findPage mem layout fuel head = .ok (some page) ∧
        ((mem.pages page).bitfield.firstFit page layout).isSome := by
  induction row generalizing p head fuel with
  | nil =>
    subst hhead
    exact .inl (findPage.eq_1 _ _ _)
  | cons a row ih =>
    obtain ⟨-, hnext, hrest⟩ := hrow
    subst hhead
    cases fuel with
    | zero => cases hfuel
    | succ fuel => ?_
    rw [head?_cons, findPage]
    split_ifs with hfit
    · exact .inr ⟨a, mem_cons_self, rfl, hfit⟩
    · rw [Option.or_none] at hnext
      rcases ih hrest hnext (le_of_succ_le_succ hfuel) with hnone | ⟨page, hpage, hfound⟩
      · exact .inl hnone
      · exact .inr ⟨page, mem_cons_of_mem _ hpage, hfound⟩

/-- A page of the middle list gives out a block. -/
theorem ScOk.tryAllocateFromPagelist (h : ScOk mem sc heap c l) (layout : Layout)
    (hfuel : (l .used).length ≤ fuel) (hsize : layout.size = sc.size) :
    sc.tryAllocateFromPagelist mem fuel layout = (.ok none, sc, mem) ∨
      ∃ ptr b idx sc' mem' l',
        sc.tryAllocateFromPagelist mem fuel layout = (.ok (some ptr), sc', mem') ∧
        Served mem c l layout.align ptr b idx ∧ Replaced mem l mem' sc' heap c l' (Pages l)
          fun x i => On mem c l x i ∨ x = b ∧ i = idx := by
  have hlist := h.lists.isList .used
  rw [SCAllocator.tryAllocateFromPagelist]
  rcases findPage_spec layout hlist.row hlist.head_eq hfuel with
    hnone | ⟨page, hpage, hfound, hfit⟩
  · rw [show sc.slabs.head = (sc.list .used).head from rfl, hnone]
    exact .inl rfl
  right
  rw [show sc.slabs.head = (sc.list .used).head from rfl, hfound]
  obtain ⟨⟨idx, addr⟩, hfit⟩ := Option.isSome_iff_exists.mp hfit
  obtain ⟨hidx, hclear, haddr, haligned, -⟩ := firstFit_spec hfit
  have hok := h.page .used page hpage
  have hlt := hok.bits.index_lt hidx hclear
  have hbits := hok.bits.setBit (perPage_le c) hlt hclear
  have hserved : Served mem c l layout.align addr page idx :=
    ⟨⟨.used, hpage⟩, hlt, hclear, by rw [haddr, hsize, h.size_eq], haligned⟩
  have hon := on_setBit mem ⟨.used, hpage⟩ hlt
  dsimp only
  rw [Memory.allocate, hfit]
  change ∃ ptr b idx sc' mem' l', (if ((mem.setBits page _).pages page).bitfield.isFull then _
    else _) = _ ∧ _
  rw [mem.pages_setBits_self]
  split_ifs at hbits ⊢ with hfull
  · obtain ⟨l', hreplaced⟩ := h.move (by decide) hpage hbits
    exact ⟨addr, page, idx, _, _, l', rfl, hserved, hreplaced.congr (fun _ => .rfl) hon⟩
  · exact ⟨addr, page, idx, _, _, l, rfl, hserved,
      (h.setBits hpage hbits).congr (fun _ => .rfl) hon⟩

/-- An empty page has a block for the layout exactly if the page itself is aligned as the layout asks:
the alignment is a power of two, so that beyond that of pages it is met by none of the addresses
inside of one. -/
theorem firstFit_empty (layout : Layout) {k : ℕ} (hbits : Bits bf k .empty) (hk : 0 < k)
    (hb : b % objectPageSize = 0) :
    bf.firstFit b layout = if b % layout.align = 0 then some (0, b) else none := by
  split_ifs with halign
  · exact firstFit_of_free (hbits.low 0 hk) halign
  cases hfit : bf.firstFit b layout with
  | none => rfl
  | some r => ?_
  obtain ⟨idx, addr⟩ := r
  obtain ⟨-, -, rfl, haligned, hroom⟩ := firstFit_spec hfit
  obtain ⟨n, hn⟩ := layout.powerOfTwo
  have hpage : objectPageSize = 2 ^ 13 := rfl
  have hdvd : objectPageSize ∣ layout.align := by
    rw [hpage, hn]
    refine Nat.pow_dvd_pow 2 (Nat.le_of_not_lt fun hlt => halign ?_)
    rw [hn]
    exact mod_eq_zero_of_dvd ((pow_dvd_pow 2 hlt.le).trans (dvd_of_mod_eq_zero hb))
  have hsum : objectPageSize ∣ b + idx * layout.size :=
    hdvd.trans (dvd_of_mod_eq_zero haligned)
  have hoffset := (Nat.dvd_add_right (Nat.dvd_of_mod_eq_zero hb)).mp hsum
  have hzero : idx * layout.size = 0 := by
    refine eq_zero_of_dvd_of_lt hoffset (hroom.trans_lt ?_)
    exact (sub_le _ _).trans_lt (by decide)
  rw [hzero] at haligned
  exact absurd haligned halign

/-- An empty page becomes one of the middle list. -/
theorem ScOk.useEmpty (h : ScOk mem sc heap c l) (hl : l .empty = b :: l₂)
    (hbits : Bits bf (perPage c) .used) (n m : ℕ) :
    ∃ l', Replaced mem l
      { pages := (mem.setBits b bf).pages
        links := (mem.links.pop b).2.insertFront sc.slabs.head b }
      ((sc.setList .empty ⟨(mem.links.pop b).1, n⟩).setList .used ⟨some b, m⟩) heap c l' (Pages l)
      (On (mem.setBits b bf) c l) := by
  have hsplit : l .empty = [] ++ b :: l₂ := hl
  have hb : b ∈ l .empty := hl ▸ mem_cons_self
  have hne : Kind.used ≠ .empty := by decide
  have hpop := h.lists.pop hl n
  have hpages := h.lists.pages_moved hne hsplit
  have hnot := fun κ hmem => ((h.lists.mem_taken hsplit κ b).mp hmem).2 rfl
  have hinsert := hpop.insert .used hnot (Links.next_pop_self mem.links b) m
  refine ⟨_, h.moved hne hsplit hinsert ?_ ?_, fun x hx _ => ?_, hpages,
    fun x => on_congr (hpages x) rfl⟩
  · exact fun x hx => mem.pages_setBits_of_ne bf hx
  · exact (h.page .empty b hb).withBits (mem.pages_setBits_self b bf) hbits
  · have hxb : x ≠ b := fun he => hx ⟨.empty, he ▸ hb⟩
    have hlist := h.lists.isList .empty
    rw [hl] at hlist
    obtain ⟨hnext, hprev⟩ := hlist.pop_of_not_mem (hl ▸ fun hmem => hx ⟨.empty, hmem⟩)
    obtain ⟨hnext', hprev'⟩ := Links.insertFront_of_not_mem (L := (mem.links.pop b).2)
      (h.lists.isList .used).head_eq (a := b) (b := x)
      (not_or.mpr ⟨hxb, fun hmem => hx ⟨.used, hmem⟩⟩ ∘ mem_cons.mp)
    exact ⟨mem.pages_setBits_of_ne bf hxb, hnext'.trans hnext, hprev'.trans hprev⟩

theorem Memory.setBits_self (mem : Memory) (b : ℕ) :
    mem.setBits b (mem.pages b).bitfield = mem := by
  rw [setBits, setPage]
  congr
  exact Function.update_eq_self b mem.pages

/-- A zone without pages. -/
theorem ScOk.new (links : Links ℕ) (pages : ℕ → ObjectPage) :
    ScOk ⟨pages, links⟩ (.new (classSize c)) heap c fun _ => [] := by
  refine ⟨rfl, rfl, ⟨fun κ => ⟨?_, trivial, nodup_nil⟩, fun κ κ' b hb => ?_⟩, fun κ b hb => ?_⟩
  · cases κ <;> rfl
  · cases hb
  · cases hb

variable (h : ScOk mem sc heap c l)

include h

/-- **A request is served, or the blocks in use stay the same.** With room for a single block in a page,
an empty page that is taken must be aligned as the layout asks. -/
theorem ScOk.allocate (hfuel : (l .used).length ≤ fuel) (hsize : layout.size ≤ classSize c)
    (hsuits : SuitsPage c layout sc.emptySlabs.head) :
    (∃ ptr b idx sc' mem' l', sc.allocate mem fuel layout = (.ok ptr, sc', mem') ∧
      Served mem c l layout.align ptr b idx ∧ Replaced mem l mem' sc' heap c l' (Pages l)
        fun x i => On mem c l x i ∨ x = b ∧ i = idx) ∨
    ∃ e sc' mem' l', sc.allocate mem fuel layout = (.err e, sc', mem') ∧
      Replaced mem l mem' sc' heap c l' (Pages l) (On mem c l) ∧
      (perPage c = 1 → sc' = sc ∧ mem' = mem ∧ sc.emptySlabs.head = none) := by
  have hroom : layout.size ≤ sc.size ∧ sc.size ≤ objectPageSize - 64 := by
    rw [h.size_eq]
    exact ⟨hsize, (classSize_le c).trans (by decide)⟩
  rw [SCAllocator.allocate, if_pos hroom]
  rcases h.tryAllocateFromPagelist ⟨sc.size, layout.align, layout.powerOfTwo⟩ hfuel rfl
    with htry | ⟨ptr, b, idx, sc', mem', l', htry, hserved, hreplaced⟩
  swap
  · rw [htry]
    exact .inl ⟨ptr, b, idx, sc', mem', l', rfl, hserved, hreplaced⟩
  rw [htry]
  dsimp only
  have hhead : sc.emptySlabs.head = (l .empty).head? := (h.lists.isList .empty).head_eq
  rw [PageList.pop]
  cases hl : l .empty with
  | nil =>
    rw [hl] at hhead
    rw [hhead]
    exact .inr ⟨_, sc, mem, l, rfl,
      ⟨h, fun x _ _ => ⟨rfl, rfl, rfl⟩, fun _ => .rfl, fun _ _ => .rfl⟩,
      fun _ => ⟨rfl, rfl, rfl⟩⟩
  | cons b l₂ =>
    have hb : b ∈ l .empty := hl ▸ mem_cons_self
    have hok := h.page .empty b hb
    rw [hl] at hhead
    rw [hhead] at hsuits ⊢
    have hfit := firstFit_empty layout hok.bits (perPage_pos c) hok.aligned
    dsimp only [head?_cons]
    rw [Memory.allocate]
    rw [hfit]
    by_cases halign : b % layout.align = 0
    · rw [if_pos halign]
      have hserved : Served mem c l layout.align b b 0 :=
        ⟨⟨.empty, hb⟩, perPage_pos c, hok.bits.low 0 (perPage_pos c), by rw [zero_mul]; rfl,
          halign⟩
      obtain ⟨l', hreplaced⟩ := h.useEmpty hl hok.bits.setBit_zero _ _
      exact .inl ⟨b, b, 0, _, _, l', rfl, hserved,
        hreplaced.congr (fun _ => .rfl) (on_setBit mem hserved.page hserved.lt)⟩
    · rw [if_neg halign]
      -- the page is moved without a block in use, which only a page with more room may be
      have hmany : perPage c ≠ 1 := fun hone => halign (hsuits hone b rfl)
      have hlt : 1 < perPage c := by
        have := perPage_pos c
        omega
      obtain ⟨l', hreplaced⟩ := h.useEmpty hl (hok.bits.used_of_empty hlt) _ _
      rw [setBits_self] at hreplaced
      exact .inr ⟨_, _, _, l', rfl, hreplaced, fun hone => absurd hone hmany⟩

/-! ### Deallocation -/

/-- **A block in use is given back.** -/
theorem ScOk.deallocate (hsize : layout.size ≤ classSize c) {idx : ℕ} (hon : On mem c l b idx) :
    ∃ sc' mem' l', sc.deallocate mem (b + idx * classSize c) layout = (.ok (), sc', mem') ∧
      Replaced mem l mem' sc' heap c l' (Pages l) fun x i => On mem c l x i ∧ ¬ (x = b ∧ i = idx) := by
  obtain ⟨⟨κ, hb⟩, hidx, hbit⟩ := hon
  have hok := h.page κ b hb
  have hroom : layout.size ≤ sc.size ∧ sc.size ≤ objectPageSize - 64 := by
    rw [h.size_eq]
    exact ⟨hsize, (classSize_le c).trans (by decide)⟩
  have hpos := classSize_pos c
  have hlast : idx * classSize c < objectPageSize := by
    have hmul : (idx + 1) * classSize c ≤ perPage c * classSize c := mul_le_mul_right _ hidx
    have hle := hmul.trans (perPage_mul_le c)
    rw [succ_mul] at hle
    have : maxAllocSize < objectPageSize := by decide
    omega
  have hoffset : (b + idx * classSize c) % objectPageSize = idx * classSize c := by
    rw [add_mod, hok.aligned, zero_add, mod_mod, mod_eq_of_lt hlast]
  have hcleared : mem.deallocate b (b + idx * classSize c) ⟨sc.size, layout.align, layout.powerOfTwo⟩
      = (.ok (), mem.setBits b ((mem.pages b).bitfield.clearBit idx)) := by
    have hset : (mem.pages b).bitfield.isAllocated idx = true := hbit
    have hlt := perPage_le c
    rw [Memory.deallocate]
    rw [hoffset, h.size_eq, mul_mod_left, if_neg (fun hne => hne rfl),
      Nat.mul_div_cancel _ hpos, if_neg (by omega), hset]
    rfl
  have hon := on_clearBit mem c l b idx
  rw [SCAllocator.deallocate, if_pos hroom]
  dsimp only
  rw [hoffset, Nat.add_sub_cancel, hcleared]
  dsimp only
  rw [mem.pages_setBits_self, h.objPerPage_eq]
  by_cases hfree : ∀ i < perPage c, ((mem.pages b).bitfield.clearBit idx).isAllocated i = false
  · rw [if_pos ((allFree_iff (perPage_le c)).mpr hfree)]
    obtain ⟨rfl, hbits⟩ := hok.bits.kind_of_allFree hidx hbit hfree
    obtain ⟨l', hreplaced⟩ := h.move (by decide) hb hbits
    exact ⟨_, _, l', rfl, hreplaced.congr (fun _ => .rfl) hon⟩
  rw [if_neg fun hall => hfree ((allFree_iff (perPage_le c)).mp hall)]
  obtain ⟨hκ, hbits⟩ := hok.bits.kind_of_not_allFree (perPage_le c) hidx hbit hfree
  split_ifs at hκ ⊢ with hfull <;> subst hκ
  · obtain ⟨l', hreplaced⟩ := h.move (by decide) hb hbits
    exact ⟨_, _, l', rfl, hreplaced.congr (fun _ => .rfl) hon⟩
  · exact ⟨_, _, l, rfl, (h.setBits hb hbits).congr (fun _ => .rfl) hon⟩

/-! ### Pages come and go -/

/-- **A new page.** It must be in no list of the class. -/
theorem ScOk.refill (hb : ¬ Pages l b) (haligned : b % objectPageSize = 0) :
    ∃ l', Replaced mem l (sc.refill mem b heap).2 (sc.refill mem b heap).1 heap c l'
      (fun x => x = b ∨ Pages l x) (On mem c l) := by
  have hnot : ∀ x, Pages l x → x ≠ b := fun x hx he => hb (he ▸ hx)
  have hcleared : Lists ⟨update mem.links.next b none,
      update mem.links.prev b none⟩ sc l := h.lists.congr fun κ a ha =>
    ⟨update_of_ne (hnot a ⟨κ, ha⟩) _ _, update_of_ne (hnot a ⟨κ, ha⟩) _ _⟩
  have hlists := hcleared.insert .empty (fun κ hκ => hb ⟨κ, hκ⟩)
    (update_self _ _ _) (wrap (sc.emptySlabs.elements + 1))
  have hself : (sc.refill mem b heap).2.pages b =
      ⟨some b, heap, initialized (classSize c) maxAllocSize⟩ := by
    rw [← h.size_eq]
    exact update_self _ _ _
  have hother : ∀ x ≠ b, (sc.refill mem b heap).2.pages x = mem.pages x :=
    fun x hx => update_of_ne hx _ _
  refine ⟨_, h.relist (size_setList _ _ _) (objPerPage_setList _ _ _) hlists
    hother ?_ fun κ hκ => ?_, fun x hx hx' => ?_, pages_put, fun x i => ?_⟩
  · exact fun κ x hx hxb => ((mem_put κ x).mp hx).resolve_left fun hx => hxb hx.2
  · rw [(((mem_put κ b).mp hκ).resolve_right fun hκ => hb ⟨κ, hκ⟩).1]
    refine ⟨by rw [hself], by rw [hself], haligned, ?_⟩
    rw [hself]
    exact Bits.initialized c
  · rw [pages_put, not_or] at hx'
    obtain ⟨hnext, hprev⟩ := Links.insertFront_of_not_mem (b := x) (a := b)
      (L := ⟨update mem.links.next b none, update mem.links.prev b none⟩)
      (h.lists.isList .empty).head_eq
      (not_or.mpr ⟨hx'.1, fun hmem => hx ⟨.empty, hmem⟩⟩ ∘ mem_cons.mp)
    exact ⟨hother x hx'.1, hnext.trans (update_of_ne hx'.1 _ _),
      hprev.trans (update_of_ne hx'.1 _ _)⟩
  · by_cases hxb : x = b
    · -- neither before nor after is a block of the page in use
      rw [hxb]
      refine iff_of_false ?_ fun hon => hb hon.page
      rintro ⟨-, hlt, hbit⟩
      rw [Memory.bit, hself, (Bits.initialized c).low i hlt] at hbit
      cases hbit
    · exact on_congr ((pages_put x).trans (or_iff_right hxb)) (hother x hxb) i

/-- **An empty page is given back.** -/
theorem ScOk.retrieveEmptyPage :
    sc.emptySlabs.head = none ∧ sc.retrieveEmptyPage mem = (none, sc, mem) ∨
      ∃ b sc' mem' l', sc.emptySlabs.head = some b ∧
        sc.retrieveEmptyPage mem = (some b, sc', mem') ∧ Pages l b ∧ (∀ i, ¬ On mem c l b i) ∧
        Replaced mem l mem' sc' heap c l' (fun x => Pages l x ∧ x ≠ b) (On mem c l) := by
  have hhead : sc.emptySlabs.head = (l .empty).head? := (h.lists.isList .empty).head_eq
  rw [SCAllocator.retrieveEmptyPage, PageList.pop]
  cases hl : l .empty with
  | nil =>
    rw [hl] at hhead
    rw [hhead]
    exact .inl ⟨rfl, rfl⟩
  | cons b l₂ => ?_
  have hb : b ∈ l .empty := hl ▸ mem_cons_self
  have hok := h.page .empty b hb
  have hfree : ∀ i, ¬ On mem c l b i := by
    rintro i ⟨-, hlt, hbit⟩
    rw [Memory.bit, hok.bits.low i hlt] at hbit
    cases hbit
  have hsplit : l .empty = [] ++ b :: l₂ := hl
  have hpop := h.lists.pages_taken hsplit
  have hother : ∀ x ≠ b, update mem.pages b { mem.pages b with mp := none } x =
      mem.pages x := fun x hx => update_of_ne hx _ _
  rw [hl] at hhead
  rw [hhead]
  dsimp only [head?_cons]
  rw [hok.mp]
  refine .inr ⟨b, _, _, update l .empty l₂, rfl, rfl, ⟨.empty, hb⟩, hfree,
    h.relist (by simp) (by simp) (h.lists.pop hl _) hother ?_ fun κ hκ => ?_, fun x hx _ => ?_,
    hpop, fun x i => ?_⟩
  · exact fun κ x hx _ => ((h.lists.mem_taken hsplit κ x).mp hx).1
  · exact absurd rfl ((h.lists.mem_taken hsplit κ b).mp hκ).2
  · have hlist := h.lists.isList .empty
    rw [hl] at hlist
    obtain ⟨hnext, hprev⟩ := hlist.pop_of_not_mem (hl ▸ fun hmem => hx ⟨.empty, hmem⟩)
    exact ⟨hother x fun he => hx ⟨.empty, he ▸ hb⟩, hnext, hprev⟩
  · by_cases hxb : x = b
    · rw [hxb]
      exact iff_of_false (fun hon => ((hpop b).mp hon.page).2 rfl) (hfree i)
    · exact on_congr ((hpop x).trans (and_iff_left hxb)) (hother x hxb) i

end Operations

end Maios.Slab
