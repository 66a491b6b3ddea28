import Maios.Heap.SlabZones

/-!
# Blocks of the slab allocator do not overlap

In every run of calls of any number of zones, the blocks in use are aligned as asked for, lie in the
data areas of pages and do not overlap, and no page with a block in use is given back, as long as no
request breaks one rule: where there is room for a single block in a page, the empty page that the
request takes must be aligned as the layout asks.

Pages are aligned to 8 KiB, so that the rule matters for layouts beyond that only. Such a request
gets no block from the page, but the page counts as one with blocks in use; once it has a block it
counts as full; and when the block is given back it is taken out of a list that it is not in. The
lists are not what they should be from then on.

## Main results

* `HeapState.step_inv` — a call keeps the invariant
* `blocks_sound` — blocks in use are as they should be along every run
-/

namespace Maios.Slab

open List Nat

/-! ### Where blocks are -/

/-- The block for the layout at the address is in use, and belongs to the zone. -/
structure At (used : ℕ × Fin 11 → ℕ → ℕ → Prop) (heap : ℕ) (layout : Layout) (ptr : ℕ)
    (c : Fin 11) (b idx : ℕ) : Prop where
  slab : getSlab layout.size = some c
  used : used (heap, c) b idx
  ptr_eq : ptr = b + idx * classSize c

/-- The size of the block that is given for a layout. -/
def Layout.blockSize (layout : Layout) : ℕ := (getSlab layout.size).elim 0 classSize

section Blocks

variable {mem : Memory} {zones : ℕ → ZoneAllocator} {pages : ℕ → Prop}
  {used : ℕ × Fin 11 → ℕ → ℕ → Prop} {heap heap' ptr ptr' b b' idx idx' align : ℕ}
  {layout layout' : Layout} {c c' : Fin 11}

theorem At.blockSize (h : At used heap layout ptr c b idx) : layout.blockSize = classSize c := by
  rw [Layout.blockSize, h.slab]
  rfl

theorem index_fits (h : idx < perPage c) : (idx + 1) * classSize c ≤ maxAllocSize :=
  (mul_le_mul_right _ h).trans (perPage_mul_le c)

/-- A block is inside of the data area of its page. -/
theorem At.inside (hplaced : Placed mem zones pages used) (h : At used heap layout ptr c b idx) :
    pages b ∧ b % objectPageSize = 0 ∧ b ≤ ptr ∧
      ptr + layout.blockSize ≤ b + maxAllocSize := by
  obtain ⟨hpage, hlt⟩ := hplaced.page_of_used h.used
  have hfits : (idx + 1) * classSize c ≤ maxAllocSize := index_fits hlt
  rw [succ_mul] at hfits
  have hptr := h.ptr_eq
  have hsize := h.blockSize
  exact ⟨hpage, hplaced.aligned hpage, by omega, by omega⟩

/-- Data areas of different pages are apart. -/
theorem page_apart {x y : ℕ} (hx : x % objectPageSize = 0) (hy : y % objectPageSize = 0)
    (hne : x ≠ y) : x + objectPageSize ≤ y ∨ y + objectPageSize ≤ x := by
  rw [objectPageSize] at *
  omega

theorem maxAllocSize_le : maxAllocSize ≤ objectPageSize := by decide

/-- **Blocks at different addresses do not overlap.** -/
theorem At.apart (hplaced : Placed mem zones pages used) (h : At used heap layout ptr c b idx)
    (h' : At used heap' layout' ptr' c' b' idx') (hne : ptr ≠ ptr') :
    ptr + layout.blockSize ≤ ptr' ∨ ptr' + layout'.blockSize ≤ ptr := by
  have hmax := maxAllocSize_le
  obtain ⟨-, haligned, hle, hend⟩ := h.inside hplaced
  obtain ⟨-, haligned', hle', hend'⟩ := h'.inside hplaced
  obtain rfl | hb := eq_or_ne b b'
  · obtain ⟨rfl, rfl⟩ := Prod.mk.inj (hplaced.owner h.used h'.used)
    rw [h.blockSize, h'.blockSize]
    have hptr := h.ptr_eq
    have hptr' := h'.ptr_eq
    rcases lt_or_ge idx idx' with hlt | hge
    · have hmul : (idx + 1) * classSize c ≤ idx' * classSize c := mul_le_mul_right _ hlt
      rw [succ_mul] at hmul
      omega
    have hidx : idx' < idx := by
      refine lt_of_le_of_ne hge fun he => hne ?_
      rw [hptr, hptr', he]
    have hmul : (idx' + 1) * classSize c ≤ idx * classSize c := mul_le_mul_right _ hidx
    rw [succ_mul] at hmul
    omega
  · rcases page_apart haligned haligned' hb with hlt | hlt
    · omega
    · omega

/-- A block stays in use when another one is taken. -/
theorem At.withBlock (h : At used heap layout ptr c b idx) (p : ℕ × Fin 11) (x i : ℕ) :
    At (withBlock used p x i) heap layout ptr c b idx := ⟨h.slab, .inl h.used, h.ptr_eq⟩

/-- A block stays in use when one at another address is given back. -/
theorem At.withoutBlock (h : At used heap layout ptr c b idx) (hne : ptr ≠ b' + idx' * classSize c') :
    At (withoutBlock used (heap', c') b' idx') heap layout ptr c b idx := by
  refine ⟨h.slab, ⟨h.used, ?_⟩, h.ptr_eq⟩
  rintro ⟨hp, rfl, rfl⟩
  cases hp
  exact hne h.ptr_eq

theorem Gives.at (h : Gives pages used heap c align ptr b idx) (hc : getSlab layout.size = some c) :
    At (withBlock used (heap, c) b idx) heap layout ptr c b idx :=
  ⟨hc, .inr ⟨rfl, rfl, rfl⟩, h.ptr_eq⟩

/-- A new block is not at the address of one in use. -/
theorem Gives.fresh (h : Gives pages used heap c align ptr b idx)
    (hplaced : Placed mem zones pages (withBlock used (heap, c) b idx))
    (h' : At used heap' layout' ptr' c' b' idx') : ptr' ≠ ptr := by
  intro heq
  have haligned := hplaced.aligned h.page
  obtain ⟨-, haligned', hle', hend'⟩ := (h'.withBlock (heap, c) b idx).inside hplaced
  have hmax := maxAllocSize_le
  have hfits := index_fits h.lt
  rw [succ_mul] at hfits
  have hpos := classSize_pos c
  have hpos' := classSize_pos c'
  have hsize' := h'.blockSize
  have hptr := h.ptr_eq
  have hb : b' = b := by
    by_contra hne
    rcases page_apart haligned' haligned hne with hlt | hlt
    · omega
    · omega
  subst hb
  obtain ⟨rfl, rfl⟩ := Prod.mk.inj
    (hplaced.owner (i := idx') (j := idx) (.inl h'.used) (.inr ⟨rfl, rfl, rfl⟩))
  refine h.free ?_
  have hidx : idx' * classSize c' = idx * classSize c' := by
    have hptr' := h'.ptr_eq
    omega
  rw [← eq_of_mul_eq_mul_right hpos' hidx]
  exact h'.used

end Blocks

/-! ### Heaps and their clients -/

namespace HeapState

/-- Where there is room for a single block in a page, the empty page that a request will take is
aligned as the layout asks. -/
def Suits (s : HeapState) : HeapOp → Prop
  | .allocate heap layout => ∀ c, getSlab layout.size = some c → perPage c = 1 →
      ∀ page, (s.zones heap).nextEmpty c = some page → page % layout.align = 0
  | _ => True

/-- What clients expect of the blocks that they have. -/
structure Sound (s : HeapState) : Prop where
  aligned : ∀ block ∈ s.live, block.ptr % block.layout.align = 0
  inside : ∀ block ∈ s.live, block.layout.size ≤ block.layout.blockSize ∧ ∃ page ∈ s.held,
    page % objectPageSize = 0 ∧ page ≤ block.ptr ∧
      block.ptr + block.layout.blockSize ≤ page + (objectPageSize - metadataSize)
  apart : s.live.Pairwise fun x y =>
    x.ptr + x.layout.blockSize ≤ y.ptr ∨ y.ptr + y.layout.blockSize ≤ x.ptr
  kept : ∀ heap threshold page, s.retrieved heap threshold = some page → ∀ block ∈ s.live,
    block.ptr + block.layout.blockSize ≤ page ∨ page + objectPageSize ≤ block.ptr

/-- The invariant: each block that a client has is one in use, aligned and at an address of its own. -/
structure Inv (s : HeapState) (used : ℕ × Fin 11 → ℕ → ℕ → Prop) : Prop where
  placed : Placed s.mem s.zones (· ∈ s.held) used
  nodup : s.held.Nodup
  at_of_mem : ∀ block ∈ s.live, ∃ c b idx, At used block.heap block.layout block.ptr c b idx
  aligned : ∀ block ∈ s.live, block.ptr % block.layout.align = 0
  distinct : (s.live.map Block.ptr).Nodup

variable {s : HeapState} {used : ℕ × Fin 11 → ℕ → ℕ → Prop}

theorem enough_length (held : List ℕ) : Enough (· ∈ held) (held.length + 1) := fun _ hl hsub =>
  ((Nodup.subperm hl hsub).length_le).trans (le_succ _)

theorem init_inv : init.Inv fun _ _ _ => False where
  placed := placed_new.congr (fun x => by simp [init]) fun _ _ _ => .rfl
  nodup := nodup_nil
  at_of_mem := fun block hmem => by cases hmem
  aligned := fun block hmem => by cases hmem
  distinct := nodup_nil

/-! ### Calls -/

variable (h : s.Inv used)

include h

theorem step_allocate {heap : ℕ} {layout : Layout} (hsuits : s.Suits (.allocate heap layout)) :
    ∃ used', (s.step (.allocate heap layout)).Inv used' := by
  rw [step]
  cases hc : getSlab layout.size with
  | none =>
    refine ⟨used, ?_⟩
    rw [ZoneAllocator.allocate, hc]
    refine ⟨?_, h.nodup, h.at_of_mem, h.aligned, h.distinct⟩
    exact h.placed.update_self heap
  | some c => ?_
  rcases (h.placed.update_self heap).allocate (enough_length s.held) hc (hsuits c hc) with
    ⟨ptr, b, idx, z', mem', hcall, hgives, hplaced⟩ | ⟨e, z', mem', hcall, hplaced, -⟩ <;>
    rw [show s.fuel = s.held.length + 1 from rfl, hcall]
  · refine ⟨withBlock used (heap, c) b idx, hplaced, h.nodup, ?_, ?_, ?_⟩
    · intro block hmem
      rcases mem_cons.mp hmem with rfl | hmem
      · exact ⟨c, b, idx, hgives.at hc⟩
      · obtain ⟨c', b', idx', hat⟩ := h.at_of_mem block hmem
        exact ⟨c', b', idx', hat.withBlock _ _ _⟩
    · intro block hmem
      rcases mem_cons.mp hmem with rfl | hmem
      · exact hgives.aligned
      · exact h.aligned block hmem
    · refine nodup_cons.mpr ⟨fun hmem => ?_, h.distinct⟩
      obtain ⟨block, hmem, heq⟩ := mem_map.mp hmem
      obtain ⟨c', b', idx', hat⟩ := h.at_of_mem block hmem
      exact hgives.fresh hplaced hat heq
  · exact ⟨used, hplaced, h.nodup, h.at_of_mem, h.aligned, h.distinct⟩

theorem step_deallocate (i : ℕ) : ∃ used', (s.step (.deallocate i)).Inv used' := by
  rw [step]
  cases hi : s.live[i]? with
  | none => exact ⟨used, h⟩
  | some block => ?_
  obtain ⟨hlt, hget⟩ := List.getElem?_eq_some_iff.mp hi
  obtain ⟨c, b, idx, hat⟩ := h.at_of_mem block (mem_of_getElem? hi)
  obtain ⟨z', mem', hcall, hplaced⟩ :=
    (h.placed.update_self block.heap).deallocate hat.slab hat.used
  dsimp only
  rw [hat.ptr_eq, hcall]
  have hsub : ∀ other ∈ s.live.eraseIdx i, other ∈ s.live :=
    fun other hmem => mem_of_mem_eraseIdx hmem
  have hdistinct := ((getElem_cons_eraseIdx_perm hlt).map Block.ptr).nodup_iff.mpr h.distinct
  rw [hget, map_cons, nodup_cons] at hdistinct
  refine ⟨withoutBlock used (block.heap, c) b idx, hplaced, h.nodup, ?_,
    fun other hmem => h.aligned other (hsub other hmem), hdistinct.2⟩
  intro other hmem
  obtain ⟨c', b', idx', hat'⟩ := h.at_of_mem other (hsub other hmem)
  refine ⟨c', b', idx', hat'.withoutBlock fun he => hdistinct.1 ?_⟩
  exact mem_map.mpr ⟨other, hmem, he.trans hat.ptr_eq.symm⟩

theorem step_refill (heap : ℕ) (layout : Layout) (mp : MappedPages8k) :
    ∃ used', (s.step (.refill heap layout mp)).Inv used' := by
  rw [step]
  split_ifs with hskip
  · exact ⟨used, h⟩
  rw [not_or] at hskip
  obtain ⟨c, hc⟩ := Option.ne_none_iff_exists'.mp hskip.2
  obtain ⟨z', mem', hcall, hplaced, -⟩ :=
    (h.placed.update_self heap).refill hc hskip.1 mp.aligned
  rw [hcall]
  refine ⟨used, hplaced.congr (fun x => ?_) fun _ _ _ => .rfl,
    nodup_cons.mpr ⟨hskip.1, h.nodup⟩, h.at_of_mem, h.aligned, h.distinct⟩
  exact mem_cons.symm

theorem step_retrieveEmptyPage (heap threshold : ℕ) :
    ∃ used', (s.step (.retrieveEmptyPage heap threshold)).Inv used' := by
  rw [step]
  rcases (h.placed.update_self heap).retrieveEmptyPage threshold with
    ⟨-, hcall⟩ | ⟨b, z', mem', -, hcall, hb, -, hplaced⟩ <;> rw [hcall]
  · exact ⟨used, h.placed.update_self heap, h.nodup, h.at_of_mem, h.aligned, h.distinct⟩
  · refine ⟨used, hplaced.congr (fun x => ?_) fun _ _ _ => .rfl, h.nodup.erase b, h.at_of_mem,
      h.aligned, h.distinct⟩
    rw [and_comm]
    exact (h.nodup.mem_erase_iff).symm

theorem step_inv {op : HeapOp} (hsuits : s.Suits op) : ∃ used', (s.step op).Inv used' := by
  cases op with
  | allocate heap layout => exact step_allocate h hsuits
  | deallocate i => exact step_deallocate h i
  | refill heap layout mp => exact step_refill h heap layout mp
  | retrieveEmptyPage heap threshold => exact step_retrieveEmptyPage h heap threshold

theorem Inv.sound : s.Sound where
  aligned := h.aligned
  inside := by
    intro block hmem
    obtain ⟨c, b, idx, hat⟩ := h.at_of_mem block hmem
    obtain ⟨hb, haligned, hle, hend⟩ := hat.inside h.placed
    refine ⟨?_, b, hb, haligned, hle, hend⟩
    rw [hat.blockSize]
    exact le_classSize hat.slab
  apart := by
    refine (pairwise_map.mp h.distinct).imp_of_mem fun {x y} hx hy hne => ?_
    obtain ⟨c, b, idx, hat⟩ := h.at_of_mem x hx
    obtain ⟨c', b', idx', hat'⟩ := h.at_of_mem y hy
    exact hat.apart h.placed hat' hne
  kept := by
    intro heap threshold page hpage block hmem
    obtain ⟨c, b, idx, hat⟩ := h.at_of_mem block hmem
    rcases (h.placed.update_self heap).retrieveEmptyPage threshold with
      ⟨-, hcall⟩ | ⟨b', z', mem', -, hcall, hb', hfree, -⟩
    · rw [retrieved, hcall] at hpage
      cases hpage
    rw [retrieved, hcall] at hpage
    obtain rfl := Option.some.inj hpage
    obtain ⟨-, haligned, hle, hend⟩ := hat.inside h.placed
    have hne : b ≠ b' := fun he => hfree _ idx (he ▸ hat.used)
    have hmax := maxAllocSize_le
    rcases page_apart haligned (h.placed.aligned hb') hne with hlt | hlt
    · exact .inl (by omega)
    · exact .inr (by omega)

end HeapState

/-- **Blocks in use do not overlap, and no page with one is given back**, in every run of calls whose
requests take suitable pages. -/
theorem blocks_sound (ops : List HeapOp) (h : Guarded HeapState.step HeapState.Suits .init ops) :
    (run HeapState.step .init ops).Sound := by
  have hinv : ∃ used, (run HeapState.step .init ops).Inv used := by
    refine h.invariant (I := fun s => ∃ used, s.Inv used) ?_ ⟨_, HeapState.init_inv⟩
    rintro s op ⟨used, hs⟩ hsuits
    exact HeapState.step_inv hs hsuits
  obtain ⟨used, hinv⟩ := hinv
  exact hinv.sound

/-- A layout of which one block fits into a page. -/
def singleLayout : Layout := ⟨5000, 8, eight_eq_two_pow⟩

/-- The same with an alignment beyond that of pages. -/
def wideLayout : Layout := ⟨5000, 16384, 14, rfl⟩

def smallLayout : Layout := ⟨16, 8, eight_eq_two_pow⟩

/-- A block of one page and two small ones of another, of which the first is given back. -/
def mixedBlocks : List HeapOp :=
  [.refill 0 singleLayout ⟨0x2000, rfl, by decide⟩, .allocate 0 singleLayout,
    .refill 0 smallLayout ⟨0x4000, rfl, by decide⟩, .allocate 0 smallLayout,
    .allocate 0 smallLayout, .deallocate 1]

theorem HeapState.suits_small (s : HeapState) : s.Suits (.allocate 0 smallLayout) := by
  intro c hc hone
  obtain rfl : (1 : Fin 11) = c := Option.some.inj ((by decide :
    getSlab smallLayout.size = some 1).symm.trans hc)
  exact absurd hone (by decide)

theorem blocks_sound_once :
    (run HeapState.step .init mixedBlocks).live.map Block.ptr = [0x4010, 0x2000] ∧
    (run HeapState.step .init mixedBlocks).Sound := by
  refine ⟨by decide +kernel, blocks_sound _ ⟨trivial, fun c hc _ page hpage => ?_, trivial,
    HeapState.suits_small _, HeapState.suits_small _, trivial, trivial⟩⟩
  obtain rfl : (10 : Fin 11) = c := Option.some.inj ((by decide +kernel :
    getSlab singleLayout.size = some 10).symm.trans hc)
  obtain rfl : 0x2000 = page := Option.some.inj ((by decide +kernel :
    ((HeapState.init.step (.refill 0 singleLayout ⟨0x2000, rfl, succ_pos _⟩)).zones 0).nextEmpty 10
      = some 0x2000).symm.trans hpage)
  rfl

/-- Requests for which the page at `0x2000` and later the one at `0x6000` have nothing to offer. -/
def strayOps : List HeapOp :=
  [.refill 0 singleLayout ⟨0x2000, rfl, by decide⟩, .allocate 0 wideLayout,
    .allocate 0 singleLayout, .refill 0 singleLayout ⟨0x6000, rfl, by decide⟩, .deallocate 0,
    .allocate 0 singleLayout, .allocate 0 wideLayout, .allocate 0 singleLayout, .deallocate 1,
    .allocate 0 singleLayout]

/-- **A page with a block in use is given back.** -/
theorem live_page_retrieved : (run HeapState.step .init strayOps).live.map Block.ptr =
      [0x2000, 0x6000] ∧ (run HeapState.step .init strayOps).retrieved 0 0 = some 0x2000 ∧
    ¬ (run HeapState.step .init strayOps).Sound := by
  have hlive : (run HeapState.step .init strayOps).live.map
      (fun block => (block.ptr, block.layout.size)) = [(0x2000, 5000), (0x6000, 5000)] := by
    decide +kernel
  have hretrieved : (run HeapState.step .init strayOps).retrieved 0 0 = some 0x2000 := by
    decide +kernel
  refine ⟨by decide +kernel, hretrieved, fun hsound => ?_⟩
  obtain ⟨block, hmem, hblock⟩ := mem_map.mp (hlive ▸ mem_cons_self :
    (0x2000, 5000) ∈ (run HeapState.step .init strayOps).live.map
      fun block => (block.ptr, block.layout.size))
  have hptr : block.ptr = 0x2000 := congrArg Prod.fst hblock
  have hsize : block.layout.size = 5000 := congrArg Prod.snd hblock
  have hle := (hsound.inside block hmem).1
  rcases hsound.kept 0 0 _ hretrieved block hmem with hlt | hlt
  · omega
  · rw [objectPageSize] at hlt
    omega

end Maios.Slab
