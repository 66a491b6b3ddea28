import Maios.Heap.HeapGrowth
import Mathlib.Data.List.Pairwise

/-!
# The contract of the kernel's heap

In every run of `alloc` and `dealloc` calls of any CPUs, what clients have got is aligned as they asked
for and does not overlap, and giving it back succeeds, as long as two rules are kept. A large object
gets a mapping of whole pages, whatever its layout, so that the mapping itself has to be aligned as
the layout asks; and a request for which a page has room only once has to take an aligned page
(`blocks_sound`). Both matter only for alignments beyond that of pages.

## Main results

* `Kernel.step_inv` — a call keeps the invariant
* `heap_contract` — the contract holds along every run
-/

namespace Maios.Slab

open List

variable {R : OrderedTree LargeAllocation LargeAllocation.getKey}

namespace Kernel

open MultipleHeaps

/-- The mapping of a large object is aligned as the layout asks, and so is the empty page that a
request will take where there is room for a single block in a page. For an alignment of at most 4096
both always are. -/
def Suits (s : Kernel R) : KernelOp → Prop
  | .alloc surroundings layout =>
    if maxAllocSize < layout.size then
      ∀ mp, s.heap.createMapping surroundings layout.size = some mp → mp.start % layout.align = 0
    else ∀ c, getSlab layout.size = some c → perPage c = 1 →
      ∀ page, s.heap.nextEmpty surroundings c = some page → page % layout.align = 0
  | .dealloc _ => True

/-- The contract of `GlobalAlloc`. -/
structure Sound (s : Kernel R) : Prop where
  aligned : ∀ a ∈ s.live, a.ptr % a.layout.align = 0
  apart : s.live.Pairwise fun x y =>
    x.ptr + x.layout.size ≤ y.ptr ∨ y.ptr + y.layout.size ≤ x.ptr
  dealloc : ∀ a ∈ s.live, (s.heap.dealloc a.ptr a.layout).1 = .ok ()

/-- Whether an allocation is a mapping of its own. -/
abbrev Large (a : Allocation) : Prop := maxAllocSize < a.layout.size

/-- The block of a layout at an address is in use. -/
def InUse (used : ℕ × Fin 11 → ℕ → ℕ → Prop) (layout : Layout) (ptr : ℕ) : Prop :=
  ∃ heap c b idx, At used heap layout ptr c b idx

/-- The invariant: what clients have got is a block in use, or a mapping in the tree; the nodes of the
tree, which is in order, are blocks in use too. Addresses of blocks, and those of mappings, are
different. -/
structure Inv (s : Kernel R) (used : ℕ × Fin 11 → ℕ → ℕ → Prop) : Prop where
  heap : s.heap.Inv used
  sorted : R.Sorted s.heap.largeAllocations
  node : ∀ e ∈ R.elems s.heap.largeAllocations, InUse used nodeLayout e.node
  mapped : ∀ e ∈ R.elems s.heap.largeAllocations, e.mp ∈ s.heap.mapped
  starts : ((R.elems s.heap.largeAllocations).map fun e => e.mp.start).Nodup
  nodes : ((R.elems s.heap.largeAllocations).map LargeAllocation.node).Nodup
  small : ∀ a ∈ s.live, ¬ Large a → InUse used a.layout a.ptr
  large : ∀ a ∈ s.live, Large a → ∃ e ∈ R.elems s.heap.largeAllocations,
    e.mp.start = a.ptr ∧ a.layout.size ≤ e.mp.pages * pageSize
  aligned : ∀ a ∈ s.live, a.ptr % a.layout.align = 0
  distinct : s.live.Pairwise fun x y => (Large x ↔ Large y) → x.ptr ≠ y.ptr
  client : ∀ a ∈ s.live, ¬ Large a → ∀ e ∈ R.elems s.heap.largeAllocations, a.ptr ≠ e.node

variable {s : Kernel R} {used used' : ℕ × Fin 11 → ℕ → ℕ → Prop} {surroundings : Surroundings}
  {layout layout' : Layout} {m : MultipleHeaps R} {c : Fin 11} {ptr : ℕ} {mp : Mapping}

theorem InUse.withBlock (h : InUse used layout ptr) (p : ℕ × Fin 11) (b idx : ℕ) :
    InUse (withBlock used p b idx) layout ptr := by
  obtain ⟨heap, c, b', idx', hat⟩ := h
  exact ⟨heap, c, b', idx', hat.withBlock p b idx⟩

theorem InUse.withoutBlock {ptr' : ℕ} {heap b idx : ℕ} (h : InUse used layout ptr)
    (hat : At used heap layout' ptr' c b idx) (hne : ptr ≠ ptr') :
    InUse (withoutBlock used (heap, c) b idx) layout ptr := by
  obtain ⟨heap', c', b', idx', hat'⟩ := h
  exact ⟨heap', c', b', idx', hat'.withoutBlock (hat.ptr_eq ▸ hne)⟩

theorem isSome_ite {p : Prop} [Decidable p] {i : Fin 11} {next : Option (Fin 11)}
    (h : next.isSome = true) : (if p then some i else next).isSome = true := by
  split_ifs with hp
  · rfl
  · exact h

/-- There is a size class for everything that is not large. -/
theorem getSlab_of_not_large {n : ℕ} (h : ¬ maxAllocSize < n) : ∃ c, getSlab n = some c := by
  rw [← Option.isSome_iff_exists]
  refine isSome_ite <| isSome_ite <| isSome_ite <| isSome_ite <| isSome_ite <| isSome_ite <|
    isSome_ite <| isSome_ite <| isSome_ite <| isSome_ite ?_
  rw [if_pos (Nat.le_of_not_lt h)]
  rfl

/-! ### Allocation -/

/-- The heap has changed, but nothing that is in use. -/
theorem Inv.transfer (h : s.Inv used) (hheap : m.Inv used')
    (hlarge : m.largeAllocations = s.heap.largeAllocations)
    (hmapped : ∀ mp ∈ s.heap.mapped, mp ∈ m.mapped)
    (huse : ∀ layout ptr, InUse used layout ptr → InUse used' layout ptr) :
    Inv ⟨m, s.live⟩ used' := by
  obtain ⟨-, hsorted, hnode, hmp, hstarts, hnodes, hsmall, hbig, haligned, hdistinct, hclient⟩ := h
  rw [← hlarge] at hsorted hnode hmp hstarts hnodes hbig hclient
  exact ⟨hheap, hsorted, fun e he => huse _ _ (hnode e he), fun e he => hmapped _ (hmp e he), hstarts, hnodes,
    fun a ha hs => huse _ _ (hsmall a ha hs), hbig, haligned, hdistinct, hclient⟩

/-- A client has got a block. -/
theorem Inv.addSmall (h : s.Inv used) (hsmall : ¬ maxAllocSize < layout.size)
    (huse : InUse used layout ptr) (haligned : ptr % layout.align = 0)
    (hfresh : ∀ a ∈ s.live, ¬ Large a → a.ptr ≠ ptr)
    (hnode : ∀ e ∈ R.elems s.heap.largeAllocations, e.node ≠ ptr) :
    Inv ⟨s.heap, ⟨layout, ptr⟩ :: s.live⟩ used := by
  refine ⟨h.heap, h.sorted, h.node, h.mapped, h.starts, h.nodes, ?_, ?_, ?_, ?_, ?_⟩
  · exact forall_mem_cons.mpr ⟨fun _ => huse, h.small⟩
  · exact forall_mem_cons.mpr ⟨fun hl => absurd hl hsmall, h.large⟩
  · exact forall_mem_cons.mpr ⟨haligned, h.aligned⟩
  · refine pairwise_cons.mpr ⟨fun a ha hiff => ?_, h.distinct⟩
    exact (hfresh a ha fun hl => hsmall (hiff.mpr hl)).symm
  · exact forall_mem_cons.mpr ⟨fun _ e he => (hnode e he).symm, h.client⟩

/-- A client has got a mapping, and the tree a node for it. -/
theorem Inv.addLarge (h : Inv ⟨m, s.live⟩ used) {node : ℕ} (hlarge : maxAllocSize < layout.size)
    (hmp : mp ∈ m.mapped) (huse : InUse used nodeLayout node)
    (hsize : layout.size ≤ mp.pages * pageSize) (haligned : mp.start % layout.align = 0)
    (hstart : ∀ e ∈ R.elems m.largeAllocations, e.mp.start ≠ mp.start)
    (hnode : ∀ e ∈ R.elems m.largeAllocations, e.node ≠ node)
    (hfresh : ∀ a ∈ s.live, ¬ Large a → a.ptr ≠ node) :
    Inv ⟨{ m with largeAllocations := R.insert m.largeAllocations ⟨mp, node⟩ },
      ⟨layout, mp.start⟩ :: s.live⟩ used := by
  obtain ⟨hheap, hsorted, hinUse, hmapped, hstarts, hnodes, hsmall, hbig, hal, hdistinct, hclient⟩ := h
  have hperm := R.insert_perm m.largeAllocations ⟨mp, node⟩ hsorted
  -- what holds of the elements before and of the new one
  have hall : ∀ {P : LargeAllocation → Prop}, P ⟨mp, node⟩ → (∀ e ∈ R.elems m.largeAllocations, P e) →
      ∀ e ∈ R.elems (R.insert m.largeAllocations ⟨mp, node⟩), P e :=
    fun hnew hold e he => forall_mem_cons.mpr ⟨hnew, hold⟩ e (hperm.subset he)
  refine ⟨⟨hheap.placed, hheap.nodup, hheap.keys, hheap.area, hheap.start_le, hheap.pos,
    hheap.outside, hheap.apart⟩, R.insert_sorted _ _ hsorted, hall huse hinUse, hall hmp hmapped,
    ?_, ?_, ?_, ?_, ?_, ?_, ?_⟩
  · refine (hperm.map _).nodup_iff.mpr (nodup_cons.mpr ⟨fun hmem => ?_, hstarts⟩)
    obtain ⟨e, he, heq⟩ := mem_map.mp hmem
    exact hstart e he heq
  · refine (hperm.map _).nodup_iff.mpr (nodup_cons.mpr ⟨fun hmem => ?_, hnodes⟩)
    obtain ⟨e, he, heq⟩ := mem_map.mp hmem
    exact hnode e he heq
  · exact forall_mem_cons.mpr ⟨fun hs => absurd hlarge hs, hsmall⟩
  · refine forall_mem_cons.mpr ⟨fun _ => ⟨_, hperm.symm.subset mem_cons_self, rfl, hsize⟩, ?_⟩
    intro a ha hl
    obtain ⟨e, he, hrest⟩ := hbig a ha hl
    exact ⟨e, hperm.symm.subset (mem_cons_of_mem _ he), hrest⟩
  · exact forall_mem_cons.mpr ⟨haligned, hal⟩
  · refine pairwise_cons.mpr ⟨fun a ha hiff heq => ?_, hdistinct⟩
    obtain ⟨e, he, heq', -⟩ := hbig a ha (hiff.mp hlarge)
    exact hstart e he (heq'.trans heq.symm)
  · refine forall_mem_cons.mpr ⟨fun hs => absurd hlarge hs, fun a ha hs => ?_⟩
    exact hall (hfresh a ha hs) (hclient a ha hs)

/-- A block that was not in use is at another address than those that are. -/
theorem fresh {heap ptr' b idx align : ℕ} (hheap : m.Inv (withBlock used (heap, c) b idx))
    (hgives : Gives (· ∈ m.held) used heap c align ptr b idx) (huse : InUse used layout' ptr') :
    ptr' ≠ ptr := by
  obtain ⟨heap', c', b', idx', hat⟩ := huse
  exact hgives.fresh hheap.placed hat

theorem Inv.allocSmall (h : s.Inv used) (hsmall : ¬ maxAllocSize < layout.size)
    (hsuits : ∀ c, getSlab layout.size = some c →
      SuitsPage c layout (s.heap.nextEmpty surroundings c)) :
    ∃ used', (s.step (.alloc surroundings layout)).Inv used' := by
  obtain ⟨c, hc⟩ := getSlab_of_not_large hsmall
  rw [step, alloc, if_neg hsmall]
  rcases h.heap.allocSmall hc surroundings (hsuits c hc) with
    ⟨ptr, b, idx, m, hcall, hgives, hinv, hkept⟩ | ⟨outcome, m, hcall, hnot, hinv, hkept⟩ <;>
    rw [hcall]
  · have htransfer : Inv ⟨m, s.live⟩ _ := h.transfer hinv hkept.largeAllocations
      (fun mp hmp => by rw [hkept.mapped]; exact hmp) fun _ _ huse => huse.withBlock _ _ _
    refine ⟨_, htransfer.addSmall hsmall ⟨_, c, b, idx, hgives.at hc⟩ hgives.aligned ?_ ?_⟩
    · exact fun a ha hs => fresh hinv hgives (h.small a ha hs)
    · intro e he
      exact fresh hinv hgives (h.node e (hkept.largeAllocations ▸ he))
  · have htransfer : Inv ⟨m, s.live⟩ used := h.transfer hinv hkept.largeAllocations
      (fun mp hmp => by rw [hkept.mapped]; exact hmp) fun _ _ huse => huse
    refine ⟨used, ?_⟩
    rcases outcome with (_ | ptr) | e | _
    · exact htransfer
    · exact absurd rfl (hnot ptr)
    · exact htransfer
    · exact htransfer

/-- What `create_mapping` returns is apart from all that is in use. -/
theorem createMapping_inv (h : m.Inv used) {n : ℕ} (hn : 0 < n)
    (hmp : m.createMapping surroundings n = some mp) :
    MultipleHeaps.Inv { m with mapped := mp :: m.mapped } used ∧ n ≤ mp.pages * pageSize ∧
      mp.start % pageSize = 0 := by
  obtain ⟨start, -, hstart⟩ := Option.bind_eq_some_iff.mp hmp
  dsimp only at hstart
  split_ifs at hstart with hvalid
  cases hstart
  obtain ⟨harea, hapart⟩ := isFree_iff.mp hvalid.2.2
  have hpage : pageSize = 4096 := rfl
  refine ⟨⟨h.placed, h.nodup, h.keys, h.area, h.start_le, ?_, ?_, ?_⟩, ?_, hvalid.1⟩
  · refine forall_mem_cons.mpr ⟨?_, h.pos⟩
    dsimp only
    rw [hpage]
    omega
  · exact forall_mem_cons.mpr ⟨harea, h.outside⟩
  · exact pairwise_cons.mpr ⟨hapart, h.apart⟩
  · dsimp only
    rw [hpage]
    omega

section

variable (h : s.Inv used)

include h

theorem Inv.allocLarge (hlarge : maxAllocSize < layout.size)
    (hsuits : ∀ mp, s.heap.createMapping surroundings layout.size = some mp →
      mp.start % layout.align = 0) : ∃ used', (s.step (.alloc surroundings layout)).Inv used' := by
  rw [step, alloc, if_pos hlarge, allocateLargeObject]
  cases hmp : s.heap.createMapping surroundings layout.size with
  | none => exact ⟨used, h⟩
  | some mp => ?_
  obtain ⟨hinv, hsize, -⟩ := createMapping_inv h.heap (Nat.zero_lt_of_lt hlarge) hmp
  have hc : getSlab nodeLayout.size = some 3 := by decide
  dsimp only
  rcases hinv.allocSmall hc surroundings (fun hone => absurd hone (by decide)) with
    ⟨node, b, idx, m, hcall, hgives, hinv', hkept⟩ | ⟨outcome, m, hcall, hnot, hinv', hkept⟩ <;>
    rw [hcall]
  · have hmem : ∀ mp' ∈ mp :: s.heap.mapped, mp' ∈ m.mapped := fun mp' h' => by
      rw [hkept.mapped]
      exact h'
    have htransfer : Inv ⟨m, s.live⟩ _ := h.transfer hinv' hkept.largeAllocations
      (forall_mem_cons.mp hmem).2 fun _ _ huse => huse.withBlock _ _ _
    refine ⟨_, htransfer.addLarge hlarge (hmem mp mem_cons_self)
      ⟨_, 3, b, idx, hgives.at hc⟩ hsize (hsuits mp hmp) ?_ ?_ ?_⟩
    · -- a mapping at the same address would overlap
      intro e he heq
      rw [hkept.largeAllocations] at he
      have hapart := (pairwise_cons.mp hinv.apart).1 e.mp (h.mapped e he)
      have hpos := h.heap.pos e.mp (h.mapped e he)
      have hpos' := hinv.pos mp mem_cons_self
      have hpage : pageSize = 4096 := rfl
      rw [Mapping.Apart, hpage] at hapart
      omega
    · intro e he
      exact fresh hinv' hgives (h.node e (hkept.largeAllocations ▸ he))
    · exact fun a ha hs => fresh hinv' hgives (h.small a ha hs)
  · have htransfer : Inv ⟨m, s.live⟩ used := h.transfer hinv' hkept.largeAllocations
      (fun mp' h' => by rw [hkept.mapped]; exact mem_cons_of_mem _ h') fun _ _ huse => huse
    refine ⟨used, ?_⟩
    rcases outcome with (_ | ptr) | e | _
    · exact htransfer
    · exact absurd rfl (hnot ptr)
    · exact htransfer
    · exact htransfer

/-! ### Deallocation -/

section

variable {i : ℕ} {a : Allocation} (hi : s.live[i]? = some a)

include hi

/-- What the others have got when a client gives something back. -/
theorem Inv.others :
    (∀ o ∈ s.live.eraseIdx i, o ∈ s.live ∧ ((Large a ↔ Large o) → o.ptr ≠ a.ptr)) ∧
      (s.live.eraseIdx i).Pairwise fun x y => (Large x ↔ Large y) → x.ptr ≠ y.ptr := by
  obtain ⟨hlt, hget⟩ := List.getElem?_eq_some_iff.mp hi
  have hpairwise := ((getElem_cons_eraseIdx_perm hlt).pairwise_iff fun {x y} hxy hyx =>
    (hxy hyx.symm).symm).mpr h.distinct
  rw [hget, pairwise_cons] at hpairwise
  exact ⟨fun o ho => ⟨mem_of_mem_eraseIdx ho, fun hiff => (hpairwise.1 o ho hiff).symm⟩,
    hpairwise.2⟩

/-- What a client gives back is gone, with one block that was in use: the client's own or the node of
its mapping. -/
theorem Inv.released {heap b idx : ℕ} (hat : At used heap layout ptr c b idx)
    (hheap : m.Inv (withoutBlock used (heap, c) b idx))
    (hsub : (R.elems m.largeAllocations).Sublist (R.elems s.heap.largeAllocations))
    (hmapped : ∀ e ∈ R.elems m.largeAllocations, e.mp ∈ m.mapped)
    (hnode : ∀ e ∈ R.elems m.largeAllocations, e.node ≠ ptr)
    (hsmall : ∀ o ∈ s.live.eraseIdx i, ¬ Large o → o.ptr ≠ ptr)
    (hlarge : ∀ o ∈ s.live.eraseIdx i, Large o → ∃ e ∈ R.elems m.largeAllocations,
      e.mp.start = o.ptr ∧ o.layout.size ≤ e.mp.pages * pageSize) :
    Inv ⟨m, s.live.eraseIdx i⟩ (withoutBlock used (heap, c) b idx) := by
  obtain ⟨hothers, hdistinct⟩ := h.others hi
  refine ⟨hheap, h.sorted.sublist hsub, fun e he => ?_, hmapped, h.starts.sublist (hsub.map _),
    h.nodes.sublist (hsub.map _), fun o ho hs => ?_, hlarge, fun o ho => h.aligned o (hothers o ho).1, hdistinct,
    fun o ho hs e he => h.client o (hothers o ho).1 hs e (hsub.subset he)⟩
  · exact (h.node e (hsub.subset he)).withoutBlock hat (hnode e he)
  · exact (h.small o (hothers o ho).1 hs).withoutBlock hat (hsmall o ho hs)

theorem Inv.deallocSmall (hsmall : ¬ Large a) : (s.heap.dealloc a.ptr a.layout).1 = .ok () ∧
      ∃ used', (s.step (.dealloc i)).Inv used' := by
  have ha := mem_of_getElem? hi
  obtain ⟨heap, c, b, idx, hat⟩ := h.small a ha hsmall
  obtain ⟨m, hcall, hinv, hkept⟩ := h.heap.deallocSmall hat
  rw [step, hi]
  dsimp only
  rw [dealloc, if_neg hsmall, hcall]
  obtain ⟨hothers, -⟩ := h.others hi
  have hmapped := h.mapped
  have hlarge := h.large
  have hclient := h.client a ha hsmall
  rw [← hkept.largeAllocations] at hmapped hlarge hclient
  rw [← hkept.mapped] at hmapped
  refine ⟨rfl, _, h.released hi hat hinv (hkept.largeAllocations ▸ Sublist.refl _) hmapped
    (fun e he => (hclient e he).symm) (fun o ho hs => (hothers o ho).2 ?_)
    fun o ho => hlarge o (hothers o ho).1⟩
  exact iff_of_false hsmall hs

theorem Inv.deallocLarge (hlarge : Large a) : (s.heap.dealloc a.ptr a.layout).1 = .ok () ∧
      ∃ used', (s.step (.dealloc i)).Inv used' := by
  have ha := mem_of_getElem? hi
  obtain ⟨e₀, he₀, hstart₀, -⟩ := h.large a ha hlarge
  rw [step, hi]
  dsimp only
  rw [dealloc, if_pos hlarge, deallocateLargeObject]
  dsimp only
  cases hfind : R.get s.heap.largeAllocations (R.find s.heap.largeAllocations a.ptr) with
  | none => exact absurd hstart₀ (R.find_eq_none _ _ h.sorted hfind e₀ he₀)
  | some e => ?_
  have hstart : e.mp.start = a.ptr := R.find_eq_some _ _ _ h.sorted hfind
  obtain ⟨hlt, hget⟩ := List.getElem?_eq_some_iff.mp hfind
  have he : e ∈ R.elems s.heap.largeAllocations := mem_of_getElem? hfind
  -- the elements of the tree without the one that is taken out
  have helems := R.elems_removeAt s.heap.largeAllocations (R.find s.heap.largeAllocations a.ptr)
  have hperm := getElem_cons_eraseIdx_perm hlt
  rw [hget, ← helems] at hperm
  have hsub : (R.elems (R.removeAt s.heap.largeAllocations
      (R.find s.heap.largeAllocations a.ptr))).Sublist (R.elems s.heap.largeAllocations) :=
    helems ▸ eraseIdx_sublist _ _
  have hstarts := (nodup_cons.mp ((hperm.map _).nodup_iff.mpr h.starts)).1
  have hnodes := (nodup_cons.mp ((hperm.map _).nodup_iff.mpr h.nodes)).1
  obtain ⟨heap, c, b, idx, hat⟩ := h.node e he
  have hheap : MultipleHeaps.Inv { s.heap with
      largeAllocations := R.removeAt s.heap.largeAllocations (R.find s.heap.largeAllocations a.ptr)
      mapped := s.heap.mapped.erase e.mp } used :=
    ⟨h.heap.placed, h.heap.nodup, h.heap.keys, h.heap.area, h.heap.start_le,
      fun mp hmp => h.heap.pos mp (mem_of_mem_erase hmp),
      fun mp hmp => h.heap.outside mp (mem_of_mem_erase hmp),
      h.heap.apart.sublist erase_sublist⟩
  obtain ⟨m, hcall, hinv, hkept⟩ := hheap.deallocSmall hat
  dsimp only
  rw [hcall]
  obtain ⟨hothers, -⟩ := h.others hi
  have hlargeEq := hkept.largeAllocations
  refine ⟨rfl, _, h.released hi hat hinv (hlargeEq ▸ hsub) ?_ ?_ ?_ ?_⟩
  · intro e' he'
    rw [hlargeEq] at he'
    rw [hkept.mapped]
    refine (mem_erase_of_ne fun heq => ?_).mpr (h.mapped e' (hsub.subset he'))
    exact hstarts (mem_map.mpr ⟨e', he', congrArg Mapping.start heq⟩)
  · intro e' he' heq
    rw [hlargeEq] at he'
    exact hnodes (mem_map.mpr ⟨e', he', heq⟩)
  · exact fun o ho hs => h.client o (hothers o ho).1 hs e he
  · intro o ho hl
    obtain ⟨e', he', hstart', hsize'⟩ := h.large o (hothers o ho).1 hl
    refine ⟨e', ?_, hstart', hsize'⟩
    -- the mapping of another client is not the one that is dropped
    have hne : e' ≠ e := fun heq => (hothers o ho).2 (iff_of_true hlarge hl)
      (hstart'.symm.trans ((congrArg (fun e => e.mp.start) heq).trans hstart))
    rw [hlargeEq]
    exact (mem_cons.mp (hperm.symm.subset he')).resolve_left hne

end

/-! ### Runs -/

theorem step_inv {op : KernelOp} (hsuits : s.Suits op) : ∃ used', (s.step op).Inv used' := by
  cases op with
  | alloc surroundings layout =>
    rw [Suits] at hsuits
    split_ifs at hsuits with hlarge
    · exact h.allocLarge hlarge hsuits
    · exact h.allocSmall hlarge hsuits
  | dealloc i =>
    cases hi : s.live[i]? with
    | none =>
      rw [step, hi]
      exact ⟨used, h⟩
    | some a =>
      by_cases hlarge : Large a
      · exact (h.deallocLarge hi hlarge).2
      · exact (h.deallocSmall hi hlarge).2

/-- A block of a heap is apart from a mapping for a large object. -/
theorem Inv.apart_large {a o : Allocation} (ha : a ∈ s.live) (ho : o ∈ s.live)
    (hsmall : ¬ Large a) (hlarge : Large o) :
    a.ptr + a.layout.size ≤ o.ptr ∨ o.ptr + o.layout.size ≤ a.ptr := by
  obtain ⟨heap, c, b, idx, hat⟩ := h.small a ha hsmall
  obtain ⟨hb, -, hle, hend⟩ := hat.inside h.heap.placed
  obtain ⟨e, he, hstart, hsize⟩ := h.large o ho hlarge
  have hslab := le_classSize hat.slab
  have hblock := hat.blockSize
  have hmax := maxAllocSize_le
  have harea := h.heap.area b hb
  have houtside := h.heap.outside e.mp (h.mapped e he)
  omega

theorem Inv.sound : s.Sound where
  aligned := h.aligned
  apart := by
    refine h.distinct.imp_of_mem fun {x y} hx hy hne => ?_
    by_cases hlx : Large x
    · by_cases hly : Large y
      · -- two mappings, whose addresses differ
        obtain ⟨e, he, hstart, hsize⟩ := h.large x hx hlx
        obtain ⟨e', he', hstart', hsize'⟩ := h.large y hy hly
        have hmp : e.mp ≠ e'.mp := fun heq => hne (iff_of_true hlx hly)
          (hstart.symm.trans ((congrArg Mapping.start heq).trans hstart'))
        have hsymm : Std.Symm Mapping.Apart := ⟨fun _ _ h => h.symm⟩
        have hapart := h.heap.apart.forall (h.mapped e he) (h.mapped e' he') hmp
        rw [Mapping.Apart] at hapart
        omega
      · exact (h.apart_large hy hx hly hlx).symm
    · by_cases hly : Large y
      · exact h.apart_large hx hy hlx hly
      obtain ⟨heap, c, b, idx, hat⟩ := h.small x hx hlx
      obtain ⟨heap', c', b', idx', hat'⟩ := h.small y hy hly
      have hapart := hat.apart h.heap.placed hat' (hne (iff_of_false hlx hly))
      have hslab := le_classSize hat.slab
      have hslab' := le_classSize hat'.slab
      have hblock := hat.blockSize
      have hblock' := hat'.blockSize
      omega
  dealloc := by
    intro a ha
    obtain ⟨i, hi⟩ := mem_iff_getElem?.mp ha
    by_cases hlarge : Large a
    · exact (h.deallocLarge hi hlarge).1
    · exact (h.deallocSmall hi hlarge).1

end

theorem initialize_inv {keys : List ℕ} (h : initializeMultipleHeaps surroundings keys = .ok m) :
    Inv ⟨m, []⟩ fun _ _ _ => False := by
  obtain ⟨hinv, hlarge⟩ := Slab.initialize_inv h
  have helems : R.elems m.largeAllocations = [] := by rw [hlarge, R.elems_empty]
  refine ⟨hinv, ?_, ?_, ?_, ?_, ?_, ?_, ?_, ?_, Pairwise.nil, ?_⟩
  · rw [OrderedTree.Sorted, helems]
    exact Pairwise.nil
  · intro e he
    rw [helems] at he
    cases he
  · intro e he
    rw [helems] at he
    cases he
  · rw [helems]
    exact nodup_nil
  · rw [helems]
    exact nodup_nil
  all_goals
    intro a ha
    cases ha

end Kernel

/-- **The heap of the kernel keeps its contract**, in every run whose requests get suitable pages. -/
theorem heap_contract (surroundings : Surroundings) (keys : List ℕ) (m : MultipleHeaps R)
    (hinit : initializeMultipleHeaps surroundings keys = .ok m) (ops : List KernelOp)
    (h : Guarded Kernel.step Kernel.Suits ⟨m, []⟩ ops) : (run Kernel.step ⟨m, []⟩ ops).Sound := by
  have hinv : ∃ used, (run Kernel.step ⟨m, []⟩ ops).Inv used := by
    refine h.invariant (I := fun s => ∃ used, s.Inv used) ?_ ⟨_, Kernel.initialize_inv hinit⟩
    rintro s op ⟨used, hs⟩ hsuits
    exact Kernel.step_inv hs hsuits
  obtain ⟨used, hinv⟩ := hinv
  exact hinv.sound

/-- The tree of large allocations, as a list. -/
abbrev listTree : OrderedTree LargeAllocation LargeAllocation.getKey := .ofList _ _

/-- A CPU for which everything can be mapped, with a large object at an odd page. -/
def oddPage : Surroundings := ⟨0, [], fun _ => true, some 0x1000⟩

/-- A large object and two small ones, of which the first is given back. -/
def mixedOps : List KernelOp :=
  [.alloc oddPage ⟨10000, 4096, 12, rfl⟩, .alloc oddPage ⟨16, 8, eight_eq_two_pow⟩,
    .alloc oddPage ⟨16, 8, eight_eq_two_pow⟩, .dealloc 1]

theorem Kernel.suits_small (s : Kernel R) : s.Suits (.alloc oddPage ⟨16, 8, eight_eq_two_pow⟩) := by
  rw [Suits, if_neg (by decide)]
  intro c hc hone
  obtain rfl : (1 : Fin 11) = c := Option.some.inj ((by decide : getSlab 16 = some 1).symm.trans hc)
  exact absurd hone (by decide)

theorem heap_contract_once : ∃ m : MultipleHeaps listTree,
    initializeMultipleHeaps oddPage [0] = .ok m ∧
    (run Kernel.step ⟨m, []⟩ mixedOps).live.map Allocation.ptr =
      [heapStart + 127 * objectPageSize + 16, 0x1000] ∧
    (run Kernel.step ⟨m, []⟩ mixedOps).Sound := by
  have hrun : (initializeMultipleHeaps oddPage [0]).bind (fun m : MultipleHeaps listTree =>
      .ok ((run Kernel.step ⟨m, []⟩ mixedOps).live.map Allocation.ptr)) =
      .ok [heapStart + 127 * objectPageSize + 16, 0x1000] := by
    decide +kernel
  obtain ⟨m, hinit, hlive⟩ := Outcome.bind_eq_ok.mp hrun
  refine ⟨m, hinit, by injection hlive, heap_contract oddPage [0] m hinit _
    ⟨fun mp hmp => ?_, Kernel.suits_small _, Kernel.suits_small _, trivial, trivial⟩⟩
  exact (Kernel.createMapping_inv (initialize_inv hinit).1 (by decide) hmp).2.2

/-- **A large object is not aligned as its layout asks.** -/
theorem large_object_misaligned : ∃ m : MultipleHeaps listTree,
    initializeMultipleHeaps oddPage [0] = .ok m ∧
    (run Kernel.step ⟨m, []⟩ [.alloc oddPage ⟨10000, 8192, 13, rfl⟩]).live.map
      (fun a => (a.ptr, a.layout.align)) = [(0x1000, 8192)] ∧
    ¬ (run Kernel.step ⟨m, []⟩ [.alloc oddPage ⟨10000, 8192, 13, rfl⟩]).Sound := by
  have hrun : (initializeMultipleHeaps oddPage [0]).bind (fun m : MultipleHeaps listTree =>
      .ok ((run Kernel.step ⟨m, []⟩ [.alloc oddPage ⟨10000, 8192, 13, rfl⟩]).live.map
        fun a => (a.ptr, a.layout.align))) = .ok [(0x1000, 8192)] := by
    decide +kernel
  obtain ⟨m, hinit, hlive⟩ := Outcome.bind_eq_ok.mp hrun
  injection hlive with hlive
  refine ⟨m, hinit, hlive, fun hsound => ?_⟩
  obtain ⟨a, ha, heq⟩ := mem_map.mp (hlive ▸ mem_cons_self :
    (0x1000, 8192) ∈ (run Kernel.step ⟨m, []⟩ [.alloc oddPage ⟨10000, 8192, 13, rfl⟩]).live.map
      fun a => (a.ptr, a.layout.align))
  have haligned := hsound.aligned a ha
  obtain ⟨hptr, halign⟩ := Prod.mk.inj heq
  rw [hptr, halign] at haligned
  cases haligned

end Maios.Slab
