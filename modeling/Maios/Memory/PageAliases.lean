import Maios.Memory.PageOwnership
import Maios.Memory.PageTable
import Maios.Pe.Loader

/-!
# Start addresses of allocated pages

`start_address` of a page makes the address canonical, while the numbers of the pages that `init`
puts into the free list also cover the hole between the two halves of the address space. A page of
the hole has the start address of a page outside.

Which pages an allocation gets is read off the free chunks and the request (`servedAt`); this needs
the tree to be in order, which is an invariant of runs. So the condition on an allocation,
`ServedOutsideHole`, is one on the state before it.

## Main results

* `sorted_step`: the free list stays in order.
* `unaliased_step_iff`: an allocation makes an alias exactly if it is served in the hole.
* `pages_unaliased_iff`: no two outstanding pages have one start address, as long as no allocation is
  served there.
* `pages_aliased`: a run of two requests that are served there.
-/

namespace Maios.PageAllocator

open Paging
open Pe (newCanonical)

section Runs

variable {R : OrderedTree Chunk ChunkRange.start} {s : State R}

/-- `start_address` of a page. -/
def startAddress (page : ℕ) : Address := UInt64.ofNat (newCanonical (page * pageSize))

theorem containingAddress_startAddress_iff (n : ℕ) :
    containingAddress (startAddress n) = n ↔ IsPage n := by
  rw [containingAddress, startAddress, UInt64.toNat_ofNat', newCanonical, pageSize, IsPage]
  split_ifs <;> omega

/-- Some outstanding `AllocatedPages` contains the page. -/
def Outstanding (s : State R) (n : ℕ) : Prop := ∃ pages ∈ s.allocated, n ∈ pages

instance (s : State R) (n : ℕ) : Decidable (Outstanding s n) :=
  inferInstanceAs (Decidable (∃ _ ∈ _, _))

/-- Distinct outstanding pages have distinct start addresses, and each is the page of its own. -/
def Unaliased (s : State R) : Prop :=
  (∀ n m, Outstanding s n → Outstanding s m → startAddress n = startAddress m → n = m) ∧
    ∀ n, Outstanding s n → containingAddress (startAddress n) = n

theorem unaliased_iff : Unaliased s ↔ ∀ n, 0 < cover s.allocated n → IsPage n := by
  simp only [cover_pos_iff, ← containingAddress_startAddress_iff]
  refine ⟨And.right, fun h => ⟨fun n m hn hm heq => ?_, h⟩⟩
  rw [← h n hn, heq, h m hm]

/-- Pages that are exchanged for no others stay unaliased. -/
theorem Unaliased.exchange (h : Unaliased s) {l X Y : List PageRange}
    {list : StaticArrayRBTree R} (hx : Exchanged s.allocated l X Y)
    (hle : ∀ n, cover Y n ≤ cover X n) :
    Unaliased { s with freeList := list, allocated := l } := by
  refine unaliased_iff.mpr fun n hn => unaliased_iff.mp h n ?_
  have hacc := hx.cover_add n
  have hless := hle n
  have hn : 0 < cover l n := hn
  omega

/-! ### The list stays in order -/

section Order

variable {list : StaticArrayRBTree R}

/-- An allocation from an array leaves an array. -/
theorem sorted_findAnyChunk_array (arr : StaticArray Chunk) (designatedLowEnd : Option ℕ)
    (numPages : ℕ) (withinRange : Option PageRange) (alignment : ℕ) :
    (findAnyChunk (R := R) (.array arr) designatedLowEnd numPages withinRange alignment).2.Sorted := by
  have hscan : ∀ {range chunk rest},
      scanArray (R := R) arr range alignment numPages = .found chunk rest → rest.Sorted := by
    intro range chunk rest h
    rw [scanArray] at h
    split_ifs at h
    split at h
    · cases h
      exact trivial
    · cases h
  unfold findAnyChunk
  split
  · exact trivial
  · dsimp only
    split
    · exact trivial
    · next h =>
      rw [adjustChosenChunk_eq _ _ _ _ rfl]
      exact hscan h
    · split
      · exact trivial
      · split
        · exact trivial
        · next h =>
          rw [adjustChosenChunk_eq _ _ _ _ rfl]
          exact hscan h
        · exact trivial

theorem sorted_findSpecificChunk_array (arr : StaticArray Chunk) (requestedPage numPages : ℕ) :
    (findSpecificChunk (R := R) (.array arr) requestedPage numPages).2.Sorted := by
  unfold findSpecificChunk
  dsimp only
  split
  · rw [adjustChosenChunk_eq _ _ _ _ rfl]
    exact trivial
  · exact trivial

theorem sorted_allocatePagesDeferred (hs : list.Sorted) (designatedLowEnd : Option ℕ)
    (request : AllocationRequest) (numPages : ℕ) :
    (allocatePagesDeferred list designatedLowEnd request numPages).2.Sorted := by
  cases list with
  | rbTree tree =>
    obtain ⟨tree', heq, hs', -⟩ :=
      allocatePagesDeferred_spec hs designatedLowEnd request numPages
    rw [heq]
    exact hs'
  | array arr =>
    unfold allocatePagesDeferred
    split_ifs
    · exact trivial
    · cases request with
      | atVirtualAddress vaddr => exact sorted_findSpecificChunk_array arr _ numPages
      | alignedTo alignment => exact sorted_findAnyChunk_array arr _ numPages none alignment
      | withinRange range => exact sorted_findAnyChunk_array arr _ numPages (some range) 1
      | any => exact sorted_findAnyChunk_array arr _ numPages none 1

theorem sorted_insert_getD (hs : list.Sorted) (chunk : Chunk) :
    ((list.insert chunk).getD list).Sorted := by
  cases hinsert : list.insert chunk with
  | none => exact hs
  | some list' => exact (StaticArrayRBTree.insert_spec hs hinsert).1

theorem sorted_insertDeferred (hs : list.Sorted) (chunk : Chunk) :
    (insertDeferred list chunk).Sorted := by
  rw [insertDeferred]
  split_ifs
  · exact sorted_insert_getD hs chunk
  · exact hs

theorem sorted_dropPages (hs : list.Sorted) (pages : PageRange) :
    (dropPages .page4K list pages).Sorted := by
  by_cases hzero : pages.sizeInChunks .page4K = 0
  · rw [dropPages, if_pos hzero]
    exact hs
  cases list with
  | array arr =>
    rw [dropPages, if_neg hzero]
    exact sorted_insert_getD hs _
  | rbTree tree =>
    have hle : pages.start ≤ pages.end_ :=
      not_lt.mp fun hlt => hzero (ChunkRange.sizeInChunks_eq_zero_iff.mpr hlt)
    obtain ⟨tree', heq, hs', -⟩ := dropPages_joins hs hle
    rw [heq]
    exact hs'

theorem sorted_step (s : State R) (op : Op) (hs : s.freeList.Sorted) :
    (step s op).freeList.Sorted := by
  cases op with
  | allocate request numPages =>
    have hsorted := sorted_allocatePagesDeferred hs s.designatedLowEnd request numPages
    rw [step]
    split
    · next heq =>
      rw [heq] at hsorted
      exact hsorted
    · next heq =>
      rw [heq] at hsorted
      exact hsorted
  | dropAction i =>
    rw [step]
    split
    · exact hs
    · exact sorted_insertDeferred (sorted_insertDeferred hs _) _
  | merge i j =>
    rcases step_merge s i j with heq | ⟨self, ap, l, -, -, heq⟩ <;> rw [heq] <;> exact hs
  | split i atPage =>
    rcases step_split s i atPage with heq | ⟨p, first, second, l, -, -, heq⟩ <;> rw [heq] <;> exact hs
  | drop i =>
    rcases step_drop s i with heq | ⟨p, l, -, heq⟩ <;> rw [heq]
    · exact hs
    · exact sorted_dropPages hs p

end Order

/-! ### Where allocations may be served -/

/-- Pages from `start` on that are all below the hole, or all above it. -/
def OutsideHole (start numPages : ℕ) : Prop :=
  chunkAdd .page4K start (numPages - 1) < 2 ^ 35 ∨ 2 ^ 52 - 2 ^ 35 ≤ start

instance (start numPages : ℕ) : Decidable (OutsideHole start numPages) :=
  inferInstanceAs (Decidable (_ ∨ _))

theorem outsideHole_iff (start numPages : ℕ) :
    OutsideHole start numPages ↔ ∀ n ∈ newAllocation start numPages, IsPage n := by
  simp only [OutsideHole, newAllocation, ChunkRange.mem_iff, IsPage, chunkAdd_page4K]
  have hmax : maxPageNumber = 2 ^ 52 - 1 := by decide
  constructor
  · intro h n hn
    omega
  · intro h
    by_contra hhole
    -- the first page of the allocation in the hole
    have hpage := h (max start (2 ^ 35)) (by omega)
    omega

/-- The free chunk in which an allocation is served has its pages outside the hole: those at the
address that is asked for, or at the lowest aligned page of the first chunk that fits. -/
def ServedOutsideHole (s : State R) : Op → Prop
  | .allocate request numPages =>
    ∀ start ∈ servedAt s.freeList s.designatedLowEnd request numPages, OutsideHole start numPages
  | _ => True

instance (s : State R) (op : Op) : Decidable (ServedOutsideHole s op) :=
  match op with
  | .allocate request numPages => inferInstanceAs (Decidable (∀ start ∈
      servedAt s.freeList s.designatedLowEnd request numPages, OutsideHole start numPages))
  | .dropAction _ | .merge _ _ | .split _ _ | .drop _ => inferInstanceAs (Decidable True)

theorem unaliased_allocate_iff (hs : s.freeList.Sorted) (h : Unaliased s)
    (request : AllocationRequest) (numPages : ℕ) :
    Unaliased (step s (.allocate request numPages)) ↔
      ServedOutsideHole s (.allocate request numPages) := by
  have hserved := allocatePagesDeferred_served hs s.designatedLowEnd request numPages
  have hold := unaliased_iff.mp h
  rw [step, ServedOutsideHole]
  generalize allocatePagesDeferred s.freeList s.designatedLowEnd request numPages = r at hserved
  obtain ⟨res, list⟩ := r
  cases res with
  | err e | panic =>
    have hnone := Option.map_eq_none_iff.mp hserved.symm
    rw [hnone]
    exact iff_of_true h (by simp)
  | ok p =>
    obtain ⟨start, hstart, hp⟩ := Option.map_eq_some_iff.mp hserved.symm
    simp only [hstart, Option.mem_def, Option.some.injEq, forall_eq', outsideHole_iff, hp,
      unaliased_iff, cover_cons_pos_iff]
    exact ⟨fun hall n hn => hall n (.inl hn), fun hnew n hn => hn.elim (hnew n) (hold n)⟩

/-- Only an allocation can break the property, and it does by a page of the hole. -/
theorem unaliased_step_iff (s : State R) (op : Op) (hI : s.freeList.Sorted ∧ Unaliased s) :
    Unaliased (step s op) ↔ ServedOutsideHole s op := by
  obtain ⟨hs, h⟩ := hI
  cases op with
  | allocate request numPages => exact unaliased_allocate_iff hs h request numPages
  | dropAction i =>
    refine iff_of_true ?_ trivial
    rw [step]
    split
    · exact h
    · exact h
  | merge i j =>
    refine iff_of_true ?_ trivial
    rcases step_merge s i j with heq | ⟨self, ap, l, hx, hadj, heq⟩ <;> rw [heq]
    · exact h
    refine h.exchange hx fun n => ?_
    rw [cover_cons_eq_add self]
    exact cover_join_le (by rw [hadj, chunkAdd_page4K]; omega) n
  | split i atPage =>
    refine iff_of_true ?_ trivial
    rcases step_split s i atPage with heq | ⟨p, first, second, l, hx, hsplit, heq⟩ <;> rw [heq]
    · exact h
    exact h.exchange hx fun n => by rw [cover_cons_eq_add first, AllocatedPages.cover_split hsplit n]
  | drop i =>
    refine iff_of_true ?_ trivial
    rcases step_drop s i with heq | ⟨p, l, hx, heq⟩ <;> rw [heq]
    · exact h
    · exact h.exchange hx fun n => Nat.zero_le _

/-- **No two outstanding pages have one start address**, before and after the list moves to the
heap, exactly as long as no allocation is served in the hole of non-canonical addresses. -/
theorem pages_unaliased_iff (endVaddr : Address) (hinit : init endVaddr = .ok s)
    (early late : List Op) :
    Guarded step (fun s op => Unaliased (step s op)) s early ∧
        Guarded step (fun s op => Unaliased (step s op))
          (convertToHeapBased (run step s early)) late ↔
      Guarded step ServedOutsideHole s early ∧
        Guarded step ServedOutsideHole (convertToHeapBased (run step s early)) late := by
  have hstart : s.freeList.Sorted ∧ Unaliased s := by
    refine ⟨?_, ?_⟩
    · rw [init] at hinit
      split_ifs at hinit
      cases hinit
      trivial
    · rw [unaliased_iff, (init_eq_ok hinit).2.1]
      exact fun n hn => absurd hn (Nat.lt_irrefl 0)
  have hstep : ∀ (s : State R) op, s.freeList.Sorted ∧ Unaliased s → Unaliased (step s op) →
      (step s op).freeList.Sorted ∧ Unaliased (step s op) :=
    fun s op hI h => ⟨sorted_step s op hI.1, h⟩
  refine (and_congr_right fun hearly => ?_).trans
    (and_congr_left fun _ => guarded_congr hstep unaliased_step_iff hstart early)
  obtain ⟨hs, h⟩ := hearly.invariant hstep hstart
  have hlate : (convertToHeapBased (run step s early)).freeList.Sorted ∧
      Unaliased (convertToHeapBased (run step s early)) :=
    ⟨(StaticArrayRBTree.convertToHeapAllocated_spec hs).1, h⟩
  exact guarded_congr hstep unaliased_step_iff hlate late

end Runs

theorem pages_unaliased_smallImage :
    Guarded step (fun s op => Unaliased (step s op)) smallImage
        [.allocate (.atVirtualAddress 0x1000) 2] ∧
      Guarded step (fun s op => Unaliased (step s op)) (convertToHeapBased (run step smallImage
        [.allocate (.atVirtualAddress 0x1000) 2])) [.split 0 2, .allocate .any 3] :=
  (pages_unaliased_iff 0x1FFFFF init_smallImage _ _).mpr
    ⟨⟨by decide, trivial⟩, trivial, by decide, trivial⟩

/-- The last page of the lower half and the one behind it, and then the first of the upper half. -/
theorem pages_aliased :
    init 0x1FFFFF = .ok smallImage ∧
      ¬ Unaliased (run step smallImage [.allocate (.atVirtualAddress 0x7FFFFFFFF000) 2,
        .dropAction 0, .allocate (.atVirtualAddress 0xFFFF800000000000) 1]) := by
  refine ⟨init_smallImage, fun h => ?_⟩
  have heq := h.1 (2 ^ 35) (2 ^ 52 - 2 ^ 35) (by decide) (by decide) (by decide)
  revert heq
  decide

end Maios.PageAllocator
