import Maios.Heap.SlabClass

/-!
# The books of one size

What the lists of an `SCAllocator` say of its pages, and what a call that fails does to them.

`deallocate` looks at the page after the call to its bitmap whether or not that call has failed. A
second free of a block is refused, but if no block of the page is in use the page is moved as if the
last one had been given back: out of a list that it is not in, and into one that it is in already.

A pointer may also be at a multiple of the size where there is no block. The bitmap has 512 bits: an
index beyond them is out of bounds, and the bits that stand for no block are set for good, so that a
free there passes for a free of a block in use.

## Main results

* `rejected_free_iff`: what a free of a block that is not in use needs to change nothing.
-/

namespace Maios.Slab

namespace SCAllocator

/-- A free at a multiple of the size is refused by the page exactly if there is a bit for it and that
bit is clear. -/
theorem deallocate_page_iff (mem : Memory) (page : ℕ) {ptr : ℕ} (layout : Layout)
    (hslot : ptr % objectPageSize % layout.size = 0) :
    mem.deallocate page ptr layout =
        (.err "deallocate: pointer not marked allocated (double-free)", mem) ↔
      ptr % objectPageSize / layout.size < 512 ∧
        mem.bit page (ptr % objectPageSize / layout.size) = false := by
  rw [Memory.deallocate, Memory.bit]
  dsimp only
  rw [if_neg (not_not.mpr hslot)]
  split_ifs with hidx hbit
  · exact iff_of_false (by simp) fun h => not_lt.mpr hidx h.1
  · exact iff_of_true rfl ⟨not_le.mp hidx, by simpa using hbit⟩
  · exact iff_of_false (by simp) fun h => hbit (by rw [h.2]; rfl)

/-- What the page answers is what the call returns. -/
theorem deallocate_fst (sc : SCAllocator) (mem : Memory) (ptr : ℕ) {layout : Layout}
    (hsize : layout.size ≤ sc.size ∧ sc.size ≤ objectPageSize - 64) :
    (sc.deallocate mem ptr layout).1 =
      (mem.deallocate (ptr - ptr % objectPageSize) ptr
        ⟨sc.size, layout.align, layout.powerOfTwo⟩).1 := by
  rw [deallocate, if_pos hsize]
  dsimp only
  split
  · next heq => rw [heq]
  · next heq =>
    rw [heq]
    split_ifs <;> rfl

/-- **A free at a multiple of the size is refused and changes nothing if and only if there is a bit for
the block, it is clear, and another block of the page is in use.** A pointer to a block in use is not
refused, so the equivalence holds for such pointers too. -/
theorem rejected_free_iff (sc : SCAllocator) (mem : Memory) (ptr : ℕ) (layout : Layout)
    (hobj : sc.objPerPage ≤ 512)
    (hsize : layout.size ≤ sc.size ∧ sc.size ≤ objectPageSize - 64)
    (hslot : ptr % objectPageSize % sc.size = 0) :
    sc.deallocate mem ptr layout =
        (.err "deallocate: pointer not marked allocated (double-free)", sc, mem) ↔
      ptr % objectPageSize / sc.size < 512 ∧
        mem.bit (ptr - ptr % objectPageSize) (ptr % objectPageSize / sc.size) = false ∧
        ∃ i < sc.objPerPage, mem.bit (ptr - ptr % objectPageSize) i = true := by
  have hpage := deallocate_page_iff mem (ptr - ptr % objectPageSize)
    ⟨sc.size, layout.align, layout.powerOfTwo⟩ hslot
  rw [← and_assoc]
  by_cases hclear : ptr % objectPageSize / sc.size < 512 ∧
      mem.bit (ptr - ptr % objectPageSize) (ptr % objectPageSize / sc.size) = false
  swap
  · -- the page does not refuse, and neither does the call
    refine iff_of_false (fun heq => ?_) fun h => hclear h.1
    have hret := (deallocate_fst sc mem ptr hsize).symm.trans (congrArg Prod.fst heq)
    refine hclear (hpage.mp (Prod.ext hret ?_))
    rw [Memory.deallocate] at hret ⊢
    dsimp only at hret ⊢
    split_ifs at hret ⊢
    rfl
  rw [and_iff_right hclear]
  have hrefused := hpage.mpr hclear
  have hfull : ¬ (mem.pages (ptr - ptr % objectPageSize)).bitfield.isFull = true := fun hfull =>
    absurd (hclear.2.symm.trans (Bitfield.isFull_iff.mp hfull _ hclear.1)) Bool.false_ne_true
  rw [deallocate, if_pos hsize]
  dsimp only
  rw [hrefused]
  dsimp only
  by_cases hfree : ∀ i < sc.objPerPage, mem.bit (ptr - ptr % objectPageSize) i = false
  · rw [if_pos ((Bitfield.allFree_iff hobj).mpr hfree)]
    refine iff_of_false (fun heq => ?_) ?_
    · -- the count of the middle list goes down
      have hcount := congrArg (fun r => r.2.1.slabs.elements) heq
      have hmoved : (sc.moveToEmpty mem (ptr - ptr % objectPageSize)).1.slabs.elements =
        wrapSub sc.slabs.elements 1 := rfl
      dsimp only at hcount
      rw [hmoved, wrapSub] at hcount
      split_ifs at hcount <;> omega
    · rintro ⟨i, hi, hset⟩
      exact absurd ((hfree i hi).symm.trans hset) Bool.false_ne_true
  · rw [if_neg fun hall => hfree ((Bitfield.allFree_iff hobj).mp hall), if_neg hfull]
    refine iff_of_true rfl ?_
    simpa using hfree

/-- An allocator of blocks of this size with one page. -/
def onePage (size : ℕ) : SCAllocator × Memory :=
  (new size).refill ⟨fun _ => ⟨none, 0, fun _ => 0#64⟩, ⟨fun _ => none, fun _ => none⟩⟩ 8192 0

/-- The first block of the page is in use, and the second one is given back. -/
theorem rejected_free_beside_used :
    let r := (onePage 8).1.allocate (onePage 8).2 1 ⟨8, 8, eight_eq_two_pow⟩
    r.2.1.deallocate r.2.2 8200 ⟨8, 8, eight_eq_two_pow⟩ =
      (.err "deallocate: pointer not marked allocated (double-free)", r.2.1, r.2.2) :=
  (rejected_free_iff _ _ 8200 _ (by decide +kernel) (by decide +kernel) (by decide +kernel)).mpr
    ⟨by decide +kernel, by decide +kernel, 0, by decide +kernel, by decide +kernel⟩

/-- A free of a block of an empty page changes the count of a list that the page is not in; a free
beyond the bits panics; and a free where a block would run into the metadata succeeds. -/
theorem rejected_free_of_empty_page :
    ((onePage 8).1.deallocate (onePage 8).2 8192 ⟨8, 8, eight_eq_two_pow⟩).2.1.slabs.elements ≠
      (onePage 8).1.slabs.elements ∧
    ((onePage 8).1.deallocate (onePage 8).2 (8192 + 4096) ⟨8, 8, eight_eq_two_pow⟩).1 = .panic ∧
    ((onePage 16).1.deallocate (onePage 16).2 (8192 + 8064) ⟨16, 8, eight_eq_two_pow⟩).1 =
      .ok () := by
  decide +kernel

end SCAllocator

end Maios.Slab
