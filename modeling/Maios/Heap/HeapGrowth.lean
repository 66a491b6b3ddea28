import Maios.Heap.MultipleHeaps
import Maios.Heap.SlabSafety

/-!
# The heaps of the kernel and their pages

The pages of all heaps lie in one area, which only grows, and mappings for large objects are made
outside of it. A heap grows by a page that another heap gives back, which has no block in use, or by
new pages at the end of the area.
-/

namespace Maios.Slab

/-- The bytes of two mappings are apart. -/
def Mapping.Apart (x y : Mapping) : Prop :=
  x.start + x.pages * pageSize ≤ y.start ∨ y.start + y.pages * pageSize ≤ x.start

variable {R : OrderedTree LargeAllocation LargeAllocation.getKey}

namespace MultipleHeaps

/-- The page that the first heap with many empty ones gives back. -/
def giver (m : MultipleHeaps R) (tried : List ℕ) : Option ℕ :=
  tried.findSome? fun heap => (m.zones heap).emptyPage emptyPagesThreshold

/-- The page that a heap will take after it has grown. -/
def grownBy (m : MultipleHeaps R) (surroundings : Surroundings) : Option ℕ :=
  match m.giver (surroundings.tried.filter fun heap => decide (heap ∈ m.heaps)) with
  | some page => some page
  | none =>
    if m.mapsAt surroundings m.heapEnd ∧ m.mapsAt surroundings (m.heapEnd + objectPageSize) then
      some (m.heapEnd + objectPageSize)
    else none

/-- The empty page that a request for a size will take if it takes one. -/
def nextEmpty (m : MultipleHeaps R) (surroundings : Surroundings) (c : Fin 11) : Option ℕ :=
  match (m.zones surroundings.key).nextEmpty c with
  | some page => some page
  | none => m.grownBy surroundings

/-- The pages that heaps have are those that have been mapped for them, in one area. Mappings for large
objects are outside of it, and apart. -/
structure Inv (m : MultipleHeaps R) (used : ℕ × Fin 11 → ℕ → ℕ → Prop) : Prop where
  placed : Placed m.mem m.zones (· ∈ m.held) used
  nodup : m.held.Nodup
  keys : ∀ p x i, used p x i → p.1 ∈ m.heaps
  area : ∀ b ∈ m.held, heapStart ≤ b ∧ b + objectPageSize ≤ m.heapEnd
  start_le : heapStart ≤ m.heapEnd
  pos : ∀ a ∈ m.mapped, 0 < a.pages
  outside : ∀ a ∈ m.mapped, a.start + a.pages * pageSize ≤ heapStart ∨ m.heapEnd ≤ a.start
  apart : m.mapped.Pairwise Mapping.Apart

/-- What a call for blocks of the heaps leaves as it is. -/
structure Kept (m m' : MultipleHeaps R) : Prop where
  heaps : m'.heaps = m.heaps
  largeAllocations : m'.largeAllocations = m.largeAllocations
  mapped : m'.mapped = m.mapped

theorem Kept.refl (m : MultipleHeaps R) : Kept m m := ⟨rfl, rfl, rfl⟩

theorem Kept.trans {m m' m'' : MultipleHeaps R} (h : Kept m m') (h' : Kept m' m'') : Kept m m'' :=
  ⟨h'.heaps.trans h.heaps, h'.largeAllocations.trans h.largeAllocations,
    h'.mapped.trans h.mapped⟩

theorem kept_setZone (m : MultipleHeaps R) (heap : ℕ) (z : ZoneAllocator) (mem : Memory) :
    Kept m (m.setZone heap z mem) := ⟨rfl, rfl, rfl⟩

variable {m : MultipleHeaps R} {used used' : ℕ × Fin 11 → ℕ → ℕ → Prop} {surroundings : Surroundings}
  {layout : Layout} {c : Fin 11} {heap b : ℕ} {z : ZoneAllocator} {mem : Memory}

theorem setZone_self (m : MultipleHeaps R) (heap : ℕ) : m.setZone heap (m.zones heap) m.mem = m := by
  rw [setZone, Function.update_eq_self]

theorem refill_eq {outcome : Outcome String Unit}
    (h : (m.zones heap).refill m.mem layout b = (outcome, z, mem)) :
    m.refill heap layout b = (outcome, m.setZone heap z mem) := by rw [refill, h]

theorem zones_setZone_self (m : MultipleHeaps R) (heap : ℕ) (z : ZoneAllocator) (mem : Memory) :
    (m.setZone heap z mem).zones heap = z := Function.update_self _ _ _

theorem isFree_iff {start size : ℕ} : m.isFree start size = true ↔
    (start + size ≤ heapStart ∨ m.heapEnd ≤ start) ∧
      ∀ mp ∈ m.mapped, start + size ≤ mp.start ∨ mp.start + mp.pages * pageSize ≤ start := by
  rw [isFree, Bool.and_eq_true, List.all_eq_true]
  simp only [decide_eq_true_eq]

theorem mapsAt_iff : m.mapsAt surroundings b = true ↔ surroundings.mappable b = true ∧
    m.isFree b objectPageSize = true ∧ b % objectPageSize = 0 := by
  rw [mapsAt, Bool.and_eq_true, Bool.and_eq_true, decide_eq_true_eq, and_assoc]

namespace Inv

variable (h : m.Inv used)

include h

/-- The heaps have changed, with the same pages. -/
theorem setZone (hplaced : Placed mem (Function.update m.zones heap z) (· ∈ m.held) used')
    (hkeys : ∀ p x i, used' p x i → p.1 ∈ m.heaps) : (m.setZone heap z mem).Inv used' :=
  ⟨hplaced, h.nodup, hkeys, h.area, h.start_le, h.pos, h.outside, h.apart⟩

/-! ### Growing -/

/-- Some heap gives back a page, or nothing has changed. -/
theorem takePage (tried : List ℕ) :
    m.giver tried = none ∧ m.takePage tried = (none, m) ∨
      ∃ b heap z mem, m.giver tried = some b ∧ m.takePage tried = (some b, m.setZone heap z mem) ∧
        b ∈ m.held ∧ Placed mem (Function.update m.zones heap z) (fun x => x ∈ m.held ∧ x ≠ b) used := by
  induction tried with
  | nil => exact .inl ⟨rfl, rfl⟩
  | cons heap rest ih =>
    rw [MultipleHeaps.takePage, giver, List.findSome?_cons]
    rcases (h.placed.update_self heap).retrieveEmptyPage emptyPagesThreshold with
      ⟨hnone, hcall⟩ | ⟨b, z, mem, hsome, hcall, hb, -, hplaced⟩
    · rw [hcall, hnone]
      rw [setZone_self]
      exact ih
    · rw [hcall, hsome]
      exact .inr ⟨b, heap, z, mem, rfl, rfl, hb, hplaced⟩

section

variable (hc : getSlab layout.size = some c)

include hc

/-- A new page at the end of the area. -/
theorem mapPage (heap : ℕ) (hmaps : m.mapsAt surroundings m.heapEnd = true) :
    ∃ m', refill { m with
        heapEnd := m.heapEnd + objectPageSize, held := m.heapEnd :: m.held }
        heap layout m.heapEnd = (.ok (), m') ∧
      m'.Inv used ∧ Kept m m' ∧ m'.heapEnd = m.heapEnd + objectPageSize ∧
      ((m'.zones heap).smallSlabs c).emptySlabs.head = some m.heapEnd ∧
      ∀ b, m'.mapsAt surroundings b = true → m.mapsAt surroundings b = true := by
  obtain ⟨-, hfree, haligned⟩ := mapsAt_iff.mp hmaps
  obtain ⟨-, hfree⟩ := isFree_iff.mp hfree
  have hnew : m.heapEnd ∉ m.held := fun hmem => by
    have hpos : 0 < objectPageSize := by decide
    have := (h.area _ hmem).2
    omega
  obtain ⟨z, mem, hcall, hplaced, hhead⟩ := (h.placed.update_self heap).refill hc hnew haligned
  refine ⟨_, refill_eq hcall, ⟨?_, List.nodup_cons.mpr ⟨hnew, h.nodup⟩, h.keys,
    ?_, ?_, h.pos, ?_, h.apart⟩, ⟨rfl, rfl, rfl⟩, rfl, ?_, fun b hb => ?_⟩
  · exact hplaced.congr (fun x => List.mem_cons.symm) fun _ _ _ => .rfl
  · intro b hmem
    rcases List.mem_cons.mp hmem with rfl | hmem
    · exact ⟨h.start_le, le_rfl⟩
    · exact ⟨(h.area b hmem).1, (h.area b hmem).2.trans (Nat.le_add_right _ _)⟩
  · exact h.start_le.trans (Nat.le_add_right _ _)
  · -- a mapping that begins at the end of the area or behind begins behind the new page
    intro a hmem
    refine (h.outside a hmem).imp_right fun hle => ?_
    have hpos := h.pos a hmem
    have hpage : pageSize = 4096 := rfl
    have := hfree a hmem
    rw [hpage] at this
    change m.heapEnd + objectPageSize ≤ a.start
    omega
  · rw [zones_setZone_self]
    exact hhead
  · obtain ⟨hmappable, hfree', haligned'⟩ := mapsAt_iff.mp hb
    obtain ⟨harea, hapart⟩ := isFree_iff.mp hfree'
    refine mapsAt_iff.mpr ⟨hmappable, isFree_iff.mpr ⟨harea.imp_right fun hle => ?_, hapart⟩,
      haligned'⟩
    exact (Nat.le_add_right _ _).trans hle

/-- New pages at the end of the area. The last one is the first one to be taken. -/
theorem mapPages (surroundings : Surroundings) (heap n : ℕ) :
    ∃ outcome m', m.mapPages surroundings heap layout n = (outcome, m') ∧ m'.Inv used ∧ Kept m m' ∧
      (outcome = .ok () → (∀ i < n, m.mapsAt surroundings (m.heapEnd + i * objectPageSize) = true) ∧
        (0 < n → ((m'.zones heap).smallSlabs c).emptySlabs.head =
          some (m.heapEnd + (n - 1) * objectPageSize))) := by
  induction n generalizing m with
  | zero =>
    refine ⟨_, m, rfl, h, Kept.refl m, fun _ => ⟨fun i hi => ?_, fun hlt => ?_⟩⟩
    · omega
    · omega
  | succ n ih =>
    rw [mapPages]
    by_cases hmaps : m.mapsAt surroundings m.heapEnd = true
    swap
    · rw [if_neg hmaps]
      exact ⟨_, m, rfl, h, Kept.refl m, fun hok => by cases hok⟩
    rw [if_pos hmaps]
    obtain ⟨m₁, hcall, hinv, hkept, hend, hhead, hback⟩ := h.mapPage hc heap hmaps
    obtain ⟨outcome, m', hrest, hinv', hkept', hok⟩ := ih hinv
    dsimp only
    rw [hcall]
    refine ⟨outcome, m', hrest, hinv', hkept.trans hkept', fun houtcome => ?_⟩
    obtain ⟨hall, hlast⟩ := hok houtcome
    rw [hend] at hall hlast
    refine ⟨fun i hi => ?_, fun _ => ?_⟩
    · cases i with
      | zero =>
        exact hmaps
      | succ i =>
        have := hback _ (hall i (by omega))
        rwa [add_assoc, add_comm objectPageSize, ← Nat.succ_mul] at this
    · cases n with
      | zero =>
        obtain rfl : m₁ = m' := congrArg Prod.snd hrest
        rw [hhead]
        rfl
      | succ n =>
        rw [hlast (Nat.succ_pos n), add_assoc, add_comm objectPageSize, ← Nat.succ_mul]
        rfl

/-- **A heap grows.** When that succeeds, the page that it will take next is known. -/
theorem growHeap (surroundings : Surroundings) (heap : ℕ) :
    ∃ outcome m', m.growHeap surroundings layout heap = (outcome, m') ∧ m'.Inv used ∧ Kept m m' ∧
      (outcome = .ok () → ∃ page, m.grownBy surroundings = some page ∧
        ((m'.zones heap).smallSlabs c).emptySlabs.head = some page) := by
  rw [MultipleHeaps.growHeap, grownBy]
  rcases h.takePage (surroundings.tried.filter fun heap => decide (heap ∈ m.heaps)) with
    ⟨hnone, hcall⟩ | ⟨b, giving, z, mem, hsome, hcall, hb, hplaced⟩
  · rw [hcall, hnone]
    obtain ⟨outcome, m', hmaps, hinv, hkept, hok⟩ :=
      h.mapPages hc surroundings heap heapGrowthAmount
    refine ⟨outcome, m', hmaps, hinv, hkept, fun houtcome => ?_⟩
    obtain ⟨hall, hlast⟩ := hok houtcome
    have hfirst := hall 0 (by decide)
    have hsecond := hall 1 (by decide)
    refine ⟨_, ?_, hlast (by decide)⟩
    rw [if_pos ⟨hfirst, hsecond⟩]
    rfl
  · rw [hcall, hsome]
    have haligned := h.placed.aligned hb
    obtain ⟨z', mem', hrefill, hplaced', hhead⟩ :=
      (hplaced.update_self heap).refill hc (fun hx => hx.2 rfl) haligned
    refine ⟨.ok (), _, refill_eq hrefill, ⟨?_, h.nodup, h.keys, h.area, h.start_le, h.pos,
      h.outside, h.apart⟩, ⟨rfl, rfl, rfl⟩, fun _ => ⟨b, rfl, ?_⟩⟩
    · exact hplaced'.congr (put_back (· ∈ m.held) hb) fun _ _ _ => .rfl
    · rw [zones_setZone_self]
      exact hhead

/-! ### Blocks -/

theorem allocateFrom (hkey : heap ∈ m.heaps)
    (hsuits : SuitsPage c layout ((m.zones heap).nextEmpty c)) :
    (∃ ptr b idx m', m.allocateFrom heap layout = (.ok ptr, m') ∧
      Gives (· ∈ m'.held) used heap c layout.align ptr b idx ∧
      m'.Inv (withBlock used (heap, c) b idx) ∧ Kept m m') ∨
    ∃ e m', m.allocateFrom heap layout = (.err e, m') ∧ m'.Inv used ∧ Kept m m' ∧
      (perPage c = 1 → m' = m ∧ (m.zones heap).nextEmpty c = none) := by
  rw [MultipleHeaps.allocateFrom]
  rcases (h.placed.update_self heap).allocate (HeapState.enough_length m.held) hc hsuits with
    ⟨ptr, b, idx, z, mem, hcall, hgives, hplaced⟩ | ⟨e, z, mem, hcall, hplaced, hsame⟩ <;>
    rw [show m.fuel = m.held.length + 1 from rfl, hcall]
  · refine .inl ⟨ptr, b, idx, _, rfl, hgives, h.setZone hplaced ?_, kept_setZone _ _ _ _⟩
    rintro p x i (hused | ⟨rfl, -, -⟩)
    · exact h.keys p x i hused
    · exact hkey
  · refine .inr ⟨e, _, rfl, h.setZone hplaced h.keys, kept_setZone _ _ _ _, fun hone => ?_⟩
    obtain ⟨rfl, rfl, hnone⟩ := hsame hone
    exact ⟨setZone_self m heap, hnone⟩

/-- **A request is served with a block that was not in use, or the blocks in use stay the same.** -/
theorem allocSmall (surroundings : Surroundings)
    (hsuits : SuitsPage c layout (m.nextEmpty surroundings c)) :
    (∃ ptr b idx m', m.allocSmall surroundings layout = (.ok (some ptr), m') ∧
      Gives (· ∈ m'.held) used surroundings.key c layout.align ptr b idx ∧
      m'.Inv (withBlock used (surroundings.key, c) b idx) ∧ Kept m m') ∨
    ∃ outcome m', m.allocSmall surroundings layout = (outcome, m') ∧
      (∀ ptr, outcome ≠ .ok (some ptr)) ∧ m'.Inv used ∧ Kept m m' := by
  rw [MultipleHeaps.allocSmall]
  by_cases hkey : surroundings.key ∈ m.heaps
  swap
  · rw [if_neg hkey]
    exact .inr ⟨_, m, rfl, (fun ptr hok => by cases hok), h, Kept.refl m⟩
  rw [if_pos hkey]
  have hown : SuitsPage c layout ((m.zones surroundings.key).nextEmpty c) := by
    intro hone page hpage
    refine hsuits hone page ?_
    rw [nextEmpty, hpage]
  rcases h.allocateFrom hc hkey hown with
    ⟨ptr, b, idx, m', hcall, hgives, hinv, hkept⟩ | ⟨e, m₁, hcall, hinv₁, hkept₁, hsame⟩
  · rw [hcall]
    exact .inl ⟨ptr, b, idx, m', rfl, hgives, hinv, hkept⟩
  rw [hcall]
  dsimp only
  obtain ⟨outcome, m₂, hgrow, hinv₂, hkept₂, hok⟩ :=
    hinv₁.growHeap hc surroundings surroundings.key
  have hkept := hkept₁.trans hkept₂
  rw [hgrow]
  cases outcome with
  | panic | err e => exact .inr ⟨_, m₂, rfl, (fun ptr hok => by cases hok), hinv₂, hkept⟩
  | ok u => ?_
  obtain ⟨page, hgrown, hhead⟩ := hok rfl
  have hown₂ : SuitsPage c layout ((m₂.zones surroundings.key).nextEmpty c) := by
    intro hone page' hpage
    rw [ZoneAllocator.nextEmpty, hhead] at hpage
    obtain ⟨rfl, hnone⟩ := hsame hone
    refine hsuits hone page' ?_
    rw [nextEmpty, hnone]
    exact hgrown.trans hpage
  have hkey₂ : surroundings.key ∈ m₂.heaps := by
    rw [hkept.heaps]
    exact hkey
  dsimp only
  rcases hinv₂.allocateFrom hc hkey₂ hown₂ with
    ⟨ptr, b, idx, m', hcall, hgives, hinv, hkept'⟩ | ⟨e, m', hcall, hinv, hkept', -⟩ <;> rw [hcall]
  · exact .inl ⟨ptr, b, idx, m', rfl, hgives, hinv, hkept.trans hkept'⟩
  · exact .inr ⟨_, m', rfl, (fun ptr hok => by cases hok), hinv, hkept.trans hkept'⟩

end

/-- **A block in use is given back**, to the heap that it comes from. -/
theorem deallocSmall {ptr idx : ℕ} (hat : At used heap layout ptr c b idx) :
    ∃ m', m.deallocSmall ptr layout = (.ok (), m') ∧
      m'.Inv (withoutBlock used (heap, c) b idx) ∧ Kept m m' := by
  obtain ⟨-, haligned, hle, hend⟩ := hat.inside h.placed
  have hpage : ptr - ptr % objectPageSize = b := by
    have hmax : maxAllocSize < objectPageSize := by decide
    rw [objectPageSize] at *
    omega
  obtain ⟨z, mem, hcall, hplaced⟩ := (h.placed.update_self heap).deallocate hat.slab hat.used
  rw [MultipleHeaps.deallocSmall]
  rw [hpage, h.placed.heapId_of_used hat.used, if_pos (h.keys _ _ _ hat.used), hat.ptr_eq, hcall]
  refine ⟨_, rfl, h.setZone hplaced ?_, kept_setZone _ _ _ _⟩
  rintro p x i ⟨hused, -⟩
  exact h.keys p x i hused

end Inv

/-! ### Initialization -/

theorem empty_inv : (empty : MultipleHeaps R).Inv fun _ _ _ => False where
  placed := placed_new.congr (fun x => by simp [empty]) fun _ _ _ => .rfl
  nodup := List.nodup_nil
  keys := fun p x i hused => hused.elim
  area := fun b hmem => by cases hmem
  start_le := le_rfl
  pos := fun a hmem => by cases hmem
  outside := fun a hmem => by cases hmem
  apart := List.Pairwise.nil

theorem getSlab_classLayout (c : Fin 11) : getSlab (classLayout c).size = some c := by
  revert c
  decide

/-- One heap is set up. -/
theorem Inv.initIndividualHeap (h : m.Inv used) {key : ℕ} {m' : MultipleHeaps R}
    (hinit : initIndividualHeap surroundings m key = .ok m') :
    m'.Inv used ∧ m'.largeAllocations = m.largeAllocations := by
  obtain ⟨m₁, hloop, hlast⟩ := Outcome.bind_eq_ok.mp hinit
  have hloop : m₁.Inv used ∧ m₁.largeAllocations = m.largeAllocations := by
    refine Outcome.foldl_keeps (I := fun m₁ => m₁.Inv used ∧
      m₁.largeAllocations = m.largeAllocations) ?_ ⟨h, rfl⟩ hloop
    rintro c m₁ m₂ ⟨hinv, hlarge⟩ hstep
    obtain ⟨outcome, m₃, hcall, hinv₃, hkept, -⟩ := hinv.mapPages (getSlab_classLayout c)
      surroundings key mappedPagesPerSizeClass
    rw [initClass, hcall] at hstep
    cases outcome with cases hstep
    | ok u =>
      exact ⟨hinv₃, hkept.largeAllocations.trans hlarge⟩
  by_cases hkey : key ∈ m₁.heaps
  · rw [if_pos hkey] at hlast
    cases hlast
  · rw [if_neg hkey] at hlast
    cases hlast
    obtain ⟨⟨hplaced, hnodup, hkeys, harea, hle, hpos, houtside, hapart⟩, hlarge⟩ := hloop
    exact ⟨⟨hplaced, hnodup, fun p x i hused => List.mem_cons_of_mem _ (hkeys p x i hused), harea, hle,
      hpos, houtside, hapart⟩, hlarge⟩

end MultipleHeaps

/-- The heaps of all CPUs are set up, with no block in use. -/
theorem initialize_inv {surroundings : Surroundings} {keys : List ℕ} {m : MultipleHeaps R}
    (h : initializeMultipleHeaps surroundings keys = .ok m) :
    m.Inv (fun _ _ _ => False) ∧ m.largeAllocations = R.empty := by
  refine Outcome.foldl_keeps (I := fun m : MultipleHeaps R => m.Inv (fun _ _ _ => False) ∧
    m.largeAllocations = R.empty) ?_ ⟨MultipleHeaps.empty_inv, rfl⟩ h
  rintro key m₁ m₂ ⟨hinv, hlarge⟩ hstep
  obtain ⟨hinv', hlarge'⟩ := hinv.initIndividualHeap hstep
  exact ⟨hinv', hlarge'.trans hlarge⟩

end Maios.Slab
