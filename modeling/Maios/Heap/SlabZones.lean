import Maios.Heap.SlabClass
import Mathlib.Data.List.Perm.Subperm

/-!
# Zones of a slab allocator

All zones together hold a set of pages, each in one list of one size of one zone, and some of the
blocks of these pages are in use. The calls of a zone change these two sets as one would expect: an
allocation adds a block that was not in use, a deallocation removes the block, and a page that is
given back has no block in use.

The exchange of pages between the sizes of a zone is not seen: the page that is taken from one size
is made a page of the other before the call goes on.
-/

namespace Maios.Slab

open ZoneAllocator

open Function (update update_self update_of_ne update_eq_self)

/-- One step of the table of sizes. -/
theorem le_of_ite {n s : ℕ} {c i : Fin 11} {next : Option (Fin 11)} (hs : s ≤ classSize i)
    (hnext : next = some c → n ≤ classSize c) (h : (if n ≤ s then some i else next) = some c) :
    n ≤ classSize c := by
  split_ifs at h with hn
  · exact Option.some.inj h ▸ hn.trans hs
  · exact hnext h

/-- A request gets a size class that is large enough. -/
theorem le_classSize {n : ℕ} {c : Fin 11} : getSlab n = some c → n ≤ classSize c := by
  refine le_of_ite (by decide) <| le_of_ite (by decide) <| le_of_ite (by decide) <|
    le_of_ite (by decide) <| le_of_ite (by decide) <| le_of_ite (by decide) <|
    le_of_ite (by decide) <| le_of_ite (by decide) <| le_of_ite (by decide) <|
    le_of_ite (by decide) <| le_of_ite (by decide) fun h => ?_
  cases h

/-- The page that `retrieve_empty_page` gives back: the first empty one of the first size that has
any. -/
def ZoneAllocator.emptyPage (z : ZoneAllocator) (threshold : ℕ) : Option ℕ :=
  if z.emptyPages ≤ threshold then none
  else z.firstWithEmpty.bind fun c => (z.smallSlabs c).emptySlabs.head

/-- The empty page that a request for a size will take if it takes one: one of its own, or one that is
exchanged within the zone. -/
def ZoneAllocator.nextEmpty (z : ZoneAllocator) (c : Fin 11) : Option ℕ :=
  match (z.smallSlabs c).emptySlabs.head with
  | some page => some page
  | none => z.emptyPage 0

/-- All zones with the lists of each size, the pages in them and the blocks in use. -/
structure PlacedIn (mem : Memory) (zones : ℕ → ZoneAllocator) (L : ℕ × Fin 11 → Kind → List ℕ)
    (pages : ℕ → Prop) (used : ℕ × Fin 11 → ℕ → ℕ → Prop) : Prop where
  heapId : ∀ heap, (zones heap).heapId = heap
  slab : ∀ p, ScOk mem ((zones p.1).smallSlabs p.2) p.1 p.2 (L p)
  apart : ∀ p q x, Pages (L p) x → Pages (L q) x → p = q
  pages_iff : ∀ x, (∃ p, Pages (L p) x) ↔ pages x
  used_iff : ∀ p x i, On mem p.2 (L p) x i ↔ used p x i

/-- The pages that the zones have, and the blocks in use by zone, size, page and index. -/
def Placed (mem : Memory) (zones : ℕ → ZoneAllocator) (pages : ℕ → Prop)
    (used : ℕ × Fin 11 → ℕ → ℕ → Prop) : Prop := ∃ L, PlacedIn mem zones L pages used

section Zones

variable {mem mem' : Memory} {zones : ℕ → ZoneAllocator} {z : ZoneAllocator}
  {pages pages' : ℕ → Prop} {used used' : ℕ × Fin 11 → ℕ → ℕ → Prop} {heap b idx fuel : ℕ}
  {c : Fin 11} {layout : Layout}

theorem Placed.congr (h : Placed mem zones pages used) (hpages : ∀ x, pages x ↔ pages' x)
    (hused : ∀ p x i, used p x i ↔ used' p x i) : Placed mem zones pages' used' := by
  obtain ⟨L, hid, hslab, hapart, hp, hu⟩ := h
  exact ⟨L, hid, hslab, hapart, fun x => (hp x).trans (hpages x),
    fun p x i => (hu p x i).trans (hused p x i)⟩

/-! ### What is said of the pages -/

variable {L : ℕ × Fin 11 → Kind → List ℕ} {p : ℕ × Fin 11}

section

variable (h : Placed mem zones pages used)

include h

theorem Placed.page_of_used (hused : used p b idx) : pages b ∧ idx < perPage p.2 := by
  obtain ⟨L, h⟩ := h
  obtain ⟨hpage, hlt, -⟩ := (h.used_iff p b idx).mpr hused
  exact ⟨(h.pages_iff b).mp ⟨p, hpage⟩, hlt⟩

theorem Placed.aligned (hb : pages b) : b % objectPageSize = 0 := by
  obtain ⟨L, h⟩ := h
  obtain ⟨p, κ, hmem⟩ := (h.pages_iff b).mpr hb
  exact ((h.slab p).page κ b hmem).aligned

/-- A page belongs to one zone and one size. -/
theorem Placed.owner {q : ℕ × Fin 11} {i j : ℕ} (hp : used p b i) (hq : used q b j) : p = q := by
  obtain ⟨L, h⟩ := h
  exact h.apart p q b ((h.used_iff p b i).mpr hp).page ((h.used_iff q b j).mpr hq).page

/-- The zone is named in the page. -/
theorem Placed.heapId_of_used (hused : used p b idx) : (mem.pages b).heapId = p.1 := by
  obtain ⟨L, h⟩ := h
  obtain ⟨⟨κ, hmem⟩, -, -⟩ := (h.used_iff p b idx).mpr hused
  exact ((h.slab p).page κ b hmem).heapId

end

theorem placed_new : Placed ⟨fun _ => ⟨none, 0, fun _ => 0#64⟩, ⟨fun _ => none, fun _ => none⟩⟩ .new
    (fun _ => False) fun _ _ _ => False := by
  refine ⟨fun _ _ => [], fun _ => rfl, fun p => ScOk.new _ _, fun p q x hx => ?_, fun x => ?_,
    fun p x i => ?_⟩
  · obtain ⟨κ, hx⟩ := hx
    cases hx
  · refine iff_false_intro ?_
    rintro ⟨p, κ, hx⟩
    cases hx
  · refine iff_false_intro ?_
    rintro ⟨⟨κ, hx⟩, -, -⟩
    cases hx

/-- The zone that a call is for, as it was before. -/
theorem Placed.update_self (h : Placed mem zones pages used) (heap : ℕ) :
    Placed mem (update zones heap (zones heap)) pages used := by
  rw [update_eq_self]
  exact h

theorem PlacedIn.slab_self (h : PlacedIn mem (update zones heap z) L pages used)
    (c : Fin 11) : ScOk mem (z.smallSlabs c) heap c (L (heap, c)) := by
  have hslab := h.slab (heap, c)
  rw [update_self] at hslab
  exact hslab

/-! ### One size of one zone changes -/

/-- A call has changed one size of one zone. The pages that it has now belong to no other. -/
theorem PlacedIn.replace {l' : Kind → List ℕ} {sc' : SCAllocator} {pg : ℕ → Prop}
    {on : ℕ → ℕ → Prop} (h : PlacedIn mem (update zones heap z) L pages used)
    (hr : Replaced mem (L (heap, c)) mem' sc' heap c l' pg on)
    (hnew : ∀ x, pg x → ∀ q, Pages (L q) x → q = (heap, c)) :
    Placed mem' (update zones heap (z.setSlab c sc'))
      (fun x => pg x ∨ ∃ q, q ≠ (heap, c) ∧ Pages (L q) x)
      (fun q x i => if q = (heap, c) then on x i else used q x i) := by
  have hother : ∀ q, q ≠ (heap, c) → ∀ x, Pages (L q) x → mem.Same mem' x := fun q hq x hx =>
    hr.frame x (fun hp => hq (h.apart q _ x hx hp))
      fun hp => hq (hnew x ((hr.pages_iff x).mp hp) q hx)
  have hslabs : ∀ q : ℕ × Fin 11, q ≠ (heap, c) →
      (update zones heap (z.setSlab c sc') q.1).smallSlabs q.2 =
        (update zones heap z q.1).smallSlabs q.2 := by
    rintro ⟨heap', c'⟩ hq
    obtain rfl | hheap := eq_or_ne heap' heap
    · have hc : c' ≠ c := fun he => hq (by rw [he])
      rw [update_self, update_self]
      exact update_of_ne hc _ _
    · dsimp only
      rw [update_of_ne hheap, update_of_ne hheap]
  refine ⟨update L (heap, c) l', fun heap' => ?_, fun q => ?_, fun p q x hp hq => ?_,
    fun x => ?_, fun q x i => ?_⟩
  · have hid := h.heapId heap'
    obtain rfl | hheap := eq_or_ne heap' heap
    · rw [update_self] at hid ⊢
      exact hid
    · rw [update_of_ne hheap] at hid ⊢
      exact hid
  · obtain rfl | hq := eq_or_ne q (heap, c)
    · dsimp only
      rw [update_self, update_self]
      have hself : (z.setSlab c sc').smallSlabs c = sc' := update_self _ _ _
      rw [hself]
      exact hr.ok
    · rw [hslabs q hq, update_of_ne hq]
      exact (h.slab q).congr (hother q hq)
  · by_cases hp' : p = (heap, c)
    · by_cases hq' : q = (heap, c)
      · rw [hp', hq']
      · rw [hp', update_self] at hp
        rw [update_of_ne hq'] at hq
        exact absurd (hnew x ((hr.pages_iff x).mp hp) q hq) hq'
    rw [update_of_ne hp'] at hp
    by_cases hq' : q = (heap, c)
    · rw [hq', update_self] at hq
      exact absurd (hnew x ((hr.pages_iff x).mp hq) p hp) hp'
    · rw [update_of_ne hq'] at hq
      exact h.apart p q x hp hq
  · constructor
    · rintro ⟨q, hq⟩
      by_cases hq' : q = (heap, c)
      · rw [hq', update_self] at hq
        exact .inl ((hr.pages_iff x).mp hq)
      · rw [update_of_ne hq'] at hq
        exact .inr ⟨q, hq', hq⟩
    · rintro (hx | ⟨q, hq', hq⟩)
      · exact ⟨(heap, c), by rw [update_self]; exact (hr.pages_iff x).mpr hx⟩
      · exact ⟨q, by rw [update_of_ne hq']; exact hq⟩
  · split_ifs with hq
    · rw [hq, update_self]
      exact hr.on_iff x i
    · rw [update_of_ne hq, ← h.used_iff]
      by_cases hpage : Pages (L q) x
      · exact on_congr .rfl (hother q hq x hpage).pages i
      · exact iff_of_false (fun hon => hpage hon.page) fun hon => hpage hon.page

/-- The pages of one size and those of all others are all pages. -/
theorem PlacedIn.pages_split (h : PlacedIn mem zones L pages used) (p : ℕ × Fin 11) (x : ℕ) :
    (Pages (L p) x ∨ ∃ q, q ≠ p ∧ Pages (L q) x) ↔ pages x := by
  rw [← h.pages_iff]
  constructor
  · rintro (hx | ⟨q, -, hx⟩)
    · exact ⟨p, hx⟩
    · exact ⟨q, hx⟩
  · rintro ⟨q, hx⟩
    by_cases hq : q = p
    · exact .inl (hq ▸ hx)
    · exact .inr ⟨q, hq, hx⟩

/-- The blocks in use of one size are as they were. -/
theorem PlacedIn.used_same (h : PlacedIn mem zones L pages used) (p q : ℕ × Fin 11) (x i : ℕ) :
    (if q = p then On mem p.2 (L p) x i else used q x i) ↔ used q x i := by
  by_cases hq : q = p
  · rw [if_pos hq, hq]
    exact h.used_iff p x i
  · rw [if_neg hq]

/-! ### The calls of a zone -/

/-- Enough steps for a walk along any list. -/
def Enough (pages : ℕ → Prop) (fuel : ℕ) : Prop :=
  ∀ l : List ℕ, l.Nodup → (∀ x ∈ l, pages x) → l.length ≤ fuel

/-- The block that a zone returns. -/
structure Gives (pages : ℕ → Prop) (used : ℕ × Fin 11 → ℕ → ℕ → Prop) (heap : ℕ) (c : Fin 11)
    (align ptr b idx : ℕ) : Prop where
  page : pages b
  lt : idx < perPage c
  free : ¬ used (heap, c) b idx
  ptr_eq : ptr = b + idx * classSize c
  aligned : ptr % align = 0

/-- The blocks in use with one more. -/
def withBlock (used : ℕ × Fin 11 → ℕ → ℕ → Prop) (p : ℕ × Fin 11) (b idx : ℕ)
    (q : ℕ × Fin 11) (x i : ℕ) : Prop := used q x i ∨ q = p ∧ x = b ∧ i = idx

/-- The blocks in use without one. -/
def withoutBlock (used : ℕ × Fin 11 → ℕ → ℕ → Prop) (p : ℕ × Fin 11) (b idx : ℕ)
    (q : ℕ × Fin 11) (x i : ℕ) : Prop := used q x i ∧ ¬ (q = p ∧ x = b ∧ i = idx)

section

variable (h : Placed mem (update zones heap z) pages used)

include h

theorem Placed.allocateIn (hfuel : Enough pages fuel) (hsize : layout.size ≤ classSize c)
    (hsuits : SuitsPage c layout (z.smallSlabs c).emptySlabs.head) :
    (∃ ptr b idx z' mem', z.allocateIn mem fuel c layout = (.ok ptr, z', mem') ∧
      Gives pages used heap c layout.align ptr b idx ∧
      Placed mem' (update zones heap z') pages (withBlock used (heap, c) b idx)) ∨
    ∃ e z' mem', z.allocateIn mem fuel c layout = (.err e, z', mem') ∧
      Placed mem' (update zones heap z') pages used ∧
      (perPage c = 1 → z' = z ∧ mem' = mem ∧ (z.smallSlabs c).emptySlabs.head = none) := by
  obtain ⟨L, h⟩ := h
  have hslab := h.slab_self c
  have hlen : (L (heap, c) .used).length ≤ fuel := hfuel _ (hslab.lists.isList .used).nodup
    fun x hx => (h.pages_iff x).mp ⟨(heap, c), .used, hx⟩
  have hnew : ∀ x, Pages (L (heap, c)) x → ∀ q, Pages (L q) x → q = (heap, c) :=
    fun x hx q hq => h.apart q _ x hq hx
  rw [ZoneAllocator.allocateIn]
  rcases hslab.allocate hlen hsize hsuits with
    ⟨ptr, b, idx, sc', mem', l', hcall, hserved, hr⟩ | ⟨e, sc', mem', l', hcall, hr, hone⟩ <;>
    rw [hcall]
  · refine .inl ⟨ptr, b, idx, _, _, rfl, ⟨(h.pages_iff b).mp ⟨_, hserved.page⟩, hserved.lt, ?_,
      hserved.ptr_eq, hserved.aligned⟩, (h.replace hr hnew).congr (h.pages_split _) ?_⟩
    · intro hused
      have hbit := ((h.used_iff _ b idx).mpr hused).bit
      rw [hserved.clear] at hbit
      cases hbit
    · intro q x i
      rw [withBlock, ← h.used_iff q x i]
      split_ifs with hq
      · rw [hq]
        simp
      · rw [h.used_iff]
        simp [hq]
  · refine .inr ⟨e, _, _, rfl, (h.replace hr hnew).congr (h.pages_split _)
      (h.used_same (heap, c)), fun hc => ?_⟩
    obtain ⟨rfl, rfl, hnone⟩ := hone hc
    exact ⟨by rw [setSlab, update_eq_self], rfl, hnone⟩

/-- **A block in use is given back.** -/
theorem Placed.deallocate (hc : getSlab layout.size = some c) (hused : used (heap, c) b idx) :
    ∃ z' mem', z.deallocate mem (b + idx * classSize c) layout = (.ok (), z', mem') ∧
      Placed mem' (update zones heap z') pages (withoutBlock used (heap, c) b idx) := by
  obtain ⟨L, h⟩ := h
  obtain ⟨sc', mem', l', hcall, hr⟩ :=
    (h.slab_self c).deallocate (le_classSize hc) ((h.used_iff _ b idx).mpr hused)
  rw [ZoneAllocator.deallocate, hc]
  dsimp only
  rw [hcall]
  refine ⟨_, _, rfl, (h.replace hr fun x hx q hq => h.apart q _ x hq hx).congr (h.pages_split _) ?_⟩
  intro q x i
  rw [withoutBlock, ← h.used_iff q x i]
  by_cases hq : q = (heap, c)
  · rw [hq]
    simp
  · rw [if_neg hq]
    simp [hq]

/-- **A new page.** -/
theorem Placed.refill (hc : getSlab layout.size = some c) (hb : ¬ pages b)
    (haligned : b % objectPageSize = 0) :
    ∃ z' mem', z.refill mem layout b = (.ok (), z', mem') ∧
      Placed mem' (update zones heap z') (fun x => x = b ∨ pages x) used ∧
      (z'.smallSlabs c).emptySlabs.head = some b := by
  obtain ⟨L, h⟩ := h
  have hid := h.heapId heap
  rw [Function.update_self] at hid
  obtain ⟨l', hr⟩ := (h.slab_self c).refill (fun hx => hb ((h.pages_iff b).mp ⟨_, hx⟩)) haligned
  rw [ZoneAllocator.refill, hc, hid]
  refine ⟨_, _, rfl, (h.replace hr ?_).congr (fun x => ?_) (h.used_same (heap, c)), ?_⟩
  · rintro x (rfl | hx) q hq
    · exact absurd ((h.pages_iff x).mp ⟨q, hq⟩) hb
    · exact h.apart q _ x hq hx
  · rw [or_assoc, h.pages_split]
  · have hself : ((z.setSlab c ((z.smallSlabs c).refill mem b heap).1).smallSlabs c) =
        ((z.smallSlabs c).refill mem b heap).1 := Function.update_self _ _ _
    rw [hself]
    rfl

/-- **A page that is given back has no block in use.** -/
theorem Placed.retrieveEmptyPage (threshold : ℕ) :
    z.emptyPage threshold = none ∧ z.retrieveEmptyPage mem threshold = (none, z, mem) ∨
      ∃ b z' mem', z.emptyPage threshold = some b ∧
        z.retrieveEmptyPage mem threshold = (some b, z', mem') ∧ pages b ∧
        (∀ q i, ¬ used q b i) ∧
        Placed mem' (update zones heap z') (fun x => pages x ∧ x ≠ b) used := by
  rw [ZoneAllocator.retrieveEmptyPage, ZoneAllocator.emptyPage]
  split_ifs with hle
  · exact .inl ⟨rfl, rfl⟩
  cases hfirst : z.firstWithEmpty with
  | none => exact .inl ⟨rfl, rfl⟩
  | some c => ?_
  obtain ⟨L, h⟩ := h
  dsimp only [Option.bind_some]
  rcases (h.slab_self c).retrieveEmptyPage with
    ⟨hhead, hcall⟩ | ⟨b, sc', mem', l', hhead, hcall, hpage, hfree, hr⟩
  · rw [hcall]
    refine .inl ⟨hhead, ?_⟩
    rw [setSlab, update_eq_self]
  rw [hcall]
  refine .inr ⟨b, _, _, hhead, rfl, (h.pages_iff b).mp ⟨_, hpage⟩, fun q i hused => ?_,
    (h.replace hr ?_).congr (fun x => ?_) (h.used_same (heap, c))⟩
  · have hon := (h.used_iff q b i).mpr hused
    obtain rfl := h.apart q _ b hon.page hpage
    exact hfree i hon
  · intro x hx q hq
    exact h.apart q _ x hq hx.1
  · rw [← h.pages_split (heap, c)]
    constructor
    · rintro (⟨hx, hne⟩ | ⟨q, hq, hx⟩)
      · exact ⟨.inl hx, hne⟩
      · exact ⟨.inr ⟨q, hq, hx⟩, fun he => hq (h.apart q _ b (he ▸ hx) hpage)⟩
    · rintro ⟨hx | hx, hne⟩
      · exact .inl ⟨hx, hne⟩
      · exact .inr hx

end

/-- A page is taken and put back. -/
theorem put_back (pages : ℕ → Prop) (hb : pages b) (x : ℕ) : (x = b ∨ pages x ∧ x ≠ b) ↔ pages x := by
  constructor
  · rintro (rfl | ⟨hx, -⟩)
    · exact hb
    · exact hx
  · intro hx
    by_cases heq : x = b
    · exact .inl heq
    · exact .inr ⟨hx, heq⟩

/-- **A request is served with a block that was not in use, or the blocks in use stay the same.** Where
there is room for a single block in a page, the empty page that is taken must be aligned as the layout
asks; then only a zone without empty pages fails. -/
theorem Placed.allocate (h : Placed mem (update zones heap z) pages used)
    (hfuel : Enough pages fuel) (hc : getSlab layout.size = some c)
    (hsuits : SuitsPage c layout (z.nextEmpty c)) :
    (∃ ptr b idx z' mem', z.allocate mem fuel layout = (.ok ptr, z', mem') ∧
      Gives pages used heap c layout.align ptr b idx ∧
      Placed mem' (update zones heap z') pages (withBlock used (heap, c) b idx)) ∨
    ∃ e z' mem', z.allocate mem fuel layout = (.err e, z', mem') ∧
      Placed mem' (update zones heap z') pages used ∧
      (perPage c = 1 → z' = z ∧ mem' = mem ∧ z.nextEmpty c = none) := by
  rw [ZoneAllocator.allocate, hc]
  have hsize := le_classSize hc
  have hown : SuitsPage c layout (z.smallSlabs c).emptySlabs.head := by
    intro hone page hhead
    refine hsuits hone page ?_
    rw [nextEmpty, hhead]
  dsimp only
  rcases h.allocateIn hfuel hsize hown with
    ⟨ptr, b, idx, z', mem', hcall, hgives, hplaced⟩ | ⟨e, z₁, mem₁, hcall, hplaced, hsame⟩
  · rw [hcall]
    exact .inl ⟨ptr, b, idx, z', mem', rfl, hgives, hplaced⟩
  rw [hcall]
  dsimp only
  rw [exchangePagesWithinHeap]
  rcases hplaced.retrieveEmptyPage 0 with
    ⟨hnone, hretrieve⟩ | ⟨b, z₂, mem₂, hsome, hretrieve, hb, -, hplaced₂⟩
  · rw [hretrieve]
    refine .inr ⟨_, z₁, mem₁, rfl, hplaced, fun hone => ?_⟩
    obtain ⟨rfl, rfl, hhead⟩ := hsame hone
    refine ⟨rfl, rfl, ?_⟩
    rw [nextEmpty, hhead]
    exact hnone
  rw [hretrieve]
  dsimp only
  obtain ⟨z₃, mem₃, hrefill, hplaced₃, hhead₃⟩ :=
    hplaced₂.refill hc (fun hx => hx.2 rfl) (hplaced.aligned hb)
  rw [hrefill]
  dsimp only
  have hplaced₃ := hplaced₃.congr (put_back pages hb) fun _ _ _ => Iff.rfl
  have hown₃ : SuitsPage c layout (z₃.smallSlabs c).emptySlabs.head := by
    intro hone page hpage
    obtain ⟨rfl, rfl, hnone⟩ := hsame hone
    rw [hhead₃] at hpage
    refine hsuits hone page ?_
    rw [nextEmpty, hnone]
    exact hsome.trans hpage
  rcases hplaced₃.allocateIn hfuel hsize hown₃ with
    ⟨ptr, b, idx, z', mem', hcall, hgives, hplaced'⟩ | ⟨e, z', mem', hcall, hplaced', hsame'⟩ <;>
    rw [hcall]
  · exact .inl ⟨ptr, b, idx, z', mem', rfl, hgives, hplaced'⟩
  · refine .inr ⟨e, z', mem', rfl, hplaced', fun hone => ?_⟩
    rw [(hsame' hone).2.2] at hhead₃
    cases hhead₃

end Zones

end Maios.Slab
