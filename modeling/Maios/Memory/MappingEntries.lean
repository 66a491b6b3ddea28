import Maios.Memory.FrameOwnership
import Maios.Memory.UpperEntries

/-!
# What mapping and unmapping do to the entries of pages

The page table is a tree, but a client sees it as a function from pages to entries. This module
says what each loop of the mapper does to that function, and to the owners of frames next to it.

A mapping loop writes the entries of some of its pages, from the first one on: all of them if it
succeeds, and the ones it got to if it does not. Nothing takes these back. The loops over the pages
of a mapping never fail as long as all of these pages are in use.

## Main results

* `mapFrames_spec`, `mapFresh_spec` — the entries after a mapping loop, and the owners of frames
* `unmap_conserves_frames` — each frame mapped exclusively is returned or freed, once
-/

namespace Maios.Paging

open List P4 Table ChunkRange

open FrameAllocator (Frames)

theorem P4.entryAt_default : entryAt default = fun _ => .zero := entryBy_default _

theorem P4.entry_default (page : ℕ) : entry default page = .zero := by
  rw [entry, entryAt_default]

variable {pages : List ℕ} {flags flags' : PteFlags} {o : Outcome String Unit}
  {supply supply' : FrameSupply} {pairs : List (ℕ × ℕ)} {v : PageTableEntry} {page frame q : ℕ}
  {inUse : String} (reserved : Finset ℕ)

section

variable {p4 p4' : P4} (h : P4.entryAt p4' = Function.update (P4.entryAt p4) (path page) v)

include h

theorem P4.entry_update_self (hq : path q = path page) : entry p4' q = v := by
  rw [entry, h, hq, Function.update_self]

theorem P4.entry_update_of_ne (hq : path q ≠ path page) : entry p4' q = entry p4 q := by
  rw [entry, h, Function.update_of_ne hq, entry]

end

/-! ### One page -/

theorem mapPage_writes (p4 : P4) (page frame : ℕ) (higherLevelFlags flags : PteFlags)
    (inUse : String) (supply : FrameSupply) :
    Writes (mapPage p4 page frame higherLevelFlags flags inUse supply).1 (entryAt p4)
      (entryAt (mapPage p4 page frame higherLevelFlags flags inUse supply).2.1) (path page)
      (.setEntry frame flags) := by
  refine nextTableCreate_writes p4 _ _ _ _ (entryBy_default _) fun p3 s => ?_
  refine nextTableCreate_writes p3 _ _ _ _ (entryBy_default _) fun p2 s => ?_
  refine nextTableCreate_writes p2 _ _ _ _ rfl fun p1 s => ?_
  cases hused : (p1 (p1Index page)).isUnused <;> rfl

theorem mapPage_free (p4 : P4) (page frame : ℕ) (higherLevelFlags flags : PteFlags)
    (inUse : String) (supply : FrameSupply) :
    (mapPage p4 page frame higherLevelFlags flags inUse supply).2.2.free ⊆ supply.free := by
  refine nextTableCreate_free p4 _ _ _ _ fun p3 s => ?_
  refine nextTableCreate_free p3 _ _ _ _ fun p2 s => ?_
  refine nextTableCreate_free p2 _ _ _ _ fun p1 s => ?_
  cases hused : (p1 (p1Index page)).isUnused <;> exact Finset.Subset.refl _

/-- A page is mapped only if its entry is unused. -/
theorem mapPage_unused {p4 : P4} {higherLevelFlags : PteFlags} {u : Unit}
    (h : (mapPage p4 page frame higherLevelFlags flags inUse supply).1 = .ok u) :
    (entry p4 page).isUnused = true := by
  refine nextTableCreate_ok (·.isUnused = true) rfl (fun p3 s h3 => ?_) h
  refine nextTableCreate_ok (·.isUnused = true) rfl (fun p2 s h2 => ?_) h3
  refine nextTableCreate_ok (·.isUnused = true) rfl (fun p1 s h1 => ?_) h2
  cases hused : (p1 (p1Index page)).isUnused with
  | true => rfl
  | false =>
    rw [hused] at h1
    cases h1

/-- The way to an entry in use is complete. -/
theorem withP1_entryAt {β : Type} {p4 : P4} (hused : (entry p4 page).isUnused = false)
    {k : P1 → β × P1} {g : PageTableEntry → β} {v : PageTableEntry → PageTableEntry}
    (hk : ∀ p1, (p1 (p1Index page)).isUnused = false → k p1 =
      (g (p1 (p1Index page)), Function.update p1 (p1Index page) (v (p1 (p1Index page))))) :
    ∃ p4', withP1 p4 page k = some (g (entry p4 page), p4') ∧
      entryAt p4' = Function.update (entryAt p4) (path page) (v (entry p4 page)) := by
  refine nextTableMut_of_used (fun p3 h3 => ?_) hused
  refine nextTableMut_of_used (fun p2 h2 => ?_) h3
  refine nextTableMut_of_used (fun p1 h1 => ?_) h2
  exact ⟨_, congrArg some (hk p1 h1), rfl⟩

/-! ### Mapping -/

/-- The entries of unused pages are written, and no others. -/
structure MappedAt (flags : PteFlags) (pairs : List (ℕ × ℕ)) (p4 p4' : P4) : Prop where
  unused : ∀ x ∈ pairs, (P4.entry p4 x.1).isUnused = true
  on : ∀ x ∈ pairs, P4.entry p4' x.1 = .setEntry x.2 flags
  off : ∀ q, (∀ x ∈ pairs, path q ≠ path x.1) → P4.entry p4' q = P4.entry p4 q
  apart : pairs.Pairwise fun x y => path x.1 ≠ path y.1

theorem MappedAt.nil (flags : PteFlags) {p4 p4' : P4} (h : entryAt p4' = entryAt p4) :
    MappedAt flags [] p4 p4' :=
  ⟨forall_mem_nil _, forall_mem_nil _,
    fun q _ => by rw [entry, h, entry], Pairwise.nil⟩

theorem PageTableEntry.isUnused_setEntry (frame : ℕ) (h : flags.isValid = true) :
    (setEntry frame flags).isUnused = false := by
  refine isUnused_of_isValid ?_
  rw [PteFlags.isValid, contains_setEntry _ _ (by decide)]
  exact h

/-- A page is mapped, and then others: the entry of the first is in use by then, so it is not among
them. -/
theorem MappedAt.cons {p4 p4₁ p4' : P4} (hvalid : flags.isValid = true)
    (hunused : (entry p4 page).isUnused = true)
    (hfirst : entryAt p4₁ = Function.update (entryAt p4) (path page) (.setEntry frame flags))
    (h : MappedAt flags pairs p4₁ p4') : MappedAt flags ((page, frame) :: pairs) p4 p4' := by
  have hne : ∀ x ∈ pairs, path x.1 ≠ path page := by
    intro x hx heq
    have hused := h.unused x hx
    rw [entry_update_self hfirst heq, PageTableEntry.isUnused_setEntry frame hvalid] at hused
    cases hused
  refine ⟨fun x hx => ?_, fun x hx => ?_, fun q hq => ?_, ?_⟩
  · rcases mem_cons.mp hx with rfl | hx
    · exact hunused
    · rw [← entry_update_of_ne hfirst (hne x hx)]
      exact h.unused x hx
  · rcases mem_cons.mp hx with rfl | hx
    · rw [h.off page fun x hx => (hne x hx).symm, entry_update_self hfirst rfl]
    · exact h.on x hx
  · rw [h.off q (forall_mem_cons.mp hq).2]
    exact entry_update_of_ne hfirst (hq (page, frame) mem_cons_self)
  · exact pairwise_cons.mpr ⟨fun x hx => (hne x hx).symm, h.apart⟩

/-- The pages of `done` have been mapped to the frames next to them, and no other page has been
touched. -/
structure Mapped (flags : PteFlags) (done : List (ℕ × ℕ)) (e e' : ℕ → PageTableEntry) : Prop where
  on : ∀ p f, (p, f) ∈ done → e' p = .setEntry f flags
  off : ∀ q, IsPage q → q ∉ done.map Prod.fst → e' q = e q

/-- Pages that are different have different entries. -/
theorem MappedAt.mapped {done : List (ℕ × ℕ)} {p4 p4' : P4} (h : MappedAt flags done p4 p4')
    (hpages : ∀ x ∈ done, IsPage x.1) : Mapped flags done (entry p4) (entry p4') := by
  refine ⟨fun p f hmem => h.on (p, f) hmem, fun q hq hnot => h.off q fun x hx heq => hnot ?_⟩
  exact mem_map.mpr ⟨x, hx, (path_injective hq (hpages x hx) heq).symm⟩

/-- What a call of `mapPage` does to the entries, by its outcome. -/
theorem mapPage_cases {higherLevelFlags : PteFlags} {p4 p4' : P4}
    (h : mapPage p4 page frame higherLevelFlags flags inUse supply = (o, p4', supply')) :
    supply'.free ⊆ supply.free ∧
      (o = .ok () ∧ (entry p4 page).isUnused = true ∧
          entryAt p4' = Function.update (entryAt p4) (path page) (.setEntry frame flags) ∨
        o ≠ .ok () ∧ entryAt p4' = entryAt p4) := by
  have hwrites := mapPage_writes p4 page frame higherLevelFlags flags inUse supply
  have hfree := mapPage_free p4 page frame higherLevelFlags flags inUse supply
  rw [h] at hwrites hfree
  refine ⟨hfree, ?_⟩
  cases o with
  | ok u => exact .inl ⟨rfl, mapPage_unused (congrArg Prod.fst h), hwrites⟩
  | err m | panic => exact .inr ⟨nofun, hwrites⟩

section Loops

open MappedAt

variable {higherLevelFlags : PteFlags} {p4 p4' : P4} (hvalid : flags.isValid = true)

/-- One round of the loop of `internal_map_to`: the page is mapped and the loop goes on, or the loop
ends there. -/
theorem mapFrames_cons (higherLevelFlags flags : PteFlags) (p4 : P4) (page frame : ℕ)
    (supply : FrameSupply) :
    ∃ o p4₁ supply₁, supply₁.free ⊆ supply.free ∧
      (o = .ok () ∧ (entry p4 page).isUnused = true ∧
          entryAt p4₁ = Function.update (entryAt p4) (path page) (.setEntry frame flags) ∧
          (∀ l, mapFrames higherLevelFlags flags ((page, frame) :: l) p4 supply =
            mapFrames higherLevelFlags flags l p4₁ supply₁) ∨
        o ≠ .ok () ∧ entryAt p4₁ = entryAt p4 ∧
          ∀ l, mapFrames higherLevelFlags flags ((page, frame) :: l) p4 supply =
            (o, p4₁, supply₁)) := by
  rcases hmap : mapPage p4 page frame higherLevelFlags flags
    "map_allocated_pages_to(): page was already in use" supply with ⟨o, p4₁, supply₁⟩
  obtain ⟨hfree, ⟨rfl, hunused, hentry⟩ | ⟨hfail, hentry⟩⟩ := mapPage_cases hmap
  · exact ⟨_, p4₁, supply₁, hfree, .inl ⟨rfl, hunused, hentry, fun l => by rw [mapFrames, hmap]⟩⟩
  · refine ⟨o, p4₁, supply₁, hfree, .inr ⟨hfail, hentry, fun l => ?_⟩⟩
    rw [mapFrames, hmap]
    cases o with
    | ok u => exact absurd rfl hfail
    | err m | panic => rfl

include hvalid in
/-- **The loop of `internal_map_to`.** It gets through some of the pairs; the first page is mapped
if and only if the loop over it alone succeeds. -/
theorem mapFrames_spec
    (h : mapFrames higherLevelFlags flags pairs p4 supply = (o, p4', supply')) :
    ∃ done rest, pairs = done ++ rest ∧ (o = .ok () ↔ rest = []) ∧
      ((mapFrames higherLevelFlags flags (pairs.take 1) p4 supply).1 = .ok () ↔
        (done = [] → pairs = [])) ∧
      MappedAt flags done p4 p4' ∧ supply'.free ⊆ supply.free := by
  induction pairs generalizing p4 supply with
  | nil =>
    cases h
    exact ⟨[], [], rfl, iff_of_true rfl rfl, ⟨fun _ _ => rfl, fun _ => rfl⟩,
      nil flags rfl, Finset.Subset.refl _⟩
  | cons x pairs ih =>
    obtain ⟨page, frame⟩ := x
    obtain ⟨o₁, p4₁, supply₁, hfree, ⟨-, hunused, hentry, hnext⟩ | ⟨hfail, hentry, hstop⟩⟩ :=
      mapFrames_cons higherLevelFlags flags p4 page frame supply
    · rw [hnext] at h
      obtain ⟨done, rest, hsplit, hok, -, hmapped, hfree'⟩ := ih h
      rw [take_succ_cons, hnext]
      exact ⟨(page, frame) :: done, rest, by rw [hsplit, cons_append], hok,
        ⟨fun _ h => absurd h (cons_ne_nil _ _), fun _ => rfl⟩,
        hmapped.cons hvalid hunused hentry, hfree'.trans hfree⟩
    · rw [hstop] at h
      cases h
      rw [take_succ_cons, hstop]
      exact ⟨[], (page, frame) :: pairs, rfl, iff_of_false hfail (cons_ne_nil _ _),
        iff_of_false hfail fun h => absurd (h rfl) (cons_ne_nil _ _), nil flags hentry, hfree⟩

/-! ### Mapping to fresh frames -/

theorem cover_toFinset (r : ChunkRange) (n : ℕ) : cover [r.toFinset] n = cover [r] n := by
  rw [cover_singleton, cover_singleton]
  exact if_congr mem_toFinset rfl rfl

/-- One round of the loop of `map_allocated_pages`: a frame comes out of the allocator and the page
is mapped to it, or the loop ends there. -/
theorem mapFresh_cons (higherLevelFlags flags : PteFlags) (p4 : P4) (page : ℕ)
    (supply : FrameSupply) :
    ∃ o p4₁ supply₁, (o = .ok () ∧ (entry p4 page).isUnused = true ∧ (∃ af,
          entryAt p4₁ = Function.update (entryAt p4) (path page) (.setEntry af flags) ∧
          ∀ f, cover [supply₁.free] f + [af].count f ≤ cover [supply.free] f) ∧
          (∀ l, mapFresh higherLevelFlags flags (page :: l) p4 supply =
            mapFresh higherLevelFlags flags l p4₁ supply₁) ∨
        o ≠ .ok () ∧ entryAt p4₁ = entryAt p4 ∧ supply₁.free ⊆ supply.free ∧
          ∀ l, mapFresh higherLevelFlags flags (page :: l) p4 supply = (o, p4₁, supply₁)) := by
  rcases halloc : supply.allocateFrame with ⟨_ | af, supply₀⟩
  · refine ⟨.err "map_allocated_pages(): couldn't allocate new frame, out of memory", p4, supply₀,
      .inr ⟨nofun, rfl, (FrameSupply.allocateFrame_none halloc).subset, fun l => ?_⟩⟩
    rw [mapFresh, halloc]
  obtain ⟨haf, hsupply₀⟩ := FrameSupply.allocateFrame_some halloc
  rcases hmap : mapPage p4 page af higherLevelFlags flags
    "map_allocated_pages(): page was already in use" supply₀ with ⟨o, p4₁, supply₁⟩
  obtain ⟨hfree, ⟨rfl, hunused, hentry⟩ | ⟨hfail, hentry⟩⟩ := mapPage_cases hmap
  · refine ⟨_, p4₁, supply₁, .inl ⟨rfl, hunused, ⟨af, hentry, fun f => ?_⟩, fun l => ?_⟩⟩
    · have htaken := cover_erase_add haf f
      have hle := cover_le_of_subset hfree f
      rw [hsupply₀] at hle
      omega
    · rw [mapFresh, halloc]
      dsimp only
      rw [hmap]
  · refine ⟨o, p4₁, supply₁.dropFrame af, .inr ⟨hfail, hentry, ?_, fun l => ?_⟩⟩
    · refine Finset.insert_subset haf (hfree.trans ?_)
      rw [hsupply₀]
      exact Finset.erase_subset af supply.free
    · rw [mapFresh, halloc]
      dsimp only
      rw [hmap]
      cases o with
      | ok u => exact absurd rfl hfail
      | err m | panic => rfl

include hvalid in
/-- **The loop of `map_allocated_pages`.** The frames of the pages it gets through come out of the
allocator, and stay out of it. -/
theorem mapFresh_spec (h : mapFresh higherLevelFlags flags pages p4 supply = (o, p4', supply')) :
    ∃ (done : List (ℕ × ℕ)) (rest : List ℕ), pages = done.map Prod.fst ++ rest ∧
      (o = .ok () ↔ rest = []) ∧
      ((mapFresh higherLevelFlags flags (pages.take 1) p4 supply).1 = .ok () ↔
        (done = [] → pages = [])) ∧
      MappedAt flags done p4 p4' ∧
      ∀ f, cover [supply'.free] f + (done.map Prod.snd).count f ≤ cover [supply.free] f := by
  induction pages generalizing p4 supply with
  | nil =>
    cases h
    exact ⟨[], [], rfl, iff_of_true rfl rfl, ⟨fun _ _ => rfl, fun _ => rfl⟩,
      nil flags rfl, fun _ => Nat.le_refl _⟩
  | cons page pages ih =>
    obtain ⟨o₁, p4₁, supply₁, ⟨-, hunused, ⟨af, hentry, hle⟩, hnext⟩ |
      ⟨hfail, hentry, hfree, hstop⟩⟩ := mapFresh_cons higherLevelFlags flags p4 page supply
    · rw [hnext] at h
      obtain ⟨done, rest, hsplit, hok, -, hmapped, hcount⟩ := ih h
      rw [take_succ_cons, hnext]
      refine ⟨(page, af) :: done, rest, by rw [hsplit, map_cons, cons_append], hok,
        ⟨fun _ h => absurd h (cons_ne_nil _ _), fun _ => rfl⟩,
        hmapped.cons hvalid hunused hentry, fun f => ?_⟩
      have hfirst := hle f
      have hrest := hcount f
      rw [count_singleton] at hfirst
      rw [map_cons, count_cons]
      dsimp only
      omega
    · rw [hstop] at h
      cases h
      rw [take_succ_cons, hstop]
      exact ⟨[], page :: pages, rfl, iff_of_false hfail (cons_ne_nil _ _),
        iff_of_false hfail fun h => absurd (h rfl) (cons_ne_nil _ _), nil flags hentry,
        cover_le_of_subset hfree⟩

end Loops

/-! ### Loops over the pages of a mapping -/

/-- Entries in use, each at a place of its own. -/
structure InUse (p4 : P4) (pages : List ℕ) : Prop where
  used : ∀ n ∈ pages, (P4.entry p4 n).isUnused = false
  apart : pages.Pairwise fun n m => path n ≠ path m

/-- The rest of the entries stays in use when the first has been written. -/
theorem InUse.tail {p4 p4₁ : P4} (h : InUse p4 (page :: pages))
    (hfirst : entryAt p4₁ = Function.update (entryAt p4) (path page) v) :
    InUse p4₁ pages := by
  obtain ⟨hhead, htail⟩ := pairwise_cons.mp h.apart
  refine ⟨fun n hn => ?_, htail⟩
  rw [entry_update_of_ne hfirst (hhead n hn).symm]
  exact h.used n (mem_cons_of_mem _ hn)

/-- What a loop does that writes the entries one by one. -/
theorem InUse.entry_eq {p4 p4₁ p4' : P4} (h : InUse p4 (page :: pages))
    (v : PageTableEntry → PageTableEntry)
    (hfirst : entryAt p4₁ = Function.update (entryAt p4) (path page) (v (entry p4 page)))
    (hrest : ∀ q, entry p4' q =
      if path q ∈ pages.map path then v (entry p4₁ q) else entry p4₁ q) (q : ℕ) :
    entry p4' q =
      if path q ∈ (page :: pages).map path then v (entry p4 q) else entry p4 q := by
  obtain ⟨hhead, -⟩ := pairwise_cons.mp h.apart
  rw [hrest q, map_cons]
  by_cases hq : path q = path page
  · have hnot : path q ∉ pages.map path := by
      rw [hq]
      intro hmem
      obtain ⟨n, hn, heq⟩ := mem_map.mp hmem
      exact hhead n hn heq.symm
    have hsame : entry p4 q = entry p4 page := by rw [entry, hq, entry]
    rw [if_neg hnot, entry_update_self hfirst hq,
      if_pos (by rw [hq]; exact mem_cons_self), hsame]
  · rw [entry_update_of_ne hfirst hq]
    simp only [mem_cons, hq, false_or]

/-- **The loop of `remap`.** It never fails on pages in use, and rewrites the flags of each. -/
theorem remapLoop_spec (flags : PteFlags) {p4 : P4} (h : InUse p4 pages) :
    ∃ p4', MappedPages.remapLoop flags pages p4 = (.ok (), p4') ∧
      ∀ q, entry p4' q = if path q ∈ pages.map path then (entry p4 q).setFlags flags
        else entry p4 q := by
  induction pages generalizing p4 with
  | nil => exact ⟨p4, rfl, fun q => by rw [map_nil, if_neg not_mem_nil]⟩
  | cons page pages ih =>
    obtain ⟨p4₁, hwith, hentry⟩ := withP1_entryAt (h.used page mem_cons_self)
      (k := fun p1 => ((), Function.update p1 (p1Index page)
        ((p1 (p1Index page)).setFlags flags))) (g := fun _ => ())
      (v := fun e => e.setFlags flags) (fun _ _ => rfl)
    obtain ⟨p4', hloop, hrest⟩ := ih (h.tail hentry)
    refine ⟨p4', ?_, fun q => h.entry_eq (·.setFlags flags) hentry hrest q⟩
    rw [MappedPages.remapLoop, hwith]
    exact hloop

namespace Collected

/-- The owners that a call of `unmap` has put in place of entries so far. -/
def owners (c : Collected) (f : ℕ) : ℕ :=
  cover [c.free] f + cover c.firstFrameRange.toList f + cover c.currentFrameRange.toList f

theorem cover_dropped (frames : Option Frames) (f : ℕ) :
    cover [dropped frames] f = cover frames.toList f := by
  cases frames with
  | none => rfl
  | some frames =>
    exact (cover_toFinset frames.range f).trans (FrameAllocator.cover_frames frames f).symm

/-- Taking over a frame adds an owner of that frame at most. -/
theorem owners_push_le (c : Collected) (newly : Frames) (f : ℕ) :
    (c.push newly).owners f ≤ c.owners f + cover [newly] f := by
  obtain ⟨first, current, free⟩ := c
  cases current with
  | none => exact le_of_eq rfl
  | some curr => ?_
  simp only [push]
  cases hmerge : curr.merge .page4K newly with
  | some merged =>
    have hle := FrameAllocator.Frames.cover_merge_le hmerge f
    simp only [owners, Option.toList_some]
    omega
  | none => ?_
  cases first with
  | none =>
    simp only [owners, Option.toList_some]
    omega
  | some first =>
    have hle := cover_union_le free curr.range.toFinset f
    rw [cover_toFinset, ← FrameAllocator.cover_frames] at hle
    simp only [owners, Option.toList_some]
    omega

theorem owners_finish_le (c : Collected) (f : ℕ) :
    cover c.finish.1.toList f + cover [c.finish.2] f ≤ c.owners f := by
  obtain ⟨first, current, free⟩ := c
  cases first with
  | none =>
    simp only [finish, owners]
    omega
  | some first =>
    have hle := cover_union_le free (dropped current) f
    rw [cover_dropped] at hle
    simp only [finish, owners]
    omega

theorem owners_foldl_push_le (frames : List Frames) (c : Collected) (f : ℕ) :
    (frames.foldl push c).owners f ≤ c.owners f + cover frames f := by
  induction frames generalizing c with
  | nil => exact le_rfl
  | cons newly frames ih =>
    have hrest := ih (c.push newly)
    have hpush := c.owners_push_le newly f
    rw [foldl_cons, cover_cons_eq_add]
    omega

end Collected

/-- The frames of the pages that are mapped exclusively, in the order of the pages. -/
def exclusiveFrames (p4 : P4) (pages : List ℕ) : List ℕ :=
  (pages.filter fun p => (P4.entry p4 p).flags.isExclusive).map fun p => (P4.entry p4 p).frameValue

/-- A single frame as `unmap` takes it over. -/
def unmappedFrame (reserved : Finset ℕ) (frame : ℕ) : Frames :=
  intoUnmappedFrames reserved ⟨frame, frame⟩

theorem cover_map_unmappedFrame (frames : List ℕ) (f : ℕ) :
    cover (frames.map (unmappedFrame reserved)) f = frames.count f := by
  induction frames with
  | nil => rfl
  | cons frame frames ih =>
    rw [map_cons, cover_cons_eq_add, ih, count_cons, FrameAllocator.cover_frames, cover_singleton,
      Nat.add_comm]
    refine congrArg (_ + ·) (if_congr ?_ rfl rfl)
    rw [unmappedFrame, intoUnmappedFrames, mem_iff, beq_iff_eq]
    dsimp only
    omega

theorem unmapPage_of_used {p4 : P4} (hused : (entry p4 page).isUnused = false) :
    ∃ p4₁, unmapPage p4 page = some (some (entry p4 page).setUnmapped.1, p4₁) ∧
      entryAt p4₁ = Function.update (entryAt p4) (path page) .zero :=
  withP1_entryAt hused (g := fun e => some e.setUnmapped.1) (v := fun _ => .zero)
    fun p1 h1 => if_neg (by rw [h1]; exact Bool.false_ne_true)

/-- **The loop of `unmap`.** On pages in use it never fails; it clears their entries, and takes
over the frames of those that were mapped exclusively. -/
theorem unmapLoop_eq {p4 : P4} (h : InUse p4 pages) (c : Collected) :
    ∃ p4' d, unmapLoop reserved pages p4 c = (.ok (Collected.finish d).1, p4', d.finish.2) ∧
      d = ((exclusiveFrames p4 pages).map (unmappedFrame reserved)).foldl Collected.push c ∧
      ∀ q, entry p4' q = if path q ∈ pages.map path then .zero else entry p4 q := by
  induction pages generalizing p4 c with
  | nil => exact ⟨p4, c, rfl, rfl, fun q => by rw [map_nil, if_neg not_mem_nil]⟩
  | cons page pages ih =>
    obtain ⟨p4₁, hunmap, hentry⟩ := unmapPage_of_used (h.used page mem_cons_self)
    have hsame : ∀ p ∈ pages, entry p4₁ p = entry p4 p := fun p hp =>
      entry_update_of_ne hentry ((pairwise_cons.mp h.apart).1 p hp).symm
    have hframes : exclusiveFrames p4₁ pages = exclusiveFrames p4 pages := by
      rw [exclusiveFrames, filter_congr fun p hp => by rw [hsame p hp]]
      exact map_congr_left fun p hp => by rw [hsame p (mem_of_mem_filter hp)]
    -- only an exclusive frame is taken over
    obtain ⟨c', hnext, hpushed⟩ : ∃ c', unmapLoop reserved (page :: pages) p4 c =
        unmapLoop reserved pages p4₁ c' ∧
        ((exclusiveFrames p4 (page :: pages)).map (unmappedFrame reserved)).foldl Collected.push c =
          ((exclusiveFrames p4 pages).map (unmappedFrame reserved)).foldl Collected.push c' := by
      rw [unmapLoop, hunmap, PageTableEntry.setUnmapped, exclusiveFrames, filter_cons]
      cases (entry p4 page).flags.isExclusive <;> exact ⟨_, rfl, rfl⟩
    obtain ⟨p4', d, hloop, hd, hrest⟩ := ih (h.tail hentry) c'
    rw [hnext, hpushed, ← hframes]
    exact ⟨p4', d, hloop, hd, fun q => h.entry_eq (fun _ => .zero) hentry hrest q⟩

/-- **The loop of `unmap`.** On pages in use, mapped exclusively or not, it never fails; it clears
their entries, and each frame gets at most one owner in their place. -/
theorem unmapLoop_spec {p4 : P4} (h : InUse p4 pages) (c : Collected) :
    ∃ res p4' free', unmapLoop reserved pages p4 c = (.ok res, p4', free') ∧
      (∀ q, entry p4' q = if path q ∈ pages.map path then .zero else entry p4 q) ∧
      ∀ f, cover res.toList f + cover [free'] f ≤
        c.owners f + (pages.map fun p => (entry p4 p).frameValue).count f := by
  obtain ⟨p4', d, hloop, rfl, hentry⟩ := unmapLoop_eq reserved h c
  refine ⟨_, p4', _, hloop, hentry, fun f => ?_⟩
  have hfinish := Collected.owners_finish_le (((exclusiveFrames p4 pages).map
    (unmappedFrame reserved)).foldl Collected.push c) f
  have hpush := Collected.owners_foldl_push_le ((exclusiveFrames p4 pages).map
    (unmappedFrame reserved)) c f
  have hcount : (exclusiveFrames p4 pages).count f ≤ _ := (filter_sublist.map _).count_le f
  rw [cover_map_unmappedFrame] at hpush
  omega

section Upper

variable {ok : PageTableEntry → Prop} (hok : ∀ e : PageTableEntry, e.flags.isHuge = false → ok e)
  {p4 p4' : P4} (h : P4.Upper ok p4)

include h

include hok in
theorem mapFrames_upper
    (hr : mapFrames flags.adjustForHigherLevelPte flags' pairs p4 supply = (o, p4', supply')) :
    P4.Upper ok p4' := by
  fun_induction mapFrames with
  | case1 => cases hr; exact h
  | case2 page frame rest p4 supply u p4₁ supply₁ hmap ih => exact ih (mapPage_upper hok h hmap) hr
  | case3 page frame rest p4 supply => exact mapPage_upper hok h hr

include hok in
theorem mapFresh_upper
    (hr : mapFresh flags.adjustForHigherLevelPte flags' pages p4 supply = (o, p4', supply')) :
    P4.Upper ok p4' := by
  fun_induction mapFresh with
  | case1 => cases hr; exact h
  | case2 => cases hr; exact h
  | case3 page rest p4 supply af supply₀ halloc u p4₁ supply₁ hmap ih =>
    exact ih (mapPage_upper hok h hmap) hr
  | case4 page rest p4 supply af supply₀ halloc failed p4₁ supply₁ _ hmap =>
    cases hr
    exact mapPage_upper hok h hmap

theorem unmapLoop_upper {reserved : Finset ℕ} {c : Collected} {res : Outcome String (Option Frames)}
    {free' : Finset ℕ} (hr : unmapLoop reserved pages p4 c = (res, p4', free')) :
    P4.Upper ok p4' := by
  fun_induction unmapLoop with
  | case1 => cases hr; exact h
  | case2 => cases hr; exact h
  | case3 page rest p4 c p4₁ hunmap => cases hr; exact withP1_upper h hunmap
  | case4 page rest p4 c frames p4₁ hunmap ih | case5 page rest p4 c frames p4₁ hunmap ih =>
    exact ih (withP1_upper h hunmap) hr

theorem remapLoop_upper {res : Outcome String Unit}
    (hr : MappedPages.remapLoop flags pages p4 = (res, p4')) : P4.Upper ok p4' := by
  fun_induction MappedPages.remapLoop with
  | case1 => cases hr; exact h
  | case2 => cases hr; exact h
  | case3 page rest p4 _ _ p4₁ hwith ih => exact ih (withP1_upper h hwith) hr

end Upper

/-! ### What becomes of the frames -/

/-- There is no difference between a mapping without pages and a loop over none. -/
theorem MappedPages.unmap_eq (mp : MappedPages) (p4 : P4) (targetP4 : ℕ)
    (reserved free : Finset ℕ) :
    mp.unmap p4 targetP4 reserved free =
        unmapLoop reserved mp.pages.toList p4 ⟨none, none, free⟩ ∨
      targetP4 ≠ mp.pageTableP4 ∧ ∃ e, mp.unmap p4 targetP4 reserved free = (.err e, p4, free) := by
  rw [MappedPages.unmap]
  split_ifs with hempty htarget
  · have hnil : mp.pages.toList = [] := by
      rw [toList, Nat.sub_eq_zero_of_le (sizeInChunks_eq_zero_iff.mp hempty)]
      rfl
    rw [hnil]
    exact .inl rfl
  · exact .inr ⟨htarget, _, rfl⟩
  · exact .inl rfl

/-- A page whose frame is given up was in use. -/
theorem used_of_unmapPage {p4 p4₁ : P4} {r : UnmapResult}
    (h : unmapPage p4 page = some (some r, p4₁)) : (entry p4 page).isUnused = false := by
  obtain ⟨p3, _, h3, h, -⟩ := nextTableMut_eq_some h
  obtain ⟨p2, _, h2, h, -⟩ := nextTableMut_eq_some h
  obtain ⟨p1, _, h1, h, -⟩ := nextTableMut_eq_some h
  have hentry : entry p4 page = p1 (p1Index page) := by
    simp only [entry, entryAt, path, entryBy, h3, h2, h1]
  rw [hentry]
  simp only [Option.some.injEq] at h
  split_ifs at h with hunused
  · cases h
  · exact eq_false_of_ne_true hunused

/-- The loop gets to its end only on pages in use. -/
theorem inUse_of_unmapLoop {reserved : Finset ℕ} {p4 p4' : P4} {c : Collected}
    {res : Option Frames} {free' : Finset ℕ}
    (h : unmapLoop reserved pages p4 c = (.ok res, p4', free')) : InUse p4 pages := by
  induction pages generalizing p4 c with
  | nil => exact ⟨forall_mem_nil _, .nil⟩
  | cons page pages ih =>
    rw [unmapLoop] at h
    rcases hunmap : unmapPage p4 page with _ | ⟨_ | r, p4₁⟩ <;> rw [hunmap] at h
    · cases h
    · cases h
    have hused := used_of_unmapPage hunmap
    obtain ⟨p4₂, hunmap', hentry⟩ := unmapPage_of_used hused
    obtain rfl : p4₂ = p4₁ :=
      (Prod.mk.inj (Option.some.inj (hunmap'.symm.trans hunmap))).2
    have hrest : InUse p4₂ pages := by
      cases r <;> exact ih h
    -- the entry of the page is unused by now
    have hne : ∀ n ∈ pages, path n ≠ path page := by
      intro n hn heq
      have hzero := hrest.used n hn
      rw [entry_update_self hentry heq] at hzero
      exact absurd hzero (by decide)
    refine ⟨forall_mem_cons.mpr ⟨hused, fun n hn => ?_⟩,
      pairwise_cons.mpr ⟨fun n hn => (hne n hn).symm, hrest.apart⟩⟩
    rw [← entry_update_of_ne hentry (hne n hn)]
    exact hrest.used n hn

/-- The frames in order, merged one by one from a range on; a new range begins with every frame
that is not contiguous with the range before it. -/
def runsFrom (curr : Frames) : List Frames → List Frames
  | [] => [curr]
  | newly :: frames =>
    match curr.merge .page4K newly with
    | some merged => runsFrom merged frames
    | none => curr :: runsFrom newly frames

/-- The maximal runs of frames that merge in their order. -/
def runs : List Frames → List Frames
  | [] => []
  | first :: frames => runsFrom first frames

theorem cover_runsFrom {curr : Frames} {frames : List Frames}
    (hcurr : curr.range.end_ < maxPageNumber) (h : ∀ f ∈ frames, f.range.end_ < maxPageNumber)
    (n : ℕ) : cover (runsFrom curr frames) n = cover [curr] n + cover frames n := by
  induction frames generalizing curr with
  | nil => rfl
  | cons newly frames ih =>
    obtain ⟨hnewly, h⟩ := forall_mem_cons.mp h
    rw [runsFrom, cover_cons_eq_add newly]
    cases hmerge : curr.merge .page4K newly with
    | none =>
      rw [cover_cons_eq_add, ih hnewly h]
    | some merged =>
      obtain ⟨hself, hother, ⟨hadj, heq⟩ | ⟨hadj, heq⟩⟩ := FrameAllocator.Frames.merge_cases hmerge
      all_goals
        rw [chunkAdd_page4K] at hadj
        have hmerged : merged.range.end_ < maxPageNumber := by
          rw [heq]
          assumption
        rw [ih hmerged h]
        simp only [cover_singleton, FrameAllocator.Frames.mem_def, heq, mem_iff]
        split_ifs <;> omega

namespace Collected

variable {curr : Frames} {free : Finset ℕ}

/-- What `unmap` comes to with a range: it is returned, and the others are dropped. -/
theorem finish_foldl_push_some (first : Frames) (frames : List Frames) :
    (frames.foldl push ⟨some first, some curr, free⟩).finish.1 = some first ∧
      ∀ f, f ∈ (frames.foldl push ⟨some first, some curr, free⟩).finish.2 ↔
        f ∈ free ∨ ∃ r ∈ runsFrom curr frames, f ∈ r := by
  induction frames generalizing curr free with
  | nil => simp [finish, dropped, runsFrom, FrameAllocator.Frames.mem_def]
  | cons newly frames ih =>
    rw [foldl_cons, runsFrom]
    cases hmerge : curr.merge .page4K newly with
    | some merged =>
      simp only [push, hmerge]
      exact ih
    | none =>
      obtain ⟨hfirst, hfree⟩ := @ih newly (free ∪ curr.range.toFinset)
      simp only [push, hmerge, exists_mem_cons_iff]
      refine ⟨hfirst, fun f => ?_⟩
      rw [hfree f, Finset.mem_union, mem_toFinset, or_assoc]
      rfl

/-- Only the first of the runs is returned. -/
theorem finish_foldl_push (frames : List Frames) :
    (frames.foldl push ⟨none, some curr, free⟩).finish.1 = (runsFrom curr frames).head? ∧
      ∀ f, f ∈ (frames.foldl push ⟨none, some curr, free⟩).finish.2 ↔
        f ∈ free ∨ ∃ r ∈ (runsFrom curr frames).tail, f ∈ r := by
  induction frames generalizing curr with
  | nil => simp [finish, runsFrom]
  | cons newly frames ih =>
    rw [foldl_cons, runsFrom]
    cases hmerge : curr.merge .page4K newly with simp only [push, hmerge]
    | some merged =>
      exact ih
    | none =>
      exact finish_foldl_push_some curr frames

end Collected

/-- The frames of exclusive mappings are in the ranges, of which the first is returned and the
others become free. -/
structure Conserves (frames : List ℕ) (ranges : List Frames) (free free' : Finset ℕ)
    (returned : Option Frames) : Prop where
  first : returned = ranges.head?
  freed : ∀ f, f ∈ free' ↔ f ∈ free ∨ ∃ r ∈ ranges.tail, f ∈ r
  once : ∀ f, cover returned.toList f + cover ranges.tail f = frames.count f
  none : returned = none → frames = []

/-- **Unmapping conserves frames.** Where it succeeds, every frame that was mapped exclusively is
returned or freed, once for each page that was mapped to it, and no other frame is; what is returned
is the first run of frames that merge in the order of the pages. -/
theorem unmap_conserves_frames (mp : MappedPages) (p4 p4' : P4) (targetP4 : ℕ)
    (reserved free free' : Finset ℕ) (returned : Option Frames)
    (h : mp.unmap p4 targetP4 reserved free = (.ok returned, p4', free')) :
    Conserves (exclusiveFrames p4 mp.pages.toList)
      (runs ((exclusiveFrames p4 mp.pages.toList).map (unmappedFrame reserved))) free free'
      returned := by
  obtain heq | ⟨-, e, heq⟩ := mp.unmap_eq p4 targetP4 reserved free <;> rw [heq] at h
  on_goal 2 => cases h
  obtain ⟨p4₁, d, hloop, rfl, -⟩ := unmapLoop_eq reserved (inUse_of_unmapLoop h) ⟨none, none, free⟩
  have hbound : ∀ f ∈ exclusiveFrames p4 mp.pages.toList, f < maxPageNumber := by
    intro f hf
    obtain ⟨p, -, rfl⟩ := mem_map.mp hf
    exact (PageTableEntry.isFrame_frameValue (entry p4 p)).trans (by decide)
  cases hloop.symm.trans h
  generalize exclusiveFrames p4 mp.pages.toList = frames at hbound ⊢
  rcases frames with _ | ⟨frame, frames⟩
  · exact ⟨rfl, by simp [runs, Collected.finish], fun _ => rfl, fun _ => rfl⟩
  obtain ⟨hframe, hframes⟩ := forall_mem_cons.mp hbound
  obtain ⟨hfirst, hfreed⟩ := @Collected.finish_foldl_push (unmappedFrame reserved frame) free
    (frames.map (unmappedFrame reserved))
  have hcover := @cover_runsFrom (unmappedFrame reserved frame)
    (frames.map (unmappedFrame reserved)) hframe (forall_mem_map.mpr hframes)
  refine ⟨hfirst, hfreed, fun f => ?_, fun hnone => ?_⟩
  · rw [← cover_map_unmappedFrame reserved, map_cons, cover_cons_eq_add, ← hcover, runs]
    refine Eq.trans (congrArg (fun r => cover r.toList f + _) hfirst) ?_
    rcases runsFrom (unmappedFrame reserved frame) _ with _ | ⟨r, l⟩
    · rfl
    · exact (cover_cons_eq_add r l f).symm
  · have hnil := head?_eq_none_iff.mp (hfirst.symm.trans hnone)
    have hzero := hcover frame
    rw [hnil, ← cover_cons_eq_add, ← map_cons, cover_map_unmappedFrame, count_cons_self] at hzero
    cases hzero

/-- Pages 1 to 4 mapped to the frames 7, 3, 9 and 8, the second not exclusively: frame 7 is
returned, and 8 and 9 are freed. -/
def mixedTable : P4 :=
  [(1, 7, true), (2, 3, false), (3, 9, true), (4, 8, true)].foldl (fun p4 x =>
    (mapPage p4 x.1 x.2.1 (.fromBitsTruncate 0) (actualFlags (.fromBitsTruncate 0) x.2.2) ""
      ⟨{10, 11, 12}, [some 10, some 11, some 12]⟩).2.1) default

theorem unmap_conserves_mixed : Conserves [7, 9, 8] [⟨.free, 7, 7⟩, ⟨.free, 8, 9⟩] ∅ {8, 9}
    (some ⟨.free, 7, 7⟩) :=
  unmap_conserves_frames ⟨0, ⟨1, 4⟩, actualFlags (.fromBitsTruncate 0) true⟩ mixedTable _ 0 ∅ ∅
    {8, 9} (some ⟨.free, 7, 7⟩) rfl

end Maios.Paging
