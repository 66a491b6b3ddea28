import Maios.Memory.MappingEntries

/-!
# How many frames a mapping call needs

A mapping loop takes one frame for each table that is missing on the way to one of its pages, and
`map_allocated_pages` one more for each page. Both are counted here in the page table as it is before
the call: a table is known by the indices that lead to it, and pages that share a table count it
once. The loops get to their end if and only if the allocator yields that many frames.

## Main results

* `mapPage_makes`: mapping an unused page makes the tables missing on its way, one frame for each.
* `mapFrames_ok_iff`, `mapFresh_ok_iff`: when the two loops succeed.

That no entry of the upper levels has the bit for huge pages is load-bearing, even for entries that
are not present: `next_table_create` panics at such an entry whatever the allocator yields.
-/

namespace Maios.Paging

open List P4 Table PageTableEntry

/-! ### Frames -/

namespace FrameSupply

/-- How many calls for a frame yield one, before the first that fails. -/
def yields (free : Finset ℕ) : List (Option ℕ) → ℕ
  | some f :: rest => if f ∈ free then yields (free.erase f) rest + 1 else 0
  | none :: _ => 0
  | [] => 0

def available (s : FrameSupply) : ℕ := yields s.free s.outcomes

theorem available_of_none {s s' : FrameSupply} (h : s.allocateFrame = (none, s')) :
    s.available = 0 := by
  obtain ⟨free, outcomes⟩ := s
  rcases outcomes with _ | ⟨_ | f, rest⟩
  · rfl
  · rfl
  · simp only [allocateFrame] at h
    split_ifs at h with hf
    · cases h
    · rw [available, yields, if_neg hf]

theorem available_of_some {s s' : FrameSupply} {f : ℕ} (h : s.allocateFrame = (some f, s')) :
    s.available = s'.available + 1 := by
  obtain ⟨free, outcomes⟩ := s
  rcases outcomes with _ | ⟨_ | f, rest⟩
  · cases h
  · cases h
  · simp only [allocateFrame] at h
    split_ifs at h with hf <;> cases h
    rw [available, yields, if_pos hf, available]

end FrameSupply

/-! ### Tables -/

/-- The indices lead from the table to a table. -/
def Table.reaches {T : Type} (below : T → List Index → Bool) (t : Table T) : List Index → Bool
  | [] => true
  | i :: l => match t.nextTable i with
    | some c => below c l
    | none => false

/-- There is a table where the indices lead. -/
def P4.hasTable : P4 → List Index → Bool :=
  Table.reaches (Table.reaches (Table.reaches fun (_ : P1) l => l.isEmpty))

/-- The three tables on the way to a page, by the indices that lead to them. -/
def tablesOf (page : ℕ) : Finset (List Index) :=
  {[p4Index page], [p4Index page, p3Index page], [p4Index page, p3Index page, p2Index page]}

/-- The tables missing on the ways to the pages. -/
def missingTables (p4 : P4) (pages : List ℕ) : Finset (List Index) :=
  (pages.toFinset.biUnion tablesOf).filter (hasTable p4 · = false)

/-- A call that makes the tables `names` where they are missing, at a frame each, if the frames
suffice for that, and fails if they do not. -/
structure Makes {T : Type} (has : T → List Index → Bool) (names : Finset (List Index)) (c : T)
    (s : FrameSupply) (r : Outcome String Unit × T × FrameSupply) : Prop where
  ok_iff : r.1 = .ok () ↔ (names.filter (has c · = false)).card ≤ s.available
  made : r.1 = .ok () → ∀ l, has r.2.1 l = (has c l || decide (l ∈ names))
  left : r.1 = .ok () → r.2.2.available + (names.filter (has c · = false)).card = s.available

section Create

variable {T κ : Type} {has : T → List Index → Bool} {names : Finset (List Index)}
  {below : T → Prop} {look : T → κ → PageTableEntry} {i : κ} {index : Index} {flags : PteFlags}
  {k : T → FrameSupply → Outcome String Unit × T × FrameSupply} {t t' : Table T} {c c' : T}
  (hself : ∀ c, has c [] = true)

/-- The tables on a way, by the indices from the table above on. -/
def namesBelow (index : Index) (names : Finset (List Index)) : Finset (List Index) :=
  insert [index] (names.image (index :: ·))

theorem mem_namesBelow {j : Index} {l : List Index} :
    j :: l ∈ namesBelow index names ↔ j = index ∧ (l = [] ∨ l ∈ names) := by
  simp only [namesBelow, Finset.mem_insert, Finset.mem_image, cons.injEq]
  constructor
  · rintro (⟨rfl, rfl⟩ | ⟨l', hl, rfl, rfl⟩)
    · exact ⟨rfl, .inl rfl⟩
    · exact ⟨rfl, .inr hl⟩
  · rintro ⟨rfl, rfl | hl⟩
    · exact .inl ⟨rfl, rfl⟩
    · exact .inr ⟨l, hl, rfl, rfl⟩

theorem reaches_of_some {l : List Index} (hc : t.nextTable index = some c) :
    reaches has t (index :: l) = has c l := by
  rw [reaches, hc]

theorem reaches_of_none {l : List Index} (hc : t.nextTable index = none) :
    reaches has t (index :: l) = false := by
  rw [reaches, hc]

/-- Where the next table is missing, all of them are. -/
theorem card_missing_of_none (hc : t.nextTable index = none) (hnil : [] ∉ names) :
    ((namesBelow index names).filter (reaches has t · = false)).card = names.card + 1 := by
  have hmissing : ∀ l ∈ namesBelow index names, reaches has t l = false := by
    intro l hl
    cases l with
    | nil => simp [namesBelow] at hl
    | cons j l => rw [(mem_namesBelow.mp hl).1, reaches_of_none hc]
  have hnot : [index] ∉ names.image (index :: ·) := by
    simp [hnil]
  rw [Finset.filter_true_of_mem hmissing, namesBelow, Finset.card_insert_of_notMem hnot,
    Finset.card_image_of_injective _ cons_injective]

include hself

/-- Where it is there, those missing are missing below it. -/
theorem card_missing_of_some (hc : t.nextTable index = some c) :
    ((namesBelow index names).filter (reaches has t · = false)).card =
      (names.filter (has c · = false)).card := by
  have hmissing : (namesBelow index names).filter (reaches has t · = false) =
      (names.filter (has c · = false)).image (index :: ·) := by
    ext l
    simp only [namesBelow, Finset.mem_filter, Finset.mem_insert, Finset.mem_image]
    constructor
    · rintro ⟨rfl | ⟨l, hl, rfl⟩, hlost⟩ <;> rw [reaches_of_some hc] at hlost
      · rw [hself c] at hlost
        cases hlost
      · exact ⟨l, ⟨hl, hlost⟩, rfl⟩
    · rintro ⟨l, ⟨hl, hlost⟩, rfl⟩
      exact ⟨.inr ⟨l, hl, rfl⟩, by rw [reaches_of_some hc]; exact hlost⟩
  rw [hmissing, Finset.card_image_of_injective _ cons_injective]

/-- The tables that there are when one below `index` has been made or changed. -/
theorem reaches_update (hc' : t'.nextTable index = some c')
    (hother : ∀ j ≠ index, t'.nextTable j = t.nextTable j)
    (hmade : ∀ l, l ≠ [] → has c' l = (reaches has t (index :: l) || decide (l ∈ names)))
    (l : List Index) :
    reaches has t' l = (reaches has t l || decide (l ∈ namesBelow index names)) := by
  cases l with
  | nil => rfl
  | cons j l =>
    obtain rfl | hj := eq_or_ne j index
    · by_cases hl : l = []
      · simp [reaches_of_some hc', hl, hself c', mem_namesBelow]
      · rw [reaches_of_some hc', hmade l hl]
        simp [mem_namesBelow, hl]
    · simp [reaches, hother j hj, mem_namesBelow, hj]

variable [Inhabited T]

/-- **One level.** Where the next table is missing, it is made of the next frame. -/
theorem nextTableCreate_makes (hnew : ∀ l ≠ [], has default l = false) (hnil : [] ∉ names)
    (hflags : ((flags.valid true).writable true).isHuge = false) (hdefault : below default)
    (hzero : look default = fun _ => .zero)
    (hk : ∀ c, below c → (look c i).isUnused = true → ∀ s, Makes has names c s (k c s))
    (ht : t.Upper (·.flags.isHuge = false) below)
    (hunused : (entryBy look t (index, i)).isUnused = true) (s : FrameSupply) :
    Makes (reaches has) (namesBelow index names) t s (t.nextTableCreate index flags s k) := by
  rw [nextTableCreate]
  cases hc : t.nextTable index with
  | some c =>
    rw [entryBy, hc] at hunused
    have hm := hk c ((ht index).2 c hc) hunused s
    have hnext : (t.setNext index (k c s).2.1).nextTable index = some (k c s).2.1 := by
      rw [nextTable_setNext, if_pos rfl, hc, Option.map_some]
    refine ⟨by rw [card_missing_of_some hself hc]; exact hm.ok_iff, fun ho => ?_,
      by rw [card_missing_of_some hself hc]; exact hm.left⟩
    refine reaches_update hself hnext (fun j hj => ?_) fun l _ => ?_
    · rw [nextTable_setNext, if_neg hj]
    · rw [reaches_of_some hc]
      exact hm.made ho l
  | none => ?_
  have hcard := @card_missing_of_none _ has _ _ _ hc hnil
  have hmissing : names.filter (has default · = false) = names :=
    Finset.filter_true_of_mem fun l hl => hnew l fun h => hnil (h ▸ hl)
  rw [if_neg (by rw [(ht index).1]; exact Bool.false_ne_true)]
  rcases halloc : s.allocateFrame with ⟨_ | af, s'⟩
  · have hnone := FrameSupply.available_of_none halloc
    have hfail : (Outcome.panic : Outcome String Unit) ≠ .ok () := by simp
    exact ⟨iff_of_false hfail (by omega), fun ho => absurd ho hfail, fun ho => absurd ho hfail⟩
  dsimp only
  have hmade := nextTable_setPte_self t index af (PteFlags.isValid_higher flags) hflags
  rw [hmade]
  have hsome := FrameSupply.available_of_some halloc
  have hm := hk default hdefault (by rw [hzero]; rfl) s'
  have hok := hm.ok_iff
  rw [hmissing] at hok
  refine ⟨hok.trans (by omega), fun ho => ?_, fun ho => ?_⟩
  · refine reaches_update hself (by rw [nextTable_setNext, if_pos rfl, hmade, Option.map_some])
      (fun j hj => ?_) fun l hl => ?_
    · rw [nextTable_setNext, if_neg hj, nextTable_setPte_of_ne t hj]
    · rw [reaches_of_none hc, hm.made ho l, hnew l hl]
  · have hleft := hm.left ho
    rw [hmissing] at hleft
    dsimp only
    omega

omit hself in
/-- A new table leads nowhere. -/
theorem reaches_default (l : List Index) (hl : l ≠ []) :
    reaches has (default : Table T) l = false := by
  cases l with
  | nil => exact absurd rfl hl
  | cons j l => exact reaches_of_none (nextTable_default j)

end Create

/-! ### Pages -/

variable {p4 p4' : P4} {pages : List ℕ} {page frame : ℕ} {flags flags' : PteFlags} {inUse : String}
  {supply : FrameSupply} {pairs : List (ℕ × ℕ)}

theorem tablesOf_eq (page : ℕ) : tablesOf page =
    namesBelow (p4Index page) (namesBelow (p3Index page) (namesBelow (p2Index page) ∅)) := by
  simp [tablesOf, namesBelow, Finset.image_insert]

theorem nil_notMem_namesBelow (index : Index) (names : Finset (List Index)) :
    [] ∉ namesBelow index names := by
  simp [namesBelow]

/-- No entry of the three upper levels has the bit for huge pages. -/
def P4.Clear : P4 → Prop := P4.Upper (·.flags.isHuge = false)

/-- **Mapping an unused page** makes the tables on its way, at one frame for each that is missing. -/
theorem mapPage_makes (h : p4.Clear) (hunused : (entry p4 page).isUnused = true) (frame : ℕ)
    (flags flags' : PteFlags) (inUse : String) (supply : FrameSupply) :
    Makes hasTable (tablesOf page) p4 supply
      (mapPage p4 page frame flags.adjustForHigherLevelPte flags' inUse supply) := by
  have hflags := PteFlags.isHuge_adjustForHigherLevelPte flags
  rw [tablesOf_eq]
  refine nextTableCreate_makes (fun _ => rfl) reaches_default (nil_notMem_namesBelow _ _) hflags
    (upper_default fun _ => id) (entryBy_default _) (fun p3 h3 u3 s => ?_) h hunused supply
  refine nextTableCreate_makes (fun _ => rfl) reaches_default (nil_notMem_namesBelow _ _) hflags
    (upper_default fun _ => id) (entryBy_default _) (fun p2 h2 u2 s => ?_) h3 u3 s
  refine nextTableCreate_makes (fun _ => rfl) (fun l hl => ?_) (Finset.notMem_empty _) hflags
    trivial rfl (fun p1 _ u1 s => ?_) h2 u2 s
  · simp [hl]
  · rw [u1]
    exact ⟨iff_of_true rfl (by simp), fun _ l => by simp, fun _ => by simp⟩

theorem card_tablesOf_le : ((tablesOf page).filter (hasTable p4 · = false)).card ≤
    (missingTables p4 (page :: pages)).card := by
  refine Finset.card_le_card (Finset.filter_subset_filter _ ?_)
  rw [toFinset_cons, Finset.biUnion_insert]
  exact Finset.subset_union_left

/-- The tables that the first page needs, and then those that the others still need. -/
theorem card_missingTables_cons
    (hmade : ∀ l, hasTable p4' l = (hasTable p4 l || decide (l ∈ tablesOf page))) :
    (missingTables p4 (page :: pages)).card =
      ((tablesOf page).filter (hasTable p4 · = false)).card + (missingTables p4' pages).card := by
  have hdisjoint : Disjoint ((tablesOf page).filter (hasTable p4 · = false))
      (missingTables p4' pages) := by
    rw [Finset.disjoint_left]
    intro l hl hl'
    simp [missingTables, hmade l, (Finset.mem_filter.mp hl).1] at hl'
  rw [← Finset.card_union_of_disjoint hdisjoint]
  congr 1
  ext l
  simp only [missingTables, toFinset_cons, Finset.biUnion_insert, Finset.mem_filter,
    Finset.mem_union, hmade l, Bool.or_eq_false_iff, decide_eq_false_iff_not]
  tauto

/-- What the two loops need to know of their pages. -/
structure Unmapped (p4 : P4) (pages : List ℕ) : Prop where
  unused : ∀ n ∈ pages, (P4.entry p4 n).isUnused = true
  apart : pages.Pairwise fun n m => path n ≠ path m

theorem Unmapped.take (h : Unmapped p4 pages) (n : ℕ) : Unmapped p4 (pages.take n) :=
  ⟨fun m hm => h.unused m (mem_of_mem_take hm), h.apart.sublist (take_sublist n pages)⟩

/-- The rest of the pages, when the first has been mapped. -/
theorem Unmapped.tail {v : PageTableEntry} (h : Unmapped p4 (page :: pages))
    (hfirst : entryAt p4' = Function.update (entryAt p4) (path page) v) : Unmapped p4' pages := by
  obtain ⟨hhead, htail⟩ := pairwise_cons.mp h.apart
  refine ⟨fun n hn => ?_, htail⟩
  rw [entry_update_of_ne hfirst (hhead n hn).symm]
  exact h.unused n (mem_cons_of_mem _ hn)

/-- **When the loop of `internal_map_to` succeeds.** -/
theorem mapFrames_ok_iff (h : p4.Clear) (hpages : Unmapped p4 (pairs.map Prod.fst)) :
    (mapFrames flags.adjustForHigherLevelPte flags' pairs p4 supply).1 = .ok () ↔
      (missingTables p4 (pairs.map Prod.fst)).card ≤ supply.available := by
  induction pairs generalizing p4 supply with
  | nil => exact iff_of_true rfl (Nat.zero_le _)
  | cons x pairs ih =>
    obtain ⟨page, frame⟩ := x
    have hm := mapPage_makes h (hpages.unused page mem_cons_self) frame flags flags'
      "map_allocated_pages_to(): page was already in use" supply
    rw [mapFrames]
    rcases hmap : mapPage p4 page frame flags.adjustForHigherLevelPte flags'
      "map_allocated_pages_to(): page was already in use" supply with ⟨o, p4₁, supply₁⟩
    rw [hmap] at hm
    obtain ⟨-, ⟨rfl, -, hentry⟩ | ⟨hfail, -⟩⟩ := mapPage_cases hmap
    · have hleft := hm.left rfl
      have hmade : ∀ l, hasTable p4₁ l = (hasTable p4 l || decide (l ∈ tablesOf page)) := hm.made rfl
      dsimp only at hleft ⊢
      rw [ih (mapPage_upper (fun _ => id) h hmap) (hpages.tail hentry), map_cons,
        card_missingTables_cons hmade]
      omega
    · have hcard := @card_tablesOf_le p4 (pairs.map Prod.fst) page
      have hstop : ¬ _ := fun hle => hfail (hm.ok_iff.mpr (hcard.trans hle))
      refine iff_of_false ?_ hstop
      cases o with
      | ok u => exact absurd rfl hfail
      | err m | panic => exact hfail

/-- **When the loop of `map_allocated_pages` succeeds.** -/
theorem mapFresh_ok_iff (h : p4.Clear) (hpages : Unmapped p4 pages) :
    (mapFresh flags.adjustForHigherLevelPte flags' pages p4 supply).1 = .ok () ↔
      (missingTables p4 pages).card + pages.length ≤ supply.available := by
  induction pages generalizing p4 supply with
  | nil => exact iff_of_true rfl (Nat.zero_le _)
  | cons page pages ih =>
    have hcard := @card_tablesOf_le p4 pages page
    rw [mapFresh, length_cons]
    rcases halloc : supply.allocateFrame with ⟨_ | af, supply₀⟩
    · have hnone := FrameSupply.available_of_none halloc
      exact iff_of_false (by simp) (by omega)
    have hsome := FrameSupply.available_of_some halloc
    have hm := mapPage_makes h (hpages.unused page mem_cons_self) af flags flags'
      "map_allocated_pages(): page was already in use" supply₀
    dsimp only
    rcases hmap : mapPage p4 page af flags.adjustForHigherLevelPte flags'
      "map_allocated_pages(): page was already in use" supply₀ with ⟨o, p4₁, supply₁⟩
    rw [hmap] at hm
    obtain ⟨-, ⟨rfl, -, hentry⟩ | ⟨hfail, -⟩⟩ := mapPage_cases hmap
    · have hleft := hm.left rfl
      have hmade : ∀ l, hasTable p4₁ l = (hasTable p4 l || decide (l ∈ tablesOf page)) := hm.made rfl
      dsimp only at hleft ⊢
      rw [ih (mapPage_upper (fun _ => id) h hmap) (hpages.tail hentry),
        card_missingTables_cons hmade]
      omega
    · have hstop : ¬ _ ≤ _ := fun hle => hfail (hm.ok_iff.mpr hle)
      refine iff_of_false ?_ (by omega)
      cases o with
      | ok u => exact absurd rfl hfail
      | err m | panic => exact hfail

end Maios.Paging
