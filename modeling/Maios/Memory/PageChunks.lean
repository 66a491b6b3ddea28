import Maios.Memory.PageRequests

/-!
# What the page allocator's calls do to the tree

Specifications of the calls on the heap-based free list, as exchanges of chunks: which chunks
leave the tree, and which ranges come in or are handed out. Ownership and conservation over whole
runs are consequences of these and are proved elsewhere.

A request at a page may take a whole run of contiguous chunks out of the tree, and the remainders
it gives back are computed from the first of them. `RunMeets` compares the end of that run with
the end of the request; `Takes` says what follows from the comparison.
-/

namespace Maios.PageAllocator

open List ChunkRange Exchanged DeferredAllocAction Nat

variable {chunk : Chunk} {e numPages startPage n : ℕ}

section Ranges

variable {a b : PageRange}

/-- Behind the end of `a`, where `b` begins, nothing is in between: joining the two adds no page. -/
theorem cover_join_le (h : b.start ≤ a.end_ + 1) (n : ℕ) :
    cover [(⟨a.start, b.end_⟩ : PageRange)] n ≤ cover [a] n + cover [b] n := by
  simp only [cover_singleton, mem_iff]
  split_ifs <;> omega

/-- A range as the allocator makes them: empty ranges are those between two neighbours, and not
at the very top of the address space. -/
def Proper (r : PageRange) : Prop :=
  r.end_ ≤ maxPageNumber ∧
    (r.start ≤ r.end_ ∨ r.start = r.end_ + 1 ∧ r.start < maxPageNumber)

section

variable (ha : Proper a) (hb : Proper b) (h : b.start = chunkAdd .page4K a.end_ 1)

include ha hb h

/-- Joining two neighbours keeps every page, unless both have the last one. -/
theorem cover_join (hone : cover [a] maxPageNumber + cover [b] maxPageNumber ≤ 1) (n : ℕ) :
    cover [(⟨a.start, b.end_⟩ : PageRange)] n = cover [a] n + cover [b] n := by
  obtain ⟨hamax, ha⟩ := ha
  obtain ⟨hbmax, hb⟩ := hb
  rw [chunkAdd_page4K] at h
  simp only [cover_singleton, mem_iff] at hone ⊢
  have hlt : a.end_ < maxPageNumber := by
    by_contra hge
    rw [if_pos (by omega), if_pos (by omega)] at hone
    omega
  split_ifs <;> omega

theorem Proper.join : Proper ⟨a.start, b.end_⟩ := by
  obtain ⟨hamax, ha⟩ := ha
  obtain ⟨hbmax, hb⟩ := hb
  rw [chunkAdd_page4K] at h
  refine ⟨hbmax, ?_⟩
  simp only
  omega

end

/-! ### Cutting an allocation out of a chunk -/

/-- Everything a successful call hands out. -/
def handedOut (result : PageRange × DeferredAllocAction) : List PageRange :=
  [result.1, result.2.free1, result.2.free2]

theorem cover_cut_le (hstart : chunk.start ≤ startPage)
    (hend : (newAllocation startPage numPages).end_ ≤ e) (hchunk : chunk.end_ ≤ e)
    (hn : n ≤ maxPageNumber) :
    cover (handedOut (cut startPage numPages chunk)) n ≤
      cover [(⟨chunk.start, e⟩ : PageRange)] n := by
  simp only [newAllocation, chunkAdd_page4K] at hend
  simp only [handedOut, cut, newAllocation, new, before, after,
    chunkAdd_page4K, chunkSub_page4K]
  split_ifs <;>
    simp only [Option.getD_none, Option.getD_some, cover_cons, mem_iff, empty] <;>
    split_ifs <;> omega

/-- Nothing is lost when the allocation ends with the chunk, or the copy is not out of date. -/
theorem cover_cut (hstart : chunk.start ≤ startPage) (hmax : startPage ≤ maxPageNumber)
    (hend : (newAllocation startPage numPages).end_ ≤ e) (he : e ≤ maxPageNumber)
    (hexact : (newAllocation startPage numPages).end_ = e ∧ chunk.end_ ≤ e ∨ chunk.end_ = e)
    (n : ℕ) :
    cover (handedOut (cut startPage numPages chunk)) n =
      cover [(⟨chunk.start, e⟩ : PageRange)] n := by
  simp only [newAllocation, chunkAdd_page4K] at hend hexact
  simp only [handedOut, cut, newAllocation, new, before, after,
    chunkAdd_page4K, chunkSub_page4K]
  split_ifs <;>
    simp only [Option.getD_none, Option.getD_some, cover_cons, mem_iff, empty] <;>
    split_ifs <;> omega

end Ranges

section List

variable {R : OrderedTree Chunk ChunkRange.start}

/-! ### Merging contiguous chunks -/

/-- The chunks of `X` follow contiguously on a chunk that ends at the first page, and the last of
them ends at the second. -/
def Chain : ℕ → List Chunk → ℕ → Prop
  | e, [], e' => e = e'
  | e, c :: X, e' => chunkSub .page4K c.start 1 = e ∧ Chain c.end_ X e'

variable {alignment e' : ℕ} {X : List Chunk} {ε : Type}
  {result : Outcome ε (PageRange × DeferredAllocAction) × StaticArrayRBTree R} {tree : R.Tree}
  {exactly : Prop} {range : Option PageRange} {rest : StaticArrayRBTree R}

theorem Chain.cover_le {a : ℕ} (h : Chain e X e') (n : ℕ) :
    cover [(⟨a, e'⟩ : PageRange)] n ≤ cover [(⟨a, e⟩ : PageRange)] n + cover X n := by
  induction X generalizing e with
  | nil =>
    cases h
    exact le_add_right _ _
  | cons c X ih =>
    obtain ⟨hc, hX⟩ := h
    have hrest := ih hX
    rw [chunkSub_page4K] at hc
    have hjoin : cover [(⟨a, c.end_⟩ : PageRange)] n ≤
        cover [(⟨a, e⟩ : PageRange)] n + cover [c] n :=
      cover_join_le (a := ⟨a, e⟩) (by simp only; omega) n
    have hcons := cover_cons_eq_add c X n
    omega

theorem Chain.end_le (h : Chain e X e') (hX : ∀ c ∈ X, Proper c ∧ 0 < c.start) :
    e ≤ e' ∧ (e' = e ∨ e' ≤ maxPageNumber) := by
  induction X generalizing e with
  | nil =>
    cases h
    exact ⟨le_rfl, .inl rfl⟩
  | cons c X ih =>
    obtain ⟨hc, hX'⟩ := h
    obtain ⟨⟨hmax, hprop⟩, hpos⟩ := hX c mem_cons_self
    obtain ⟨hle, hor⟩ := ih hX' (forall_mem_cons.mp hX).2
    rw [chunkSub_page4K] at hc
    omega

theorem Chain.cover_eq {a : ℕ} (h : Chain e X e') (ha : a ≤ e + 1)
    (hX : ∀ c ∈ X, Proper c ∧ 0 < c.start) (n : ℕ) :
    cover [(⟨a, e'⟩ : PageRange)] n = cover [(⟨a, e⟩ : PageRange)] n + cover X n := by
  induction X generalizing e with
  | nil =>
    cases h
    rfl
  | cons c X ih =>
    obtain ⟨hc, hX'⟩ := h
    obtain ⟨⟨hmax, hprop⟩, hpos⟩ := hX c mem_cons_self
    rw [chunkSub_page4K] at hc
    have hrest := ih hX' (by omega) (forall_mem_cons.mp hX).2
    have hjoin : cover [(⟨a, c.end_⟩ : PageRange)] n =
        cover [(⟨a, e⟩ : PageRange)] n + cover [c] n := by
      simp only [cover_singleton, mem_iff]
      split_ifs <;> omega
    rw [hrest, hjoin, cover_cons_eq_add c X n]
    omega

theorem mergeContiguous_spec (tree : R.Tree) (i e turns : ℕ) :
    ∃ X rest, (R.elems tree).drop i = X ++ rest ∧
      R.elems (mergeContiguous tree i e turns).1 = (R.elems tree).take i ++ rest ∧
      Chain e X (mergeContiguous tree i e turns).2 := by
  induction turns generalizing tree e with
  | zero => exact ⟨[], (R.elems tree).drop i, rfl, (take_append_drop i _).symm, rfl⟩
  | succ turns ih =>
    have hstop : ∃ X rest, (R.elems tree).drop i = X ++ rest ∧
        R.elems tree = (R.elems tree).take i ++ rest ∧ Chain e X e :=
      ⟨[], (R.elems tree).drop i, rfl, (take_append_drop i _).symm, rfl⟩
    rw [mergeContiguous]
    cases hget : R.get tree i with
    | none => exact hstop
    | some next => ?_
    by_cases hnext : chunkSub .page4K next.start 1 = e
    · simp only [hnext]
      obtain ⟨X, rest, hdrop, helems, hchain⟩ := ih (R.removeAt tree i) next.end_
      obtain ⟨hi, hnexteq⟩ := List.getElem?_eq_some_iff.mp hget
      rw [R.elems_removeAt, eraseIdx_eq_take_drop_succ] at hdrop helems
      have hlen : ((R.elems tree).take i).length = i := length_take_of_le (by omega)
      rw [drop_append_of_le_length (by omega), drop_of_length_le (by omega),
        nil_append] at hdrop
      rw [take_append_of_le_length (by omega), take_of_length_le (by omega)] at helems
      refine ⟨next :: X, rest, ?_, helems, hnext, hchain⟩
      rw [drop_eq_getElem_cons hi, hnexteq, hdrop, cons_append]
    · simp only [hnext]
      exact hstop

/-! ### What a call does to the tree -/

/-- A request at a page either fits into the chunk found, or finds no chunk contiguous to it, or
its last page and the last page of the contiguous run are related by `rel`. -/
def RunMeets (rel : ℕ → ℕ → Prop) (list : StaticArrayRBTree R) (requestedPage numPages : ℕ) :
    Prop :=
  match list with
  | .array _ => True
  | .rbTree tree =>
    match R.upperBound tree requestedPage with
    | none => True
    | some i =>
      match R.get tree i with
      | none => True
      | some chunk =>
        (newAllocation requestedPage numPages).end_ ≤ chunk.end_ ∨
          runEnd tree i chunk ≤ chunk.end_ ∨
          rel (newAllocation requestedPage numPages).end_ (runEnd tree i chunk)

/-- A call that allocates takes a chunk and the chunks that follow it contiguously, up to page
`e`, out of the tree. Under the condition `covered` the pages it hands out end by `e`; under the
condition `exactly` they exist, and end at `e` or `e` is the end of the chunk. -/
structure Takes (tree tree' : R.Tree) (startPage numPages : ℕ) (chunk : Chunk)
    (covered exactly : Prop) : Prop where
  taken : ∃ X e, Exchanged (R.elems tree) (R.elems tree') (chunk :: X) [] ∧
    Chain chunk.end_ X e ∧ (∀ c ∈ X, 0 < c.start) ∧ chunk.end_ ≤ e ∧
    (covered → (newAllocation startPage numPages).end_ ≤ e) ∧
    (exactly → (newAllocation startPage numPages).end_ ≤ e ∧
      ((newAllocation startPage numPages).end_ = e ∨ chunk.end_ = e))
  start_le : chunk.start ≤ startPage
  start_max : exactly → startPage ≤ maxPageNumber

/-- A call that does not allocate takes at most chunks without pages out of the tree. -/
def Refuses (tree tree' : R.Tree) : Prop :=
  ∃ X e e', Exchanged (R.elems tree) (R.elems tree') X [] ∧ Chain e X e' ∧ e' ≤ e ∧
    ∀ c ∈ X, 0 < c.start

theorem Refuses.refl (tree : R.Tree) : Refuses tree tree :=
  ⟨[], 0, 0, Exchanged.refl _, rfl, le_rfl, by simp⟩

/-- What a call owes, on the tree. -/
def CallSpec {ε : Type} (tree : R.Tree) (numPages : ℕ) (covered exactly : Prop)
    (result : Outcome ε (PageRange × DeferredAllocAction) × StaticArrayRBTree R) : Prop :=
  ∃ tree', result.2 = .rbTree tree' ∧ R.Sorted tree' ∧
    ((∃ startPage chunk, result.1 = .ok (cut startPage numPages chunk) ∧
        Takes tree tree' startPage numPages chunk covered exactly) ∨
      (∀ p, result.1 ≠ .ok p) ∧ Refuses tree tree')

theorem callSpec_err (hs : R.Sorted tree) (numPages : ℕ) (covered exactly : Prop)
    {o : Outcome ε (PageRange × DeferredAllocAction)} (ho : ∀ p, o ≠ .ok p) :
    CallSpec tree numPages covered exactly (o, .rbTree tree) :=
  ⟨tree, rfl, hs, .inr ⟨ho, Refuses.refl tree⟩⟩

/-- Taking one chunk, whose copy is up to date. -/
theorem callSpec_chunk (hs : R.Sorted tree) {i : ℕ} (hget : R.get tree i = some chunk)
    {covered : Prop} (hstart : chunk.start ≤ startPage)
    (hend : (newAllocation startPage numPages).end_ ≤ chunk.end_)
    (hmax : exactly → startPage ≤ maxPageNumber) :
    CallSpec (ε := ε) tree numPages covered exactly
      (.ok (cut startPage numPages chunk), .rbTree (R.removeAt tree i)) := by
  refine ⟨_, rfl, hs.removeAt i, .inl ⟨startPage, chunk, rfl, ?_, hstart, hmax⟩⟩
  rw [R.elems_removeAt]
  exact ⟨[], chunk.end_, eraseIdx hget, rfl, by simp, le_rfl, fun _ => hend,
    fun _ => ⟨hend, .inr rfl⟩⟩

theorem findSpecificChunk_spec (hs : R.Sorted tree) {requestedPage : ℕ}
    (hmax : requestedPage ≤ maxPageNumber) (numPages : ℕ) :
    CallSpec tree numPages (RunMeets (· ≤ ·) (.rbTree tree) requestedPage numPages)
      (RunMeets (· = ·) (.rbTree tree) requestedPage numPages)
      (findSpecificChunk (.rbTree tree) requestedPage numPages) := by
  rw [findSpecificChunk]
  cases hub : R.upperBound tree requestedPage with
  | none => exact callSpec_err hs _ _ _ (by simp)
  | some i => ?_
  obtain ⟨chunk, hget, hle, habove⟩ := R.upperBound_eq_some tree _ i hs hub
  have hget' : R.get tree i = some chunk := hget
  have hstart : chunk.start ≤ requestedPage := hle
  simp only [hget', if_pos hstart]
  by_cases hfits : chunkAdd .page4K requestedPage (numPages - 1) ≤ chunk.end_
  · rw [if_pos hfits, adjustChosenChunk_eq _ _ _ _ rfl]
    exact callSpec_chunk hs hget' hstart hfits fun _ => hmax
  obtain ⟨X, rest, hdrop, helems, hchain⟩ :=
    mergeContiguous_spec tree (i + 1) chunk.end_ (R.elems tree).length
  have hi : i < (R.elems tree).length := (List.getElem?_eq_some_iff.mp hget).1
  have hpos : ∀ c ∈ X, 0 < c.start := by
    intro c hc
    obtain ⟨j, hj⟩ := mem_iff_getElem?.mp (mem_append_left rest hc)
    rw [← hdrop, getElem?_drop] at hj
    exact lt_of_le_of_lt (zero_le _) (habove _ c (by omega) hj)
  have hsub : ((R.elems tree).take (i + 1) ++ rest).Sublist (R.elems tree) := by
    nth_rewrite 2 [← take_append_drop (i + 1) (R.elems tree)]
    rw [hdrop]
    exact (List.Sublist.refl _).append (sublist_append_right _ _)
  have hrun := of_drop hdrop
  have hmeets : ∀ {rel : ℕ → ℕ → Prop},
      RunMeets rel (.rbTree tree) requestedPage numPages → chunk.end_ < runEnd tree i chunk →
      rel (newAllocation requestedPage numPages).end_ (runEnd tree i chunk) := by
    intro rel h hlonger
    simp only [RunMeets, hub, hget'] at h
    rcases h with h | h | h
    · exact absurd h hfits
    · omega
    · exact h
  rw [runEnd] at hmeets
  generalize mergeContiguous tree (i + 1) chunk.end_ (R.elems tree).length = m at *
  split_ifs with hlonger
  · have hstarts : chunk.start = (⟨chunk.start, m.2⟩ : Chunk).start := rfl
    rw [adjustChosenChunk_eq _ _ _ _ hstarts]
    have hlast : R.elems (R.removeAt (R.replaceWith m.1 i ⟨chunk.start, m.2⟩) i) =
        ((R.elems tree).take (i + 1) ++ rest).eraseIdx i := by
      rw [R.elems_removeAt, R.elems_replaceWith, helems, eraseIdx_set_eq]
    have hchunk : ((R.elems tree).take (i + 1) ++ rest)[i]? = some chunk := by
      rw [getElem?_append_left (by rw [length_take]; omega),
        getElem?_take_of_lt (lt_succ_self i)]
      exact hget
    refine ⟨_, rfl, ?_, .inl ⟨requestedPage, chunk, rfl, ⟨X, m.2, ?_, hchain, hpos,
      le_of_lt hlonger, fun hcov => hmeets hcov hlonger, fun hex => ?_⟩, hstart,
      fun _ => hmax⟩⟩
    · rw [OrderedTree.Sorted, hlast]
      exact Pairwise.sublist ((eraseIdx_sublist _ _).trans hsub) hs
    · rw [hlast]
      exact hrun.trans_nil (eraseIdx hchunk)
    · have heq := hmeets hex hlonger
      exact ⟨le_of_eq heq, .inl heq⟩
  · refine ⟨m.1, rfl, ?_, .inr ⟨by simp, X, chunk.end_, m.2, ?_, hchain, by omega, hpos⟩⟩
    · rw [OrderedTree.Sorted, helems]
      exact Pairwise.sublist hsub hs
    · rw [helems]
      exact hrun

theorem scanDown_found {stopBefore stopAfter : Chunk → Bool}
    (h : scanDown tree range alignment numPages stopBefore stopAfter n = .found chunk rest) :
    ∃ i, R.get tree i = some chunk ∧ rest = .rbTree (R.removeAt tree i) ∧
      alignment ≠ 0 ∧ fits range alignment numPages chunk = true := by
  induction n with
  | zero => cases h
  | succ n ih =>
    rw [scanDown] at h
    cases hget : R.get tree n with
    | none =>
      rw [hget] at h
      cases h
    | some c =>
      simp only [hget] at h
      split_ifs at h with hbefore hzero hfits hafter
      · cases h
        exact ⟨n, hget, rfl, hzero, hfits⟩
      · exact ih h

theorem scanRange_found {range : PageRange}
    (h : scanRange (.rbTree tree) range alignment numPages = .found chunk rest) :
    ∃ i, R.get tree i = some chunk ∧ rest = .rbTree (R.removeAt tree i) ∧
      alignment ≠ 0 ∧ fits (some range) alignment numPages chunk = true :=
  scanDown_found h

theorem scanDesignated_found {lowEnd : ℕ}
    (h : scanDesignated (.rbTree tree) lowEnd alignment numPages = .found chunk rest) :
    ∃ i, R.get tree i = some chunk ∧ rest = .rbTree (R.removeAt tree i) ∧
      alignment ≠ 0 ∧ fits none alignment numPages chunk = true := by
  rw [scanDesignated] at h
  split at h <;> exact scanDown_found h

theorem le_lowestStart (range : Option PageRange) (alignment : ℕ) (chunk : Chunk) :
    chunk.start ≤ lowestStart range alignment chunk := by
  refine le_trans ?_ (le_alignUp _ _)
  cases range with
  | none => exact le_rfl
  | some r => exact le_max_left _ _

theorem end_le_of_fits (h : fits range alignment numPages chunk = true) :
    (newAllocation (lowestStart range alignment chunk) numPages).end_ ≤ chunk.end_ := by
  rw [fits, decide_eq_true_iff, chunkAdd_page4K] at h
  have hend : highestEnd range chunk ≤ chunk.end_ := by
    cases range with
    | none => exact le_refl _
    | some r => exact min_le_left _ _
  simp only [newAllocation, chunkAdd_page4K]
  omega

section

variable {covered : Prop} (h : CallSpec tree numPages covered exactly result)

include h

theorem CallSpec.mono {covered' exactly' : Prop} (hcov : covered' → covered)
    (hex : exactly' → exactly) : CallSpec tree numPages covered' exactly' result := by
  obtain ⟨tree', hlist, hs, ⟨startPage, chunk, hok, ⟨⟨X, e, htaken, hchain, hpos, hle, hc, he⟩,
    hstart, hmax⟩⟩ | hrefuse⟩ := h
  · exact ⟨tree', hlist, hs, .inl ⟨startPage, chunk, hok, ⟨⟨X, e, htaken, hchain, hpos, hle,
      fun h => hc (hcov h), fun h => he (hex h)⟩, hstart, fun h => hmax (hex h)⟩⟩⟩
  · exact ⟨tree', hlist, hs, .inr hrefuse⟩

theorem CallSpec.mapError {ε' : Type} (f : ε → ε') :
    CallSpec tree numPages covered exactly (result.1.mapError f, result.2) := by
  obtain ⟨tree', hlist, hs, ⟨startPage, chunk, hok, htakes⟩ | ⟨hno, hrefuse⟩⟩ := h
  · exact ⟨tree', hlist, hs, .inl ⟨startPage, chunk, by rw [hok]; rfl, htakes⟩⟩
  refine ⟨tree', hlist, hs, .inr ⟨fun p hp => ?_, hrefuse⟩⟩
  cases hr : result.1 with simp only [hr] at hp
  | ok q => exact hno q hr
  | err e | panic =>
    cases hp

end

theorem findAnyChunk_spec (hs : R.Sorted tree) (designatedLowEnd : Option ℕ) (numPages : ℕ)
    (withinRange : Option PageRange) (alignment : ℕ) :
    CallSpec tree numPages True
      (∀ start ∈ servedAnywhere (.rbTree tree) designatedLowEnd numPages withinRange alignment,
        start ≤ maxPageNumber)
      (findAnyChunk (.rbTree tree) designatedLowEnd numPages withinRange alignment) := by
  have hsorted : (StaticArrayRBTree.rbTree tree).Sorted := hs
  suffices hspec : CallSpec tree numPages True
      (∀ p, (findAnyChunk (.rbTree tree) designatedLowEnd numPages withinRange alignment).1 =
        .ok p → p.1.start ≤ maxPageNumber)
      (findAnyChunk (.rbTree tree) designatedLowEnd numPages withinRange alignment) by
    refine hspec.mono id fun h p hp => ?_
    obtain ⟨start, hstart, heq⟩ :=
      eq_newAllocation_of_served (findAnyChunk_served hsorted _ _ _ _) hp
    rw [heq]
    exact h start hstart
  -- both passes end with a chunk that fits, and then do the same
  have hfound : ∀ {range : Option PageRange} {chunk : Chunk} {rest : StaticArrayRBTree R},
      (∃ i, R.get tree i = some chunk ∧ rest = .rbTree (R.removeAt tree i) ∧
        alignment ≠ 0 ∧ fits range alignment numPages chunk = true) →
      CallSpec tree numPages True
        (∀ p, (adjustChosenChunk (lowestStart range alignment chunk) numPages chunk
          (.rbTree tree) chunk rest).1 = .ok p → p.1.start ≤ maxPageNumber)
        (adjustChosenChunk (lowestStart range alignment chunk) numPages chunk (.rbTree tree)
          chunk rest) := by
    rintro range chunk rest ⟨i, hget, rfl, -, hfits⟩
    rw [adjustChosenChunk_eq _ _ _ _ rfl]
    exact callSpec_chunk hs hget (le_lowestStart range alignment chunk) (end_le_of_fits hfits)
      fun h => h _ rfl
  cases designatedLowEnd with
  | none => exact callSpec_err hs _ _ _ (by simp)
  | some lowEnd => ?_
  simp only [findAnyChunk]
  split
  · exact callSpec_err hs _ _ _ (by simp)
  · exact hfound (scanRange_found ‹_›)
  · cases withinRange with
    | some range => exact callSpec_err hs _ _ _ (by simp)
    | none =>
      simp only
      split
      · exact callSpec_err hs _ _ _ (by simp)
      · exact hfound (scanDesignated_found ‹_›)
      · exact callSpec_err hs _ _ _ (by simp)

/-- The condition on a request under which it gets only pages that were free. -/
def RequestCovered (list : StaticArrayRBTree R) (numPages : ℕ) : AllocationRequest → Prop
  | .atVirtualAddress vaddr => RunMeets (· ≤ ·) list (containingAddress vaddr) numPages
  | _ => True

/-- The condition under which, in addition, no page is lost. The first half is load-bearing: it keeps
the remainder, which is computed from a copy of the first chunk, from being too short. The second
excludes an alignment that leads out of the address space. -/
def RequestExact (list : StaticArrayRBTree R) (designatedLowEnd : Option ℕ) (numPages : ℕ)
    (request : AllocationRequest) : Prop :=
  (match request with
    | .atVirtualAddress vaddr => RunMeets (· = ·) list (containingAddress vaddr) numPages
    | _ => True) ∧
  ∀ start ∈ servedAt list designatedLowEnd request numPages, start ≤ maxPageNumber

theorem allocatePagesDeferred_spec (hs : R.Sorted tree) (designatedLowEnd : Option ℕ)
    (request : AllocationRequest) (numPages : ℕ) :
    CallSpec tree numPages (RequestCovered (.rbTree tree) numPages request)
      (RequestExact (.rbTree tree) designatedLowEnd numPages request)
      (allocatePagesDeferred (.rbTree tree) designatedLowEnd request numPages) := by
  by_cases hzero : numPages = 0
  · simp only [allocatePagesDeferred, if_pos hzero]
    exact callSpec_err hs _ _ _ (by simp)
  simp only [RequestExact, servedAt, allocatePagesDeferred, if_neg hzero]
  cases request with
  | atVirtualAddress vaddr =>
    exact ((findSpecificChunk_spec hs (containingAddress_le vaddr) numPages).mono (fun h => h)
      fun h => h.1).mapError _
  | alignedTo alignment =>
    exact ((findAnyChunk_spec hs designatedLowEnd numPages none alignment).mono (fun h => h)
      fun h => h.2).mapError _
  | withinRange range =>
    exact ((findAnyChunk_spec hs designatedLowEnd numPages (some range) 1).mono (fun h => h)
      fun h => h.2).mapError _
  | any =>
    exact ((findAnyChunk_spec hs designatedLowEnd numPages none 1).mono (fun h => h)
      fun h => h.2).mapError _

/-! ### Giving pages back -/

/-- Pages `f` go back to a list: as a chunk of their own, or joined to the next or the previous
chunk. -/
def Joins (f : PageRange) (l l' : List Chunk) : Prop :=
  Exchanged l l' [] [f] ∨
    (∃ b, Exchanged l l' [b] [⟨f.start, b.end_⟩] ∧ b.start = chunkAdd .page4K f.end_ 1) ∨
    ∃ a, Exchanged l l' [a] [⟨a.start, f.end_⟩] ∧ f.start = chunkAdd .page4K a.end_ 1

section

variable (hs : R.Sorted tree)

include hs

theorem insert_joins (f : PageRange) :
    R.Sorted (R.insert tree f) ∧ Joins f (R.elems tree) (R.elems (R.insert tree f)) :=
  ⟨R.insert_sorted tree f hs, .inl (of_perm_cons (R.insert_perm tree f hs))⟩

theorem appendOrInsert_joins (i : ℕ) (f : PageRange) :
    R.Sorted (appendOrInsert tree i f) ∧
      Joins f (R.elems tree) (R.elems (appendOrInsert tree i f)) := by
  rw [appendOrInsert]
  split_ifs with hzero
  · exact insert_joins hs f
  cases hget : R.get tree (i - 1) with
  | none => exact insert_joins hs f
  | some prev => ?_
  by_cases hadj : chunkAdd .page4K prev.end_ 1 = f.start
  · simp only [hadj, if_true]
    refine ⟨?_, .inr (.inr ⟨prev, ?_, hadj.symm⟩)⟩
    · rw [OrderedTree.Sorted, R.elems_replaceWith]
      refine OrderedTree.KeySorted.set hs (fun j b hj hb => ?_) fun j b hj hb => ?_
      · show b.start ≤ prev.start
        exact hs.key_le hj hb hget
      · show prev.start ≤ b.start
        exact hs.key_le hj hget hb
    · rw [R.elems_replaceWith]
      exact set hget _
  · simp only [hadj]
    exact insert_joins hs f

theorem dropPages_joins {f : PageRange} (hf : f.start ≤ f.end_) :
    ∃ tree', dropPages .page4K (.rbTree tree) f = .rbTree tree' ∧ R.Sorted tree' ∧
      Joins f (R.elems tree) (R.elems tree') := by
  have hsize : f.sizeInChunks .page4K ≠ 0 := by
    rw [Ne, sizeInChunks_eq_zero_iff]
    omega
  have hprev := appendOrInsert_joins hs (R.lowerBound tree f.start) f
  simp only [dropPages, if_neg hsize, into4K_page4K]
  cases hget : R.get tree (R.lowerBound tree f.start) with
  | none => exact ⟨_, rfl, hprev⟩
  | some next => ?_
  by_cases hadj : chunkAdd .page4K f.end_ 1 = next.start
  · simp only [hadj]
    refine ⟨_, rfl, ?_, .inr (.inl ⟨next, ?_, hadj.symm⟩)⟩
    · rw [OrderedTree.Sorted, R.elems_replaceWith]
      have hnext : f.start ≤ next.start := by
        by_contra hlt
        exact lt_irrefl _ ((R.lowerBound_lt tree f.start _ next hs hget).mpr
          (not_le.mp hlt))
      refine OrderedTree.KeySorted.set hs (fun j b hj hb => ?_) fun j b hj hb => ?_
      · exact le_of_lt ((R.lowerBound_lt tree f.start j b hs hb).mp hj)
      · exact le_trans hnext (hs.key_le hj hget hb)
    · rw [R.elems_replaceWith]
      exact set hget _
  · simp only [hadj]
    exact ⟨_, rfl, hprev⟩

/-- A deferred chunk goes back as it is, unless it has no page. -/
theorem insertDeferred_spec (c : Chunk) :
    ∃ tree', insertDeferred (.rbTree tree) c = .rbTree tree' ∧ R.Sorted tree' ∧
      (Exchanged (R.elems tree) (R.elems tree') [] [c] ∨ c.end_ < c.start ∧ tree' = tree) := by
  rw [insertDeferred]
  split_ifs with hsize
  · exact ⟨_, rfl, R.insert_sorted tree c hs,
      .inl (of_perm_cons (R.insert_perm tree c hs))⟩
  · refine ⟨tree, rfl, hs, .inr ⟨?_, rfl⟩⟩
    rw [← sizeInChunks_eq_zero_iff]
    omega

end

/-- The chunks an action still holds. -/
def DeferredAllocAction.held (action : DeferredAllocAction) : List Chunk :=
  [action.free1, action.free2]

theorem dropAction_spec (hs : R.Sorted tree) (action : DeferredAllocAction) :
    ∃ tree', dropAction (.rbTree tree) action = .rbTree tree' ∧ R.Sorted tree' ∧
      (∀ n, cover (R.elems tree') n = cover (R.elems tree) n + cover action.held n) ∧
      ∀ c ∈ R.elems tree', c ∈ R.elems tree ∨ c ∈ action.held ∧ c.start ≤ c.end_ := by
  -- one insertion at a time; a chunk without pages owns nothing
  have hone : ∀ {tree : R.Tree} (c : Chunk), R.Sorted tree →
      ∃ tree', insertDeferred (.rbTree tree) c = .rbTree tree' ∧ R.Sorted tree' ∧
        (∀ n, cover (R.elems tree') n = cover (R.elems tree) n + cover [c] n) ∧
        ∀ c' ∈ R.elems tree', c' ∈ R.elems tree ∨ c' = c ∧ c.start ≤ c.end_ := by
    intro tree c hs
    by_cases hne : c.start ≤ c.end_
    · obtain ⟨tree', heq, hs', hexch | ⟨hempty, -⟩⟩ := insertDeferred_spec hs c
      · refine ⟨tree', heq, hs', hexch.cover_add, fun c' hc' => ?_⟩
        rcases hexch.mem_or hc' with hc' | hc'
        · exact .inl hc'
        · exact .inr ⟨mem_singleton.mp hc', hne⟩
      · omega
    · have hsize : ¬ 0 < c.sizeInChunks .page4K := by
        rw [not_lt, le_zero, sizeInChunks_eq_zero_iff]
        omega
      refine ⟨tree, by rw [insertDeferred, if_neg hsize], hs, fun n => ?_, fun c' => .inl⟩
      rw [cover_eq_zero_of_lt (by omega)]
      rfl
  obtain ⟨tree₁, heq₁, hs₁, hcover₁, hmem₁⟩ := hone action.free1 hs
  obtain ⟨tree₂, heq₂, hs₂, hcover₂, hmem₂⟩ := hone action.free2 hs₁
  refine ⟨tree₂, by rw [dropAction, heq₁, heq₂], hs₂, fun n => ?_, fun c hc => ?_⟩
  · rw [hcover₂, hcover₁, held, cover_cons_eq_add action.free1 [action.free2]]
    omega
  · rcases hmem₂ c hc with hc | ⟨rfl, hne⟩
    · rcases hmem₁ c hc with hc | ⟨rfl, hne⟩
      · exact .inl hc
      · exact .inr ⟨mem_cons_self, hne⟩
    · exact .inr ⟨mem_cons_of_mem _ mem_cons_self, hne⟩

end List

section Ranges

/-! ### Owners after joining and splitting -/

variable {l l' : List Chunk} {f : PageRange}

theorem Joins.cover_le (h : Joins f l l') (n : ℕ) : cover l' n ≤ cover l n + cover [f] n := by
  rcases h with h | ⟨b, h, hb⟩ | ⟨a, h, ha⟩
  · exact le_of_eq (h.cover_add n)
  · have hacc := h.cover_add n
    have hjoin := cover_join_le (a := f) (b := b) (by rw [hb, chunkAdd_page4K]; omega) n
    omega
  · have hacc := h.cover_add n
    have hjoin := cover_join_le (a := a) (b := f) (by rw [ha, chunkAdd_page4K]; omega) n
    omega

theorem Joins.start_mem (h : Joins f l l') :
    ∀ c ∈ l', c.start = f.start ∨ ∃ c' ∈ l, c.start = c'.start := by
  have hl : ∀ c ∈ l, c.start = f.start ∨ ∃ c' ∈ l, c.start = c'.start :=
    fun c hc => Or.inr ⟨c, hc, rfl⟩
  rcases h with h | ⟨b, h, -⟩ | ⟨a, h, -⟩
  · exact h.forall_mem hl (forall_mem_singleton.mpr (.inl rfl))
  · exact h.forall_mem hl (forall_mem_singleton.mpr (.inl rfl))
  · exact h.forall_mem hl (forall_mem_singleton.mpr (.inr ⟨a, h.mem_left mem_cons_self, rfl⟩))

/-- Nothing is lost by joining proper ranges that are not both at the last page. -/
theorem Joins.cover_eq (h : Joins f l l') (hf : Proper f) (hl : ∀ c ∈ l, Proper c)
    (hone : cover l maxPageNumber + cover [f] maxPageNumber ≤ 1) :
    (∀ n, cover l' n = cover l n + cover [f] n) ∧ ∀ c ∈ l', Proper c := by
  rcases h with h | ⟨b, h, hb⟩ | ⟨a, h, ha⟩
  · exact ⟨h.cover_add, h.forall_mem hl (forall_mem_singleton.mpr hf)⟩
  · have hmem : b ∈ l := h.mem_left mem_cons_self
    have hlast : cover [f] maxPageNumber + cover [b] maxPageNumber ≤ 1 := by
      have := cover_le_of_mem hmem maxPageNumber
      omega
    refine ⟨fun n => ?_,
      h.forall_mem hl (forall_mem_singleton.mpr (hf.join (hl b hmem) hb))⟩
    have hacc := h.cover_add n
    have hjoin := cover_join hf (hl b hmem) hb hlast n
    omega
  · have hmem : a ∈ l := h.mem_left mem_cons_self
    have hlast : cover [a] maxPageNumber + cover [f] maxPageNumber ≤ 1 := by
      have := cover_le_of_mem hmem maxPageNumber
      omega
    refine ⟨fun n => ?_,
      h.forall_mem hl (forall_mem_singleton.mpr ((hl a hmem).join hf ha))⟩
    have hacc := h.cover_add n
    have hjoin := cover_join (hl a hmem) hf ha hlast n
    omega

namespace AllocatedPages

variable {atPage : ℕ} {first second self : PageRange}

theorem merge_eq_some {ap merged : PageRange} (h : merge .page4K self ap = some merged) :
    merged = ⟨self.start, ap.end_⟩ ∧ ap.start = chunkAdd .page4K self.end_ 1 := by
  rw [merge] at h
  split_ifs at h with hadj
  cases h
  exact ⟨rfl, not_not.mp hadj⟩

variable (h : split .page4K self atPage = some (first, second))

include h

/-- The parts of a split own together what the whole owned. -/
theorem cover_split (n : ℕ) : cover [first] n + cover [second] n = cover [self] n := by
  simp only [split, chunkSub_page4K] at h
  split_ifs at h with h₁ h₂ h₃ <;> cases h <;>
    simp only [cover_singleton, mem_iff, empty] <;>
    split_ifs <;> omega

theorem split_end_le (hself : self.end_ ≤ maxPageNumber) :
    first.end_ ≤ maxPageNumber ∧ second.end_ ≤ maxPageNumber := by
  simp only [split] at h
  split_ifs at h with h₁ h₂ h₃ <;> cases h <;> simp only [empty] <;> omega

theorem split_proper (hself : Proper self) (hmax : atPage ≤ maxPageNumber) :
    Proper first ∧ Proper second := by
  have hempty : Proper .empty := by
    refine ⟨zero_le _, .inr ⟨rfl, ?_⟩⟩
    show 1 < maxPageNumber
    decide
  obtain ⟨hend, hshape⟩ := hself
  simp only [split, chunkAdd_page4K, chunkSub_page4K] at h
  split_ifs at h with h₁ h₂ h₃ <;> cases h
  · exact ⟨hempty, hend, .inl h₁.2⟩
  · exact ⟨⟨hend, hshape⟩, hempty⟩
  · refine ⟨⟨?_, ?_⟩, hend, ?_⟩ <;> simp only <;> omega

end AllocatedPages

end Ranges

end Maios.PageAllocator
