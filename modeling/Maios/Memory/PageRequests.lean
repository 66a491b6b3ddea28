import Maios.Memory.PageAllocator

/-!
# The page at which a request is served

The searches of the page allocator go through the free chunks in a fixed order and take the first one
that fits. So the page at which a request is served can be read off the free list: `servedAt` says
which it is, and nothing in it depends on what a call returns or leaves behind. Conditions on requests
are stated with it.

The order is that of the slots while the list is an array, and from the last chunk down once it is a
tree. The passes differ in which chunks they look at. A pass through a range leaves out the chunks
that begin behind the range, and ends with the last chunk that does not begin in it; that chunk may
reach into the range. The passes through the designated regions look at the chunks that begin there.

On the tree this rests on the order of its chunks: a pass that stops at a chunk has not left out one
that it would have looked at.

## Main results

* `scanDown_eq`: a pass through the tree is a pass through the list of its chunks.
* `findAnyChunk_served`, `findSpecificChunk_served`: the two searches.
* `allocatePagesDeferred_served`: the pages that a request gets are those from `servedAt` on.
-/

namespace Maios.PageAllocator

open List

section Requests

variable {R : OrderedTree Chunk ChunkRange.start} {tree : R.Tree} {list : StaticArrayRBTree R}

/-! ### Where a request is served -/

/-- The chunks in the order in which a search goes through them. -/
def searchOrder : StaticArrayRBTree R → List Chunk
  | .array arr => arr.slots.reduceOption
  | .rbTree tree => (R.elems tree).reverse

/-- The chunks that the pass through a range looks at: on the tree, those that begin in the range, and
then the last one that begins at its first page or before. -/
def inRange (list : StaticArrayRBTree R) (range : PageRange) : List Chunk :=
  match list with
  | .array _ => searchOrder list
  | .rbTree _ =>
    let chunks := (searchOrder list).filter fun c => decide (c.start ≤ range.end_)
    (chunks.filter fun c => decide (range.start < c.start)) ++
      (chunks.find? fun c => decide (c.start ≤ range.start)).toList

/-- The chunks that the passes through the designated regions look at, the lower region first. -/
def inDesignated (list : StaticArrayRBTree R) (lowEnd : ℕ) : List Chunk :=
  match list with
  | .array _ => searchOrder list
  | .rbTree _ =>
    ((searchOrder list).filter fun c => decide (c.start ≤ lowEnd)) ++
      (searchOrder list).filter fun c => decide (designatedPagesHighStart ≤ c.start)

/-- The range that is searched when none is given: between the designated regions. -/
def fullRange (lowEnd : ℕ) : PageRange :=
  ⟨chunkAdd .page4K lowEnd 1, chunkSub .page4K designatedPagesHighStart 1⟩

/-- The page at which `find_any_chunk` serves a request: the lowest aligned one in the first chunk
that fits, in the range, or in the designated regions if no range is given. -/
def servedAnywhere (list : StaticArrayRBTree R) (designatedLowEnd : Option ℕ) (numPages : ℕ)
    (withinRange : Option PageRange) (alignment : ℕ) : Option ℕ :=
  match designatedLowEnd with
  | none => none
  | some lowEnd =>
    let range := withinRange.getD (fullRange lowEnd)
    if alignment = 0 then none
    else
      match (inRange list range).find? (fits (some range) alignment numPages), withinRange with
      | some c, _ => some (lowestStart (some range) alignment c)
      | none, some _ => none
      | none, none => ((inDesignated list lowEnd).find? (fits none alignment numPages)).map
          (lowestStart none alignment)

/-- The last page of the contiguous run of chunks that begins with the one at position `i`. -/
def runEnd (tree : R.Tree) (i : ℕ) (chunk : Chunk) : ℕ :=
  (mergeContiguous tree (i + 1) chunk.end_ (R.elems tree).length).2

/-- A request at a page is served if a chunk of the array holds its pages; on the tree, if the last
chunk that begins at the page or before holds them, or other chunks follow it contiguously, however
far these reach. -/
def servedThere (list : StaticArrayRBTree R) (requestedPage numPages : ℕ) : Bool :=
  let requestedEndPage := chunkAdd .page4K requestedPage (numPages - 1)
  match list with
  | .array arr => arr.slots.reduceOption.any fun c =>
      decide (c.start ≤ requestedPage) && decide (requestedEndPage ≤ c.end_)
  | .rbTree tree =>
    match R.upperBound tree requestedPage with
    | none => false
    | some i =>
      match R.get tree i with
      | none => false
      | some c => decide (c.start ≤ requestedPage) &&
          (decide (requestedEndPage ≤ c.end_) || decide (c.end_ < runEnd tree i c))

/-- The page at which a request is served, if it is. -/
def servedAt (list : StaticArrayRBTree R) (designatedLowEnd : Option ℕ)
    (request : AllocationRequest) (numPages : ℕ) : Option ℕ :=
  if numPages = 0 then none
  else
    match request with
    | .atVirtualAddress vaddr =>
      if servedThere list (containingAddress vaddr) numPages then some (containingAddress vaddr)
      else none
    | .alignedTo alignment => servedAnywhere list designatedLowEnd numPages none alignment
    | .withinRange range => servedAnywhere list designatedLowEnd numPages (some range) 1
    | .any => servedAnywhere list designatedLowEnd numPages none 1

/-! ### Cutting an allocation out of a chunk -/

/-- The pages and the remainders that `adjust_chosen_chunk` makes of its copy of a chunk. -/
def cut (startPage numPages : ℕ) (chunk : Chunk) : PageRange × DeferredAllocAction :=
  (newAllocation startPage numPages, .new (before startPage chunk)
    (after (newAllocation startPage numPages).end_ chunk))

/-- The assertions of `adjust_chosen_chunk` always hold. -/
theorem adjustChosenChunk_eq (startPage numPages : ℕ) {chunk removed : Chunk}
    (list rest : StaticArrayRBTree R) (h : chunk.start = removed.start) :
    adjustChosenChunk startPage numPages chunk list removed rest =
      (.ok (cut startPage numPages chunk), rest) := by
  have hbefore : (before startPage chunk).all (fun b =>
      !(newAllocation startPage numPages).contains b.end_ &&
        !b.contains (newAllocation startPage numPages).start) = true := by
    rw [before]
    split_ifs with hzero
    · rfl
    · simp [newAllocation, ChunkRange.contains, ChunkRange.mem_iff]
      omega
  have hafter : (after (newAllocation startPage numPages).end_ chunk).all (fun a =>
      !(newAllocation startPage numPages).contains a.start &&
        !a.contains (newAllocation startPage numPages).end_) = true := by
    rw [after]
    split_ifs with hmax
    · rfl
    · simp [newAllocation, ChunkRange.contains, ChunkRange.mem_iff] at hmax ⊢
      omega
  simp only [adjustChosenChunk, hbefore, hafter, Bool.and_self, if_true, if_pos h, cut]

/-! ### Passes -/

/-- What a pass through chunks in this order finds. -/
def scanList (p stopBefore stopAfter : Chunk → Bool) : List Chunk → Option Chunk
  | [] => none
  | c :: chunks =>
    if stopBefore c then none
    else if p c then some c
    else if stopAfter c then none
    else scanList p stopBefore stopAfter chunks

/-- The chunk that a pass ends with. -/
def Scan.chunk? : Scan R → Option Chunk
  | .found chunk _ => some chunk
  | _ => none

/-- A pass through the tree is a pass through the list of its chunks. -/
theorem scanDown_eq (tree : R.Tree) (range : Option PageRange) {alignment : ℕ}
    (halign : alignment ≠ 0) (numPages : ℕ) (stopBefore stopAfter : Chunk → Bool) {n : ℕ}
    (hn : n ≤ (R.elems tree).length) :
    (scanDown tree range alignment numPages stopBefore stopAfter n).chunk? =
      scanList (fits range alignment numPages) stopBefore stopAfter ((R.elems tree).take n).reverse := by
  induction n with
  | zero => rfl
  | succ n ih =>
    have hlt : n < (R.elems tree).length := hn
    have hget : R.get tree n = some (R.elems tree)[n] := getElem?_eq_getElem hlt
    rw [scanDown, hget, take_add_one, getElem?_eq_getElem hlt, Option.toList_some, reverse_append,
      reverse_singleton, singleton_append, scanList]
    dsimp only
    rw [if_neg halign]
    split_ifs
    · rfl
    · rfl
    · rfl
    · exact ih (Nat.le_of_succ_le hn)

section Sorted

variable {p : Chunk → Bool} {l : List Chunk}

theorem scanList_all : scanList p (fun _ => false) (fun _ => false) l = l.find? p := by
  induction l with
  | nil => rfl
  | cons c l ih =>
    rw [scanList, find?_cons, ih]
    cases hp : p c <;> simp

variable (hl : l.Pairwise fun a b => b.start ≤ a.start)

include hl

/-- Downwards, the pass that stops behind the first page of a range. -/
theorem scanList_inRange (page : ℕ) :
    scanList p (fun _ => false) (fun c => decide (c.start ≤ page)) l =
      ((l.filter fun c => decide (page < c.start)) ++
        (l.find? fun c => decide (c.start ≤ page)).toList).find? p := by
  induction l with
  | nil => rfl
  | cons c l ih =>
    obtain ⟨hhead, htail⟩ := pairwise_cons.mp hl
    rw [scanList]
    by_cases hle : c.start ≤ page
    · -- no chunk further down begins in the range
      have hnil : (l.filter fun c => decide (page < c.start)) = [] :=
        filter_eq_nil_iff.mpr fun d hd => by
          have hbelow := hhead d hd
          simp only [decide_eq_true_eq]
          omega
      rw [filter_cons_of_neg (by simpa using hle), hnil, find?_cons_of_pos (by simpa using hle),
        nil_append, Option.toList_some, find?_singleton]
      simp [hle]
    · rw [filter_cons_of_pos (by simpa using hle), find?_cons_of_neg (by simpa using hle),
        cons_append, find?_cons, ← ih htail]
      cases hp : p c <;> simp [hle]

/-- Downwards, the pass that stops before the first chunk below a page. -/
theorem scanList_from (page : ℕ) :
    scanList p (fun c => decide (c.start < page)) (fun _ => false) l =
      (l.filter fun c => decide (page ≤ c.start)).find? p := by
  induction l with
  | nil => rfl
  | cons c l ih =>
    obtain ⟨hhead, htail⟩ := pairwise_cons.mp hl
    rw [scanList]
    by_cases hlt : c.start < page
    · have hnil : (l.filter fun c => decide (page ≤ c.start)) = [] :=
        filter_eq_nil_iff.mpr fun d hd => by
          have hbelow := hhead d hd
          simp only [decide_eq_true_eq]
          omega
      rw [if_pos (decide_eq_true hlt), filter_cons_of_neg (by simpa using hlt), hnil, find?_nil]
    · rw [if_neg (by simpa using hlt), filter_cons_of_pos (by simpa using hlt), find?_cons,
        ← ih htail]
      cases hp : p c <;> simp

end Sorted

theorem reverse_elems_pairwise (hs : R.Sorted tree) :
    (R.elems tree).reverse.Pairwise fun a b => b.start ≤ a.start :=
  pairwise_reverse.mpr hs

/-- The chunks that begin at a page or before, by the position of the last of them. -/
theorem take_countUpTo (hs : R.Sorted tree) (page : ℕ) :
    countUpTo tree page ≤ (R.elems tree).length ∧
      (R.elems tree).take (countUpTo tree page) =
        (R.elems tree).filter fun c => decide (c.start ≤ page) := by
  rw [countUpTo]
  cases hub : R.upperBound tree page with
  | none =>
    have habove := R.upperBound_eq_none tree page hs hub
    refine ⟨Nat.zero_le _, (filter_eq_nil_iff.mpr fun c hc => ?_).symm⟩
    have hlt : page < c.start := habove c hc
    simpa using hlt
  | some i =>
    obtain ⟨c, hget, hle, habove⟩ := R.upperBound_eq_some tree page i hs hub
    obtain ⟨hi, rfl⟩ := List.getElem?_eq_some_iff.mp hget
    refine ⟨hi, ?_⟩
    -- what is taken begins at the page or before, and what is dropped does not
    conv_rhs => rw [← take_append_drop (i + 1) (R.elems tree)]
    have htake : ((R.elems tree).take (i + 1)).filter (fun c => decide (c.start ≤ page)) =
        (R.elems tree).take (i + 1) := by
      refine filter_eq_self.mpr fun d hd => decide_eq_true ?_
      obtain ⟨j, hj, rfl⟩ := mem_take_iff_getElem.mp hd
      have hji : j ≤ i := Nat.lt_succ_iff.mp (lt_of_lt_of_le hj (min_le_left _ _))
      rcases hji.lt_or_eq with hlt | rfl
      · exact (pairwise_iff_getElem.mp hs j i _ hi hlt).trans hle
      · exact hle
    have hdrop : ((R.elems tree).drop (i + 1)).filter (fun c => decide (c.start ≤ page)) = [] := by
      refine filter_eq_nil_iff.mpr fun d hd => ?_
      obtain ⟨j, hj, rfl⟩ := mem_drop_iff_getElem.mp hd
      have hlt := habove (i + 1 + j) _ (by omega) (getElem?_eq_getElem (by omega))
      simpa using hlt
    rw [filter_append, htake, hdrop, append_nil]

/-! ### The array -/

theorem takeSlot_fst {p : Chunk → Bool} (slots : List (Option Chunk)) :
    (takeSlot p slots).map Prod.fst = slots.reduceOption.find? p := by
  induction slots with
  | nil => rfl
  | cons slot slots ih =>
    cases slot with
    | none =>
      rw [takeSlot, reduceOption_cons_of_none, ← ih]
      cases takeSlot p slots <;> rfl
    | some c =>
      rw [takeSlot, reduceOption_cons_of_some, find?_cons]
      cases hp : p c with
      | true => simp
      | false =>
        rw [if_neg Bool.false_ne_true, ← ih]
        cases takeSlot p slots <;> rfl

theorem take_fst (arr : StaticArray Chunk) (p : Chunk → Bool) :
    (arr.take p).map Prod.fst = arr.slots.reduceOption.find? p := by
  rw [← takeSlot_fst, StaticArray.take]
  split
  · next h =>
    rw [h]
    rfl
  · next h =>
    conv_rhs => rw [h]
    rfl

theorem take_isSome (arr : StaticArray Chunk) (p : Chunk → Bool) :
    (arr.take p).isSome = arr.slots.reduceOption.any p := by
  rw [← Option.isSome_map (f := Prod.fst), take_fst, Bool.eq_iff_iff, find?_isSome, any_eq_true]

theorem scanArray_chunk? (arr : StaticArray Chunk) (range : Option PageRange) {alignment : ℕ}
    (halign : alignment ≠ 0) (numPages : ℕ) :
    (scanArray (R := R) arr range alignment numPages).chunk? =
      arr.slots.reduceOption.find? (fits range alignment numPages) := by
  rw [scanArray, if_neg halign, ← take_fst]
  cases arr.take (fits range alignment numPages) <;> rfl

section Zero

variable {range : Option PageRange} {alignment numPages : ℕ} {stopBefore stopAfter : Chunk → Bool}

/-- With an alignment a pass does not panic, and without one it finds nothing. -/
theorem scanDown_zero (n : ℕ) :
    (scanDown tree range 0 numPages stopBefore stopAfter n).chunk? = none := by
  cases n with
  | zero => rfl
  | succ n =>
    rw [scanDown]
    cases R.get tree n with
    | none => rfl
    | some c =>
      dsimp only
      split_ifs <;> first | rfl | contradiction

theorem scanDown_ne_panicked (halign : alignment ≠ 0) (n : ℕ) :
    scanDown tree range alignment numPages stopBefore stopAfter n ≠ .panicked := by
  induction n with
  | zero => exact nofun
  | succ n ih =>
    rw [scanDown]
    cases R.get tree n with
    | none => exact nofun
    | some c =>
      dsimp only
      rw [if_neg halign]
      split_ifs
      · exact nofun
      · exact nofun
      · exact nofun
      · exact ih

theorem scanArray_zero (arr : StaticArray Chunk) :
    (scanArray (R := R) arr range 0 numPages).chunk? = none := by
  rw [scanArray, if_pos rfl]
  split_ifs <;> rfl

theorem scanArray_ne_panicked (arr : StaticArray Chunk) (halign : alignment ≠ 0) :
    scanArray (R := R) arr range alignment numPages ≠ .panicked := by
  rw [scanArray, if_neg halign]
  cases arr.take (fits range alignment numPages) <;> exact nofun

theorem scanRange_zero (list : StaticArrayRBTree R) (range : PageRange) (numPages : ℕ) :
    (scanRange list range 0 numPages).chunk? = none := by
  cases list with
  | array arr => exact scanArray_zero arr
  | rbTree tree => exact scanDown_zero _

theorem scanRange_ne_panicked (list : StaticArrayRBTree R) (range : PageRange)
    (halign : alignment ≠ 0) : scanRange list range alignment numPages ≠ .panicked := by
  cases list with
  | array arr => exact scanArray_ne_panicked arr halign
  | rbTree tree => exact scanDown_ne_panicked halign _

theorem scanDesignated_zero (list : StaticArrayRBTree R) (lowEnd numPages : ℕ) :
    (scanDesignated list lowEnd 0 numPages).chunk? = none := by
  cases list with
  | array arr => exact scanArray_zero arr
  | rbTree tree =>
    rw [scanDesignated]
    split
    · exact scanDown_zero _
    · exact scanDown_zero _

theorem scanDesignated_ne_panicked (list : StaticArrayRBTree R) (lowEnd : ℕ)
    (halign : alignment ≠ 0) : scanDesignated list lowEnd alignment numPages ≠ .panicked := by
  cases list with
  | array arr => exact scanArray_ne_panicked arr halign
  | rbTree tree =>
    rw [scanDesignated]
    split
    · exact scanDown_ne_panicked halign _
    · exact scanDown_ne_panicked halign _

end Zero

/-! ### The searches -/

theorem scanRange_chunk? (hs : list.Sorted) (range : PageRange) {alignment : ℕ}
    (halign : alignment ≠ 0) (numPages : ℕ) :
    (scanRange list range alignment numPages).chunk? =
      (inRange list range).find? (fits (some range) alignment numPages) := by
  cases list with
  | array arr => exact scanArray_chunk? arr (some range) halign numPages
  | rbTree tree =>
    obtain ⟨hle, htake⟩ := take_countUpTo hs range.end_
    rw [scanRange, scanDown_eq _ _ halign _ _ _ hle, htake, ← filter_reverse,
      scanList_inRange ((reverse_elems_pairwise hs).filter _)]
    rfl

theorem scanDesignated_chunk? (hs : list.Sorted) (lowEnd : ℕ) {alignment : ℕ}
    (halign : alignment ≠ 0) (numPages : ℕ) :
    (scanDesignated list lowEnd alignment numPages).chunk? =
      (inDesignated list lowEnd).find? (fits none alignment numPages) := by
  cases list with
  | array arr => exact scanArray_chunk? arr none halign numPages
  | rbTree tree =>
    obtain ⟨hle, htake⟩ := take_countUpTo hs lowEnd
    have hlow := scanDown_eq tree none halign numPages (fun _ => false) (fun _ => false) hle
    rw [htake, ← filter_reverse, scanList_all] at hlow
    have hhigh := scanDown_eq tree none halign numPages
      (fun c => decide (c.start < designatedPagesHighStart)) (fun _ => false) le_rfl
    rw [take_length, scanList_from (reverse_elems_pairwise hs)] at hhigh
    rw [inDesignated]
    dsimp only [searchOrder]
    rw [find?_append, ← hlow, ← hhigh, scanDesignated]
    cases hscan : scanDown tree none alignment numPages (fun _ => false) (fun _ => false)
      (countUpTo tree lowEnd) with
    | panicked => exact absurd hscan (scanDown_ne_panicked halign _)
    | exhausted | found chunk rest => rfl

/-- `find_any_chunk` serves a request where it should. -/
theorem findAnyChunk_served (hs : list.Sorted) (designatedLowEnd : Option ℕ) (numPages : ℕ)
    (withinRange : Option PageRange) (alignment : ℕ) :
    (findAnyChunk list designatedLowEnd numPages withinRange alignment).1.toOption.map Prod.fst =
      (servedAnywhere list designatedLowEnd numPages withinRange alignment).map
        (newAllocation · numPages) := by
  cases designatedLowEnd with
  | none => rfl
  | some lowEnd => ?_
  have hrange (halign : alignment ≠ 0) :=
    scanRange_chunk? hs (withinRange.getD (fullRange lowEnd)) halign numPages
  have hdesignated (halign : alignment ≠ 0) := scanDesignated_chunk? hs lowEnd halign numPages
  unfold findAnyChunk servedAnywhere
  dsimp only [fullRange] at hrange ⊢
  split_ifs with halign
  · -- no pass finds anything
    subst halign
    have hnone := scanRange_zero list (withinRange.getD (fullRange lowEnd)) numPages
    have hnone' := scanDesignated_zero list lowEnd numPages
    dsimp only [fullRange] at hnone
    split
    · rfl
    · next h => rw [h] at hnone; cases hnone
    · cases withinRange with
      | some range => rfl
      | none =>
        dsimp only
        split
        · rfl
        · next h => rw [h] at hnone'; cases hnone'
        · rfl
  · rw [← hrange halign, ← hdesignated halign]
    split
    · next h => exact absurd h (scanRange_ne_panicked list _ halign)
    · next h =>
      rw [adjustChosenChunk_eq _ _ _ _ rfl, h]
      rfl
    · next h =>
      rw [h]
      cases withinRange with
      | some range => rfl
      | none =>
        dsimp only [Scan.chunk?]
        split
        · next h => exact absurd h (scanDesignated_ne_panicked list lowEnd halign)
        · next h =>
          rw [adjustChosenChunk_eq _ _ _ _ rfl, h]
          rfl
        · next h =>
          rw [h]
          rfl

/-- `find_specific_chunk` serves a request if it should, and at its page. -/
theorem findSpecificChunk_served (list : StaticArrayRBTree R) (requestedPage numPages : ℕ) :
    (findSpecificChunk list requestedPage numPages).1.toOption.map Prod.fst =
      if servedThere list requestedPage numPages then some (newAllocation requestedPage numPages)
      else none := by
  cases list with
  | array arr =>
    rw [show servedThere (R := R) (.array arr) requestedPage numPages = _ from
      (take_isSome arr _).symm]
    unfold findSpecificChunk
    dsimp only
    cases arr.take _ with
    | none => rfl
    | some r =>
      dsimp only
      rw [adjustChosenChunk_eq _ _ _ _ rfl]
      rfl
  | rbTree tree =>
    -- `servedThere` is evaluated with the search, one branch at a time
    unfold findSpecificChunk
    dsimp only
    cases hbound : R.upperBound tree requestedPage with
    | none =>
      rw [show servedThere (.rbTree tree) requestedPage numPages = false by
        simp only [servedThere, hbound]]
      rfl
    | some i => ?_
    dsimp only
    cases hget : R.get tree i with
    | none =>
      rw [show servedThere (.rbTree tree) requestedPage numPages = false by
        simp only [servedThere, hbound, hget]]
      rfl
    | some c => ?_
    have hthere : servedThere (.rbTree tree) requestedPage numPages =
        (decide (c.start ≤ requestedPage) &&
          (decide (chunkAdd .page4K requestedPage (numPages - 1) ≤ c.end_) ||
            decide (c.end_ < runEnd tree i c))) := by
      simp only [servedThere, hbound, hget]
    rw [hthere]
    dsimp only
    by_cases hstart : c.start ≤ requestedPage
    · by_cases hend : chunkAdd .page4K requestedPage (numPages - 1) ≤ c.end_
      · rw [if_pos hstart, if_pos hend, adjustChosenChunk_eq _ _ _ _ rfl, if_pos]
        · rfl
        · simp only [hstart, hend, decide_true, Bool.true_or, Bool.and_self]
      · rw [if_pos hstart, if_neg hend]
        by_cases hrun : c.end_ < (mergeContiguous tree (i + 1) c.end_ (R.elems tree).length).2
        · rw [if_pos hrun, adjustChosenChunk_eq, if_pos]
          · rfl
          · simp only [hstart, runEnd, hrun, decide_true, Bool.or_true, Bool.and_self]
          · rfl
        · rw [if_neg hrun, if_neg]
          · rfl
          · simp only [hend, runEnd, hrun, decide_false, Bool.or_self, Bool.and_false]
            exact Bool.false_ne_true
    · rw [if_neg hstart, if_neg]
      · rfl
      · simp only [hstart, decide_false, Bool.false_and]
        exact Bool.false_ne_true

theorem toOption_mapError {ε ε' α : Type} (f : ε → ε') (x : Outcome ε α) :
    (x.mapError f).toOption = x.toOption := by
  cases x <;> rfl

/-- **The pages that a request gets are those from `servedAt` on**, and none where there is no such
page. -/
theorem allocatePagesDeferred_served (hs : list.Sorted) (designatedLowEnd : Option ℕ)
    (request : AllocationRequest) (numPages : ℕ) :
    (allocatePagesDeferred list designatedLowEnd request numPages).1.toOption.map Prod.fst =
      (servedAt list designatedLowEnd request numPages).map (newAllocation · numPages) := by
  unfold allocatePagesDeferred servedAt
  split_ifs with hzero
  · rfl
  dsimp only
  rw [toOption_mapError]
  cases request with
  | atVirtualAddress vaddr =>
    dsimp only
    rw [findSpecificChunk_served]
    split_ifs <;> rfl
  | alignedTo alignment => exact findAnyChunk_served hs designatedLowEnd numPages none alignment
  | withinRange range => exact findAnyChunk_served hs designatedLowEnd numPages (some range) 1
  | any => exact findAnyChunk_served hs designatedLowEnd numPages none 1

/-- A request that gets pages is served, and they are those from there on. -/
theorem eq_newAllocation_of_served {ε : Type} {numPages : ℕ}
    {result : Outcome ε (PageRange × DeferredAllocAction)} {served : Option ℕ}
    (h : result.toOption.map Prod.fst = served.map (newAllocation · numPages))
    {p : PageRange × DeferredAllocAction} (hp : result = .ok p) :
    ∃ start ∈ served, p.1 = newAllocation start numPages := by
  subst hp
  obtain ⟨start, hstart, heq⟩ := Option.map_eq_some_iff.mp h.symm
  exact ⟨start, hstart, heq.symm⟩

end Requests

end Maios.PageAllocator
