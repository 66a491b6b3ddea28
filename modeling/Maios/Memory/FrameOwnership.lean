import Maios.Memory.FrameAllocator

/-!
# Who owns a physical frame

Every frame is meant to have at most one owner: a chunk of a free list, an outstanding
`AllocatedFrames`, or a remainder that waits in a deferred action. All operations but one only
move ownership around, and for those the number of owners of a frame never grows
(`cover` of what the state holds, before and after). The exception is a request at an address
that no list can serve: the allocator then creates ownership, for a region it has checked against
the regions it knows.

That check is where the argument can break. `contains_any` on a tree begins at the last region
that starts at or below the first requested frame. When every region starts later it sees
nothing, so a run of frames that begins below the lowest region and reaches into it passes as
unknown memory. `RegionsVisible` is the exact complement of this situation.

## Main results

* `frames_exclusive`, `owned_frames_known` — one owner per frame, and only known memory is owned
* `containsAny_exact_iff` — when `contains_any` is right
-/

namespace Maios.FrameAllocator

open List ChunkRange StaticArrayRBTree DeferredAllocAction Option Nat

/-! ### Owners of a frame: splitting and merging -/

theorem cover_frames (f : Frames) (n : ℕ) : cover [f] n = cover [f.range] n := by
  rfl

/-- The frames of `f`, if there are any, are numbers the allocator can count to. -/
def InBounds (f : Frames) : Prop := f.range.start ≤ f.range.end_ → f.range.end_ ≤ maxPageNumber

/-- Every frame with an owner in `l` is a number the allocator can count to. -/
def Bounded (l : List Frames) : Prop := ∀ n, 0 < cover l n → n ≤ maxPageNumber

theorem Bounded.inBounds {l : List Frames} (h : Bounded l) {f : Frames} (hf : f ∈ l) :
    InBounds f := fun hne =>
  h _ (cover_pos_iff.mpr ⟨f, hf, mem_iff.mpr ⟨hne, le_rfl⟩⟩)

theorem Bounded.of_cover_le {l l' : List Frames} (h : Bounded l)
    (hle : ∀ n, cover l' n ≤ cover l n) : Bounded l' := fun n hn =>
  h n (lt_of_lt_of_le hn (hle n))

namespace Frames

variable {merged other self : Frames}

/-- Merging puts one range before or behind the other. -/
theorem merge_cases {P : PageSize} (h : self.merge P other = some merged) :
    self.range.start ≤ self.range.end_ ∧ other.range.start ≤ other.range.end_ ∧
      (self.range.start = chunkAdd P other.range.end_ 1 ∧
          merged.range = ⟨other.range.start, self.range.end_⟩ ∨
        chunkAdd P self.range.end_ 1 = other.range.start ∧
          merged.range = ⟨self.range.start, other.range.end_⟩) := by
  rw [merge] at h
  split_ifs at h with hempty hbefore hbehind <;> cases h <;>
    simp only [Bool.or_eq_true, ChunkRange.isEmpty_iff, not_or, not_lt] at hempty
  · exact ⟨hempty.1, hempty.2, .inl ⟨hbefore, rfl⟩⟩
  · exact ⟨hempty.1, hempty.2, .inr ⟨hbehind, rfl⟩⟩

/-- Merging creates no owner. The successor of the first range may be saturated, which only makes
the merged range smaller than the sum of the two. -/
theorem cover_merge_le (h : self.merge .page4K other = some merged) (n : ℕ) :
    cover [merged] n ≤ cover [self] n + cover [other] n := by
  obtain ⟨hself, hother, ⟨hadj, heq⟩ | ⟨hadj, heq⟩⟩ := merge_cases h
  all_goals
    rw [chunkAdd_page4K] at hadj
    simp only [cover_singleton, mem_def, heq, mem_iff]
    split_ifs <;> omega

theorem inBounds_merge (hself : InBounds self) (hother : InBounds other)
    (h : self.merge .page4K other = some merged) : InBounds merged := by
  obtain ⟨hself', hother', ⟨-, heq⟩ | ⟨-, heq⟩⟩ := merge_cases h <;> intro _ <;> rw [heq]
  · exact hself hself'
  · exact hother hother'

theorem merge_start (h : self.merge .page4K other = some merged) :
    merged.start = other.start ∨ merged.start = self.start := by
  obtain ⟨-, -, ⟨-, heq⟩ | ⟨-, heq⟩⟩ := merge_cases h <;> rw [start, heq]
  · exact .inl rfl
  · exact .inr rfl

/-- The parts of a split own together what the whole owned. -/
theorem cover_splitRange {r : FrameRange} {split : SplitFrames}
    (h : self.splitRange .page4K r = some split) (hmax : InBounds self) (n : ℕ) :
    cover split.beforeStart.toList n + cover [split.startToEnd] n + cover split.afterEnd.toList n =
      cover [self] n := by
  by_cases hr : self.range.containsRange r = true
  · obtain ⟨hne, hlow, hhigh⟩ := containsRange_iff.mp hr
    have hend : self.range.end_ ≤ maxPageNumber := hmax (by omega)
    simp only [splitRange, hr, if_true, chunkAdd_page4K, chunkSub_page4K, maxChunk_page4K,
      some.injEq] at h
    subst h
    split_ifs with hb ha ha <;>
      simp only [map_none, map_some, toList_none, toList_some,
        cover_nil, cover_singleton, mem_def, mem_iff] <;>
      split_ifs <;> omega
  · simp [splitRange, hr] at h

theorem cover_splitAt {first second : Frames} {atFrame : ℕ}
    (h : self.splitAt .page4K atFrame = some (first, second)) (n : ℕ) :
    cover [first] n + cover [second] n = cover [self] n := by
  by_cases hempty : self.range.isEmpty = true
  · simp [splitAt, hempty] at h
  simp only [splitAt, hempty, chunkSub_page4K] at h
  obtain ⟨⟨a, b⟩, hab, heq⟩ := map_eq_some_iff.mp h
  cases heq
  split_ifs at hab with h₁ h₂ h₃ <;> cases hab <;>
    simp only [cover_singleton, mem_def, ChunkRange.mem_iff, ChunkRange.empty] <;>
    split_ifs <;> omega

end Frames

/-! ### Taking a chunk out of a list -/

/-- The frames a call returns, with those its deferred action still has to put back. -/
def handedOut {ε : Type} : Outcome ε (Frames × DeferredAllocAction) → List Frames
  | .ok (frames, action) => [frames, action.free1, action.free2]
  | _ => []

theorem cover_getD_empty (f : Option Frames) (n : ℕ) :
    cover [f.getD .empty] n = cover f.toList n := by
  cases f with
  | none => simp [cover_singleton, Frames.mem_def, mem_iff, Frames.empty, empty]; omega
  | some f => rfl

variable {chunk next : Frames} {ε : Type} {frames : FrameRange}

/-- Cutting an allocation out of a chunk hands out no more than the chunk. -/
theorem cover_split_chosen_le (r : FrameRange) (hchunk : InBounds chunk) (n : ℕ) :
    cover (handedOut (allocateFromChosenChunk r chunk none)) n ≤ cover [chunk] n := by
  simp only [allocateFromChosenChunk]
  cases hsplit : chunk.splitRange .page4K r with
  | none => exact zero_le _
  | some split => ?_
  have hparts := Frames.cover_splitRange hsplit hchunk n
  have h₁ := cover_getD_empty split.beforeStart n
  have h₂ := cover_getD_empty split.afterEnd n
  simp only [handedOut, new]
  rw [cover_cons, cover_cons] at *
  simp only [cover_singleton] at *
  omega

theorem cover_merge_chosen_le (r : FrameRange) {chosen : Frames} (hchosen : InBounds chosen)
    (hnext : InBounds next) (n : ℕ) :
    cover (handedOut (allocateFromChosenChunk r chosen (some next))) n ≤
      cover [chosen] n + cover [next] n := by
  cases hmerge : chosen.merge .page4K next with
  | none =>
    simp only [allocateFromChosenChunk, hmerge]
    exact zero_le _
  | some merged => ?_
  -- once merged, the two chunks are one chosen chunk
  have hone : allocateFromChosenChunk r chosen (some next) =
      allocateFromChosenChunk r merged none := by
    simp only [allocateFromChosenChunk, hmerge]
  rw [hone]
  exact le_trans (cover_split_chosen_le r (Frames.inBounds_merge hchosen hnext hmerge) n)
    (Frames.cover_merge_le hmerge n)

section Lists

variable {R : OrderedTree Frames Frames.start}
  {G : OrderedTree PhysicalMemoryRegion PhysicalMemoryRegion.start}

/-- What a search that takes chunks out of a list owes: the list stays in order, and the frames
handed out and the frames left behind are together no more than the list had. -/
def TakesFrom (list : StaticArrayRBTree R) {ε : Type}
    (result : Outcome ε (Frames × DeferredAllocAction) × StaticArrayRBTree R) : Prop :=
  result.2.Sorted ∧ ∀ n, cover (handedOut result.1) n + cover result.2.elems n ≤ cover list.elems n

variable {l : List PhysicalMemoryRegion} {list : StaticArrayRBTree R} {tree : R.Tree} {i : ℕ}
  {regions : StaticArrayRBTree G} (r : FrameRange)

theorem TakesFrom.refl (hs : list.Sorted) {result : Outcome ε (Frames × DeferredAllocAction)}
    (h : handedOut result = []) : TakesFrom list (result, list) :=
  ⟨hs, fun n => by rw [h, cover_nil, zero_add]⟩

/-- Taking one value out of the array. -/
theorem takesFrom_array {arr arr' : StaticArray Frames} {p : Frames → Bool}
    (hb : Bounded (array (R := R) arr).elems) (h : arr.take p = some (chunk, arr')) :
    TakesFrom (R := R) (.array arr) (allocateFromChosenChunk r chunk none, .array arr') := by
  have hperm := StaticArray.take_spec h
  have hchunk : InBounds chunk := hb.inBounds (hperm.mem_iff.mpr mem_cons_self)
  refine ⟨trivial, fun n => ?_⟩
  have hcut := cover_split_chosen_le r hchunk n
  simp only [elems_array]
  rw [cover_perm hperm n, cover_cons, ← cover_singleton]
  omega

/-- Taking the element under a cursor out of the tree. -/
theorem takesFrom_rbTree (hs : R.Sorted tree) (hb : Bounded (R.elems tree))
    (h : R.get tree i = some chunk) :
    TakesFrom (R := R) (.rbTree tree)
      (allocateFromChosenChunk r chunk none, .rbTree (R.removeAt tree i)) := by
  have hchunk : InBounds chunk := hb.inBounds (mem_of_getElem? h)
  refine ⟨hs.removeAt i, fun n => ?_⟩
  have hcut := cover_split_chosen_le r hchunk n
  have htake := cover_eraseIdx_add h n
  simp only [elems_rbTree, R.elems_removeAt]
  omega

/-- Taking an element and its successor out of the tree, successor first. -/
theorem takesFrom_rbTree_two (hs : R.Sorted tree) (hb : Bounded (R.elems tree))
    (h : R.get tree i = some chunk) (hnext : R.get tree (i + 1) = some next) :
    TakesFrom (R := R) (.rbTree tree)
      (allocateFromChosenChunk r chunk (some next),
        .rbTree (R.removeAt (R.removeAt tree (i + 1)) i)) := by
  refine ⟨(hs.removeAt _).removeAt _, fun n => ?_⟩
  have hcut := cover_merge_chosen_le r (hb.inBounds (mem_of_getElem? h))
    (hb.inBounds (mem_of_getElem? hnext)) n
  have htake := cover_eraseIdx_add hnext n
  have hstill : ((R.elems tree).eraseIdx (i + 1))[i]? = some chunk := by
    rw [getElem?_eraseIdx_of_lt (lt_succ_self i)]
    exact h
  have htake' := cover_eraseIdx_add hstill n
  simp only [elems_rbTree, R.elems_removeAt]
  omega

/-- The frames that a request gets from a frame on. -/
def servedFrames (startFrame numFrames : ℕ) : FrameRange :=
  ⟨startFrame, chunkSub .page4K (chunkAdd .page4K startFrame numFrames) 1⟩

/-- The search cuts the request out of a chunk that it takes, or leaves the list alone; what is
missing then begins at a frame that exists. -/
theorem findSpecificChunk_cases (list : StaticArrayRBTree R) (requestedFrame numFrames : ℕ) :
    (∃ chunk next rest, findSpecificChunk list requestedFrame numFrames =
        (allocateFromChosenChunk (servedFrames requestedFrame numFrames) chunk next, rest) ∧
      (list.Sorted → Bounded list.elems → TakesFrom list
        (allocateFromChosenChunk (servedFrames requestedFrame numFrames) chunk next, rest))) ∨
    ∃ o, findSpecificChunk list requestedFrame numFrames = (o, list) ∧
      (o = .panic ∨ ∃ e, o = .err e ∧
        ∀ f k, e = .contiguousChunkNotFound f k → f ≤ maxPageNumber) := by
  cases list with
  | array arr =>
    simp only [findSpecificChunk]
    split
    · exact .inl ⟨_, _, _, rfl, fun _ hb => takesFrom_array _ hb ‹_›⟩
    · exact .inr ⟨_, rfl, .inr ⟨_, rfl, by simp⟩⟩
  | rbTree tree => ?_
  simp only [findSpecificChunk]
  split
  · exact .inr ⟨_, rfl, .inr ⟨_, rfl, by simp⟩⟩
  split
  · exact .inr ⟨_, rfl, .inr ⟨_, rfl, by simp⟩⟩
  rename_i i _ chunk hchunk
  split_ifs
  · exact .inl ⟨_, _, _, rfl, fun hs hb => takesFrom_rbTree _ hs hb hchunk⟩
  · split
    · split_ifs
      · exact .inl ⟨_, _, _, rfl, fun hs hb => takesFrom_rbTree_two _ hs hb hchunk ‹_›⟩
      · exact .inr ⟨_, rfl, .inl rfl⟩
      · exact .inr ⟨_, rfl, .inr ⟨_, rfl, by simp⟩⟩
    · refine .inr ⟨_, rfl, .inr ⟨_, rfl, fun f k hf => ?_⟩⟩
      cases hf
      exact min_le_left _ _
  · exact .inr ⟨_, rfl, .inr ⟨_, rfl, by simp⟩⟩

theorem findSpecificChunk_takesFrom (hs : list.Sorted) (hb : Bounded list.elems)
    (requestedFrame numFrames : ℕ) :
    TakesFrom list (findSpecificChunk list requestedFrame numFrames) := by
  rcases findSpecificChunk_cases list requestedFrame numFrames with
    ⟨chunk, next, rest, heq, htakes⟩ | ⟨o, heq, ho⟩ <;> rw [heq]
  · exact htakes hs hb
  · refine TakesFrom.refl hs ?_
    rcases ho with rfl | ⟨e, rfl, -⟩ <;> rfl

theorem lastSuitable_get {numFrames n : ℕ} (h : lastSuitable tree numFrames n = some (i, chunk)) :
    R.get tree i = some chunk := by
  induction n with
  | zero => cases h
  | succ n ih =>
    rw [lastSuitable] at h
    split at h
    · split_ifs at h
      · cases h
        assumption
      · exact ih h
    · cases h

theorem findAnyChunk_takesFrom (hs : list.Sorted) (hb : Bounded list.elems) (numFrames : ℕ) :
    TakesFrom list (findAnyChunk list numFrames) := by
  cases list with simp only [findAnyChunk]
  | array arr =>
    split
    · exact takesFrom_array _ hb ‹_›
    · exact TakesFrom.refl hs rfl
  | rbTree tree =>
    split
    · exact takesFrom_rbTree _ hs hb (lastSuitable_get ‹_›)
    · exact TakesFrom.refl hs rfl

/-! ### Putting a chunk back -/

/-- What putting `f` into a list owes: the list stays in order and gains no more than `f`. -/
def PutsInto (list list' : StaticArrayRBTree R) (f : Frames) : Prop :=
  list'.Sorted ∧ ∀ n, cover list'.elems n ≤ cover list.elems n + cover [f] n

/-- A list that refuses the chunk stays as it is. -/
theorem insert_putsInto {list : StaticArrayRBTree R} (hs : list.Sorted) (f : Frames) :
    PutsInto list ((list.insert f).getD list) f := by
  cases hins : list.insert f with
  | none => exact ⟨hs, fun n => le_add_right _ _⟩
  | some list' =>
    obtain ⟨hsort, hperm⟩ := insert_spec hs hins
    refine ⟨hsort, fun n => ?_⟩
    rw [getD_some, cover_perm hperm n, cover_cons, cover_singleton]

/-- Joining `f` to the chunk under a cursor, when the keys below the cursor are below both and
those above it are above both. -/
theorem join_putsInto (f : Frames) (hs : R.Sorted tree) (hchunk : R.get tree i = some chunk)
    (hlow : ∀ (j : ℕ) b, j < i → R.get tree j = some b → b.start ≤ f.start)
    (hhigh : ∀ (j : ℕ) b, i < j → R.get tree j = some b → f.start ≤ b.start) :
    PutsInto (R := R) (.rbTree tree)
      (match chunk.merge .page4K f with
        | some merged => .rbTree (R.insertBefore (R.removeAt tree i) i merged)
        | none => .rbTree (R.removeAt tree i)) f := by
  cases hmerge : chunk.merge .page4K f with
  | none =>
    refine ⟨hs.removeAt i, fun n => ?_⟩
    have htake := cover_eraseIdx_add hchunk n
    simp only [elems_rbTree, R.elems_removeAt]
    omega
  | some merged => ?_
  have helems := R.elems_insertBefore_removeAt (a := merged) hchunk
  constructor
  · show KeySorted Frames.start (R.elems _)
    rw [helems]
    refine OrderedTree.KeySorted.set hs (fun j b hj hb => ?_) (fun j b hj hb => ?_)
    · rcases Frames.merge_start hmerge with hstart | hstart <;> rw [hstart]
      · exact hlow j b hj hb
      · exact hs.key_le hj hb hchunk
    · rcases Frames.merge_start hmerge with hstart | hstart <;> rw [hstart]
      · exact hhigh j b hj hb
      · exact hs.key_le hj hchunk hb
  · intro n
    have hset := cover_set_add hchunk merged n
    have hjoin := Frames.cover_merge_le hmerge n
    simp only [elems_rbTree, helems]
    omega

theorem insertDropped_putsInto (hs : list.Sorted) (f : Frames) :
    PutsInto list (insertDropped list f) f := by
  cases list with
  | array arr => exact insert_putsInto hs f
  | rbTree tree => ?_
  have hbelow : ∀ (j : ℕ) b, j < R.lowerBound tree f.start → R.get tree j = some b →
      b.start ≤ f.start := fun j b hj hb =>
    le_of_lt ((R.lowerBound_lt tree f.start j b hs hb).mp hj)
  have habove : ∀ (j : ℕ) b, R.lowerBound tree f.start ≤ j → R.get tree j = some b →
      f.start ≤ b.start := by
    intro j b hj hb
    by_contra hlt
    have := (R.lowerBound_lt tree f.start j b hs hb).mpr (not_le.mp hlt)
    omega
  have hinsert : PutsInto (R := R) (.rbTree tree) (.rbTree (R.insert tree f)) f :=
    @insert_putsInto R (.rbTree tree) hs f
  simp only [insertDropped]
  split
  on_goal 1 => split
  on_goal 1 => exact join_putsInto f hs ‹_› hbelow fun j b hj hb => habove j b (by omega) hb
  -- the next chunk is not contiguous, so it is the turn of the previous one
  all_goals
    split
    · rename_i hprev
      split_ifs at hprev with hzero
      split_ifs
      · exact join_putsInto f hs hprev (fun j b hj hb => hbelow j b (by omega) hb)
          fun j b hj hb => habove j b (by omega) hb
      · exact hinsert
    · exact hinsert

/-! ### The check for known regions -/

/-- The regions of a list are not empty and share no frame. -/
structure Spaced (regions : List PhysicalMemoryRegion) : Prop where
  nonempty : ∀ r ∈ regions, r.frames.start ≤ r.frames.end_
  disjoint : regions.Pairwise fun r r' => ∀ n, n ∈ r.frames → n ∉ r'.frames

theorem Spaced.perm {l' : List PhysicalMemoryRegion} (h : Spaced l) (hperm : l'.Perm l) :
    Spaced l' where
  nonempty r hr := h.nonempty r (hperm.mem_iff.mp hr)
  disjoint := (hperm.symm.pairwise_iff fun hxy n hn hn' => hxy n hn' hn).mp h.disjoint

theorem Spaced.cons {r : PhysicalMemoryRegion} (h : Spaced l)
    (hne : r.frames.start ≤ r.frames.end_) (hdisj : ∀ r' ∈ l, ∀ n, n ∈ r'.frames → n ∉ r.frames) :
    Spaced (r :: l) where
  nonempty := forall_mem_cons.mpr ⟨hne, h.nonempty⟩
  disjoint := pairwise_cons.mpr ⟨fun r' hr' n hn hn' => hdisj r' hr' n hn' hn, h.disjoint⟩

/-- In key order, disjoint regions also end in that order. -/
theorem Spaced.end_lt_start (h : Spaced l) (hs : KeySorted PhysicalMemoryRegion.start l) {j : ℕ}
    {r r' : PhysicalMemoryRegion} (hij : i < j) (hr : l[i]? = some r) (hr' : l[j]? = some r') :
    r.frames.end_ < r'.frames.start := by
  have hne := h.nonempty r' (mem_of_getElem? hr')
  obtain ⟨hi, rfl⟩ := List.getElem?_eq_some_iff.mp hr
  obtain ⟨hj, rfl⟩ := List.getElem?_eq_some_iff.mp hr'
  have hkey : l[i].frames.start ≤ l[j].frames.start :=
    pairwise_iff_getElem.mp hs i j hi hj hij
  by_contra hle
  -- otherwise the first frame of the later region lies in the earlier one
  refine pairwise_iff_getElem.mp h.disjoint i j hi hj hij l[j].frames.start ?_ ?_ <;>
    rw [mem_iff] <;> omega

/-- The ascending scan misses nothing of what it walks over. -/
theorem scanOverlap_eq_false (hs : KeySorted PhysicalMemoryRegion.start l)
    (h : scanOverlap PhysicalMemoryRegion.frames frames l = false) :
    ∀ r ∈ l, ∀ n, n ∈ r.frames → n ∉ frames := by
  induction l with
  | nil => simp
  | cons r l ih =>
    obtain ⟨hhead, htail⟩ := pairwise_cons.mp hs
    rw [scanOverlap] at h
    split_ifs at h with hbeyond hover
    · -- the scan stops: this region and all later ones begin behind the frames
      intro r' hr' n hn hn'
      have hstart : r.frames.start ≤ r'.frames.start := by
        rcases mem_cons.mp hr' with rfl | hr'
        · exact le_refl _
        · exact hhead r' hr'
      rw [mem_iff] at hn hn'
      omega
    · intro r' hr' n hn hn'
      rcases mem_cons.mp hr' with rfl | hr'
      · exact hover (overlap_isSome_iff.mpr ⟨n, hn, hn'⟩)
      · exact ih htail h r' hr' n hn hn'

/-- The check for known regions sees what it must see: on a tree, some region begins at or below
the first of the frames, or none has a frame in common with them. -/
def Visible (regions : StaticArrayRBTree G) (frames : FrameRange) : Prop :=
  match regions with
  | .array _ => True
  | .rbTree tree =>
    (∃ r ∈ G.elems tree, r.start ≤ frames.start) ∨
      ∀ r ∈ G.elems tree, (r.frames.overlap frames).isSome = false

/-- Frames that pass a check that sees what it must are not in any known region. -/
theorem containsAny_eq_false (hs : regions.Sorted) (hspaced : Spaced regions.elems)
    (hvis : Visible regions frames) (h : containsAny regions frames = false) :
    ∀ r ∈ regions.elems, ∀ n, n ∈ r.frames → n ∉ frames := by
  cases regions with
  | array arr =>
    intro r hr n hn hn'
    have hno := any_eq_false.mp h r hr
    exact hno (overlap_isSome_iff.mpr ⟨n, hn, hn'⟩)
  | rbTree tree => ?_
  have hnone : (∀ r ∈ G.elems tree, (r.frames.overlap frames).isSome = false) →
      ∀ r ∈ G.elems tree, ∀ n, n ∈ r.frames → n ∉ frames := by
    intro hno r hr n hn hn'
    have hsome := overlap_isSome_iff.mpr ⟨n, hn, hn'⟩
    rw [hno r hr] at hsome
    cases hsome
  rw [containsAny, anyOverlap] at h
  cases hub : G.upperBound tree frames.start with
  | none =>
    rcases hvis with ⟨r, hr, hle⟩ | hno
    · exact absurd (G.upperBound_eq_none tree _ hs hub r hr) (not_lt.mpr hle)
    · exact hnone hno
  | some i => ?_
  rw [hub] at h
  obtain ⟨first, hfirst, hle, -⟩ := G.upperBound_eq_some tree _ i hs hub
  have hscan := scanOverlap_eq_false (List.Pairwise.sublist (drop_sublist _ _) hs) h
  intro r hr
  obtain ⟨j, hj⟩ := mem_iff_getElem?.mp hr
  by_cases hij : i ≤ j
  · refine hscan r (mem_iff_getElem?.mpr ⟨j - i, ?_⟩)
    rw [getElem?_drop, Nat.add_sub_cancel' hij]
    exact hj
  -- a region below the cursor ends before the region under the cursor begins
  intro n hn hn'
  have hend := hspaced.end_lt_start hs (not_le.mp hij) hj hfirst
  have hstart : first.frames.start ≤ frames.start := hle
  rw [mem_iff] at hn hn'
  omega

/-- The ascending scan reports only overlaps there are. -/
theorem exists_of_scanOverlap {α : Type} {range : α → FrameRange} {l : List α}
    (h : scanOverlap range frames l = true) :
    ∃ a ∈ l, ((range a).overlap frames).isSome = true := by
  induction l with
  | nil => cases h
  | cons a l ih =>
    rw [scanOverlap] at h
    split_ifs at h with hbeyond hover
    · exact ⟨a, mem_cons_self, hover⟩
    · obtain ⟨b, hb, hoverlap⟩ := ih h
      exact ⟨b, mem_cons_of_mem _ hb, hoverlap⟩

theorem exists_of_containsAny (h : containsAny regions frames = true) :
    ∃ r ∈ regions.elems, (r.frames.overlap frames).isSome = true := by
  cases regions with
  | array arr => exact any_eq_true.mp h
  | rbTree tree =>
    rw [containsAny, anyOverlap] at h
    split at h
    · cases h
    · obtain ⟨r, hr, hover⟩ := exists_of_scanOverlap h
      exact ⟨r, mem_of_mem_drop hr, hover⟩

/-- **The check for known regions is exact if and only if it sees what it must see**, whether the
regions are in an array or in a tree. -/
theorem containsAny_exact_iff {regions : StaticArrayRBTree G} {frames : FrameRange}
    (hs : regions.Sorted) (hspaced : Spaced regions.elems) :
    (containsAny regions frames = true ↔
      ∃ r ∈ regions.elems, ∃ n, n ∈ r.frames ∧ n ∈ frames) ↔ Visible regions frames := by
  have hsound : containsAny regions frames = true →
      ∃ r ∈ regions.elems, ∃ n, n ∈ r.frames ∧ n ∈ frames := fun h => by
    obtain ⟨r, hr, hover⟩ := exists_of_containsAny h
    exact ⟨r, hr, overlap_isSome_iff.mp hover⟩
  refine ⟨fun hexact => ?_, fun hvis => ⟨hsound, ?_⟩⟩
  · cases regions with
    | array arr => trivial
    | rbTree tree => ?_
    cases hub : G.upperBound tree frames.start with
    | some i =>
      obtain ⟨first, hfirst, hle, -⟩ := G.upperBound_eq_some tree _ i hs hub
      exact .inl ⟨first, mem_of_getElem? hfirst, hle⟩
    | none => ?_
    -- the cursor is null, so that an overlap would be missed
    refine .inr fun r hr => ?_
    by_contra hover
    rw [Bool.not_eq_false] at hover
    have hfound := hexact.mpr ⟨r, hr, overlap_isSome_iff.mp hover⟩
    rw [containsAny, anyOverlap, hub] at hfound
    cases hfound
  · rintro ⟨r, hr, n, hn, hn'⟩
    by_contra hfalse
    rw [Bool.not_eq_true] at hfalse
    exact containsAny_eq_false hs hspaced hvis hfalse r hr n hn hn'

end Lists

/-! ### The allocator's calls -/

section Allocator

variable {R : OrderedTree Frames Frames.start}
  {G : OrderedTree PhysicalMemoryRegion PhysicalMemoryRegion.start}

/-- The chunks of the two free lists. -/
def freeFrames (lists : Lists R G) : List Frames :=
  lists.freeGeneral.elems ++ lists.freeReserved.elems

/-- The known regions, of both kinds. -/
def knownRegions (lists : Lists R G) : List PhysicalMemoryRegion :=
  lists.generalRegions.elems ++ lists.reservedRegions.elems

/-- The free lists are in order. -/
def FreeSorted (lists : Lists R G) : Prop := lists.freeGeneral.Sorted ∧ lists.freeReserved.Sorted

/-- The region lists are in order, and the regions of each are not empty, share no frame and end
at frames that exist. -/
structure RegionsValid (lists : Lists R G) : Prop where
  generalSorted : lists.generalRegions.Sorted
  reservedSorted : lists.reservedRegions.Sorted
  generalSpaced : Spaced lists.generalRegions.elems
  reservedSpaced : Spaced lists.reservedRegions.elems
  bounded : ∀ r ∈ knownRegions lists, r.frames.end_ ≤ maxPageNumber

/-- A call that does not touch the regions and hands out no more than it takes. -/
structure Moves (lists lists' : Lists R G) (taken : List Frames) : Prop where
  general : lists'.generalRegions = lists.generalRegions
  reserved : lists'.reservedRegions = lists.reservedRegions
  sorted : FreeSorted lists'
  cover_le : ∀ n, cover taken n + cover (freeFrames lists') n ≤ cover (freeFrames lists) n

variable {s : State R G} {lists lists' : Lists R G} {allocated taken : List Frames}
  {regions : StaticArrayRBTree G} {pending : List DeferredAllocAction} {list : StaticArrayRBTree R}
  {result : Outcome ε (Frames × DeferredAllocAction) × StaticArrayRBTree R}

theorem Moves.refl (hs : FreeSorted lists) : Moves lists lists [] :=
  ⟨rfl, rfl, hs, fun n => by rw [cover_nil, zero_add]⟩

theorem bounded_general (hb : Bounded (freeFrames lists)) : Bounded lists.freeGeneral.elems :=
  hb.of_cover_le fun n => by rw [freeFrames, cover_append]; exact le_add_right _ _

theorem bounded_reserved (hb : Bounded (freeFrames lists)) : Bounded lists.freeReserved.elems :=
  hb.of_cover_le fun n => by rw [freeFrames, cover_append]; exact le_add_left _ _

theorem TakesFrom.moves_general (hs : FreeSorted lists) (h : TakesFrom lists.freeGeneral result) :
    Moves lists { lists with freeGeneral := result.2 } (handedOut result.1) := by
  refine ⟨rfl, rfl, ⟨h.1, hs.2⟩, fun n => ?_⟩
  have hle := h.2 n
  simp only [freeFrames, cover_append]
  omega

theorem TakesFrom.moves_reserved (hs : FreeSorted lists) (h : TakesFrom lists.freeReserved result) :
    Moves lists { lists with freeReserved := result.2 } (handedOut result.1) := by
  refine ⟨rfl, rfl, ⟨hs.1, h.1⟩, fun n => ?_⟩
  have hle := h.2 n
  simp only [freeFrames, cover_append]
  omega

theorem chosen_ne_err {r : FrameRange} {next : Option Frames} {e : AllocationError}
    (h : allocateFromChosenChunk r chunk next = .err e) : False := by
  simp only [allocateFromChosenChunk] at h
  split at h
  · cases h
  · split at h <;> cases h

theorem findSpecificChunk_err {list : StaticArrayRBTree R} {requestedFrame numFrames : ℕ}
    {e : AllocationError} (h : (findSpecificChunk list requestedFrame numFrames).1 = .err e) :
    (findSpecificChunk list requestedFrame numFrames).2 = list ∧
      ∀ f k, e = .contiguousChunkNotFound f k → f ≤ maxPageNumber := by
  rcases findSpecificChunk_cases list requestedFrame numFrames with
    ⟨chunk, next, rest, heq, -⟩ | ⟨o, heq, ho⟩ <;> rw [heq] at h ⊢
  · exact (chosen_ne_err h).elim
  · rcases ho with rfl | ⟨e', rfl, hmissing⟩ <;> cases h
    exact ⟨rfl, hmissing⟩

/-- What the two searches owe: either the call is over and has moved frames, or nothing has
happened and the frames that are missing begin at a frame that exists. -/
theorem searchFreeLists_spec (hs : FreeSorted lists) (hb : Bounded (freeFrames lists))
    (startFrame numFrames : ℕ) (hstart : startFrame ≤ maxPageNumber) :
    match searchFreeLists lists startFrame numFrames with
    | (.done result, lists') => Moves lists lists' (handedOut result)
    | (.missing f _, lists') => lists' = lists ∧ f ≤ maxPageNumber := by
  have htake := findSpecificChunk_takesFrom hs.2 (bounded_reserved hb) startFrame numFrames
  have hres := htake.moves_reserved hs
  have hgen := (findSpecificChunk_takesFrom hs.1 (bounded_general hb) startFrame
    numFrames).moves_general hs
  have herr := @findSpecificChunk_err R lists.freeReserved startFrame numFrames
  have herr' := @findSpecificChunk_err R lists.freeGeneral startFrame numFrames
  rw [searchFreeLists]
  rcases hcall : findSpecificChunk lists.freeReserved startFrame numFrames with ⟨result, reserved⟩
  rw [hcall] at hres herr
  rcases result with success | e | _
  · exact hres
  · obtain ⟨rfl, hmissing⟩ := herr rfl
    rcases e with ⟨f, k⟩ | ⟨f, k⟩ | k | ⟨f, k⟩
    · exact hres
    · rcases hcall' : findSpecificChunk lists.freeGeneral startFrame numFrames with
        ⟨result', general⟩
      rw [hcall'] at hgen herr'
      rcases result' with success | e' | _
      · exact hgen
      · obtain ⟨rfl, -⟩ := herr' rfl
        rcases e' with ⟨f', k'⟩ | ⟨f', k'⟩ | k' | ⟨f', k'⟩
        · exact hgen
        · exact ⟨rfl, hstart⟩
        · exact hgen
        · exact hgen
      · exact hgen
    · exact hres
    · exact ⟨rfl, hmissing f k rfl⟩
  · exact hres

/-- What an allocation owes: the frames it hands out and those it leaves behind are together no
more than the lists had and the frames of a new reserved region, disjoint from all known ones. -/
structure Allocates (lists lists' : Lists R G) (taken : List Frames) : Prop where
  sorted : FreeSorted lists'
  valid : RegionsValid lists'
  known : ∀ r ∈ knownRegions lists, r ∈ knownRegions lists'
  cover_le : (∀ n, cover taken n + cover (freeFrames lists') n ≤ cover (freeFrames lists) n) ∨
    ∃ region ∈ knownRegions lists',
      (∀ r ∈ knownRegions lists, ∀ n, n ∈ r.frames → n ∉ region.frames) ∧
      ∀ n, cover taken n + cover (freeFrames lists') n ≤
        cover (freeFrames lists) n + cover [region.frames] n

theorem RegionsValid.congr (h : RegionsValid lists)
    (hgeneral : lists'.generalRegions = lists.generalRegions)
    (hreserved : lists'.reservedRegions = lists.reservedRegions) : RegionsValid lists' := by
  refine ⟨hgeneral ▸ h.generalSorted, hreserved ▸ h.reservedSorted, hgeneral ▸ h.generalSpaced,
    hreserved ▸ h.reservedSpaced, ?_⟩
  rw [knownRegions, hgeneral, hreserved]
  exact h.bounded

theorem Moves.allocates {lists : Lists R G} (h : Moves lists lists' taken)
    (hv : RegionsValid lists) : Allocates lists lists' taken where
  sorted := h.sorted
  valid := hv.congr h.general h.reserved
  known r hr := by
    rw [knownRegions, h.general, h.reserved]
    exact hr
  cover_le := .inl h.cover_le

/-- Requests whose checks for known regions see what they must see. -/
def RequestVisible (lists : Lists R G) (paddr : Address) (numFrames : ℕ) : Prop :=
  match searchFreeLists lists (containingAddress paddr) numFrames with
  | (.missing f k, _) =>
    Visible lists.generalRegions (requestedFrames f k) ∧
      Visible lists.reservedRegions (requestedFrames f k)
  | _ => True

theorem handedOut_mapError {ε' : Type} (f : ε → ε') (r : Outcome ε (Frames × DeferredAllocAction)) :
    handedOut (r.mapError f) = handedOut r := by
  cases r <;> rfl

section

variable {f : FrameRange} (h : RegionsValid lists) (hne : f.start ≤ f.end_)
  (hmax : f.end_ ≤ maxPageNumber) (hnew : ∀ r ∈ knownRegions lists, ∀ n, n ∈ r.frames → n ∉ f)
  (hins : lists.reservedRegions.insert ⟨f, .reserved⟩ = some regions)

include h hne hmax hnew hins

/-- The two checks passed: a reserved region for frames that no known region has. -/
theorem RegionsValid.insert (reserved : StaticArrayRBTree R) :
    RegionsValid { lists with reservedRegions := regions, freeReserved := reserved } ∧
      ∀ r, r ∈ regions.elems ↔ r = ⟨f, .reserved⟩ ∨ r ∈ lists.reservedRegions.elems := by
  obtain ⟨hsort, hperm⟩ := insert_spec h.reservedSorted hins
  have hmem : ∀ r, r ∈ regions.elems ↔ r = ⟨f, .reserved⟩ ∨ r ∈ lists.reservedRegions.elems :=
    fun r => by rw [hperm.mem_iff, mem_cons]
  refine ⟨⟨h.generalSorted, hsort, h.generalSpaced, ?_, ?_⟩, hmem⟩
  · refine (h.reservedSpaced.cons hne fun r hr n hn => ?_).perm hperm
    exact hnew r (mem_append_right _ hr) n hn
  · intro r hr
    rcases mem_append.mp hr with hr | hr
    · exact h.bounded r (mem_append_left _ hr)
    · rcases (hmem r).mp hr with rfl | hr
      · exact hmax
      · exact h.bounded r (mem_append_right _ hr)

/-- A list to which the frames of the new region were added, and from which the request then
takes what it needs. -/
theorem allocates_newRegion {reserved : StaticArrayRBTree R} (hs : FreeSorted lists)
    (hput : PutsInto lists.freeReserved reserved ⟨.reserved, f⟩)
    (htake : TakesFrom reserved result) :
    Allocates lists { lists with reservedRegions := regions, freeReserved := result.2 }
      (handedOut result.1) := by
  obtain ⟨hvalid, hmem⟩ := h.insert hne hmax hnew hins result.2
  refine ⟨⟨hs.1, htake.1⟩, hvalid, fun r hr => ?_, .inr ⟨⟨f, .reserved⟩, ?_, hnew, fun n => ?_⟩⟩
  · rcases mem_append.mp hr with hr | hr
    · exact mem_append_left _ hr
    · exact mem_append_right _ ((hmem r).mpr (.inr hr))
  · exact mem_append_right _ ((hmem _).mpr (.inl rfl))
  · have hleft := htake.2 n
    have hadded := hput.2 n
    simp only [cover_frames] at hadded
    simp only [freeFrames, cover_append]
    omega

end

theorem allocateNewRegion_allocates (hs : FreeSorted lists) (hb : Bounded (freeFrames lists))
    (hv : RegionsValid lists) {f : FrameRange} (hne : f.start ≤ f.end_)
    (hmax : f.end_ ≤ maxPageNumber) (hgeneral : Visible lists.generalRegions f)
    (hreserved : Visible lists.reservedRegions f) (startFrame numFrames : ℕ) :
    Allocates lists (allocateNewRegion lists startFrame numFrames f).2
      (handedOut (allocateNewRegion lists startFrame numFrames f).1) := by
  have hsame : Allocates lists lists [] := (Moves.refl hs).allocates hv
  rw [allocateNewRegion]
  split_ifs with hg
  · exact hsame
  unfold addReservedRegionToLists
  split_ifs with hr hframes
  · exact hsame
  · exact hsame
  -- both checks saw what they had to see, so no known region has a frame of `f`
  have hnew : ∀ r ∈ knownRegions lists, ∀ n, n ∈ r.frames → n ∉ f := by
    intro r hr'
    rw [Bool.not_eq_true] at hg hr
    rcases mem_append.mp hr' with hr' | hr'
    · exact containsAny_eq_false hv.generalSorted hv.generalSpaced hgeneral hg r hr'
    · exact containsAny_eq_false hv.reservedSorted hv.reservedSpaced hreserved hr r hr'
  cases hins : lists.reservedRegions.insert ⟨f, .reserved⟩ with
  | none => exact hsame
  | some regions => ?_
  have hput := insert_putsInto hs.2 ⟨.reserved, f⟩
  cases hins' : lists.freeReserved.insert ⟨.reserved, f⟩ with rw [hins'] at hput
  | none =>
    have hrefused : TakesFrom lists.freeReserved
        ((.panic : Outcome String (Frames × DeferredAllocAction)), lists.freeReserved) :=
      TakesFrom.refl hs.2 rfl
    exact allocates_newRegion hv hne hmax hnew hins hs hput hrefused
  | some reserved =>
    have hbound : Bounded reserved.elems := by
      intro n hn
      have hle := hput.2 n
      simp only [cover_frames, getD_some] at hle
      by_cases hpos : 0 < cover [f] n
      · obtain ⟨r, hr', hn'⟩ := cover_pos_iff.mp hpos
        cases mem_singleton.mp hr'
        exact le_trans hn'.2 hmax
      · exact bounded_reserved hb n (by omega)
    have htake := findSpecificChunk_takesFrom hput.1 hbound startFrame numFrames
    have hall := allocates_newRegion hv hne hmax hnew hins hs hput htake
    simp only [handedOut_mapError]
    exact hall

theorem allocateFramesDeferred_allocates (hs : FreeSorted lists) (hb : Bounded (freeFrames lists))
    (hv : RegionsValid lists) (requestedPaddr : Option Address) (numFrames : ℕ)
    (hvis : ∀ paddr, requestedPaddr = some paddr → RequestVisible lists paddr numFrames) :
    Allocates lists (allocateFramesDeferred lists requestedPaddr numFrames).2
      (handedOut (allocateFramesDeferred lists requestedPaddr numFrames).1) := by
  by_cases hzero : numFrames = 0
  · simp only [allocateFramesDeferred, if_pos hzero]
    exact (Moves.refl hs).allocates hv
  cases requestedPaddr with
  | none =>
    have hany := (findAnyChunk_takesFrom hs.1 (bounded_general hb) numFrames).moves_general hs
    simp only [allocateFramesDeferred, if_neg hzero, handedOut_mapError]
    exact hany.allocates hv
  | some paddr => ?_
  have hvis := hvis paddr rfl
  have hspec := searchFreeLists_spec hs hb (containingAddress paddr) numFrames
    (containingAddress_le paddr)
  simp only [allocateFramesDeferred, if_neg hzero]
  rw [RequestVisible] at hvis
  rcases hsearch : searchFreeLists lists (containingAddress paddr) numFrames with
    ⟨result | ⟨f, k⟩, lists'⟩
  · rw [hsearch] at hspec
    exact Moves.allocates hspec hv
  rw [hsearch] at hspec hvis
  obtain ⟨rfl, hf⟩ := hspec
  have hend : (requestedFrames f k).end_ = min maxPageNumber (f + (k - 1)) := by
    rw [requestedFrames, chunkAdd_page4K]
  have hstart : (requestedFrames f k).start = f := rfl
  exact allocateNewRegion_allocates hs hb hv (by omega) (by omega) hvis.1 hvis.2 _ _

/-- A call that gives chunks back: the regions stay, and the lists gain no more than them. -/
structure Returns (lists lists' : Lists R G) (given : List Frames) : Prop where
  general : lists'.generalRegions = lists.generalRegions
  reserved : lists'.reservedRegions = lists.reservedRegions
  sorted : FreeSorted lists'
  cover_le : ∀ n, cover (freeFrames lists') n ≤ cover (freeFrames lists) n + cover given n

section

variable (hs : FreeSorted lists)

include hs

theorem Returns.refl (given : List Frames) : Returns lists lists given :=
  ⟨rfl, rfl, hs, fun _ => le_add_right _ _⟩

theorem PutsInto.returns_general {f : Frames} (h : PutsInto lists.freeGeneral list f) :
    Returns lists { lists with freeGeneral := list } [f] := by
  refine ⟨rfl, rfl, ⟨h.1, hs.2⟩, fun n => ?_⟩
  have hle := h.2 n
  simp only [freeFrames, cover_append]
  omega

theorem PutsInto.returns_reserved {f : Frames} (h : PutsInto lists.freeReserved list f) :
    Returns lists { lists with freeReserved := list } [f] := by
  refine ⟨rfl, rfl, ⟨hs.1, h.1⟩, fun n => ?_⟩
  have hle := h.2 n
  simp only [freeFrames, cover_append]
  omega

theorem dropFrames_returns (f : Frames) : Returns lists (dropFrames lists f) [f] := by
  rw [dropFrames]
  split_ifs
  · exact Returns.refl hs [f]
  · exact (insertDropped_putsInto hs.2 f).returns_reserved hs
  · exact (insertDropped_putsInto hs.1 f).returns_general hs

theorem insertDeferred_returns (f : Frames) : Returns lists (insertDeferred lists f) [f] := by
  rw [insertDeferred]
  split_ifs
  · exact Returns.refl hs [f]
  · cases f.typ with
    | free => exact (insert_putsInto hs.1 f).returns_general hs
    | reserved => exact (insert_putsInto hs.2 f).returns_reserved hs
    | unknown => exact dropFrames_returns hs f

end

/-- The chunks an action still holds. -/
def DeferredAllocAction.held (action : DeferredAllocAction) : List Frames :=
  [action.free1, action.free2]

theorem dropAction_returns (hs : FreeSorted lists) (action : DeferredAllocAction) :
    Returns lists (dropAction lists action) action.held := by
  have hfirst := insertDeferred_returns hs action.free1
  have hsecond := insertDeferred_returns hfirst.sorted action.free2
  refine ⟨hsecond.general.trans hfirst.general, hsecond.reserved.trans hfirst.reserved,
    hsecond.sorted, fun n => ?_⟩
  have h₁ := hfirst.cover_le n
  have h₂ := hsecond.cover_le n
  rw [held, cover_cons, ← cover_singleton action.free1]
  rw [dropAction]
  omega

/-- Moving the lists to the heap changes no content. -/
theorem convertToHeapBased_spec (hs : FreeSorted lists) (hv : RegionsValid lists) :
    FreeSorted (convertToHeapBased lists) ∧ RegionsValid (convertToHeapBased lists) ∧
      (freeFrames (convertToHeapBased lists)).Perm (freeFrames lists) ∧
      (knownRegions (convertToHeapBased lists)).Perm (knownRegions lists) := by
  obtain ⟨hgs, hgp⟩ := convertToHeapAllocated_spec hs.1
  obtain ⟨hrs, hrp⟩ := convertToHeapAllocated_spec hs.2
  obtain ⟨hgrs, hgrp⟩ := convertToHeapAllocated_spec hv.generalSorted
  obtain ⟨hrrs, hrrp⟩ := convertToHeapAllocated_spec hv.reservedSorted
  have hregions := hgrp.append hrrp
  exact ⟨⟨hgs, hrs⟩, ⟨hgrs, hrrs, hv.generalSpaced.perm hgrp, hv.reservedSpaced.perm hrrp,
    fun r hr => hv.bounded r (hregions.mem_iff.mp hr)⟩, hgp.append hrp, hregions⟩

/-! ### Ownership over whole runs -/

/-- What is outside the lists: allocated frames, and the chunks that wait in deferred actions. -/
def outstanding (allocated : List Frames) (pending : List DeferredAllocAction) : List Frames :=
  allocated ++ pending.flatMap DeferredAllocAction.held

/-- Everything that owns frames in a state. -/
def owned (s : State R G) : List Frames :=
  freeFrames s.toLists ++ outstanding s.allocated s.pending

/-- Ownership is exclusive: no two owners share a frame. -/
def Exclusive (s : State R G) : Prop :=
  (owned s).Pairwise fun f f' => ∀ n : ℕ, n ∈ f → n ∉ f'

/-- A well-formed initial state: nothing is handed out, the lists are in order, and the free
chunks are pairwise disjoint and inside the regions of their kind. -/
structure WellFormed (s : State R G) : Prop where
  allocated : s.allocated = []
  pending : s.pending = []
  sorted : FreeSorted s.toLists
  valid : RegionsValid s.toLists
  disjoint : (freeFrames s.toLists).Pairwise fun f f' => ∀ n : ℕ, n ∈ f → n ∉ f'
  general : ∀ f ∈ s.freeGeneral.elems, ∀ n, n ∈ f →
    ∃ r ∈ s.generalRegions.elems, n ∈ r.frames
  reserved : ∀ f ∈ s.freeReserved.elems, ∀ n, n ∈ f →
    ∃ r ∈ s.reservedRegions.elems, n ∈ r.frames

/-- The guard on steps: a request at an address must meet `RequestVisible`. -/
def RegionsVisible (s : State R G) : Op → Prop
  | .allocate (some paddr) numFrames => RequestVisible s.toLists paddr numFrames
  | _ => True

/-- What every state of a guarded run satisfies. -/
structure Inv (s : State R G) : Prop where
  sorted : FreeSorted s.toLists
  valid : RegionsValid s.toLists
  owners : ∀ n, cover (owned s) n ≤ 1
  known : ∀ n, 0 < cover (owned s) n → ∃ r ∈ knownRegions s.toLists, n ∈ r.frames

theorem Inv.exclusive (h : Inv s) : Exclusive s :=
  pairwise_disjoint_iff_cover_le_one.mpr h.owners

theorem WellFormed.inv (h : WellFormed s) : Inv s := by
  have howned : owned s = freeFrames s.toLists := by
    rw [owned, h.allocated, h.pending]
    simp [outstanding]
  refine ⟨h.sorted, h.valid, fun n => ?_, fun n hn => ?_⟩
  · rw [howned]
    exact pairwise_disjoint_iff_cover_le_one.mp h.disjoint n
  · rw [howned] at hn
    obtain ⟨f, hf, hmem⟩ := cover_pos_iff.mp hn
    rcases mem_append.mp hf with hf | hf
    · obtain ⟨r, hr, hnr⟩ := h.general f hf n hmem
      exact ⟨r, mem_append_left _ hr, hnr⟩
    · obtain ⟨r, hr, hnr⟩ := h.reserved f hf n hmem
      exact ⟨r, mem_append_right _ hr, hnr⟩

section

variable (h : Inv s) (i : ℕ)

include h

/-- The owned frames exist. -/
theorem Inv.bounded : Bounded (owned s) := by
  intro n hn
  obtain ⟨r, hr, hnr⟩ := h.known n hn
  exact le_trans hnr.2 (h.valid.bounded r hr)

theorem Inv.inBounds_allocated {i : ℕ} {f : Frames} (hf : s.allocated[i]? = some f) : InBounds f :=
  h.bounded.inBounds
    (mem_append_right _ (mem_append_left _ (mem_of_getElem? hf)))

/-- A step that keeps the regions and gives no frame a further owner. -/
theorem Inv.of_cover_le {s' : State R G} (hs : FreeSorted s'.toLists)
    (hv : RegionsValid s'.toLists)
    (hknown : ∀ r ∈ knownRegions s.toLists, r ∈ knownRegions s'.toLists)
    (hle : ∀ n, cover (owned s') n ≤ cover (owned s) n) : Inv s' := by
  refine ⟨hs, hv, fun n => le_trans (hle n) (h.owners n), fun n hn => ?_⟩
  obtain ⟨r, hr, hnr⟩ := h.known n (lt_of_lt_of_le hn (hle n))
  exact ⟨r, hknown r hr, hnr⟩

/-- A step that changes only what clients hold. -/
theorem Inv.of_allocated_le (hle : ∀ n, cover allocated n ≤ cover s.allocated n) :
    Inv { s with allocated := allocated } := by
  refine h.of_cover_le h.sorted h.valid (fun r hr => hr) fun n => ?_
  have := hle n
  simp only [owned, outstanding, cover_append]
  omega

theorem Inv.of_returns {given : List Frames} (hret : Returns s.toLists lists given)
    (hgiven : ∀ n, cover (outstanding allocated pending) n + cover given n =
      cover (outstanding s.allocated s.pending) n) :
    Inv { toLists := lists, allocated := allocated, pending := pending : State R G } := by
  refine h.of_cover_le hret.sorted (h.valid.congr hret.general hret.reserved) (fun r hr => ?_)
    fun n => ?_
  · rw [knownRegions, hret.general, hret.reserved]
    exact hr
  · have hle := hret.cover_le n
    have heq := hgiven n
    simp only [owned, cover_append]
    omega

/-- The frames of an allocation were owned before, or belong to a region nobody knew. -/
theorem Inv.of_allocates (halloc : Allocates s.toLists lists taken)
    (htaken : ∀ n, cover (outstanding allocated pending) n =
      cover taken n + cover (outstanding s.allocated s.pending) n) :
    Inv { toLists := lists, allocated := allocated, pending := pending : State R G } := by
  rcases halloc.cover_le with hle | ⟨region, hregion, hnew, hle⟩
  · refine h.of_cover_le halloc.sorted halloc.valid halloc.known fun n => ?_
    have := hle n
    have := htaken n
    simp only [owned, cover_append]
    omega
  have hsum : ∀ n, cover (owned { toLists := lists, allocated := allocated, pending := pending :
      State R G }) n ≤ cover (owned s) n + cover [region.frames] n := by
    intro n
    have := hle n
    have := htaken n
    simp only [owned, cover_append]
    omega
  -- an owned frame lies in a known region, so not in the new one
  have hdisj : ∀ n, 0 < cover (owned s) n → cover [region.frames] n = 0 := by
    intro n hn
    obtain ⟨r, hr, hnr⟩ := h.known n hn
    rw [cover_singleton, if_neg (hnew r hr n hnr)]
  refine ⟨halloc.sorted, halloc.valid, fun n => ?_, fun n hn => ?_⟩ <;> have h₁ := hsum n
  · have h₂ := h.owners n
    have h₃ := cover_singleton_le_one region.frames n
    rcases Nat.eq_zero_or_pos (cover (owned s) n) with hzero | hpos
    · omega
    · have := hdisj n hpos
      omega
  · rcases Nat.eq_zero_or_pos (cover (owned s) n) with hzero | hpos
    · obtain ⟨r, hr, hnr⟩ := cover_pos_iff.mp (show 0 < cover [region.frames] n by omega)
      cases mem_singleton.mp hr
      exact ⟨region, hregion, hnr⟩
    · obtain ⟨r, hr, hnr⟩ := h.known n hpos
      exact ⟨r, halloc.known r hr, hnr⟩

theorem inv_allocate (paddr : Option Address) (numFrames : ℕ)
    (hg : RegionsVisible s (.allocate paddr numFrames)) :
    Inv (step s (.allocate paddr numFrames)) := by
  have hfree : Bounded (freeFrames s.toLists) := h.bounded.of_cover_le fun n => by
    rw [owned, cover_append]
    exact le_add_right _ _
  have halloc := allocateFramesDeferred_allocates h.sorted hfree h.valid paddr numFrames
    fun p hp => by
      subst hp
      exact hg
  rw [step]
  rcases hcall : allocateFramesDeferred s.toLists paddr numFrames with
    ⟨⟨frames, action⟩ | e | _, lists⟩
  all_goals
    rw [hcall] at halloc
    refine h.of_allocates halloc fun n => ?_
  · simp only [handedOut, outstanding, flatMap_cons, held, cover_append,
      cover_cons]
    omega
  · simp [handedOut]
  · simp [handedOut]

theorem inv_dropAction : Inv (step s (.dropAction i)) := by
  rw [step]
  cases hget : s.pending[i]? with
  | none => exact h
  | some action =>
    refine h.of_returns (dropAction_returns h.sorted action) fun n => ?_
    have := cover_flatMap_eraseIdx_add held hget n
    simp only [outstanding, cover_append]
    omega

theorem inv_merge (j : ℕ) : Inv (step s (.merge i j)) := by
  rw [step]
  cases hj : s.allocated[j]? with
  | none => exact h
  | some other => ?_
  cases hi : (s.allocated.eraseIdx j)[i]? with
  | none => exact h
  | some self => ?_
  cases hmerge : self.merge .page4K other with
  | none => simpa only [hmerge] using h
  | some merged => ?_
  simp only [hmerge]
  refine h.of_allocated_le fun n => ?_
  have htake := cover_eraseIdx_add hj n
  have hset := cover_set_add hi merged n
  have hjoin := Frames.cover_merge_le hmerge n
  omega

theorem inv_splitAt (atFrame : ℕ) : Inv (step s (.splitAt i atFrame)) := by
  rw [step]
  cases hi : s.allocated[i]? with
  | none => exact h
  | some f => ?_
  cases hsplit : f.splitAt .page4K atFrame with
  | none => simpa only [hsplit] using h
  | some parts => ?_
  simp only [hsplit]
  refine h.of_allocated_le fun n => ?_
  have htake := cover_eraseIdx_add hi n
  have hparts := Frames.cover_splitAt hsplit n
  simp only [cover_singleton] at htake hparts
  rw [cover_cons, cover_cons]
  omega

theorem inv_splitRange (range : FrameRange) : Inv (step s (.splitRange i range)) := by
  rw [step]
  cases hi : s.allocated[i]? with
  | none => exact h
  | some f => ?_
  cases hsplit : f.splitRange .page4K range with
  | none => simpa only [hsplit] using h
  | some split => ?_
  simp only [hsplit]
  refine h.of_allocated_le fun n => ?_
  have htake := cover_eraseIdx_add hi n
  have hparts := Frames.cover_splitRange hsplit (h.inBounds_allocated hi) n
  simp only [cover_singleton] at htake hparts
  rw [cover_append, cover_cons, cover_append]
  omega

theorem inv_drop : Inv (step s (.drop i)) := by
  rw [step]
  cases hi : s.allocated[i]? with
  | none => exact h
  | some f =>
    refine h.of_returns (dropFrames_returns h.sorted f) fun n => ?_
    have htake := cover_eraseIdx_add hi n
    simp only [outstanding, cover_append]
    omega

theorem inv_convertToHeapBased : Inv (step s .convertToHeapBased) := by
  obtain ⟨hs, hv, hfree, hregions⟩ := convertToHeapBased_spec h.sorted h.valid
  refine h.of_cover_le hs hv (fun r hr => hregions.mem_iff.mpr hr) fun n => le_of_eq ?_
  show cover (freeFrames (convertToHeapBased s.toLists) ++ _) n = _
  rw [owned, cover_append, cover_append, cover_perm hfree n]
  rfl

end

/-- Every step that meets the guard keeps the invariant. -/
theorem inv_step (s : State R G) (op : Op) (h : Inv s) (hg : RegionsVisible s op) :
    Inv (step s op) := by
  cases op with
  | allocate paddr numFrames => exact inv_allocate h paddr numFrames hg
  | dropAction i => exact inv_dropAction h i
  | merge i j => exact inv_merge h i j
  | splitAt i atFrame => exact inv_splitAt h i atFrame
  | splitRange i range => exact inv_splitRange h i range
  | drop i => exact inv_drop h i
  | convertToHeapBased => exact inv_convertToHeapBased h

/-- **Frame ownership is exclusive** in every state that a run reaches from a well-formed initial
state, as long as the requests at an address meet the guard. -/
theorem frames_exclusive (s : State R G) (ops : List Op) (hs : WellFormed s)
    (hg : Guarded step RegionsVisible s ops) : Exclusive (run step s ops) :=
  (hg.invariant inv_step hs.inv).exclusive

/-- **Only known memory is owned**: in such a run no frame outside the regions ever gets into a free
list or is handed out. -/
theorem owned_frames_known (s : State R G) (ops : List Op) (hs : WellFormed s)
    (hg : Guarded step RegionsVisible s ops) (f : Frames) (hf : f ∈ owned (run step s ops)) (n : ℕ)
    (hn : n ∈ f) : ∃ r ∈ knownRegions (run step s ops).toLists, n ∈ r.frames := by
  have hcover : 0 < cover (owned (run step s ops)) n := cover_pos_iff.mpr ⟨f, hf, hn⟩
  exact (hg.invariant inv_step hs.inv).known n hcover

end Allocator

/-! ### A run that breaks exclusivity -/

/-- Frames 0 to 99 are reserved and frames 256 to 1000 are for general use; nothing is handed
out, and all lists are on the heap. -/
def lowMemory : State (.ofList Frames Frames.start)
    (.ofList PhysicalMemoryRegion PhysicalMemoryRegion.start) where
  freeGeneral := .rbTree [⟨.free, ⟨256, 1000⟩⟩]
  freeReserved := .rbTree [⟨.reserved, ⟨0, 99⟩⟩]
  generalRegions := .rbTree [⟨⟨256, 1000⟩, .free⟩]
  reservedRegions := .rbTree [⟨⟨0, 99⟩, .reserved⟩]
  allocated := []
  pending := []

theorem wellFormed_lowMemory : WellFormed lowMemory where
  allocated := rfl
  pending := rfl
  sorted := ⟨pairwise_singleton _ _, pairwise_singleton _ _⟩
  valid := {
    generalSorted := pairwise_singleton _ _
    reservedSorted := pairwise_singleton _ _
    generalSpaced := ⟨by decide, pairwise_singleton _ _⟩
    reservedSpaced := ⟨by decide, pairwise_singleton _ _⟩
    bounded := by decide }
  disjoint := by
    rw [pairwise_disjoint_iff_cover_le_one]
    intro n
    show cover [(⟨.free, ⟨256, 1000⟩⟩ : Frames), ⟨.reserved, ⟨0, 99⟩⟩] n ≤ 1
    simp only [cover_cons, cover_nil, Frames.mem_def, mem_iff]
    split_ifs <;> omega
  general := by
    intro f hf n hn
    cases mem_singleton.mp hf
    exact ⟨_, mem_singleton_self _, hn⟩
  reserved := by
    intro f hf n hn
    cases mem_singleton.mp hf
    exact ⟨_, mem_singleton_self _, hn⟩

/-- The guard is met by a request inside the reserved region, by one for any frames, and by the
drops of what they return. -/
theorem frames_exclusive_lowMemory :
    Exclusive (run step lowMemory [.allocate (some 0xA000) 2, .allocate none 5, .dropAction 1,
      .splitAt 1 11, .drop 2, .dropAction 0, .drop 0]) :=
  frames_exclusive _ _ wellFormed_lowMemory
    ⟨trivial, trivial, trivial, trivial, trivial, trivial, trivial, trivial⟩

theorem owned_frames_known_lowMemory :
    ∃ r ∈ knownRegions (run step lowMemory [.allocate (some 0xA000) 2]).toLists, 11 ∈ r.frames :=
  owned_frames_known lowMemory [.allocate (some 0xA000) 2] wellFormed_lowMemory ⟨trivial, trivial⟩
    ⟨.reserved, ⟨10, 11⟩⟩ (by decide) 11 (by decide)

/-- Two frames from number 255 on: the first is unknown memory, the second is a free general
frame, and the request owns both. -/
theorem frames_not_exclusive :
    WellFormed lowMemory ∧ ¬ Exclusive (run step lowMemory [.allocate (some 0xFF000) 2]) := by
  refine ⟨wellFormed_lowMemory, fun h => ?_⟩
  have hle := pairwise_disjoint_iff_cover_le_one.mp h 256
  revert hle
  decide

/-- Frames inside the general region are found there. -/
theorem containsAny_exact_lowMemory :
    containsAny lowMemory.generalRegions ⟨300, 310⟩ = true ↔
      ∃ r ∈ lowMemory.generalRegions.elems, ∃ n, n ∈ r.frames ∧ n ∈ (⟨300, 310⟩ : FrameRange) :=
  (containsAny_exact_iff wellFormed_lowMemory.valid.generalSorted
    wellFormed_lowMemory.valid.generalSpaced).mpr (.inl ⟨_, mem_singleton_self _, by decide⟩)

/-- The general region begins at frame 256, inside the range, and is not found. -/
theorem containsAny_misses_region :
    Spaced lowMemory.generalRegions.elems ∧
      ¬ (containsAny lowMemory.generalRegions ⟨255, 256⟩ = true ↔
        ∃ r ∈ lowMemory.generalRegions.elems, ∃ n, n ∈ r.frames ∧ n ∈ (⟨255, 256⟩ : FrameRange)) := by
  refine ⟨wellFormed_lowMemory.valid.generalSpaced, fun hexact => ?_⟩
  have hfound := hexact.mpr ⟨_, mem_singleton_self _, 256, by decide, by decide⟩
  revert hfound
  decide

end Maios.FrameAllocator
