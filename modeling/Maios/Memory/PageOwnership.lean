import Maios.Memory.PageChunks

/-!
# Who owns a virtual page

Two properties of runs of the page allocator, both from the state that `init` and the conversion
to the heap leave: no page has two owners, and no page loses its owner. An owner is a free chunk,
an outstanding `AllocatedPages` or a chunk that waits in a deferred action.

Both properties break on one defect. A request at an address that needs a run of contiguous
chunks is served from a copy of the first chunk. If the run ends before the request does, the
request gets pages that were not free; if it ends behind the request, the rest of the run is
forgotten. `RunCoversRequest` and `RunEndsWithRequest` are the conditions on a step that exclude
the first and both of these.

Page numbers beyond the last page are the second subject. `align_up` may name one, and a chunk
may then reach beyond the address space; since it still contains the last page, it has no rival
there (`Inv.exclusive`). For conservation such requests have to be excluded.
-/

namespace Maios.PageAllocator

open List ChunkRange StaticArrayRBTree DeferredAllocAction AllocatedPages

section Runs

variable {R : OrderedTree Chunk ChunkRange.start}

/-- Everything that owns pages in a state. -/
def owned (s : State R) : List PageRange :=
  s.freeList.elems ++ (s.allocated ++ s.pending.flatMap DeferredAllocAction.held)

/-- Ownership is exclusive: no two owners share a page. -/
def Exclusive (s : State R) : Prop :=
  (owned s).Pairwise fun p p' => ∀ n : ℕ, n ∈ p → n ∉ p'

theorem cover_owned (s : State R) (n : ℕ) :
    cover (owned s) n = cover s.freeList.elems n + cover s.allocated n +
      cover (s.pending.flatMap held) n := by
  rw [owned, cover_append, cover_append, add_assoc]

/-- A request at an address that merges a run of chunks must end by the end of the run. -/
def RunCoversRequest (s : State R) : Op → Prop
  | .allocate request numPages => RequestCovered s.freeList numPages request
  | _ => True

/-- A request at an address that merges a run of chunks must end with the run, and no request may be
served, and no split made, beyond the last page. -/
def RunEndsWithRequest (s : State R) : Op → Prop
  | .allocate request numPages => RequestExact s.freeList s.designatedLowEnd numPages request
  | .split _ atPage => atPage ≤ maxPageNumber
  | _ => True

/-! ### One owner -/

/-- What every state of a run satisfies whose requests are covered. Pages are counted up to the
last one only; chunks may reach beyond it, allocated pages may not. -/
structure Inv (s : State R) : Prop where
  tree : ∃ tree, s.freeList = .rbTree tree ∧ R.Sorted tree
  owners : ∀ n, n ≤ maxPageNumber → cover (owned s) n ≤ 1
  free_start : ∀ c ∈ s.freeList.elems, c.start ≤ maxPageNumber
  pending_start : ∀ a ∈ s.pending, ∀ c ∈ a.held, c.start ≤ maxPageNumber
  allocated_end : ∀ p ∈ s.allocated, p.end_ ≤ maxPageNumber

variable {pages : ℕ → ℕ} {endVaddr : Address} {s : State R} {numPages startPage n : ℕ}
  {allocated : List PageRange} {chunk : Chunk}

/-- An owner of a page beyond the last one owns the last one too. -/
theorem Inv.cover_le_last (h : Inv s) (hn : maxPageNumber < n) :
    cover (owned s) n ≤ cover (owned s) maxPageNumber := by
  refine countP_mono_left fun p hp hmem => ?_
  rw [decide_eq_true_iff, mem_iff] at hmem ⊢
  rcases mem_append.mp hp with hp | hp
  · have := h.free_start p hp
    omega
  rcases mem_append.mp hp with hp | hp
  · have := h.allocated_end p hp
    omega
  · obtain ⟨a, ha, hpa⟩ := mem_flatMap.mp hp
    have := h.pending_start a ha p hpa
    omega

theorem Inv.exclusive (h : Inv s) : Exclusive s := by
  rw [Exclusive, pairwise_disjoint_iff_cover_le_one]
  intro n
  by_cases hn : n ≤ maxPageNumber
  · exact h.owners n hn
  · exact le_trans (h.cover_le_last (not_le.mp hn)) (h.owners _ (le_rfl))

/-- The remainders of a cut begin at pages that exist. -/
theorem cut_start_le (h : chunk.start ≤ maxPageNumber) :
    ∀ c ∈ (cut startPage numPages chunk).2.held, c.start ≤ maxPageNumber := by
  have hone : (empty).start ≤ maxPageNumber := by decide
  simp only [held, cut, mem_cons, not_mem_nil, or_false]
  rintro c (rfl | rfl)
  · rw [before]
    split_ifs
    · exact hone
    · exact h
  · rw [after]
    split_ifs
    · exact hone
    · rw [chunkAdd_page4K]
      exact min_le_left _ _

theorem cut_end_le (startPage numPages : ℕ) (chunk : Chunk) :
    (cut startPage numPages chunk).1.end_ ≤ maxPageNumber := by
  exact min_le_left _ _

/-! ### What a step exchanges -/

/-- A call takes chunks from the tree, for a client or, without pages, for nobody. -/
theorem step_allocate {tree : R.Tree} (htree : s.freeList = .rbTree tree) (hs : R.Sorted tree)
    (request : AllocationRequest) (numPages : ℕ) :
    ∃ tree', R.Sorted tree' ∧
      ((∃ startPage chunk, Takes tree tree' startPage numPages chunk
          (RunCoversRequest s (.allocate request numPages))
          (RunEndsWithRequest s (.allocate request numPages)) ∧
        step s (.allocate request numPages) = { s with
          freeList := .rbTree tree'
          allocated := (cut startPage numPages chunk).1 :: s.allocated
          pending := (cut startPage numPages chunk).2 :: s.pending }) ∨
      Refuses tree tree' ∧
        step s (.allocate request numPages) = { s with freeList := .rbTree tree' }) := by
  obtain ⟨tree', hlist, hs', hcall⟩ :=
    allocatePagesDeferred_spec hs s.designatedLowEnd request numPages
  rw [step, RunCoversRequest, RunEndsWithRequest, htree]
  generalize allocatePagesDeferred (.rbTree tree) s.designatedLowEnd request numPages = r at *
  obtain ⟨result, list⟩ := r
  subst hlist
  refine ⟨tree', hs', ?_⟩
  rcases hcall with ⟨startPage, chunk, hok, htakes⟩ | ⟨hno, hrefuses⟩
  · subst hok
    exact .inl ⟨startPage, chunk, htakes, rfl⟩
  cases result with
  | ok p => exact absurd rfl (hno p)
  | err e | panic => exact .inr ⟨hrefuses, rfl⟩

theorem step_merge (s : State R) (i j : ℕ) : step s (.merge i j) = s ∨
    ∃ self ap l, Exchanged s.allocated l [self, ap] [⟨self.start, ap.end_⟩] ∧
      ap.start = chunkAdd .page4K self.end_ 1 ∧
      step s (.merge i j) = { s with allocated := l } := by
  rw [step]
  cases hj : s.allocated[j]? with
  | none => exact .inl rfl
  | some ap => ?_
  cases hi : (s.allocated.eraseIdx j)[i]? with
  | none => exact .inl rfl
  | some self => ?_
  cases hmerge : merge .page4K self ap with
  | none => exact .inl (by simp only [hmerge])
  | some merged => ?_
  obtain ⟨rfl, hadj⟩ := merge_eq_some hmerge
  exact .inr ⟨self, ap, _, (Exchanged.eraseIdx hj).trans_nil (Exchanged.set hi _), hadj,
    by simp only [hmerge]⟩

theorem step_split (s : State R) (i atPage : ℕ) : step s (.split i atPage) = s ∨
    ∃ p first second l, Exchanged s.allocated l [p] [first, second] ∧
      split .page4K p atPage = some (first, second) ∧
      step s (.split i atPage) = { s with allocated := l } := by
  rw [step]
  cases hi : s.allocated[i]? with
  | none => exact .inl rfl
  | some p => ?_
  cases hsplit : split .page4K p atPage with
  | none => exact .inl (by simp only [hsplit])
  | some parts => ?_
  obtain ⟨first, second⟩ := parts
  exact .inr ⟨p, first, second, first :: second :: s.allocated.eraseIdx i,
    ⟨_, (perm_cons_eraseIdx hi).symm, Perm.refl _⟩, hsplit, by simp only [hsplit]⟩

theorem step_drop (s : State R) (i : ℕ) : step s (.drop i) = s ∨
    ∃ p l, Exchanged s.allocated l [p] [] ∧ step s (.drop i) =
      { s with freeList := dropPages .page4K s.freeList p, allocated := l } := by
  rw [step]
  cases hi : s.allocated[i]? with
  | none => exact .inl rfl
  | some p => exact .inr ⟨p, _, Exchanged.eraseIdx hi, rfl⟩

section

variable (h : Inv s) (i : ℕ)

include h

theorem inv_allocate (request : AllocationRequest) (numPages : ℕ)
    (hg : RunCoversRequest s (.allocate request numPages)) :
    Inv (step s (.allocate request numPages)) := by
  obtain ⟨tree, htree, hs⟩ := h.tree
  have hfree := h.free_start
  rw [htree] at hfree
  obtain ⟨tree', hs', ⟨startPage, chunk, htakes, heq⟩ | ⟨⟨X, e, e', hexch, -⟩, heq⟩⟩ :=
    step_allocate htree hs request numPages
  all_goals rw [heq]
  · obtain ⟨X, e, hexch, hchain, -, hle, hcov, -⟩ := htakes.taken
    have hchunk := hfree chunk (hexch.mem_left mem_cons_self)
    refine ⟨⟨tree', rfl, hs'⟩, fun n hn => ?_, hexch.forall_mem hfree (by simp),
      forall_mem_cons.mpr ⟨cut_start_le hchunk, h.pending_start⟩,
      forall_mem_cons.mpr ⟨cut_end_le _ _ _, h.allocated_end⟩⟩
    -- the run that was taken out had at least the pages that are handed out
    have hbefore := h.owners n hn
    have hacc := hexch.cover_add n
    have hrun := le_trans (cover_cut_le htakes.start_le (hcov hg) hle hn) (hchain.cover_le n)
    simp only [cover_owned, htree, elems_rbTree, flatMap_cons, cover_append, cover_nil, handedOut,
      held] at *
    rw [cover_cons_eq_add] at hacc
    rw [cover_cons_eq_add _ s.allocated]
    rw [cover_cons_eq_add] at hrun
    have heta : (⟨chunk.start, chunk.end_⟩ : PageRange) = chunk := rfl
    rw [heta] at hrun
    omega
  · refine ⟨⟨tree', rfl, hs'⟩, fun n hn => ?_, hexch.forall_mem hfree (by simp), h.pending_start,
      h.allocated_end⟩
    have hbefore := h.owners n hn
    have hacc := hexch.cover_add n
    simp only [cover_owned, htree, elems_rbTree, cover_nil] at *
    omega

theorem inv_dropAction : Inv (step s (.dropAction i)) := by
  obtain ⟨tree, htree, hs⟩ := h.tree
  rw [step]
  cases hget : s.pending[i]? with
  | none => exact h
  | some action => ?_
  obtain ⟨tree', heq, hs', hcover, hmem⟩ := dropAction_spec hs action
  simp only [htree, heq]
  have haction := h.pending_start action (mem_of_getElem? hget)
  refine ⟨⟨tree', rfl, hs'⟩, fun n hn => ?_, fun c hc => ?_, fun a ha => ?_, h.allocated_end⟩
  · have hbefore := h.owners n hn
    have htake := cover_flatMap_eraseIdx_add held hget n
    have hput := hcover n
    simp only [cover_owned, htree, elems_rbTree] at *
    omega
  · rcases hmem c hc with hc | ⟨hc, -⟩
    · exact h.free_start c (by rw [htree]; exact hc)
    · exact haction c hc
  · exact h.pending_start a (mem_of_mem_eraseIdx ha)

/-- Clients exchange ranges for others that have no further pages. -/
theorem Inv.exchange {X Y : List PageRange} (hx : Exchanged s.allocated allocated X Y)
    (hle : ∀ n, cover Y n ≤ cover X n) (hend : ∀ p ∈ Y, p.end_ ≤ maxPageNumber) :
    Inv { s with allocated := allocated } := by
  refine ⟨h.tree, fun n hn => ?_, h.free_start, h.pending_start, hx.forall_mem h.allocated_end hend⟩
  have hbefore := h.owners n hn
  have hacc := hx.cover_add n
  have hless := hle n
  simp only [cover_owned] at *
  omega

theorem inv_merge (j : ℕ) : Inv (step s (.merge i j)) := by
  rcases step_merge s i j with heq | ⟨self, ap, l, hx, hadj, heq⟩ <;> rw [heq]
  · exact h
  refine h.exchange hx (fun n => ?_) (forall_mem_singleton.mpr ?_)
  · rw [cover_cons_eq_add self]
    exact cover_join_le (by rw [hadj, chunkAdd_page4K]; omega) n
  · exact h.allocated_end ap (hx.mem_left (mem_cons_of_mem _ mem_cons_self))

theorem inv_split (atPage : ℕ) : Inv (step s (.split i atPage)) := by
  rcases step_split s i atPage with heq | ⟨p, first, second, l, hx, hsplit, heq⟩ <;> rw [heq]
  · exact h
  refine h.exchange hx (fun n => ?_) ?_
  · rw [cover_cons_eq_add first, cover_split hsplit n]
  · have hend := split_end_le hsplit (h.allocated_end p (hx.mem_left mem_cons_self))
    simpa using hend

theorem inv_drop : Inv (step s (.drop i)) := by
  obtain ⟨tree, htree, hs⟩ := h.tree
  rcases step_drop s i with heq | ⟨p, l, hx, heq⟩ <;> rw [heq]
  · exact h
  by_cases hne : p.start ≤ p.end_
  · obtain ⟨tree', heq, hs', hjoins⟩ := dropPages_joins hs hne
    simp only [htree, heq]
    refine ⟨⟨tree', rfl, hs'⟩, fun n hn => ?_, fun c hc => ?_, h.pending_start,
      hx.forall_mem h.allocated_end (by simp)⟩
    · have hbefore := h.owners n hn
      have htake := hx.cover_add n
      have hput := hjoins.cover_le n
      simp only [cover_owned, htree, elems_rbTree, cover_nil] at *
      omega
    · rcases hjoins.start_mem c hc with hstart | ⟨c', hc', hstart⟩
      · have := h.allocated_end p (hx.mem_left mem_cons_self)
        omega
      · rw [hstart]
        exact h.free_start c' (by rw [htree]; exact hc')
  · have hsize : p.sizeInChunks .page4K = 0 :=
      sizeInChunks_eq_zero_iff.mpr (not_le.mp hne)
    simp only [dropPages, if_pos hsize]
    exact h.exchange hx (fun n => Nat.zero_le _) (by simp)

end

/-- Every covered step keeps the invariant. -/
theorem inv_step (s : State R) (op : Op) (h : Inv s) (hg : RunCoversRequest s op) :
    Inv (step s op) := by
  cases op with
  | allocate request numPages => exact inv_allocate h request numPages hg
  | dropAction i => exact inv_dropAction h i
  | merge i j => exact inv_merge h i j
  | split i atPage => exact inv_split h i atPage
  | drop i => exact inv_drop h i

/-! ### No page is lost -/

/-- What every state of a run satisfies whose requests are exact: page `n` has `pages n` owners,
and all ranges are proper. -/
structure Conserved (pages : ℕ → ℕ) (s : State R) : Prop where
  tree : ∃ tree, s.freeList = .rbTree tree ∧ R.Sorted tree
  owners : ∀ n, cover (owned s) n = pages n
  free_proper : ∀ c ∈ s.freeList.elems, Proper c
  pending_end : ∀ a ∈ s.pending, ∀ c ∈ a.held, c.end_ ≤ maxPageNumber
  allocated_proper : ∀ p ∈ s.allocated, Proper p

theorem cut_end_le_of_proper (h : Proper chunk) (hmax : startPage ≤ maxPageNumber) :
    ∀ c ∈ (cut startPage numPages chunk).2.held, c.end_ ≤ maxPageNumber := by
  simp only [held, cut, new, mem_cons, not_mem_nil, or_false]
  rintro c (rfl | rfl)
  · rw [before]
    split_ifs
    · exact Nat.zero_le _
    · simp only [Option.getD_some, chunkSub_page4K]
      omega
  · rw [after]
    split_ifs
    · exact Nat.zero_le _
    · exact h.1

section

variable (h : Conserved pages s)

include h

theorem conserved_allocate (request : AllocationRequest) (numPages : ℕ)
    (hg : RunEndsWithRequest s (.allocate request numPages)) :
    Conserved pages (step s (.allocate request numPages)) := by
  obtain ⟨tree, htree, hs⟩ := h.tree
  have hfree := h.free_proper
  rw [htree] at hfree
  obtain ⟨tree', hs', ⟨startPage, chunk, htakes, heq⟩ |
    ⟨⟨X, e, e', hexch, hchain, hle, hpos⟩, heq⟩⟩ :=
    step_allocate htree hs request numPages
  all_goals rw [heq]
  · obtain ⟨X, e, hexch, hchain, hpos, hle, -, hex⟩ := htakes.taken
    have hchunk := hfree chunk (hexch.mem_left mem_cons_self)
    have hX : ∀ c ∈ X, Proper c ∧ 0 < c.start := fun c hc =>
      ⟨hfree c (hexch.mem_left (mem_cons_of_mem _ hc)), hpos c hc⟩
    have hmax := htakes.start_max hg
    obtain ⟨hend, hends⟩ := hex hg
    have he : e ≤ maxPageNumber := by
      rcases (hchain.end_le hX).2 with rfl | he
      · exact hchunk.1
      · exact he
    have hproper : Proper (cut startPage numPages chunk).1 := by
      refine ⟨cut_end_le _ _ _, Or.inl ?_⟩
      simp only [cut, newAllocation, chunkAdd_page4K]
      omega
    refine ⟨⟨tree', rfl, hs'⟩, fun n => ?_, hexch.forall_mem hfree (by simp),
      forall_mem_cons.mpr ⟨cut_end_le_of_proper hchunk hmax, h.pending_end⟩,
      forall_mem_cons.mpr ⟨hproper, h.allocated_proper⟩⟩
    -- the pages of the run are exactly those that are handed out
    have hbefore := h.owners n
    have hacc := hexch.cover_add n
    have hcut := cover_cut htakes.start_le hmax hend he
      (hends.imp (fun heq => ⟨heq, hle⟩) fun heq => heq) n
    have hrun : cover [(⟨chunk.start, e⟩ : PageRange)] n = cover [chunk] n + cover X n :=
      hchain.cover_eq (by have := hchunk.2; omega) hX n
    simp only [cover_owned, htree, elems_rbTree, flatMap_cons, cover_append, cover_nil, handedOut,
      held] at *
    rw [cover_cons_eq_add] at hacc
    rw [cover_cons_eq_add _ s.allocated]
    rw [cover_cons_eq_add] at hcut
    omega
  · have hX : ∀ c ∈ X, Proper c ∧ 0 < c.start := fun c hc =>
      ⟨hfree c (hexch.mem_left hc), hpos c hc⟩
    refine ⟨⟨tree', rfl, hs'⟩, fun n => ?_, hexch.forall_mem hfree (by simp), h.pending_end,
      h.allocated_proper⟩
    -- a run that ends where it began has no page
    have hzero : cover X n = 0 := by
      have hge := (hchain.end_le hX).1
      obtain rfl : e' = e := by omega
      have hrun := hchain.cover_eq (a := e' + 1) (Nat.le_refl _) hX n
      omega
    have hbefore := h.owners n
    have hacc := hexch.cover_add n
    simp only [cover_owned, htree, elems_rbTree, cover_nil] at *
    omega

theorem conserved_dropAction (i : ℕ) : Conserved pages (step s (.dropAction i)) := by
  obtain ⟨tree, htree, hs⟩ := h.tree
  rw [step]
  cases hget : s.pending[i]? with
  | none => exact h
  | some action => ?_
  obtain ⟨tree', heq, hs', hcover, hmem⟩ := dropAction_spec hs action
  simp only [htree, heq]
  have haction := h.pending_end action (mem_of_getElem? hget)
  refine ⟨⟨tree', rfl, hs'⟩, fun n => ?_, fun c hc => ?_, fun a ha => ?_, h.allocated_proper⟩
  · have hbefore := h.owners n
    have htake := cover_flatMap_eraseIdx_add held hget n
    have hput := hcover n
    simp only [cover_owned, htree, elems_rbTree] at *
    omega
  · rcases hmem c hc with hc | ⟨hc, hne⟩
    · exact h.free_proper c (by rw [htree]; exact hc)
    · exact ⟨haction c hc, .inl hne⟩
  · exact h.pending_end a (mem_of_mem_eraseIdx ha)

theorem Conserved.exchange {X Y : List PageRange} (hx : Exchanged s.allocated allocated X Y)
    (heq : ∀ n, cover Y n = cover X n) (hproper : ∀ p ∈ Y, Proper p) :
    Conserved pages { s with allocated := allocated } := by
  refine ⟨h.tree, fun n => ?_, h.free_proper, h.pending_end,
    hx.forall_mem h.allocated_proper hproper⟩
  have hbefore := h.owners n
  have hacc := hx.cover_add n
  have hsame := heq n
  simp only [cover_owned] at *
  omega

theorem conserved_merge (hone : pages maxPageNumber ≤ 1) (i j : ℕ) :
    Conserved pages (step s (.merge i j)) := by
  rcases step_merge s i j with heq | ⟨self, ap, l, hx, hadj, heq⟩ <;> rw [heq]
  · exact h
  have hself := h.allocated_proper self (hx.mem_left mem_cons_self)
  have hap := h.allocated_proper ap (hx.mem_left (mem_cons_of_mem _ mem_cons_self))
  have hlast : cover [self] maxPageNumber + cover [ap] maxPageNumber ≤ 1 := by
    have hbefore := h.owners maxPageNumber
    obtain ⟨rest, hperm, -⟩ := hx
    rw [cover_owned, cover_perm hperm, cover_append, cover_cons_eq_add self] at hbefore
    omega
  refine h.exchange hx (fun n => ?_) (forall_mem_singleton.mpr (hself.join hap hadj))
  rw [cover_cons_eq_add self]
  exact cover_join hself hap hadj hlast n

theorem conserved_split (i : ℕ) {atPage : ℕ} (hmax : atPage ≤ maxPageNumber) :
    Conserved pages (step s (.split i atPage)) := by
  rcases step_split s i atPage with heq | ⟨p, first, second, l, hx, hsplit, heq⟩ <;> rw [heq]
  · exact h
  refine h.exchange hx (fun n => ?_) ?_
  · rw [cover_cons_eq_add first, cover_split hsplit n]
  · have hproper := split_proper hsplit
      (h.allocated_proper p (hx.mem_left mem_cons_self)) hmax
    simpa using hproper

theorem conserved_drop (hone : pages maxPageNumber ≤ 1) (i : ℕ) :
    Conserved pages (step s (.drop i)) := by
  obtain ⟨tree, htree, hs⟩ := h.tree
  rcases step_drop s i with heq | ⟨p, l, hx, heq⟩ <;> rw [heq]
  · exact h
  by_cases hne : p.start ≤ p.end_
  · obtain ⟨tree', heq, hs', hjoins⟩ := dropPages_joins hs hne
    have hlast : cover (R.elems tree) maxPageNumber + cover [p] maxPageNumber ≤ 1 := by
      have hbefore := h.owners maxPageNumber
      have htake := hx.cover_add maxPageNumber
      rw [cover_owned, htree, elems_rbTree] at hbefore
      rw [cover_nil] at htake
      omega
    have hfree : ∀ c ∈ R.elems tree, Proper c := fun c hc =>
      h.free_proper c (by rw [htree]; exact hc)
    obtain ⟨hcover, hproper⟩ := hjoins.cover_eq
      (h.allocated_proper p (hx.mem_left mem_cons_self)) hfree hlast
    simp only [htree, heq]
    refine ⟨⟨tree', rfl, hs'⟩, fun n => ?_, hproper, h.pending_end,
      hx.forall_mem h.allocated_proper (by simp)⟩
    have hbefore := h.owners n
    have htake := hx.cover_add n
    have hput := hcover n
    simp only [cover_owned, htree, elems_rbTree, cover_nil] at *
    omega
  · have hsize : p.sizeInChunks .page4K = 0 :=
      sizeInChunks_eq_zero_iff.mpr (not_le.mp hne)
    simp only [dropPages, if_pos hsize]
    exact h.exchange hx (fun n => (cover_eq_zero_of_lt (not_le.mp hne) n).symm) (by simp)

end

/-- Every exact step keeps all owners. -/
theorem conserved_step (hone : pages maxPageNumber ≤ 1) (s : State R) (op : Op)
    (h : Conserved pages s) (hg : RunEndsWithRequest s op) : Conserved pages (step s op) := by
  cases op with
  | allocate request numPages => exact conserved_allocate h request numPages hg
  | dropAction i => exact conserved_dropAction h i
  | merge i j => exact conserved_merge h hone i j
  | split i atPage => exact conserved_split h i hg
  | drop i => exact conserved_drop h hone i

/-! ### The state after `init` -/

theorem init_eq_ok (h : init endVaddr = .ok s) :
    containingAddress endVaddr < designatedPagesHighStart ∧ s.allocated = [] ∧ s.pending = [] ∧
      s.freeList.elems = initialFreeChunks (containingAddress endVaddr) := by
  rw [init] at h
  split_ifs at h with hend
  cases h
  refine ⟨?_, rfl, rfl, rfl⟩
  exact Nat.div_lt_of_lt_mul (by rwa [mul_comm] at hend)

/-- The heap-based state has the chunks of `init`, in order, and nothing else. -/
theorem convertToHeapBased_init (h : init endVaddr = .ok s) :
    ∃ tree, (convertToHeapBased s).freeList = .rbTree tree ∧ R.Sorted tree ∧
      (R.elems tree).Perm (initialFreeChunks (containingAddress endVaddr)) ∧
      (convertToHeapBased s).allocated = [] ∧ (convertToHeapBased s).pending = [] := by
  obtain ⟨-, halloc, hpending, helems⟩ := init_eq_ok h
  have hsorted : s.freeList.Sorted := by
    rw [init] at h
    split_ifs at h
    cases h
    trivial
  obtain ⟨hs, hperm⟩ := convertToHeapAllocated_spec hsorted
  rw [helems] at hperm
  cases hlist : s.freeList.convertToHeapAllocated with
  | array arr =>
    rw [init] at h
    split_ifs at h
    cases h
    cases hlist
  | rbTree tree =>
    rw [hlist] at hs hperm
    exact ⟨tree, hlist, hs, hperm, halloc, hpending⟩

/-- The regions of the upper half lie in this order. -/
theorem highRegions_ordered :
    designatedPagesHighStart < kernelHeapStart ∧ kernelHeapStart < recursiveP4Start ∧
      recursiveP4Start < kernelTextStart ∧ kernelTextStart < maxPageNumber := by
  decide

section

variable {lowEnd : ℕ} (h : lowEnd < designatedPagesHighStart)

include h

/-- The chunks of `init` share no page. -/
theorem cover_initialFreeChunks_le (n : ℕ) : cover (initialFreeChunks lowEnd) n ≤ 1 := by
  obtain ⟨h₁, h₂, h₃, h₄⟩ := highRegions_ordered
  simp only [initialFreeChunks, cover_cons, cover_nil, mem_iff, chunkAdd_page4K, chunkSub_page4K]
  split_ifs <;> omega

theorem proper_initialFreeChunks :
    ∀ c ∈ initialFreeChunks lowEnd, Proper c ∧ c.start ≤ maxPageNumber := by
  obtain ⟨h₁, h₂, h₃, h₄⟩ := highRegions_ordered
  simp only [initialFreeChunks, mem_cons, not_mem_nil, or_false, Proper]
  rintro c (rfl | rfl | rfl | rfl) <;> simp only [chunkAdd_page4K, chunkSub_page4K] <;> omega

end

section

variable (h : init endVaddr = .ok s)

include h

theorem owned_init :
    (owned (convertToHeapBased s)).Perm (initialFreeChunks (containingAddress endVaddr)) := by
  obtain ⟨tree, hlist, -, hperm, halloc, hpending⟩ := convertToHeapBased_init h
  rw [owned, hlist, halloc, hpending, flatMap_nil, append_nil, append_nil]
  exact hperm

theorem inv_init : Inv (convertToHeapBased s) := by
  have hlow := (init_eq_ok h).1
  obtain ⟨tree, hlist, hs, hperm, halloc, hpending⟩ := convertToHeapBased_init h
  refine ⟨⟨tree, hlist, hs⟩, fun n _ => ?_, fun c hc => ?_, ?_, ?_⟩
  · rw [cover_perm (owned_init h)]
    exact cover_initialFreeChunks_le hlow n
  · rw [hlist] at hc
    exact (proper_initialFreeChunks hlow c (hperm.mem_iff.mp hc)).2
  · simp [hpending]
  · simp [halloc]

theorem conserved_init : Conserved (cover s.freeList.elems) (convertToHeapBased s) := by
  obtain ⟨hlow, -, -, helems⟩ := init_eq_ok h
  obtain ⟨tree, hlist, hs, hperm, halloc, hpending⟩ := convertToHeapBased_init h
  refine ⟨⟨tree, hlist, hs⟩, fun n => ?_, fun c hc => ?_, ?_, ?_⟩
  · rw [cover_perm (owned_init h), helems]
  · rw [hlist] at hc
    exact (proper_initialFreeChunks hlow c (hperm.mem_iff.mp hc)).1
  · simp [hpending]
  · simp [halloc]

end

/-! ### Main results -/

/-- A covered request gets only pages of free chunks. -/
theorem Inv.pages_free (h : Inv s) {request : AllocationRequest}
    (hg : RunCoversRequest s (.allocate request numPages)) {p : PageRange × DeferredAllocAction}
    (hp : (allocatePagesDeferred s.freeList s.designatedLowEnd request numPages).1 = .ok p)
    (hn : n ∈ p.1) : ∃ c ∈ s.freeList.elems, n ∈ c := by
  obtain ⟨tree, htree, hs⟩ := h.tree
  rw [RunCoversRequest, htree] at hg
  rw [htree] at hp ⊢
  obtain ⟨tree', -, -, ⟨startPage, chunk, hok, htakes⟩ | ⟨hno, -⟩⟩ :=
    allocatePagesDeferred_spec hs s.designatedLowEnd request numPages
  · rw [hp] at hok
    cases hok
    obtain ⟨X, e, hexch, hchain, -, -, hcov, -⟩ := htakes.taken
    have hrun : 0 < cover (chunk :: X) n := by
      have hstart := htakes.start_le
      have hend := hcov hg
      have hle := hchain.cover_le (a := chunk.start) n
      have hin : 0 < cover [(⟨chunk.start, e⟩ : PageRange)] n := by
        refine cover_pos_iff.mpr ⟨_, mem_singleton_self _, ?_⟩
        simp only [cut, mem_iff, newAllocation] at hn hend ⊢
        omega
      rw [cover_cons_eq_add]
      exact Nat.lt_of_lt_of_le hin hle
    obtain ⟨c, hc, hnc⟩ := cover_pos_iff.mp hrun
    exact ⟨c, hexch.mem_left hc, hnc⟩
  · exact absurd hp (hno p)

/-- **Page ownership is exclusive** in every state that a run reaches from the state after `init`
and the conversion to the heap, as long as the requests at an address are covered; and such
requests get only pages that were free. -/
theorem pages_exclusive (endVaddr : Address) (s : State R) (hinit : init endVaddr = .ok s)
    (ops : List Op) (hg : Guarded step RunCoversRequest (convertToHeapBased s) ops) :
    Exclusive (run step (convertToHeapBased s) ops) ∧
      ∀ vaddr numPages p,
        RunCoversRequest (run step (convertToHeapBased s) ops)
          (.allocate (.atVirtualAddress vaddr) numPages) →
        (allocatePagesDeferred (run step (convertToHeapBased s) ops).freeList
          (run step (convertToHeapBased s) ops).designatedLowEnd
          (.atVirtualAddress vaddr) numPages).1 = .ok p →
        ∀ n ∈ p.1, ∃ c ∈ (run step (convertToHeapBased s) ops).freeList.elems, n ∈ c := by
  have hinv : Inv (run step (convertToHeapBased s) ops) := hg.invariant inv_step (inv_init hinit)
  exact ⟨hinv.exclusive, fun vaddr numPages p hcov hp n hn => hinv.pages_free hcov hp hn⟩

/-- **No page is lost** in a run from the state after `init` and the conversion to the heap, as
long as the requests are exact: free chunks, pending chunks and allocated pages together are the
pages that were free after `init`. -/
theorem pages_conserved (endVaddr : Address) (s : State R) (hinit : init endVaddr = .ok s)
    (ops : List Op) (hg : Guarded step RunEndsWithRequest (convertToHeapBased s) ops) (n : ℕ) :
    (∃ p ∈ owned (run step (convertToHeapBased s) ops), n ∈ p) ↔
      ∃ c ∈ s.freeList.elems, n ∈ c := by
  obtain ⟨hlow, -, -, helems⟩ := init_eq_ok hinit
  have hone : cover s.freeList.elems maxPageNumber ≤ 1 := by
    rw [helems]
    exact cover_initialFreeChunks_le hlow _
  have hcons := hg.invariant (conserved_step hone) (conserved_init hinit)
  rw [← cover_pos_iff, ← cover_pos_iff, hcons.owners]

end Runs

/-! ### Runs on a small kernel image -/

/-- The state after `init` for a kernel image of 512 pages. -/
def smallImage : State (.ofList Chunk ChunkRange.start) where
  freeList := .array ⟨(initialFreeChunks 511).map some ++ List.replicate 28 none, rfl⟩
  designatedLowEnd := some 511
  allocated := []
  pending := []

theorem init_smallImage : init 0x1FFFFF = .ok smallImage := rfl

/-- Two pages of the image are taken, split, merged and given back; a request for the whole image
then has to merge two chunks, and ends with the second. -/
theorem pages_exclusive_smallImage :
    Exclusive (run step (convertToHeapBased smallImage)
      [.allocate (.atVirtualAddress 0x1000) 2, .dropAction 0, .split 0 2, .allocate .any 3,
        .dropAction 0, .merge 1 2, .drop 1, .allocate (.atVirtualAddress 0) 512]) :=
  And.left (pages_exclusive _ _ init_smallImage _
    ⟨.inl (by decide), trivial, trivial, trivial, trivial, trivial, trivial,
      .inr (.inr (by decide)), trivial⟩)

/-- A request at address zero that reaches the heap region: the run of contiguous chunks ends
below the recursive mapping, and the request gets the first page of the free heap chunk. -/
theorem pages_not_exclusive :
    init 0x1FFFFF = .ok smallImage ∧
      ¬ Exclusive (run step (convertToHeapBased smallImage)
        [.allocate (.atVirtualAddress 0) (kernelHeapStart + 1)]) := by
  refine ⟨init_smallImage, fun h => ?_⟩
  have hle := pairwise_disjoint_iff_cover_le_one.mp h kernelHeapStart
  revert hle
  decide

theorem pages_conserved_smallImage :
    (∃ p ∈ owned (run step (convertToHeapBased smallImage)
      [.allocate (.atVirtualAddress 0x1000) 2, .dropAction 0, .split 0 2, .allocate .any 3,
        .dropAction 0, .drop 2]), 2 ∈ p) ↔ ∃ c ∈ smallImage.freeList.elems, 2 ∈ c :=
  pages_conserved 0x1FFFFF smallImage init_smallImage
    [.allocate (.atVirtualAddress 0x1000) 2, .dropAction 0, .split 0 2, .allocate .any 3,
      .dropAction 0, .drop 2]
    ⟨⟨.inl (by decide), by decide⟩, trivial, show 2 ≤ maxPageNumber by decide,
      ⟨trivial, by decide⟩, trivial, trivial, trivial⟩ 2

/-- One page more than the image at address zero: the run that is merged for the request ends far
behind it, and the pages in between are forgotten. -/
theorem pages_not_conserved :
    init 0x1FFFFF = .ok smallImage ∧
      ¬ ((∃ p ∈ owned (run step (convertToHeapBased smallImage)
          [.allocate (.atVirtualAddress 0) 513]), 513 ∈ p) ↔
        ∃ c ∈ smallImage.freeList.elems, 513 ∈ c) := by
  refine ⟨init_smallImage, fun h => ?_⟩
  revert h
  decide

end Maios.PageAllocator
