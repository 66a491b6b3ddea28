import Maios.Syscall.Resource

/-!
# Descriptor numbers

A number that the table gives out should be free, should not be given out again, and should be one
that the caller can close. In a run of calls on a new table this is so exactly if each number that is
given out has no entry and is none of the six that cannot be closed.

The table does not check this. Its first descriptor is 3, which is the number of the standard input
for Windows programs: the entry is replaced, and the descriptor cannot be closed. So the runs in which
all goes well give out handles only.

## Main results

* `numbers_unconfused` — the equivalence, for every run
-/

namespace Maios.Syscall

open ResourceTable Option

variable {F M : Type}

/-- What is expected of a run from a table: the numbers given out are not in use, nothing else
changes, a descriptor from `alloc_fd` is not given out again, and as long as the caller neither closes
a number nor duplicates something onto it, closing it returns its resource. -/
structure Unconfused (t : ResourceTable F M) (ops : List (TableOp F M)) : Prop where
  unused : ∀ pre op post n, ops = pre ++ op :: post → op.given (run TableOp.step t pre) = some n →
    (run TableOp.step t pre).get n = none
  others : ∀ pre op post n, ops = pre ++ op :: post → op.given (run TableOp.step t pre) = some n →
    ∀ m ≠ n, (op.step (run TableOp.step t pre)).get m = (run TableOp.step t pre).get m
  once : ∀ pre r mid op post n, ops = pre ++ .allocFd r :: (mid ++ op :: post) →
    (TableOp.allocFd r).given (run TableOp.step t pre) = some n →
      op.given (run TableOp.step t (pre ++ .allocFd r :: mid)) ≠ some n
  closes : ∀ pre op mid post n r, ops = pre ++ op :: (mid ++ post) →
    op.given (run TableOp.step t pre) = some n → op.resource (run TableOp.step t pre) = some r →
      (∀ o ∈ mid, o.target ≠ some n) →
        ((run TableOp.step t (pre ++ op :: mid)).close n).1 = some r

/-- The number that the call would give out has no entry and can be closed. -/
def Fresh (t : ResourceTable F M) : TableOp F M → Prop
  | .allocFd _ => t.get t.nextFd = none ∧ isStdio t.nextFd = false
  | .allocHandle _ => t.get t.nextHandle = none ∧ isStdio t.nextHandle = false
  | .dup srcHandle => (t.get srcHandle).bind Resource.duplicate = none ∨
      t.get t.nextFd = none ∧ isStdio t.nextFd = false
  | .dup2 _ _ => True
  | .close _ => True

namespace TableOp

variable {t : ResourceTable F M} {op : TableOp F M} {n m : ℕ} {r : Resource F M}

/-! ### What one call does -/

/-- A call that gives out a number installs its resource there and changes nothing else. -/
theorem given_spec (h : op.given t = some n) : ∃ r, op.resource t = some r ∧
    (op.step t).get n = some r ∧ ∀ m ≠ n, (op.step t).get m = t.get m := by
  rcases op with r | r | src | ⟨src, target⟩ | handle
  · obtain rfl : t.nextFd = n := some.inj h
    exact ⟨r, rfl, t.get_allocFd_self r, fun m hm => t.get_allocFd_of_ne r hm⟩
  · obtain rfl : t.nextHandle = n := some.inj h
    exact ⟨r, rfl, t.get_allocHandle_self r, fun m hm => t.get_allocHandle_of_ne r hm⟩
  · rw [given, ResourceTable.dup] at h
    rw [resource, step, ResourceTable.dup]
    rcases hdup : (t.get src).bind Resource.duplicate with _ | r <;> rw [hdup] at h
    · cases h
    · obtain rfl : t.nextFd = n := some.inj h
      exact ⟨r, rfl, t.get_allocFd_self r, fun m hm => t.get_allocFd_of_ne r hm⟩
  · cases h
  · cases h

/-- A number keeps its entry unless it is given out or aimed at. -/
theorem get_step (htarget : op.target ≠ some n) (hgiven : op.given t ≠ some n) :
    (op.step t).get n = t.get n := by
  rcases hop : op.given t with _ | m
  · rcases op with r | r | src | ⟨src, target⟩ | handle
    · cases hop
    · cases hop
    · rw [given, ResourceTable.dup] at hop
      rw [step, ResourceTable.dup]
      rcases hdup : (t.get src).bind Resource.duplicate with _ | r
      · rfl
      · rw [hdup] at hop
        cases hop
    · exact t.get_dup2_of_ne fun h => htarget (congrArg some h.symm)
    · exact t.get_close_of_ne fun h => htarget (congrArg some h.symm)
  · obtain ⟨-, -, -, hothers⟩ := given_spec hop
    exact hothers n fun h => hgiven (by rw [hop, h])

/-- `Fresh` is about the number that is given out. -/
theorem fresh_iff : Fresh t op ↔ ∀ n, op.given t = some n → t.get n = none ∧ isStdio n = false := by
  rcases op with r | r | src | ⟨src, target⟩ | handle
  · simp [Fresh, given, ResourceTable.allocFd]
  · simp [Fresh, given, ResourceTable.allocHandle]
  · rw [Fresh, given, ResourceTable.dup]
    rcases (t.get src).bind Resource.duplicate with _ | r
    · exact ⟨fun _ n h => (by cases h), fun _ => .inl rfl⟩
    · refine ⟨fun h n hn => ?_, fun h => .inr (h t.nextFd rfl)⟩
      obtain rfl : t.nextFd = n := some.inj hn
      exact h.resolve_left fun h => (by cases h)
  · exact ⟨fun _ n h => (by cases h), fun _ => trivial⟩
  · exact ⟨fun _ n h => (by cases h), fun _ => trivial⟩

/-- The entries of the standard streams are replaced, but never removed. -/
theorem get_step_stdio (hn : isStdio n = true) (h : t.get n ≠ none) : (op.step t).get n ≠ none := by
  by_cases hgiven : op.given t = some n
  · obtain ⟨r, -, hget, -⟩ := given_spec hgiven
    rw [hget]
    exact fun h => (by cases h)
  by_cases htarget : op.target = some n
  · rcases op with r | r | src | ⟨src, target⟩ | handle
    · cases htarget
    · cases htarget
    · cases htarget
    · obtain rfl : target = n := some.inj htarget
      rcases t.dup2_cases src target with heq | ⟨r, hget, -⟩
      · rwa [step, heq]
      · rw [step, hget]
        exact fun h => (by cases h)
    · obtain rfl : handle = n := some.inj htarget
      rw [step, t.close_of_stdio hn]
      exact h
  · rwa [get_step htarget hgiven]

end TableOp

/-! ### Runs -/

section Runs

variable {t : ResourceTable F M} {ops : List (TableOp F M)} {n : ℕ} {r : Resource F M}
  {op : TableOp F M}

/-- A number keeps its resource over a run that does not aim at it. -/
theorem get_run (h : Guarded TableOp.step Fresh t ops) (hget : t.get n = some r)
    (htarget : ∀ op ∈ ops, op.target ≠ some n) : (run TableOp.step t ops).get n = some r := by
  induction ops generalizing t with
  | nil => exact hget
  | cons op ops ih =>
    obtain ⟨hfresh, hrest⟩ := h
    refine ih hrest ?_ (List.forall_mem_cons.mp htarget).2
    rw [TableOp.get_step (htarget op List.mem_cons_self) fun hgiven => ?_]
    · exact hget
    · cases hget.symm.trans (TableOp.fresh_iff.mp hfresh n hgiven).1

/-- The next descriptor is 3, and there is an entry under that number. -/
def Stuck (t : ResourceTable F M) : Prop := t.nextFd = 3 ∧ t.get 3 ≠ none

theorem Stuck.not_given (h : Stuck t) (hfresh : Fresh t op) :
    op.given t ≠ some 3 := fun hgiven => h.2 (TableOp.fresh_iff.mp hfresh 3 hgiven).1

/-- No descriptor is given out. -/
theorem Stuck.step (h : Stuck t) (hfresh : Fresh t op) : Stuck (op.step t) := by
  refine ⟨?_, TableOp.get_step_stdio (by decide) h.2⟩
  have hnot := h.not_given hfresh
  rcases op with r | r | src | ⟨src, target⟩ | handle
  · exact absurd (congrArg some h.1) hnot
  · exact h.1
  · rw [TableOp.given, dup] at hnot
    rw [TableOp.step, dup]
    rcases hdup : (t.get src).bind Resource.duplicate with _ | r
    · exact h.1
    · rw [hdup] at hnot
      exact absurd (congrArg some h.1) hnot
  · exact (t.nextFd_dup2 src target).trans h.1
  · exact (t.nextFd_close handle).trans h.1

theorem stuck_new : Stuck (new : ResourceTable F M) := ⟨rfl, fun h => (by cases h)⟩

end Runs

/-- **When no number is confused.** In a run of calls on a new table the numbers given out are free,
are not given out again and can be closed if and only if each of them has no entry and can be closed
at the time of the call. -/
theorem numbers_unconfused (ops : List (TableOp F M)) :
    Unconfused new ops ↔ Guarded TableOp.step Fresh new ops := by
  constructor
  · intro h
    -- each call is seen as the last one of a run
    suffices hall : ∀ pre post, ops = pre ++ post →
        Guarded TableOp.step Fresh (run TableOp.step new pre) post from hall [] ops rfl
    intro pre post
    induction post generalizing pre with
    | nil => exact fun _ => trivial
    | cons op post ih =>
      intro heq
      refine ⟨TableOp.fresh_iff.mpr fun n hgiven => ⟨h.unused pre op post n heq hgiven, ?_⟩, ?_⟩
      · obtain ⟨r, hr, -⟩ := TableOp.given_spec hgiven
        have hclose := h.closes pre op [] post n r heq hgiven hr fun o ho => absurd ho List.not_mem_nil
        by_contra hstdio
        rw [close_of_stdio _ (Bool.eq_true_of_not_eq_false hstdio)] at hclose
        cases hclose
      · have hrest := ih (pre ++ [op]) (by rw [heq, List.append_assoc, List.singleton_append])
        rwa [run_append] at hrest
  · intro h
    have hsplit : ∀ pre op post, ops = pre ++ op :: post →
        Fresh (run TableOp.step new pre) op ∧
          Guarded TableOp.step Fresh (op.step (run TableOp.step new pre)) post := by
      rintro pre op post rfl
      exact (guarded_append.mp h).2
    refine ⟨fun pre op post n heq hgiven => ?_, fun pre op post n _ hgiven => ?_,
      fun pre r mid op post n heq hgiven => ?_, fun pre op mid post n r heq hgiven hr htarget => ?_⟩
    · exact (TableOp.fresh_iff.mp (hsplit pre op post heq).1 n hgiven).1
    · obtain ⟨-, -, -, hothers⟩ := TableOp.given_spec hgiven
      exact hothers
    · -- `alloc_fd` is not called at all
      subst heq
      have hstuck : Stuck (run TableOp.step (new : ResourceTable F M) pre) :=
        (guarded_append.mp h).1.invariant (fun s op hs hop => hs.step hop) stuck_new
      refine absurd (congrArg some hstuck.1) (hstuck.not_given (hsplit pre _ _ rfl).1)
    · obtain ⟨hfresh, hrest⟩ := hsplit pre op _ heq
      obtain ⟨r', hr', hget, -⟩ := TableOp.given_spec hgiven
      obtain rfl : r = r' := some.inj (hr.symm.trans hr')
      have hkept := get_run (guarded_append.mp hrest).1 hget htarget
      rw [run_append, close_of_not_stdio _ (TableOp.fresh_iff.mp hfresh n hgiven).2]
      exact hkept

/-- **The first descriptor is confused with the standard input.** It is 3, which is in use, and it
cannot be closed. -/
theorem descriptor_confused :
    ¬ Unconfused (new : ResourceTable Unit Unit) [.allocFd .stdout] ∧
      ((new : ResourceTable Unit Unit).allocFd .stdout).1 = 3 ∧
      (new : ResourceTable Unit Unit).get 3 = some .stdin ∧
      (((new : ResourceTable Unit Unit).allocFd .stdout).2.close 3).1 = none := by
  refine ⟨fun h => ?_, rfl, rfl, rfl⟩
  cases h.unused [] (.allocFd .stdout) [] 3 rfl rfl

end Maios.Syscall
