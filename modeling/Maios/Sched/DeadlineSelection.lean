import Maios.Sched.DeadlineAdmission

/-!
# Which deadline task is picked

The key of an entry is its absolute deadline and its id. `pick_next` looks at the first entry only: if
its budget is used up, the entry is filed again for the next period and nothing is picked, even if a
later entry has budget left. So the earliest deadline comes first exactly if the first entry has
budget left or no entry has.

## Main results

* `deadline_picks_earliest` — the earliest deadline comes first, exactly under this condition
-/

namespace Maios

variable {q : DeadlineRunQueue} {e : VtKey × DlTask}

namespace Sched

namespace DeadlineRunQueue

/-- If an entry has budget left, the earliest of these is picked; and a task without budget stays. -/
structure PicksEarliest (tasks : Tasks) (q : DeadlineRunQueue) : Prop where
  picks : (∃ e ∈ q.tasks.entries, e.2.budgetRemaining ≠ 0) →
    ∃ e ∈ q.tasks.entries, e.2.budgetRemaining ≠ 0 ∧ (q.pickNext tasks).1 = some e.2.task ∧
      ∀ e' ∈ q.tasks.entries, e'.2.budgetRemaining ≠ 0 → e.1 ≤ e'.1
  stays : ∀ e ∈ q.tasks.entries, e.2.budgetRemaining = 0 → e.2.task ∈ (q.pickNext tasks).2.stored

/-- The first entry has budget left, or no entry has. -/
def FirstHasBudget (q : DeadlineRunQueue) : Prop :=
  ∀ e ∈ q.tasks.first?, e.2.budgetRemaining = 0 →
    ∀ e' ∈ q.tasks.entries, e'.2.budgetRemaining = 0

/-- Nothing is picked if the first entry has no budget. -/
theorem pickNext_eq_none {tasks : Tasks} (hfirst : q.tasks.first? = some e)
    (hzero : e.2.budgetRemaining = 0) : (q.pickNext tasks).1 = none := by
  rw [pickNext, hfirst]
  dsimp only
  rw [if_pos hzero]
  split <;> rfl

/-- Where nothing is picked, nothing is lost. -/
theorem stays_of_none {tasks : Tasks} (h : Wf tasks q) (hnone : (q.pickNext tasks).1 = none)
    (he : e ∈ q.tasks.entries) : e.2.task ∈ (q.pickNext tasks).2.stored := by
  rcases pickNext_cases h with heq | ⟨key, entry, hmem, ⟨newDeadline, runtime, heq⟩ | heq⟩ <;>
    rw [heq] at hnone ⊢
  · exact List.mem_map.mpr ⟨e, he, rfl⟩
  · by_cases htask : e.2.task = entry.task
    · rw [htask]
      exact List.mem_map.mpr ⟨_, OrdMap.mem_insert_iff.mpr (.inl rfl), rfl⟩
    -- keys carry the id of their task, so those of other tasks are other keys
    · have hne : ∀ k : VtKey, k.taskId = entry.task → e.1 ≠ k := fun k hk hkey =>
        htask ((h.keyed e he).symm.trans (hkey ▸ hk))
      exact List.mem_map.mpr ⟨e, OrdMap.mem_insert_iff.mpr (.inr ⟨OrdMap.mem_remove.mpr
        ⟨he, hne key (h.keyed _ hmem)⟩, hne _ (taskId_vtKey _ _)⟩), rfl⟩
  · cases hnone

/-- **The earliest deadline is picked first** exactly if the first entry has budget left, or no entry
has. -/
theorem deadline_picks_earliest (tasks : Tasks) (ops : List DlOp) :
    let q := (run (DlState.step tasks) .new ops).queue
    q.PicksEarliest tasks ↔ q.FirstHasBudget := by
  intro q
  have hwf : q.Wf tasks := (run_invariant dlWf_step (dlWf_new tasks) ops).queue
  refine ⟨fun hearliest first hfirst hzero e' he' => ?_, fun hbudget => ?_⟩
  · by_contra hne
    obtain ⟨e, -, -, hpick, -⟩ := hearliest.picks ⟨e', he', hne⟩
    rw [pickNext_eq_none hfirst hzero] at hpick
    cases hpick
  cases hfirst : q.tasks.first? with
  | none =>
    rw [OrdMap.first?_eq_none] at hfirst
    refine ⟨fun ⟨e, he, _⟩ => ?_, fun e he => ?_⟩ <;> rw [hfirst] at he <;> cases he
  | some first => ?_
  have hmem := OrdMap.first?_mem hfirst
  by_cases hzero : first.2.budgetRemaining = 0
  · exact ⟨fun ⟨e, he, hne⟩ => absurd (hbudget first hfirst hzero e he) hne,
      fun e he _ => stays_of_none hwf (pickNext_eq_none hfirst hzero) he⟩
  have hpick : q.pickNext tasks = (some first.2.task,
      { q with tasks := q.tasks.remove first.1, nrRunning := q.nrRunning - 1 }) := by
    rw [pickNext, hfirst]
    dsimp only
    rw [if_neg hzero]
  refine ⟨fun _ => ⟨first, hmem, hzero, by rw [hpick], fun e he _ => OrdMap.first?_le hfirst he⟩,
    fun e he hbudget => ?_⟩
  rw [hpick]
  refine List.mem_map.mpr ⟨e, OrdMap.mem_remove.mpr ⟨he, fun hkey => hzero ?_⟩, rfl⟩
  rw [← OrdMap.entry_ext he hmem hkey]
  exact hbudget

/-- The second entry of a task that runs has no budget left, and the task behind it is passed over. -/
theorem deadline_passes_over :
    ¬ (run (DlState.step fun _ => { sched := { policy := .deadline 10 100 100 } }) .new
      [.enqueue 1 0, .enqueue 1 5, .enqueue 2 5, .pickNext, .tick 1 10]).queue.PicksEarliest
      fun _ => { sched := { policy := .deadline 10 100 100 } } := by
  intro h
  obtain ⟨e, -, -, hpick, -⟩ := h.picks (by decide)
  exact Option.some_ne_none _ hpick.symm

end DeadlineRunQueue

end Sched

end Maios
