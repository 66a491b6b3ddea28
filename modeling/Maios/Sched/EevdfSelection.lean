import Maios.Sched.EevdfAccounting
import Maios.Sched.WorkConservation

/-!
# The task that is picked

`pick_next` is meant to return, of the tasks that the clock has made eligible, the one with the
earliest virtual deadline. It promotes the front of the ineligible map and takes the front of the
eligible map. This is right as long as the keys of the maps are what the tasks say: the front of the
ineligible map is then exactly the part that the clock has reached, and every eligible task was
reached when it was put there, since the clock never goes back.

`enqueue` writes the data of a task without asking whether the task is stored somewhere. If it is, its
entry stays behind under the old key.

## Main results

* `eevdf_picks_earliest` — the earliest deadline is picked along every run
-/

namespace Maios.Sched

open List OrdMap EevdfRunQueue

/-- The picked task is the one with the least virtual deadline among the stored tasks that the clock
has reached, nothing is picked only if there is none, no other task is taken out, and afterwards the
maps are divided by the clock. -/
structure PicksEarliest (tasks : Tasks) (q : EevdfRunQueue) : Prop where
  least : ∀ t, (q.pickNext tasks).1 = some t →
    t ∈ q.stored ∧ (tasks t).sched.ve ≤ q.minVruntime ∧
      ∀ u ∈ q.stored, (tasks u).sched.ve ≤ q.minVruntime →
        vtKey (tasks t).sched.vdeadline t ≤ vtKey (tasks u).sched.vdeadline u
  none : (q.pickNext tasks).1 = none → ∀ u ∈ q.stored, q.minVruntime < (tasks u).sched.ve
  rest : q.stored.Perm ((q.pickNext tasks).1.toList ++ (q.pickNext tasks).2.stored)
  eligible : ∀ t ∈ (q.pickNext tasks).2.eligible.values, (tasks t).sched.ve ≤ q.minVruntime
  ineligible : ∀ t ∈ (q.pickNext tasks).2.ineligible.values, q.minVruntime < (tasks t).sched.ve

/-- The maps agree with the tasks, and the eligible tasks are eligible. -/
structure Timely (tasks : Tasks) (q : EevdfRunQueue) : Prop where
  consistent : Consistent tasks q
  reached : ∀ e ∈ q.eligible.entries, (tasks e.2).sched.ve ≤ q.minVruntime

section Pick

variable {tasks : Tasks} {q : EevdfRunQueue}

/-- After eligibility was advanced, the maps are divided by the clock. -/
theorem Timely.advanceEligibility (h : Timely tasks q) :
    (∀ e ∈ (q.advanceEligibility tasks).eligible.entries, (tasks e.2).sched.ve ≤ q.minVruntime) ∧
      ∀ e ∈ (q.advanceEligibility tasks).ineligible.entries,
        q.minVruntime < (tasks e.2).sched.ve := by
  refine ⟨fun e he => ?_, fun e he => ?_⟩
  · rcases mem_advanceEligibility_eligible tasks q he with hmem | ⟨-, key, hreached, hmem⟩
    · exact h.reached e hmem
    · obtain rfl : key = vtKey (tasks e.2).sched.ve e.2 := h.consistent.ineligible_key _ hmem
      exact hreached
  · obtain ⟨hmem, hnot⟩ := (mem_advanceEligibility_ineligible tasks q).mp he
    rw [h.consistent.ineligible_key e hmem] at hnot
    exact not_le.mp hnot

/-- **Picking is exact** on a queue whose keys are what the tasks say. -/
theorem Timely.picksEarliest (h : Timely tasks q) : PicksEarliest tasks q := by
  obtain ⟨heligible, hineligible⟩ := h.advanceEligibility
  have hadv := (advanceEligibility_spec h.consistent).1
  have hrest := (pickNext_spec h.consistent).2.2.2
  -- a task that the clock has reached is in the eligible map
  have hentry {u : TaskId} (hu : u ∈ q.stored) (hve : (tasks u).sched.ve ≤ q.minVruntime) :
      (vtKey (tasks u).sched.vdeadline u, u) ∈ (q.advanceEligibility tasks).eligible.entries := by
    rcases mem_append.mp ((stored_advanceEligibility h.consistent).mem_iff.mpr hu) with hu | hu <;>
      obtain ⟨e, he, rfl⟩ := mem_map.mp hu
    · rw [← hadv.eligible_key e he]
      exact he
    · exact absurd (hineligible e he) (not_lt.mpr hve)
  have hvalues {m : OrdMap VtKey TaskId} {P : TaskId → Prop} (hm : ∀ e ∈ m.entries, P e.2) :
      ∀ t ∈ m.values, P t := by
    intro t ht
    obtain ⟨e, he, rfl⟩ := mem_map.mp ht
    exact hm e he
  cases hfirst : (q.advanceEligibility tasks).eligible.first? with
  | none =>
    have hpick : q.pickNext tasks = (none, q.advanceEligibility tasks) := by
      simp only [pickNext, hfirst]
    refine ⟨fun t ht => ?_, fun _ u hu => ?_, hrest, ?_, ?_⟩
    · rw [hpick] at ht
      cases ht
    · by_contra hle
      have hmem := hentry hu (not_lt.mp hle)
      rw [first?_eq_none.mp hfirst] at hmem
      cases hmem
    · rw [hpick]
      exact hvalues heligible
    · rw [hpick]
      exact hvalues hineligible
  | some e =>
    have hmem := first?_mem hfirst
    have hpick : q.pickNext tasks = (some e.2, { q.advanceEligibility tasks with
        eligible := (q.advanceEligibility tasks).eligible.remove e.1 }) := by
      simp only [pickNext, hfirst]
    refine ⟨fun t ht => ?_, fun hnone => ?_, hrest, ?_, ?_⟩
    · rw [hpick] at ht
      obtain rfl : e.2 = t := Option.some.inj ht
      refine ⟨?_, heligible e hmem, fun u hu hve => ?_⟩
      · exact (stored_advanceEligibility h.consistent).mem_iff.mp
          (mem_append_left _ (mem_map_of_mem hmem))
      · rw [← hadv.eligible_key e hmem]
        exact first?_le hfirst (hentry hu hve)
    · rw [hpick] at hnone
      cases hnone
    · rw [hpick]
      exact hvalues fun e he => heligible e (mem_remove.mp he).1
    · rw [hpick]
      exact hvalues hineligible

end Pick

/-! ### Runs -/

/-- Only tasks that no queue stores are enqueued or put back. -/
def NotStored (s : Queues) : QueuesOp → Prop
  | .enqueue _ t _ => ∀ cpu, t ∉ (s.queues cpu).stored
  | .putPrev _ t => ∀ cpu, t ∉ (s.queues cpu).stored
  | _ => True

section Steps

variable {tasks : Tasks} {q : EevdfRunQueue} {t : TaskId}

theorem Timely.congr (h : Timely tasks q) {tasks' : Tasks}
    (hsame : ∀ t ∈ q.stored, (tasks' t).sched.vdeadline = (tasks t).sched.vdeadline ∧
      (tasks' t).sched.ve = (tasks t).sched.ve) : Timely tasks' q := by
  refine ⟨h.consistent.congr hsame, fun e he => ?_⟩
  rw [(hsame e.2 (mem_append_left _ (mem_map_of_mem he))).2]
  exact h.reached e he

theorem timely_new (tasks : Tasks) : Timely tasks .new :=
  ⟨(queueInv_new tasks).consistent, forall_mem_nil _⟩

section

variable (h : Timely tasks q)

include h

theorem Timely.enqueue (isWakeup : Bool) (ht : t ∉ q.stored) :
    Timely (q.enqueue tasks t isWakeup).1 (q.enqueue tasks t isWakeup).2 := by
  have hclock : (q.enqueue tasks t isWakeup).2.minVruntime = q.minVruntime := by
    simp only [EevdfRunQueue.enqueue]
    split_ifs <;> rfl
  refine ⟨consistent_enqueue h.consistent isWakeup ht, fun e he => ?_⟩
  rw [hclock]
  have hold {e : VtKey × TaskId} (he : e ∈ q.eligible.entries) :
      ((q.enqueue tasks t isWakeup).1 e.2).sched.ve ≤ q.minVruntime := by
    have hne : e.2 ≠ t := fun heq => ht (heq ▸ mem_append_left _ (mem_map_of_mem he))
    rw [tasks_enqueue_of_ne isWakeup hne]
    exact h.reached e he
  simp only [EevdfRunQueue.enqueue] at he
  split_ifs at he with hve
  · rcases mem_insert he with rfl | he
    · exact hve
    · exact hold he
  · exact hold he

theorem Timely.dequeue : Timely (q.dequeue tasks t).1 (q.dequeue tasks t).2 := by
  have hclock : (q.dequeue tasks t).2.minVruntime = q.minVruntime := by
    rw [EevdfRunQueue.dequeue]
    split_ifs
    · cases q.eligible.find? (vtKey (tasks t).sched.vdeadline t) <;> rfl
    · rfl
  refine ⟨consistent_dequeue h.consistent, fun e he => ?_⟩
  rw [(tasks_dequeue e.2).2.1, hclock]
  exact h.reached e ((entries_dequeue_subset tasks q t).1 e he)

theorem Timely.pickNext : Timely tasks (q.pickNext tasks).2 := by
  have hclock : (q.pickNext tasks).2.minVruntime = q.minVruntime := by
    have hfold := minVruntime_advanceEligibility tasks q
    rcases q.pickNext_cases tasks with ⟨heq, -⟩ | ⟨key, t, -, heq⟩ <;> rw [heq] <;> exact hfold
  refine ⟨(pickNext_spec h.consistent).1, fun e he => ?_⟩
  rw [hclock]
  exact h.picksEarliest.eligible e.2 (mem_map_of_mem he)

theorem Timely.stealOne : Timely tasks (q.stealOne tasks).2 := by
  refine ⟨(stealOne_spec h.consistent).1, fun e he => ?_⟩
  rcases q.stealOne_cases tasks with ⟨heq, -⟩ | ⟨key, t, -, -, heq⟩ | ⟨key, t, -, -, heq⟩ <;>
    rw [heq] at he ⊢
  · exact h.reached e he
  · exact h.reached e he
  · exact h.reached e (mem_remove.mp he).1

theorem Timely.tick (current : TaskId) (elapsedNs : ℕ) :
    Timely (q.tick tasks current elapsedNs).2.1 (q.tick tasks current elapsedNs).2.2 := by
  refine ⟨@consistent_tick ⟨tasks, q, none⟩ h.consistent current elapsedNs, fun e he => ?_⟩
  have hmem : e ∈ q.eligible.entries := (queue_tick ⟨tasks, q, none⟩ current elapsedNs).1 ▸ he
  have hve := @tick_field _ TaskSchedInfo.ve elapsedNs (fun _ => rfl) ⟨tasks, q, none⟩ current e.2
  exact (le_of_eq hve).trans ((h.reached e hmem).trans (q.le_updateMinVruntime _))

end

/-- A step on one CPU, which leaves the data by which other queues store their tasks. -/
theorem timely_put {s : Queues} (h : ∀ c, Timely s.tasks (s.queues c)) {cpu : ℕ}
    {r : Tasks × EevdfRunQueue} (hr : Timely r.1 r.2)
    (hsame : ∀ c, ∀ t ∈ (s.queues c).stored,
      (r.1 t).sched.vdeadline = (s.tasks t).sched.vdeadline ∧
        (r.1 t).sched.ve = (s.tasks t).sched.ve) (c : ℕ) :
    Timely (s.put cpu r).tasks ((s.put cpu r).queues c) := by
  rw [Queues.put]
  obtain rfl | hc := eq_or_ne c cpu
  · simpa using hr
  · simpa [hc] using (h c).congr (hsame c)

theorem timely_step (s : Queues) (op : QueuesOp) (h : ∀ c, Timely s.tasks (s.queues c))
    (hop : NotStored s op) (c : ℕ) : Timely (s.step op).tasks ((s.step op).queues c) := by
  have henqueue {cpu : ℕ} {t : TaskId} (isWakeup : Bool) (ht : ∀ c, t ∉ (s.queues c).stored) :
      Timely (s.put cpu ((s.queues cpu).enqueue s.tasks t isWakeup)).tasks
        ((s.put cpu ((s.queues cpu).enqueue s.tasks t isWakeup)).queues c) := by
    refine timely_put h ((h cpu).enqueue isWakeup (ht cpu)) (fun c u hu => ?_) c
    rw [tasks_enqueue_of_ne isWakeup fun (heq : u = t) => ht c (heq ▸ hu)]
    exact ⟨rfl, rfl⟩
  cases op with
  | enqueue cpu t isWakeup => exact henqueue isWakeup hop
  | putPrev cpu t => exact henqueue false hop
  | dequeue cpu t =>
    exact timely_put h (h cpu).dequeue (fun _ u _ => ⟨(tasks_dequeue u).1, (tasks_dequeue u).2.1⟩) c
  | pickNext cpu => exact timely_put h (h cpu).pickNext (fun _ _ _ => ⟨rfl, rfl⟩) c
  | stealOne cpu => exact timely_put h (h cpu).stealOne (fun _ _ _ => ⟨rfl, rfl⟩) c
  | tick cpu current elapsedNs =>
    exact timely_put h ((h cpu).tick current elapsedNs) (fun _ u _ =>
      ⟨tick_field TaskSchedInfo.vdeadline (fun _ => rfl) ⟨s.tasks, s.queues cpu, none⟩ current u,
        tick_field TaskSchedInfo.ve (fun _ => rfl) ⟨s.tasks, s.queues cpu, none⟩ current u⟩) c

end Steps

/-- **The picked task is the earliest eligible one.** In every run on the queues of any number of
CPUs in which only tasks that no queue stores are enqueued, every queue picks exactly. -/
theorem eevdf_picks_earliest (tasks : Tasks) (ops : List QueuesOp)
    (hg : Guarded Queues.step NotStored (.new tasks) ops) (cpu : ℕ) :
    PicksEarliest (run Queues.step (.new tasks) ops).tasks
      ((run Queues.step (.new tasks) ops).queues cpu) :=
  (hg.invariant timely_step (fun _ => timely_new tasks) cpu).picksEarliest

/-- Two tasks, one of which runs and is put back. -/
theorem eevdf_picks_earliest_two :
    PicksEarliest (run Queues.step (.new fun _ => {})
        [.enqueue 0 1 false, .enqueue 0 2 false, .pickNext 0, .tick 0 2 4000000, .putPrev 0 2]).tasks
      ((run Queues.step (.new fun _ => {}) [.enqueue 0 1 false, .enqueue 0 2 false, .pickNext 0,
        .tick 0 2 4000000, .putPrev 0 2]).queues 0) := by
  refine eevdf_picks_earliest (fun _ => {}) [.enqueue 0 1 false, .enqueue 0 2 false, .pickNext 0,
    .tick 0 2 4000000, .putPrev 0 2] ⟨?_, ?_, trivial, trivial, ?_, trivial⟩ 0
  all_goals
    rintro (_ | cpu)
    · decide
    · exact not_mem_nil

/-- A task that is woken twice is stored under the old deadline, and a task with a later deadline
than its present one is picked. -/
theorem eevdf_picks_stale :
    ¬ PicksEarliest (run Queues.step (.new fun _ => {})
        [.enqueue 0 1 true, .enqueue 0 2 true, .enqueue 0 1 true, .pickNext 0]).tasks
      ((run Queues.step (.new fun _ => {})
        [.enqueue 0 1 true, .enqueue 0 2 true, .enqueue 0 1 true, .pickNext 0]).queues 0) := by
  intro h
  have hleast := (h.least 2 (by decide)).2.2 1 (by decide) (by decide)
  revert hleast
  decide

end Maios.Sched
