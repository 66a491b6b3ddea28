import Maios.Library.Run
import Maios.Sched.EevdfDue
import Maios.Sched.Scheduler

/-!
# A CPU with a task to run runs it

`pick_next` of an EEVDF queue returns a task exactly if one is *due*: in the eligible map, or in the
other map with an eligibility time that the clock of the queue has reached. The clock moves only when
a task ticks, and then only up to the virtual deadline of the first eligible task. So a queue can be
left with tasks none of which is due: when the last due task is dequeued or picked, or when a task
arrives that is ahead of the clock and finds no due task. `KeepsDue` excludes exactly these steps, by
what the queue holds before them. Stealing is not one of them: it takes the last task of the
ineligible map, and an eligible one only if that map is empty.

The queues of all CPUs share their tasks, so a task may arrive with the virtual runtime that it has
earned elsewhere.

## Main results

* `hasDue_enqueue_iff`, `emptyOrDue_dequeue_iff`, `emptyOrDue_pickNext_iff`, `emptyOrDue_stealOne`: a
  due task before and after each operation.
* `workConserving_step_iff`: the step lemma.
* `eevdf_work_conserving`: work conservation over runs of any number of queues.
-/

namespace Maios.Sched

open List EevdfRunQueue

namespace EevdfRunQueue

theorem insert_ne_nil (m : OrdMap VtKey TaskId) (k : VtKey) (t : TaskId) :
    (m.insert k t).entries ≠ [] :=
  ne_nil_of_mem (OrdMap.mem_insert_iff.mpr (.inl rfl))

variable (tasks : Tasks) (q : EevdfRunQueue) (t : TaskId) (isWakeup : Bool)

/-- The clock does not go back. -/
theorem le_updateMinVruntime (v : ℕ) : q.minVruntime ≤ (q.updateMinVruntime v).minVruntime := by
  rw [updateMinVruntime]
  split_ifs with hlt
  · exact le_of_lt hlt
  · exact le_rfl

/-- Tasks stay due when the clock advances. -/
theorem HasDue.updateMinVruntime {q : EevdfRunQueue} (h : q.HasDue) (v : ℕ) :
    (q.updateMinVruntime v).HasDue := by
  have hle := q.le_updateMinVruntime v
  obtain ⟨heligible, hineligible⟩ := stored_updateMinVruntime q v
  rw [HasDue, heligible, hineligible]
  refine h.imp_right ?_
  rintro ⟨e, he, hreached⟩
  exact ⟨e, he, le_trans hreached hle⟩

/-- After `enqueue` a task is due exactly if the task is placed behind the clock or one was due. -/
theorem hasDue_enqueue_iff :
    (enqueue tasks q t isWakeup).2.HasDue ↔
      q.placedVruntime (tasks t).sched isWakeup ≤ q.minVruntime ∨ q.HasDue := by
  rw [enqueue]
  simp only [Tasks.modifySched_self]
  have hve : (q.placed isWakeup (tasks t).sched).ve = q.placedVruntime (tasks t).sched isWakeup :=
    rfl
  split_ifs with hle
  · exact ⟨fun _ => .inl hle, fun _ => .inl (insert_ne_nil _ _ _)⟩
  rw [HasDue]
  refine ⟨fun h => .inr (h.imp_right ?_), fun h => (h.resolve_left hle).imp_right ?_⟩ <;>
    rintro ⟨e, he, hreached⟩
  · rcases OrdMap.mem_insert he with rfl | he
    · exact absurd hreached hle
    · exact ⟨e, he, hreached⟩
  · refine ⟨e, OrdMap.mem_insert_iff.mpr (.inr ⟨he, ?_⟩), hreached⟩
    intro hkey
    rw [hkey] at hreached
    exact hle hreached

theorem stored_enqueue_ne_nil : (enqueue tasks q t isWakeup).2.stored ≠ [] := by
  rw [enqueue]
  split_ifs
  · exact fun h => insert_ne_nil _ _ _ (map_eq_nil_iff.mp (append_eq_nil_iff.mp h).1)
  · exact fun h => insert_ne_nil _ _ _ (map_eq_nil_iff.mp (append_eq_nil_iff.mp h).2)

end EevdfRunQueue

/-! ### The queues of all CPUs -/

/-- The EEVDF queues of all CPUs, with the tasks that they share. -/
structure Queues where
  tasks : Tasks
  queues : ℕ → EevdfRunQueue

/-- An operation on the queue of a CPU. A task that was stolen from one CPU arrives at another by
`enqueue`. -/
inductive QueuesOp where
  | enqueue (cpu : ℕ) (t : TaskId) (isWakeup : Bool)
  | dequeue (cpu : ℕ) (t : TaskId)
  | pickNext (cpu : ℕ)
  | putPrev (cpu : ℕ) (t : TaskId)
  | tick (cpu : ℕ) (current : TaskId) (elapsedNs : ℕ)
  | stealOne (cpu : ℕ)

namespace Queues

def new (tasks : Tasks) : Queues := ⟨tasks, fun _ => .new⟩

/-- The state with new tasks and a new queue of one CPU. -/
def put (s : Queues) (cpu : ℕ) (r : Tasks × EevdfRunQueue) : Queues :=
  ⟨r.1, Function.update s.queues cpu r.2⟩

def step (s : Queues) : QueuesOp → Queues
  | .enqueue cpu t isWakeup => s.put cpu ((s.queues cpu).enqueue s.tasks t isWakeup)
  | .dequeue cpu t => s.put cpu ((s.queues cpu).dequeue s.tasks t)
  | .pickNext cpu => s.put cpu (s.tasks, ((s.queues cpu).pickNext s.tasks).2)
  | .putPrev cpu t => s.put cpu ((s.queues cpu).putPrev s.tasks t)
  | .tick cpu current elapsedNs => s.put cpu ((s.queues cpu).tick s.tasks current elapsedNs).2
  | .stealOne cpu => s.put cpu (s.tasks, ((s.queues cpu).stealOne s.tasks).2)

end Queues

/-- Every CPU whose queue stores a task picks one. -/
def WorkConserving (s : Queues) : Prop :=
  ∀ cpu, (s.queues cpu).stored ≠ [] → ((s.queues cpu).pickNext s.tasks).1.isSome = true

/-- A queue without tasks, or with one that is due. -/
def EmptyOrDue (q : EevdfRunQueue) : Prop := q.stored = [] ∨ q.HasDue

/-- The task is not queued, or what is stored besides it is nothing or has a due task. `dequeue` looks
for the task in the eligible map first, so it is that entry which goes if there is one. -/
def DequeueKeepsDue (tasks : Tasks) (q : EevdfRunQueue) (t : TaskId) : Prop :=
  let key := vtKey (tasks t).sched.vdeadline t
  let key' := vtKey (tasks t).sched.ve t
  (tasks t).sched.onRq = true →
    if ∃ e ∈ q.eligible.entries, e.1 = key then
      (∃ e ∈ q.eligible.entries, e.1 ≠ key) ∨ q.ineligible.entries = [] ∨
        ∃ e ∈ q.ineligible.entries, q.Reached e.1
    else
      q.eligible.entries ≠ [] ∨ (∀ e ∈ q.ineligible.entries, e.1 = key') ∨
        ∃ e ∈ q.ineligible.entries, e.1 ≠ key' ∧ q.Reached e.1

instance (tasks : Tasks) (q : EevdfRunQueue) (t : TaskId) : Decidable (DequeueKeepsDue tasks q t) :=
  inferInstanceAs (Decidable (_ = true → ite _ _ _))

/-- The clock has reached all tasks, or at least two keys are due, one of which is not picked. -/
def PickKeepsDue (tasks : Tasks) (q : EevdfRunQueue) : Prop :=
  (∀ e ∈ q.ineligible.entries, q.Reached e.1) ∨
    ∃ k ∈ q.dueKeys tasks, ∃ k' ∈ q.dueKeys tasks, k ≠ k'

instance (tasks : Tasks) (q : EevdfRunQueue) : Decidable (PickKeepsDue tasks q) :=
  inferInstanceAs (Decidable (_ ∨ _))

/-- A task that arrives is not ahead of the clock or finds a due task, and a task that is dequeued or
picked does not leave tasks behind none of which is due. -/
def KeepsDue (s : Queues) : QueuesOp → Prop
  | .enqueue cpu t isWakeup =>
    (s.queues cpu).placedVruntime (s.tasks t).sched isWakeup ≤ (s.queues cpu).minVruntime ∨
      (s.queues cpu).HasDue
  | .putPrev cpu t =>
    (s.queues cpu).placedVruntime (s.tasks t).sched false ≤ (s.queues cpu).minVruntime ∨
      (s.queues cpu).HasDue
  | .dequeue cpu t => DequeueKeepsDue s.tasks (s.queues cpu) t
  | .pickNext cpu => PickKeepsDue s.tasks (s.queues cpu)
  | .stealOne _ => True
  | .tick _ _ _ => True

instance (s : Queues) : (op : QueuesOp) → Decidable (KeepsDue s op)
  | .enqueue _ _ _ => inferInstanceAs (Decidable (_ ∨ _))
  | .putPrev _ _ => inferInstanceAs (Decidable (_ ∨ _))
  | .dequeue _ _ => inferInstanceAs (Decidable (DequeueKeepsDue _ _ _))
  | .pickNext _ => inferInstanceAs (Decidable (PickKeepsDue _ _))
  | .stealOne _ | .tick _ _ _ => isTrue trivial

variable {s : Queues}

theorem workConserving_iff : WorkConserving s ↔ ∀ cpu, EmptyOrDue (s.queues cpu) := by
  refine forall_congr' fun cpu => ?_
  rw [pickNext_isSome_iff, EmptyOrDue, or_iff_not_imp_left]

/-- A step on one CPU is conserving exactly if it is so there. -/
theorem workConserving_put (h : WorkConserving s) (cpu : ℕ) (r : Tasks × EevdfRunQueue) :
    WorkConserving (s.put cpu r) ↔ EmptyOrDue r.2 := by
  rw [workConserving_iff]
  refine ⟨fun hall => ?_, fun hr cpu' => ?_⟩
  · have hcpu := hall cpu
    rwa [show (s.put cpu r).queues cpu = r.2 from Function.update_self _ _ _] at hcpu
  · obtain rfl | hcpu := eq_or_ne cpu' cpu
    · rw [show (s.put cpu' r).queues cpu' = r.2 from Function.update_self _ _ _]
      exact hr
    · rw [show (s.put cpu r).queues cpu' = s.queues cpu' from Function.update_of_ne hcpu _ _]
      exact workConserving_iff.mp h cpu'

theorem emptyOrDue_enqueue_iff (tasks : Tasks) (q : EevdfRunQueue) (t : TaskId) (isWakeup : Bool) :
    EmptyOrDue (q.enqueue tasks t isWakeup).2 ↔
      q.placedVruntime (tasks t).sched isWakeup ≤ q.minVruntime ∨ q.HasDue := by
  rw [← hasDue_enqueue_iff]
  exact or_iff_right (stored_enqueue_ne_nil tasks q t isWakeup)

theorem emptyOrDue_tick {tasks : Tasks} {q : EevdfRunQueue} (h : EmptyOrDue q) (current : TaskId)
    (elapsedNs : ℕ) : EmptyOrDue (q.tick tasks current elapsedNs).2.2 := by
  rcases h with hempty | hdue
  · left
    rw [tick]
    rw [updateMinVruntime]
    split_ifs <;> exact hempty
  · exact .inr (hdue.updateMinVruntime _)

theorem emptyOrDue_iff {q : EevdfRunQueue} : EmptyOrDue q ↔
    q.eligible.entries ≠ [] ∨ q.ineligible.entries = [] ∨
      ∃ e ∈ q.ineligible.entries, q.Reached e.1 := by
  rw [EmptyOrDue, HasDue, stored_eq_nil_iff]
  tauto

/-- The entries that are left when one is taken out of a map. -/
theorem remove_eq_nil_iff {m : OrdMap VtKey TaskId} {k : VtKey} :
    (m.remove k).entries = [] ↔ ∀ e ∈ m.entries, e.1 = k := by
  rw [eq_nil_iff_forall_not_mem]
  simp only [OrdMap.mem_remove, not_and, not_not]

theorem exists_mem_remove_iff {m : OrdMap VtKey TaskId} {k : VtKey} {P : VtKey → Prop} :
    (∃ e ∈ (m.remove k).entries, P e.1) ↔ ∃ e ∈ m.entries, e.1 ≠ k ∧ P e.1 := by
  simp only [OrdMap.mem_remove, and_assoc]

theorem emptyOrDue_dequeue_iff {tasks : Tasks} {q : EevdfRunQueue} (h : EmptyOrDue q) (t : TaskId) :
    EmptyOrDue (q.dequeue tasks t).2 ↔ DequeueKeepsDue tasks q t := by
  rw [DequeueKeepsDue, dequeue]
  dsimp only
  by_cases hon : (tasks t).sched.onRq = true
  · rw [if_pos hon, forall_prop_of_true hon, emptyOrDue_iff]
    cases hfind : q.eligible.find? (vtKey (tasks t).sched.vdeadline t) with
    | some u =>
      rw [if_pos ⟨_, OrdMap.find?_eq_some.mp hfind, rfl⟩, ne_eq, remove_eq_nil_iff]
      push Not
      exact .rfl
    | none =>
      have hnone : ¬ ∃ e ∈ q.eligible.entries, e.1 = vtKey (tasks t).sched.vdeadline t := by
        rintro ⟨e, he, heq⟩
        exact OrdMap.find?_eq_none.mp hfind e he heq
      rw [if_neg hnone, remove_eq_nil_iff]
      exact or_congr_right (or_congr_right exists_mem_remove_iff)
  · rw [if_neg hon]
    exact ⟨fun _ hon' => absurd hon' hon, fun _ => h⟩

theorem emptyOrDue_pickNext_iff (tasks : Tasks) (q : EevdfRunQueue) :
    EmptyOrDue (q.pickNext tasks).2 ↔ PickKeepsDue tasks q := by
  have hnone : ¬ ∃ e ∈ (q.pickNext tasks).2.ineligible.entries, (q.pickNext tasks).2.Reached e.1 := by
    rintro ⟨e, he, hreached⟩
    rw [Reached, minVruntime_pickNext] at hreached
    exact ((mem_pickNext_ineligible tasks q).mp he).2 hreached
  have hempty : (q.pickNext tasks).2.ineligible.entries = [] ↔
      ∀ e ∈ q.ineligible.entries, q.Reached e.1 := by
    rw [eq_nil_iff_forall_not_mem]
    simp only [mem_pickNext_ineligible, not_and, not_not]
  rw [emptyOrDue_iff, or_iff_left hnone, hempty, eligible_pickNext_ne_nil_iff, or_comm, PickKeepsDue]

/-- A steal takes the entry with the greatest key. If it was reached, so was every other. -/
theorem emptyOrDue_stealOne {q : EevdfRunQueue} (h : EmptyOrDue q) (tasks : Tasks) :
    EmptyOrDue (q.stealOne tasks).2 := by
  rw [stealOne]
  split_ifs with hnr
  · exact h
  cases hlast : q.ineligible.last? with
  | some e =>
    obtain ⟨key, t⟩ := e
    rw [emptyOrDue_iff] at h ⊢
    rcases h with hne | hempty | ⟨e, he, hreached⟩
    · exact .inl hne
    · exact absurd (OrdMap.last?_mem hlast) (hempty ▸ not_mem_nil)
    refine .inr (or_iff_not_imp_left.mpr fun hne => ?_)
    obtain ⟨e', he'⟩ := exists_mem_of_ne_nil _ hne
    by_cases hkey : e.1 = key
    · have hle : e'.1 ≤ e.1 := hkey ▸ OrdMap.le_last? hlast (OrdMap.mem_remove.mp he').1
      exact ⟨e', he', hreached.of_le hle⟩
    · exact ⟨e, OrdMap.mem_remove.mpr ⟨he, hkey⟩, hreached⟩
  | none =>
    have hempty : q.ineligible.entries = [] := getLast?_eq_none_iff.mp hlast
    cases q.eligible.last? with
    | some e => exact emptyOrDue_iff.mpr (.inr (.inl hempty))
    | none => exact h

/-- A step keeps every CPU busy exactly if it keeps a due task where there are tasks. -/
theorem workConserving_step_iff (h : WorkConserving s) (op : QueuesOp) :
    WorkConserving (s.step op) ↔ KeepsDue s op := by
  cases op with
  | enqueue cpu t isWakeup =>
    exact (workConserving_put h cpu _).trans (emptyOrDue_enqueue_iff s.tasks _ t isWakeup)
  | putPrev cpu t =>
    exact (workConserving_put h cpu _).trans (emptyOrDue_enqueue_iff s.tasks _ t false)
  | dequeue cpu t =>
    exact (workConserving_put h cpu _).trans
      (emptyOrDue_dequeue_iff (workConserving_iff.mp h cpu) t)
  | pickNext cpu => exact (workConserving_put h cpu _).trans (emptyOrDue_pickNext_iff s.tasks _)
  | stealOne cpu =>
    refine (workConserving_put h cpu _).trans ⟨fun _ => trivial, fun _ => ?_⟩
    exact emptyOrDue_stealOne (workConserving_iff.mp h cpu) s.tasks
  | tick cpu current elapsedNs =>
    refine (workConserving_put h cpu _).trans ⟨fun _ => trivial, fun _ => ?_⟩
    exact emptyOrDue_tick (workConserving_iff.mp h cpu) current elapsedNs

/-- A CPU whose EEVDF queue gives it a task takes a task of its own. -/
theorem pickNext_local {tasks : Tasks} {sched : MaiScheduler} {cpu : ℕ} {rq : PerCpuRunQueue}
    (hrq : sched.rqs[cpu]? = some rq) (hpick : (rq.cfsRq.pickNext tasks).1.isSome = true) :
    (rq.pickLocal tasks).1.isSome = true ∧ sched.pickNext tasks cpu =
      some ((rq.pickLocal tasks).1, sched.setRq cpu (rq.pickLocal tasks).2) := by
  have hlocal : (rq.pickLocal tasks).1.isSome = true := by
    rw [PerCpuRunQueue.pickLocal]
    dsimp only
    split_ifs with hdl hrt
    · exact hdl
    · exact hrt
    · exact hpick
  refine ⟨hlocal, ?_⟩
  rw [MaiScheduler.pickNext, hrq]
  dsimp only
  rw [if_pos hlocal]

/-- **Work conservation.** As long as the steps of a run keep to `KeepsDue`, every CPU whose queue
stores a task picks one, and `MaiScheduler::pick_next` takes a task of that CPU without stealing or
going idle; and at the first step that does not keep to it, this is lost. -/
theorem eevdf_work_conserving (tasks : Tasks) (ops : List QueuesOp)
    (hg : Guarded Queues.step KeepsDue (.new tasks) ops) :
    WorkConserving (run Queues.step (.new tasks) ops) ∧
      (∀ (sched : MaiScheduler) (cpu cpu' : ℕ) (rq : PerCpuRunQueue), sched.rqs[cpu]? = some rq →
        rq.cfsRq = (run Queues.step (.new tasks) ops).queues cpu' → rq.cfsRq.stored ≠ [] →
        ∃ t rq', rq.pickLocal (run Queues.step (.new tasks) ops).tasks = (some t, rq') ∧
          sched.pickNext (run Queues.step (.new tasks) ops).tasks cpu =
            some (some t, sched.setRq cpu rq')) ∧
      ∀ op, WorkConserving ((run Queues.step (.new tasks) ops).step op) ↔
        KeepsDue (run Queues.step (.new tasks) ops) op := by
  have hnew : WorkConserving (.new tasks) := workConserving_iff.mpr fun _ => .inl rfl
  have hinv := hg.invariant (fun s op h hop => (workConserving_step_iff h op).mpr hop) hnew
  refine ⟨hinv, fun sched cpu cpu' rq hrq hcfs hstored => ?_, workConserving_step_iff hinv⟩
  have hpick := hinv cpu' (hcfs ▸ hstored)
  rw [← hcfs] at hpick
  obtain ⟨hlocal, hnext⟩ := pickNext_local hrq hpick
  obtain ⟨t, ht⟩ := Option.isSome_iff_exists.mp hlocal
  rw [ht] at hnext
  exact ⟨t, _, Prod.ext ht rfl, hnext⟩

/-- Two tasks on one CPU, one of which runs and is put back. -/
theorem eevdf_work_conserving_two :
    WorkConserving (run Queues.step (.new fun _ => {})
      [.enqueue 0 1 false, .enqueue 0 2 false, .pickNext 0, .tick 0 1 4000000, .putPrev 0 1,
        .dequeue 0 2]) :=
  And.left (eevdf_work_conserving _ _
    ⟨by decide, by decide, by decide, by decide, by decide, by decide, trivial⟩)

/-- A task runs past the deadline of another one, is put back ahead of the clock, and stays alone:
the queue stores it and does not pick it. -/
theorem eevdf_not_work_conserving :
    ¬ WorkConserving (run Queues.step (.new fun _ => {})
      [.enqueue 0 1 false, .pickNext 0, .enqueue 0 2 false, .tick 0 1 4000000000, .putPrev 0 1,
        .dequeue 0 2]) := by
  intro h
  have hpick := h 0 (by decide)
  revert hpick
  decide

end Maios.Sched
