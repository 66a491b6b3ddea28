import Maios.Sched.LoadCount
import Maios.Sched.TaskConservation

/-!
# What a dequeue leaves behind

`MaiScheduler::dequeue` looks for a task on the CPU in `last_cpu`, which `set_current` writes and
`enqueue` does not: a task that was placed on another CPU, by its affinity or for the load, stays
there. On the CPU it looks at, `dequeue` removes at most one entry, and of an EEVDF queue only one
that is under the present keys of the task.

The condition under which the task is gone, `OnlyFoundOnLast`, is exact in every state that the
scheduler can be in. All that has to be known of these is that keys carry the ids of their tasks.

## Main results

* `dequeue_complete` — the task is gone if and only if `OnlyFoundOnLast` holds
-/

namespace Maios.Sched

open List DeadlineRunQueue MaiScheduler EevdfRunQueue

/-! ### Keys carry ids -/

namespace DeadlineRunQueue

/-- The keys carry the ids of their tasks. -/
def Keyed (q : DeadlineRunQueue) : Prop := q.tasks.Keyed VtKey.taskId DlTask.task

end DeadlineRunQueue

/-! ### One CPU -/

variable {rq : PerCpuRunQueue} (tasks : Tasks)

namespace PerCpuRunQueue

/-- The tasks in the deadline, real-time and EEVDF queue of a CPU. -/
def storedTasks (rq : PerCpuRunQueue) : List TaskId :=
  rq.deadlineRq.stored ++ rq.rtRq.stored ++ rq.cfsRq.stored

theorem count_storedTasks (rq : PerCpuRunQueue) (t : TaskId) :
    rq.storedTasks.count t =
      rq.deadlineRq.stored.count t + rq.rtRq.stored.count t + rq.cfsRq.occurrences t := by
  rw [storedTasks, count_append, count_append]
  rfl

/-- The keys of the ordered queues carry the ids of their tasks. -/
def Keyed (rq : PerCpuRunQueue) : Prop := rq.deadlineRq.Keyed ∧ rq.cfsRq.Keyed

/-- `dequeue` takes the task out of a queue. -/
def removes (tasks : Tasks) (rq : PerCpuRunQueue) (t : TaskId) : Bool :=
  decide ((tasks t).sched.policy.classId ≠ .idle) && rq.finds tasks t

variable (h : rq.Keyed)

include h

theorem keyed_enqueue (tasks : Tasks) (t : TaskId) (nowNs : ℕ) :
    (enqueue tasks rq t nowNs).2.Keyed := by
  rcases enqueue_cases tasks rq t nowNs with
    ⟨q, n, hok, heq⟩ | ⟨e, n, -, -, heq⟩ | ⟨n, heq⟩ | ⟨n, heq⟩ | hidle
  · rw [heq]
    exact ⟨(evolves_enqueue hok).keyed h.1, h.2⟩
  · rw [heq]
    exact h
  · rw [heq]
    exact h
  · rw [heq]
    exact ⟨h.1, EevdfRunQueue.keyed_enqueue h.2 tasks t true⟩
  · rw [(idle_untouched tasks rq t nowNs hidle).1]
    exact h

theorem keyed_dequeue (tasks : Tasks) (t : TaskId) : (dequeue tasks rq t).2.Keyed := by
  rcases dequeue_cases tasks rq t with ⟨n, heq⟩ | ⟨n, heq⟩ | ⟨n, heq⟩ | heq <;> rw [heq]
  · exact ⟨(@evolves_dequeue tasks _ t).keyed h.1, h.2⟩
  · exact h
  · exact ⟨h.1, EevdfRunQueue.keyed_dequeue h.2 tasks t⟩
  · exact h

theorem keyed_tick (tasks : Tasks) (elapsedNs : ℕ) : (tick tasks rq elapsedNs).2.Keyed := by
  rcases tick_cases tasks rq elapsedNs with heq | ⟨t, b, heq | heq | heq⟩ <;> rw [heq]
  · exact h
  · exact ⟨(@evolves_tick tasks _ t elapsedNs).keyed h.1, h.2⟩
  · exact h
  · exact ⟨h.1, EevdfRunQueue.keyed_tick h.2 tasks t elapsedNs⟩

theorem keyed_yieldCurrent (tasks : Tasks) (nowNs : ℕ) : (yieldCurrent tasks rq nowNs).2.Keyed := by
  rw [yieldCurrent]
  cases rq.current with
  | none => exact h
  | some t =>
    have hidle : Keyed { rq with current := none } := h
    dsimp only
    split_ifs
    · exact keyed_enqueue hidle tasks t nowNs
    · exact hidle

theorem keyed_pickLocal (tasks : Tasks) : (pickLocal tasks rq).2.Keyed := by
  have hdl := (@evolves_pickNext tasks _).keyed h.1
  rw [pickLocal]
  dsimp only
  split_ifs
  · exact ⟨hdl, h.2⟩
  · exact ⟨hdl, h.2⟩
  · exact ⟨hdl, keyed_pickNext h.2 tasks⟩

theorem keyed_stealOne (tasks : Tasks) : (stealOne tasks rq).2.Keyed := by
  have hkeyed := EevdfRunQueue.keyed_stealOne h.2 tasks
  rw [stealOne]
  rcases hsteal : rq.cfsRq.stealOne tasks with ⟨stolen, q⟩
  rw [hsteal] at hkeyed
  cases stolen <;> exact ⟨h.1, hkeyed⟩

/-- Dequeueing takes out one occurrence of the task if it finds it. -/
theorem count_dequeue (tasks : Tasks) (t : TaskId) :
    (dequeue tasks rq t).2.storedTasks.count t + (if rq.removes tasks t then 1 else 0) =
      rq.storedTasks.count t := by
  have hdl := (takenOut_dequeue h.1 tasks t).count_add
  have hrt := (rq.rtRq.takenOut_dequeue t).count_add
  have hcfs := (takenOut_dequeue h.2 tasks t).count_add
  rw [count_storedTasks, count_storedTasks, dequeue, removes, finds]
  simp only [occurrences]
  cases (tasks t).sched.policy.classId with
  | deadline | realTime | compute | normal | batch =>
    dsimp only [ne_eq]
    rw [decide_eq_true (by simp), Bool.true_and]
    omega
  | idle => rfl

end PerCpuRunQueue

/-! ### Reachable states -/

namespace MaiScheduler

/-- The keys of all queues carry ids. -/
def Keyed (s : MaiScheduler) : Prop := ∀ rq ∈ s.rqs, rq.Keyed

variable {s : MaiScheduler}

variable (h : s.Keyed)

include h

theorem Keyed.setRq (cpu : ℕ) (hrq : rq.Keyed) : (s.setRq cpu rq).Keyed := by
  intro rq' hmem
  rcases mem_or_eq_of_mem_set hmem with hmem | rfl
  · exact h rq' hmem
  · exact hrq

theorem keyed_enqueue {tasks : Tasks} {t : TaskId} {nowNs : ℕ} {r : Tasks × MaiScheduler}
    (hr : enqueue tasks s t nowNs = some r) : r.2.Keyed := by
  rw [enqueue] at hr
  rcases hrq : s.rqs[selectCpuForTask tasks s t]? with _ | rq <;> rw [hrq] at hr
  · cases hr
  cases hr
  exact h.setRq _ (PerCpuRunQueue.keyed_enqueue (h rq (mem_of_getElem? hrq)) tasks t nowNs)

theorem keyed_pickNext {tasks : Tasks} {cpu : ℕ} {r : Option TaskId × MaiScheduler}
    (hr : pickNext tasks s cpu = some r) : r.2.Keyed := by
  rw [pickNext] at hr
  rcases hrq : s.rqs[cpu]? with _ | rq <;> rw [hrq] at hr
  · cases hr
  have hlocal := h.setRq cpu
    (PerCpuRunQueue.keyed_pickLocal (h rq (mem_of_getElem? hrq)) tasks)
  dsimp only at hr
  split_ifs at hr <;> cases hr
  · exact hlocal
  · rw [stealTask]
    rcases stealFrom_cases tasks cpu (s.setRq cpu (rq.pickLocal tasks).2)
      ((s.setRq cpu (rq.pickLocal tasks).2).topology.stealOrder cpu) with
      heq | ⟨victim, rqv, -, hrqv, heq⟩ <;> rw [heq]
    · exact hlocal
    · exact hlocal.setRq victim
        (PerCpuRunQueue.keyed_stealOne (hlocal rqv (mem_of_getElem? hrqv)) tasks)
  · exact hlocal

theorem keyed_dequeue (tasks : Tasks) (t : TaskId) : (dequeue tasks s t).2.Keyed := by
  rw [dequeue]
  cases hrq : s.rqs[(tasks t).sched.lastCpu]? with
  | none => exact h
  | some rq =>
    exact h.setRq _ (PerCpuRunQueue.keyed_dequeue (h rq (mem_of_getElem? hrq)) tasks t)

theorem keyed_tick (tasks : Tasks) (cpu elapsedNs : ℕ) : (tick tasks s cpu elapsedNs).2.Keyed := by
  rw [tick]
  cases hrq : s.rqs[cpu]? with
  | none => exact h
  | some rq =>
    exact h.setRq _ (PerCpuRunQueue.keyed_tick (h rq (mem_of_getElem? hrq)) tasks elapsedNs)

end MaiScheduler

theorem System.keyed_step (s : System) (op : SchedOp) (h : s.sched.Keyed) :
    (s.step op).sched.Keyed := by
  cases op with rw [step]
  | enqueue t nowNs =>
    cases hr : s.sched.enqueue s.tasks t nowNs with
    | none => exact h
    | some r => exact keyed_enqueue h hr
  | taskWakeup t cpu nowNs =>
    cases hr : s.sched.taskWakeup s.tasks t cpu nowNs with
    | none => exact h
    | some r => exact keyed_enqueue h hr
  | pickNext cpu =>
    cases hr : s.sched.pickNext s.tasks cpu with
    | none => exact h
    | some r => exact keyed_pickNext h hr
  | dequeue t => exact keyed_dequeue h s.tasks t
  | tick cpu elapsedNs => exact keyed_tick h s.tasks cpu elapsedNs
  | setCurrent cpu t =>
    cases hrq : s.sched.rqs[cpu]? with
    | none => exact h
    | some rq => exact h.setRq cpu (h rq (mem_of_getElem? hrq))
  | yieldCurrent cpu nowNs =>
    cases hrq : s.sched.rqs[cpu]? with
    | none => exact h
    | some rq =>
      exact h.setRq cpu
        (PerCpuRunQueue.keyed_yieldCurrent (h rq (mem_of_getElem? hrq)) s.tasks nowNs)

theorem System.keyed_run (numCpus : ℕ) (topology : CpuTopology) (ops : List SchedOp) :
    (run step (.new tasks numCpus topology) ops).sched.Keyed := by
  refine @run_invariant _ _ _ (fun s : System => s.sched.Keyed) keyed_step _ ?_ ops
  intro rq hrq
  obtain ⟨cpu, -, rfl⟩ := mem_map.mp hrq
  exact ⟨OrdMap.Keyed.empty, keyed_new⟩

/-! ### Dequeueing -/

/-- No CPU has the task in a queue. -/
def StoredNowhere (s : MaiScheduler) (t : TaskId) : Prop :=
  ∀ (cpu : ℕ) (rq : PerCpuRunQueue), s.rqs[cpu]? = some rq → t ∉ rq.storedTasks

/-- The task is on no CPU but its last one, and there in one place at most, where `dequeue` finds
it. -/
def OnlyFoundOnLast (tasks : Tasks) (s : MaiScheduler) (t : TaskId) : Prop :=
  ∀ (cpu : ℕ) (rq : PerCpuRunQueue), s.rqs[cpu]? = some rq →
    if cpu = (tasks t).sched.lastCpu then
      rq.storedTasks.count t ≤ if rq.removes tasks t then 1 else 0
    else t ∉ rq.storedTasks

/-- The other CPUs are not touched. -/
theorem dequeue_of_ne (s : MaiScheduler) (t : TaskId) {cpu : ℕ}
    (hcpu : cpu ≠ (tasks t).sched.lastCpu) : (s.dequeue tasks t).2.rqs[cpu]? = s.rqs[cpu]? := by
  rw [MaiScheduler.dequeue]
  cases s.rqs[(tasks t).sched.lastCpu]? with
  | none => rfl
  | some rq => exact getElem?_set_ne (Ne.symm hcpu)

/-- On its last CPU the task is dequeued. -/
theorem dequeue_last (s : MaiScheduler) (t : TaskId) :
    (s.dequeue tasks t).2.rqs[(tasks t).sched.lastCpu]? =
      s.rqs[(tasks t).sched.lastCpu]?.map fun rq => (rq.dequeue tasks t).2 := by
  rw [MaiScheduler.dequeue]
  cases hrq : s.rqs[(tasks t).sched.lastCpu]? with
  | none => exact hrq
  | some rq => exact getElem?_set_self (List.getElem?_eq_some_iff.mp hrq).1

theorem storedNowhere_dequeue_iff {s : MaiScheduler} (h : s.Keyed) (tasks : Tasks) (t : TaskId) :
    StoredNowhere (s.dequeue tasks t).2 t ↔ OnlyFoundOnLast tasks s t := by
  refine forall_congr' fun cpu => ?_
  obtain rfl | hcpu := eq_or_ne cpu ((tasks t).sched.lastCpu)
  · rw [dequeue_last]
    cases hrq : s.rqs[(tasks t).sched.lastCpu]? with
    | none => exact ⟨fun _ rq heq => (nomatch heq), fun _ rq heq => (nomatch heq)⟩
    | some rq =>
      have hcount := PerCpuRunQueue.count_dequeue (h rq (mem_of_getElem? hrq)) tasks t
      rw [Option.map_some]
      simp only [Option.some.injEq, forall_eq', if_true]
      rw [← count_eq_zero]
      omega
  · rw [dequeue_of_ne tasks s t hcpu]
    simp only [hcpu, if_false]

/-- **Dequeueing.** In every state that the scheduler can reach, `dequeue` removes a task from all
queues exactly if the task is only on its last CPU and found there; the other CPUs stay as they
are. -/
theorem dequeue_complete (tasks : Tasks) (numCpus : ℕ) (topology : CpuTopology)
    (ops : List SchedOp) (t : TaskId) :
    let s := run System.step (.new tasks numCpus topology) ops
    (StoredNowhere (s.sched.dequeue s.tasks t).2 t ↔ OnlyFoundOnLast s.tasks s.sched t) ∧
      ∀ cpu, cpu ≠ (s.tasks t).sched.lastCpu →
        (s.sched.dequeue s.tasks t).2.rqs[cpu]? = s.sched.rqs[cpu]? := by
  intro s
  exact ⟨storedNowhere_dequeue_iff (System.keyed_run tasks numCpus topology ops) s.tasks t,
    fun cpu hcpu => dequeue_of_ne s.tasks s.sched t hcpu⟩

/-- A task that is pinned to the second CPU and never ran is dequeued on the first. -/
theorem dequeue_incomplete :
    let s := run System.step (.new (fun _ => { sched := { pinnedCpu := some 1 } }) 2 (.uniform 2))
      [.enqueue 1 0]
    ¬ StoredNowhere (s.sched.dequeue s.tasks 1).2 1 := by
  intro s h
  have hstored := h 1 _ rfl
  revert hstored
  decide

end Maios.Sched
