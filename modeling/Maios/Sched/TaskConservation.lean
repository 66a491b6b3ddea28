import Maios.Library.Run
import Maios.Sched.EevdfMembership
import Maios.Sched.Scheduler

/-!
# Tasks are neither lost nor duplicated

A task that was enqueued and not dequeued should be in exactly one place: a queue of a CPU, the
`current` slot of a CPU, or the hands of a CPU that has just picked it. Five kinds of steps break
this:

* picking a round-robin task, which stays queued;
* enqueueing or waking a deadline task that admission control refuses, which is dropped silently;
* enqueueing or waking a task that is still somewhere;
* `set_current` over a task that is still running, or of a task that was not picked;
* `yield_current` of a task that is not runnable, or that admission control refuses.

`KeepsTasks` excludes these, each by what the system holds before the step. It asks a little too much:
a deadline task that is enqueued a second time with the same deadline replaces its own entry, and is
stored once all the same. Nothing is asked of dequeues and ticks, and nothing is known about tasks
that were dequeued: `dequeue` may well leave them where they are.

## Main results

* `PerCpuRunQueue.pickLocal_spec`, `MaiScheduler.pickNext_spec`: a task that is picked is taken out of
  its queue, unless it is a round-robin task at the front of the real-time queue.
* `SystemInv.setRq`: what is to be shown of a step that touches one CPU.
* `tasks_each_once`: every live task is in exactly one place, along every run.
-/

namespace Maios.Sched

open List EevdfRunQueue DeadlineRunQueue PerCpuRunQueue RtRunQueue MaiScheduler Option Prod

/-! ### Policies -/

/-- The tasks have the policies they had. -/
def SamePolicies (tasks tasks' : Tasks) : Prop :=
  ∀ t, (tasks' t).sched.policy = (tasks t).sched.policy

theorem SamePolicies.refl (tasks : Tasks) : SamePolicies tasks tasks := fun _ => rfl

variable {tasks tasks' : Tasks} {rq rq' : PerCpuRunQueue}

theorem SamePolicies.trans {tasks tasks'' : Tasks} (h : SamePolicies tasks tasks')
    (h' : SamePolicies tasks' tasks'') : SamePolicies tasks tasks'' :=
  fun t => (h' t).trans (h t)

theorem samePolicies_modifySched (tasks : Tasks) (t : TaskId) {f : TaskSchedInfo → TaskSchedInfo}
    (h : ∀ s, (f s).policy = s.policy) : SamePolicies tasks (tasks.modifySched t f) :=
  fun t' => Tasks.modifySched_field TaskSchedInfo.policy tasks t t' h

namespace RtRunQueue

theorem samePolicies_tick (tasks : Tasks) (t : TaskId) (elapsedNs : ℕ) :
    SamePolicies tasks (tick tasks t elapsedNs).2 := by
  refine samePolicies_modifySched tasks t fun s => ?_
  rw [charged]
  split
  · split_ifs <;> rfl
  · rfl

end RtRunQueue

namespace EevdfRunQueue

theorem keyed_tick {q : EevdfRunQueue} (h : q.Keyed) (tasks : Tasks) (t : TaskId)
    (elapsedNs : ℕ) : (tick tasks q t elapsedNs).2.2.Keyed := by
  obtain ⟨heligible, hineligible⟩ := q.stored_updateMinVruntime
    ((tasks.modifySched t (charged elapsedNs)) t).sched.vruntime
  rw [tick, Keyed]
  rw [heligible, hineligible]
  exact h

variable (tasks : Tasks) (q : EevdfRunQueue) (t : TaskId) (elapsedNs : ℕ)

theorem samePolicies_enqueue (isWakeup : Bool) :
    SamePolicies tasks (enqueue tasks q t isWakeup).1 :=
  samePolicies_modifySched tasks t fun _ => rfl

theorem samePolicies_dequeue : SamePolicies tasks (dequeue tasks q t).1 := by
  rw [dequeue_tasks]
  exact samePolicies_modifySched tasks t fun _ => rfl

theorem samePolicies_tick : SamePolicies tasks (tick tasks q t elapsedNs).2.1 :=
  samePolicies_modifySched tasks t fun _ => rfl

theorem stored_tick : (tick tasks q t elapsedNs).2.2.stored = q.stored := by
  obtain ⟨heligible, hineligible⟩ := q.stored_updateMinVruntime
    ((tasks.modifySched t (charged elapsedNs)) t).sched.vruntime
  rw [tick, stored]
  rw [heligible, hineligible, stored]

end EevdfRunQueue

/-! ### One CPU -/

namespace PerCpuRunQueue

/-- The places of a CPU that hold tasks. -/
def places (rq : PerCpuRunQueue) : List TaskId :=
  rq.deadlineRq.stored ++ rq.rtRq.stored ++ rq.cfsRq.stored ++ rq.current.toList

theorem count_places (rq : PerCpuRunQueue) (t : TaskId) :
    rq.places.count t = rq.deadlineRq.stored.count t + rq.rtRq.stored.count t +
      rq.cfsRq.occurrences t + rq.current.toList.count t := by
  rw [places, count_append, count_append, count_append]
  rfl

/-- The keys of the ordered queues carry the ids of their tasks, the deadline queue holds deadline
tasks, and there is no idle task. -/
structure Wf (tasks : Tasks) (rq : PerCpuRunQueue) : Prop where
  deadline : rq.deadlineRq.Wf tasks
  cfs : rq.cfsRq.Keyed
  idle : rq.idleRq.idleTask = none

theorem Wf.congr (h : Wf tasks rq) (hsame : SamePolicies tasks tasks') : Wf tasks' rq :=
  ⟨h.deadline.congr hsame, h.cfs, h.idle⟩

theorem wf_new (tasks : Tasks) (cpu : ℕ) : Wf tasks (new cpu) :=
  ⟨DeadlineRunQueue.wf_new tasks, keyed_new, rfl⟩

section Enqueue

variable {tasks : Tasks} {rq : PerCpuRunQueue} (h : Wf tasks rq) {t : TaskId} (nowNs : ℕ)
  (hclass : (tasks t).sched.policy.classId ≠ .idle)
include h hclass

/-- Everything that `enqueue` leaves as it is. -/
theorem enqueue_frame :
    SamePolicies tasks (enqueue tasks rq t nowNs).1 ∧
      Wf (enqueue tasks rq t nowNs).1 (enqueue tasks rq t nowNs).2 ∧
      ∀ t', t' ≠ t → (enqueue tasks rq t nowNs).2.places.count t' = rq.places.count t' := by
  rcases enqueue_cases tasks rq t nowNs with
    ⟨q, n, hok, heq⟩ | ⟨e, n, -, -, heq⟩ | ⟨n, heq⟩ | ⟨n, heq⟩ | hidle
  · rw [heq]
    refine ⟨.refl _, ⟨h.deadline.evolve (evolves_enqueue hok), h.cfs, h.idle⟩,
      fun t' hne => ?_⟩
    simp only [count_places, count_enqueue_of_ne h.deadline hok hne]
  · rw [heq]
    exact ⟨.refl _, ⟨h.deadline, h.cfs, h.idle⟩, fun _ _ => rfl⟩
  · rw [heq]
    refine ⟨.refl _, ⟨h.deadline, h.cfs, h.idle⟩, fun t' hne => ?_⟩
    have hother : [t].count t' = 0 := count_eq_zero.mpr (by simpa using hne)
    simp only [count_places, count_enqueue, hother, add_zero]
  · rw [heq]
    have hsame := samePolicies_enqueue tasks rq.cfsRq t true
    refine ⟨hsame, ⟨h.deadline.congr hsame, keyed_enqueue h.cfs tasks t true, h.idle⟩,
      fun t' hne => ?_⟩
    simp only [count_places, occurrences_enqueue_of_ne h.cfs tasks t true hne]
  · exact absurd hidle hclass

/-- An admitted task that was nowhere on the CPU is there once. -/
theorem count_enqueue_self (hadmits : rq.deadlineRq.admits (tasks t).sched.policy)
    (hnone : rq.places.count t = 0) : (enqueue tasks rq t nowNs).2.places.count t = 1 := by
  rw [count_places] at hnone
  rcases enqueue_cases tasks rq t nowNs with
    ⟨q, n, hok, heq⟩ | ⟨e, n, hdeadline, herror, -⟩ | ⟨n, heq⟩ | ⟨n, heq⟩ | hidle
  · rw [heq, count_places]
    dsimp only
    rw [DeadlineRunQueue.count_enqueue_self h.deadline hok (by omega)]
    omega
  · obtain ⟨q, hok⟩ := enqueue_of_admits hdeadline hadmits nowNs
    rw [hok] at herror
    cases herror
  · rw [heq, count_places]
    dsimp only
    rw [count_enqueue, count_singleton_self]
    omega
  · rw [heq, count_places]
    dsimp only
    rw [occurrences_enqueue_self h.cfs tasks t true (by omega)]
    omega
  · exact absurd hidle hclass

end Enqueue

variable (h : Wf tasks rq)

include h

theorem dequeue_frame (t : TaskId) :
    SamePolicies tasks (dequeue tasks rq t).1 ∧
      Wf (dequeue tasks rq t).1 (dequeue tasks rq t).2 ∧
      ∀ t', t' ≠ t → (dequeue tasks rq t).2.places.count t' = rq.places.count t' := by
  rcases dequeue_cases tasks rq t with ⟨n, heq⟩ | ⟨n, heq⟩ | ⟨n, heq⟩ | heq <;> rw [heq]
  · refine ⟨.refl _, ⟨h.deadline.evolve (evolves_dequeue t), h.cfs, h.idle⟩, fun t' hne => ?_⟩
    simp only [count_places, (takenOut_dequeue h.deadline.keyed tasks t).count_of_ne hne]
  · refine ⟨.refl _, ⟨h.deadline, h.cfs, h.idle⟩, fun t' hne => ?_⟩
    simp only [count_places, (rq.rtRq.takenOut_dequeue t).count_of_ne hne]
  · have hsame := samePolicies_dequeue tasks rq.cfsRq t
    refine ⟨hsame, ⟨h.deadline.congr hsame, keyed_dequeue h.cfs tasks t, h.idle⟩,
      fun t' hne => ?_⟩
    simp only [count_places, occurrences_dequeue_of_ne h.cfs tasks hne]
  · exact ⟨.refl _, h, fun _ _ => rfl⟩

theorem tick_frame (elapsedNs : ℕ) :
    SamePolicies tasks (tick tasks rq elapsedNs).1 ∧
      Wf (tick tasks rq elapsedNs).1 (tick tasks rq elapsedNs).2 ∧
      ∀ t', (tick tasks rq elapsedNs).2.places.count t' = rq.places.count t' := by
  rcases tick_cases tasks rq elapsedNs with heq | ⟨t, b, heq | heq | heq⟩ <;> rw [heq]
  · exact ⟨.refl _, h, fun _ => rfl⟩
  · refine ⟨.refl _, ⟨h.deadline.evolve (evolves_tick t elapsedNs), h.cfs, h.idle⟩,
      fun t' => ?_⟩
    simp only [count_places, count_tick]
  · have hsame := samePolicies_tick tasks t elapsedNs
    exact ⟨hsame, ⟨h.deadline.congr hsame, h.cfs, h.idle⟩, fun _ => rfl⟩
  · have hsame := samePolicies_tick tasks rq.cfsRq t elapsedNs
    refine ⟨hsame, ⟨h.deadline.congr hsame, keyed_tick h.cfs tasks t elapsedNs,
      h.idle⟩, fun t' => ?_⟩
    rw [count_places, count_places, occurrences, EevdfRunQueue.stored_tick]
    rfl

/-- Yielding puts the running task back if it is runnable and admitted, and leaves the others
alone. -/
theorem yieldCurrent_spec (nowNs : ℕ) (hclass : ∀ t, (tasks t).sched.policy.classId ≠ .idle) :
    SamePolicies tasks (yieldCurrent tasks rq nowNs).1 ∧
      Wf (yieldCurrent tasks rq nowNs).1 (yieldCurrent tasks rq nowNs).2 ∧
      (∀ u, rq.current ≠ some u →
        (yieldCurrent tasks rq nowNs).2.places.count u = rq.places.count u) ∧
      ∀ t, rq.current = some t → (tasks t).runstate = .runnable →
        rq.deadlineRq.admits (tasks t).sched.policy → rq.places.count t = 1 →
        (yieldCurrent tasks rq nowNs).2.places.count t = 1 := by
  have hidleWf : Wf tasks { rq with current := none } := ⟨h.deadline, h.cfs, h.idle⟩
  have hidle : ∀ u, rq.places.count u =
      (places { rq with current := none }).count u + rq.current.toList.count u := by
    intro u
    rw [count_places, count_places]
    dsimp only [toList_none]
    rw [count_nil, add_zero]
  have hother : ∀ u, rq.current ≠ some u →
      (places { rq with current := none }).count u = rq.places.count u := by
    intro u hne
    have hnot : rq.current.toList.count u = 0 :=
      count_eq_zero.mpr fun hmem => hne (mem_toList.mp hmem)
    rw [hidle u, hnot, add_zero]
  rw [yieldCurrent]
  cases hcurrent : rq.current with
  | none =>
    rw [hcurrent] at hother
    exact ⟨.refl _, hidleWf, hother, fun t heq => nomatch heq⟩
  | some t => ?_
  rw [hcurrent] at hother
  dsimp only
  split_ifs with hrunnable
  · obtain ⟨hsame, hwf, hframe⟩ := enqueue_frame hidleWf nowNs (hclass t)
    refine ⟨hsame, hwf, fun u hne => ?_, fun u heq _ hadmits hone => ?_⟩
    · rw [hframe u fun heq => hne (congrArg some heq.symm), hother u hne]
    · cases heq
      rw [hidle t, hcurrent, toList_some, count_singleton_self] at hone
      exact count_enqueue_self hidleWf nowNs (hclass t) hadmits (by omega)
  · exact ⟨.refl _, hidleWf, hother, fun u heq hrun => by
      cases heq
      exact absurd hrun hrunnable⟩

/-- If the turn is with this task and no deadline task is ready, then it is not a round-robin task. -/
def PickTakesOut (tasks : Tasks) (rq : PerCpuRunQueue) (t : TaskId) : Prop :=
  ¬ rq.deadlineRq.Ready → rq.rtRq.front = some t → (tasks t).sched.policy.isRoundRobin = false

omit h in
/-- Where nothing is picked, it is no task's turn. -/
theorem pickTakesOut_of_none (hnone : (pickLocal tasks rq).1 = none) (t : TaskId) :
    rq.PickTakesOut tasks t := by
  intro hready hfront
  rw [← DeadlineRunQueue.pickNext_isSome_iff tasks] at hready
  rw [← RtRunQueue.pickNext_fst tasks] at hfront
  rw [pickLocal, if_neg hready] at hnone
  dsimp only at hnone
  rw [hfront] at hnone
  cases hnone

/-- Picking from the queues of a CPU: a task that is there at most once is afterwards either there
or picked, unless it is the round-robin task whose turn it is. -/
theorem pickLocal_spec :
    Wf tasks (pickLocal tasks rq).2 ∧
      ∀ t, rq.places.count t ≤ 1 → rq.PickTakesOut tasks t →
        (pickLocal tasks rq).2.places.count t + (pickLocal tasks rq).1.toList.count t =
          rq.places.count t := by
  have hdl := h.deadline.evolve evolves_pickNext
  have hpick : ∀ t, rq.places.count t ≤ 1 → _ := fun t hone =>
    count_pickNext h.deadline (t := t) (by rw [count_places] at hone; omega)
  rw [pickLocal]
  simp only [count_places] at hpick ⊢
  split_ifs with hsome hsome'
  · refine ⟨⟨hdl, h.cfs, h.idle⟩, fun t hone _ => ?_⟩
    have hpick := hpick t hone
    dsimp only
    omega
  all_goals rw [not_isSome_iff_eq_none.mp hsome, toList_none] at hpick
  · refine ⟨⟨hdl, h.cfs, h.idle⟩, fun t hone hrr => ?_⟩
    have hpick := hpick t hone
    have hready : ¬ rq.deadlineRq.Ready := fun h =>
      hsome ((DeadlineRunQueue.pickNext_isSome_iff tasks _).mpr h)
    have hpick' := count_pickNext tasks rq.rtRq t (hrr hready)
    dsimp only
    rw [count_nil] at hpick
    omega
  · refine ⟨⟨hdl, keyed_pickNext h.cfs tasks, h.idle⟩, fun t hone _ => ?_⟩
    have hpick := hpick t hone
    have hnone' := not_isSome_iff_eq_none.mp hsome'
    have hpick' := count_pickNext tasks rq.rtRq t (by
      rw [← RtRunQueue.pickNext_fst tasks, hnone']
      exact fun heq => nomatch heq)
    rw [hnone', toList_none, count_nil] at hpick'
    have hpick'' := occurrences_pickNext h.cfs tasks (t := t) (by omega)
    dsimp only
    rw [count_nil] at hpick
    omega

theorem stealOne_spec :
    Wf tasks (stealOne tasks rq).2 ∧ ∀ t,
      (stealOne tasks rq).2.places.count t + (stealOne tasks rq).1.toList.count t =
        rq.places.count t := by
  have hkeyed := keyed_stealOne h.cfs tasks
  have hcount := occurrences_stealOne rq.cfsRq tasks
  rw [stealOne]
  split
  all_goals
    rename_i heq
    rw [heq] at hkeyed hcount
    refine ⟨⟨h.deadline, hkeyed, h.idle⟩, fun t => ?_⟩
    have hsteal := hcount t
    rw [count_places, count_places]
    dsimp only at hsteal ⊢
    omega

end PerCpuRunQueue

/-! ### All CPUs -/

namespace MaiScheduler

def places (s : MaiScheduler) : List TaskId := s.rqs.flatMap PerCpuRunQueue.places

def Wf (tasks : Tasks) (s : MaiScheduler) : Prop := ∀ rq ∈ s.rqs, rq.Wf tasks

variable {s : MaiScheduler}

theorem Wf.congr (h : Wf tasks s) (hsame : SamePolicies tasks tasks') :
    Wf tasks' s := fun rq hrq => (h rq hrq).congr hsame

theorem wf_new (tasks : Tasks) (numCpus : ℕ) (topology : CpuTopology) :
    Wf tasks (new numCpus topology) := by
  intro rq hrq
  obtain ⟨cpu, -, rfl⟩ := mem_map.mp hrq
  exact PerCpuRunQueue.wf_new tasks cpu

section SetRq

variable {tasks : Tasks} {s : MaiScheduler} {cpu : ℕ} {rq : PerCpuRunQueue}

theorem Wf.setRq (h : Wf tasks s) (hrq : rq'.Wf tasks) : Wf tasks (s.setRq cpu rq') := by
  intro rq hmem
  rcases mem_or_eq_of_mem_set hmem with hmem | rfl
  · exact h rq hmem
  · exact hrq

theorem count_setRq (hrq : s.rqs[cpu]? = some rq) (rq' : PerCpuRunQueue) (t : TaskId) :
    (s.setRq cpu rq').places.count t + rq.places.count t =
      s.places.count t + rq'.places.count t :=
  count_flatMap_set PerCpuRunQueue.places hrq rq' t

/-- A CPU holds no more than all CPUs. -/
theorem count_rq_le (hrq : s.rqs[cpu]? = some rq) (t : TaskId) :
    rq.places.count t ≤ s.places.count t := by
  have hset := count_setRq hrq (PerCpuRunQueue.new cpu) t
  have hempty : (PerCpuRunQueue.new cpu).places.count t = 0 := by
    rw [PerCpuRunQueue.new]
    rfl
  omega

end SetRq

/-- The data a task is placed by does not change what may be placed. -/
theorem samePolicies_woken (tasks : Tasks) (s : MaiScheduler) (t : TaskId) (cpu : ℕ) :
    SamePolicies tasks (woken tasks s t cpu) := by
  intro t'
  rw [woken]
  obtain rfl | ht := eq_or_ne t' t
  · rw [Function.update_self]
  · rw [Function.update_of_ne ht]

/-- Stealing moves one task out of a queue. -/
theorem stealFrom_spec (thief : ℕ) (h : Wf tasks s) (order : List ℕ) :
    Wf tasks (stealFrom tasks thief s order).2 ∧ ∀ t,
      (stealFrom tasks thief s order).2.places.count t +
        (stealFrom tasks thief s order).1.toList.count t = s.places.count t := by
  rcases stealFrom_cases tasks thief s order with heq | ⟨victim, rq, -, hrq, heq⟩ <;> rw [heq]
  · exact ⟨h, fun _ => rfl⟩
  obtain ⟨hwf, hcount⟩ := PerCpuRunQueue.stealOne_spec (h rq (mem_of_getElem? hrq))
  refine ⟨h.setRq hwf, fun t => ?_⟩
  have hset := count_setRq hrq (rq.stealOne tasks).2 t
  have hsteal := hcount t
  dsimp only
  omega

theorem pickNext_spec (h : Wf tasks s) {cpu : ℕ} {r : Option TaskId × MaiScheduler}
    (hr : pickNext tasks s cpu = some r) :
    Wf tasks r.2 ∧ ∀ t, s.places.count t ≤ 1 → (∀ rq ∈ s.rqs[cpu]?, rq.PickTakesOut tasks t) →
      r.2.places.count t + r.1.toList.count t = s.places.count t := by
  rw [pickNext] at hr
  cases hrq : s.rqs[cpu]? with
  | none =>
    rw [hrq] at hr
    cases hr
  | some rq => ?_
  have hrqWf := h rq (mem_of_getElem? hrq)
  obtain ⟨hwf, hcount⟩ := pickLocal_spec hrqWf
  have hset := count_setRq hrq (rq.pickLocal tasks).2
  have hle := count_rq_le hrq
  rw [hrq] at hr
  dsimp only at hr
  split_ifs at hr with hlocal hstolen
  · cases hr
    refine ⟨h.setRq hwf, fun t hone hrr => ?_⟩
    have hpick := hcount t (Nat.le_trans (hle t) hone) (hrr rq rfl)
    have hset := hset t
    dsimp only
    omega
  -- nothing was picked locally: the local queues hold what they held
  all_goals
    have hnone := not_isSome_iff_eq_none.mp hlocal
    have hlocalCount : ∀ t, s.places.count t ≤ 1 →
        (s.setRq cpu (rq.pickLocal tasks).2).places.count t = s.places.count t := by
      intro t hone
      have hpick := hcount t (Nat.le_trans (hle t) hone) (pickTakesOut_of_none hnone t)
      rw [hnone, toList_none, count_nil] at hpick
      have hset := hset t
      omega
  · cases hr
    have hsetWf : Wf tasks (s.setRq cpu (rq.pickLocal tasks).2) := h.setRq hwf
    obtain ⟨hstealWf, hsteal⟩ := stealFrom_spec cpu hsetWf
      ((s.setRq cpu (rq.pickLocal tasks).2).topology.stealOrder cpu)
    refine ⟨hstealWf, fun t hone _ => ?_⟩
    rw [← hlocalCount t hone]
    exact hsteal t
  · cases hr
    refine ⟨h.setRq hwf, fun t hone _ => ?_⟩
    rw [hrqWf.idle]
    exact hlocalCount t hone

end MaiScheduler

/-! ### The system -/

/-- The scheduler with its tasks, the tasks that each CPU has picked and not yet made current, and
the tasks that were enqueued and not dequeued. -/
structure System where
  tasks : Tasks
  sched : MaiScheduler
  picked : List (ℕ × TaskId)
  live : List TaskId

inductive SchedOp where
  | enqueue (t : TaskId) (nowNs : ℕ)
  | taskWakeup (t : TaskId) (cpu nowNs : ℕ)
  | pickNext (cpu : ℕ)
  | dequeue (t : TaskId)
  | tick (cpu elapsedNs : ℕ)
  | setCurrent (cpu : ℕ) (t : TaskId)
  | yieldCurrent (cpu nowNs : ℕ)

namespace System

def new (tasks : Tasks) (numCpus : ℕ) (topology : CpuTopology) : System :=
  ⟨tasks, .new numCpus topology, [], []⟩

/-- The system after the scheduler took in a task. -/
def enqueued (s : System) (t : TaskId) : Option (Tasks × MaiScheduler) → System
  | some r => { s with tasks := r.1, sched := r.2, live := t :: s.live }
  | none => s

def step (s : System) : SchedOp → System
  | .enqueue t nowNs => s.enqueued t (s.sched.enqueue s.tasks t nowNs)
  | .taskWakeup t cpu nowNs => s.enqueued t (s.sched.taskWakeup s.tasks t cpu nowNs)
  | .pickNext cpu =>
    match s.sched.pickNext s.tasks cpu with
    | some r => { s with sched := r.2, picked := r.1.toList.map (cpu, ·) ++ s.picked }
    | none => s
  | .dequeue t =>
    let r := s.sched.dequeue s.tasks t
    { s with tasks := r.1, sched := r.2, live := s.live.filter fun u => decide (u ≠ t) }
  | .tick cpu elapsedNs =>
    let r := s.sched.tick s.tasks cpu elapsedNs
    { s with tasks := r.1, sched := r.2 }
  | .setCurrent cpu t =>
    match s.sched.rqs[cpu]? with
    | some rq =>
      let r := rq.setCurrent s.tasks t
      { s with
        tasks := r.1
        sched := s.sched.setRq cpu r.2
        picked := s.picked.erase (cpu, t) }
    | none => s
  | .yieldCurrent cpu nowNs =>
    match s.sched.rqs[cpu]? with
    | some rq =>
      let r := rq.yieldCurrent s.tasks nowNs
      { s with tasks := r.1, sched := s.sched.setRq cpu r.2 }
    | none => s

/-- All places that hold tasks. -/
def places (s : System) : List TaskId := s.sched.places ++ s.picked.map Prod.snd

theorem count_places (s : System) (t : TaskId) :
    s.places.count t = s.sched.places.count t + (s.picked.map snd).count t := by
  rw [places, count_append]

end System

/-- Every task that was enqueued and not dequeued is in exactly one place. -/
def EachOnce (s : System) : Prop := ∀ t ∈ s.live, s.places.count t = 1

/-- The task is nowhere, and the CPU selected for it admits it. -/
def Placeable (tasks : Tasks) (s : System) (t : TaskId) : Prop :=
  t ∉ s.places ∧ ∀ rq ∈ s.sched.rqs[s.sched.selectCpuForTask tasks t]?,
    rq.deadlineRq.admits (tasks t).sched.policy

instance (tasks : Tasks) (s : System) (t : TaskId) : Decidable (Placeable tasks s t) :=
  inferInstanceAs (Decidable (_ ∧ _))

/-- Where no deadline task is ready, the turn is not with a live round-robin task. -/
def PickKeeps (s : System) (cpu : ℕ) : Prop :=
  ∀ rq ∈ s.sched.rqs[cpu]?, ¬ rq.deadlineRq.Ready → ∀ t ∈ rq.rtRq.front, t ∈ s.live →
    (s.tasks t).sched.policy.isRoundRobin = false

/-- A live task that becomes current was picked by the CPU or is current already, and does not take
the place of another live task. -/
def SetCurrentKeeps (s : System) (cpu : ℕ) (t : TaskId) : Prop :=
  ∀ rq ∈ s.sched.rqs[cpu]?, (t ∈ s.live → (cpu, t) ∈ s.picked ∨ rq.current = some t) ∧
    ∀ u ∈ rq.current, u ∈ s.live → u = t

/-- A live task that yields is runnable and admitted. -/
def YieldKeeps (s : System) (cpu : ℕ) : Prop :=
  ∀ rq ∈ s.sched.rqs[cpu]?, ∀ t ∈ rq.current, t ∈ s.live →
    (s.tasks t).runstate = .runnable ∧ rq.deadlineRq.admits (s.tasks t).sched.policy

instance (s : System) (cpu : ℕ) : Decidable (PickKeeps s cpu) :=
  inferInstanceAs (Decidable (∀ rq ∈ s.sched.rqs[cpu]?, _ → ∀ t ∈ rq.rtRq.front, _))

instance (s : System) (cpu : ℕ) (t : TaskId) : Decidable (SetCurrentKeeps s cpu t) :=
  inferInstanceAs (Decidable (∀ rq ∈ s.sched.rqs[cpu]?, _ ∧ ∀ u ∈ rq.current, _))

instance (s : System) (cpu : ℕ) : Decidable (YieldKeeps s cpu) :=
  inferInstanceAs (Decidable (∀ rq ∈ s.sched.rqs[cpu]?, ∀ t ∈ rq.current, _))

/-- The steps that neither lose nor duplicate a task. -/
def KeepsTasks (s : System) : SchedOp → Prop
  | .enqueue t _ => Placeable s.tasks s t
  | .taskWakeup t cpu _ => Placeable (s.sched.woken s.tasks t cpu) s t
  | .pickNext cpu => PickKeeps s cpu
  | .setCurrent cpu t => SetCurrentKeeps s cpu t
  | .yieldCurrent cpu _ => YieldKeeps s cpu
  | .dequeue _ => True
  | .tick _ _ => True

instance (s : System) : (op : SchedOp) → Decidable (KeepsTasks s op)
  | .enqueue t _ => inferInstanceAs (Decidable (Placeable s.tasks s t))
  | .taskWakeup t cpu _ => inferInstanceAs (Decidable (Placeable (s.sched.woken s.tasks t cpu) s t))
  | .pickNext cpu => inferInstanceAs (Decidable (PickKeeps s cpu))
  | .setCurrent cpu t => inferInstanceAs (Decidable (SetCurrentKeeps s cpu t))
  | .yieldCurrent cpu _ => inferInstanceAs (Decidable (YieldKeeps s cpu))
  | .dequeue _ | .tick _ _ => isTrue trivial

/-- What all reached states have. -/
structure SystemInv (s : System) : Prop where
  once : EachOnce s
  wf : s.sched.Wf s.tasks
  notIdle : ∀ t, (s.tasks t).sched.policy.classId ≠ .idle

variable {s s' : System}

/-- A live task is on a CPU or among the picked tasks. -/
theorem SystemInv.count_eq_one (h : SystemInv s) {t : TaskId} (ht : t ∈ s.live) :
    s.sched.places.count t + (s.picked.map snd).count t = 1 :=
  (s.count_places t).symm.trans (h.once t ht)

/-- The invariant after a step on one CPU that keeps the policies: it is enough to compare what
the CPU held and holds. -/
theorem SystemInv.setRq (h : SystemInv s) {cpu : ℕ} (hrq : s.sched.rqs[cpu]? = some rq)
    (hrqs : s'.sched.rqs = (s.sched.setRq cpu rq').rqs) (hsame : SamePolicies s.tasks s'.tasks)
    (hwf : rq'.Wf s'.tasks)
    (honce : ∀ t ∈ s'.live, s.sched.places.count t + rq'.places.count t +
      (s'.picked.map snd).count t = rq.places.count t + 1) : SystemInv s' := by
  refine ⟨fun t ht => ?_, ?_, fun t => ?_⟩
  · have hset := count_setRq hrq rq' t
    have hcount := honce t ht
    rw [System.count_places, MaiScheduler.places, hrqs, ← MaiScheduler.places]
    omega
  · rw [MaiScheduler.Wf, hrqs]
    exact (h.wf.congr hsame).setRq hwf
  · rw [hsame t]
    exact h.notIdle t

theorem SystemInv.of_live_subset (h : SystemInv s) (hsched : s'.sched.rqs = s.sched.rqs)
    (htasks : s'.tasks = s.tasks) (hpicked : s'.picked = s.picked)
    (hlive : ∀ t ∈ s'.live, t ∈ s.live) : SystemInv s' := by
  refine ⟨fun t ht => ?_, ?_, ?_⟩
  · rw [System.places, MaiScheduler.places, hsched, hpicked]
    exact h.once t (hlive t ht)
  · rw [MaiScheduler.Wf, hsched, htasks]
    exact h.wf
  · rw [htasks]
    exact h.notIdle

theorem systemInv_new {tasks : Tasks} (hclass : ∀ t, (tasks t).sched.policy.classId ≠ .idle)
    (numCpus : ℕ) (topology : CpuTopology) : SystemInv (.new tasks numCpus topology) :=
  ⟨forall_mem_nil _, wf_new tasks numCpus topology, hclass⟩

/-! ### Enqueueing -/

theorem count_erase_picked {picked : List (ℕ × TaskId)} {cpu : ℕ} {t : TaskId}
    (hmem : (cpu, t) ∈ picked) (u : TaskId) :
    ((picked.erase (cpu, t)).map snd).count u + [t].count u =
      (picked.map snd).count u := by
  have hperm : (picked.map snd).Perm ([t] ++ (picked.erase (cpu, t)).map snd) :=
    (perm_cons_erase hmem).map snd
  rw [hperm.count_eq u, count_append, Nat.add_comm]

theorem count_erase_picked_of_ne (picked : List (ℕ × TaskId)) (cpu : ℕ) {t u : TaskId}
    (hne : u ≠ t) :
    ((picked.erase (cpu, t)).map snd).count u = (picked.map snd).count u := by
  by_cases hmem : (cpu, t) ∈ picked
  · have hother : [t].count u = 0 := count_eq_zero.mpr (by simpa using hne)
    rw [← count_erase_picked hmem u, hother, Nat.add_zero]
  · rw [erase_of_not_mem hmem]

section

variable (h : SystemInv s) {cpu : ℕ}

include h

/-- Taking in a task, possibly after a change of the tasks that keeps their policies. -/
theorem systemInv_enqueue {t : TaskId} {nowNs : ℕ}
    (hsame : SamePolicies s.tasks tasks') (hplace : Placeable tasks' s t) :
    SystemInv (s.enqueued t (s.sched.enqueue tasks' t nowNs)) := by
  obtain ⟨hnowhere, hadmits⟩ := hplace
  rw [MaiScheduler.enqueue]
  cases hrq : s.sched.rqs[s.sched.selectCpuForTask tasks' t]? with
  | none => exact h
  | some rq => ?_
  dsimp only [System.enqueued]
  have hclass : (tasks' t).sched.policy.classId ≠ .idle := by
    rw [hsame t]
    exact h.notIdle t
  have hrqWf := (h.wf rq (mem_of_getElem? hrq)).congr hsame
  obtain ⟨hpolicies, hwf, hframe⟩ := enqueue_frame hrqWf nowNs hclass
  refine h.setRq hrq rfl (hsame.trans hpolicies) hwf fun u hu => ?_
  dsimp only at hu ⊢
  obtain rfl | hut := eq_or_ne u t
  · have hzero := count_eq_zero.mpr hnowhere
    rw [System.count_places] at hzero
    have hle := count_rq_le hrq u
    rw [count_enqueue_self hrqWf nowNs hclass (hadmits rq hrq) (by omega)]
    omega
  · have hone := h.count_eq_one ((mem_cons.mp hu).resolve_left hut)
    rw [hframe u hut]
    omega

/-! ### Picking -/

theorem systemInv_pickNext (hg : PickKeeps s cpu) : SystemInv (s.step (.pickNext cpu)) := by
  rw [System.step]
  cases hr : s.sched.pickNext s.tasks cpu with
  | none => exact h
  | some r => ?_
  obtain ⟨hwf, hcount⟩ := MaiScheduler.pickNext_spec h.wf hr
  refine ⟨fun t ht => ?_, hwf, h.notIdle⟩
  have hone := h.count_eq_one ht
  have hpick := hcount t (by omega) fun rq hrq hready hfront => hg rq hrq hready t hfront ht
  have hpicked : ((r.1.toList.map fun u => (cpu, u)).map snd).count t =
      r.1.toList.count t := by
    rw [List.map_map]
    exact congrArg (count t) (map_id' _)
  rw [System.count_places]
  dsimp only
  rw [map_append, count_append]
  omega

/-! ### Dequeueing and ticks -/

theorem systemInv_dequeue (t : TaskId) : SystemInv (s.step (.dequeue t)) := by
  have hlive : ∀ {u}, u ∈ (s.live.filter fun u => decide (u ≠ t)) → u ≠ t ∧ u ∈ s.live := by
    intro u hu
    obtain ⟨hmem, hne⟩ := mem_filter.mp hu
    exact ⟨of_decide_eq_true hne, hmem⟩
  rw [System.step, MaiScheduler.dequeue]
  cases hrq : s.sched.rqs[(s.tasks t).sched.lastCpu]? with
  | none =>
    exact h.of_live_subset rfl rfl rfl fun u hu => (hlive hu).2
  | some rq => ?_
  obtain ⟨hsame, hwf, hframe⟩ := dequeue_frame (h.wf rq (mem_of_getElem? hrq)) t
  refine h.setRq hrq rfl hsame hwf fun u hu => ?_
  dsimp only at hu ⊢
  obtain ⟨hne, hu⟩ := hlive hu
  have hone := h.count_eq_one hu
  rw [hframe u hne]
  omega

theorem systemInv_tick (cpu elapsedNs : ℕ) : SystemInv (s.step (.tick cpu elapsedNs)) := by
  rw [System.step, MaiScheduler.tick]
  cases hrq : s.sched.rqs[cpu]? with
  | none => exact h
  | some rq => ?_
  obtain ⟨hsame, hwf, hframe⟩ := tick_frame (h.wf rq (mem_of_getElem? hrq)) elapsedNs
  refine h.setRq hrq rfl hsame hwf fun u hu => ?_
  dsimp only at hu ⊢
  have hone := h.count_eq_one hu
  rw [hframe u]
  omega

/-! ### The running task -/

theorem systemInv_setCurrent {t : TaskId} (hg : SetCurrentKeeps s cpu t) :
    SystemInv (s.step (.setCurrent cpu t)) := by
  rw [System.step]
  cases hrq : s.sched.rqs[cpu]? with
  | none => exact h
  | some rq => ?_
  obtain ⟨hheld, hover⟩ := hg rq hrq
  have hrqWf := h.wf rq (mem_of_getElem? hrq)
  have hsame : SamePolicies s.tasks (rq.setCurrent s.tasks t).1 :=
    samePolicies_modifySched s.tasks t fun _ => rfl
  have hwf : (rq.setCurrent s.tasks t).2.Wf (rq.setCurrent s.tasks t).1 :=
    ⟨hrqWf.deadline.congr hsame, hrqWf.cfs, hrqWf.idle⟩
  refine h.setRq hrq rfl hsame hwf fun u hu => ?_
  have hone := h.count_eq_one hu
  have hold := count_places rq u
  have hle := count_rq_le hrq u
  have hnew : (rq.setCurrent s.tasks t).2.places.count u = rq.deadlineRq.stored.count u +
      rq.rtRq.stored.count u + rq.cfsRq.occurrences u + [t].count u :=
    count_places _ u
  dsimp only at hu ⊢
  obtain rfl | hut := eq_or_ne u t
  · rw [count_singleton_self] at hnew
    rcases hheld hu with hpicked | hcurrent
    · -- the picked task was nowhere on the CPUs
      have herase := count_erase_picked hpicked u
      rw [count_singleton_self] at herase
      omega
    · -- the current task was not picked
      have herase : ((s.picked.erase (cpu, u)).map snd).count u ≤
          (s.picked.map snd).count u := (erase_sublist.map snd).count_le u
      rw [hcurrent, toList_some, count_singleton_self] at hold
      omega
  · have hother : [t].count u = 0 := count_eq_zero.mpr (by simpa using hut)
    have hcurrent : rq.current.toList.count u = 0 := by
      refine count_eq_zero.mpr fun hmem => hut (hover u ?_ hu)
      exact mem_toList.mp hmem
    rw [count_erase_picked_of_ne s.picked cpu hut]
    omega

theorem systemInv_yieldCurrent {nowNs : ℕ} (hg : YieldKeeps s cpu) :
    SystemInv (s.step (.yieldCurrent cpu nowNs)) := by
  rw [System.step]
  cases hrq : s.sched.rqs[cpu]? with
  | none => exact h
  | some rq => ?_
  have hrqWf := h.wf rq (mem_of_getElem? hrq)
  obtain ⟨hsame, hwf, hframe, hself⟩ := yieldCurrent_spec hrqWf nowNs h.notIdle
  refine h.setRq hrq rfl hsame hwf fun u hu => ?_
  have hone := h.count_eq_one hu
  have hle := count_rq_le hrq u
  dsimp only
  by_cases hcurrent : rq.current = some u
  · obtain ⟨hrunnable, hadmits⟩ := hg rq hrq u hcurrent hu
    have hhere := count_places rq u
    rw [hcurrent, toList_some, count_singleton_self] at hhere
    rw [hself u hcurrent hrunnable hadmits (by omega)]
    omega
  · rw [hframe u hcurrent]
    omega

/-! ### Runs -/

end

theorem systemInv_step (s : System) (op : SchedOp) (h : SystemInv s) (hg : KeepsTasks s op) :
    SystemInv (s.step op) := by
  cases op with
  | enqueue t nowNs => exact systemInv_enqueue h (.refl _) hg
  | taskWakeup t cpu nowNs =>
    exact systemInv_enqueue h (samePolicies_woken s.tasks s.sched t cpu) hg
  | pickNext cpu => exact systemInv_pickNext h hg
  | dequeue t => exact systemInv_dequeue h t
  | tick cpu elapsedNs => exact systemInv_tick h cpu elapsedNs
  | setCurrent cpu t => exact systemInv_setCurrent h hg
  | yieldCurrent cpu nowNs => exact systemInv_yieldCurrent h hg

/-- **No task is lost or duplicated.** Over any number of CPUs and any tasks that are not idle
tasks, as long as the steps of a run keep to `KeepsTasks`, every task that was enqueued and not
dequeued is in exactly one place. -/
theorem tasks_each_once (tasks : Tasks) (numCpus : ℕ) (topology : CpuTopology)
    (hclass : ∀ t, (tasks t).sched.policy.classId ≠ .idle) (ops : List SchedOp)
    (hg : Guarded System.step KeepsTasks (.new tasks numCpus topology) ops) :
    EachOnce (run System.step (.new tasks numCpus topology) ops) :=
  (hg.invariant systemInv_step (systemInv_new hclass numCpus topology)).once

/-- A FIFO task is enqueued, picked, made current, yielded and dequeued, beside a normal one. -/
theorem tasks_each_once_two :
    EachOnce (run System.step
      (.new (fun t => { sched := { policy := if t = 1 then .fifo else .normal } }) 1 (.uniform 1))
      [.enqueue 1 0, .enqueue 2 0, .pickNext 0, .setCurrent 0 1, .tick 0 1000, .yieldCurrent 0 5,
        .dequeue 1]) :=
  tasks_each_once _ _ _
    (by
      intro t
      split_ifs with ht
      · decide
      · decide) _
    ⟨by decide +kernel, by decide +kernel, by decide +kernel, by decide +kernel, by decide +kernel,
      by decide +kernel, by decide +kernel, trivial⟩

/-- A round-robin task that is picked is in two places. -/
theorem tasks_not_each_once :
    ¬ EachOnce (run System.step
      (.new (fun _ => { sched := { policy := .roundRobin 100 } }) 1 (.uniform 1))
      [.enqueue 1 0, .pickNext 0]) := by
  intro h
  have honce := h 1 (by decide +kernel)
  revert honce
  decide +kernel

end Maios.Sched
