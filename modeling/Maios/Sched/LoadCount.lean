import Maios.Library.Run
import Maios.Sched.EevdfDue
import Maios.Sched.Scheduler

/-!
# The load of a CPU

`load()` should be the number of tasks in the deadline, real-time and EEVDF queue of a CPU. The
counter is raised by every `enqueue` and lowered by every `dequeue`, whatever these did:

* a refused deadline task is counted, and so is a task whose new entry replaces an old one;
* a `dequeue` that finds nothing lowers the counter, below zero if need be, and so does
  `MaiScheduler::dequeue` with the number of all tasks;
* `pick_next` takes tasks out of the queues themselves, past the counter.

`LoadTold` excludes exactly these, by what the queues hold before the step. A pick may find nothing in
the queues of the CPU, or a round-robin task, which stays queued; and a deadline task that it puts off
to its next period must not replace another entry there (`PickTold`).

## Main results

* `told_enqueue_iff`, `told_dequeue_iff`, `told_pickLocal_iff`, `told_stealOne`: what each operation on
  a CPU does to the counter and to the queues.
* `told_step_iff`: the step lemma, for all CPUs.
* `loads_exact`: the load counters along a run.
-/

namespace Maios.Sched

open List Option PerCpuRunQueue OrdMap Nat

theorem forall_mem_some {α : Type} {a : α} {P : α → Prop} : (∀ x ∈ some a, P x) ↔ P a :=
  ⟨fun h => h a rfl, fun h _ hx => some.inj hx ▸ h⟩

/-! ### How many tasks a queue stores -/

variable (tasks : Tasks)

namespace EevdfRunQueue

/-- The entry that `enqueue` makes for a task replaces none. -/
def adds (tasks : Tasks) (q : EevdfRunQueue) (t : TaskId) : Bool :=
  let s := q.placed true (tasks t).sched
  if s.ve ≤ q.minVruntime then (q.eligible.find? (vtKey s.vdeadline t)).isNone
  else (q.ineligible.find? (vtKey s.ve t)).isNone

variable (q : EevdfRunQueue)

theorem length_stored :
    q.stored.length = q.eligible.entries.length + q.ineligible.entries.length := by
  rw [stored, length_append, values, values, length_map, length_map]

theorem length_enqueue (t : TaskId) :
    (enqueue tasks q t true).2.stored.length =
      q.stored.length + if q.adds tasks t then 1 else 0 := by
  rw [length_stored, length_stored, enqueue, adds]
  simp only [Tasks.modifySched_self]
  by_cases hve : (q.placed true (tasks t).sched).ve ≤ q.minVruntime
  · rw [if_pos hve, if_pos hve, OrdMap.length_insert]
    dsimp only
    omega
  · rw [if_neg hve, if_neg hve, OrdMap.length_insert]
    dsimp only
    omega

theorem length_dequeue (t : TaskId) :
    (dequeue tasks q t).2.stored.length + (if q.finds tasks t then 1 else 0) =
      q.stored.length := by
  rw [length_stored, length_stored, dequeue, finds]
  cases (tasks t).sched.onRq with
  | false => rfl
  | true => ?_
  have heligible := length_remove q.eligible (vtKey (tasks t).sched.vdeadline t)
  have hineligible := length_remove q.ineligible (vtKey (tasks t).sched.ve t)
  rw [if_pos rfl, Bool.true_and]
  cases hfind : q.eligible.find? (vtKey (tasks t).sched.vdeadline t) with
  | some u =>
    rw [hfind, isSome_some, if_pos rfl] at heligible
    rw [isSome_some, Bool.true_or, if_pos rfl]
    dsimp only
    omega
  | none =>
    rw [isSome_none, Bool.false_or]
    dsimp only
    omega

theorem length_promote_le (key : VtKey) :
    (promote tasks q key).stored.length ≤ q.stored.length := by
  rcases promote_cases tasks q key with heq | ⟨t, hmem, heq⟩ <;> rw [heq]
  rw [length_stored, length_stored]
  have hinsert := OrdMap.length_insert q.eligible (vtKey (tasks t).sched.vdeadline t) t
  have hremove := (perm_cons_remove hmem).length_eq
  rw [length_cons] at hremove
  dsimp only
  split_ifs at hinsert <;> omega

theorem length_advanceEligibility_le :
    (advanceEligibility tasks q).stored.length ≤ q.stored.length :=
  advanceEligibility_induct (P := fun q' => q'.stored.length ≤ q.stored.length) tasks q
    (fun q' key hle => (length_promote_le tasks q' key).trans hle) le_rfl

/-- A pick takes out a task if one is due, and nothing otherwise. -/
theorem length_pickNext : (pickNext tasks q).2.stored.length ≤ q.stored.length ∧
    ((pickNext tasks q).2.stored.length = q.stored.length ↔ ¬ q.HasDue) := by
  by_cases hdue : q.HasDue
  · have hle := length_advanceEligibility_le tasks q
    have hperm := (pickNext_perm tasks q).length_eq
    obtain ⟨t, ht⟩ := isSome_iff_exists.mp ((pickNext_isSome_iff tasks q).mpr hdue)
    rw [ht, toList_some, length_append, length_singleton] at hperm
    exact ⟨by omega, fun heq => absurd heq (by omega), fun h => absurd hdue h⟩
  · rw [pickNext_of_not_hasDue tasks hdue]
    exact ⟨le_rfl, fun _ => hdue, fun _ => rfl⟩

/-- A stolen task is one task less. -/
theorem length_stealOne :
    (stealOne tasks q).2.stored.length + (stealOne tasks q).1.toList.length = q.stored.length := by
  rw [(stealOne_perm q tasks).length_eq, length_append, add_comm]

end EevdfRunQueue

namespace DeadlineRunQueue

/-- `enqueue` admits the task, and the entry that it makes replaces none. -/
def adds (tasks : Tasks) (q : DeadlineRunQueue) (t : TaskId) (nowNs : ℕ) : Bool :=
  match (tasks t).sched.policy with
  | .deadline runtime deadline period =>
    decide (q.admits (.deadline runtime deadline period)) &&
      (q.tasks.find? (vtKey (wrap (nowNs + deadline)) t)).isNone
  | _ => false

variable (q : DeadlineRunQueue)

theorem length_stored : q.stored.length = q.tasks.entries.length :=
  length_map _

/-- What `enqueue` stores: nothing if it fails. -/
theorem length_enqueue (t : TaskId) (nowNs : ℕ) :
    (∀ q', enqueue tasks q t nowNs = .ok q' →
      q'.stored.length = q.stored.length + if q.adds tasks t nowNs then 1 else 0) ∧
    ∀ e, enqueue tasks q t nowNs = .error e → q.adds tasks t nowNs = false := by
  rw [enqueue, adds]
  cases (tasks t).sched.policy with
  | deadline runtime deadline period =>
    by_cases hadmits : q.admits (.deadline runtime deadline period)
    · simp only [decide_eq_true hadmits, Bool.true_and]
      rw [if_neg hadmits.1, if_neg (not_lt.mpr hadmits.2)]
      refine ⟨fun q' h => ?_, fun e h => by cases h⟩
      cases h
      rw [length_stored, length_stored, OrdMap.length_insert]
    · simp only [decide_eq_false hadmits, Bool.false_and]
      refine ⟨fun q' h => ?_, fun _ _ => trivial⟩
      split_ifs at h with hperiod hover
      exact absurd ⟨hperiod, not_lt.mp hover⟩ hadmits
  | idle | batch | normal | compute | roundRobin | fifo =>
    exact ⟨fun q' h => (by cases h), fun _ _ => rfl⟩

theorem length_dequeue (t : TaskId) :
    (dequeue tasks q t).stored.length + (if (q.findKey t).isSome then 1 else 0) =
      q.stored.length := by
  rw [length_stored, length_stored, dequeue]
  cases hfind : q.findKey t with
  | none => rfl
  | some e => exact (perm_cons_remove (findKey_some hfind).1).length_eq.symm

/-- The task with the earliest deadline, if there is one, has no budget and is put off to a deadline
at which it has no other entry. -/
def KeepsOnPick (tasks : Tasks) (q : DeadlineRunQueue) : Prop :=
  ∀ e ∈ q.tasks.first?, e.2.budgetRemaining = 0 ∧
    match (tasks e.2.task).sched.policy with
    | .deadline _ _ period => ∀ e' ∈ q.tasks.entries, e'.1 ≠ e.1 →
        e'.1 ≠ vtKey (wrap (e.2.absDeadline + period)) e.2.task
    | _ => False

instance (tasks : Tasks) (q : DeadlineRunQueue) : Decidable (q.KeepsOnPick tasks) :=
  have : ∀ e : VtKey × DlTask, Decidable (match (tasks e.2.task).sched.policy with
      | .deadline _ _ period => ∀ e' ∈ q.tasks.entries, e'.1 ≠ e.1 →
          e'.1 ≠ vtKey (wrap (e.2.absDeadline + period)) e.2.task
      | _ => False) := fun e => by
    cases (tasks e.2.task).sched.policy <;> infer_instance
  inferInstanceAs (Decidable (∀ e ∈ q.tasks.first?, _ ∧ _))

theorem length_pickNext : (pickNext tasks q).2.stored.length ≤ q.stored.length ∧
    ((pickNext tasks q).2.stored.length = q.stored.length ↔ q.KeepsOnPick tasks) := by
  rw [length_stored, length_stored, pickNext, KeepsOnPick]
  cases hfirst : q.tasks.first? with
  | none => exact ⟨le_rfl, iff_of_true rfl (by simp)⟩
  | some e => ?_
  rw [forall_mem_some]
  dsimp only
  have hremove := (perm_cons_remove (first?_mem hfirst)).length_eq
  rw [length_cons] at hremove
  split_ifs with hbudget
  · rw [and_iff_right hbudget]
    cases (tasks e.2.task).sched.policy with
    | deadline runtime deadline period =>
      have hinsert := OrdMap.length_insert (q.tasks.remove e.1)
        (vtKey (wrap (e.2.absDeadline + period)) e.2.task)
        ⟨e.2.task, wrap (e.2.absDeadline + period), runtime⟩
      have hnone : ((q.tasks.remove e.1).find?
          (vtKey (wrap (e.2.absDeadline + period)) e.2.task)).isNone = true ↔
          ∀ e' ∈ q.tasks.entries, e'.1 ≠ e.1 →
            e'.1 ≠ vtKey (wrap (e.2.absDeadline + period)) e.2.task := by
        rw [isNone_iff_eq_none, OrdMap.find?_eq_none]
        simp only [OrdMap.mem_remove, and_imp]
      dsimp only
      rw [← hnone, hinsert]
      split_ifs with hfind
      · exact ⟨by omega, fun _ => hfind, fun _ => by omega⟩
      · exact ⟨by omega, fun heq => absurd heq (by omega), fun h => absurd h hfind⟩
    | idle | batch | normal | compute | roundRobin | fifo =>
      exact ⟨by dsimp only; omega, fun heq => absurd heq (by dsimp only; omega), False.elim⟩
  · exact ⟨by dsimp only; omega, fun heq => absurd heq (by dsimp only; omega),
      fun h => absurd h.1 hbudget⟩

end DeadlineRunQueue

namespace RtRunQueue

theorem length_enqueue (q : RtRunQueue) (t : TaskId) :
    (enqueue tasks q t).stored.length = q.stored.length + 1 := by
  have hperm : (enqueue tasks q t).stored.Perm (q.stored ++ [t]) :=
    perm_iff_count.mpr fun t' => by rw [count_enqueue, count_append]
  rw [hperm.length_eq, length_append, length_singleton]

/-- A pick takes out the task whose turn it is, unless it is a round-robin task. -/
theorem length_pickNext (q : RtRunQueue) :
    (pickNext tasks q).2.stored.length ≤ q.stored.length ∧
      ((pickNext tasks q).2.stored.length = q.stored.length ↔
        ∀ t ∈ q.front, (tasks t).sched.policy.isRoundRobin = true) := by
  rw [← pickNext_fst tasks]
  rcases pickNext_cases tasks q with heq | ⟨t, rest, hlevel, ⟨hrr, heq⟩ | ⟨hrr, heq⟩⟩ <;> rw [heq]
  · exact ⟨le_rfl, fun _ t ht => (nomatch ht), fun _ => rfl⟩
  all_goals have hmem : t ∈ q.level q.topPrio := hlevel ▸ mem_cons_self
  · -- the task goes to the end of its level
    have hperm : (q.setLevel q.topPrio (rest ++ [t])).stored.Perm q.stored := by
      refine perm_iff_count.mpr fun u => ?_
      have hset := count_setLevel q (lt_of_mem_level hmem) (rest ++ [t]) u
      have hcount : (rest ++ [t]).count u = (q.level q.topPrio).count u := by
        rw [hlevel]
        exact (perm_append_singleton t rest).count_eq u
      omega
    rw [forall_mem_some]
    exact ⟨le_of_eq hperm.length_eq, fun _ => hrr, fun _ => hperm.length_eq⟩
  · have hperm : q.stored.Perm ((q.removed q.topPrio rest).stored ++ [t]) := by
      refine perm_iff_count.mpr fun u => ?_
      rw [count_append, count_removed hmem (Perm.of_eq hlevel) u]
    have hlength := hperm.length_eq
    rw [length_append, length_singleton] at hlength
    rw [forall_mem_some, hrr]
    exact ⟨by dsimp only; omega, fun heq => absurd heq (by dsimp only; omega), fun h => (nomatch h)⟩

end RtRunQueue

/-! ### One CPU -/

namespace PerCpuRunQueue

/-- How many tasks the CPU stores in its deadline, real-time and EEVDF queue. -/
def queued (rq : PerCpuRunQueue) : ℕ :=
  rq.deadlineRq.stored.length + rq.rtRq.stored.length + rq.cfsRq.stored.length

/-- The load is the number of stored tasks. -/
def LoadExact (rq : PerCpuRunQueue) : Prop := rq.load = rq.queued

/-- `enqueue` stores the task beside those that are there. -/
def adds (tasks : Tasks) (rq : PerCpuRunQueue) (t : TaskId) (nowNs : ℕ) : Bool :=
  match (tasks t).sched.policy.classId with
  | .deadline => rq.deadlineRq.adds tasks t nowNs
  | .compute | .normal | .batch => rq.cfsRq.adds tasks t
  | .realTime | .idle => true

/-- `dequeue` finds the task in the queue of its class; an idle task is not looked for. -/
def finds (tasks : Tasks) (rq : PerCpuRunQueue) (t : TaskId) : Bool :=
  match (tasks t).sched.policy.classId with
  | .deadline => (rq.deadlineRq.findKey t).isSome
  | .realTime => (rq.rtRq.findPrio t).isSome
  | .compute | .normal | .batch => rq.cfsRq.finds tasks t
  | .idle => true

/-- Except for idle tasks, `enqueue` raises the load by one, and the number of tasks if it adds
one. -/
theorem queued_enqueue (rq : PerCpuRunQueue) (t : TaskId) (nowNs : ℕ)
    (hclass : (tasks t).sched.policy.classId ≠ .idle) :
    (enqueue tasks rq t nowNs).2.load = wrap (rq.load + 1) ∧
      (enqueue tasks rq t nowNs).2.queued =
        rq.queued + if rq.adds tasks t nowNs then 1 else 0 := by
  rw [enqueue]
  rw [adds]
  cases h : (tasks t).sched.policy.classId with
  | deadline =>
    obtain ⟨hok, herror⟩ := DeadlineRunQueue.length_enqueue tasks rq.deadlineRq t nowNs
    cases henqueue : rq.deadlineRq.enqueue tasks t nowNs with
    | ok q =>
      have hlength := hok q henqueue
      refine ⟨rfl, ?_⟩
      dsimp only [queued]
      omega
    | error e =>
      refine ⟨rfl, ?_⟩
      rw [herror e henqueue]
      rfl
  | realTime =>
    have hlength := RtRunQueue.length_enqueue tasks rq.rtRq t
    refine ⟨rfl, ?_⟩
    dsimp only [queued]
    rw [if_pos rfl]
    omega
  | compute | normal | batch =>
    have hlength := EevdfRunQueue.length_enqueue tasks rq.cfsRq t
    refine ⟨rfl, ?_⟩
    dsimp only [queued]
    omega
  | idle => exact absurd h hclass

/-- Except for idle tasks, `dequeue` lowers the load by one, and the number of tasks if it finds
one. -/
theorem queued_dequeue (rq : PerCpuRunQueue) (t : TaskId)
    (hclass : (tasks t).sched.policy.classId ≠ .idle) :
    (dequeue tasks rq t).2.load = wrapSub rq.load 1 ∧
      (dequeue tasks rq t).2.queued + (if rq.finds tasks t then 1 else 0) = rq.queued := by
  rw [dequeue]
  rw [finds]
  cases h : (tasks t).sched.policy.classId with
  | deadline =>
    have hlength := DeadlineRunQueue.length_dequeue tasks rq.deadlineRq t
    refine ⟨rfl, ?_⟩
    dsimp only [queued]
    omega
  | realTime =>
    have hlength := (rq.rtRq.takenOut_dequeue t).length_add
    refine ⟨rfl, ?_⟩
    dsimp only [queued]
    omega
  | compute | normal | batch =>
    have hlength := EevdfRunQueue.length_dequeue tasks rq.cfsRq t
    refine ⟨rfl, ?_⟩
    dsimp only [queued]
    omega
  | idle => exact absurd h hclass

theorem idle_untouched (rq : PerCpuRunQueue) (t : TaskId) (nowNs : ℕ)
    (hclass : (tasks t).sched.policy.classId = .idle) :
    enqueue tasks rq t nowNs = (tasks, { rq with idleRq := ⟨some t⟩ }) ∧
      dequeue tasks rq t = (tasks, rq) := by
  rw [enqueue, dequeue, hclass]
  exact ⟨rfl, rfl⟩

/-- The load that `enqueue` adds is a task, and the counter has room for it. -/
def EnqueueTold (tasks : Tasks) (rq : PerCpuRunQueue) (t : TaskId) (nowNs : ℕ) : Prop :=
  (tasks t).sched.policy.classId = .idle ∨
    rq.adds tasks t nowNs = true ∧ rq.load + 1 < 2 ^ 64

instance (tasks : Tasks) (rq : PerCpuRunQueue) (t : TaskId) (nowNs : ℕ) :
    Decidable (rq.EnqueueTold tasks t nowNs) :=
  inferInstanceAs (Decidable (_ ∨ _))

/-- The load is still right and did not jump. -/
def Told (rq rq' : PerCpuRunQueue) : Prop := rq'.LoadExact ∧ rq'.load ≤ rq.load + 1

section

variable {rq : PerCpuRunQueue} (h : rq.LoadExact)

include h

theorem told_enqueue_iff (tasks : Tasks) (t : TaskId) (nowNs : ℕ) :
    Told rq (enqueue tasks rq t nowNs).2 ↔ rq.EnqueueTold tasks t nowNs := by
  rw [EnqueueTold]
  by_cases hclass : (tasks t).sched.policy.classId = .idle
  · rw [(idle_untouched tasks rq t nowNs hclass).1]
    exact ⟨fun _ => .inl hclass, fun _ => ⟨h, le_succ _⟩⟩
  obtain ⟨hload, hqueued⟩ := queued_enqueue tasks rq t nowNs hclass
  rw [Told, LoadExact, hload, hqueued, or_iff_right hclass, wrap, ← show rq.load = _ from h]
  split_ifs with hadds
  · refine ⟨fun htold => ⟨hadds, ?_⟩, fun htold => ?_⟩ <;> omega
  · refine ⟨fun htold => ?_, fun htold => absurd htold.1 hadds⟩
    omega

theorem told_dequeue_iff (tasks : Tasks) (t : TaskId) :
    Told rq (dequeue tasks rq t).2 ↔ rq.finds tasks t = true := by
  by_cases hclass : (tasks t).sched.policy.classId = .idle
  · rw [(idle_untouched tasks rq t 0 hclass).2]
    refine ⟨fun _ => ?_, fun _ => ⟨h, le_succ _⟩⟩
    rw [finds, hclass]
  obtain ⟨hload, hqueued⟩ := queued_dequeue tasks rq t hclass
  rw [← show rq.load = _ from h] at hqueued
  rw [Told, LoadExact, hload, wrapSub]
  cases hfinds : rq.finds tasks t with
  | true =>
    rw [hfinds, if_pos rfl] at hqueued
    rw [if_pos (by omega)]
    exact ⟨fun _ => rfl, fun _ => by omega⟩
  | false =>
    rw [hfinds, if_neg Bool.false_ne_true] at hqueued
    refine ⟨fun htold => ?_, fun htrue => (nomatch htrue)⟩
    split_ifs at htold <;> omega

theorem told_stealOne (tasks : Tasks) : Told rq (rq.stealOne tasks).2 := by
  have hlength := EevdfRunQueue.length_stealOne tasks rq.cfsRq
  have hload : rq.load = rq.queued := h
  rw [Told, LoadExact, stealOne]
  rcases hsteal : rq.cfsRq.stealOne tasks with ⟨stolen, q⟩
  rw [hsteal] at hlength
  cases stolen with
  | none =>
    dsimp only [load, queued, toList_none, length_nil] at hlength hload ⊢
    omega
  | some t =>
    dsimp only [load, queued, toList_some, length_singleton, wrapSub] at hlength hload ⊢
    split_ifs <;> omega

end

/-- Picking does not look at the load. -/
theorem load_pickLocal (rq : PerCpuRunQueue) : (rq.pickLocal tasks).2.load = rq.load := by
  rw [pickLocal]
  dsimp only
  split_ifs <;> rfl

/-- The deadline queue keeps its entries, the turn in the real-time queue is with a round-robin task
or with none, and then no other task is due. -/
def PickTold (tasks : Tasks) (rq : PerCpuRunQueue) : Prop :=
  rq.deadlineRq.KeepsOnPick tasks ∧
    (∀ t ∈ rq.rtRq.front, (tasks t).sched.policy.isRoundRobin = true) ∧
    (rq.rtRq.front = none → ¬ rq.cfsRq.HasDue)

instance (tasks : Tasks) (rq : PerCpuRunQueue) : Decidable (rq.PickTold tasks) :=
  inferInstanceAs (Decidable (_ ∧ _ ∧ (_ → _)))

/-- The CPU stores as many tasks as before exactly if each of its queues does that is asked. -/
theorem queued_pickLocal_eq_iff (rq : PerCpuRunQueue) :
    (rq.pickLocal tasks).2.queued = rq.queued ↔ rq.PickTold tasks := by
  obtain ⟨hdl, hdlEq⟩ := rq.deadlineRq.length_pickNext tasks
  obtain ⟨hrt, hrtEq⟩ := rq.rtRq.length_pickNext tasks
  obtain ⟨hcfs, hcfsEq⟩ := rq.cfsRq.length_pickNext tasks
  rw [PickTold, ← hdlEq, ← hrtEq, ← hcfsEq, ← RtRunQueue.pickNext_fst tasks, pickLocal]
  dsimp only
  split_ifs with hready hfront
  · -- a deadline task is picked, and its queue is one shorter
    obtain ⟨e, he, hbudget⟩ := (DeadlineRunQueue.pickNext_isSome_iff tasks _).mp hready
    have hne : (rq.deadlineRq.pickNext tasks).2.stored.length ≠ rq.deadlineRq.stored.length :=
      fun heq => hbudget (hdlEq.mp heq e he).1
    dsimp only [queued]
    exact ⟨fun heq => absurd heq (by omega), fun h => absurd h.1 hne⟩
  · have hsome : (rq.rtRq.pickNext tasks).1 ≠ none := isSome_iff_ne_none.mp hfront
    dsimp only [queued]
    refine ⟨fun heq => ⟨by omega, by omega, fun h => absurd h hsome⟩, fun h => ?_⟩
    rw [h.1, h.2.1]
  · have hnone : (rq.rtRq.pickNext tasks).1 = none := not_isSome_iff_eq_none.mp hfront
    dsimp only [queued]
    refine ⟨fun heq => ⟨by omega, by omega, fun _ => by omega⟩, fun h => ?_⟩
    rw [h.1, h.2.1, h.2.2 hnone]

theorem told_pickLocal_iff {rq : PerCpuRunQueue} (h : rq.LoadExact) (tasks : Tasks) :
    Told rq (rq.pickLocal tasks).2 ↔ rq.PickTold tasks := by
  rw [← queued_pickLocal_eq_iff, Told, LoadExact, load_pickLocal, show rq.load = _ from h]
  exact ⟨fun htold => htold.1.symm, fun heq => ⟨heq.symm, le_succ _⟩⟩

end PerCpuRunQueue

/-! ### All CPUs -/

structure LoadState where
  tasks : Tasks
  sched : MaiScheduler

/-- Operations on the run queue of a CPU, and on the scheduler. -/
inductive LoadOp where
  | rqEnqueue (cpu : ℕ) (t : TaskId) (nowNs : ℕ)
  | rqDequeue (cpu : ℕ) (t : TaskId)
  | yieldCurrent (cpu nowNs : ℕ)
  | setCurrent (cpu : ℕ) (t : TaskId)
  | stealOne (cpu : ℕ)
  | enqueue (t : TaskId) (nowNs : ℕ)
  | dequeue (t : TaskId)
  | pickNext (cpu : ℕ)

namespace LoadState

def new (tasks : Tasks) (numCpus : ℕ) (topology : CpuTopology) : LoadState :=
  ⟨tasks, .new numCpus topology⟩

/-- An operation on the run queue of a CPU, if there is one. -/
def onRq (s : LoadState) (cpu : ℕ) (f : PerCpuRunQueue → Tasks × PerCpuRunQueue) : LoadState :=
  match s.sched.rqs[cpu]? with
  | some rq => ⟨(f rq).1, s.sched.setRq cpu (f rq).2⟩
  | none => s

def step (s : LoadState) : LoadOp → LoadState
  | .rqEnqueue cpu t nowNs => s.onRq cpu fun rq => rq.enqueue s.tasks t nowNs
  | .rqDequeue cpu t => s.onRq cpu fun rq => rq.dequeue s.tasks t
  | .yieldCurrent cpu nowNs => s.onRq cpu fun rq => rq.yieldCurrent s.tasks nowNs
  | .setCurrent cpu t => s.onRq cpu fun rq => rq.setCurrent s.tasks t
  | .stealOne cpu => s.onRq cpu fun rq => (s.tasks, (rq.stealOne s.tasks).2)
  | .enqueue t nowNs =>
    match s.sched.enqueue s.tasks t nowNs with
    | some r => ⟨r.1, r.2⟩
    | none => s
  | .dequeue t => ⟨(s.sched.dequeue s.tasks t).1, (s.sched.dequeue s.tasks t).2⟩
  | .pickNext cpu =>
    match s.sched.pickNext s.tasks cpu with
    | some r => ⟨s.tasks, r.2⟩
    | none => s

end LoadState

/-- The load of every CPU is the number of tasks that it stores. -/
def LoadsExact (s : LoadState) : Prop :=
  ∀ (cpu : ℕ) (rq : PerCpuRunQueue), s.sched.rqs[cpu]? = some rq → rq.load = rq.queued

/-- No counter wrapped around below zero, which would have raised it from zero to its maximum. -/
def NoneBelowZero (s s' : LoadState) : Prop :=
  s'.sched.globalTaskCount ≤ s.sched.globalTaskCount + 1 ∧
    ∀ (cpu : ℕ) (rq rq' : PerCpuRunQueue), s.sched.rqs[cpu]? = some rq →
      s'.sched.rqs[cpu]? = some rq' → rq'.load ≤ rq.load + 1

/-- What the step does to a counter, it does to the queues. -/
def LoadTold (s : LoadState) : LoadOp → Prop
  | .rqEnqueue cpu t nowNs => ∀ rq ∈ s.sched.rqs[cpu]?, rq.EnqueueTold s.tasks t nowNs
  | .rqDequeue cpu t => ∀ rq ∈ s.sched.rqs[cpu]?, rq.finds s.tasks t = true
  | .yieldCurrent cpu nowNs => ∀ rq ∈ s.sched.rqs[cpu]?, ∀ t ∈ rq.current,
      (s.tasks t).runstate = .runnable → rq.EnqueueTold s.tasks t nowNs
  | .setCurrent _ _ => True
  | .stealOne _ => True
  | .enqueue t nowNs => ∀ rq ∈ s.sched.rqs[s.sched.selectCpuForTask s.tasks t]?,
      rq.EnqueueTold s.tasks t nowNs
  | .dequeue t => 1 ≤ s.sched.globalTaskCount ∧
      ∀ rq ∈ s.sched.rqs[(s.tasks t).sched.lastCpu]?, rq.finds s.tasks t = true
  | .pickNext cpu => ∀ rq ∈ s.sched.rqs[cpu]?, rq.PickTold s.tasks

instance (s : LoadState) : (op : LoadOp) → Decidable (LoadTold s op)
  | .rqEnqueue cpu t nowNs => inferInstanceAs
      (Decidable (∀ rq ∈ s.sched.rqs[cpu]?, rq.EnqueueTold s.tasks t nowNs))
  | .rqDequeue cpu t => inferInstanceAs
      (Decidable (∀ rq ∈ s.sched.rqs[cpu]?, rq.finds s.tasks t = true))
  | .yieldCurrent cpu nowNs => inferInstanceAs
      (Decidable (∀ rq ∈ s.sched.rqs[cpu]?, ∀ t ∈ rq.current,
        (s.tasks t).runstate = .runnable → rq.EnqueueTold s.tasks t nowNs))
  | .setCurrent _ _ | .stealOne _ => isTrue trivial
  | .enqueue t nowNs => inferInstanceAs
      (Decidable (∀ rq ∈ s.sched.rqs[s.sched.selectCpuForTask s.tasks t]?,
        rq.EnqueueTold s.tasks t nowNs))
  | .dequeue t => inferInstanceAs (Decidable (1 ≤ s.sched.globalTaskCount ∧
      ∀ rq ∈ s.sched.rqs[(s.tasks t).sched.lastCpu]?, rq.finds s.tasks t = true))
  | .pickNext cpu => inferInstanceAs
      (Decidable (∀ rq ∈ s.sched.rqs[cpu]?, rq.PickTold s.tasks))

/-- The counters stay right, CPU by CPU. -/
theorem told_iff {s s' : LoadState} (hlength : s'.sched.rqs.length = s.sched.rqs.length) :
    (LoadsExact s' ∧ NoneBelowZero s s') ↔ s'.sched.globalTaskCount ≤ s.sched.globalTaskCount + 1 ∧
      ∀ (cpu : ℕ) (rq rq' : PerCpuRunQueue), s.sched.rqs[cpu]? = some rq →
        s'.sched.rqs[cpu]? = some rq' → PerCpuRunQueue.Told rq rq' := by
  constructor
  · rintro ⟨hexact, hglobal, hload⟩
    exact ⟨hglobal, fun cpu rq rq' hrq hrq' => ⟨hexact cpu rq' hrq', hload cpu rq rq' hrq hrq'⟩⟩
  · rintro ⟨hglobal, htold⟩
    refine ⟨fun cpu rq' hrq' => ?_, hglobal, fun cpu rq rq' hrq hrq' => (htold cpu rq rq' hrq hrq').2⟩
    have hlt : cpu < s.sched.rqs.length := hlength ▸ (List.getElem?_eq_some_iff.mp hrq').1
    exact (htold cpu _ rq' (getElem?_eq_getElem hlt) hrq').1

section Step

variable {s : LoadState} (h : LoadsExact s) (cpu : ℕ)
include h

theorem told_refl {cpu : ℕ} {rq rq' : PerCpuRunQueue} (hrq : s.sched.rqs[cpu]? = some rq)
    (hrq' : s.sched.rqs[cpu]? = some rq') : PerCpuRunQueue.Told rq rq' := by
  obtain rfl := some.inj (hrq.symm.trans hrq')
  exact ⟨h cpu rq hrq, le_succ _⟩

/-- Nothing happens to the queues. -/
theorem told_same_iff (tasks' : Tasks) (g : ℕ) :
    (LoadsExact ⟨tasks', { s.sched with globalTaskCount := g }⟩ ∧
      NoneBelowZero s ⟨tasks', { s.sched with globalTaskCount := g }⟩) ↔
    g ≤ s.sched.globalTaskCount + 1 := by
  rw [told_iff]
  · exact and_iff_left fun _ _ _ hrq hrq' => told_refl h hrq hrq'
  · rfl

/-- There is no such CPU, and nothing happens. -/
theorem told_none_iff (P : PerCpuRunQueue → Prop) :
    (LoadsExact s ∧ NoneBelowZero s s) ↔ ∀ rq ∈ (none : Option PerCpuRunQueue), P rq :=
  ⟨fun _ _ hmem => (nomatch hmem),
    fun _ => (told_same_iff h s.tasks s.sched.globalTaskCount).mpr (le_succ _)⟩

/-- Replacing the run queue of one CPU keeps the counters right exactly if it does so there. -/
theorem told_setRq_iff {cpu : ℕ} {rq : PerCpuRunQueue} (hrq : s.sched.rqs[cpu]? = some rq)
    (tasks' : Tasks) (rq' : PerCpuRunQueue) (g : ℕ) :
    (LoadsExact ⟨tasks', { s.sched.setRq cpu rq' with globalTaskCount := g }⟩ ∧
      NoneBelowZero s ⟨tasks', { s.sched.setRq cpu rq' with globalTaskCount := g }⟩) ↔
    g ≤ s.sched.globalTaskCount + 1 ∧ PerCpuRunQueue.Told rq rq' := by
  have hself : (s.sched.rqs.set cpu rq')[cpu]? = some rq' :=
    List.getElem?_set_self (List.getElem?_eq_some_iff.mp hrq).1
  refine (told_iff length_set).trans (and_congr_right fun _ => ?_)
  refine ⟨fun htold => htold cpu rq rq' hrq hself, fun htold cpu' rq₀ rq₁ hrq₀ hrq₁ => ?_⟩
  replace hrq₁ : (s.sched.rqs.set cpu rq')[cpu']? = some rq₁ := hrq₁
  obtain rfl | hcpu := eq_or_ne cpu cpu'
  · obtain rfl := some.inj (hself.symm.trans hrq₁)
    obtain rfl := some.inj (hrq.symm.trans hrq₀)
    exact htold
  · rw [getElem?_set_ne hcpu] at hrq₁
    exact told_refl h hrq₀ hrq₁

/-- A step on the run queue of one CPU. -/
theorem told_onRq_iff (f : PerCpuRunQueue → Tasks × PerCpuRunQueue) {P : PerCpuRunQueue → Prop}
    (hf : ∀ rq, rq.LoadExact → (PerCpuRunQueue.Told rq (f rq).2 ↔ P rq)) :
    (LoadsExact (s.onRq cpu f) ∧ NoneBelowZero s (s.onRq cpu f)) ↔
      ∀ rq ∈ s.sched.rqs[cpu]?, P rq := by
  rw [LoadState.onRq]
  cases hrq : s.sched.rqs[cpu]? with
  | none => exact told_none_iff h _
  | some rq =>
    rw [forall_mem_some, ← hf rq (h cpu rq hrq)]
    exact (told_setRq_iff h hrq (f rq).1 (f rq).2 s.sched.globalTaskCount).trans
      (and_iff_right (le_succ _))

/-- Stealing from the other CPUs keeps the counters as right as they are. -/
theorem told_stealFrom_iff (rq' : PerCpuRunQueue) (order : List ℕ) :
    (LoadsExact ⟨s.tasks, ((s.sched.setRq cpu rq').stealFrom s.tasks cpu order).2⟩ ∧
      NoneBelowZero s ⟨s.tasks, ((s.sched.setRq cpu rq').stealFrom s.tasks cpu order).2⟩) ↔
      LoadsExact ⟨s.tasks, s.sched.setRq cpu rq'⟩ ∧
        NoneBelowZero s ⟨s.tasks, s.sched.setRq cpu rq'⟩ := by
  rcases MaiScheduler.stealFrom_cases s.tasks cpu (s.sched.setRq cpu rq') order with
    heq | ⟨victim, rqv, hvictim, hrqv, heq⟩ <;> rw [heq]
  have hset : (s.sched.setRq cpu rq').rqs.length = s.sched.rqs.length := length_set
  have hold : s.sched.rqs[victim]? = some rqv := by
    rw [← getElem?_set_ne (Ne.symm hvictim)]
    exact hrqv
  have hself : ((s.sched.setRq cpu rq').rqs.set victim (rqv.stealOne s.tasks).2)[victim]? =
      some (rqv.stealOne s.tasks).2 :=
    List.getElem?_set_self (List.getElem?_eq_some_iff.mp hrqv).1
  rw [told_iff (length_set.trans hset), told_iff hset]
  refine and_congr_right fun _ => ?_
  -- Only the queue of the victim differs, and it is right on both sides.
  refine forall_congr' fun cpu' => forall_congr' fun rq₀ => ?_
  obtain rfl | hcpu := eq_or_ne victim cpu'
  · refine ⟨fun _ rq₁ hrq₀ hrq₁ => ?_, fun _ rq₁ hrq₀ hrq₁ => ?_⟩
    · obtain rfl := some.inj (hrqv.symm.trans hrq₁)
      exact told_refl h hrq₀ hold
    · obtain rfl := some.inj (hself.symm.trans hrq₁)
      obtain rfl := some.inj (hold.symm.trans hrq₀)
      exact told_stealOne (h victim rqv hold) s.tasks
  · rw [show ((s.sched.setRq cpu rq').setRq victim (rqv.stealOne s.tasks).2).rqs[cpu']? =
      (s.sched.setRq cpu rq').rqs[cpu']? from getElem?_set_ne hcpu]

theorem told_pickNext_iff :
    (LoadsExact (s.step (.pickNext cpu)) ∧ NoneBelowZero s (s.step (.pickNext cpu))) ↔
      LoadTold s (.pickNext cpu) := by
  rw [LoadState.step, LoadTold, MaiScheduler.pickNext]
  cases hrq : s.sched.rqs[cpu]? with
  | none => exact told_none_iff h _
  | some rq => ?_
  have hlocal := (told_setRq_iff h hrq s.tasks (rq.pickLocal s.tasks).2
    s.sched.globalTaskCount).trans (and_iff_right (le_succ _))
  rw [forall_mem_some, ← told_pickLocal_iff (h cpu rq hrq), ← hlocal]
  dsimp only
  split_ifs with hsome hstolen
  · exact .rfl
  · exact told_stealFrom_iff h cpu _ _
  · exact .rfl

/-- **One step.** -/
theorem told_step_iff (op : LoadOp) :
    (LoadsExact (s.step op) ∧ NoneBelowZero s (s.step op)) ↔ LoadTold s op := by
  cases op with
  | rqEnqueue cpu t nowNs =>
    exact told_onRq_iff h cpu _ fun rq hrq => told_enqueue_iff hrq s.tasks t nowNs
  | rqDequeue cpu t =>
    exact told_onRq_iff h cpu _ fun rq hrq => told_dequeue_iff hrq s.tasks t
  | yieldCurrent cpu nowNs =>
    refine told_onRq_iff h cpu _ fun rq hrq => ?_
    rw [yieldCurrent]
    cases rq.current with
    | none => exact ⟨fun _ t ht => (nomatch ht), fun _ => ⟨hrq, le_succ _⟩⟩
    | some t => ?_
    rw [forall_mem_some]
    dsimp only
    split_ifs with hrunnable
    · rw [forall_prop_of_true hrunnable]
      exact @told_enqueue_iff { rq with current := none } hrq s.tasks t nowNs
    · exact ⟨fun _ hrun => absurd hrun hrunnable, fun _ => ⟨hrq, le_succ _⟩⟩
  | setCurrent cpu t =>
    refine (told_onRq_iff (P := fun _ => True) h cpu _ fun rq hrq => ?_).trans
      ⟨fun _ => trivial, fun _ _ _ => trivial⟩
    exact ⟨fun _ => trivial, fun _ => ⟨hrq, le_succ _⟩⟩
  | stealOne cpu =>
    refine (told_onRq_iff (P := fun _ => True) h cpu _ fun rq hrq => ?_).trans
      ⟨fun _ => trivial, fun _ _ _ => trivial⟩
    exact ⟨fun _ => trivial, fun _ => told_stealOne hrq s.tasks⟩
  | enqueue t nowNs =>
    rw [LoadState.step, LoadTold, MaiScheduler.enqueue]
    cases hrq : s.sched.rqs[s.sched.selectCpuForTask s.tasks t]? with
    | none => exact told_none_iff h _
    | some rq =>
      rw [forall_mem_some, ← told_enqueue_iff (h _ rq hrq)]
      exact (told_setRq_iff h hrq _ _ _).trans (and_iff_right (mod_le _ _))
  | dequeue t =>
    have hglobal : wrapSub s.sched.globalTaskCount 1 ≤ s.sched.globalTaskCount + 1 ↔
        1 ≤ s.sched.globalTaskCount := by
      rw [wrapSub]
      split_ifs <;> omega
    rw [LoadState.step, LoadTold, MaiScheduler.dequeue, ← hglobal]
    cases hrq : s.sched.rqs[(s.tasks t).sched.lastCpu]? with
    | none =>
      exact (told_same_iff h s.tasks _).trans (and_iff_left fun rq hmem => (nomatch hmem)).symm
    | some rq =>
      rw [forall_mem_some, ← told_dequeue_iff (h _ rq hrq)]
      exact told_setRq_iff h hrq _ _ _
  | pickNext cpu => exact told_pickNext_iff h cpu

end Step

/-- **The load counters.** As long as what the steps of a run do to the counters they do to the
queues, the load of every CPU is the number of its tasks; and a further step keeps it so without
letting a counter wrap around below zero exactly if it is such a step. -/
theorem loads_exact (tasks : Tasks) (numCpus : ℕ) (topology : CpuTopology) (ops : List LoadOp)
    (hg : Guarded LoadState.step LoadTold (.new tasks numCpus topology) ops) :
    LoadsExact (run LoadState.step (.new tasks numCpus topology) ops) ∧
      ∀ op, (LoadsExact ((run LoadState.step (.new tasks numCpus topology) ops).step op) ∧
          NoneBelowZero (run LoadState.step (.new tasks numCpus topology) ops)
            ((run LoadState.step (.new tasks numCpus topology) ops).step op)) ↔
        LoadTold (run LoadState.step (.new tasks numCpus topology) ops) op := by
  have hnew : LoadsExact (.new tasks numCpus topology) := by
    intro cpu rq hrq
    obtain ⟨cpu', -, rfl⟩ := mem_map.mp (mem_of_getElem? hrq)
    show 0 = (new 0).queued
    decide
  have hinv := hg.invariant (fun s op h hop => ((told_step_iff h op).mpr hop).1) hnew
  exact ⟨hinv, told_step_iff hinv⟩

/-- Two tasks on one CPU, one of which the other CPU steals; it then stores two more. -/
theorem loads_exact_four :
    LoadsExact (run LoadState.step (.new (fun _ => {}) 2 (.uniform 2))
      [.enqueue 1 0, .enqueue 2 0, .pickNext 1, .rqEnqueue 1 3 0, .rqDequeue 1 3, .setCurrent 1 4,
        .yieldCurrent 1 5, .dequeue 2]) :=
  And.left (loads_exact _ _ _ _
    ⟨by decide, by decide, by decide, by decide, by decide, by decide, by decide, by decide,
      trivial⟩)

/-- A picked task is still counted. -/
theorem loads_not_exact :
    ¬ LoadsExact (run LoadState.step (.new (fun _ => {}) 1 (.uniform 1))
      [.enqueue 1 0, .pickNext 0]) := by
  intro h
  have hload := h 0 _ rfl
  revert hload
  decide

end Maios.Sched
