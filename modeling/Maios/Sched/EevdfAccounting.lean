import Maios.Library.Run
import Maios.Sched.EevdfDue

/-!
# The counters of an EEVDF queue

`nrRunning` is documented as the number of tasks in the queue and `totalWeight` as their total
weight. Three paths take a task out of a map without telling the counters, or tell the counters
without taking a task out:

* `pick_next` removes the picked task and leaves both counters; `put_prev` then counts it again;
* `steal_one` counts a task stolen from the eligible map but not one stolen from the other map;
* `dequeue` of a task that is marked as queued but is not stored here lowers both counters.

`CountersTold` names the steps that stay clear of these, by what the queue holds before the step. It
is exact: from a state that such steps have led to, the counters are right after a further step
exactly when it is one of them.

## Main results

* `pickNext_spec`, `stealOne_spec`: which tasks a pick and a steal take, and that the maps still agree
  with the tasks.
* `queueInv_step`: the step lemma, for the counters and for the agreement of maps and tasks.
* `eevdf_accounted`: the counters along a run, and what breaks them.
-/

namespace Maios.Sched

open List OrdMap EevdfRunQueue TaskSchedInfo

/-- A queue with the tasks it schedules, and the task that was picked last. -/
structure QueueState where
  tasks : Tasks
  queue : EevdfRunQueue
  lastPicked : Option TaskId

inductive QueueOp where
  | enqueue (t : TaskId) (isWakeup : Bool)
  | dequeue (t : TaskId)
  | pickNext
  /-- `put_prev` of the task that was picked last. -/
  | putPrev
  | tick (current : TaskId) (elapsedNs : ℕ)
  | stealOne

namespace QueueState

/-- `new()`, with arbitrary tasks. -/
def new (tasks : Tasks) : QueueState := ⟨tasks, .new, none⟩

def step (s : QueueState) : QueueOp → QueueState
  | .enqueue t isWakeup =>
    let r := EevdfRunQueue.enqueue s.tasks s.queue t isWakeup
    { s with tasks := r.1, queue := r.2 }
  | .dequeue t =>
    let r := EevdfRunQueue.dequeue s.tasks s.queue t
    { s with tasks := r.1, queue := r.2 }
  | .pickNext =>
    let r := EevdfRunQueue.pickNext s.tasks s.queue
    { s with queue := r.2, lastPicked := r.1 <|> s.lastPicked }
  | .putPrev =>
    match s.lastPicked with
    | some t =>
      let r := EevdfRunQueue.putPrev s.tasks s.queue t
      { tasks := r.1, queue := r.2, lastPicked := none }
    | none => s
  | .tick current elapsedNs =>
    let r := EevdfRunQueue.tick s.tasks s.queue current elapsedNs
    { s with tasks := r.2.1, queue := r.2.2 }
  | .stealOne =>
    { s with queue := (EevdfRunQueue.stealOne s.tasks s.queue).2 }

end QueueState

/-- The counters are right. -/
structure Accounted (s : QueueState) : Prop where
  nrRunning : s.queue.nrRunning = s.queue.stored.length
  totalWeight : s.queue.totalWeight =
    (s.queue.stored.map fun t => (s.tasks t).sched.weight).sum

/-- Only tasks that are not queued are enqueued or put back. -/
def Permitted (s : QueueState) : QueueOp → Prop
  | .enqueue t _ => t ∉ s.queue.stored
  | .putPrev => ∀ t ∈ s.lastPicked, t ∉ s.queue.stored
  | _ => True

/-- The step takes a task out of a map exactly when it lowers the counters. A pick never lowers them,
so no task may be due at one; a steal lowers them only for a task of the eligible map. -/
def CountersTold (s : QueueState) : QueueOp → Prop
  | .dequeue t => (s.tasks t).sched.onRq = true → t ∈ s.queue.stored ∨ s.queue.nrRunning = 0
  | .pickNext => ¬ s.queue.HasDue
  | .stealOne => s.queue.nrRunning ≤ 1 ∨ s.queue.ineligible.entries = []
  | _ => True

instance (s : QueueState) : (op : QueueOp) → Decidable (Permitted s op)
  | .enqueue t _ => inferInstanceAs (Decidable (t ∉ s.queue.stored))
  | .putPrev => inferInstanceAs (Decidable (∀ t ∈ s.lastPicked, t ∉ s.queue.stored))
  | .dequeue _ | .pickNext | .tick _ _ | .stealOne => isTrue trivial

instance (s : QueueState) : (op : QueueOp) → Decidable (CountersTold s op)
  | .dequeue t => inferInstanceAs
      (Decidable ((s.tasks t).sched.onRq = true → t ∈ s.queue.stored ∨ s.queue.nrRunning = 0))
  | .pickNext => inferInstanceAs (Decidable (¬ s.queue.HasDue))
  | .stealOne => inferInstanceAs
      (Decidable (s.queue.nrRunning ≤ 1 ∨ s.queue.ineligible.entries = []))
  | .enqueue _ _ | .putPrev | .tick _ _ => isTrue trivial

/-- The maps agree with the tasks: every entry has the key that its task's data gives, and no task
is stored twice. -/
structure Consistent (tasks : Tasks) (q : EevdfRunQueue) : Prop where
  eligible_key : ∀ e ∈ q.eligible.entries, e.1 = vtKey (tasks e.2).sched.vdeadline e.2
  ineligible_key : ∀ e ∈ q.ineligible.entries, e.1 = vtKey (tasks e.2).sched.ve e.2
  once : ∀ t, q.occurrences t ≤ 1

namespace Consistent

variable {tasks : Tasks} {q : EevdfRunQueue}

variable (h : Consistent tasks q)

include h

theorem keyed : q.Keyed := by
  refine ⟨fun e he => ?_, fun e he => ?_⟩
  · rw [h.eligible_key e he]
    rfl
  · rw [h.ineligible_key e he]
    rfl

/-- The data of stored tasks is what matters. -/
theorem congr {tasks' : Tasks}
    (hsame : ∀ t ∈ q.stored, (tasks' t).sched.vdeadline = (tasks t).sched.vdeadline ∧
      (tasks' t).sched.ve = (tasks t).sched.ve) : Consistent tasks' q := by
  refine ⟨fun e he => ?_, fun e he => ?_, h.once⟩
  · rw [(hsame e.2 (mem_append_left _ (mem_map_of_mem he))).1]
    exact h.eligible_key e he
  · rw [(hsame e.2 (mem_append_right _ (mem_map_of_mem he))).2]
    exact h.ineligible_key e he

/-- Maps with fewer entries agree with the tasks too. -/
theorem of_subset {q' : EevdfRunQueue}
    (heligible : ∀ e ∈ q'.eligible.entries, e ∈ q.eligible.entries)
    (hineligible : ∀ e ∈ q'.ineligible.entries, e ∈ q.ineligible.entries)
    (honce : ∀ t, q'.occurrences t ≤ q.occurrences t) : Consistent tasks q' :=
  ⟨fun e he => h.eligible_key e (heligible e he), fun e he => h.ineligible_key e (hineligible e he),
    fun t => le_trans (honce t) (h.once t)⟩

theorem occurrences_eq_one {t : TaskId} (ht : t ∈ q.stored) : q.occurrences t = 1 :=
  le_antisymm (h.once t) (count_pos_iff.mpr ht)

end Consistent

variable {q : EevdfRunQueue} {tasks : Tasks} {s : QueueState}

section

variable {s' : QueueState} {t : TaskId} (h : Accounted s)
  (hweight : ∀ t ∈ s.queue.stored, (s'.tasks t).sched.weight = (s.tasks t).sched.weight)

include h hweight

/-- The counters after a change of the content of the queue. -/
theorem Accounted.of_perm (hperm : s'.queue.stored.Perm s.queue.stored)
    (hnr : s'.queue.nrRunning = s.queue.nrRunning)
    (htotal : s'.queue.totalWeight = s.queue.totalWeight) : Accounted s' := by
  refine ⟨?_, ?_⟩
  · rw [hnr, h.nrRunning, hperm.length_eq]
  · rw [htotal, h.totalWeight, (hperm.map _).sum_nat]
    exact congrArg sum (map_congr_left fun t ht => (hweight t ht).symm)

theorem Accounted.of_perm_cons (hperm : s'.queue.stored.Perm (t :: s.queue.stored))
    (hnr : s'.queue.nrRunning = s.queue.nrRunning + 1)
    (htotal : s'.queue.totalWeight = s.queue.totalWeight + (s'.tasks t).sched.weight) :
    Accounted s' := by
  refine ⟨?_, ?_⟩
  · rw [hnr, h.nrRunning, hperm.length_eq, length_cons]
  · rw [htotal, h.totalWeight, (hperm.map _).sum_nat, add_comm]
    refine congrArg _ (congrArg sum (map_congr_left fun t ht => (hweight t ht).symm))

theorem Accounted.of_cons_perm (hperm : s.queue.stored.Perm (t :: s'.queue.stored))
    (hnr : s'.queue.nrRunning = s.queue.nrRunning - 1)
    (htotal : s'.queue.totalWeight = s.queue.totalWeight - (s.tasks t).sched.weight) :
    Accounted s' := by
  refine ⟨?_, ?_⟩
  · rw [hnr, h.nrRunning, hperm.length_eq, length_cons, Nat.add_sub_cancel]
  · rw [htotal, h.totalWeight, (hperm.map _).sum_nat, map_cons, sum_cons, Nat.add_sub_cancel_left]
    refine congrArg sum (map_congr_left fun u hu => (hweight u ?_).symm)
    exact hperm.mem_iff.mpr (mem_cons_of_mem _ hu)

end

/-- What the steps keep: the maps agree with the tasks, and the counters are right. -/
structure QueueInv (s : QueueState) : Prop where
  consistent : Consistent s.tasks s.queue
  accounted : Accounted s

theorem queueInv_new (tasks : Tasks) : QueueInv (.new tasks) := by
  refine ⟨⟨?_, ?_, fun t => Nat.zero_le _⟩, rfl, rfl⟩ <;> intro e he <;> cases he

/-! ### Enqueue -/

section Enqueue

variable {tasks : Tasks} {q : EevdfRunQueue} {t : TaskId}

/-- The entries after `enqueue`: those from before, and one for the task. -/
theorem mem_enqueue (tasks : Tasks) (q : EevdfRunQueue) (t : TaskId) (isWakeup : Bool) :
    let r := enqueue tasks q t isWakeup
    (∀ e ∈ r.2.eligible.entries,
      e = (vtKey (r.1 t).sched.vdeadline t, t) ∨ e ∈ q.eligible.entries) ∧
    ∀ e ∈ r.2.ineligible.entries,
      e = (vtKey (r.1 t).sched.ve t, t) ∨ e ∈ q.ineligible.entries := by
  simp only [enqueue]
  split_ifs
  · exact ⟨fun e he => mem_insert he, fun e he => .inr he⟩
  · exact ⟨fun e he => .inr he, fun e he => mem_insert he⟩

theorem counters_enqueue (tasks : Tasks) (q : EevdfRunQueue) (t : TaskId) (isWakeup : Bool) :
    let r := enqueue tasks q t isWakeup
    r.2.nrRunning = q.nrRunning + 1 ∧
      r.2.totalWeight = q.totalWeight + (r.1 t).sched.weight := by
  simp only [enqueue]
  split_ifs <;> exact ⟨rfl, rfl⟩

theorem tasks_enqueue_of_ne (isWakeup : Bool) {u : TaskId} (hne : u ≠ t) :
    (enqueue tasks q t isWakeup).1 u = tasks u :=
  Tasks.modifySched_of_ne _ _ hne

theorem stored_enqueue_perm (h : Consistent tasks q) (isWakeup : Bool) (ht : t ∉ q.stored) :
    (enqueue tasks q t isWakeup).2.stored.Perm (t :: q.stored) := by
  rw [perm_iff_count]
  intro u
  obtain rfl | hu := eq_or_ne u t
  · have hzero : q.occurrences u = 0 := count_eq_zero.mpr ht
    rw [count_cons_self]
    have hone := occurrences_enqueue_self h.keyed tasks u isWakeup hzero
    rw [occurrences] at hone hzero
    omega
  · rw [count_cons_of_ne (Ne.symm hu)]
    exact occurrences_enqueue_of_ne h.keyed tasks t isWakeup hu

/-- The maps agree with the tasks if what they still hold for the task has its new key. -/
theorem consistent_enqueue_of_key (h : Consistent tasks q) {isWakeup : Bool}
    (hold : let s := ((enqueue tasks q t isWakeup).1 t).sched
      (∀ e ∈ q.eligible.entries, e.2 = t → e.1 = vtKey s.vdeadline t) ∧
        ∀ e ∈ q.ineligible.entries, e.2 = t → e.1 = vtKey s.ve t)
    (honce : (enqueue tasks q t isWakeup).2.occurrences t ≤ 1) :
    Consistent (enqueue tasks q t isWakeup).1 (enqueue tasks q t isWakeup).2 := by
  obtain ⟨heligible, hineligible⟩ := mem_enqueue tasks q t isWakeup
  refine ⟨fun e he => ?_, fun e he => ?_, fun u => ?_⟩
  · rcases heligible e he with rfl | he
    · rfl
    by_cases het : e.2 = t
    · rw [het]
      exact hold.1 e he het
    · rw [tasks_enqueue_of_ne isWakeup het]
      exact h.eligible_key e he
  · rcases hineligible e he with rfl | he
    · rfl
    by_cases het : e.2 = t
    · rw [het]
      exact hold.2 e he het
    · rw [tasks_enqueue_of_ne isWakeup het]
      exact h.ineligible_key e he
  · by_cases hu : u = t
    · exact hu ▸ honce
    · rw [occurrences_enqueue_of_ne h.keyed tasks t isWakeup hu]
      exact h.once u

theorem consistent_enqueue (h : Consistent tasks q) (isWakeup : Bool) (ht : t ∉ q.stored) :
    Consistent (enqueue tasks q t isWakeup).1 (enqueue tasks q t isWakeup).2 := by
  refine consistent_enqueue_of_key h ⟨fun e he heq => ?_, fun e he heq => ?_⟩ (le_of_eq ?_)
  · exact absurd (heq ▸ mem_append_left _ (mem_map_of_mem he)) ht
  · exact absurd (heq ▸ mem_append_right _ (mem_map_of_mem he)) ht
  · exact occurrences_enqueue_self h.keyed tasks t isWakeup (count_eq_zero.mpr ht)

end Enqueue

theorem queueInv_enqueue (h : QueueInv s) {t : TaskId} (isWakeup : Bool) (ht : t ∉ s.queue.stored)
    (lastPicked : Option TaskId) : let r := enqueue s.tasks s.queue t isWakeup
    QueueInv ⟨r.1, r.2, lastPicked⟩ := by
  obtain ⟨hnr, htotal⟩ := counters_enqueue s.tasks s.queue t isWakeup
  refine ⟨consistent_enqueue h.consistent isWakeup ht, ?_⟩
  refine h.accounted.of_perm_cons (fun u hu => ?_)
    (stored_enqueue_perm h.consistent isWakeup ht) hnr htotal
  have hne : u ≠ t := fun heq => ht (heq ▸ hu)
  show ((enqueue s.tasks s.queue t isWakeup).1 u).sched.weight = _
  rw [tasks_enqueue_of_ne isWakeup hne]

/-! ### Dequeue -/

section Dequeue

variable {tasks : Tasks} {q : EevdfRunQueue} {t : TaskId}

theorem tasks_dequeue (u : TaskId) :
    ((dequeue tasks q t).1 u).sched.vdeadline = (tasks u).sched.vdeadline ∧
      ((dequeue tasks q t).1 u).sched.ve = (tasks u).sched.ve ∧
      ((dequeue tasks q t).1 u).sched.weight = (tasks u).sched.weight := by
  rw [dequeue_tasks]
  exact ⟨Tasks.modifySched_field vdeadline _ _ _ fun _ => rfl,
    Tasks.modifySched_field ve _ _ _ fun _ => rfl,
    Tasks.modifySched_field weight _ _ _ fun _ => rfl⟩

theorem entries_dequeue_subset (tasks : Tasks) (q : EevdfRunQueue) (t : TaskId) :
    (∀ e ∈ (dequeue tasks q t).2.eligible.entries, e ∈ q.eligible.entries) ∧
      ∀ e ∈ (dequeue tasks q t).2.ineligible.entries, e ∈ q.ineligible.entries := by
  rw [dequeue]
  split_ifs
  · cases q.eligible.find? (vtKey (tasks t).sched.vdeadline t) with
    | none => exact ⟨fun e he => he, fun e he => (mem_remove.mp he).1⟩
    | some u => exact ⟨fun e he => (mem_remove.mp he).1, fun e he => he⟩
  · exact ⟨fun e he => he, fun e he => he⟩

theorem counters_dequeue (hon : (tasks t).sched.onRq = true) :
    (dequeue tasks q t).2.nrRunning = q.nrRunning - 1 ∧
      (dequeue tasks q t).2.totalWeight =
        q.totalWeight - (tasks t).sched.weight := by
  rw [dequeue]
  rw [if_pos hon]
  exact ⟨rfl, rfl⟩

/-- A stored task is found under its keys. -/
theorem stored_dequeue_perm (h : Consistent tasks q) (hon : (tasks t).sched.onRq = true)
    (ht : t ∈ q.stored) : q.stored.Perm (t :: (dequeue tasks q t).2.stored) := by
  have hone := h.occurrences_eq_one ht
  rw [dequeue]
  rw [if_pos hon]
  cases hfind : q.eligible.find? (vtKey (tasks t).sched.vdeadline t) with
  | some u =>
    have hmem := find?_eq_some.mp hfind
    obtain rfl : t = u := h.keyed.1 _ hmem
    exact ((perm_cons_remove hmem).map Prod.snd).append_right _
  | none => ?_
  -- the task is not in the eligible map, so it is in the other one, under its own key
  have hmem : (vtKey (tasks t).sched.ve t, t) ∈ q.ineligible.entries := by
    rcases mem_append.mp ht with ht | ht <;> obtain ⟨e, he, rfl⟩ := mem_map.mp ht
    · exact absurd (h.eligible_key e he) (find?_eq_none.mp hfind e he)
    · rw [← h.ineligible_key e he]
      exact he
  exact (((perm_cons_remove hmem).map Prod.snd).append_left _).trans
    perm_middle

theorem stored_dequeue_of_not_mem (h : Consistent tasks q) (ht : t ∉ q.stored) :
    (dequeue tasks q t).2.stored = q.stored := by
  have heligible : ∀ time, q.eligible.find? (vtKey time t) = none := fun time =>
    find?_eq_none.mpr (h.keyed.1.ne_of_not_mem fun hmem => ht (mem_append_left _ hmem))
  have hineligible : ∀ time, (q.ineligible.remove (vtKey time t)).entries = q.ineligible.entries :=
    fun time => remove_eq_self
      (h.keyed.2.ne_of_not_mem fun hmem => ht (mem_append_right _ hmem))
  rw [dequeue]
  split_ifs
  · rw [heligible]
    simp only [stored, values, hineligible]
  · rfl

theorem consistent_dequeue (h : Consistent tasks q) :
    Consistent (dequeue tasks q t).1 (dequeue tasks q t).2 := by
  obtain ⟨heligible, hineligible⟩ := entries_dequeue_subset tasks q t
  have hsub : Consistent tasks (dequeue tasks q t).2 := by
    refine h.of_subset heligible hineligible fun u => ?_
    obtain rfl | hu := eq_or_ne u t
    · by_cases hon : (tasks u).sched.onRq = true
      · by_cases hu : u ∈ q.stored
        · rw [occurrences, occurrences, (stored_dequeue_perm h hon hu).count_eq u, count_cons_self]
          exact Nat.le_succ _
        · rw [occurrences, stored_dequeue_of_not_mem h hu]
          exact le_rfl
      · rw [dequeue]
        rw [if_neg hon]
    · exact le_of_eq (occurrences_dequeue_of_ne h.keyed tasks hu)
  exact hsub.congr fun u _ => ⟨(tasks_dequeue u).1, (tasks_dequeue u).2.1⟩

end Dequeue

theorem queueInv_dequeue (h : QueueInv s) (t : TaskId) (hg : CountersTold s (.dequeue t)) :
    QueueInv (s.step (.dequeue t)) := by
  refine ⟨consistent_dequeue h.consistent, ?_⟩
  have hweight : ∀ u ∈ s.queue.stored,
      ((s.step (.dequeue t)).tasks u).sched.weight = (s.tasks u).sched.weight := fun u _ =>
    (tasks_dequeue u).2.2
  by_cases hon : (s.tasks t).sched.onRq = true
  · obtain ⟨hnr, htotal⟩ := counters_dequeue (q := s.queue) hon
    by_cases ht : t ∈ s.queue.stored
    · exact h.accounted.of_cons_perm hweight (stored_dequeue_perm h.consistent hon ht) hnr htotal
    -- the queue is empty, and both counters stay at zero
    have hzero : s.queue.nrRunning = 0 := (hg hon).resolve_left ht
    have hempty : s.queue.stored = [] := by
      rw [h.accounted.nrRunning] at hzero
      exact eq_nil_of_length_eq_zero hzero
    have hnone : s.queue.totalWeight = 0 := by
      rw [h.accounted.totalWeight, hempty]
      rfl
    refine h.accounted.of_perm hweight ?_ ?_ ?_
    · exact Perm.of_eq (stored_dequeue_of_not_mem h.consistent ht)
    · show (dequeue s.tasks s.queue t).2.nrRunning = _
      rw [hnr, hzero]
    · show (dequeue s.tasks s.queue t).2.totalWeight = _
      rw [htotal, hnone, Nat.zero_sub]
  · have hsame : (s.step (.dequeue t)).queue = s.queue := by
      simp only [QueueState.step, dequeue, if_neg hon]
    refine h.accounted.of_perm hweight ?_ ?_ ?_ <;> rw [hsame]

/-! ### Picking and stealing -/

theorem consistent_promote (h : Consistent tasks q) (key : VtKey) :
    Consistent tasks (q.promote tasks key) := by
  have honce : ∀ t, (q.promote tasks key).occurrences t ≤ 1 := fun t => by
    rw [occurrences_promote h.keyed tasks key (h.once t)]
    exact h.once t
  rcases promote_cases tasks q key with heq | ⟨t, hmem, heq⟩ <;> rw [heq] at honce ⊢
  · exact h
  · refine ⟨fun e he => ?_, fun e he => h.ineligible_key e (mem_remove.mp he).1, honce⟩
    rcases mem_insert he with rfl | he
    · rfl
    · exact h.eligible_key e he

theorem promote_counters (tasks : Tasks) (q : EevdfRunQueue) (key : VtKey) :
    (q.promote tasks key).nrRunning = q.nrRunning ∧
      (q.promote tasks key).totalWeight = q.totalWeight := by
  rcases promote_cases tasks q key with heq | ⟨t, -, heq⟩ <;> rw [heq] <;>
    exact ⟨rfl, rfl⟩

/-- Eligibility moves tasks between the maps: the counters stay. -/
theorem advanceEligibility_spec (h : Consistent tasks q) :
    Consistent tasks (q.advanceEligibility tasks) ∧
      (q.advanceEligibility tasks).nrRunning = q.nrRunning ∧
      (q.advanceEligibility tasks).totalWeight = q.totalWeight := by
  refine advanceEligibility_induct (P := fun q' => Consistent tasks q' ∧
    q'.nrRunning = q.nrRunning ∧ q'.totalWeight = q.totalWeight) tasks q (fun q' key hq => ?_)
    ⟨h, rfl, rfl⟩
  obtain ⟨hnr, htotal⟩ := promote_counters tasks q' key
  exact ⟨consistent_promote hq.1 key, hnr.trans hq.2.1, htotal.trans hq.2.2⟩

theorem stored_advanceEligibility (h : Consistent tasks q) :
    (q.advanceEligibility tasks).stored.Perm q.stored :=
  perm_iff_count.mpr fun t => occurrences_advanceEligibility h.keyed tasks (h.once t)

theorem pickNext_spec (h : Consistent tasks q) :
    Consistent tasks (q.pickNext tasks).2 ∧ (q.pickNext tasks).2.nrRunning = q.nrRunning ∧
      (q.pickNext tasks).2.totalWeight = q.totalWeight ∧
      q.stored.Perm ((q.pickNext tasks).1.toList ++ (q.pickNext tasks).2.stored) := by
  have hperm := (stored_advanceEligibility h).symm.trans (pickNext_perm tasks q)
  have honce : ∀ t, (q.pickNext tasks).2.occurrences t ≤ 1 := fun t => by
    have hsplit := occurrences_pickNext h.keyed tasks (h.once t)
    have hone := h.once t
    omega
  obtain ⟨hadv, hnr, htotal⟩ := advanceEligibility_spec h
  rcases pickNext_cases tasks q with ⟨heq, -⟩ | ⟨key, t, hmem, heq⟩ <;>
    rw [heq] at honce hperm ⊢
  · exact ⟨hadv, hnr, htotal, hperm⟩
  · exact ⟨⟨fun e he => hadv.eligible_key e (mem_remove.mp he).1, hadv.ineligible_key,
      honce⟩, hnr, htotal, hperm⟩

theorem stealOne_spec (h : Consistent tasks q) :
    Consistent tasks (q.stealOne tasks).2 ∧
      q.stored.Perm ((q.stealOne tasks).1.toList ++ (q.stealOne tasks).2.stored) := by
  have honce : ∀ t, (q.stealOne tasks).2.occurrences t ≤ q.occurrences t := fun t =>
    Nat.le.intro (occurrences_stealOne q tasks t)
  refine ⟨?_, stealOne_perm q tasks⟩
  rcases stealOne_cases tasks q with
    ⟨heq, -⟩ | ⟨key, t, -, hmem, heq⟩ | ⟨key, t, -, hmem, heq⟩ <;> rw [heq] at honce ⊢
  · exact h
  · exact h.of_subset (fun e he => he) (fun e he => (mem_remove.mp he).1) honce
  · exact h.of_subset (fun e he => (mem_remove.mp he).1) (fun e he => he) honce

theorem queueInv_pickNext (h : QueueInv s) (hg : CountersTold s .pickNext) :
    QueueInv (s.step .pickNext) := by
  obtain ⟨hcons, hnr, htotal, hperm⟩ := pickNext_spec h.consistent
  rw [(pickNext_eq_none_iff s.tasks s.queue).mpr hg] at hperm
  exact ⟨hcons, h.accounted.of_perm (fun _ _ => rfl) hperm.symm hnr htotal⟩

theorem queueInv_stealOne (h : QueueInv s) (hg : CountersTold s .stealOne) :
    QueueInv (s.step .stealOne) := by
  obtain ⟨hcons, hperm⟩ := stealOne_spec h.consistent
  refine ⟨hcons, ?_⟩
  rcases stealOne_cases s.tasks s.queue with
    ⟨heq, -⟩ | ⟨key, t, hnr, hmem, -⟩ | ⟨key, t, -, hmem, heq⟩
  · rw [heq] at hperm
    refine h.accounted.of_perm (fun _ _ => rfl) ?_ ?_ ?_ <;> simp only [QueueState.step, heq]
    exact hperm.symm
  · -- a task of the ineligible map would be taken without being counted
    rcases hg with hle | hempty
    · omega
    · rw [hempty] at hmem
      cases hmem
  · rw [heq] at hperm
    refine h.accounted.of_cons_perm (t := t) (fun _ _ => rfl) ?_ ?_ ?_ <;>
      simp only [QueueState.step, heq]
    exact hperm

/-! ### Ticks -/

/-- A tick leaves the data by which tasks are stored. -/
theorem tick_field {β : Type} (field : TaskSchedInfo → β) {elapsedNs : ℕ}
    (hcharged : ∀ i, field (charged elapsedNs i) = field i) (s : QueueState)
    (current t : TaskId) :
    field ((s.step (.tick current elapsedNs)).tasks t).sched = field (s.tasks t).sched :=
  Tasks.modifySched_field field s.tasks current t hcharged

/-- A tick moves the clock, and nothing else of the queue. -/
theorem queue_tick (s : QueueState) (current : TaskId) (elapsedNs : ℕ) :
    (s.step (.tick current elapsedNs)).queue.eligible = s.queue.eligible ∧
      (s.step (.tick current elapsedNs)).queue.ineligible = s.queue.ineligible ∧
      (s.step (.tick current elapsedNs)).queue.nrRunning = s.queue.nrRunning ∧
      (s.step (.tick current elapsedNs)).queue.totalWeight = s.queue.totalWeight := by
  simp only [QueueState.step, tick, updateMinVruntime]
  split_ifs <;> exact ⟨rfl, rfl, rfl, rfl⟩

theorem stored_tick (s : QueueState) (current : TaskId) (elapsedNs : ℕ) :
    (s.step (.tick current elapsedNs)).queue.stored = s.queue.stored := by
  obtain ⟨heligible, hineligible, -, -⟩ := queue_tick s current elapsedNs
  rw [stored, heligible, hineligible, stored]

theorem consistent_tick {s : QueueState} (h : Consistent s.tasks s.queue) (current : TaskId)
    (elapsedNs : ℕ) : Consistent (s.step (.tick current elapsedNs)).tasks
      (s.step (.tick current elapsedNs)).queue := by
  obtain ⟨heligible, hineligible, -, -⟩ := queue_tick s current elapsedNs
  have hsame : Consistent s.tasks (s.step (.tick current elapsedNs)).queue := by
    refine h.of_subset ?_ ?_ fun t => ?_
    · rw [heligible]
      exact fun e he => he
    · rw [hineligible]
      exact fun e he => he
    · rw [occurrences, stored_tick]
      exact Nat.le_refl _
  exact hsame.congr fun t _ => ⟨tick_field vdeadline (fun _ => rfl) s current t,
    tick_field ve (fun _ => rfl) s current t⟩

theorem queueInv_tick (h : QueueInv s) (current : TaskId) (elapsedNs : ℕ) :
    QueueInv (s.step (.tick current elapsedNs)) := by
  obtain ⟨-, -, hnr, htotal⟩ := queue_tick s current elapsedNs
  exact ⟨consistent_tick h.consistent current elapsedNs,
    h.accounted.of_perm (fun t _ => tick_field weight (fun _ => rfl) s current t)
      (Perm.of_eq (stored_tick s current elapsedNs)) hnr htotal⟩

/-! ### Runs -/

theorem queueInv_step (s : QueueState) (op : QueueOp) (h : QueueInv s)
    (hg : Permitted s op ∧ CountersTold s op) : QueueInv (s.step op) := by
  cases op with
  | enqueue t isWakeup => exact queueInv_enqueue h isWakeup hg.1 s.lastPicked
  | dequeue t => exact queueInv_dequeue h t hg.2
  | pickNext => exact queueInv_pickNext h hg.2
  | putPrev =>
    rw [QueueState.step]
    cases hlast : s.lastPicked with
    | none => exact h
    | some t => exact queueInv_enqueue h false (hg.1 t hlast) none
  | tick current elapsedNs => exact queueInv_tick h current elapsedNs
  | stealOne => exact queueInv_stealOne h hg.2

/-- A step that takes a task out without counting, or counts without taking one out, is seen in
`nrRunning`. -/
theorem countersTold_of_accounted (h : QueueInv s) {op : QueueOp} (hacc : Accounted (s.step op)) :
    CountersTold s op := by
  cases op with
  | dequeue t =>
    intro hon
    by_contra hnot
    obtain ⟨hnotmem, hpos⟩ := not_or.mp hnot
    have hafter := hacc.nrRunning
    have hstored : (s.step (.dequeue t)).queue.stored = s.queue.stored :=
      stored_dequeue_of_not_mem h.consistent hnotmem
    have hnr : (s.step (.dequeue t)).queue.nrRunning = s.queue.nrRunning - 1 :=
      (counters_dequeue hon).1
    rw [hstored, ← h.accounted.nrRunning] at hafter
    omega
  | pickNext =>
    obtain ⟨-, hnr, -, hperm⟩ := pickNext_spec h.consistent
    have hlength := hperm.length_eq
    have hbefore := h.accounted.nrRunning
    have hafter : (s.queue.pickNext s.tasks).2.nrRunning =
      (s.queue.pickNext s.tasks).2.stored.length := hacc.nrRunning
    cases hpick : (s.queue.pickNext s.tasks).1 with
    | none => exact (pickNext_eq_none_iff s.tasks s.queue).mp hpick
    | some t =>
      rw [hpick, Option.toList_some, length_append, length_singleton] at hlength
      omega
  | stealOne =>
    obtain ⟨-, hperm⟩ := stealOne_spec h.consistent
    have hlength := hperm.length_eq
    have hbefore := h.accounted.nrRunning
    have hafter : (s.queue.stealOne s.tasks).2.nrRunning =
      (s.queue.stealOne s.tasks).2.stored.length := hacc.nrRunning
    rcases stealOne_cases s.tasks s.queue with
      ⟨-, hnone⟩ | ⟨key, t, hnr, hmem, heq⟩ | ⟨key, t, hempty, -, -⟩
    · exact hnone
    · rw [heq] at hlength hafter
      simp only [Option.toList_some, length_append, length_singleton] at hlength hafter
      omega
    · exact .inr hempty
  | enqueue t isWakeup | putPrev | tick current elapsedNs => trivial

/-- **Queue accounting.** As long as the steps of a run tell the counters what they do to the
maps, `nrRunning` and `totalWeight` are the number and the total weight of the stored tasks; and
at the first step that does not, they are not. -/
theorem eevdf_accounted (tasks : Tasks) (ops : List QueueOp)
    (hg : Guarded QueueState.step (fun s op => Permitted s op ∧ CountersTold s op) (.new tasks)
      ops) :
    Accounted (run QueueState.step (.new tasks) ops) ∧
      ∀ op, Permitted (run QueueState.step (.new tasks) ops) op →
        (Accounted ((run QueueState.step (.new tasks) ops).step op) ↔
          CountersTold (run QueueState.step (.new tasks) ops) op) := by
  have hinv := hg.invariant queueInv_step (queueInv_new tasks)
  refine ⟨hinv.accounted, fun op hperm => ⟨countersTold_of_accounted hinv, fun htold => ?_⟩⟩
  exact (queueInv_step _ op hinv ⟨hperm, htold⟩).accounted

/-- Enqueueing and dequeueing alone keep the counters right. -/
theorem eevdf_accounted_two :
    Accounted (run QueueState.step (.new fun _ => {})
      [.enqueue 1 false, .enqueue 2 true, .tick 3 1000, .dequeue 1, .dequeue 1]) :=
  And.left (eevdf_accounted _ _
    ⟨by decide, by decide, by decide, by decide, by decide, trivial⟩)

/-- After one task was enqueued and picked, the queue is empty and counts one task. -/
theorem eevdf_not_accounted :
    ¬ Accounted (run QueueState.step (.new fun _ => {}) [.enqueue 1 false, .pickNext]) := by
  intro h
  have hnr := h.nrRunning
  revert hnr
  decide

end Maios.Sched
