import Maios.Library.Occurrences
import Maios.Sched.Task

/-!
# The real-time and the deadline queue

`RtRunQueue` has one FIFO queue per priority and a bitmap of the non-empty ones. A picked FIFO
task leaves its queue; a picked round-robin task goes to the back of it, and stays stored.

`DeadlineRunQueue` orders its tasks by absolute deadline. It admits a task when the bandwidths of
the admitted ones still fit, in thousandths and in `u64` arithmetic. A task that is picked with an
exhausted budget is put back for its next period, and nothing is picked.
-/

namespace Maios.Sched

open List OrdMap

/-! ## Real-time tasks -/

structure RtRunQueue where
  /-- The queue of each priority. -/
  queues : List (List TaskId)
  /-- The priorities with a non-empty queue. -/
  bitmap : BitVec 128
  nrRunning : ℕ
  queues_length : queues.length = rtPrioLevels

namespace RtRunQueue

def new : RtRunQueue := ⟨List.replicate rtPrioLevels [], 0, 0, List.length_replicate⟩

/-- The bit of a priority. -/
def bit (prio : ℕ) : BitVec 128 := 1#128 <<< prio

/-- The queue of a priority. -/
def level (q : RtRunQueue) (prio : ℕ) : List TaskId := q.queues.getD prio []

/-- Replace the queue of a priority. -/
def setLevel (q : RtRunQueue) (prio : ℕ) (l : List TaskId) : RtRunQueue :=
  { q with
    queues := q.queues.set prio l
    queues_length := by rw [List.length_set, q.queues_length] }

/-- `enqueue` -/
def enqueue (tasks : Tasks) (q : RtRunQueue) (t : TaskId) : RtRunQueue :=
  let prio := min (tasks t).sched.rtPriority 99
  { q.setLevel prio (q.level prio ++ [t]) with
    bitmap := q.bitmap ||| bit prio
    nrRunning := q.nrRunning + 1 }

/-- The queue without its task of priority `prio` whose removal leaves `rest`. -/
def removed (q : RtRunQueue) (prio : ℕ) (rest : List TaskId) : RtRunQueue :=
  { q.setLevel prio rest with
    bitmap := if rest.isEmpty then q.bitmap &&& ~~~(bit prio) else q.bitmap
    nrRunning := q.nrRunning - 1 }

/-- The priority at which `dequeue` finds a task: it goes down from the highest and skips
priorities whose bit is not set. -/
def findPrio (q : RtRunQueue) (t : TaskId) : Option ℕ :=
  (List.range rtPrioLevels).reverse.find? fun prio =>
    decide (q.bitmap &&& bit prio ≠ 0 ∧ t ∈ q.level prio)

/-- `dequeue` -/
def dequeue (q : RtRunQueue) (t : TaskId) : RtRunQueue :=
  match q.findPrio t with
  | some prio => q.removed prio ((q.level prio).erase t)
  | none => q

/-- The highest bit that is set. -/
def topPrio (q : RtRunQueue) : ℕ := 127 - q.bitmap.clz.toNat

/-- `pick_next` -/
def pickNext (tasks : Tasks) (q : RtRunQueue) : Option TaskId × RtRunQueue :=
  if q.bitmap = 0 then (none, q)
  else
    match q.level q.topPrio with
    | [] => (none, q)
    | t :: rest =>
      if (tasks t).sched.policy.isRoundRobin then (some t, q.setLevel q.topPrio (rest ++ [t]))
      else (some t, q.removed q.topPrio rest)

/-- The first task of the highest priority whose bit is set. -/
def front (q : RtRunQueue) : Option TaskId :=
  if q.bitmap = 0 then none else (q.level q.topPrio).head?

/-- The scheduling data of a running real-time task after `tick`. -/
def charged (elapsedNs : ℕ) (s : TaskSchedInfo) : TaskSchedInfo :=
  match s.policy with
  | .roundRobin _ =>
    if elapsedNs < s.rrTimesliceRemaining then
      { s with rrTimesliceRemaining := s.rrTimesliceRemaining - elapsedNs }
    else { s with rrTimesliceRemaining := rtRrTimesliceNs }
  | _ => s

/-- `tick`, with the verdict whether the task is to yield. -/
def tick (tasks : Tasks) (t : TaskId) (elapsedNs : ℕ) : Bool × Tasks :=
  let s := (tasks t).sched
  (s.policy.isRoundRobin && decide (s.rrTimesliceRemaining ≤ elapsedNs),
    tasks.modifySched t (charged elapsedNs))

/-- The tasks stored in the queue. -/
def stored (q : RtRunQueue) : List TaskId := q.queues.flatMap id

/-! ### What is stored -/

variable {prio : ℕ} (tasks : Tasks) (q : RtRunQueue) {t : TaskId}

theorem count_setLevel (hprio : prio < rtPrioLevels) (l : List TaskId) (t : TaskId) :
    (q.setLevel prio l).stored.count t + (q.level prio).count t =
      q.stored.count t + l.count t := by
  have hlt : prio < q.queues.length := by
    rw [q.queues_length]
    exact hprio
  have hlevel : q.queues[prio]? = some (q.level prio) := by
    rw [level, getD_eq_getElem?_getD, getElem?_eq_getElem hlt, Option.getD_some]
  exact count_flatMap_set id hlevel l t

/-- Only the priorities there are have tasks. -/
theorem lt_of_mem_level {q : RtRunQueue} (h : t ∈ q.level prio) : prio < rtPrioLevels := by
  by_contra hge
  have hnone : q.queues[prio]? = none := by
    rw [getElem?_eq_none_iff, q.queues_length]
    exact not_lt.mp hge
  rw [level, getD_eq_getElem?_getD, hnone] at h
  cases h

theorem count_enqueue (t t' : TaskId) :
    (enqueue tasks q t).stored.count t' = q.stored.count t' + [t].count t' := by
  have hprio : min (tasks t).sched.rtPriority 99 < rtPrioLevels :=
    lt_of_le_of_lt (min_le_right _ _) (by decide)
  have hset := count_setLevel q hprio
    (q.level (min (tasks t).sched.rtPriority 99) ++ [t]) t'
  rw [count_append] at hset
  have hstored : (enqueue tasks q t).stored = (q.setLevel (min (tasks t).sched.rtPriority 99)
    (q.level (min (tasks t).sched.rtPriority 99) ++ [t])).stored := rfl
  rw [hstored]
  omega

theorem count_removed {q : RtRunQueue} {rest : List TaskId} (hmem : t ∈ q.level prio)
    (hperm : (q.level prio).Perm (t :: rest)) (t' : TaskId) :
    (q.removed prio rest).stored.count t' + [t].count t' = q.stored.count t' := by
  have hset := count_setLevel q (lt_of_mem_level hmem) rest t'
  have hlevel : (q.level prio).count t' = [t].count t' + rest.count t' := by
    rw [hperm.count_eq t', ← count_append]
    rfl
  have hstored : (q.removed prio rest).stored = (q.setLevel prio rest).stored := rfl
  rw [hstored]
  omega

/-- Dequeueing takes out the task if it finds it. -/
theorem takenOut_dequeue (t : TaskId) :
    TakenOut q.stored (q.dequeue t).stored t (q.findPrio t).isSome := by
  rw [dequeue]
  cases hfind : q.findPrio t with
  | none => exact Perm.refl _
  | some prio =>
    have hfound := find?_some hfind
    have hmem : t ∈ q.level prio := (of_decide_eq_true hfound).2
    refine perm_iff_count.mpr fun t' => ?_
    rw [← count_removed hmem (perm_cons_erase hmem) t', count_append, add_comm]
    rfl

/-- What `pick_next` can do. -/
theorem pickNext_cases :
    pickNext tasks q = (none, q) ∨
    ∃ t rest, q.level q.topPrio = t :: rest ∧
      ((tasks t).sched.policy.isRoundRobin = true ∧
          pickNext tasks q = (some t, q.setLevel q.topPrio (rest ++ [t])) ∨
        (tasks t).sched.policy.isRoundRobin = false ∧
          pickNext tasks q = (some t, q.removed q.topPrio rest)) := by
  rw [pickNext]
  split_ifs with hbitmap
  · exact .inl rfl
  cases hlevel : q.level q.topPrio with
  | nil => exact .inl rfl
  | cons t rest =>
    refine .inr ⟨t, rest, rfl, ?_⟩
    dsimp only
    cases hrr : (tasks t).sched.policy.isRoundRobin with
    | true => exact .inl ⟨rfl, by rw [if_pos rfl]⟩
    | false => exact .inr ⟨rfl, by rw [if_neg Bool.false_ne_true]⟩

/-- A picked task leaves the queue unless it is a round-robin task, which then is stored and
picked; the other tasks stay. -/
theorem pickNext_fst : (pickNext tasks q).1 = q.front := by
  rw [pickNext, front]
  split_ifs
  · rfl
  cases q.level q.topPrio with
  | nil => rfl
  | cons t rest =>
    dsimp only
    split_ifs <;> rfl

theorem count_pickNext (t : TaskId)
    (hrr : q.front = some t → (tasks t).sched.policy.isRoundRobin = false) :
    (pickNext tasks q).2.stored.count t + (pickNext tasks q).1.toList.count t =
      q.stored.count t := by
  rw [← pickNext_fst tasks] at hrr
  rcases pickNext_cases tasks q with heq | ⟨u, rest, hlevel, ⟨hpolicy, heq⟩ | ⟨-, heq⟩⟩ <;>
    rw [heq] at hrr ⊢
  · rfl
  · have hne : u ≠ t := by
      rintro rfl
      rw [hrr rfl] at hpolicy
      cases hpolicy
    have hmem : u ∈ q.level q.topPrio := hlevel ▸ mem_cons_self
    have hset := count_setLevel q (lt_of_mem_level hmem) (rest ++ [u]) t
    rw [hlevel, count_cons_of_ne hne, count_append] at hset
    have hother : [u].count t = 0 := count_eq_zero.mpr (by simpa using Ne.symm hne)
    dsimp only [Option.toList_some]
    omega
  · have hmem : u ∈ q.level q.topPrio := hlevel ▸ mem_cons_self
    exact count_removed hmem (Perm.of_eq hlevel) t

end RtRunQueue

/-! ## Deadline tasks -/

structure DlTask where
  task : TaskId
  absDeadline : ℕ
  budgetRemaining : ℕ
  deriving DecidableEq, Repr

structure DeadlineRunQueue where
  /-- The queued tasks by absolute deadline. -/
  tasks : OrdMap VtKey DlTask
  /-- In thousandths. -/
  admittedBandwidth : ℕ
  nrRunning : ℕ

namespace DeadlineRunQueue

def new : DeadlineRunQueue := ⟨.empty, 0, 0⟩

/-- The bandwidth of a task, in thousandths; the product wraps around. -/
def bandwidth (runtime period : ℕ) : ℕ := wrap (runtime * 1000) / period

/-- The limit of admission control, in thousandths. -/
def maxBandwidth : ℕ := schedDlBandwidthNum * 10

/-- `enqueue` -/
def enqueue (tasks : Tasks) (q : DeadlineRunQueue) (t : TaskId) (nowNs : ℕ) :
    Except String DeadlineRunQueue :=
  match (tasks t).sched.policy with
  | .deadline runtime deadline period =>
    if period = 0 then .error "MKS/DL: period cannot be zero"
    else
      let newBw := wrap (q.admittedBandwidth + bandwidth runtime period)
      if maxBandwidth < newBw then .error "MKS/DL: admission control: bandwidth exceeded"
      else
        let absDeadline := wrap (nowNs + deadline)
        .ok {
          tasks := q.tasks.insert (vtKey absDeadline t) ⟨t, absDeadline, runtime⟩
          admittedBandwidth := newBw
          nrRunning := q.nrRunning + 1 }
  | _ => .error "MKS/DL: task is not SCHED_DEADLINE"

/-- The key under which the queue holds a task. -/
def findKey (q : DeadlineRunQueue) (t : TaskId) : Option (VtKey × DlTask) :=
  q.tasks.entries.find? fun e => decide (e.1.taskId = t)

/-- The bandwidth that `dequeue` gives back for a task. -/
def reclaimed : SchedClass → ℕ
  | .deadline runtime _ period => bandwidth runtime (max period 1)
  | _ => bandwidth 0 1

/-- `dequeue` -/
def dequeue (tasks : Tasks) (q : DeadlineRunQueue) (t : TaskId) : DeadlineRunQueue :=
  match q.findKey t with
  | some (key, entry) =>
    { tasks := q.tasks.remove key
      admittedBandwidth := q.admittedBandwidth - reclaimed (tasks entry.task).sched.policy
      nrRunning := q.nrRunning - 1 }
  | none => q

/-- `pick_next`. A task without budget is put back for its next period and none is picked. -/
def pickNext (tasks : Tasks) (q : DeadlineRunQueue) : Option TaskId × DeadlineRunQueue :=
  match q.tasks.first? with
  | none => (none, q)
  | some (key, entry) =>
    let rest := { q with tasks := q.tasks.remove key }
    if entry.budgetRemaining = 0 then
      match (tasks entry.task).sched.policy with
      | .deadline runtime _ period =>
        let newDeadline := wrap (entry.absDeadline + period)
        (none, { rest with
          tasks := rest.tasks.insert (vtKey newDeadline entry.task)
            ⟨entry.task, newDeadline, runtime⟩ })
      | _ => (none, rest)
    else (some entry.task, { rest with nrRunning := q.nrRunning - 1 })

/-- `tick`, with the verdict whether the task is to be throttled. -/
def tick (q : DeadlineRunQueue) (t : TaskId) (elapsedNs : ℕ) : Bool × DeadlineRunQueue :=
  match q.findKey t with
  | some (key, entry) =>
    if elapsedNs < entry.budgetRemaining then
      (false, { q with
        tasks := q.tasks.insert key
          { entry with budgetRemaining := entry.budgetRemaining - elapsedNs } })
    else (true, { q with tasks := q.tasks.insert key { entry with budgetRemaining := 0 } })
  | none => (false, q)

/-- The tasks stored in the queue. -/
def stored (q : DeadlineRunQueue) : List TaskId := q.tasks.ids DlTask.task

/-- The task with the earliest deadline has budget left. -/
def Ready (q : DeadlineRunQueue) : Prop := ∃ e ∈ q.tasks.first?, e.2.budgetRemaining ≠ 0

instance (q : DeadlineRunQueue) : Decidable q.Ready :=
  inferInstanceAs (Decidable (∃ e ∈ q.tasks.first?, _))

/-- Admission control accepts a task of this class. -/
def admits (q : DeadlineRunQueue) : SchedClass → Prop
  | .deadline runtime _ period =>
    period ≠ 0 ∧ wrap (q.admittedBandwidth + bandwidth runtime period) ≤ maxBandwidth
  | _ => True

instance (q : DeadlineRunQueue) : (c : SchedClass) → Decidable (q.admits c)
  | .deadline runtime _ period => inferInstanceAs (Decidable
      (period ≠ 0 ∧ wrap (q.admittedBandwidth + bandwidth runtime period) ≤ maxBandwidth))
  | .idle | .batch | .normal | .compute | .roundRobin _ | .fifo => isTrue trivial

/-! ### What is stored -/

/-- The keys carry the id of their task, and the tasks are of the deadline class. -/
structure Wf (tasks : Tasks) (q : DeadlineRunQueue) : Prop where
  keyed : q.tasks.Keyed VtKey.taskId DlTask.task
  policy : ∀ e ∈ q.tasks.entries, (tasks e.2.task).sched.policy.classId = .deadline

theorem wf_new (tasks : Tasks) : Wf tasks new := ⟨OrdMap.Keyed.empty, by simp [new]⟩

variable {q : DeadlineRunQueue} {t : TaskId} {tasks : Tasks}

theorem Wf.congr {tasks' : Tasks} (h : Wf tasks q)
    (hpolicy : ∀ t, (tasks' t).sched.policy = (tasks t).sched.policy) : Wf tasks' q :=
  ⟨h.keyed, fun e he => by rw [hpolicy]; exact h.policy e he⟩

theorem findKey_some {e : VtKey × DlTask} (h : q.findKey t = some e) :
    e ∈ q.tasks.entries ∧ e.1.taskId = t := by
  have hfound := find?_some h
  exact ⟨mem_of_find?_eq_some h, of_decide_eq_true hfound⟩

/-- What a successful `enqueue` does. -/
theorem enqueue_ok {q' : DeadlineRunQueue} {nowNs : ℕ} (h : enqueue tasks q t nowNs = .ok q') :
    ∃ runtime deadline period, (tasks t).sched.policy = .deadline runtime deadline period ∧
      q' = ⟨q.tasks.insert (vtKey (wrap (nowNs + deadline)) t)
          ⟨t, wrap (nowNs + deadline), runtime⟩,
        wrap (q.admittedBandwidth + bandwidth runtime period), q.nrRunning + 1⟩ := by
  rw [enqueue] at h
  split at h
  · rename_i runtime deadline period hpolicy
    dsimp only at h
    split_ifs at h
    exact ⟨runtime, deadline, period, hpolicy, (Except.ok.inj h).symm⟩
  · cases h

/-- Admission control is the only thing that can go wrong for a deadline task. -/
theorem enqueue_of_admits (hclass : (tasks t).sched.policy.classId = .deadline)
    (h : q.admits (tasks t).sched.policy) (nowNs : ℕ) : ∃ q', enqueue tasks q t nowNs = .ok q' := by
  rw [enqueue]
  cases hpolicy : (tasks t).sched.policy with
  | deadline runtime deadline period =>
    rw [hpolicy] at h
    dsimp only
    rw [if_neg h.1, if_neg (not_lt.mpr h.2)]
    exact ⟨_, rfl⟩
  | idle | batch | normal | compute | roundRobin | fifo =>
    rw [hpolicy] at hclass
    cases hclass

/-! ### Which entries there are -/

/-- An entry as `enqueue` and `pick_next` file it. -/
def Filed (tasks : Tasks) (e : VtKey × DlTask) : Prop :=
  e.1.taskId = e.2.task ∧ ∃ deadline period,
    (tasks e.2.task).sched.policy = .deadline e.2.budgetRemaining deadline period

/-- The entries of `q'` are filed anew, or are entries of `q` with no more budget than before. -/
def Evolves (tasks : Tasks) (q q' : DeadlineRunQueue) : Prop :=
  ∀ e ∈ q'.tasks.entries, Filed tasks e ∨ ∃ e₀ ∈ q.tasks.entries,
    e₀.1 = e.1 ∧ e₀.2.task = e.2.task ∧ e.2.budgetRemaining ≤ e₀.2.budgetRemaining

section Evolves

variable {tasks : Tasks} {q q' : DeadlineRunQueue}

theorem Evolves.of_subset (h : ∀ e ∈ q'.tasks.entries, e ∈ q.tasks.entries) :
    Evolves tasks q q' := fun e he => .inr ⟨e, h e he, rfl, rfl, le_rfl⟩

theorem Evolves.insert (h : Evolves tasks q q') {key : VtKey} {entry : DlTask}
    (hfiled : Filed tasks (key, entry)) (bw nr : ℕ) :
    Evolves tasks q ⟨q'.tasks.insert key entry, bw, nr⟩ := by
  intro e he
  rcases mem_insert he with rfl | he
  · exact .inl hfiled
  · exact h e he

theorem evolves_remove (key : VtKey) (bw nr : ℕ) : Evolves tasks q ⟨q.tasks.remove key, bw, nr⟩ :=
  .of_subset fun _ he => (mem_remove.mp he).1

theorem evolves_enqueue {t : TaskId} {nowNs : ℕ} (hok : enqueue tasks q t nowNs = .ok q') :
    Evolves tasks q q' := by
  obtain ⟨runtime, deadline, period, hpolicy, rfl⟩ := enqueue_ok hok
  have hsame : Evolves tasks q q := .of_subset fun _ he => he
  exact hsame.insert ⟨taskId_vtKey _ _, deadline, period, hpolicy⟩ _ _

theorem evolves_dequeue (t : TaskId) : Evolves tasks q (dequeue tasks q t) := by
  rw [dequeue]
  cases q.findKey t with
  | none => exact .of_subset fun _ he => he
  | some e => exact evolves_remove e.1 _ _

theorem evolves_pickNext : Evolves tasks q (pickNext tasks q).2 := by
  rw [pickNext]
  cases q.tasks.first? with
  | none => exact .of_subset fun _ he => he
  | some e => ?_
  have hrest : Evolves tasks q { q with tasks := q.tasks.remove e.1 } := evolves_remove e.1 _ _
  dsimp only
  split_ifs
  · cases hpolicy : (tasks e.2.task).sched.policy with
    | deadline runtime deadline period =>
      exact hrest.insert ⟨taskId_vtKey _ _, deadline, period, hpolicy⟩ _ _
    | idle | batch | normal | compute | roundRobin | fifo => exact hrest
  · exact evolves_remove e.1 _ _

/-- A tick lowers one budget. -/
theorem tick_cases (q : DeadlineRunQueue) (t : TaskId) (elapsedNs : ℕ) :
    (tick q t elapsedNs).2 = q ∨ ∃ key entry budget, (key, entry) ∈ q.tasks.entries ∧
      budget ≤ entry.budgetRemaining ∧ (tick q t elapsedNs).2 = { q with
        tasks := q.tasks.insert key { entry with budgetRemaining := budget } } := by
  rw [tick]
  cases hfind : q.findKey t with
  | none => exact .inl rfl
  | some e =>
    refine .inr ⟨e.1, e.2, ?_⟩
    dsimp only
    split_ifs
    · exact ⟨_, (findKey_some hfind).1, Nat.sub_le _ _, rfl⟩
    · exact ⟨_, (findKey_some hfind).1, Nat.zero_le _, rfl⟩

theorem evolves_tick (t : TaskId) (elapsedNs : ℕ) : Evolves tasks q (tick q t elapsedNs).2 := by
  rcases tick_cases q t elapsedNs with heq | ⟨key, entry, budget, hmem, hle, heq⟩ <;> rw [heq]
  · exact .of_subset fun _ he => he
  · intro e he
    rcases mem_insert he with rfl | he
    · exact .inr ⟨_, hmem, rfl, rfl, hle⟩
    · exact .inr ⟨e, he, rfl, rfl, le_rfl⟩

theorem Evolves.keyed (he : Evolves tasks q q') (h : q.tasks.Keyed VtKey.taskId DlTask.task) :
    q'.tasks.Keyed VtKey.taskId DlTask.task := by
  intro e hmem
  rcases he e hmem with hfiled | ⟨e₀, hmem₀, hkey, htask, -⟩
  · exact hfiled.1
  · rw [← hkey, ← htask]
    exact h e₀ hmem₀

theorem Wf.evolve (h : Wf tasks q) (he : Evolves tasks q q') : Wf tasks q' := by
  refine ⟨he.keyed h.keyed, fun e hmem => ?_⟩
  rcases he e hmem with ⟨-, deadline, period, hpolicy⟩ | ⟨e₀, hmem₀, -, htask, -⟩
  · rw [hpolicy]
    rfl
  · rw [← htask]
    exact h.policy e₀ hmem₀

end Evolves

/-! ### How often a task is stored -/

section Enqueue

variable {tasks : Tasks} {q q' : DeadlineRunQueue} (h : Wf tasks q) {t : TaskId} {nowNs : ℕ}
  (hok : enqueue tasks q t nowNs = .ok q')
include h hok

theorem count_enqueue_of_ne {t' : TaskId} (hne : t' ≠ t) :
    q'.stored.count t' = q.stored.count t' := by
  obtain ⟨runtime, deadline, period, -, rfl⟩ := enqueue_ok hok
  exact h.keyed.count_insert_of_ne (i := t) (taskId_vtKey _ _) rfl hne

theorem count_enqueue_self (hnone : q.stored.count t = 0) : q'.stored.count t = 1 := by
  obtain ⟨runtime, deadline, period, -, rfl⟩ := enqueue_ok hok
  exact h.keyed.count_insert_self (i := t) (taskId_vtKey _ _) rfl hnone

end Enqueue

/-- Dequeueing takes out the task if it finds it. -/
theorem takenOut_dequeue (h : q.tasks.Keyed VtKey.taskId DlTask.task) (tasks : Tasks) (t : TaskId) :
    TakenOut q.stored (dequeue tasks q t).stored t (q.findKey t).isSome := by
  rw [dequeue]
  cases hfind : q.findKey t with
  | none => exact Perm.refl _
  | some e =>
    obtain ⟨hmem, hid⟩ := findKey_some hfind
    rw [← hid, h e hmem]
    exact (perm_cons_remove hmem).map fun e => e.2.task

theorem pickNext_isSome_iff (tasks : Tasks) (q : DeadlineRunQueue) :
    (pickNext tasks q).1.isSome = true ↔ q.Ready := by
  rw [pickNext, Ready]
  cases q.tasks.first? with
  | none => exact ⟨fun h => (nomatch h), fun ⟨_, h, _⟩ => (nomatch h)⟩
  | some e =>
    dsimp only
    split_ifs with hbudget
    · refine ⟨fun h => ?_, fun ⟨_, heq, hne⟩ => absurd hbudget (Option.some.inj heq ▸ hne)⟩
      cases hpolicy : (tasks e.2.task).sched.policy <;> rw [hpolicy] at h <;> cases h
    · exact ⟨fun _ => ⟨e, rfl, hbudget⟩, fun _ => rfl⟩

/-- What `pick_next` can do to a queue of deadline tasks. -/
theorem pickNext_cases (h : Wf tasks q) :
    pickNext tasks q = (none, q) ∨
    ∃ key entry, (key, entry) ∈ q.tasks.entries ∧
      ((∃ newDeadline runtime, pickNext tasks q = (none,
          ⟨(q.tasks.remove key).insert (vtKey newDeadline entry.task)
            ⟨entry.task, newDeadline, runtime⟩, q.admittedBandwidth, q.nrRunning⟩)) ∨
        pickNext tasks q =
          (some entry.task, ⟨q.tasks.remove key, q.admittedBandwidth, q.nrRunning - 1⟩)) := by
  rw [pickNext]
  cases hfirst : q.tasks.first? with
  | none => exact .inl rfl
  | some e => ?_
  obtain ⟨key, entry⟩ := e
  have hmem := first?_mem hfirst
  refine .inr ⟨key, entry, hmem, ?_⟩
  dsimp only
  split_ifs
  · have hclass := h.policy _ hmem
    cases hpolicy : (tasks entry.task).sched.policy with
    | deadline runtime deadline period => exact .inl ⟨_, _, rfl⟩
    | idle | batch | normal | compute | roundRobin | fifo =>
      rw [hpolicy] at hclass
      cases hclass
  · exact .inr rfl

/-- The picked task leaves the queue, and no other; a throttled task stays stored. -/
theorem count_pickNext (h : Wf tasks q) (hone : q.stored.count t ≤ 1) :
    (pickNext tasks q).2.stored.count t + (pickNext tasks q).1.toList.count t =
      q.stored.count t := by
  rcases pickNext_cases h with heq | ⟨key, entry, hmem, ⟨newDeadline, runtime, heq⟩ | heq⟩ <;>
    rw [heq]
  · rfl
  · have hremove := count_remove_add DlTask.task hmem t
    have hkeyed := h.keyed.remove key
    rw [stored] at hone
    rw [stored, stored]
    dsimp only [Option.toList_none]
    obtain rfl | ht := eq_or_ne t entry.task
    · rw [count_singleton_self] at hremove
      have habsent : ((q.tasks.remove key).ids DlTask.task).count entry.task = 0 := by omega
      rw [hkeyed.count_insert_self (a := ⟨entry.task, newDeadline, runtime⟩) (taskId_vtKey _ _) rfl
        habsent, count_nil]
      omega
    · have hother : [entry.task].count t = 0 := count_eq_zero.mpr (by simpa using ht)
      rw [hkeyed.count_insert_of_ne (a := ⟨entry.task, newDeadline, runtime⟩) (taskId_vtKey _ _) rfl
        ht, count_nil]
      omega
  · exact count_remove_add DlTask.task hmem t

theorem count_tick (q : DeadlineRunQueue) (t : TaskId) (elapsedNs : ℕ) (t' : TaskId) :
    (tick q t elapsedNs).2.stored.count t' = q.stored.count t' := by
  rcases tick_cases q t elapsedNs with heq | ⟨key, entry, budget, hmem, -, heq⟩ <;> rw [heq]
  exact count_insert_same DlTask.task hmem { entry with budgetRemaining := budget } rfl t'

end DeadlineRunQueue

end Maios.Sched
