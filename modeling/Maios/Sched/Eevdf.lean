import Maios.Library.OrdMap
import Maios.Sched.Task

/-!
# The EEVDF run queue

`EevdfRunQueue`: tasks that are eligible to run, by virtual deadline, and tasks that are not yet,
by the virtual time at which they become eligible. The queue keeps two counters beside the maps,
`nrRunning` and `totalWeight`, and a clock, `minVruntime`.

Operations take the store of tasks and the queue, and return both; `steal_one` and `pick_next`
also return a task.
-/

namespace Maios.Sched

structure EevdfRunQueue where
  /-- Eligible tasks by virtual deadline. -/
  eligible : OrdMap VtKey TaskId
  /-- Tasks that are not eligible yet, by the time they become so. -/
  ineligible : OrdMap VtKey TaskId
  minVruntime : ℕ
  totalWeight : ℕ
  nrRunning : ℕ

namespace EevdfRunQueue

def new : EevdfRunQueue := ⟨.empty, .empty, 0, 0, 0⟩

/-- `compute_slice` -/
def computeSlice (q : EevdfRunQueue) (taskWeight : ℕ) : ℕ :=
  if q.totalWeight = 0 then schedLatencyNs
  else
    let slice := schedLatencyNs * taskWeight / (q.totalWeight + taskWeight)
    max schedMinGranularityNs (min schedLatencyNs slice)

/-- The virtual runtime with which a task is placed: a new or woken task is moved up to at most
half a latency period behind the clock. -/
def placedVruntime (q : EevdfRunQueue) (s : TaskSchedInfo) (isWakeup : Bool) : ℕ :=
  if s.vruntime = 0 ∨ isWakeup then max s.vruntime (q.minVruntime - schedLatencyNs / 2)
  else s.vruntime

/-- The scheduling data of a task after `enqueue`. -/
def placed (q : EevdfRunQueue) (isWakeup : Bool) (s : TaskSchedInfo) : TaskSchedInfo :=
  let vruntime := q.placedVruntime s isWakeup
  let weight := weightForNice s.nice
  { s with
    vruntime := vruntime
    ve := vruntime
    vdeadline := wrap (vruntime + q.computeSlice weight)
    weight := weight
    onRq := true }

/-- `enqueue` -/
def enqueue (tasks : Tasks) (q : EevdfRunQueue) (t : TaskId) (isWakeup : Bool) :
    Tasks × EevdfRunQueue :=
  let tasks' := tasks.modifySched t (q.placed isWakeup)
  let s := (tasks' t).sched
  let counted :=
    { q with totalWeight := q.totalWeight + s.weight, nrRunning := q.nrRunning + 1 }
  (tasks',
    if s.ve ≤ q.minVruntime then
      { counted with eligible := q.eligible.insert (vtKey s.vdeadline t) t }
    else { counted with ineligible := q.ineligible.insert (vtKey s.ve t) t })

/-- `dequeue` -/
def dequeue (tasks : Tasks) (q : EevdfRunQueue) (t : TaskId) : Tasks × EevdfRunQueue :=
  let s := (tasks t).sched
  let tasks' := tasks.modifySched t fun s => { s with onRq := false }
  if s.onRq then
    let removed :=
      match q.eligible.find? (vtKey s.vdeadline t) with
      | some _ => { q with eligible := q.eligible.remove (vtKey s.vdeadline t) }
      | none => { q with ineligible := q.ineligible.remove (vtKey s.ve t) }
    (tasks', { removed with
      totalWeight := q.totalWeight - s.weight
      nrRunning := q.nrRunning - 1 })
  else (tasks', q)

/-- One turn of the second loop of `advance_eligibility`. -/
def promote (tasks : Tasks) (q : EevdfRunQueue) (key : VtKey) : EevdfRunQueue :=
  match q.ineligible.find? key with
  | some t =>
    { q with
      ineligible := q.ineligible.remove key
      eligible := q.eligible.insert (vtKey (tasks t).sched.vdeadline t) t }
  | none => q

/-- `advance_eligibility` -/
def advanceEligibility (tasks : Tasks) (q : EevdfRunQueue) : EevdfRunQueue :=
  let toPromote := (q.ineligible.entries.map Prod.fst).takeWhile fun key =>
    decide ((ofLex key).1 ≤ q.minVruntime)
  toPromote.foldl (promote tasks) q

/-- `pick_next` -/
def pickNext (tasks : Tasks) (q : EevdfRunQueue) : Option TaskId × EevdfRunQueue :=
  let q := advanceEligibility tasks q
  match q.eligible.first? with
  | some (key, t) => (some t, { q with eligible := q.eligible.remove key })
  | none => (none, q)

/-- `put_prev` -/
def putPrev (tasks : Tasks) (q : EevdfRunQueue) (t : TaskId) : Tasks × EevdfRunQueue :=
  enqueue tasks q t false

/-- `update_min_vruntime` -/
def updateMinVruntime (q : EevdfRunQueue) (runningVruntime : ℕ) : EevdfRunQueue :=
  let newMin :=
    match q.eligible.first? with
    | some (key, _) => min runningVruntime (ofLex key).1
    | none => runningVruntime
  if q.minVruntime < newMin then { q with minVruntime := newMin } else q

/-- The scheduling data of the running task after `tick`. -/
def charged (elapsedNs : ℕ) (s : TaskSchedInfo) : TaskSchedInfo :=
  let deltaVt := wrap (elapsedNs * wmultForNice s.nice) / 2 ^ 32
  { s with
    vruntime := wrap (s.vruntime + deltaVt)
    execRuntime := wrap (s.execRuntime + elapsedNs) }

/-- `tick`, with the verdict whether the running task is to be preempted. -/
def tick (tasks : Tasks) (q : EevdfRunQueue) (current : TaskId) (elapsedNs : ℕ) :
    Bool × Tasks × EevdfRunQueue :=
  let tasks' := tasks.modifySched current (charged elapsedNs)
  let s := (tasks' current).sched
  let q' := q.updateMinVruntime s.vruntime
  let overran := decide (s.vdeadline ≤ s.vruntime)
  let preemptByWakeup :=
    match q'.eligible.first? with
    | some (key, _) => decide (wrap ((ofLex key).1 + schedMinGranularityNs) < s.vdeadline)
    | none => false
  (overran || preemptByWakeup, tasks', q')

/-- `steal_one`. Only the second of its two removals updates the counters. -/
def stealOne (tasks : Tasks) (q : EevdfRunQueue) : Option TaskId × EevdfRunQueue :=
  if q.nrRunning ≤ 1 then (none, q)
  else
    match q.ineligible.last? with
    | some (key, t) => (some t, { q with ineligible := q.ineligible.remove key })
    | none =>
      match q.eligible.last? with
      | some (key, t) =>
        (some t, { q with
          eligible := q.eligible.remove key
          totalWeight := q.totalWeight - (tasks t).sched.weight
          nrRunning := q.nrRunning - 1 })
      | none => (none, q)

/-! ### What an operation can do -/

variable (tasks : Tasks) (q : EevdfRunQueue)

theorem promote_cases (key : VtKey) :
    promote tasks q key = q ∨ ∃ t, (key, t) ∈ q.ineligible.entries ∧
      promote tasks q key = { q with
        ineligible := q.ineligible.remove key
        eligible := q.eligible.insert (vtKey (tasks t).sched.vdeadline t) t } := by
  rw [promote]
  cases hfind : q.ineligible.find? key with
  | none => exact .inl rfl
  | some t => exact .inr ⟨t, OrdMap.find?_eq_some.mp hfind, rfl⟩

/-- What promoting one task keeps, advancing eligibility keeps. -/
theorem advanceEligibility_induct {P : EevdfRunQueue → Prop}
    (hstep : ∀ q key, P q → P (promote tasks q key)) (h : P q) : P (advanceEligibility tasks q) :=
  List.foldlRecOn _ _ h fun q hq key _ => hstep q key hq

theorem pickNext_cases :
    (pickNext tasks q = (none, advanceEligibility tasks q) ∧
      (advanceEligibility tasks q).eligible.entries = []) ∨
    ∃ key t, (key, t) ∈ (advanceEligibility tasks q).eligible.entries ∧
      pickNext tasks q = (some t, { advanceEligibility tasks q with
        eligible := (advanceEligibility tasks q).eligible.remove key }) := by
  rw [pickNext]
  cases hfirst : (advanceEligibility tasks q).eligible.first? with
  | none => exact .inl ⟨rfl, OrdMap.first?_eq_none.mp hfirst⟩
  | some e => exact .inr ⟨e.1, e.2, OrdMap.first?_mem hfirst, rfl⟩

theorem stealOne_cases :
    (stealOne tasks q = (none, q) ∧ (q.nrRunning ≤ 1 ∨ q.ineligible.entries = [])) ∨
    (∃ key t, 1 < q.nrRunning ∧ (key, t) ∈ q.ineligible.entries ∧
      stealOne tasks q = (some t, { q with ineligible := q.ineligible.remove key })) ∨
    ∃ key t, q.ineligible.entries = [] ∧ (key, t) ∈ q.eligible.entries ∧
      stealOne tasks q = (some t, { q with
        eligible := q.eligible.remove key
        totalWeight := q.totalWeight - (tasks t).sched.weight
        nrRunning := q.nrRunning - 1 }) := by
  rw [stealOne]
  split_ifs with hnr
  · exact .inl ⟨rfl, .inl hnr⟩
  cases hlast : q.ineligible.last? with
  | some e => exact .inr (.inl ⟨e.1, e.2, not_le.mp hnr, OrdMap.last?_mem hlast, rfl⟩)
  | none =>
    have hempty : q.ineligible.entries = [] := List.getLast?_eq_none_iff.mp hlast
    cases hlast' : q.eligible.last? with
    | some e => exact .inr (.inr ⟨e.1, e.2, hempty, OrdMap.last?_mem hlast', rfl⟩)
    | none => exact .inl ⟨rfl, .inr hempty⟩

/-- What `enqueue` does to the maps. -/
theorem enqueue_cases (t : TaskId) (isWakeup : Bool) :
    let s := q.placed isWakeup (tasks t).sched
    let r := enqueue tasks q t isWakeup
    (r.1 t).sched = s ∧
      (s.ve ≤ q.minVruntime ∧ r.2.eligible = q.eligible.insert (vtKey s.vdeadline t) t ∧
          r.2.ineligible = q.ineligible ∨
        ¬ s.ve ≤ q.minVruntime ∧ r.2.eligible = q.eligible ∧
          r.2.ineligible = q.ineligible.insert (vtKey s.ve t) t) := by
  have hs : ((enqueue tasks q t isWakeup).1 t).sched = q.placed isWakeup (tasks t).sched :=
    Tasks.modifySched_self tasks t (q.placed isWakeup)
  refine ⟨hs, ?_⟩
  rw [← hs]
  simp only [enqueue]
  split_ifs with hve
  · exact .inl ⟨hve, rfl, rfl⟩
  · exact .inr ⟨hve, rfl, rfl⟩

theorem dequeue_tasks (t : TaskId) :
    (dequeue tasks q t).1 = tasks.modifySched t fun s => { s with onRq := false } := by
  rw [dequeue]
  split_ifs <;> rfl

/-- The tasks stored in the queue. -/
def stored (q : EevdfRunQueue) : List TaskId := q.eligible.values ++ q.ineligible.values

end EevdfRunQueue

end Maios.Sched
