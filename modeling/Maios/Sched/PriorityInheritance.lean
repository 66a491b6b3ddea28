import Maios.Library.Run

/-!
# Priority inheritance

A task that waits for another one raises it to its own priority, and gets a guard that sets the
priority back to what it was when the guard is dropped. What a guard saved may itself be inherited.
So the guards of a task have to be dropped in the reverse order in which they were made: a guard that
is dropped before a later one takes from the task what the later waiter gave it, and the later guard
then restores a priority that nobody has any more.

`inherit_priority` takes the lock of the schedulers three times: to read the priority of the waiter,
to read that of the task, and to set it. Between two of these, other waiters may raise the task and
guards may be dropped. A waiter that has read too low a priority then lowers the task, or its guard
restores that priority under the feet of an earlier waiter. So the three parts are steps of their own
here, and a step may come in between.

The priorities are in the run queues of the schedulers of all CPUs, and the epoch scheduler does not
go above 40. A waiter of a higher priority, on a CPU with another scheduler, does not raise such a
task to its own priority.

`Nested` excludes exactly these steps. In the states that the others lead to, the guards that raised
the task form a stack (`Stacked`): the task has at least the priority of the latest waiter, and what a
guard saved is at least the priority of the waiter below, and the task's own one at the bottom.

## Main results

* `priority_setPriority`: setting a priority, and what the schedulers make of it.
* `Stacked.bounds`, `Stacked.reset`, `Stacked.eraseIdx_of_none`, `Stacked.eraseIdx_of_some`: the stack
  of guards.
* `inheritInv_step`: the step lemma.
* `priority_restored`: priority inheritance along a run, and what breaks it.
-/

namespace Maios.TaskSched

open List Option

abbrev TaskId := ℕ

/-! ### Schedulers -/

/-- `MAX_PRIORITY` of the epoch scheduler. -/
def maxPriority : ℕ := 40

/-- The scheduler of a CPU, with its tasks and their priorities. -/
inductive Scheduler where
  /-- A scheduler without priorities. -/
  | roundRobin
  | epoch (queue : List (TaskId × ℕ)) (bounded : ∀ e ∈ queue, e.2 ≤ maxPriority)
  | priority (queue : List (TaskId × ℕ))

/-- The priority of the first entry of a task. -/
def lookup (task : TaskId) (queue : List (TaskId × ℕ)) : Option ℕ :=
  (queue.find? fun e => decide (e.1 = task)).map Prod.snd

/-- Set the priority of the first entry of a task. -/
def assign (task : TaskId) (p : ℕ) : List (TaskId × ℕ) → List (TaskId × ℕ)
  | [] => []
  | e :: queue => if e.1 = task then (task, p) :: queue else e :: assign task p queue

variable {queue : List (TaskId × ℕ)} {p : ℕ} {task : TaskId}

theorem mem_assign {e : TaskId × ℕ} (h : e ∈ assign task p queue) : e = (task, p) ∨ e ∈ queue := by
  induction queue with
  | nil => exact .inr h
  | cons x queue ih =>
    rw [assign] at h
    split_ifs at h
    · exact (mem_cons.mp h).imp_right (mem_cons_of_mem x)
    · rcases mem_cons.mp h with rfl | h
      · exact .inr mem_cons_self
      · exact (ih h).imp_right (mem_cons_of_mem x)

theorem lookup_assign (h : (lookup task queue).isSome = true) (p : ℕ) :
    lookup task (assign task p queue) = some p := by
  induction queue with
  | nil => cases h
  | cons e queue ih =>
    rw [assign]
    split_ifs with he
    · rw [lookup, find?_cons_of_pos (by simp)]
      rfl
    · rw [lookup, find?_cons_of_neg (by simpa using he)] at h ⊢
      exact ih h

namespace Scheduler

/-- `PriorityScheduler::priority`, if the scheduler is one. -/
def priorityOf (task : TaskId) : Scheduler → Option ℕ
  | .roundRobin => none
  | .epoch queue _ => lookup task queue
  | .priority queue => lookup task queue

/-- `PriorityScheduler::set_priority`, if the scheduler is one; `none` is for `false`. The heap of
the priority scheduler is rebuilt with the new entry. -/
def setPriority (task : TaskId) (p : ℕ) : Scheduler → Option Scheduler
  | .roundRobin => none
  | .epoch queue bounded =>
    if (lookup task queue).isSome then
      some (.epoch (assign task (min p maxPriority) queue) fun e he =>
        (mem_assign he).elim (fun heq => heq ▸ Nat.min_le_right _ _) (bounded e))
    else none
  | .priority queue =>
    if (lookup task queue).isSome then
      some (.priority ((task, p) :: queue.filter fun e => decide (e.1 ≠ task)))
    else none

/-- The priority that is set when `p` is asked for. -/
def clamp (p : ℕ) : Scheduler → ℕ
  | .epoch _ _ => min p maxPriority
  | _ => p

variable {s : Scheduler}

theorem setPriority_eq_none : s.setPriority task p = none ↔ s.priorityOf task = none := by
  cases s with rw [setPriority, priorityOf]
  | roundRobin => exact (iff_of_true rfl rfl)
  | epoch queue bounded | priority queue =>
    cases lookup task queue <;> simp

theorem setPriority_eq_some {s' : Scheduler} (h : s.setPriority task p = some s') :
    s'.priorityOf task = some (s.clamp p) ∧ ∀ p', s'.clamp p' = s.clamp p' := by
  cases s with rw [setPriority] at h
  | roundRobin => cases h
  | epoch queue bounded =>
    split_ifs at h with hsome
    obtain rfl := some.inj h
    exact ⟨lookup_assign hsome _, fun _ => rfl⟩
  | priority queue =>
    split_ifs at h
    obtain rfl := some.inj h
    refine ⟨?_, fun _ => rfl⟩
    rw [priorityOf, lookup, find?_cons_of_pos (by simp)]
    rfl

/-- A priority that a task has can be set. -/
theorem clamp_priorityOf (h : s.priorityOf task = some p) : s.clamp p = p := by
  cases s with
  | epoch queue bounded =>
    obtain ⟨e, he, rfl⟩ := map_eq_some_iff.mp h
    exact Nat.min_eq_left (bounded e (mem_of_find?_eq_some he))
  | roundRobin | priority queue => rfl

end Scheduler

/-- `priority`: the first scheduler that knows the task tells. -/
def priority (schedulers : List Scheduler) (task : TaskId) : Option ℕ :=
  schedulers.findSome? (Scheduler.priorityOf task)

/-- `set_priority`, with the result and the schedulers afterwards. -/
def setPriority (task : TaskId) (p : ℕ) : List Scheduler → Bool × List Scheduler
  | [] => (false, [])
  | s :: schedulers =>
    match s.setPriority task p with
    | some s' => (true, s' :: schedulers)
    | none =>
      let r := setPriority task p schedulers
      (r.1, s :: r.2)

/-- The priority that a task gets when `p` is asked for. -/
def clampFor (task : TaskId) (p : ℕ) : List Scheduler → ℕ
  | [] => p
  | s :: schedulers =>
    if (s.priorityOf task).isSome then s.clamp p else clampFor task p schedulers

theorem priority_cons (s : Scheduler) (schedulers : List Scheduler) (task : TaskId) :
    priority (s :: schedulers) task = (s.priorityOf task).or (priority schedulers task) := by
  rw [priority, findSome?_cons]
  cases s.priorityOf task <;> rfl

/-- Setting the priority of a task that has one. -/
theorem priority_setPriority {task : TaskId} {schedulers : List Scheduler} (p : ℕ)
    (h : (priority schedulers task).isSome = true) :
    priority (setPriority task p schedulers).2 task = some (clampFor task p schedulers) ∧
      ∀ p', clampFor task p' (setPriority task p schedulers).2 = clampFor task p' schedulers := by
  induction schedulers with
  | nil => cases h
  | cons s schedulers ih =>
    rw [setPriority]
    cases hset : s.setPriority task p with
    | some s' =>
      obtain ⟨hpriority, hclamp⟩ := Scheduler.setPriority_eq_some hset
      have hsome : (s.priorityOf task).isSome = true := by
        rw [isSome_iff_ne_none, Ne, ← Scheduler.setPriority_eq_none (p := p), hset]
        exact nofun
      refine ⟨?_, fun p' => ?_⟩
      · rw [priority_cons, hpriority, clampFor, if_pos hsome]
        rfl
      · rw [clampFor, clampFor, hpriority, if_pos hsome, isSome_some, if_pos rfl, hclamp]
    | none =>
      have hnone := Scheduler.setPriority_eq_none.mp hset
      rw [priority_cons, hnone] at h
      obtain ⟨hpriority, hclamp⟩ := ih h
      refine ⟨?_, fun p' => ?_⟩ <;> dsimp only
      · rw [priority_cons, hpriority, clampFor, hnone]
        rfl
      · rw [clampFor, clampFor, hclamp]

theorem clampFor_priority {schedulers : List Scheduler} (h : priority schedulers task = some p) :
    clampFor task p schedulers = p := by
  induction schedulers with
  | nil => rfl
  | cons s schedulers ih =>
    rw [priority_cons] at h
    rw [clampFor]
    cases hs : s.priorityOf task with
    | none =>
      rw [hs] at h
      exact ih h
    | some p' =>
      rw [hs] at h
      obtain rfl := some.inj h
      exact Scheduler.clamp_priorityOf hs

/-! ### Guards -/

/-- The saved priority in the guard that `inherit_priority` makes: none if the waiting task does not
have the higher priority. -/
def inner (currentPriority otherPriority : Option ℕ) : Option ℕ :=
  match currentPriority, otherPriority with
  | some current, some other => if other < current then some other else none
  | _, _ => none

/-- What `inherit_priority` does once it has read both priorities: it raises the task if the waiter
has the higher one. -/
def raise (task : TaskId) (schedulers : List Scheduler) (currentPriority otherPriority : Option ℕ) :
    List Scheduler :=
  match currentPriority, inner currentPriority otherPriority with
  | some p, some _ => (setPriority task p schedulers).2
  | _, _ => schedulers

/-- `inherit_priority` without an interruption, with the field `inner` of the guard that it
returns. -/
def inheritPriority (schedulers : List Scheduler) (current task : TaskId) :
    List Scheduler × Option ℕ :=
  let currentPriority := priority schedulers current
  let otherPriority := priority schedulers task
  (raise task schedulers currentPriority otherPriority, inner currentPriority otherPriority)

/-- Dropping a guard. -/
def dropGuard (schedulers : List Scheduler) (task : TaskId) (inner : Option ℕ) : List Scheduler :=
  match inner with
  | some p => (setPriority task p schedulers).2
  | none => schedulers

/-- A guard, and the priority that its waiter had. -/
structure LiveGuard where
  inner : Option ℕ
  waiter : ℕ

/-- The schedulers, the calls of `inherit_priority` for one task, and its guards that are alive,
latest first. -/
structure InheritState where
  schedulers : List Scheduler
  /-- The calls that have read the priority of the waiter. -/
  begun : List (Option ℕ)
  /-- The calls that have read the priority of the task as well. -/
  looked : List (Option ℕ × Option ℕ)
  guards : List LiveGuard

inductive InheritOp where
  /-- `inherit_priority` is called in the task `current`, and reads its priority. -/
  | begin (current : TaskId)
  /-- The call in this place reads the priority of the task that is waited for. -/
  | look (n : ℕ)
  /-- The call in this place raises the task if it has to, and returns a guard. -/
  | finish (n : ℕ)
  /-- The guard in this place is dropped. -/
  | drop (n : ℕ)

namespace InheritState

/-- No call was made. -/
def new (schedulers : List Scheduler) : InheritState := ⟨schedulers, [], [], []⟩

def step (task : TaskId) (s : InheritState) : InheritOp → InheritState
  | .begin current => { s with begun := priority s.schedulers current :: s.begun }
  | .look n =>
    match s.begun[n]? with
    | some currentPriority =>
      { s with
        begun := s.begun.eraseIdx n
        looked := (currentPriority, priority s.schedulers task) :: s.looked }
    | none => s
  | .finish n =>
    match s.looked[n]? with
    | some (currentPriority, otherPriority) =>
      { s with
        schedulers := raise task s.schedulers currentPriority otherPriority
        looked := s.looked.eraseIdx n
        guards := ⟨inner currentPriority otherPriority, currentPriority.getD 0⟩ :: s.guards }
    | none => s
  | .drop n =>
    match s.guards[n]? with
    | some g =>
      { s with schedulers := dropGuard s.schedulers task g.inner, guards := s.guards.eraseIdx n }
    | none => s

/-- The steps of a call that nothing interrupts make `inherit_priority`. -/
theorem run_uninterrupted (task : TaskId) (s : InheritState) (current : TaskId) :
    run (step task) s [.begin current, .look 0, .finish 0] =
      { s with
        schedulers := (inheritPriority s.schedulers current task).1
        guards := ⟨(inheritPriority s.schedulers current task).2,
          (priority s.schedulers current).getD 0⟩ :: s.guards } :=
  rfl

end InheritState

/-- The task has at least the priority of every waiter that raised it, and its own one when no guard
is left. -/
def Restored (task : TaskId) (own : Option ℕ) (s : InheritState) : Prop :=
  (∀ g ∈ s.guards, g.inner.isSome = true →
    ∃ p, priority s.schedulers task = some p ∧ g.waiter ≤ p) ∧
  (s.guards = [] → priority s.schedulers task = own)

/-- What a call that raises the task from `q` to `c` may find: the scheduler of the task goes up to
`c`, the waiters that raised the task before have at most the priority `q`, and if there are none, the
task still has that priority. -/
def RaiseKeeps (task : TaskId) (s : InheritState) (c q : ℕ) : Prop :=
  clampFor task c s.schedulers = c ∧
    (∀ g ∈ s.guards, g.inner.isSome = true → g.waiter ≤ q) ∧
    ((∀ g ∈ s.guards, g.inner = none) → priority s.schedulers task = some q)

/-- A waiter that raises the task gives it its priority and has not read an outdated one, and a guard
that raised it is dropped before the earlier ones. -/
def Nested (task : TaskId) (s : InheritState) : InheritOp → Prop
  | .begin _ => True
  | .look _ => True
  | .finish n => ∀ r ∈ s.looked[n]?, ∀ c ∈ r.1, ∀ q ∈ r.2, q < c → RaiseKeeps task s c q
  | .drop n => ∀ g ∈ s.guards[n]?, g.inner.isSome = true →
      ∀ g' ∈ s.guards.take n, g'.inner = none

instance (task : TaskId) (s : InheritState) (c q : ℕ) : Decidable (RaiseKeeps task s c q) :=
  inferInstanceAs (Decidable (_ ∧ _ ∧ (_ → _)))

instance (task : TaskId) (s : InheritState) : (op : InheritOp) → Decidable (Nested task s op)
  | .begin _ | .look _ => isTrue trivial
  | .finish n => inferInstanceAs
      (Decidable (∀ r ∈ s.looked[n]?, ∀ c ∈ r.1, ∀ q ∈ r.2, q < c → RaiseKeeps task s c q))
  | .drop n => inferInstanceAs (Decidable (∀ g ∈ s.guards[n]?, g.inner.isSome = true →
      ∀ g' ∈ s.guards.take n, g'.inner = none))

/-! ### The stack of guards -/

/-- From the present priority `p` the guards that raised the task lead down to its own one: `p` is at
least that of the latest waiter, which is above what its guard saved, and the guards below lead down
from there. -/
def Stacked (own : ℕ) : ℕ → List LiveGuard → Prop
  | p, [] => p = own
  | p, g :: guards =>
    match g.inner with
    | none => Stacked own p guards
    | some saved => g.waiter ≤ p ∧ saved < g.waiter ∧ Stacked own saved guards

section

variable {own p : ℕ} {guards : List LiveGuard} {g : LiveGuard} (h : Stacked own p guards)

include h

/-- No waiter has a higher priority than the task, and no guard saved more than its waiter gave. -/
theorem Stacked.bounds : ∀ g ∈ guards, ∀ saved ∈ g.inner, saved < g.waiter ∧ g.waiter ≤ p := by
  induction guards generalizing p with
  | nil => exact forall_mem_nil _
  | cons g₀ guards ih =>
    intro g hg saved hsaved
    have hinner : g.inner = some saved := hsaved
    rw [Stacked] at h
    cases hinner₀ : g₀.inner with rw [hinner₀] at h
    | none =>
      rcases mem_cons.mp hg with rfl | hg
      · rw [hinner] at hinner₀
        cases hinner₀
      · exact ih h g hg saved hsaved
    | some saved₀ =>
      obtain ⟨hle, hlt, hrest⟩ := h
      rcases mem_cons.mp hg with rfl | hg
      · obtain rfl := some.inj (hinner.symm.trans hinner₀)
        exact ⟨hlt, hle⟩
      · obtain ⟨hsaved, hwaiter⟩ := ih hrest g hg saved hsaved
        exact ⟨hsaved, by omega⟩

/-- Where no guard raised the task, it has its own priority. -/
theorem Stacked.eq_own (hnone : ∀ g ∈ guards, g.inner = none) : p = own := by
  induction guards with
  | nil => exact h
  | cons g guards ih =>
    rw [Stacked] at h
    rw [hnone g mem_cons_self] at h
    exact ih h fun g' hg' => hnone g' (mem_cons_of_mem g hg')

/-- Another priority will do if no waiter had more, and the task's own one if no waiter raised it. -/
theorem Stacked.reset {q : ℕ} (hwaiters : ∀ g ∈ guards, g.inner.isSome = true → g.waiter ≤ q)
    (hnone : (∀ g ∈ guards, g.inner = none) → p = q) : Stacked own q guards := by
  induction guards with
  | nil => exact (hnone (forall_mem_nil _)) ▸ h
  | cons g guards ih =>
    rw [Stacked] at h ⊢
    cases hinner : g.inner with rw [hinner] at h
    | none =>
      refine ih h (fun g' hg' => hwaiters g' (mem_cons_of_mem g hg')) fun hrest => hnone ?_
      exact forall_mem_cons.mpr ⟨hinner, hrest⟩
    | some saved => exact ⟨hwaiters g mem_cons_self (by rw [hinner]; rfl), h.2⟩

variable {n saved : ℕ} (hg : guards[n]? = some g)

include hg

/-- Dropping a guard that did not raise the task. -/
theorem Stacked.eraseIdx_of_none (hnone : g.inner = none) : Stacked own p (guards.eraseIdx n) := by
  induction guards generalizing p n with
  | nil => cases hg
  | cons g₀ guards ih =>
    rw [Stacked] at h
    cases n with
    | zero =>
      obtain rfl := some.inj hg
      rw [hnone] at h
      exact h
    | succ n => ?_
    rw [eraseIdx_cons_succ, Stacked]
    cases hinner : g₀.inner with rw [hinner] at h
    | none =>
      exact ih h hg
    | some saved =>
      exact ⟨h.1, h.2.1, ih h.2.2 hg⟩

/-- Dropping the latest guard that raised the task. -/
theorem Stacked.eraseIdx_of_some (hsome : g.inner = some saved)
    (hfirst : ∀ g' ∈ guards.take n, g'.inner = none) : Stacked own saved (guards.eraseIdx n) := by
  induction guards generalizing n with
  | nil => cases hg
  | cons g₀ guards ih =>
    rw [Stacked] at h
    cases n with
    | zero =>
      obtain rfl := some.inj hg
      rw [hsome] at h
      exact h.2.2
    | succ n =>
      have hnone := hfirst g₀ mem_cons_self
      rw [hnone] at h
      rw [eraseIdx_cons_succ, Stacked, hnone]
      exact ih h hg fun g' hg' => hfirst g' (mem_cons_of_mem g₀ hg')

/-- What a guard saved is less than what the waiters of later guards gave. -/
theorem Stacked.saved_lt {g' : LiveGuard} (hsome : g.inner = some saved)
    (hg' : g' ∈ guards.take n) (hraised : g'.inner.isSome = true) :
    saved < g'.waiter ∧ g' ∈ guards.eraseIdx n := by
  induction guards generalizing p n with
  | nil => cases hg
  | cons g₀ guards ih =>
    rw [Stacked] at h
    cases n with
    | zero => exact absurd hg' not_mem_nil
    | succ n => ?_
    rcases mem_cons.mp hg' with rfl | hg'
    · obtain ⟨saved₀, hinner⟩ := isSome_iff_exists.mp hraised
      rw [hinner] at h
      obtain ⟨-, hlt, hrest⟩ := h
      obtain ⟨hsaved, hwaiter⟩ := hrest.bounds g (mem_of_getElem? hg) saved hsome
      exact ⟨by omega, mem_cons_self⟩
    cases hinner : g₀.inner with rw [hinner] at h
    | none =>
      obtain ⟨hlt, hmem⟩ := ih h hg hg'
      exact ⟨hlt, mem_cons_of_mem g₀ hmem⟩
    | some saved₀ =>
      obtain ⟨hlt, hmem⟩ := ih h.2.2 hg hg'
      exact ⟨hlt, mem_cons_of_mem g₀ hmem⟩

end

/-! ### Steps -/

/-- What the steps keep: the stack, and that the priorities which guards and calls remember can be set
again. The guards of a task that is in no queue with priorities did nothing. -/
structure InheritInv (task : TaskId) (own : Option ℕ) (s : InheritState) : Prop where
  stacked : ∀ p ∈ priority s.schedulers task, ∃ o ∈ own, Stacked o p s.guards
  absent : priority s.schedulers task = none →
    own = none ∧ (∀ g ∈ s.guards, g.inner = none) ∧ ∀ r ∈ s.looked, r.2 = none
  saved : ∀ g ∈ s.guards, ∀ q ∈ g.inner, clampFor task q s.schedulers = q
  seen : ∀ r ∈ s.looked, ∀ q ∈ r.2, clampFor task q s.schedulers = q

section Steps

variable {own : Option ℕ} {s : InheritState} {n : ℕ}

theorem inheritInv_new (task : TaskId) (schedulers : List Scheduler) :
    InheritInv task (priority schedulers task) (.new schedulers) :=
  ⟨fun p hp => ⟨p, hp, rfl⟩, fun hnone => ⟨hnone, forall_mem_nil _, forall_mem_nil _⟩,
    forall_mem_nil _, forall_mem_nil _⟩

theorem clampFor_le (task : TaskId) (p : ℕ) (schedulers : List Scheduler) :
    clampFor task p schedulers ≤ p := by
  induction schedulers with
  | nil => exact Nat.le_refl p
  | cons s schedulers ih =>
    rw [clampFor]
    split_ifs
    · cases s with
      | epoch queue bounded => exact Nat.min_le_left _ _
      | roundRobin | priority queue => exact Nat.le_refl p
    · exact ih

/-- What the last part of `inherit_priority` can do: nothing, or raise the task. -/
theorem raise_cases (task : TaskId) (schedulers : List Scheduler) (c q : Option ℕ) :
    (inner c q = none ∧ raise task schedulers c q = schedulers ∧ ∀ c' ∈ c, ∀ q' ∈ q, ¬ q' < c') ∨
    ∃ c' q', c = some c' ∧ q = some q' ∧ q' < c' ∧ inner c q = some q' ∧
      raise task schedulers c q = (setPriority task c' schedulers).2 := by
  cases c with
  | none => exact .inl ⟨rfl, rfl, fun _ hc => (nomatch hc)⟩
  | some c => ?_
  cases q with
  | none => exact .inl ⟨rfl, rfl, fun _ _ _ hq => (nomatch hq)⟩
  | some q => ?_
  by_cases hlt : q < c
  · have hinner : inner (some c) (some q) = some q := if_pos hlt
    exact .inr ⟨c, q, rfl, rfl, hlt, hinner, by simp only [raise, hinner]⟩
  · have hinner : inner (some c) (some q) = none := if_neg hlt
    refine .inl ⟨hinner, by simp only [raise, hinner], fun c' hc q' hq => ?_⟩
    obtain rfl := some.inj hc
    obtain rfl := some.inj hq
    exact hlt

theorem InheritInv.restored (h : InheritInv task own s) : Restored task own s := by
  cases hp : priority s.schedulers task with
  | none =>
    obtain ⟨hown, hnone, -⟩ := h.absent hp
    refine ⟨fun g hg hraised => ?_, fun _ => hp.trans hown.symm⟩
    rw [hnone g hg] at hraised
    cases hraised
  | some p =>
    obtain ⟨o, ho, hstacked⟩ := h.stacked p hp
    refine ⟨fun g hg hraised => ⟨p, hp, ?_⟩, fun hnil => ?_⟩
    · obtain ⟨saved, hsaved⟩ := isSome_iff_exists.mp hraised
      exact (hstacked.bounds g hg saved hsaved).2
    · rw [hnil] at hstacked
      rw [hp, show p = o from hstacked]
      exact ho.symm

theorem inheritInv_look (h : InheritInv task own s) (n : ℕ) :
    InheritInv task own (s.step task (.look n)) := by
  rw [InheritState.step]
  cases s.begun[n]? with
  | none => exact h
  | some c =>
    refine ⟨h.stacked, fun hnone => ?_, h.saved, ?_⟩
    · obtain ⟨hown, hguards, hlooked⟩ := h.absent hnone
      exact ⟨hown, hguards, forall_mem_cons.mpr ⟨hnone, hlooked⟩⟩
    · exact forall_mem_cons.mpr ⟨fun q hq => clampFor_priority hq, h.seen⟩

/-- A call that has read both priorities finishes. -/
theorem inheritInv_finish (h : InheritInv task own s) (hg : Nested task s (.finish n)) :
    InheritInv task own (s.step task (.finish n)) := by
  rw [Nested] at hg
  rw [InheritState.step]
  cases hr : s.looked[n]? with
  | none => exact h
  | some r => ?_
  obtain ⟨c, q⟩ := r
  have hmem := mem_of_getElem? hr
  have hsub : ∀ r ∈ s.looked.eraseIdx n, r ∈ s.looked := fun r => mem_of_mem_eraseIdx
  dsimp only
  rcases raise_cases task s.schedulers c q with
    ⟨hinner, hraise, -⟩ | ⟨c, q, rfl, rfl, hlt, hinner, hraise⟩ <;> rw [hinner, hraise]
  · refine ⟨h.stacked, fun hnone => ?_, ?_, fun r hr => h.seen r (hsub r hr)⟩
    · obtain ⟨hown, hguards, hlooked⟩ := h.absent hnone
      exact ⟨hown, forall_mem_cons.mpr ⟨rfl, hguards⟩, fun r hr => hlooked r (hsub r hr)⟩
    · exact forall_mem_cons.mpr ⟨fun q hq => (nomatch hq), h.saved⟩
  · obtain ⟨hclamp, hwaiters, hpresent⟩ := hg _ hr c rfl q rfl hlt
    -- the task had a priority when it was looked at, and still has one
    cases hp : priority s.schedulers task with
    | none => exact (nomatch (h.absent hp).2.2 _ hmem)
    | some p => ?_
    obtain ⟨hpriority, hsame⟩ := @priority_setPriority task s.schedulers c (by rw [hp]; rfl)
    obtain ⟨o, ho, hstacked⟩ := h.stacked p hp
    refine ⟨fun p' hp' => ⟨o, ho, ?_⟩, fun hnone => ?_, ?_, fun r hr q' hq' => ?_⟩
    · obtain rfl := some.inj (hpriority.symm.trans hp')
      refine ⟨Nat.le_of_eq hclamp.symm, hlt, hstacked.reset hwaiters fun hnone => ?_⟩
      exact some.inj (hp.symm.trans (hpresent hnone))
    · exact (nomatch hpriority.symm.trans hnone)
    · refine forall_mem_cons.mpr ⟨fun q' hq' => ?_, fun g hg q' hq' => ?_⟩ <;> rw [hsame]
      · obtain rfl := some.inj hq'
        exact h.seen _ hmem _ rfl
      · exact h.saved g hg q' hq'
    · rw [hsame]
      exact h.seen r (hsub r hr) q' hq'

/-- Dropping a guard that raised the task sets what it saved. -/
theorem InheritInv.priority_drop (h : InheritInv task own s) {g : LiveGuard} (hg : g ∈ s.guards)
    {saved : ℕ} (hinner : g.inner = some saved) :
    priority (dropGuard s.schedulers task g.inner) task = some saved ∧
      ∀ p, clampFor task p (dropGuard s.schedulers task g.inner) = clampFor task p s.schedulers := by
  have hsome : (priority s.schedulers task).isSome = true := by
    by_contra hnone
    have hguard := (h.absent (not_isSome_iff_eq_none.mp hnone)).2.1 g hg
    exact (nomatch hinner.symm.trans hguard)
  obtain ⟨hpriority, hsame⟩ := priority_setPriority saved hsome
  rw [h.saved g hg saved hinner] at hpriority
  rw [hinner]
  exact ⟨hpriority, hsame⟩

theorem inheritInv_drop (h : InheritInv task own s) (hg : Nested task s (.drop n)) :
    InheritInv task own (s.step task (.drop n)) := by
  rw [Nested] at hg
  rw [InheritState.step]
  cases hget : s.guards[n]? with
  | none => exact h
  | some g => ?_
  have hmem := mem_of_getElem? hget
  have hsub : ∀ g' ∈ s.guards.eraseIdx n, g' ∈ s.guards := fun g' => mem_of_mem_eraseIdx
  dsimp only
  cases hinner : g.inner with
  | none =>
    refine ⟨fun p hp => ?_, fun hnone => ?_, fun g' hg' => h.saved g' (hsub g' hg'), h.seen⟩
    · obtain ⟨o, ho, hstacked⟩ := h.stacked p hp
      exact ⟨o, ho, hstacked.eraseIdx_of_none hget hinner⟩
    · obtain ⟨hown, hguards, hlooked⟩ := h.absent hnone
      exact ⟨hown, fun g' hg' => hguards g' (hsub g' hg'), hlooked⟩
  | some saved =>
    obtain ⟨hpriority, hsame⟩ := h.priority_drop hmem hinner
    rw [hinner] at hpriority hsame
    refine ⟨fun p hp => ?_, fun hnone => ?_, fun g' hg' q hq => ?_, fun r hr q hq => ?_⟩
    · obtain rfl := some.inj (hpriority.symm.trans hp)
      cases hbefore : priority s.schedulers task with
      | none => exact (nomatch hinner.symm.trans ((h.absent hbefore).2.1 g hmem))
      | some p =>
        obtain ⟨o, ho, hstacked⟩ := h.stacked p hbefore
        refine ⟨o, ho, hstacked.eraseIdx_of_some hget hinner (hg g hget ?_)⟩
        rw [hinner]
        rfl
    · exact (nomatch hpriority.symm.trans hnone)
    · exact (hsame q).trans (h.saved g' (hsub g' hg') q hq)
    · exact (hsame q).trans (h.seen r hr q hq)

theorem inheritInv_step (s : InheritState) (op : InheritOp) (h : InheritInv task own s)
    (hg : Nested task s op) : InheritInv task own (s.step task op) := by
  cases op with
  | begin current => exact ⟨h.stacked, h.absent, h.saved, h.seen⟩
  | look n => exact inheritInv_look h n
  | finish n => exact inheritInv_finish h hg
  | drop n => exact inheritInv_drop h hg

/-! ### What breaks it -/

/-- A guard that is dropped before a later one that raised the task takes it below that waiter. -/
theorem nested_of_restored_drop (h : InheritInv task own s)
    (hrestored : Restored task own (s.step task (.drop n))) : Nested task s (.drop n) := by
  intro g hget hraised g' hg'
  have hmem := mem_of_getElem? (show s.guards[n]? = some g from hget)
  obtain ⟨saved, hinner⟩ := isSome_iff_exists.mp hraised
  obtain ⟨hpriority, -⟩ := h.priority_drop hmem hinner
  rw [InheritState.step, show s.guards[n]? = some g from hget] at hrestored
  by_contra hlater
  have hsome := isSome_iff_ne_none.mpr hlater
  cases hp : priority s.schedulers task with
  | none => exact (nomatch hinner.symm.trans ((h.absent hp).2.1 g hmem))
  | some p =>
    obtain ⟨o, -, hstacked⟩ := h.stacked p hp
    obtain ⟨hlt, hleft⟩ := hstacked.saved_lt hget hinner hg' hsome
    obtain ⟨p', hp', hle⟩ := hrestored.1 g' hleft hsome
    obtain rfl := some.inj (hpriority.symm.trans hp')
    omega

/-- Dropping guards that did not raise the task. -/
theorem run_drop_none (task : TaskId) {guards : List LiveGuard}
    (hnone : ∀ g ∈ guards, g.inner = none) (s : InheritState) (hs : s.guards = guards) :
    run (InheritState.step task) s (replicate guards.length (.drop 0)) = { s with guards := [] } := by
  induction guards generalizing s with
  | nil =>
    obtain ⟨schedulers, begun, looked, guards⟩ := s
    cases hs
    rfl
  | cons g guards ih =>
    have hstep : s.step task (.drop 0) = { s with guards := guards } := by
      rw [InheritState.step, hs, getElem?_cons_zero]
      dsimp only
      rw [hnone g mem_cons_self]
      rfl
    rw [length_cons, replicate_succ, run_cons, hstep]
    exact ih (fun g' hg' => hnone g' (mem_cons_of_mem g hg')) _ rfl

/-- A call that raises the task as it should not is seen at once, or when the guards are dropped,
latest first. -/
theorem nested_of_restored_finish (h : InheritInv task own s)
    (hrestored : ∀ k, Restored task own
      (run (InheritState.step task) (s.step task (.finish n)) (replicate k (.drop 0)))) :
    Nested task s (.finish n) := by
  rintro ⟨c, q⟩ hget c hc q hq hlt
  obtain rfl : _ = some c := hc
  obtain rfl : _ = some q := hq
  have hmem := mem_of_getElem? (show s.looked[n]? = some (some c, some q) from hget)
  cases hp : priority s.schedulers task with
  | none => exact (nomatch (h.absent hp).2.2 _ hmem)
  | some p => ?_
  obtain ⟨o, ho, hstacked⟩ := h.stacked p hp
  obtain ⟨hpriority, hsame⟩ := @priority_setPriority task s.schedulers c (by rw [hp]; rfl)
  have hfinish : s.step task (.finish n) = { s with
      schedulers := (setPriority task c s.schedulers).2
      looked := s.looked.eraseIdx n
      guards := ⟨some q, c⟩ :: s.guards } := by
    rw [InheritState.step, show s.looked[n]? = some (some c, some q) from hget]
    simp only [raise, inner, if_pos hlt, getD_some]
  have hdrop : run (InheritState.step task) (s.step task (.finish n)) [.drop 0] = { s with
      schedulers := (setPriority task q (setPriority task c s.schedulers).2).2
      looked := s.looked.eraseIdx n } := by
    rw [hfinish]
    rfl
  have hagain : priority (setPriority task q (setPriority task c s.schedulers).2).2 task = some q := by
    rw [(priority_setPriority q (by rw [hpriority]; rfl)).1, hsame, h.seen _ hmem q rfl]
  refine ⟨?_, fun g hg hraised => ?_, fun hnone => ?_⟩
  · have hnow := hrestored 0
    rw [replicate_zero, run_nil, hfinish] at hnow
    obtain ⟨p', hp', hle⟩ := hnow.1 ⟨some q, c⟩ mem_cons_self rfl
    obtain rfl := some.inj (hpriority.symm.trans hp')
    exact Nat.le_antisymm (clampFor_le task c s.schedulers) hle
  · have hnext := hrestored 1
    rw [replicate_one, hdrop] at hnext
    obtain ⟨p', hp', hle⟩ := hnext.1 g hg hraised
    obtain rfl := some.inj (hagain.symm.trans hp')
    exact hle
  · -- with all guards gone the task has what this call has read, and should have its own priority
    have hlast := hrestored (s.guards.length + 1)
    have hrest := run_drop_none task hnone
      (run (InheritState.step task) (s.step task (.finish n)) [.drop 0]) (by rw [hdrop])
    rw [replicate_succ, ← singleton_append, run_append, hrest, hdrop] at hlast
    have hown : some q = own := hagain.symm.trans (hlast.2 rfl)
    rw [hp, hown, show own = some o from ho, hstacked.eq_own hnone]

theorem inheritInv_drops (h : InheritInv task own s) (k : ℕ) :
    InheritInv task own (run (InheritState.step task) s (replicate k (.drop 0))) := by
  induction k generalizing s with
  | zero => exact h
  | succ k ih =>
    refine ih (inheritInv_drop h fun g hg hraised g' hg' => ?_)
    exact absurd hg' not_mem_nil

/-- The step and the drops of all guards after it, latest first, keep the priority right exactly if
the step is a nested one. -/
theorem restored_step_iff (h : InheritInv task own s) (op : InheritOp) :
    (∀ k, Restored task own
      (run (InheritState.step task) (s.step task op) (replicate k (.drop 0)))) ↔
      Nested task s op := by
  refine ⟨fun hrestored => ?_, fun hg k => (inheritInv_drops (inheritInv_step s op h hg) k).restored⟩
  cases op with
  | begin current | look n => trivial
  | finish n => exact nested_of_restored_finish h hrestored
  | drop n => exact nested_of_restored_drop h (hrestored 0)

end Steps

/-- **Priority inheritance.** As long as waiters give the task their priority, do not raise it from an
outdated one, and the guards that raised it are dropped in reverse order, the task is raised while a
guard is alive and has its own priority when there is none; and the first step that does otherwise
breaks this, itself or when the guards are then dropped in reverse order. -/
theorem priority_restored (task : TaskId) (schedulers : List Scheduler) (ops : List InheritOp)
    (hg : Guarded (InheritState.step task) (Nested task) (.new schedulers) ops) :
    let s := run (InheritState.step task) (.new schedulers) ops
    Restored task (priority schedulers task) s ∧
      ∀ op, (∀ k, Restored task (priority schedulers task)
        (run (InheritState.step task) (s.step task op) (replicate k (.drop 0)))) ↔
          Nested task s op := by
  intro s
  have hinv : InheritInv task (priority schedulers task) s :=
    hg.invariant inheritInv_step (inheritInv_new task schedulers)
  exact ⟨hinv.restored, restored_step_iff hinv⟩

/-- Three waiters whose calls overlap: the second one looks at the task after the first one raised it,
and raises it further; the third one has too low a priority. The guards that raised the task are
dropped in reverse order. -/
theorem priority_restored_two :
    Restored 1 (some 5) (run (InheritState.step 1)
      (.new [.priority [(1, 5), (2, 10), (3, 20), (4, 7)]])
      [.begin 2, .begin 3, .look 1, .finish 0, .look 0, .begin 4, .finish 0, .look 0, .finish 0,
        .drop 1, .drop 0, .drop 0]) :=
  (priority_restored 1 [.priority [(1, 5), (2, 10), (3, 20), (4, 7)]]
    [.begin 2, .begin 3, .look 1, .finish 0, .look 0, .begin 4, .finish 0, .look 0, .finish 0,
      .drop 1, .drop 0, .drop 0]
    ⟨by decide, by decide, by decide, by decide, by decide, by decide, by decide, by decide,
      by decide, by decide, by decide, by decide, trivial⟩).1

/-- The first waiter leaves first, and the task loses what the second one gave it; and of two waiters
that look at the task before either raises it, the one with the lower priority lowers it. -/
theorem priority_not_restored :
    (¬ Restored 1 (some 5) (run (InheritState.step 1)
      (.new [.priority [(1, 5), (2, 10), (3, 20)]])
      [.begin 2, .look 0, .finish 0, .begin 3, .look 0, .finish 0, .drop 1])) ∧
    ¬ Restored 1 (some 5) (run (InheritState.step 1)
      (.new [.priority [(1, 5), (2, 10), (3, 20)]])
      [.begin 2, .begin 3, .look 0, .look 0, .finish 1, .finish 0]) := by
  refine ⟨?_, ?_⟩
  · rintro ⟨hraised, -⟩
    obtain ⟨p, hp, hle⟩ := hraised ⟨some 10, 20⟩ mem_cons_self rfl
    obtain rfl := some.inj hp
    revert hle
    decide
  · rintro ⟨hraised, -⟩
    obtain ⟨p, hp, hle⟩ := hraised ⟨some 5, 20⟩ (mem_cons_of_mem _ mem_cons_self) rfl
    obtain rfl := some.inj hp
    revert hle
    decide

end Maios.TaskSched
