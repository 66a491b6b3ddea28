import Maios.Library.Run
import Maios.Sched.Task

/-!
# Wait queues

A task that calls `wait_until` tests a condition under the lock of the queue. If the test fails,
it blocks itself and enters the queue, still under the lock. A call of `notify_one` looks at the
length of the queue first, without the lock, and takes the first task out of the queue only if the
length is not zero.

One task waits, and any number of notifiers make the condition true and call `notify_one`. A
section under the lock is one step here, as is a read of the length and a change of a run state.
The call of `schedule` may return at any time, so that a waiting task may also wake up for no
reason.

## Main results

* `no_lostWakeup` — a task does not sleep on after a notification
-/

namespace Maios.WaitQueue

open Function List

open Sched (RunState TaskId)

/-- `TaskRef::block`, on the run state. -/
def block : RunState → Except RunState RunState
  | .runnable => .ok .blocked
  | .blocked => .ok .blocked
  | s => .error s

/-- `TaskRef::unblock`, on the run state. -/
def unblock : RunState → Except RunState RunState
  | .blocked => .ok .runnable
  | .runnable => .ok .runnable
  | s => .error s

/-- Where the waiting task is in `wait_until`. -/
inductive Waiter where
  /-- At the start of the loop. -/
  | looping
  /-- In the queue, in `schedule`. -/
  | scheduling
  | returned
  | panicked
  deriving DecidableEq, Repr

/-- Where a notifier is. -/
inductive Notifier where
  /-- The condition is not yet made true. -/
  | idle
  /-- In `notify_one`, before `pop`. -/
  | calling
  /-- In `pop`, after the length was not zero. -/
  | popping
  /-- A task has been taken out of the queue. -/
  | unblocking (t : TaskId)
  | returned (unblocked : Bool)
  deriving DecidableEq, Repr

/-- The notifier is in `notify_one`. -/
def Notifier.isRunning : Notifier → Bool
  | calling | popping | unblocking _ => true
  | idle | returned _ => false

structure System (ν : Type*) where
  condition : Bool
  items : List TaskId
  len : ℕ
  runstate : TaskId → RunState
  waiter : Waiter
  notifiers : ν → Notifier

/-- One step of the waiting task, or of a notifier. -/
inductive Actor (ν : Type*) where
  | waiter
  | notifier (i : ν)

variable {ν : Type*} [DecidableEq ν]

namespace System

/-- `push_inner` -/
def push (s : System ν) (t : TaskId) : System ν :=
  { s with items := s.items ++ [t], len := s.len + 1 }

/-- The waiting task blocks itself and enters the queue. -/
def enter (s : System ν) (me : TaskId) : System ν :=
  match block (s.runstate me) with
  | .ok r => { s.push me with runstate := Function.update s.runstate me r, waiter := .scheduling }
  | .error _ => { s with waiter := .panicked }

/-- `push_if_fail` with the condition that `wait_until` wraps. -/
def pushIfFail (s : System ν) (me : TaskId) : System ν :=
  if s.condition then { s with waiter := .returned } else s.enter me

/-- A step of the waiting task. -/
def stepWaiter (s : System ν) (me : TaskId) : System ν :=
  match s.waiter with
  | .looping => s.pushIfFail me
  | .scheduling => { s with waiter := .looping }
  | .returned | .panicked => s

def setNotifier (s : System ν) (i : ν) (n : Notifier) : System ν :=
  { s with notifiers := Function.update s.notifiers i n }

/-- A step of a notifier. -/
def stepNotifier (s : System ν) (i : ν) : System ν :=
  match s.notifiers i with
  | .idle => { s with condition := true }.setNotifier i .calling
  | .calling => s.setNotifier i (if s.len = 0 then .returned false else .popping)
  | .popping =>
    match s.items with
    | [] => s.setNotifier i (.returned false)
    | t :: rest => { s with items := rest, len := s.len - 1 }.setNotifier i (.unblocking t)
  | .unblocking t =>
    match unblock (s.runstate t) with
    | .ok r => { s with runstate := Function.update s.runstate t r }.setNotifier i (.returned true)
    | .error _ => s.setNotifier i .calling
  | .returned _ => s

end System

/-- One step, where `me` is the waiting task. -/
def step (me : TaskId) (s : System ν) : Actor ν → System ν
  | .waiter => s.stepWaiter me
  | .notifier i => s.stepNotifier i

/-- The queue is empty, the condition is false, and nobody has begun. -/
def start (ν : Type*) : System ν := ⟨false, [], 0, fun _ => .runnable, .looping, fun _ => .idle⟩

/-- A `notify_one` has returned, and the waiting task is blocked in the queue with nobody there to
wake it. -/
def LostWakeup (me : TaskId) (s : System ν) : Prop :=
  (∃ i b, s.notifiers i = .returned b) ∧ s.runstate me = .blocked ∧ me ∈ s.items ∧
    ∀ i, (s.notifiers i).isRunning = false

/-- What holds after every step. The condition is true as soon as a notifier has begun, so that
nobody enters the queue after that; and a notifier that returns leaves the queue empty or the task
runnable. -/
structure Inv (me : TaskId) (s : System ν) : Prop where
  len_eq : s.len = s.items.length
  items : ∀ t ∈ s.items, t = me
  condition : ∀ i, s.notifiers i ≠ .idle → s.condition = true
  unblocking : ∀ i t, s.notifiers i = .unblocking t → t = me
  returned : ∀ i b, s.notifiers i = .returned b → s.runstate me ≠ .blocked ∨ me ∉ s.items

section Steps

variable {me : TaskId} {s : System ν} {n : Notifier}

/-- Moving one notifier. -/
theorem setNotifier_cases {P : Notifier → Prop} {i : ν} (hn : P n) (h : ∀ j, P (s.notifiers j))
    (j : ν) : P ((s.setNotifier i n).notifiers j) := by
  show P (update s.notifiers i n j)
  rcases eq_or_ne j i with rfl | hne
  · rwa [update_self]
  · rw [update_of_ne hne]
    exact h j

theorem unblock_ne_blocked {r r' : RunState} (h : unblock r = .ok r') : r' ≠ .blocked := by
  rintro rfl
  cases r <;> cases h

omit [DecidableEq ν] in
theorem Inv.stepWaiter (h : Inv me s) : Inv me (s.stepWaiter me) := by
  rw [System.stepWaiter]
  cases hw : s.waiter with
  | looping =>
    show Inv me (s.pushIfFail me)
    rw [System.pushIfFail]
    split_ifs with hcond
    · exact ⟨h.len_eq, h.items, h.condition, h.unblocking, h.returned⟩
    -- The condition is false, so nobody has begun to notify.
    have hidle : ∀ i, s.notifiers i = .idle := fun i =>
      Classical.byContradiction fun hne => hcond (h.condition i hne)
    rw [System.enter]
    cases block (s.runstate me) with
    | error e => exact ⟨h.len_eq, h.items, h.condition, h.unblocking, h.returned⟩
    | ok r => ?_
    refine ⟨?_, ?_, h.condition, h.unblocking, ?_⟩
    · show s.len + 1 = (s.items ++ [me]).length
      rw [length_append, length_singleton, h.len_eq]
    · intro t ht
      rcases mem_append.mp ht with ht | ht
      · exact h.items t ht
      · exact mem_singleton.mp ht
    · intro i b hi
      have hi : s.notifiers i = .returned b := hi
      rw [hidle i] at hi
      cases hi
  | scheduling => exact ⟨h.len_eq, h.items, h.condition, h.unblocking, h.returned⟩
  | returned | panicked => exact h

/-- Moving one notifier keeps the invariant, if it does not return with the task in the queue. -/
theorem Inv.setNotifier {i : ν} (h : Inv me s) (hcond : s.condition = true)
    (hunblocking : ∀ t, n = .unblocking t → t = me)
    (hreturned : ∀ b, n = .returned b → s.runstate me ≠ .blocked ∨ me ∉ s.items) :
    Inv me (s.setNotifier i n) :=
  ⟨h.len_eq, h.items, fun _ _ => hcond,
    setNotifier_cases (P := fun n => ∀ t, n = .unblocking t → t = me) hunblocking h.unblocking,
    setNotifier_cases (P := fun n => ∀ b, n = .returned b → _) hreturned h.returned⟩

theorem Inv.stepNotifier (h : Inv me s) (i : ν) : Inv me (s.stepNotifier i) := by
  have hcond : s.notifiers i ≠ .idle → s.condition = true := h.condition i
  rw [System.stepNotifier]
  cases hn : s.notifiers i with
  | idle =>
    have h' : Inv me { s with condition := true } :=
      ⟨h.len_eq, h.items, fun _ _ => rfl, h.unblocking, h.returned⟩
    exact h'.setNotifier rfl (fun t ht => by cases ht) (fun b hb => by cases hb)
  | calling =>
    have hcond := hcond (by simp [hn])
    show Inv me (s.setNotifier i (if s.len = 0 then .returned false else .popping))
    split_ifs with hlen
    · refine h.setNotifier hcond (fun t ht => by cases ht) fun b _ => .inr ?_
      rw [length_eq_zero_iff.mp (h.len_eq.symm.trans hlen)]
      exact not_mem_nil
    · exact h.setNotifier hcond (fun t ht => by cases ht) (fun b hb => by cases hb)
  | popping =>
    have hcond := hcond (by simp [hn])
    cases hitems : s.items with
    | nil =>
      show Inv me (s.setNotifier i (.returned false))
      refine h.setNotifier hcond (fun t ht => by cases ht) fun b _ => .inr ?_
      rw [hitems]
      exact not_mem_nil
    | cons t rest => ?_
    have hsub : ∀ t' ∈ rest, t' ∈ s.items := fun t' ht' => by
      rw [hitems]
      exact mem_cons_of_mem t ht'
    have h' : Inv me { s with items := rest, len := s.len - 1 } := by
      refine ⟨?_, fun t' ht' => h.items t' (hsub t' ht'), h.condition, h.unblocking,
        fun j b hj => (h.returned j b hj).imp_right fun hnot hmem => hnot (hsub me hmem)⟩
      show s.len - 1 = rest.length
      rw [h.len_eq, hitems, length_cons, Nat.add_sub_cancel]
    refine h'.setNotifier hcond (fun t' ht' => ?_) (fun b hb => by cases hb)
    obtain rfl : t = t' := Notifier.unblocking.inj ht'
    exact h.items t (by rw [hitems]; exact mem_cons_self)
  | unblocking t =>
    have hcond := hcond (by simp [hn])
    obtain rfl : t = me := h.unblocking i t hn
    dsimp only
    cases hr : unblock (s.runstate t) with
    | error e =>
      show Inv t (s.setNotifier i .calling)
      exact h.setNotifier hcond (fun t ht => by cases ht) (fun b hb => by cases hb)
    | ok r => ?_
    have hrun : update s.runstate t r t ≠ .blocked := by
      rw [update_self]
      exact unblock_ne_blocked hr
    have h' : Inv t { s with runstate := update s.runstate t r } :=
      ⟨h.len_eq, h.items, h.condition, h.unblocking, fun _ _ _ => .inl hrun⟩
    exact h'.setNotifier hcond (fun t ht => by cases ht) fun b _ => .inl hrun
  | returned b => exact h

theorem Inv.step (h : Inv me s) (a : Actor ν) : Inv me (WaitQueue.step me s a) := by
  cases a with
  | waiter => exact h.stepWaiter
  | notifier i => exact h.stepNotifier i

omit [DecidableEq ν] in
theorem inv_start (me : TaskId) : Inv me (start ν) :=
  ⟨rfl, forall_mem_nil _, fun _ hne => absurd rfl hne,
    fun _ _ ht => (by cases ht), fun _ _ hb => by cases hb⟩

end Steps

/-- **No wake-up is lost**: in no run does the waiting task stay blocked in the queue after a
`notify_one` has returned and none is running. -/
theorem no_lostWakeup {ν : Type*} [DecidableEq ν] (me : TaskId) (actors : List (Actor ν)) :
    ¬LostWakeup me (run (step me) (start ν) actors) := by
  rintro ⟨⟨i, b, hi⟩, hblocked, hmem, -⟩
  have hinv := run_invariant (fun _ a h => h.step a) (inv_start me) actors
  rcases hinv.returned i b hi with h | h
  · exact h hblocked
  · exact h hmem

/-! ### The section under the lock, in two steps

The length is read without the lock. If a notifier can make the condition true and read the length
while the waiting task is between its test and its entry into the queue, it finds nobody there. -/

/-- A system in which the waiting task may hold the lock, after it found the condition false. -/
structure Finer (ν : Type*) where
  sys : System ν
  tested : Bool

/-- As `step`, with the test of the condition as a step of its own. A notifier that needs the lock
waits until it is free. -/
def finerStep (me : TaskId) (f : Finer ν) : Actor ν → Finer ν
  | .waiter =>
    match f.sys.waiter with
    | .looping =>
      if f.tested then ⟨f.sys.enter me, false⟩
      else if f.sys.condition then ⟨{ f.sys with waiter := .returned }, false⟩
      else ⟨f.sys, true⟩
    | _ => ⟨f.sys.stepWaiter me, f.tested⟩
  | .notifier i =>
    if f.tested = true ∧ f.sys.notifiers i = .popping then f
    else ⟨f.sys.stepNotifier i, f.tested⟩

/-- A notifier that comes between the test and the entry into the queue is lost. -/
theorem lostWakeup_between_test_and_push (me : TaskId) :
    LostWakeup me (run (finerStep me) ⟨start Unit, false⟩
      [.waiter, .notifier (), .notifier (), .waiter]).sys := by
  refine ⟨⟨(), false, rfl⟩, ?_, mem_singleton.mpr rfl, fun _ => rfl⟩
  exact update_self me RunState.blocked fun _ => RunState.runnable

end Maios.WaitQueue
