import Mathlib.Data.List.Perm.Basic
import Mathlib.Order.Basic
import Mathlib.Tactic.Common

/-!
# The priority scheduler

The `scheduler_priority` crate: a binary heap of tasks, from which the next task to run is taken by
a scan for the greatest runnable one. The scan leaves out the task that is running. When that task
is still runnable and no other runnable task is as good, a worse one is chosen, or the idle task.

A heap promises nothing about the order in which it gives its tasks out, so `drain` is any function
that permutes them.

## Main results

* `next_strict_iff` — the next task is right if and only if the running one is not needed
-/

namespace Maios.PriorityScheduler

open List

abbrev TaskId := ℕ

/-- A task of the queue. -/
structure PriorityTaskRef where
  task : TaskId
  priority : ℕ
  lastRan : ℕ
  deriving DecidableEq, Repr

/-- `Ord for PriorityTaskRef`: among tasks of equal priority, the one that ran longest ago is the
greatest. -/
def PriorityTaskRef.cmp (self other : PriorityTaskRef) : Ordering :=
  match compare self.priority other.priority with
  | .eq => compare other.lastRan self.lastRan
  | ordering => ordering

/-- `max_by`: of several greatest values, the last. -/
def maxBy {α : Type} (cmp : α → α → Ordering) : List α → Option α
  | [] => none
  | x :: l => some (l.foldl (fun x y => if cmp x y = .gt then x else y) x)

structure Scheduler where
  idleTask : TaskId
  queue : List PriorityTaskRef

/-- `next`: the task to run, and the queue afterwards. -/
def next (drain : List PriorityTaskRef → List PriorityTaskRef) (isRunnable : TaskId → Bool)
    (currentId : TaskId) (now : ℕ) (self : Scheduler) : TaskId × Scheduler :=
  let allTasks := drain self.queue
  match maxBy PriorityTaskRef.cmp
      (allTasks.filter fun t => isRunnable t.task && t.task != currentId) with
  | some t =>
    (t.task, { self with queue := allTasks.erase t ++ [{ t with lastRan := now }] })
  | none => (self.idleTask, { self with queue := allTasks })

/-- The second task is to be preferred, or they are equal. -/
def PriorityTaskRef.AtMost (a b : PriorityTaskRef) : Prop :=
  a.priority < b.priority ∨ a.priority = b.priority ∧ b.lastRan ≤ a.lastRan

theorem PriorityTaskRef.cmp_eq_gt_iff {a b : PriorityTaskRef} : a.cmp b = .gt ↔ ¬ a.AtMost b := by
  rw [cmp, AtMost]
  rcases Nat.lt_trichotomy a.priority b.priority with h | h | h
  · simp [Nat.compare_eq_lt.mpr h, h]
  · simp [h, Nat.compare_eq_gt]
  · simp [Nat.compare_eq_gt.mpr h]
    omega

theorem PriorityTaskRef.AtMost.refl (a : PriorityTaskRef) : a.AtMost a := .inr ⟨rfl, Nat.le_refl _⟩

theorem PriorityTaskRef.AtMost.trans {a b c : PriorityTaskRef} (h : a.AtMost b) (h' : b.AtMost c) :
    a.AtMost c := by
  rw [AtMost] at *
  omega

variable (l : List PriorityTaskRef)

open PriorityTaskRef

theorem foldl_max (x : PriorityTaskRef) :
    l.foldl (fun x y => if x.cmp y = .gt then x else y) x ∈ x :: l ∧
      ∀ y ∈ x :: l, y.AtMost (l.foldl (fun x y => if x.cmp y = .gt then x else y) x) := by
  induction l generalizing x with
  | nil =>
    refine ⟨mem_singleton_self x, fun y hy => ?_⟩
    cases mem_singleton.mp hy
    exact .refl x
  | cons z l ih =>
    rw [foldl_cons]
    obtain ⟨hmem, hmax⟩ := ih (if x.cmp z = .gt then x else z)
    have hstep : x.AtMost (if x.cmp z = .gt then x else z) ∧
        z.AtMost (if x.cmp z = .gt then x else z) := by
      split_ifs with h <;> rw [cmp_eq_gt_iff] at h
      · rw [PriorityTaskRef.AtMost] at h
        exact ⟨.refl x, by rw [PriorityTaskRef.AtMost]; omega⟩
      · exact ⟨not_not.mp h, .refl z⟩
    refine ⟨?_, fun y hy => ?_⟩
    · rcases mem_cons.mp hmem with heq | hl
      · rw [heq]
        split_ifs <;> simp
      · exact mem_cons_of_mem _ (mem_cons_of_mem _ hl)
    · have hbest := hmax _ mem_cons_self
      rcases mem_cons.mp hy with rfl | hy
      · exact hstep.1.trans hbest
      · rcases mem_cons.mp hy with rfl | hy
        · exact hstep.2.trans hbest
        · exact hmax y (mem_cons_of_mem _ hy)

theorem maxBy_cases :
    l = [] ∧ maxBy cmp l = none ∨
      ∃ t ∈ l, maxBy cmp l = some t ∧ ∀ t' ∈ l, t'.AtMost t := by
  cases l with
  | nil => exact .inl ⟨rfl, rfl⟩
  | cons x l => exact .inr ⟨_, (foldl_max l x).1, rfl, (foldl_max l x).2⟩

section Next

variable (isRunnable : TaskId → Bool) (queue : List PriorityTaskRef)

/-- A runnable task of the queue to which none is to be preferred. -/
def Greatest (t : PriorityTaskRef) : Prop :=
  (t ∈ queue ∧ isRunnable t.task = true) ∧
    ∀ t' ∈ queue, isRunnable t'.task = true → t'.AtMost t

/-- The right choice: a greatest runnable task, or the idle task if none is runnable. -/
def Chooses (idleTask chosen : TaskId) : Prop :=
  (∃ t, Greatest isRunnable queue t ∧ t.task = chosen) ∨
    chosen = idleTask ∧ ∀ t ∈ queue, isRunnable t.task = false

/-- The task that is running is not needed: another one is a greatest runnable task, or there is
none, or the task that is running is the idle task itself. -/
def CurrentUnneeded (currentId idleTask : TaskId) : Prop :=
  (∃ t, Greatest isRunnable queue t ∧ t.task ≠ currentId) ∨
    ∀ t ∈ queue, isRunnable t.task = true → t.task = currentId ∧ currentId = idleTask

/-- **The next task is the right one if and only if the running task is not needed**, and no task
is lost or added. -/
theorem next_strict_iff {drain : List PriorityTaskRef → List PriorityTaskRef}
    (hdrain : ∀ l, (drain l).Perm l) (isRunnable : TaskId → Bool) (currentId : TaskId) (now : ℕ)
    (s : Scheduler) :
    (((next drain isRunnable currentId now s).2.queue.map PriorityTaskRef.task).Perm
        (s.queue.map PriorityTaskRef.task) ∧
      Chooses isRunnable s.queue s.idleTask (next drain isRunnable currentId now s).1) ↔
    CurrentUnneeded isRunnable s.queue currentId s.idleTask := by
  have hmem {t : PriorityTaskRef} : t ∈ (drain s.queue).filter
      (fun t => isRunnable t.task && t.task != currentId) ↔
        (t ∈ s.queue ∧ isRunnable t.task = true) ∧ t.task ≠ currentId := by
    rw [mem_filter, (hdrain s.queue).mem_iff]
    simp [and_assoc]
  rw [next]
  rcases maxBy_cases ((drain s.queue).filter fun t => isRunnable t.task && t.task != currentId) with
    ⟨hnil, hmax⟩ | ⟨t, ht, hmax, hgreatest⟩ <;> simp only [hmax]
  · -- every runnable task of the queue is the one that is running
    have hcurrent : ∀ t ∈ s.queue, isRunnable t.task = true → t.task = currentId := by
      intro t ht hrun
      by_contra hne
      exact not_mem_nil (hnil ▸ hmem.mpr ⟨⟨ht, hrun⟩, hne⟩)
    refine ⟨fun h => .inr fun t ht hrun => ⟨hcurrent t ht hrun, ?_⟩, fun h => ⟨(hdrain _).map _, ?_⟩⟩
    · rcases h.2 with ⟨t', ⟨ht', -⟩, htask⟩ | ⟨-, hnone⟩
      · exact (hcurrent t' ht'.1 ht'.2).symm.trans htask
      · cases (hnone t ht).symm.trans hrun
    · rcases maxBy_cases (s.queue.filter fun t => isRunnable t.task) with
        ⟨hempty, -⟩ | ⟨t, ht, -, hgreatest⟩
      · refine .inr ⟨rfl, fun t ht => ?_⟩
        by_contra hrun
        rw [Bool.not_eq_false] at hrun
        exact not_mem_nil (hempty ▸ mem_filter.mpr ⟨ht, hrun⟩)
      have hrun := mem_filter.mp ht
      refine .inl ⟨t, ⟨hrun, fun t' ht' hrun' =>
        hgreatest t' (mem_filter.mpr ⟨ht', hrun'⟩)⟩, ?_⟩
      rcases h with ⟨t', ⟨ht', -⟩, hne⟩ | hidle
      · exact absurd (hcurrent t' ht'.1 ht'.2) hne
      · obtain ⟨htask, hid⟩ := hidle t hrun.1 hrun.2
        exact htask.trans hid
  · obtain ⟨hrun, hne⟩ := hmem.mp ht
    refine ⟨fun h => ?_, fun h => ⟨?_, .inl ⟨t, ⟨hrun, fun t' ht' hrun' => ?_⟩, rfl⟩⟩⟩
    · rcases h.2 with ⟨t', hgreat, htask⟩ | ⟨-, hnone⟩
      · exact .inl ⟨t', hgreat, htask ▸ hne⟩
      · cases (hnone t hrun.1).symm.trans hrun.2
    · have herase := (perm_cons_erase ((hdrain s.queue).mem_iff.mpr hrun.1)).symm
      have hqueue := (herase.trans (hdrain s.queue)).map task
      refine Perm.trans ?_ hqueue
      rw [map_append]
      exact perm_append_comm
    · rcases h with ⟨g, ⟨hg, hbest⟩, hgne⟩ | hidle
      · exact (hbest t' ht' hrun').trans (hgreatest g (hmem.mpr ⟨hg, hgne⟩))
      · exact absurd (hidle t hrun.1 hrun.2).1 hne

/-- Of two runnable tasks, the one of the higher priority is next. -/
theorem next_strict_two :
    Chooses (fun _ => true) [⟨1, 3, 0⟩, ⟨2, 7, 0⟩] 0
      (next id (fun _ => true) 5 9 ⟨0, [⟨1, 3, 0⟩, ⟨2, 7, 0⟩]⟩).1 :=
  ((next_strict_iff (fun _ => .rfl) (fun _ => true) 5 9 ⟨0, [⟨1, 3, 0⟩, ⟨2, 7, 0⟩]⟩).mpr
    (.inl ⟨⟨2, 7, 0⟩, ⟨⟨by decide, rfl⟩, by simp [PriorityTaskRef.AtMost]⟩, by decide⟩)).2

/-- The only runnable task is running, and the idle task is next. -/
theorem next_passes_over :
    (next id (fun _ => true) 1 9 ⟨0, [⟨1, 3, 0⟩]⟩).1 = 0 ∧
      ¬ Chooses (fun _ => true) [⟨1, 3, 0⟩] 0
        (next id (fun _ => true) 1 9 ⟨0, [⟨1, 3, 0⟩]⟩).1 := by
  have hnext : (next id (fun _ => true) 1 9 ⟨0, [⟨1, 3, 0⟩]⟩).1 = 0 := by decide
  refine ⟨hnext, ?_⟩
  simp [hnext, Chooses, Greatest]

end Next

end Maios.PriorityScheduler
