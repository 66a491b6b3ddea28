import Mathlib.Data.Nat.Basic
import Mathlib.Data.Prod.Lex
import Mathlib.Logic.Function.Basic
import Mathlib.Tactic.Common
import Maios.Library.Word

/-!
# Tasks as the scheduler sees them

The scheduling data of a task (`TaskSchedInfo` and the runstate of `Task`), the weight tables, and
the store of all tasks. A `TaskRef` is a shared reference, so the queues hold task ids and the
data lives in one store that every operation reads and updates.

Virtual times and nanoseconds are `u64`; they are natural numbers here, and an addition or
multiplication that can overflow is reduced modulo `2 ^ 64` (`wrap`).
-/

namespace Maios.Sched

/-! ### Constants -/

/-- `SCHED_MIN_GRANULARITY_NS` -/
def schedMinGranularityNs : ℕ := 750000

/-- `SCHED_LATENCY_NS` -/
def schedLatencyNs : ℕ := 6000000

/-- `SCHED_DL_BANDWIDTH_NUM` -/
def schedDlBandwidthNum : ℕ := 95

/-- `RT_PRIO_LEVELS` -/
def rtPrioLevels : ℕ := 100

/-- `RT_RR_TIMESLICE_NS` -/
def rtRrTimesliceNs : ℕ := 100000000

/-- `NICE_TO_WEIGHT` -/
def niceToWeight : List ℕ :=
  [88761, 71755, 56483, 46273, 36291,
   29154, 23254, 18705, 14949, 11916,
   9548, 7620, 6100, 4904, 3906,
   3121, 2501, 1991, 1586, 1277,
   1024, 820, 655, 526, 423,
   335, 272, 215, 172, 137,
   110, 87, 70, 56, 45,
   36, 29, 23, 18, 15]

/-- `NICE_TO_WMULT` -/
def niceToWmult : List ℕ :=
  [48388, 59856, 76040, 92818, 118348,
   147320, 184698, 229616, 287308, 360437,
   449829, 563644, 704093, 875809, 1099582,
   1376151, 1717300, 2157191, 2708050, 3363326,
   4194304, 5237765, 6557202, 8165337, 10153587,
   12820798, 15790321, 19976592, 24970740, 31350126,
   39045157, 49367440, 61356676, 76695844, 95443717,
   119304647, 148102320, 186737708, 238609294, 286331153]

/-- `nice_to_idx`. The sum is one of `i8` and may wrap around. -/
def niceToIdx (nice : Int8) : ℕ := (max 0 (min 39 (nice + 20))).toNatClampNeg

/-- `weight_for_nice` -/
def weightForNice (nice : Int8) : ℕ := niceToWeight.getD (niceToIdx nice) 0

/-- The inverse weight that `tick` looks up. -/
def wmultForNice (nice : Int8) : ℕ := niceToWmult.getD (niceToIdx nice) 0

/-! ### Scheduling classes -/

inductive SchedClass where
  | idle
  | batch
  | normal
  | compute
  | roundRobin (timesliceNs : ℕ)
  | fifo
  | deadline (runtime deadline period : ℕ)
  deriving DecidableEq, Repr

/-- A class without its data, for dispatch. -/
inductive SchedClassId where
  | deadline
  | compute
  | realTime
  | normal
  | batch
  | idle
  deriving DecidableEq, Repr

/-- `SchedClassExt::class` -/
def SchedClass.classId : SchedClass → SchedClassId
  | .deadline .. => .deadline
  | .compute => .compute
  | .fifo => .realTime
  | .roundRobin _ => .realTime
  | .normal => .normal
  | .batch => .batch
  | .idle => .idle

def SchedClass.isRoundRobin : SchedClass → Bool
  | .roundRobin _ => true
  | _ => false

inductive RunState where
  | initing
  | runnable
  | blocked
  | exited
  deriving DecidableEq, Repr

/-! ### Tasks -/

/-- The scheduling data that MKS reads and writes. -/
structure TaskSchedInfo where
  vruntime : ℕ := 0
  ve : ℕ := 0
  vdeadline : ℕ := 0
  weight : ℕ := 1024
  nice : Int8 := 0
  rtPriority : ℕ := 0
  rrTimesliceRemaining : ℕ := 100000000
  pinnedCpu : Option ℕ := none
  policy : SchedClass := .normal
  lastCpu : ℕ := 0
  onRq : Bool := false
  execRuntime : ℕ := 0
  deriving DecidableEq, Repr

structure Task where
  sched : TaskSchedInfo := {}
  runstate : RunState := .runnable
  deriving DecidableEq, Repr

abbrev TaskId := ℕ

/-- `VtKey`: a time, with the task id to break ties. -/
abbrev VtKey := ℕ ×ₗ TaskId

def vtKey (time : ℕ) (t : TaskId) : VtKey := toLex (time, t)

/-- The task id of a key. -/
def VtKey.taskId (key : VtKey) : TaskId := (ofLex key).2

@[simp] theorem taskId_vtKey (time : ℕ) (t : TaskId) : (vtKey time t).taskId = t := rfl

/-- All tasks, by id. -/
abbrev Tasks := TaskId → Task

namespace Tasks

/-- Change the scheduling data of one task. -/
def modifySched (tasks : Tasks) (t : TaskId) (f : TaskSchedInfo → TaskSchedInfo) : Tasks :=
  Function.update tasks t { tasks t with sched := f (tasks t).sched }

theorem modifySched_self (tasks : Tasks) (t : TaskId) (f : TaskSchedInfo → TaskSchedInfo) :
    (tasks.modifySched t f t).sched = f (tasks t).sched := by
  rw [modifySched, Function.update_self]

theorem modifySched_of_ne (tasks : Tasks) {t t' : TaskId} (f : TaskSchedInfo → TaskSchedInfo)
    (h : t' ≠ t) : tasks.modifySched t f t' = tasks t' := by
  rw [modifySched, Function.update_of_ne h]

/-- What `f` does not change of the scheduling data, no task loses. -/
theorem modifySched_field {β : Type} (field : TaskSchedInfo → β) (tasks : Tasks) (t t' : TaskId)
    {f : TaskSchedInfo → TaskSchedInfo} (h : ∀ s, field (f s) = field s) :
    field (tasks.modifySched t f t').sched = field (tasks t').sched := by
  obtain rfl | ht := eq_or_ne t' t
  · rw [modifySched_self, h]
  · rw [modifySched_of_ne tasks f ht]

end Tasks

end Maios.Sched
