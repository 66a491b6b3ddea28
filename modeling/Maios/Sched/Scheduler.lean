import Mathlib.Data.List.Sort
import Maios.Sched.Eevdf
import Maios.Sched.Realtime

/-!
# The kernel scheduler

A `PerCpuRunQueue` has one queue per class; `MaiScheduler` has one `PerCpuRunQueue` per CPU, places
tasks on CPUs, picks the next task of a CPU and steals a task for it when it has none.

`monotonic_ns()` is an argument of the operations that read it. An index out of range stops the
kernel; operations that index by a CPU return `none` for that. The statistics of a CPU are read by
no operation here and are left out.
-/

namespace Maios.Sched

/-! ## Topology -/

inductive CacheDistance where
  | hyperThread
  | sameCore
  | sameL3
  | crossNuma
  deriving DecidableEq, Repr

/-- The derived order of `CacheDistance`. -/
def CacheDistance.toNat : CacheDistance → ℕ
  | .hyperThread => 0
  | .sameCore => 1
  | .sameL3 => 2
  | .crossNuma => 3

structure CpuInfo where
  logicalId : ℕ
  coreId : ℕ
  packageId : ℕ
  numaNode : ℕ
  l3Group : ℕ
  deriving DecidableEq, Repr

structure CpuTopology where
  cpus : List CpuInfo
  /-- For each CPU the others, nearest first. -/
  stealOrders : List (List ℕ)
  deriving DecidableEq, Repr

namespace CpuTopology

/-- `distance` -/
def distance (a b : CpuInfo) : CacheDistance :=
  if a.numaNode ≠ b.numaNode then .crossNuma
  else if a.l3Group ≠ b.l3Group then .crossNuma
  else if a.coreId ≠ b.coreId then .sameL3
  else .hyperThread

/-- Nearer CPUs first, and those at the same distance by number. -/
def nearer (a b : CacheDistance × ℕ) : Prop :=
  a.1.toNat < b.1.toNat ∨ a.1.toNat = b.1.toNat ∧ a.2 ≤ b.2

instance (a b : CacheDistance × ℕ) : Decidable (nearer a b) :=
  inferInstanceAs (Decidable (_ ∨ _ ∧ _))

/-- `from_cpus` -/
def fromCpus (cpus : List CpuInfo) : CpuTopology where
  cpus := cpus
  stealOrders := cpus.zipIdx.map fun me =>
    let others := (cpus.zipIdx.filter fun other => decide (other.2 ≠ me.2)).map fun other =>
      (distance me.1 other.1, other.2)
    (others.insertionSort nearer).map Prod.snd

/-- `uniform` -/
def uniform (numCpus : ℕ) : CpuTopology :=
  fromCpus ((List.range numCpus).map fun i => ⟨i, i / 2, 0, 0, 0⟩)

/-- `cpu_to_numa` -/
def cpuToNuma (topo : CpuTopology) (cpu : ℕ) : ℕ :=
  match topo.cpus[cpu]? with
  | some c => c.numaNode
  | none => 0

/-- `steal_order` -/
def stealOrder (topo : CpuTopology) (cpuId : ℕ) : List ℕ := topo.stealOrders.getD cpuId []

end CpuTopology

/-! ## One CPU -/

structure IdleRunQueue where
  idleTask : Option TaskId

structure PerCpuRunQueue where
  cpuId : ℕ
  deadlineRq : DeadlineRunQueue
  rtRq : RtRunQueue
  cfsRq : EevdfRunQueue
  idleRq : IdleRunQueue
  loadCount : ℕ
  current : Option TaskId
  needResched : Bool

variable (tasks : Tasks)

namespace PerCpuRunQueue

def new (cpuId : ℕ) : PerCpuRunQueue :=
  ⟨cpuId, .new, .new, .new, ⟨none⟩, 0, none, false⟩

/-- `enqueue`. A refused deadline task is dropped, and counted. -/
def enqueue (tasks : Tasks) (rq : PerCpuRunQueue) (t : TaskId) (nowNs : ℕ) :
    Tasks × PerCpuRunQueue :=
  let loadCount := wrap (rq.loadCount + 1)
  match (tasks t).sched.policy.classId with
  | .deadline =>
    match rq.deadlineRq.enqueue tasks t nowNs with
    | .ok q => (tasks, { rq with deadlineRq := q, loadCount := loadCount })
    | .error _ => (tasks, { rq with loadCount := loadCount })
  | .realTime => (tasks, { rq with rtRq := rq.rtRq.enqueue tasks t, loadCount := loadCount })
  | .compute | .normal | .batch =>
    let r := rq.cfsRq.enqueue tasks t true
    (r.1, { rq with cfsRq := r.2, loadCount := loadCount })
  | .idle => (tasks, { rq with idleRq := ⟨some t⟩ })

/-- `dequeue` -/
def dequeue (tasks : Tasks) (rq : PerCpuRunQueue) (t : TaskId) : Tasks × PerCpuRunQueue :=
  let loadCount := wrapSub rq.loadCount 1
  match (tasks t).sched.policy.classId with
  | .deadline =>
    (tasks, { rq with deadlineRq := rq.deadlineRq.dequeue tasks t, loadCount := loadCount })
  | .realTime => (tasks, { rq with rtRq := rq.rtRq.dequeue t, loadCount := loadCount })
  | .compute | .normal | .batch =>
    let r := rq.cfsRq.dequeue tasks t
    (r.1, { rq with cfsRq := r.2, loadCount := loadCount })
  | .idle => (tasks, rq)

/-- `tick` -/
def tick (tasks : Tasks) (rq : PerCpuRunQueue) (elapsedNs : ℕ) : Tasks × PerCpuRunQueue :=
  match rq.current with
  | none => (tasks, rq)
  | some current =>
    match (tasks current).sched.policy.classId with
    | .deadline =>
      let r := rq.deadlineRq.tick current elapsedNs
      (tasks, { rq with deadlineRq := r.2, needResched := rq.needResched || r.1 })
    | .realTime =>
      let r := RtRunQueue.tick tasks current elapsedNs
      (r.2, { rq with needResched := rq.needResched || r.1 })
    | .compute | .normal | .batch =>
      let r := rq.cfsRq.tick tasks current elapsedNs
      (r.2.1, { rq with cfsRq := r.2.2, needResched := rq.needResched || r.1 })
    | .idle => (tasks, rq)

/-- `yield_current` -/
def yieldCurrent (tasks : Tasks) (rq : PerCpuRunQueue) (nowNs : ℕ) : Tasks × PerCpuRunQueue :=
  let idle := { rq with current := none }
  match rq.current with
  | some t => if (tasks t).runstate = .runnable then enqueue tasks idle t nowNs else (tasks, idle)
  | none => (tasks, idle)

/-- `set_current` -/
def setCurrent (tasks : Tasks) (rq : PerCpuRunQueue) (t : TaskId) : Tasks × PerCpuRunQueue :=
  (tasks.modifySched t fun s => { s with lastCpu := rq.cpuId },
    { rq with current := some t, needResched := false })

/-- `steal_one` -/
def stealOne (tasks : Tasks) (rq : PerCpuRunQueue) : Option TaskId × PerCpuRunQueue :=
  match rq.cfsRq.stealOne tasks with
  | (some t, q) => (some t, { rq with cfsRq := q, loadCount := wrapSub rq.loadCount 1 })
  | (none, q) => (none, { rq with cfsRq := q })

/-- `load` -/
def load (rq : PerCpuRunQueue) : ℕ := rq.loadCount

/-- The first three stages of `MaiScheduler::pick_next`: deadline, real-time and normal tasks of
this CPU. -/
def pickLocal (tasks : Tasks) (rq : PerCpuRunQueue) : Option TaskId × PerCpuRunQueue :=
  let dl := rq.deadlineRq.pickNext tasks
  if dl.1.isSome then (dl.1, { rq with deadlineRq := dl.2 })
  else
    let rt := rq.rtRq.pickNext tasks
    if rt.1.isSome then (rt.1, { rq with deadlineRq := dl.2, rtRq := rt.2 })
    else
      let cfs := rq.cfsRq.pickNext tasks
      (cfs.1, { rq with deadlineRq := dl.2, rtRq := rt.2, cfsRq := cfs.2 })

/-! ### What an operation can do -/

variable (rq : PerCpuRunQueue)

theorem enqueue_cases (t : TaskId) (nowNs : ℕ) :
    (∃ q n, rq.deadlineRq.enqueue tasks t nowNs = .ok q ∧
      enqueue tasks rq t nowNs = (tasks, { rq with deadlineRq := q, loadCount := n })) ∨
    (∃ e n, (tasks t).sched.policy.classId = .deadline ∧
      rq.deadlineRq.enqueue tasks t nowNs = .error e ∧
      enqueue tasks rq t nowNs = (tasks, { rq with loadCount := n })) ∨
    (∃ n, enqueue tasks rq t nowNs =
      (tasks, { rq with rtRq := rq.rtRq.enqueue tasks t, loadCount := n })) ∨
    (∃ n, enqueue tasks rq t nowNs = ((rq.cfsRq.enqueue tasks t true).1,
      { rq with cfsRq := (rq.cfsRq.enqueue tasks t true).2, loadCount := n })) ∨
    (tasks t).sched.policy.classId = .idle := by
  rw [enqueue]
  cases hclass : (tasks t).sched.policy.classId with
  | deadline =>
    cases hok : rq.deadlineRq.enqueue tasks t nowNs with
    | ok q => exact .inl ⟨q, _, rfl, rfl⟩
    | error e => exact .inr (.inl ⟨e, _, rfl, rfl, rfl⟩)
  | realTime => exact .inr (.inr (.inl ⟨_, rfl⟩))
  | compute | normal | batch => exact .inr (.inr (.inr (.inl ⟨_, rfl⟩)))
  | idle => exact .inr (.inr (.inr (.inr rfl)))

theorem dequeue_cases (t : TaskId) :
    (∃ n, dequeue tasks rq t =
      (tasks, { rq with deadlineRq := rq.deadlineRq.dequeue tasks t, loadCount := n })) ∨
    (∃ n, dequeue tasks rq t = (tasks, { rq with rtRq := rq.rtRq.dequeue t, loadCount := n })) ∨
    (∃ n, dequeue tasks rq t = ((rq.cfsRq.dequeue tasks t).1,
      { rq with cfsRq := (rq.cfsRq.dequeue tasks t).2, loadCount := n })) ∨
    dequeue tasks rq t = (tasks, rq) := by
  rw [dequeue]
  cases (tasks t).sched.policy.classId with
  | deadline => exact .inl ⟨_, rfl⟩
  | realTime => exact .inr (.inl ⟨_, rfl⟩)
  | compute | normal | batch => exact .inr (.inr (.inl ⟨_, rfl⟩))
  | idle => exact .inr (.inr (.inr rfl))

theorem tick_cases (elapsedNs : ℕ) :
    tick tasks rq elapsedNs = (tasks, rq) ∨
    ∃ t b, tick tasks rq elapsedNs =
        (tasks, { rq with deadlineRq := (rq.deadlineRq.tick t elapsedNs).2, needResched := b }) ∨
      tick tasks rq elapsedNs =
        ((RtRunQueue.tick tasks t elapsedNs).2, { rq with needResched := b }) ∨
      tick tasks rq elapsedNs = ((rq.cfsRq.tick tasks t elapsedNs).2.1,
        { rq with cfsRq := (rq.cfsRq.tick tasks t elapsedNs).2.2, needResched := b }) := by
  rw [tick]
  cases rq.current with
  | none => exact .inl rfl
  | some t => ?_
  dsimp only
  cases (tasks t).sched.policy.classId with
  | deadline => exact .inr ⟨t, _, .inl rfl⟩
  | realTime => exact .inr ⟨t, _, .inr (.inl rfl)⟩
  | compute | normal | batch => exact .inr ⟨t, _, .inr (.inr rfl)⟩
  | idle => exact .inl rfl

end PerCpuRunQueue

/-! ## All CPUs -/

structure MaiScheduler where
  /-- The run queues by CPU. -/
  rqs : List PerCpuRunQueue
  topology : CpuTopology
  numCpus : ℕ
  globalTaskCount : ℕ
  rqs_length : rqs.length = numCpus

namespace MaiScheduler

def new (numCpus : ℕ) (topology : CpuTopology) : MaiScheduler where
  rqs := (List.range numCpus).map PerCpuRunQueue.new
  topology := topology
  numCpus := numCpus
  globalTaskCount := 0
  rqs_length := by rw [List.length_map, List.length_range]

/-- Replace the run queue of a CPU. -/
def setRq (s : MaiScheduler) (cpu : ℕ) (rq : PerCpuRunQueue) : MaiScheduler :=
  { s with
    rqs := s.rqs.set cpu rq
    rqs_length := by rw [List.length_set, s.rqs_length] }

/-- The load of a CPU. -/
def loadOf (s : MaiScheduler) (cpu : ℕ) : ℕ :=
  match s.rqs[cpu]? with
  | some rq => rq.load
  | none => 0

/-- `average_load` -/
def averageLoad (s : MaiScheduler) : ℕ :=
  if s.numCpus = 0 then 0 else wrap (s.rqs.map PerCpuRunQueue.load).sum / s.numCpus

/-- The search of `select_cpu_for_task` for the CPU with the least load, with a discount for the
CPUs of one NUMA node. The accumulator is the best CPU so far and its load. -/
def bestCpu (s : MaiScheduler) (preferredNode : ℕ) : ℕ :=
  ((List.range s.numCpus).foldl (fun best cpu =>
    let load := s.loadOf cpu
    let adjusted := if s.topology.cpuToNuma cpu = preferredNode then wrap (load * 4) / 5 else load
    if adjusted < best.2 then (cpu, adjusted) else best) (0, 2 ^ 64 - 1)).1

/-- `select_cpu_for_task` -/
def selectCpuForTask (tasks : Tasks) (s : MaiScheduler) (t : TaskId) : ℕ :=
  match (tasks t).sched.pinnedCpu with
  | some cpu => min cpu (s.numCpus - 1)
  | none =>
    let lastCpu := (tasks t).sched.lastCpu
    if lastCpu < s.numCpus ∧ s.loadOf lastCpu ≤ wrap (s.averageLoad + 1) then lastCpu
    else s.bestCpu (s.topology.cpuToNuma lastCpu)

/-- `enqueue` -/
def enqueue (tasks : Tasks) (s : MaiScheduler) (t : TaskId) (nowNs : ℕ) :
    Option (Tasks × MaiScheduler) :=
  let cpu := selectCpuForTask tasks s t
  match s.rqs[cpu]? with
  | some rq =>
    let r := rq.enqueue tasks t nowNs
    some (r.1, { s.setRq cpu r.2 with globalTaskCount := wrap (s.globalTaskCount + 1) })
  | none => none

/-- `dequeue` -/
def dequeue (tasks : Tasks) (s : MaiScheduler) (t : TaskId) : Tasks × MaiScheduler :=
  let cpu := (tasks t).sched.lastCpu
  let globalTaskCount := wrapSub s.globalTaskCount 1
  match s.rqs[cpu]? with
  | some rq =>
    let r := rq.dequeue tasks t
    (r.1, { s.setRq cpu r.2 with globalTaskCount := globalTaskCount })
  | none => (tasks, { s with globalTaskCount := globalTaskCount })

/-- The loop of `steal_task` over the steal order. -/
def stealFrom (tasks : Tasks) (thief : ℕ) (s : MaiScheduler) : List ℕ → Option TaskId × MaiScheduler
  | [] => (none, s)
  | victim :: order =>
    if victim = thief then stealFrom tasks thief s order
    else
      match s.rqs[victim]? with
      | some rq =>
        if 2 ≤ rq.load then
          let r := rq.stealOne tasks
          if r.1.isSome then (r.1, s.setRq victim r.2) else stealFrom tasks thief s order
        else stealFrom tasks thief s order
      | none => stealFrom tasks thief s order

/-- What the search for a task to steal can do. -/
theorem stealFrom_cases (thief : ℕ) (s : MaiScheduler) (order : List ℕ) :
    stealFrom tasks thief s order = (none, s) ∨
    ∃ victim rq, victim ≠ thief ∧ s.rqs[victim]? = some rq ∧
      stealFrom tasks thief s order =
        ((rq.stealOne tasks).1, s.setRq victim (rq.stealOne tasks).2) := by
  induction order with
  | nil => exact .inl rfl
  | cons victim order ih =>
    rw [stealFrom]
    split_ifs with hthief
    · exact ih
    cases hrq : s.rqs[victim]? with
    | none => exact ih
    | some rq =>
      dsimp only
      split_ifs with hload hsome
      · exact .inr ⟨victim, rq, hthief, hrq, rfl⟩
      · exact ih
      · exact ih

/-- `steal_task` -/
def stealTask (tasks : Tasks) (s : MaiScheduler) (thief : ℕ) : Option TaskId × MaiScheduler :=
  stealFrom tasks thief s (s.topology.stealOrder thief)

/-- `pick_next` -/
def pickNext (tasks : Tasks) (s : MaiScheduler) (cpu : ℕ) :
    Option (Option TaskId × MaiScheduler) :=
  match s.rqs[cpu]? with
  | none => none
  | some rq =>
    let r := rq.pickLocal tasks
    let s' := s.setRq cpu r.2
    if r.1.isSome then some (r.1, s')
    else
      let stolen := stealTask tasks s' cpu
      if stolen.1.isSome then some stolen else some (rq.idleRq.idleTask, s')

/-- The data of tasks after the first part of `task_wakeup`: the task is runnable, and at most
half a latency period behind the clock of the CPU. -/
def woken (tasks : Tasks) (s : MaiScheduler) (t : TaskId) (cpu : ℕ) : Tasks :=
  let floor :=
    match s.rqs[cpu]? with
    | some rq => rq.cfsRq.minVruntime - schedLatencyNs / 2
    | none => 0
  Function.update tasks t {
    sched := { (tasks t).sched with vruntime := max (tasks t).sched.vruntime floor }
    runstate := .runnable }

/-- `task_wakeup` -/
def taskWakeup (tasks : Tasks) (s : MaiScheduler) (t : TaskId) (cpu nowNs : ℕ) :
    Option (Tasks × MaiScheduler) :=
  enqueue (woken tasks s t cpu) s t nowNs

/-- `tick` -/
def tick (tasks : Tasks) (s : MaiScheduler) (cpu elapsedNs : ℕ) : Tasks × MaiScheduler :=
  match s.rqs[cpu]? with
  | some rq =>
    let r := rq.tick tasks elapsedNs
    (r.1, s.setRq cpu r.2)
  | none => (tasks, s)

end MaiScheduler

end Maios.Sched
