import Mathlib.Algebra.BigOperators.Field
import Mathlib.Algebra.Order.BigOperators.Group.Finset
import Mathlib.Algebra.Order.Field.Rat
import Mathlib.Tactic.FieldSimp
import Mathlib.Tactic.Linarith
import Maios.Library.Run
import Maios.Sched.Realtime

/-!
# Admission control for deadline tasks

Admission control adds up what the admitted tasks need, in thousandths, and refuses a task when the
sum exceeds 950. Two things are expected of it: that the tasks it admits fit, and that what it adds
up is what they need.

* The tasks fit if every contribution is exact: `runtime * 1000` does not overflow and is a multiple
  of the period, and neither does the sum overflow. Rounding down by less than a thousandth is
  enough to admit a task that needs more than 95 percent.
* The sum is right if a task is counted once. But `enqueue` counts a task whenever it is called,
  also for a task that ran and yields, and `dequeue` gives the bandwidth back only for a task that
  is in the queue, not for one that runs.

The tasks that were admitted and not dequeued are tracked beside the queue. A task has a claim on
bandwidth as often as it is stored, and at least once if it is admitted: `claims` is the union of
two multisets, and every step says what it does to it.

## Main results

* `deadline_admission_sound` — the admitted tasks fit
* `deadline_bandwidth_once` — the sum is right
-/

namespace Maios.Sched

open List DeadlineRunQueue Finset Nat

/-! ### What a task needs -/

/-- The share of a CPU that a task of this class needs. -/
def utilization : SchedClass → ℚ
  | .deadline runtime _ period => runtime / period
  | _ => 0

/-- The same in whole thousandths. -/
def nominal : SchedClass → ℕ
  | .deadline runtime _ period => runtime * 1000 / period
  | _ => 0

/-- What admission control counts for it. -/
def contribution : SchedClass → ℕ
  | .deadline runtime _ period => DeadlineRunQueue.bandwidth runtime period
  | _ => 0

/-- A deadline class with a period. -/
def Periodic : SchedClass → Prop
  | .deadline _ _ period => period ≠ 0
  | _ => False

variable {c : SchedClass} {q q' : DeadlineRunQueue} {t : TaskId} {nowNs : ℕ} {tasks : Tasks}
  {s : DlState}

theorem Periodic.eq_deadline (h : Periodic c) :
    ∃ runtime deadline period, c = .deadline runtime deadline period ∧ period ≠ 0 := by
  cases c with
  | deadline runtime deadline period => exact ⟨_, _, _, rfl, h⟩
  | idle | batch | normal | compute | roundRobin | fifo => exact h.elim

/-- What `dequeue` gives back is what `enqueue` counted. -/
theorem reclaimed_eq (h : Periodic c) : reclaimed c = contribution c := by
  obtain ⟨runtime, deadline, period, rfl, hperiod⟩ := h.eq_deadline
  have hmax : max period 1 = period := max_eq_left (one_le_iff_ne_zero.mpr hperiod)
  rw [reclaimed, hmax, contribution]

/-- The contribution is not rounded and does not overflow. -/
def ContributesExactly : SchedClass → Prop
  | .deadline runtime _ period => period ∣ runtime * 1000 ∧ runtime * 1000 < 2 ^ 64
  | _ => True

instance : (c : SchedClass) → Decidable (ContributesExactly c)
  | .deadline _ _ _ => inferInstanceAs (Decidable (_ ∧ _))
  | .idle | .batch | .normal | .compute | .roundRobin _ | .fifo => isTrue trivial

theorem utilization_eq (h : Periodic c) (hexact : ContributesExactly c) :
    utilization c = contribution c / 1000 := by
  obtain ⟨runtime, deadline, period, rfl, hperiod⟩ := h.eq_deadline
  obtain ⟨⟨n, hn⟩, hlt⟩ := hexact
  have hcontribution : contribution (.deadline runtime deadline period) = n := by
    rw [contribution, bandwidth, wrap, mod_eq_of_lt hlt, hn,
      Nat.mul_div_cancel_left n (pos_of_ne_zero hperiod)]
  rw [hcontribution, utilization]
  have hcast : (runtime : ℚ) * 1000 = period * n := by exact_mod_cast hn
  field_simp
  linarith

/-! ### What the queue does -/

namespace DeadlineRunQueue

open scoped Multiset

/-- An admitted task is stored beside what was stored, or in the place of an entry of its own. -/
theorem enqueue_spec (h : enqueue tasks q t nowNs = .ok q') :
    Periodic (tasks t).sched.policy ∧
      q'.admittedBandwidth = wrap (q.admittedBandwidth + contribution (tasks t).sched.policy) ∧
      q'.admittedBandwidth ≤ maxBandwidth ∧ (q'.stored : Multiset TaskId) ≤ t ::ₘ q.stored := by
  rw [enqueue] at h
  cases hpolicy : (tasks t).sched.policy with rw [hpolicy] at h
  | deadline runtime deadline period =>
    dsimp only at h
    split_ifs at h with hperiod hover
    cases h
    refine ⟨hperiod, rfl, not_lt.mp hover, ?_⟩
    set key := vtKey (wrap (nowNs + deadline)) t
    have hperm := (OrdMap.insert_perm q.tasks key
      ⟨t, wrap (nowNs + deadline), runtime⟩).map fun e => e.2.task
    have hsub : ((q.tasks.remove key).entries.map fun e => e.2.task).Sublist q.stored :=
      filter_sublist.map _
    exact Multiset.coe_le.mpr (hperm.subperm.trans (hsub.cons_cons t).subperm)
  | idle | batch | normal | compute | roundRobin | fifo =>
    cases h

theorem admits_of_enqueue (h : enqueue tasks q t nowNs = .ok q') :
    q.admits (tasks t).sched.policy := by
  obtain ⟨hperiodic, hbandwidth, hlimit, -⟩ := enqueue_spec h
  obtain ⟨runtime, deadline, period, hpolicy, hperiod⟩ := hperiodic.eq_deadline
  rw [hbandwidth, hpolicy] at hlimit
  rw [hpolicy]
  exact ⟨hperiod, hlimit⟩

/-- A task that is found leaves, and its bandwidth is given back. -/
theorem dequeue_spec (h : Wf tasks q)
    (hperiodic : ∀ t ∈ q.stored, Periodic (tasks t).sched.policy) (t : TaskId) :
    (t ∉ q.stored ∧ dequeue tasks q t = q) ∨
    (t ∈ q.stored ∧ (q.stored : Multiset TaskId) = t ::ₘ (dequeue tasks q t).stored ∧
      (dequeue tasks q t).admittedBandwidth =
        q.admittedBandwidth - contribution (tasks t).sched.policy) := by
  rw [dequeue]
  cases hfind : q.findKey t with
  | none =>
    refine .inl ⟨fun hmem => ?_, rfl⟩
    obtain ⟨e, he, rfl⟩ := mem_map.mp hmem
    have hkey := find?_eq_none.mp hfind e he
    exact hkey (decide_eq_true (h.keyed e he))
  | some e => ?_
  obtain ⟨hmem, hid⟩ := findKey_some hfind
  have htask : e.2.task = t := (h.keyed e hmem).symm.trans hid
  have hstored : t ∈ q.stored := mem_map.mpr ⟨e, hmem, htask⟩
  have hperm := (OrdMap.perm_cons_remove hmem).map fun e => e.2.task
  rw [List.map_cons, htask] at hperm
  refine .inr ⟨hstored, Multiset.coe_eq_coe.mpr hperm, ?_⟩
  dsimp only
  rw [htask, reclaimed_eq (hperiodic t hstored)]

theorem stored_dequeue_le (h : Wf tasks q)
    (hperiodic : ∀ t ∈ q.stored, Periodic (tasks t).sched.policy) (t : TaskId) :
    ((dequeue tasks q t).stored : Multiset TaskId) ≤ q.stored := by
  rcases dequeue_spec h hperiodic t with ⟨-, heq⟩ | ⟨-, heq, -⟩ <;> rw [heq]
  exact Multiset.le_cons_self _ _

/-- Picking stores nothing new and leaves the bandwidth. -/
theorem pickNext_spec (h : Wf tasks q) :
    (pickNext tasks q).2.admittedBandwidth = q.admittedBandwidth ∧
      ((pickNext tasks q).2.stored : Multiset TaskId) ≤ q.stored := by
  rcases pickNext_cases h with heq | ⟨key, entry, hmem, ⟨newDeadline, runtime, heq⟩ | heq⟩ <;>
    rw [heq]
  · exact ⟨rfl, le_refl _⟩
  · refine ⟨rfl, Multiset.coe_le.mpr ?_⟩
    have hold := (OrdMap.perm_cons_remove hmem).map fun e => e.2.task
    have hnew := (OrdMap.insert_perm (q.tasks.remove key) (vtKey newDeadline entry.task)
      ⟨entry.task, newDeadline, runtime⟩).map fun e => e.2.task
    have hsub : (((q.tasks.remove key).remove (vtKey newDeadline entry.task)).entries.map
        fun e => e.2.task).Sublist ((q.tasks.remove key).entries.map fun e => e.2.task) :=
      filter_sublist.map _
    exact (hnew.subperm.trans (hsub.cons_cons entry.task).subperm).trans hold.symm.subperm
  · refine ⟨rfl, Multiset.coe_le.mpr ?_⟩
    exact (filter_sublist.map fun e : VtKey × DlTask => e.2.task).subperm

/-- A tick stores nothing new and leaves the bandwidth. -/
theorem tick_spec (q : DeadlineRunQueue) (t : TaskId) (elapsedNs : ℕ) :
    (tick q t elapsedNs).2.admittedBandwidth = q.admittedBandwidth ∧
      ((tick q t elapsedNs).2.stored : Multiset TaskId) ≤ q.stored := by
  refine ⟨?_, Multiset.coe_le.mpr
    (perm_iff_count.mpr fun t' => count_tick q t elapsedNs t').subperm⟩
  rcases tick_cases q t elapsedNs with heq | ⟨key, entry, budget, -, -, heq⟩ <;> rw [heq]

end DeadlineRunQueue

/-! ### Runs -/

/-- A deadline queue with the tasks that were admitted and not dequeued. -/
structure DlState where
  queue : DeadlineRunQueue
  admitted : Finset TaskId

/-- `enqueue` is also how a task that ran comes back when it yields. -/
inductive DlOp where
  | enqueue (t : TaskId) (nowNs : ℕ)
  | dequeue (t : TaskId)
  | pickNext
  | tick (t : TaskId) (elapsedNs : ℕ)

namespace DlState

def new : DlState := ⟨.new, ∅⟩

def step (tasks : Tasks) (s : DlState) : DlOp → DlState
  | .enqueue t nowNs =>
    match s.queue.enqueue tasks t nowNs with
    | .ok q => ⟨q, insert t s.admitted⟩
    | .error _ => s
  | .dequeue t => ⟨s.queue.dequeue tasks t, s.admitted.erase t⟩
  | .pickNext => ⟨(s.queue.pickNext tasks).2, s.admitted⟩
  | .tick t elapsedNs => ⟨(s.queue.tick t elapsedNs).2, s.admitted⟩

/-- The claims on bandwidth: one for each stored entry, and at least one for each admitted task. -/
def claims (s : DlState) : Multiset TaskId := (s.queue.stored : Multiset TaskId) ∪ s.admitted.val

end DlState

/-- What the queue always satisfies: its keys carry ids, and its tasks have periods. -/
structure DlWf (tasks : Tasks) (s : DlState) : Prop where
  queue : s.queue.Wf tasks
  stored : ∀ t ∈ s.queue.stored, Periodic (tasks t).sched.policy
  admitted : ∀ t ∈ s.admitted, Periodic (tasks t).sched.policy

theorem dlWf_new (tasks : Tasks) : DlWf tasks .new :=
  ⟨wf_new tasks, forall_mem_nil _,
    fun t ht => absurd ht (notMem_empty t)⟩

theorem dlWf_step (s : DlState) (op : DlOp) (h : DlWf tasks s) : DlWf tasks (s.step tasks op) := by
  have hmono : ∀ {q : DeadlineRunQueue}, (q.stored : Multiset TaskId) ≤ s.queue.stored →
      ∀ t ∈ q.stored, Periodic (tasks t).sched.policy :=
    fun hle t ht => h.stored t (Multiset.mem_of_le hle ht)
  cases op with
  | enqueue t nowNs =>
    rw [DlState.step]
    cases hok : s.queue.enqueue tasks t nowNs with
    | error e => exact h
    | ok q => ?_
    obtain ⟨hperiodic, -, -, hle⟩ := enqueue_spec hok
    refine ⟨h.queue.evolve (evolves_enqueue hok), fun u hu => ?_, fun u hu => ?_⟩
    · rcases Multiset.mem_cons.mp (Multiset.mem_of_le hle hu) with rfl | hu
      · exact hperiodic
      · exact h.stored u hu
    · rcases mem_insert.mp hu with rfl | hu
      · exact hperiodic
      · exact h.admitted u hu
  | dequeue t =>
    exact ⟨h.queue.evolve (evolves_dequeue t), hmono (stored_dequeue_le h.queue h.stored t),
      fun u hu => h.admitted u (mem_of_mem_erase hu)⟩
  | pickNext =>
    exact ⟨h.queue.evolve evolves_pickNext,
      hmono (DeadlineRunQueue.pickNext_spec h.queue).2, h.admitted⟩
  | tick t elapsedNs =>
    exact ⟨h.queue.evolve (evolves_tick t elapsedNs),
      hmono (tick_spec s.queue t elapsedNs).2, h.admitted⟩

/-! ### Soundness -/

/-- The bandwidth of all claims. -/
def claimed (tasks : Tasks) (s : DlState) : ℕ :=
  (s.claims.map fun t => contribution (tasks t).sched.policy).sum

theorem sum_map_le_of_le {M N : Multiset TaskId} (h : M ≤ N) (f : TaskId → ℕ) :
    (M.map f).sum ≤ (N.map f).sum := by
  obtain ⟨K, rfl⟩ := Multiset.le_iff_exists_add.mp h
  rw [Multiset.map_add, Multiset.sum_add]
  exact le_add_right _ _

/-- If the call admits a task that is not admitted yet, it counts exactly what the task needs. -/
def Exact (tasks : Tasks) (s : DlState) : DlOp → Prop
  | .enqueue t _ => t ∈ s.admitted ∨ ¬ s.queue.admits (tasks t).sched.policy ∨
      ContributesExactly (tasks t).sched.policy ∧
        s.queue.admittedBandwidth + contribution (tasks t).sched.policy < 2 ^ 64
  | .dequeue _ => True
  | .pickNext => True
  | .tick _ _ => True

instance (tasks : Tasks) (s : DlState) : (op : DlOp) → Decidable (Exact tasks s op)
  | .enqueue _ _ => inferInstanceAs (Decidable (_ ∨ _ ∨ _))
  | .dequeue _ | .pickNext | .tick _ _ => isTrue trivial

/-- The claims are covered by what is counted, and that by the limit. -/
structure Covered (tasks : Tasks) (s : DlState) : Prop where
  wf : DlWf tasks s
  claimed : claimed tasks s ≤ s.queue.admittedBandwidth
  limit : s.queue.admittedBandwidth ≤ DeadlineRunQueue.maxBandwidth
  exact : ∀ t ∈ s.admitted, ContributesExactly (tasks t).sched.policy

/-- A step that takes claims away and leaves the bandwidth. -/
theorem Covered.of_le {s' : DlState} (h : Covered tasks s) (hwf : DlWf tasks s')
    (hbandwidth : s'.queue.admittedBandwidth = s.queue.admittedBandwidth)
    (hstored : (s'.queue.stored : Multiset TaskId) ≤ s.queue.stored)
    (hadmitted : s'.admitted ⊆ s.admitted) : Covered tasks s' := by
  have hclaims : s'.claims ≤ s.claims :=
    sup_le_sup hstored (val_le_iff.mpr hadmitted)
  refine ⟨hwf, ?_, hbandwidth ▸ h.limit, fun t ht => h.exact t (hadmitted ht)⟩
  rw [hbandwidth]
  exact (sum_map_le_of_le hclaims _).trans h.claimed

/-- An admitted task has claimed no more than the limit. -/
theorem Covered.contribution_le (h : Covered tasks s) (ht : t ∈ s.admitted) :
    contribution (tasks t).sched.policy ≤ maxBandwidth := by
  have hmem : t ∈ s.claims := Multiset.mem_union.mpr (.inr ht)
  exact (Multiset.single_le_sum (fun _ _ => zero_le _) _ (Multiset.mem_map_of_mem _ hmem)).trans
    (h.claimed.trans h.limit)

/-- What a call that admits a task counts is exact, also for a task that is admitted already. -/
theorem Covered.exact_of_ok (h : Covered tasks s) (hexact : Exact tasks s (.enqueue t nowNs))
    (hok : s.queue.enqueue tasks t nowNs = .ok q) :
    ContributesExactly (tasks t).sched.policy ∧
      s.queue.admittedBandwidth + contribution (tasks t).sched.policy < 2 ^ 64 := by
  rcases hexact with ht | hrefused | hexact
  · have hcontribution := h.contribution_le ht
    have hlimit := h.limit
    rw [show maxBandwidth = 950 from rfl] at hcontribution hlimit
    exact ⟨h.exact t ht, by omega⟩
  · exact absurd (admits_of_enqueue hok) hrefused
  · exact hexact

/-- Admitting a task adds one claim at most. -/
theorem claims_insert_le (h : (q.stored : Multiset TaskId) ≤ t ::ₘ s.queue.stored) :
    DlState.claims ⟨q, insert t s.admitted⟩ ≤ t ::ₘ s.claims := by
  refine sup_le (h.trans (Multiset.cons_le_cons t Multiset.le_union_left)) ?_
  by_cases ht : t ∈ s.admitted
  · rw [insert_eq_of_mem ht]
    exact Multiset.le_union_right.trans (Multiset.le_cons_self _ t)
  · rw [insert_val_of_notMem ht]
    exact Multiset.cons_le_cons t Multiset.le_union_right

/-- Dequeueing a stored task takes one claim away. -/
theorem cons_claims_erase_le (h : (s.queue.stored : Multiset TaskId) = t ::ₘ q.stored) :
    t ::ₘ DlState.claims ⟨q, s.admitted.erase t⟩ ≤ s.claims := by
  rw [DlState.claims, Multiset.cons_union_distrib, ← h]
  refine sup_le Multiset.le_union_left ?_
  have hnodup : (t ::ₘ (s.admitted.erase t).val).Nodup :=
    Multiset.nodup_cons.mpr ⟨notMem_erase t s.admitted, nodup _⟩
  refine (Multiset.le_iff_subset hnodup).mpr fun u hu => Multiset.mem_union.mpr ?_
  rcases Multiset.mem_cons.mp hu with rfl | hu
  · rw [h]
    exact .inl (Multiset.mem_cons_self u _)
  · exact .inr (mem_of_mem_erase hu)

theorem covered_step (s : DlState) (op : DlOp) (h : Covered tasks s) (hexact : Exact tasks s op) :
    Covered tasks (s.step tasks op) := by
  have hwf := dlWf_step s op h.wf
  cases op with
  | enqueue t nowNs =>
    revert hwf
    rw [DlState.step]
    cases hok : s.queue.enqueue tasks t nowNs with
    | error e => exact fun _ => h
    | ok q => ?_
    intro hwf
    obtain ⟨-, hbandwidth, hlimit, hle⟩ := enqueue_spec hok
    obtain ⟨hcontributes, hfits⟩ := h.exact_of_ok hexact hok
    rw [wrap] at hbandwidth
    refine ⟨hwf, ?_, hlimit, fun u hu => ?_⟩
    · have hclaims := sum_map_le_of_le (claims_insert_le hle)
        fun t => contribution (tasks t).sched.policy
      have hclaimed := h.claimed
      rw [Multiset.map_cons, Multiset.sum_cons] at hclaims
      rw [claimed] at hclaimed ⊢
      dsimp only
      omega
    · rcases mem_insert.mp hu with rfl | hu
      · exact hcontributes
      · exact h.exact u hu
  | dequeue t =>
    rcases dequeue_spec h.wf.queue h.wf.stored t with ⟨-, heq⟩ | ⟨-, hstored, hbandwidth⟩
    · exact h.of_le hwf (congrArg admittedBandwidth heq)
        (stored_dequeue_le h.wf.queue h.wf.stored t) (erase_subset t s.admitted)
    have hclaims := sum_map_le_of_le (cons_claims_erase_le hstored)
      fun t => contribution (tasks t).sched.policy
    have hclaimed := h.claimed
    have hlimit := h.limit
    rw [Multiset.map_cons, Multiset.sum_cons] at hclaims
    rw [claimed] at hclaimed
    refine ⟨hwf, ?_, ?_, fun u hu => h.exact u (mem_of_mem_erase hu)⟩
    · rw [claimed, DlState.step]
      dsimp only
      omega
    · rw [DlState.step]
      dsimp only
      omega
  | pickNext =>
    obtain ⟨hbandwidth, hstored⟩ := DeadlineRunQueue.pickNext_spec h.wf.queue
    exact h.of_le hwf hbandwidth hstored (Finset.Subset.refl _)
  | tick t elapsedNs =>
    obtain ⟨hbandwidth, hstored⟩ := tick_spec s.queue t elapsedNs
    exact h.of_le hwf hbandwidth hstored (Finset.Subset.refl _)

/-- **Admission is sound** as long as what it counts for the tasks that it admits is exact: then
they need 95 percent of the CPU at most. -/
theorem deadline_admission_sound (tasks : Tasks) (ops : List DlOp)
    (hg : Guarded (DlState.step tasks) (Exact tasks) .new ops) :
    ∑ t ∈ (run (DlState.step tasks) .new ops).admitted, utilization (tasks t).sched.policy ≤
      95 / 100 := by
  have hnew : Covered tasks .new :=
    ⟨dlWf_new tasks, zero_le _, zero_le _, fun t ht => absurd ht (notMem_empty t)⟩
  have hinv := hg.invariant covered_step hnew
  set s := run (DlState.step tasks) .new ops
  have hsum : ∑ t ∈ s.admitted, contribution (tasks t).sched.policy ≤ 950 :=
    (sum_map_le_of_le Multiset.le_union_right _).trans (hinv.claimed.trans hinv.limit)
  calc ∑ t ∈ s.admitted, utilization (tasks t).sched.policy
      = ∑ t ∈ s.admitted, (contribution (tasks t).sched.policy : ℚ) / 1000 :=
        sum_congr rfl fun t ht => utilization_eq (hinv.wf.admitted t ht) (hinv.exact t ht)
    _ = ((∑ t ∈ s.admitted, contribution (tasks t).sched.policy : ℕ) : ℚ) / 1000 := by
        rw [← sum_div, cast_sum]
    _ ≤ 950 / 1000 := by
        have hcast : ((∑ t ∈ s.admitted, contribution (tasks t).sched.policy : ℕ) : ℚ) ≤ 950 := by
          exact_mod_cast hsum
        linarith
    _ = 95 / 100 := by norm_num

/-- Two tasks that need 40 percent each: one runs and comes back, the other leaves meanwhile. -/
theorem deadline_admission_sound_two :
    ∑ _t ∈ (run (DlState.step fun _ => { sched := { policy := .deadline 400 1000 1000 } }) .new
        [.enqueue 1 0, .enqueue 2 0, .pickNext, .tick 1 10, .dequeue 2, .enqueue 1 20]).admitted,
      utilization (.deadline 400 1000 1000) ≤ 95 / 100 :=
  deadline_admission_sound (fun _ => { sched := { policy := .deadline 400 1000 1000 } })
    _ ⟨by decide, by decide, by decide, by decide, by decide, by decide, trivial⟩

/-- A task that needs 95.09 percent counts as 950 thousandths, and is admitted. -/
theorem deadline_admission_unsound :
    ¬ ∑ _t ∈ (run (DlState.step fun _ => { sched := { policy := .deadline 9509 10000 10000 } }) .new
        [.enqueue 1 0]).admitted,
      utilization (.deadline 9509 10000 10000) ≤ 95 / 100 := by
  have hadmitted : (run (DlState.step fun _ =>
      { sched := { policy := .deadline 9509 10000 10000 } }) .new [.enqueue 1 0]).admitted = {1} :=
    rfl
  rw [hadmitted, utilization]
  norm_num

/-! ### Counting once -/

/-- What is counted is what the admitted tasks need, each once. -/
def BandwidthOnce (tasks : Tasks) (s : DlState) : Prop :=
  s.queue.admittedBandwidth = ∑ t ∈ s.admitted, nominal (tasks t).sched.policy

/-- `runtime * 1000` does not overflow. -/
def NoOverflow : SchedClass → Prop
  | .deadline runtime _ _ => runtime * 1000 < 2 ^ 64
  | _ => True

instance : (c : SchedClass) → Decidable (NoOverflow c)
  | .deadline _ _ _ => inferInstanceAs (Decidable (_ < _))
  | .idle | .batch | .normal | .compute | .roundRobin _ | .fifo => isTrue trivial

theorem contribution_eq (h : NoOverflow c) : contribution c = nominal c := by
  cases c with
  | deadline runtime deadline period =>
    rw [contribution, nominal, bandwidth, wrap, mod_eq_of_lt h]
  | idle | batch | normal | compute | roundRobin | fifo => rfl

/-- An overflow loses at least one thousandth. -/
theorem contribution_lt {runtime deadline period : ℕ} (hperiod : period ≠ 0)
    (hword : period < 2 ^ 64) (hover : ¬ NoOverflow (.deadline runtime deadline period)) :
    contribution (.deadline runtime deadline period) <
      nominal (.deadline runtime deadline period) := by
  have hle : 2 ^ 64 ≤ runtime * 1000 := not_lt.mp hover
  have hdrop : runtime * 1000 % 2 ^ 64 + period ≤ runtime * 1000 := by omega
  have hdiv := Nat.div_le_div_right (c := period) hdrop
  rw [add_div_right _ (pos_of_ne_zero hperiod)] at hdiv
  exact hdiv

/-- A task that is admitted is not admitted yet, or needs less than a thousandth; and a task that
leaves is in the queue, or needs less than a thousandth. -/
def CountedOnce (tasks : Tasks) (s : DlState) : DlOp → Prop
  | .enqueue t _ =>
    ¬ (Periodic (tasks t).sched.policy ∧ s.queue.admits (tasks t).sched.policy) ∨
      (if t ∈ s.admitted then nominal (tasks t).sched.policy = 0
        else NoOverflow (tasks t).sched.policy ∧
          s.queue.admittedBandwidth + nominal (tasks t).sched.policy < 2 ^ 64)
  | .dequeue t => t ∈ s.admitted → t ∈ s.queue.stored ∨ nominal (tasks t).sched.policy = 0
  | .pickNext => True
  | .tick _ _ => True

instance : (c : SchedClass) → Decidable (Periodic c)
  | .deadline _ _ period => inferInstanceAs (Decidable (period ≠ 0))
  | .idle | .batch | .normal | .compute | .roundRobin _ | .fifo => isFalse not_false

instance (tasks : Tasks) (s : DlState) : (op : DlOp) → Decidable (CountedOnce tasks s op)
  | .enqueue _ _ => inferInstanceAs (Decidable (_ ∨ ite _ _ _))
  | .dequeue _ => inferInstanceAs (Decidable (_ → _))
  | .pickNext | .tick _ _ => isTrue trivial

/-- What the steps keep. A stored task has a share of the sum unless it needs nothing, and only one
entry. -/
structure OnceInv (tasks : Tasks) (s : DlState) : Prop where
  wf : DlWf tasks s
  once : BandwidthOnce tasks s
  limit : s.queue.admittedBandwidth ≤ DeadlineRunQueue.maxBandwidth
  agree : ∀ t ∈ s.admitted, contribution (tasks t).sched.policy = nominal (tasks t).sched.policy
  stored : ∀ t ∈ s.queue.stored, contribution (tasks t).sched.policy ≠ 0 →
    t ∈ s.admitted ∧ s.queue.stored.count t = 1

/-- A step that only takes entries away. -/
theorem OnceInv.of_le (h : OnceInv tasks s) (hwf : DlWf tasks ⟨q, s.admitted⟩)
    (hbandwidth : q.admittedBandwidth = s.queue.admittedBandwidth)
    (hstored : (q.stored : Multiset TaskId) ≤ s.queue.stored) : OnceInv tasks ⟨q, s.admitted⟩ := by
  refine ⟨hwf, hbandwidth.trans h.once, hbandwidth ▸ h.limit, h.agree, fun t ht hne => ?_⟩
  obtain ⟨hadmitted, hcount⟩ := h.stored t (Multiset.mem_of_le hstored ht) hne
  have hle := Multiset.count_le_of_le t hstored
  rw [Multiset.coe_count, Multiset.coe_count] at hle
  have hpos : 0 < q.stored.count t := count_pos_iff.mpr ht
  exact ⟨hadmitted, by dsimp only; omega⟩

theorem BandwidthOnce.erase (h : BandwidthOnce tasks s) (ht : t ∈ s.admitted) :
    s.queue.admittedBandwidth =
      ∑ u ∈ s.admitted.erase t, nominal (tasks u).sched.policy + nominal (tasks t).sched.policy :=
  h.trans (sum_erase_add s.admitted _ ht).symm

/-- Dequeueing keeps the sum right exactly if the task is stored or needs nothing. -/
theorem bandwidthOnce_dequeue_iff (h : OnceInv tasks s) (t : TaskId) :
    BandwidthOnce tasks (s.step tasks (.dequeue t)) ↔ CountedOnce tasks s (.dequeue t) := by
  rw [BandwidthOnce, DlState.step]
  dsimp only
  by_cases ht : t ∈ s.admitted
  · have herase := h.once.erase ht
    have hagree := h.agree t ht
    rcases dequeue_spec h.wf.queue h.wf.stored t with ⟨hnot, heq⟩ | ⟨hmem, -, hbandwidth⟩
    · rw [heq]
      refine ⟨fun hsum _ => .inr (by omega), fun hzero => ?_⟩
      have hnominal := (hzero ht).resolve_left hnot
      omega
    refine ⟨fun _ _ => .inl hmem, fun _ => ?_⟩
    omega
  · refine ⟨fun _ hmem => absurd hmem ht, fun _ => ?_⟩
    rw [erase_eq_of_notMem ht]
    refine Eq.trans ?_ h.once
    rcases dequeue_spec h.wf.queue h.wf.stored t with ⟨-, heq⟩ | ⟨hmem, -, hbandwidth⟩
    · rw [heq]
    -- an entry of a task that is not admitted counts nothing
    have hzero : contribution (tasks t).sched.policy = 0 := by
      by_contra hne
      exact ht (h.stored t hmem hne).1
    rw [hbandwidth, hzero, Nat.sub_zero]

theorem onceInv_dequeue (h : OnceInv tasks s) (t : TaskId) (hg : CountedOnce tasks s (.dequeue t)) :
    OnceInv tasks (s.step tasks (.dequeue t)) := by
  have honce := (bandwidthOnce_dequeue_iff h t).mpr hg
  refine ⟨dlWf_step s _ h.wf, honce, ?_, fun u hu => h.agree u (mem_of_mem_erase hu),
    fun u hu hne => ?_⟩
  · rw [BandwidthOnce] at honce
    rw [honce]
    refine (sum_le_sum_of_subset (erase_subset t s.admitted)).trans ?_
    rw [← show s.queue.admittedBandwidth = _ from h.once]
    exact h.limit
  · rcases dequeue_spec h.wf.queue h.wf.stored t with ⟨hnot, heq⟩ | ⟨-, hstored, -⟩
    · have hu' : u ∈ s.queue.stored := heq ▸ hu
      obtain ⟨hadmitted, hcount⟩ := h.stored u hu' hne
      refine ⟨mem_erase.mpr ⟨fun heq => hnot (heq ▸ hu'), hadmitted⟩, ?_⟩
      exact (congrArg (fun q => q.stored.count u) heq).trans hcount
    have hcount' := congrArg (Multiset.count u) hstored
    rw [Multiset.coe_count, Multiset.count_cons, Multiset.coe_count] at hcount'
    have hpos : 0 < (s.queue.dequeue tasks t).stored.count u := count_pos_iff.mpr hu
    have hmem : u ∈ s.queue.stored := count_pos_iff.mp (by omega)
    obtain ⟨hadmitted, hcount⟩ := h.stored u hmem hne
    -- the task that left had one entry, so it is another one
    have hut : u ≠ t := by
      rintro rfl
      rw [if_pos rfl] at hcount'
      omega
    rw [if_neg hut] at hcount'
    exact ⟨mem_erase.mpr ⟨hut, hadmitted⟩, hcount'.symm.trans hcount⟩

section Enqueue

variable {tasks : Tasks} {s : DlState} (h : OnceInv tasks s) {t : TaskId} {nowNs : ℕ}
  {q : DeadlineRunQueue} (hok : s.queue.enqueue tasks t nowNs = .ok q)
include h hok

/-- Admitting a task keeps the sum right exactly if it is not admitted yet, without overflow, or
needs nothing. -/
theorem bandwidthOnce_enqueue_iff
    (hword : ∀ runtime deadline period,
      (tasks t).sched.policy = .deadline runtime deadline period → period < 2 ^ 64) :
    BandwidthOnce tasks ⟨q, insert t s.admitted⟩ ↔ CountedOnce tasks s (.enqueue t nowNs) := by
  obtain ⟨hperiodic, hbandwidth, hlimit, -⟩ := enqueue_spec hok
  have hbefore := h.limit
  have hadmits := admits_of_enqueue hok
  have honce : s.queue.admittedBandwidth = _ := h.once
  rw [show maxBandwidth = 950 from rfl] at hlimit hbefore
  rw [BandwidthOnce, CountedOnce, or_iff_right (not_not_intro ⟨hperiodic, hadmits⟩)]
  split_ifs with ht
  · have hagree := h.agree t ht
    have herase := h.once.erase ht
    rw [insert_eq_of_mem ht, ← honce, hbandwidth, wrap]
    omega
  rw [sum_insert ht, ← honce, hbandwidth]
  refine ⟨fun hsum => ?_, fun ⟨hover, hfits⟩ => ?_⟩
  · rw [← hbandwidth] at hsum
    refine ⟨?_, by omega⟩
    by_contra hover
    obtain ⟨runtime, deadline, period, hpolicy, hperiod⟩ := hperiodic.eq_deadline
    rw [hpolicy] at hsum hover hbandwidth
    have hlost := contribution_lt hperiod (hword _ _ _ hpolicy) hover
    rw [wrap] at hbandwidth
    omega
  · rw [contribution_eq hover, wrap, mod_eq_of_lt hfits, add_comm]

theorem onceInv_enqueue (hg : CountedOnce tasks s (.enqueue t nowNs))
    (honce : BandwidthOnce tasks ⟨q, insert t s.admitted⟩) :
    OnceInv tasks ⟨q, insert t s.admitted⟩ := by
  obtain ⟨hperiodic, -, hlimit, hle⟩ := enqueue_spec hok
  have hwf := dlWf_step s (.enqueue t nowNs) h.wf
  rw [DlState.step, hok] at hwf
  rw [CountedOnce, or_iff_right (not_not_intro ⟨hperiodic, admits_of_enqueue hok⟩)] at hg
  refine ⟨hwf, honce, hlimit, fun u hu => ?_, fun u hu hne => ?_⟩
  · rcases mem_insert.mp hu with rfl | hu
    · by_cases hmem : u ∈ s.admitted
      · exact h.agree u hmem
      · rw [if_neg hmem] at hg
        exact contribution_eq hg.1
    · exact h.agree u hu
  · have hcount := Multiset.count_le_of_le u hle
    rw [Multiset.coe_count, Multiset.count_cons, Multiset.coe_count] at hcount
    have hpos : 0 < q.stored.count u := count_pos_iff.mpr hu
    obtain rfl | hut := eq_or_ne u t
    · -- a task that needs something was not admitted, so it was not stored
      have hnot : u ∉ s.admitted := by
        intro hmem
        rw [if_pos hmem, ← h.agree u hmem] at hg
        exact hne hg
      have habsent : s.queue.stored.count u = 0 :=
        count_eq_zero.mpr fun hmem => hnot (h.stored u hmem hne).1
      rw [if_pos rfl] at hcount
      exact ⟨mem_insert_self u _, by dsimp only; omega⟩
    · rw [if_neg hut] at hcount
      have hmem : u ∈ s.queue.stored := count_pos_iff.mp (by omega)
      obtain ⟨hadmitted, hone⟩ := h.stored u hmem hne
      exact ⟨mem_insert_of_mem hadmitted, by dsimp only; omega⟩

end Enqueue

section

variable
  (hword : ∀ t runtime deadline period,
      (tasks t).sched.policy = .deadline runtime deadline period → period < 2 ^ 64)

include hword

theorem onceInv_step (s : DlState) (op : DlOp) (h : OnceInv tasks s) (hg : CountedOnce tasks s op) :
    OnceInv tasks (s.step tasks op) := by
  have hwf := dlWf_step s op h.wf
  cases op with
  | enqueue t nowNs =>
    rw [DlState.step]
    cases hok : s.queue.enqueue tasks t nowNs with
    | error e => exact h
    | ok q =>
      exact onceInv_enqueue h hok hg ((bandwidthOnce_enqueue_iff h hok (hword t)).mpr hg)
  | dequeue t => exact onceInv_dequeue h t hg
  | pickNext =>
    obtain ⟨hbandwidth, hstored⟩ := DeadlineRunQueue.pickNext_spec h.wf.queue
    exact h.of_le hwf hbandwidth hstored
  | tick t elapsedNs =>
    obtain ⟨hbandwidth, hstored⟩ := tick_spec s.queue t elapsedNs
    exact h.of_le hwf hbandwidth hstored

theorem bandwidthOnce_step_iff (h : OnceInv tasks s) (op : DlOp) :
    BandwidthOnce tasks (s.step tasks op) ↔ CountedOnce tasks s op := by
  cases op with
  | enqueue t nowNs =>
    rw [DlState.step]
    cases hok : s.queue.enqueue tasks t nowNs with
    | error e =>
      refine ⟨fun _ => .inl fun ⟨hperiodic, hadmits⟩ => ?_, fun _ => h.once⟩
      obtain ⟨runtime, deadline, period, hpolicy, -⟩ := hperiodic.eq_deadline
      obtain ⟨q, hq⟩ := enqueue_of_admits (by rw [hpolicy]; rfl) hadmits nowNs
      rw [hok] at hq
      cases hq
    | ok q => exact bandwidthOnce_enqueue_iff h hok (hword t)
  | dequeue t => exact bandwidthOnce_dequeue_iff h t
  | pickNext =>
    exact ⟨fun _ => trivial, fun _ => (onceInv_step hword s .pickNext h trivial).once⟩
  | tick t elapsedNs =>
    exact ⟨fun _ => trivial, fun _ => (onceInv_step hword s (.tick t elapsedNs) h trivial).once⟩

end

end Maios.Sched
