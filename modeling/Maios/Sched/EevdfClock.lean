import Mathlib.Tactic.Linarith
import Maios.Sched.WorkConservation

/-!
# Virtual time

The virtual runtime of a task should advance by the elapsed time times `1024 / weight`. `tick`
multiplies by the inverse weight, which is `2 ^ 32 / weight`, and shifts by 32: the factor 1024 is
missing, while the slices that `enqueue` adds are nanoseconds. So a tick is charged correctly only if
it is so short that about a nanosecond is due.

The clock of a queue should follow the least virtual runtime. `update_min_vruntime` takes the least
virtual deadline instead, and of the eligible tasks only. `FollowsLeast` says when this makes no
difference.

## Main results

* `tick_charges_iff`, `clock_follows_iff`
-/

namespace Maios.Sched

namespace EevdfRunQueue

/-! ### Charging -/

/-- Nothing overflows, and the virtual runtime grows by `elapsedNs * 1024 / weight` up to the error
of the shift, which is less than one, and that of the table, which is less than one in its last
place. Both sides are multiplied by `weight * 2 ^ 32`. -/
def ChargesByWeight (elapsedNs : ℕ) (s : TaskSchedInfo) : Prop :=
  let weight := weightForNice s.nice
  let growth := (charged elapsedNs s).vruntime - s.vruntime
  let error := weight * (2 ^ 32 + elapsedNs * 1024)
  elapsedNs * wmultForNice s.nice < 2 ^ 64 ∧
    s.vruntime + elapsedNs * wmultForNice s.nice / 2 ^ 32 < 2 ^ 64 ∧
    growth * weight * 2 ^ 32 ≤ elapsedNs * 1024 * 2 ^ 32 + error ∧
    elapsedNs * 1024 * 2 ^ 32 ≤ growth * weight * 2 ^ 32 + error

/-- The entries of the tables belong together. -/
theorem weight_mul_wmult_le (nice : Int8) : weightForNice nice ≤ 88761 ∧
    weightForNice nice * wmultForNice nice ≤ 2 ^ 32 + weightForNice nice := by
  rw [weightForNice, wmultForNice]
  generalize niceToIdx nice = i
  by_cases hi : i < 40
  · revert i
    decide
  · have hnone : niceToWeight[i]? = none := List.getElem?_eq_none (not_lt.mp hi)
    rw [List.getD_eq_getElem?_getD, hnone, Option.getD_none]
    omega

theorem div_mul_mul_le (a b c : ℕ) : a / b * c * b ≤ a * c := by
  rw [mul_right_comm]
  exact Nat.mul_le_mul_right c (Nat.div_mul_le_self a b)

/-- **A tick is charged by weight** exactly if what is due for it is at most a nanosecond and the
error of the table. -/
theorem tick_charges_iff (elapsedNs : ℕ) (s : TaskSchedInfo) (hs : s.vruntime < 2 ^ 64) :
    ChargesByWeight elapsedNs s ↔
      elapsedNs * 1024 * 2 ^ 32 ≤ weightForNice s.nice * (2 ^ 32 + elapsedNs * 1024) := by
  obtain ⟨hweight, htable⟩ := weight_mul_wmult_le s.nice
  have hgrowth : elapsedNs * wmultForNice s.nice < 2 ^ 64 →
      s.vruntime + elapsedNs * wmultForNice s.nice / 2 ^ 32 < 2 ^ 64 →
      (charged elapsedNs s).vruntime - s.vruntime =
        elapsedNs * wmultForNice s.nice / 2 ^ 32 := by
    intro hmul hadd
    rw [charged, wrap, wrap, Nat.mod_eq_of_lt hmul, Nat.mod_eq_of_lt hadd, Nat.add_sub_cancel_left]
  rw [ChargesByWeight]
  generalize weightForNice s.nice = w at *
  generalize wmultForNice s.nice = m at *
  have hprod : elapsedNs * w ≤ elapsedNs * 88761 := Nat.mul_le_mul_left _ hweight
  have herror : w * (2 ^ 32 + elapsedNs * 1024) = w * 2 ^ 32 + elapsedNs * w * 1024 := by
    rw [mul_add, ← mul_assoc, mul_comm w elapsedNs]
  -- a tick as short as this is charged nothing
  have hsmall : elapsedNs * 1022 * 2 ^ 32 ≤ w * 2 ^ 32 → elapsedNs * m < 2 ^ 32 := by
    intro hle
    have hmul := (Nat.mul_le_mul_right m (le_of_mul_le_mul_right hle (by decide))).trans htable
    rw [mul_right_comm] at hmul
    omega
  constructor
  · rintro ⟨hmul, hadd, -, hle⟩
    rw [hgrowth hmul hadd] at hle
    have hcharge : elapsedNs * m / 2 ^ 32 * w * 2 ^ 32 ≤ elapsedNs * (2 ^ 32 + w) := by
      refine (div_mul_mul_le _ _ w).trans ?_
      rw [mul_assoc, mul_comm m w]
      exact Nat.mul_le_mul_left _ htable
    have hzero := Nat.div_eq_of_lt (hsmall (by linarith))
    rw [hzero, zero_mul, zero_mul, zero_add] at hle
    exact hle
  · intro hle
    have hlt := hsmall (by linarith)
    have hzero := Nat.div_eq_of_lt hlt
    have hmul : elapsedNs * m < 2 ^ 64 := hlt.trans (by decide)
    rw [hzero] at hgrowth ⊢
    rw [hgrowth hmul hs, zero_mul, zero_mul, zero_add]
    exact ⟨hmul, hs, Nat.zero_le _, hle⟩

/-- A nanosecond, which is charged as none. -/
theorem tick_charges_iff_one : ChargesByWeight 1 {} :=
  (tick_charges_iff 1 {} (by decide)).mpr (by decide)

/-- A task of nice 0 that ran for 6 ms, the longest slice there is, is charged less than 6 us. -/
theorem tick_undercharges :
    ¬ ChargesByWeight 6000000 {} ∧ (charged 6000000 {}).vruntime = 5859 := by
  refine ⟨fun h => ?_, by decide⟩
  have hle := h.2.2.2
  revert hle
  decide

/-! ### The clock -/

/-- The least virtual runtime of the running and the stored tasks. -/
def leastVruntime (tasks : Tasks) (q : EevdfRunQueue) (current : TaskId) : ℕ :=
  ((current :: q.stored).map fun t => (tasks t).sched.vruntime).min?.getD 0

/-- After a tick, the clock is the least virtual runtime, unless it was ahead of that before. -/
def FollowsLeast (tasks : Tasks) (q : EevdfRunQueue) (current : TaskId) (elapsedNs : ℕ) : Prop :=
  let r := q.tick tasks current elapsedNs
  r.2.2.minVruntime = max q.minVruntime (leastVruntime r.2.1 r.2.2 current)

/-- The running task at the virtual runtime `v`, or the deadline of the first eligible task, is not
ahead of `x`. -/
def Holds (q : EevdfRunQueue) (v x : ℕ) : Prop :=
  v ≤ x ∨ ∃ e ∈ q.eligible.first?, (ofLex e.1).1 ≤ x

/-- No stored task is behind both the running task and the first deadline, unless the clock is ahead
of one of these already; and some task is not ahead of where the clock goes. -/
def ClockRight (tasks : Tasks) (q : EevdfRunQueue) (current : TaskId) (elapsedNs : ℕ) : Prop :=
  let v := (charged elapsedNs (tasks current).sched).vruntime
  (∀ t ∈ q.stored, t ≠ current →
      q.Holds v q.minVruntime ∨ q.Holds v (tasks t).sched.vruntime) ∧
    (v ≤ q.minVruntime ∨ (∀ e ∈ q.eligible.first?, v ≤ (ofLex e.1).1) ∨
      ∃ t ∈ q.stored, t ≠ current ∧ ((tasks t).sched.vruntime ≤ q.minVruntime ∨
        ((tasks t).sched.vruntime ≤ v ∧
          ∀ e ∈ q.eligible.first?, (tasks t).sched.vruntime ≤ (ofLex e.1).1)))

/-- What the clock is compared with. -/
theorem updateMinVruntime_eq (q : EevdfRunQueue) (v : ℕ) :
    ∃ goal, (q.updateMinVruntime v).minVruntime = max q.minVruntime goal ∧
      (∀ x, goal ≤ x ↔ q.Holds v x) ∧
      ∀ x, x ≤ goal ↔ x ≤ v ∧ ∀ e ∈ q.eligible.first?, x ≤ (ofLex e.1).1 := by
  have hmax : ∀ goal, (if q.minVruntime < goal then { q with minVruntime := goal } else q).minVruntime
      = max q.minVruntime goal := by
    intro goal
    split_ifs with hlt
    · exact (max_eq_right hlt.le).symm
    · exact (max_eq_left (not_lt.mp hlt)).symm
  refine ⟨_, hmax _, fun x => ?_, fun x => ?_⟩
  · rw [Holds]
    cases q.eligible.first? <;> simp
  · cases q.eligible.first? <;> simp

theorem leastVruntime_spec (tasks : Tasks) (q : EevdfRunQueue) (current : TaskId) :
    (∃ t ∈ current :: q.stored, (tasks t).sched.vruntime = leastVruntime tasks q current) ∧
      ∀ t ∈ current :: q.stored, leastVruntime tasks q current ≤ (tasks t).sched.vruntime := by
  cases hmin : ((current :: q.stored).map fun t => (tasks t).sched.vruntime).min? with
  | none => simp at hmin
  | some least =>
    obtain ⟨hmem, hle⟩ := List.min?_eq_some_iff.mp hmin
    rw [leastVruntime, hmin]
    exact ⟨List.mem_map.mp hmem, fun t ht => hle _ (List.mem_map.mpr ⟨t, ht, rfl⟩)⟩

/-- **The clock follows the least virtual runtime** at a tick exactly under `ClockRight`. -/
theorem clock_follows_iff (tasks : Tasks) (ops : List QueuesOp) (cpu : ℕ) (current : TaskId)
    (elapsedNs : ℕ) :
    let s := run Queues.step (.new tasks) ops
    (s.queues cpu).FollowsLeast s.tasks current elapsedNs ↔
      (s.queues cpu).ClockRight s.tasks current elapsedNs := by
  intro s
  generalize s.queues cpu = q
  generalize s.tasks = tasks
  rw [FollowsLeast, tick]
  rw [Tasks.modifySched_self]
  set tasks' := tasks.modifySched current (charged elapsedNs) with htasks'
  set v := (charged elapsedNs (tasks current).sched).vruntime
  have hcur : (tasks' current).sched.vruntime = v := by rw [Tasks.modifySched_self]
  have hother : ∀ t ≠ current, (tasks' t).sched.vruntime = (tasks t).sched.vruntime :=
    fun t ht => by rw [htasks', Tasks.modifySched_of_ne _ _ ht]
  have hstored : (q.updateMinVruntime v).stored = q.stored := by
    rw [stored, (stored_updateMinVruntime q v).1, (stored_updateMinVruntime q v).2, stored]
  obtain ⟨goal, hclock, hgoal_le, hle_goal⟩ := q.updateMinVruntime_eq v
  obtain ⟨⟨u, hu, hattained⟩, hall⟩ := leastVruntime_spec tasks' (q.updateMinVruntime v) current
  rw [hclock]
  rw [hstored] at hu hall
  generalize leastVruntime tasks' (q.updateMinVruntime v) current = least at *
  have hmin : least ≤ v := hcur ▸ hall current List.mem_cons_self
  have hle : ∀ t ∈ q.stored, t ≠ current → least ≤ (tasks t).sched.vruntime := fun t ht hne => by
    rw [← hother t hne]
    exact hall t (List.mem_cons_of_mem _ ht)
  replace hattained : least = v ∨ ∃ t ∈ q.stored, t ≠ current ∧ (tasks t).sched.vruntime = least := by
    by_cases hne : u = current
    · rw [hne, hcur] at hattained
      exact .inl hattained.symm
    · rw [hother u hne] at hattained
      exact .inr ⟨u, (List.mem_cons.mp hu).resolve_left hne, hne, hattained⟩
  constructor
  · intro heq
    refine ⟨fun t ht hne => ?_, ?_⟩
    · have hgoal : goal ≤ max q.minVruntime (tasks t).sched.vruntime :=
        (le_max_right _ _).trans (heq.le.trans (max_le_max le_rfl (hle t ht hne)))
      rw [le_max_iff, hgoal_le, hgoal_le] at hgoal
      exact hgoal
    · have hleast : least ≤ max q.minVruntime goal := (le_max_right _ _).trans heq.ge
      rw [le_max_iff, hle_goal] at hleast
      rcases hattained with rfl | ⟨t, ht, hne, rfl⟩
      · exact hleast.imp_right fun h => .inl h.2
      · exact .inr (.inr ⟨t, ht, hne, hleast⟩)
  · rintro ⟨hahead, hbehind⟩
    refine le_antisymm (max_le (le_max_left _ _) ?_) (max_le (le_max_left _ _) ?_)
    · rcases hattained with rfl | ⟨t, ht, hne, rfl⟩
      · exact ((hgoal_le _).mpr (.inl le_rfl)).trans (le_max_right _ _)
      · rw [le_max_iff, hgoal_le, hgoal_le]
        exact hahead t ht hne
    · rw [le_max_iff]
      rcases hbehind with hv | hv | ⟨t, ht, hne, hv⟩
      · exact .inl (hmin.trans hv)
      · exact .inr (hmin.trans ((hle_goal v).mpr ⟨le_rfl, hv⟩))
      · rw [← hle_goal] at hv
        exact hv.imp (hle t ht hne).trans (hle t ht hne).trans

/-- A task that has not run yet waits while another one runs, and the clock leaves it behind. -/
theorem clock_passes_waiting :
    ¬ ((run Queues.step (.new fun _ => {})
      [.enqueue 0 1 false, .enqueue 0 2 false, .pickNext 0]).queues 0).FollowsLeast
      (run Queues.step (.new fun _ => {})
        [.enqueue 0 1 false, .enqueue 0 2 false, .pickNext 0]).tasks 2 5120 := by
  show ¬ _ = _
  decide

end EevdfRunQueue

end Maios.Sched
