import Maios.Library.Occurrences
import Maios.Sched.Eevdf

/-!
# Which tasks an EEVDF queue stores

How often a task occurs in the two maps of a queue, and what each operation does to that number.
The keys of the maps end with the id of the task they lead to (`Keyed`), so inserting one task
never displaces another. A task that occurs at most once is then moved, added and removed as one
would expect; the specifications below say so for one task at a time and need no assumption about
the others.
-/

namespace Maios.Sched

namespace EevdfRunQueue

open List

/-! ### The queue -/

/-- The keys of both maps carry the id of their task. -/
def Keyed (q : EevdfRunQueue) : Prop :=
  q.eligible.Keyed VtKey.taskId id ∧ q.ineligible.Keyed VtKey.taskId id

/-- How often a task is stored in the queue. -/
def occurrences (q : EevdfRunQueue) (t : TaskId) : ℕ := q.stored.count t

theorem occurrences_eq (q : EevdfRunQueue) (t : TaskId) :
    q.occurrences t = (q.eligible.ids id).count t + (q.ineligible.ids id).count t := by
  rw [occurrences, stored, count_append]
  rfl

theorem mem_stored_iff {q q' : EevdfRunQueue} {t : TaskId} (h : q'.occurrences t = q.occurrences t) :
    t ∈ q'.stored ↔ t ∈ q.stored := by
  rw [← count_pos_iff, ← count_pos_iff]
  exact iff_of_eq (congrArg (0 < ·) h)

theorem keyed_new : Keyed new := ⟨OrdMap.Keyed.empty, OrdMap.Keyed.empty⟩

section Enqueue

variable {q : EevdfRunQueue} (h : q.Keyed) (tasks : Tasks) (t : TaskId) (isWakeup : Bool)
include h

theorem keyed_enqueue : (enqueue tasks q t isWakeup).2.Keyed := by
  rw [enqueue]
  split_ifs
  · exact ⟨h.1.insert rfl, h.2⟩
  · exact ⟨h.1, h.2.insert rfl⟩

theorem occurrences_enqueue_of_ne {t' : TaskId} (hne : t' ≠ t) :
    (enqueue tasks q t isWakeup).2.occurrences t' = q.occurrences t' := by
  rw [enqueue, occurrences_eq, occurrences_eq]
  split_ifs
  · rw [h.1.count_insert_of_ne (taskId_vtKey _ _) (id_eq _) hne]
  · rw [h.2.count_insert_of_ne (taskId_vtKey _ _) (id_eq _) hne]

theorem occurrences_enqueue_self (hnone : q.occurrences t = 0) :
    (enqueue tasks q t isWakeup).2.occurrences t = 1 := by
  rw [occurrences_eq] at hnone
  rw [enqueue, occurrences_eq]
  split_ifs <;> dsimp only
  · rw [h.1.count_insert_self (taskId_vtKey _ _) (id_eq _) (by omega)]
    omega
  · rw [h.2.count_insert_self (taskId_vtKey _ _) (id_eq _) (by omega)]
    omega

end Enqueue

/-- `dequeue` finds the task. -/
def finds (tasks : Tasks) (q : EevdfRunQueue) (t : TaskId) : Bool :=
  (tasks t).sched.onRq &&
    ((q.eligible.find? (vtKey (tasks t).sched.vdeadline t)).isSome ||
      (q.ineligible.find? (vtKey (tasks t).sched.ve t)).isSome)

variable {q : EevdfRunQueue} {t : TaskId}

section

variable (h : q.Keyed) (tasks : Tasks) (key : VtKey)

include h

theorem keyed_dequeue (t : TaskId) : (dequeue tasks q t).2.Keyed := by
  rw [dequeue]
  split_ifs
  · cases q.eligible.find? (vtKey (tasks t).sched.vdeadline t) with
    | none => exact ⟨h.1, h.2.remove _⟩
    | some u => exact ⟨h.1.remove _, h.2⟩
  · exact h

/-- Dequeueing takes out the task if it finds it. -/
theorem takenOut_dequeue (t : TaskId) :
    TakenOut q.stored (dequeue tasks q t).2.stored t (q.finds tasks t) := by
  have heligible := h.1.takenOut_remove (vtKey (tasks t).sched.vdeadline t)
  have hineligible := h.2.takenOut_remove (vtKey (tasks t).sched.ve t)
  rw [dequeue, finds]
  cases (tasks t).sched.onRq with
  | false => exact List.Perm.refl _
  | true => ?_
  cases hfind : q.eligible.find? (vtKey (tasks t).sched.vdeadline t) with
  | some u =>
    rw [hfind] at heligible
    exact heligible.append_right q.ineligible.values
  | none => exact hineligible.append_left q.eligible.values

theorem occurrences_dequeue_of_ne {t' : TaskId} (hne : t' ≠ t) :
    (dequeue tasks q t).2.occurrences t' = q.occurrences t' :=
  (takenOut_dequeue h tasks t).count_of_ne hne

/-! ### Eligibility -/

theorem keyed_promote : (promote tasks q key).Keyed := by
  rcases promote_cases tasks q key with heq | ⟨t, -, heq⟩ <;> rw [heq]
  · exact h
  · exact ⟨h.1.insert rfl, h.2.remove _⟩

/-- A task that is stored at most once stays stored as often. -/
theorem occurrences_promote (hone : q.occurrences t ≤ 1) :
    (promote tasks q key).occurrences t = q.occurrences t := by
  rcases promote_cases tasks q key with heq | ⟨u, hmem, heq⟩ <;> rw [heq]
  have hremove := OrdMap.count_remove_add id hmem t
  rw [id_eq] at hremove
  rw [occurrences_eq] at hone
  rw [occurrences_eq, occurrences_eq]
  dsimp only
  obtain rfl | hne := eq_or_ne t u
  · rw [count_singleton_self] at hremove
    rw [h.1.count_insert_self (taskId_vtKey _ _) (id_eq _) (by omega)]
    omega
  · rw [h.1.count_insert_of_ne (taskId_vtKey _ _) (id_eq _) hne]
    rw [count_singleton, beq_eq_false_iff_ne.mpr (Ne.symm hne)] at hremove
    simp only [Bool.false_eq_true, if_false] at hremove
    omega

theorem keyed_advanceEligibility : (advanceEligibility tasks q).Keyed :=
  advanceEligibility_induct tasks q (fun _ key hq => keyed_promote hq tasks key) h

theorem occurrences_advanceEligibility (hone : q.occurrences t ≤ 1) :
    (advanceEligibility tasks q).occurrences t = q.occurrences t := by
  refine (advanceEligibility_induct (P := fun q' => q'.Keyed ∧ q'.occurrences t = q.occurrences t)
    tasks q (fun q' key hq => ⟨keyed_promote hq.1 tasks key, ?_⟩) ⟨h, rfl⟩).2
  rw [occurrences_promote hq.1 tasks key (hq.2 ▸ hone), hq.2]

/-! ### Picking and stealing -/

omit h in
/-- The picked task leaves the advanced queue, and no other. -/
theorem pickNext_perm (q : EevdfRunQueue) : (advanceEligibility tasks q).stored.Perm
    ((pickNext tasks q).1.toList ++ (pickNext tasks q).2.stored) := by
  rcases pickNext_cases tasks q with ⟨heq, -⟩ | ⟨key, u, hmem, heq⟩ <;> rw [heq]
  · exact List.Perm.refl _
  · exact ((OrdMap.perm_cons_remove hmem).map Prod.snd).append_right _

theorem keyed_pickNext : (pickNext tasks q).2.Keyed := by
  have hadv := keyed_advanceEligibility h tasks
  rcases pickNext_cases tasks q with ⟨heq, -⟩ | ⟨key, t, -, heq⟩ <;> rw [heq]
  · exact hadv
  · exact ⟨hadv.1.remove _, hadv.2⟩

theorem occurrences_pickNext (hone : q.occurrences t ≤ 1) :
    (pickNext tasks q).2.occurrences t + (pickNext tasks q).1.toList.count t =
      q.occurrences t := by
  rw [← occurrences_advanceEligibility h tasks hone, occurrences, occurrences,
    (pickNext_perm tasks q).count_eq t, count_append, Nat.add_comm]

theorem keyed_stealOne : (stealOne tasks q).2.Keyed := by
  rcases stealOne_cases tasks q with ⟨heq, -⟩ | ⟨key, t, -, -, heq⟩ | ⟨key, t, -, -, heq⟩ <;>
    rw [heq]
  · exact h
  · exact ⟨h.1, h.2.remove _⟩
  · exact ⟨h.1.remove _, h.2⟩

end

/-- The stolen task leaves the queue, and no other. -/
theorem stealOne_perm (q : EevdfRunQueue) (tasks : Tasks) :
    q.stored.Perm ((stealOne tasks q).1.toList ++ (stealOne tasks q).2.stored) := by
  rcases stealOne_cases tasks q with ⟨heq, -⟩ | ⟨key, u, -, hmem, heq⟩ | ⟨key, u, -, hmem, heq⟩ <;>
    rw [heq]
  · exact List.Perm.refl _
  · exact (((OrdMap.perm_cons_remove hmem).map Prod.snd).append_left _).trans perm_middle
  · exact ((OrdMap.perm_cons_remove hmem).map Prod.snd).append_right _

theorem occurrences_stealOne (q : EevdfRunQueue) (tasks : Tasks) (t : TaskId) :
    (stealOne tasks q).2.occurrences t + (stealOne tasks q).1.toList.count t =
      q.occurrences t := by
  rw [occurrences, occurrences, (stealOne_perm q tasks).count_eq t, count_append,
    Nat.add_comm]

/-! ### The clock -/

theorem stored_updateMinVruntime (q : EevdfRunQueue) (v : ℕ) :
    (q.updateMinVruntime v).eligible = q.eligible ∧
      (q.updateMinVruntime v).ineligible = q.ineligible := by
  rw [updateMinVruntime]
  split_ifs <;> exact ⟨rfl, rfl⟩

end EevdfRunQueue

end Maios.Sched
