import Maios.Sched.EevdfAccounting

/-!
# The flag that says that a task is queued

`on_rq` should be set exactly while a task is stored in one of the maps of its queue, and no task
should be stored twice; then `dequeue`, which trusts the flag and recomputes the keys from the data
of the task, removes every stored task. Two kinds of steps break this:

* `pick_next` and `steal_one` take a task out and leave its flag;
* `enqueue` of a task that is stored gives it a new key, and the old entry stays behind, unless the
  new entry happens to replace it.

`FlagTold` names the steps that stay clear of these, by what the queue holds before the step, and it
is exact.

## Main results

* `once_enqueue_iff`: when `enqueue` leaves one entry for the task.
* `FlagInv.not_mem_dequeue`: a dequeued task is gone.
* `flagInv_step`, `flagTold_of_consistent`: the step lemma, in both directions.
* `eevdf_membership`: flags and maps along a run.
-/

namespace Maios.Sched

open List EevdfRunQueue

/-- Tasks are stored at most once, and exactly when their flag says so; dequeueing removes them. -/
structure MembershipConsistent (s : QueueState) : Prop where
  once : ∀ t, s.queue.occurrences t ≤ 1
  flag : ∀ t, (s.tasks t).sched.onRq = true ↔ t ∈ s.queue.stored
  removed : ∀ t ∈ s.queue.stored, t ∉ (s.step (.dequeue t)).queue.stored

/-- If the task is stored, then the entry that `enqueue` makes for it replaces the one it has. -/
def EntryReplaced (tasks : Tasks) (q : EevdfRunQueue) (t : TaskId) (isWakeup : Bool) : Prop :=
  let s := q.placed isWakeup (tasks t).sched
  if s.ve ≤ q.minVruntime then
    (∀ e ∈ q.eligible.entries, e.2 = t → e.1 = vtKey s.vdeadline t) ∧
      ∀ e ∈ q.ineligible.entries, e.2 ≠ t
  else
    (∀ e ∈ q.eligible.entries, e.2 ≠ t) ∧
      ∀ e ∈ q.ineligible.entries, e.2 = t → e.1 = vtKey s.ve t

instance (tasks : Tasks) (q : EevdfRunQueue) (t : TaskId) (isWakeup : Bool) :
    Decidable (EntryReplaced tasks q t isWakeup) :=
  inferInstanceAs (Decidable (ite _ _ _))

/-- The step stores a task exactly when it sets its flag, and takes one out exactly when it clears
it. Picks and steals clear no flag, so they may find nothing to take: no task is due, and the queue
counts at most one task or stores none. -/
def FlagTold (s : QueueState) : QueueOp → Prop
  | .enqueue t isWakeup => EntryReplaced s.tasks s.queue t isWakeup
  | .putPrev => ∀ t ∈ s.lastPicked, EntryReplaced s.tasks s.queue t false
  | .pickNext => ¬ s.queue.HasDue
  | .stealOne => s.queue.nrRunning ≤ 1 ∨ s.queue.stored = []
  | .dequeue _ => True
  | .tick _ _ => True

instance (s : QueueState) : (op : QueueOp) → Decidable (FlagTold s op)
  | .enqueue t isWakeup => inferInstanceAs (Decidable (EntryReplaced s.tasks s.queue t isWakeup))
  | .putPrev => inferInstanceAs
      (Decidable (∀ t ∈ s.lastPicked, EntryReplaced s.tasks s.queue t false))
  | .pickNext => inferInstanceAs (Decidable (¬ s.queue.HasDue))
  | .stealOne => inferInstanceAs (Decidable (s.queue.nrRunning ≤ 1 ∨ s.queue.stored = []))
  | .dequeue _ | .tick _ _ => isTrue trivial

/-- What the steps keep: the maps agree with the tasks, and so do the flags. -/
structure FlagInv (tasks : Tasks) (q : EevdfRunQueue) : Prop where
  consistent : Consistent tasks q
  flag : ∀ t, (tasks t).sched.onRq = true ↔ t ∈ q.stored

variable {q q' : EevdfRunQueue} {tasks : Tasks} {s : QueueState}

/-- A dequeued task is not stored any more. -/
theorem FlagInv.not_mem_dequeue (h : FlagInv tasks q) (t : TaskId) :
    t ∉ (dequeue tasks q t).2.stored := by
  by_cases ht : t ∈ q.stored
  · have hperm := stored_dequeue_perm h.consistent ((h.flag t).mpr ht) ht
    have hone := h.consistent.once t
    rw [occurrences, hperm.count_eq t, count_cons_self] at hone
    exact count_eq_zero.mp (by omega)
  · rw [stored_dequeue_of_not_mem h.consistent ht]
    exact ht

theorem FlagInv.membershipConsistent (h : FlagInv s.tasks s.queue) : MembershipConsistent s :=
  ⟨h.consistent.once, h.flag, fun t _ => h.not_mem_dequeue t⟩

/-! ### Enqueue -/

section Enqueue

variable {tasks : Tasks} {q : EevdfRunQueue} {t : TaskId} {isWakeup : Bool}
  (m : OrdMap VtKey TaskId)

/-- A map has one entry for a task after inserting one exactly if the other entries, under other
keys, are for other tasks. -/
theorem count_insert_le_one (k : VtKey) (t : TaskId) :
    ((m.insert k t).ids id).count t ≤ 1 ↔ ∀ e ∈ m.entries, e.2 = t → e.1 = k := by
  rw [OrdMap.count_insert, id_eq, count_singleton_self]
  refine ⟨fun h e he heq => ?_, fun h => ?_⟩
  · by_contra hne
    have hzero : ((m.remove k).ids id).count t = 0 := by omega
    refine count_eq_zero.mp hzero ?_
    exact mem_map.mpr ⟨e, OrdMap.mem_remove.mpr ⟨he, hne⟩, heq⟩
  · have hzero : ((m.remove k).ids id).count t = 0 := by
      refine count_eq_zero.mpr fun hmem => ?_
      obtain ⟨e, he, heq⟩ := mem_map.mp hmem
      obtain ⟨hmem, hne⟩ := OrdMap.mem_remove.mp he
      exact hne (h e hmem heq)
    omega

/-- A task has no entry in a map. -/
theorem count_ids_eq_zero (t : TaskId) : (m.ids id).count t = 0 ↔ ∀ e ∈ m.entries, e.2 ≠ t := by
  rw [count_eq_zero]
  refine ⟨fun h e he heq => h (mem_map.mpr ⟨e, he, heq⟩), fun h hmem => ?_⟩
  obtain ⟨e, he, heq⟩ := mem_map.mp hmem
  exact h e he heq

/-- After `enqueue` a task is stored once exactly if the new entry replaces what it had. -/
theorem once_enqueue_iff (tasks : Tasks) (q : EevdfRunQueue) (t : TaskId) (isWakeup : Bool) :
    (enqueue tasks q t isWakeup).2.occurrences t ≤ 1 ↔
      EntryReplaced tasks q t isWakeup := by
  have hpos : ∀ (m : OrdMap VtKey TaskId) (k : VtKey), 1 ≤ ((m.insert k t).ids id).count t := by
    intro m k
    rw [OrdMap.count_insert, id_eq, count_singleton_self]
    omega
  rw [occurrences_eq, EntryReplaced]
  obtain ⟨-, ⟨hve, heligible, hineligible⟩ | ⟨hve, heligible, hineligible⟩⟩ :=
    enqueue_cases tasks q t isWakeup
  · rw [if_pos hve, heligible, hineligible, ← count_insert_le_one, ← count_ids_eq_zero]
    have hone := hpos q.eligible (vtKey (q.placed isWakeup (tasks t).sched).vdeadline t)
    omega
  · rw [if_neg hve, heligible, hineligible, ← count_insert_le_one, ← count_ids_eq_zero]
    have hone := hpos q.ineligible (vtKey (q.placed isWakeup (tasks t).sched).ve t)
    omega

theorem mem_stored_enqueue (tasks : Tasks) (q : EevdfRunQueue) (t : TaskId) (isWakeup : Bool) :
    t ∈ (enqueue tasks q t isWakeup).2.stored := by
  have hmem : ∀ (m : OrdMap VtKey TaskId) (k : VtKey), t ∈ (m.insert k t).values := fun m k =>
    mem_map.mpr ⟨(k, t), OrdMap.mem_insert_iff.mpr (.inl rfl), rfl⟩
  rw [stored]
  obtain ⟨-, ⟨-, heligible, -⟩ | ⟨-, -, hineligible⟩⟩ := enqueue_cases tasks q t isWakeup
  · rw [heligible]
    exact mem_append_left _ (hmem _ _)
  · rw [hineligible]
    exact mem_append_right _ (hmem _ _)

theorem flagInv_enqueue (h : FlagInv tasks q) (hg : EntryReplaced tasks q t isWakeup) :
    FlagInv (enqueue tasks q t isWakeup).1
      (enqueue tasks q t isWakeup).2 := by
  have honce := (once_enqueue_iff tasks q t isWakeup).mpr hg
  have hsched := (enqueue_cases tasks q t isWakeup).1
  -- what a map still holds for the task has the new key
  refine ⟨consistent_enqueue_of_key h.consistent ?_ honce, fun u => ?_⟩
  · rw [hsched]
    rw [EntryReplaced] at hg
    split_ifs at hg
    · exact ⟨hg.1, fun e he het => absurd het (hg.2 e he)⟩
    · exact ⟨fun e he het => absurd het (hg.1 e he), hg.2⟩
  · by_cases hu : u = t
    · rw [hu, hsched]
      exact ⟨fun _ => mem_stored_enqueue tasks q t isWakeup, fun _ => rfl⟩
    · rw [tasks_enqueue_of_ne isWakeup hu,
        mem_stored_iff (occurrences_enqueue_of_ne h.consistent.keyed tasks t isWakeup hu)]
      exact h.flag u

end Enqueue

/-! ### The other steps -/

theorem flagInv_dequeue (h : FlagInv tasks q) (t : TaskId) :
    FlagInv (dequeue tasks q t).1 (dequeue tasks q t).2 := by
  refine ⟨consistent_dequeue h.consistent, fun u => ?_⟩
  rw [dequeue_tasks]
  by_cases hu : u = t
  · rw [hu, Tasks.modifySched_self]
    exact ⟨fun hflag => absurd hflag Bool.false_ne_true,
      fun hmem => absurd hmem (h.not_mem_dequeue t)⟩
  · rw [Tasks.modifySched_of_ne tasks _ hu, h.flag u,
      mem_stored_iff (occurrences_dequeue_of_ne h.consistent.keyed tasks hu)]

/-- Taking out a task leaves its flag wrong. -/
theorem none_of_taken {r : Option TaskId} (h : FlagInv tasks q)
    (hperm : q.stored.Perm (r.toList ++ q'.stored))
    (hflag : ∀ t, (tasks t).sched.onRq = true ↔ t ∈ q'.stored) : r = none := by
  cases r with
  | none => rfl
  | some t => ?_
  have hmem : t ∈ q.stored := hperm.mem_iff.mpr mem_cons_self
  have hmem' : t ∈ q'.stored := (hflag t).mp ((h.flag t).mpr hmem)
  have hone := h.consistent.once t
  rw [occurrences, hperm.count_eq t, Option.toList_some, count_append, count_singleton_self] at hone
  have hpos := count_pos_iff.mpr hmem'
  omega

theorem flagInv_of_perm (h : FlagInv tasks q) (hcons : Consistent tasks q')
    (hperm : q.stored.Perm q'.stored) : FlagInv tasks q' :=
  ⟨hcons, fun t => by rw [h.flag t, hperm.mem_iff]⟩

theorem flagInv_tick (h : FlagInv s.tasks s.queue) (current : TaskId) (elapsedNs : ℕ) :
    FlagInv (s.step (.tick current elapsedNs)).tasks
      (s.step (.tick current elapsedNs)).queue := by
  refine ⟨consistent_tick h.consistent current elapsedNs, fun t => ?_⟩
  rw [tick_field TaskSchedInfo.onRq (fun _ => rfl) s current t, stored_tick]
  exact h.flag t

/-! ### Runs -/

theorem flagInv_step (s : QueueState) (op : QueueOp) (h : FlagInv s.tasks s.queue)
    (hg : FlagTold s op) : FlagInv (s.step op).tasks (s.step op).queue := by
  cases op with
  | enqueue t isWakeup => exact flagInv_enqueue h hg
  | dequeue t => exact flagInv_dequeue h t
  | pickNext =>
    obtain ⟨hcons, -, -, hperm⟩ := pickNext_spec h.consistent
    rw [(pickNext_eq_none_iff s.tasks s.queue).mpr hg] at hperm
    exact flagInv_of_perm h hcons hperm
  | putPrev =>
    rw [QueueState.step]
    cases hlast : s.lastPicked with
    | none => exact h
    | some t => exact flagInv_enqueue h (hg t hlast)
  | tick current elapsedNs => exact flagInv_tick h current elapsedNs
  | stealOne =>
    obtain ⟨hcons, hperm⟩ := stealOne_spec h.consistent
    rw [(stealOne_eq_none_iff s.tasks s.queue).mpr hg] at hperm
    exact flagInv_of_perm h hcons hperm

theorem flagTold_of_consistent (h : FlagInv s.tasks s.queue) {op : QueueOp}
    (hcons : MembershipConsistent (s.step op)) : FlagTold s op := by
  cases op with
  | enqueue t isWakeup => exact (once_enqueue_iff s.tasks s.queue t isWakeup).mp (hcons.once t)
  | putPrev =>
    intro t ht
    have hlast : s.lastPicked = some t := ht
    have honce := hcons.once t
    simp only [QueueState.step, hlast] at honce
    exact (once_enqueue_iff s.tasks s.queue t false).mp honce
  | pickNext =>
    refine (pickNext_eq_none_iff s.tasks s.queue).mp ?_
    exact none_of_taken h (pickNext_spec h.consistent).2.2.2 hcons.flag
  | stealOne =>
    refine (stealOne_eq_none_iff s.tasks s.queue).mp ?_
    exact none_of_taken h (stealOne_spec h.consistent).2 hcons.flag
  | dequeue t | tick current elapsedNs => trivial

/-- **Membership.** As long as the steps of a run tell the flags what they do to the maps, every
task is stored at most once and exactly when its flag is set, and dequeueing removes it; and at the
first step that does not, this is lost. -/
theorem eevdf_membership (tasks : Tasks) (hoff : ∀ t, (tasks t).sched.onRq = false)
    (ops : List QueueOp) (hg : Guarded QueueState.step FlagTold (.new tasks) ops) :
    MembershipConsistent (run QueueState.step (.new tasks) ops) ∧
      ∀ op, MembershipConsistent ((run QueueState.step (.new tasks) ops).step op) ↔
        FlagTold (run QueueState.step (.new tasks) ops) op := by
  have hnew : FlagInv (QueueState.new tasks).tasks (QueueState.new tasks).queue := by
    refine ⟨(queueInv_new tasks).consistent, fun t => ?_⟩
    show (tasks t).sched.onRq = true ↔ t ∈ []
    rw [hoff t]
    exact ⟨fun h => (nomatch h), fun h => (nomatch h)⟩
  have hinv : FlagInv _ _ :=
    @Guarded.invariant _ _ _ _ (fun s => FlagInv s.tasks s.queue) flagInv_step _ _ hg hnew
  exact ⟨hinv.membershipConsistent, fun op => ⟨flagTold_of_consistent hinv,
    fun hop => (flagInv_step _ op hinv hop).membershipConsistent⟩⟩

/-- Enqueueing, waking and dequeueing different tasks keeps the flags right. -/
theorem eevdf_membership_two :
    MembershipConsistent (run QueueState.step (.new fun _ => {})
      [.enqueue 1 false, .enqueue 2 true, .tick 3 1000, .dequeue 1, .dequeue 1, .enqueue 1 true]) :=
  And.left (eevdf_membership _ (fun _ => rfl) _
    ⟨by decide, by decide, by decide, by decide, by decide, by decide, trivial⟩)

/-- A task that is woken twice is stored twice. -/
theorem eevdf_membership_lost :
    ¬ MembershipConsistent (run QueueState.step (.new fun _ => {})
      [.enqueue 1 true, .enqueue 1 true]) := by
  intro h
  have honce := h.once 1
  revert honce
  decide

end Maios.Sched
