import Maios.Sched.DeadlineAdmission

/-!
# The budget of a running deadline task

The constant-bandwidth server should throttle a deadline task that has used up its runtime. The
budget of a task is in its entry in the queue, and `pick_next` removes the entry of the task that it
returns. So `tick` does not find the budget of the running task, and lets it run on, unless the task
was enqueued more than once and another entry of it is still there.

What a running task was charged since it was picked, and whether a tick throttled it, is tracked
beside the queue, until the task is enqueued again. So is what decides whether its budget can be
found: whether the pick left an entry of it, and whether it was dequeued since. `KeepsEntry` is the
condition in these terms. It does not ask what a tick finds: that a budget is there, that it fits
into what is left of the runtime, and that it is used up in time, is the invariant `Tracked`.

## Main results

* `findKey_insert_of_ne`, `findKey_remove_of_ne`: the operations on one task leave the entry that a
  tick finds for another.
* `tracked_tick`: the entry of a running task through a tick.
* `budgetInv_step`: the step lemma.
* `deadline_budget_enforced`: budgets along a run, and what breaks them.
-/

namespace Maios.Sched

open List DeadlineRunQueue Function

/-- The runtime per period of a task of this class. -/
def SchedClass.runtime : SchedClass → ℕ
  | .deadline runtime _ _ => runtime
  | _ => 0

variable {tasks : Tasks}

namespace DeadlineRunQueue

variable {q : DeadlineRunQueue} {t u : TaskId}

/-! ### The entry that is found -/

/-- An insertion for another task does not change which entry is found. -/
theorem findKey_insert_of_ne {key : VtKey} {entry : DlTask} (hkey : key.taskId ≠ u) (bw nr : ℕ) :
    findKey ⟨q.tasks.insert key entry, bw, nr⟩ u = q.findKey u :=
  OrdMap.find?_insertEntry_of_not (p := fun k : VtKey => decide (k.taskId = u)) (decide_eq_false hkey)

theorem findKey_remove_of_ne {key : VtKey} (hkey : key.taskId ≠ u) (bw nr : ℕ) :
    findKey ⟨q.tasks.remove key, bw, nr⟩ u = q.findKey u := by
  rw [findKey, findKey]
  dsimp only [OrdMap.remove]
  rw [find?_filter]
  refine congrFun (congrArg find? (funext fun e => decide_eq_decide.mpr ?_)) _
  simp only [decide_eq_true_eq]
  refine and_iff_right_of_imp fun hid heq => hkey ?_
  rwa [← heq]

/-- A new value under the key that is found is what is found next. -/
theorem findKey_insert_self {e : VtKey × DlTask} (h : q.findKey t = some e) (entry : DlTask)
    (bw nr : ℕ) : findKey ⟨q.tasks.insert e.1 entry, bw, nr⟩ t = some (e.1, entry) :=
  OrdMap.find?_insertEntry_of_find? (p := fun k : VtKey => decide (k.taskId = t)) h

/-- Where the queue has an entry of a task, one is found. -/
theorem exists_findKey {e : VtKey × DlTask} (he : e ∈ q.tasks.entries) (hid : e.1.taskId = t) :
    ∃ e', q.findKey t = some e' := by
  refine Option.isSome_iff_exists.mp (find?_isSome.mpr ⟨e, he, ?_⟩)
  exact decide_eq_true hid

/-- What `tick` does, by the entry that it finds. -/
theorem tick_of_findKey_none (h : q.findKey t = none) (elapsedNs : ℕ) :
    tick q t elapsedNs = (false, q) := by
  rw [tick, h]

theorem tick_of_findKey_some {e : VtKey × DlTask} (h : q.findKey t = some e) (elapsedNs : ℕ) :
    (tick q t elapsedNs).1 = decide (e.2.budgetRemaining ≤ elapsedNs) ∧
      (tick q t elapsedNs).2.findKey t =
        some (e.1, { e.2 with budgetRemaining := e.2.budgetRemaining - elapsedNs }) := by
  rw [tick, h]
  dsimp only
  split_ifs with hlt
  · exact ⟨(decide_eq_false (not_le.mpr hlt)).symm, findKey_insert_self h _ _ _⟩
  · refine ⟨(decide_eq_true (not_lt.mp hlt)).symm, ?_⟩
    rw [Nat.sub_eq_zero_of_le (not_lt.mp hlt)]
    exact findKey_insert_self h _ _ _

theorem findKey_tick_of_ne (hne : t ≠ u) (elapsedNs : ℕ) :
    (tick q t elapsedNs).2.findKey u = q.findKey u := by
  rw [tick]
  cases hfind : q.findKey t with
  | none => rfl
  | some e =>
    have hkey : e.1.taskId ≠ u := (findKey_some hfind).2 ▸ hne
    dsimp only
    split_ifs <;> exact findKey_insert_of_ne hkey _ _

theorem findKey_dequeue_of_ne (hne : t ≠ u) : (dequeue tasks q t).findKey u = q.findKey u := by
  rw [dequeue]
  cases hfind : q.findKey t with
  | none => rfl
  | some e => exact findKey_remove_of_ne ((findKey_some hfind).2 ▸ hne) _ _

theorem findKey_enqueue_of_ne {q' : DeadlineRunQueue} {nowNs : ℕ}
    (h : enqueue tasks q t nowNs = .ok q') (hne : t ≠ u) : q'.findKey u = q.findKey u := by
  obtain ⟨runtime, deadline, period, -, rfl⟩ := enqueue_ok h
  exact findKey_insert_of_ne (by rwa [taskId_vtKey]) _ _

/-- A pick that returns a task takes an entry of that task; one that returns none may put off the
entry of a task without budget, which is still found. -/
theorem findKey_pickNext (h : Wf tasks q) (u : TaskId) :
    (pickNext tasks q).2.findKey u = q.findKey u ∨ (pickNext tasks q).1 = some u ∨
      (pickNext tasks q).1 = none ∧ (∃ e, (pickNext tasks q).2.findKey u = some e) ∧
        ∃ e ∈ q.findKey u, e.2.budgetRemaining = 0 := by
  rw [pickNext]
  cases hfirst : q.tasks.first? with
  | none => exact .inl rfl
  | some e => ?_
  have hmem := OrdMap.first?_mem hfirst
  have hid : e.1.taskId = e.2.task := h.keyed e hmem
  dsimp only
  split_ifs with hbudget
  · obtain rfl | hne := eq_or_ne e.2.task u
    · refine .inr (.inr ?_)
      have hfound : q.findKey e.2.task = some e := by
        rw [findKey]
        obtain ⟨rest, hentries⟩ : ∃ rest, q.tasks.entries = e :: rest :=
          ⟨_, (cons_head?_tail hfirst).symm⟩
        rw [hentries]
        exact find?_cons_of_pos (decide_eq_true hid)
      have hclass := h.policy e hmem
      cases hpolicy : (tasks e.2.task).sched.policy with
      | deadline runtime deadline period =>
        refine ⟨rfl, ?_, e, hfound, hbudget⟩
        exact exists_findKey (OrdMap.mem_insert_iff.mpr (.inl rfl)) (taskId_vtKey _ _)
      | idle | batch | normal | compute | roundRobin | fifo =>
        rw [hpolicy] at hclass
        cases hclass
    · refine .inl ?_
      have hkey : e.1.taskId ≠ u := hid ▸ hne
      have hremove := fun bw nr => findKey_remove_of_ne (q := q) hkey bw nr
      cases (tasks e.2.task).sched.policy with
      | deadline runtime deadline period =>
        exact (findKey_insert_of_ne (q := ⟨q.tasks.remove e.1, 0, 0⟩) (by rwa [taskId_vtKey]) _ _).trans
          (hremove 0 0)
      | idle | batch | normal | compute | roundRobin | fifo => exact hremove _ _
  · obtain rfl | hne := eq_or_ne e.2.task u
    · exact .inr (.inl rfl)
    · exact .inl (findKey_remove_of_ne (hid ▸ hne) _ _)

/-! ### Budgets -/

/-- No entry has more budget than its task has runtime. -/
def BudgetsFit (tasks : Tasks) (q : DeadlineRunQueue) : Prop :=
  ∀ e ∈ q.tasks.entries, e.2.budgetRemaining ≤ (tasks e.2.task).sched.policy.runtime

theorem BudgetsFit.evolve {q q' : DeadlineRunQueue} (h : BudgetsFit tasks q)
    (he : Evolves tasks q q') : BudgetsFit tasks q' := by
  intro e hmem
  rcases he e hmem with ⟨-, deadline, period, hpolicy⟩ | ⟨e₀, hmem₀, -, htask, hle⟩
  · rw [hpolicy]
    exact le_rfl
  · rw [← htask]
    exact hle.trans (h e₀ hmem₀)

theorem BudgetsFit.findKey_le (h : BudgetsFit tasks q) (hwf : Wf tasks q) {e : VtKey × DlTask}
    (hfind : q.findKey t = some e) : e.2.budgetRemaining ≤ (tasks t).sched.policy.runtime := by
  obtain ⟨hmem, hid⟩ := findKey_some hfind
  have htask : e.2.task = t := (hwf.keyed e hmem).symm.trans hid
  exact htask ▸ h e hmem

/-- A task that is picked has budget left, and so a runtime. -/
theorem BudgetsFit.runtime_pos (h : BudgetsFit tasks q) (hpick : (pickNext tasks q).1 = some t) :
    0 < (tasks t).sched.policy.runtime := by
  rw [pickNext] at hpick
  cases hfirst : q.tasks.first? with
  | none =>
    rw [hfirst] at hpick
    cases hpick
  | some e => ?_
  have hentry := h e (OrdMap.first?_mem hfirst)
  rw [hfirst] at hpick
  dsimp only at hpick
  split_ifs at hpick
  · split at hpick <;> cases hpick
  · cases hpick
    omega

end DeadlineRunQueue

/-! ### Runs -/

/-- What happened to a task since it was picked. -/
structure Charge where
  /-- What the ticks charged. -/
  total : ℕ
  /-- A tick returned `true`. -/
  throttled : Bool
  /-- The pick left another entry of the task in the queue. -/
  entryLeft : Bool
  /-- The task was dequeued. -/
  dequeued : Bool
  deriving DecidableEq, Repr

/-- A deadline queue, and the tasks that were picked and not enqueued again. -/
structure BudgetState where
  queue : DeadlineRunQueue
  running : TaskId → Option Charge

namespace BudgetState

def new : BudgetState := ⟨.new, fun _ => none⟩

/-- The charge of a task after a tick with this verdict. -/
def charge (elapsedNs : ℕ) (verdict : Bool) (c : Charge) : Charge :=
  { c with total := c.total + elapsedNs, throttled := c.throttled || verdict }

def step (tasks : Tasks) (s : BudgetState) : DlOp → BudgetState
  | .enqueue t nowNs =>
    match s.queue.enqueue tasks t nowNs with
    | .ok q => ⟨q, update s.running t none⟩
    | .error _ => s
  | .dequeue t =>
    ⟨s.queue.dequeue tasks t,
      update s.running t ((s.running t).map fun c => { c with dequeued := true })⟩
  | .pickNext =>
    match s.queue.pickNext tasks with
    | (some t, q) => ⟨q, update s.running t (some ⟨0, false, (q.findKey t).isSome, false⟩)⟩
    | (none, q) => ⟨q, s.running⟩
  | .tick t elapsedNs =>
    let r := s.queue.tick t elapsedNs
    ⟨r.2, update s.running t ((s.running t).map (charge elapsedNs r.1))⟩

end BudgetState

/-- A running task that was charged its runtime was throttled. -/
def BudgetsEnforced (tasks : Tasks) (s : BudgetState) : Prop :=
  ∀ t, ∀ c ∈ s.running t, (tasks t).sched.policy.runtime ≤ c.total → c.throttled = true

/-- A tick that charges a running task up to its runtime is of a task of which the pick left an entry
and that was not dequeued since. Nothing is asked of the other steps. -/
def KeepsEntry (tasks : Tasks) (s : BudgetState) : DlOp → Prop
  | .tick t elapsedNs => ∀ c ∈ s.running t,
      (tasks t).sched.policy.runtime ≤ c.total + elapsedNs → c.entryLeft = true ∧ c.dequeued = false
  | .enqueue _ _ => True
  | .dequeue _ => True
  | .pickNext => True

instance (tasks : Tasks) (s : BudgetState) : (op : DlOp) → Decidable (KeepsEntry tasks s op)
  | .tick t elapsedNs => inferInstanceAs (Decidable (∀ c ∈ s.running t,
      (tasks t).sched.policy.runtime ≤ c.total + elapsedNs →
        c.entryLeft = true ∧ c.dequeued = false))
  | .enqueue _ _ | .dequeue _ | .pickNext => isTrue trivial

/-- A running task that was not dequeued: if no entry of it was left, then none is there and it was
not throttled; if one was left, then it was throttled, or an entry is there whose budget fits into
what it has not been charged of its runtime, and is not used up once it was charged at all. -/
structure Tracked (tasks : Tasks) (q : DeadlineRunQueue) (t : TaskId) (c : Charge) : Prop where
  absent : c.entryLeft = false → c.throttled = false ∧ q.findKey t = none
  followed : c.entryLeft = true → c.throttled = false → ∃ e ∈ q.findKey t,
    c.total + e.2.budgetRemaining ≤ (tasks t).sched.policy.runtime ∧
      (c.total = 0 ∨ 0 < e.2.budgetRemaining)

/-- What the steps keep. -/
structure BudgetInv (tasks : Tasks) (s : BudgetState) : Prop where
  wf : s.queue.Wf tasks
  fit : s.queue.BudgetsFit tasks
  enforced : BudgetsEnforced tasks s
  tracked : ∀ t, ∀ c ∈ s.running t, c.dequeued = false → Tracked tasks s.queue t c

theorem budgetInv_new (tasks : Tasks) : BudgetInv tasks .new :=
  ⟨wf_new tasks, forall_mem_nil _, fun _ _ hc => (nomatch hc), fun _ _ hc => (nomatch hc)⟩

section Step

variable {q : DeadlineRunQueue} {t : TaskId} {c : Charge} {s : BudgetState}

/-- Only the entry that a tick finds matters. -/
theorem Tracked.congr {q' : DeadlineRunQueue} (h : Tracked tasks q t c)
    (hfind : q'.findKey t = q.findKey t) : Tracked tasks q' t c := by
  refine ⟨fun hleft => ?_, fun hleft hthrottled => ?_⟩ <;> rw [hfind]
  · exact h.absent hleft
  · exact h.followed hleft hthrottled

/-- The entry through a tick: it is charged what the task is charged. -/
theorem tracked_tick (h : Tracked tasks q t c) (elapsedNs : ℕ) :
    Tracked tasks (q.tick t elapsedNs).2 t
      (BudgetState.charge elapsedNs (q.tick t elapsedNs).1 c) := by
  refine ⟨fun hleft => ?_, fun hleft hthrottled => ?_⟩
  · obtain ⟨hno, hnone⟩ := h.absent hleft
    rw [tick_of_findKey_none hnone]
    exact ⟨Bool.or_eq_false_iff.mpr ⟨hno, rfl⟩, hnone⟩
  · obtain ⟨hno, hverdict⟩ := Bool.or_eq_false_iff.mp hthrottled
    obtain ⟨e, hfind, hle, -⟩ := h.followed hleft hno
    obtain ⟨htick, hafter⟩ := tick_of_findKey_some hfind elapsedNs
    -- the tick did not throttle, so the budget was more than the time that passed
    rw [htick] at hverdict
    have hlt : elapsedNs < e.2.budgetRemaining := not_le.mp (of_decide_eq_false hverdict)
    refine ⟨_, hafter, ?_, .inr ?_⟩
    · dsimp only [BudgetState.charge]
      omega
    · dsimp only
      omega

/-- A tick that charges a tracked task up to its runtime throttles it exactly if an entry was left. -/
theorem throttled_charge_iff (h : Tracked tasks q t c) {elapsedNs : ℕ}
    (hle : (tasks t).sched.policy.runtime ≤ c.total + elapsedNs) :
    (BudgetState.charge elapsedNs (q.tick t elapsedNs).1 c).throttled = true ↔
      c.entryLeft = true := by
  rw [BudgetState.charge, Bool.or_eq_true_iff]
  cases hleft : c.entryLeft with
  | false =>
    obtain ⟨hno, hnone⟩ := h.absent hleft
    rw [hno, tick_of_findKey_none hnone]
    exact ⟨fun hor => hor.elim id id, fun htrue => (nomatch htrue)⟩
  | true =>
    refine ⟨fun _ => rfl, fun _ => or_iff_not_imp_left.mpr fun hthrottled => ?_⟩
    obtain ⟨e, hfind, hfits, -⟩ := h.followed hleft (Bool.not_eq_true _ ▸ hthrottled)
    rw [(tick_of_findKey_some hfind elapsedNs).1]
    exact decide_eq_true (by omega)

theorem evolves_step (s : BudgetState) (op : DlOp) :
    Evolves tasks s.queue (s.step tasks op).queue := by
  cases op with
  | enqueue t nowNs =>
    rw [BudgetState.step]
    cases hok : s.queue.enqueue tasks t nowNs with
    | error e => exact .of_subset fun _ he => he
    | ok q => exact evolves_enqueue hok
  | dequeue t => exact evolves_dequeue t
  | pickNext =>
    have hpick := @evolves_pickNext tasks s.queue
    rw [BudgetState.step]
    rcases hnext : s.queue.pickNext tasks with ⟨picked, q⟩
    rw [hnext] at hpick
    cases picked <;> exact hpick
  | tick t elapsedNs => exact evolves_tick t elapsedNs

/-- The charge of one task changes, and the entries of the other tasks are found as before. -/
theorem BudgetInv.update (h : BudgetInv tasks s) {r : Option Charge} (hwf : q.Wf tasks)
    (hfit : q.BudgetsFit tasks) (hframe : ∀ u, u ≠ t → q.findKey u = s.queue.findKey u)
    (henforced : ∀ c ∈ r, (tasks t).sched.policy.runtime ≤ c.total → c.throttled = true)
    (htracked : ∀ c ∈ r, c.dequeued = false → Tracked tasks q t c) :
    BudgetInv tasks ⟨q, update s.running t r⟩ := by
  refine ⟨hwf, hfit, ?_, ?_⟩
  · refine (forall_update_iff s.running fun u r => ∀ c ∈ r,
      (tasks u).sched.policy.runtime ≤ c.total → c.throttled = true).mpr ⟨henforced, fun u _ => ?_⟩
    exact h.enforced u
  · refine (forall_update_iff s.running fun u r => ∀ c ∈ r,
      c.dequeued = false → Tracked tasks q u c).mpr ⟨htracked, fun u hu c hc hno => ?_⟩
    exact (h.tracked u c hc hno).congr (hframe u hu)

theorem budgetInv_enqueue (h : BudgetInv tasks s) (t : TaskId) (nowNs : ℕ) :
    BudgetInv tasks (s.step tasks (.enqueue t nowNs)) := by
  have hevolves : Evolves tasks s.queue (s.step tasks (.enqueue t nowNs)).queue := evolves_step s _
  rw [BudgetState.step] at hevolves ⊢
  cases hok : s.queue.enqueue tasks t nowNs with
  | error e => exact h
  | ok q =>
    rw [hok] at hevolves
    exact h.update (h.wf.evolve hevolves) (h.fit.evolve hevolves)
      (fun u hu => findKey_enqueue_of_ne hok hu.symm) (fun c hc => (nomatch hc))
      fun c hc => (nomatch hc)

theorem budgetInv_dequeue (h : BudgetInv tasks s) (t : TaskId) :
    BudgetInv tasks (s.step tasks (.dequeue t)) := by
  refine h.update (h.wf.evolve (evolves_dequeue t)) (h.fit.evolve (evolves_dequeue t))
    (fun u hu => findKey_dequeue_of_ne hu.symm) (fun c hc hle => ?_) fun c hc hno => ?_ <;>
    obtain ⟨c₀, hc₀, rfl⟩ := Option.mem_map.mp hc
  · exact h.enforced t c₀ hc₀ hle
  · cases hno

theorem budgetInv_pickNext (h : BudgetInv tasks s) :
    BudgetInv tasks (s.step tasks .pickNext) := by
  have hevolves := @evolves_pickNext tasks s.queue
  have hfind := findKey_pickNext h.wf
  have hruntime := @BudgetsFit.runtime_pos tasks s.queue
  rw [BudgetState.step]
  rcases hnext : s.queue.pickNext tasks with ⟨picked, q⟩
  rw [hnext] at hevolves hfind hruntime
  have hwf := h.wf.evolve hevolves
  have hfit := h.fit.evolve hevolves
  cases picked with
  | none =>
    refine ⟨hwf, hfit, h.enforced, fun t c hc hno => ?_⟩
    have htracked := h.tracked t c hc hno
    rcases hfind t with hsame | hpicked | ⟨-, ⟨e', he'⟩, e, he, hzero⟩
    · exact htracked.congr hsame
    · cases hpicked
    -- the entry was put off: the task has not been charged, and any budget fits
    refine ⟨fun hleft => ?_, fun hleft hthrottled => ?_⟩
    · rw [(htracked.absent hleft).2] at he
      cases he
    · obtain ⟨e₀, he₀, -, hcharged⟩ := htracked.followed hleft hthrottled
      obtain rfl := Option.some.inj (he₀.symm.trans he)
      have hnone : c.total = 0 := hcharged.resolve_right (by omega)
      refine ⟨e', he', ?_, .inl hnone⟩
      rw [hnone, Nat.zero_add]
      exact hfit.findKey_le hwf he'
  | some t =>
    refine h.update hwf hfit (fun u hu => ?_) (fun c hc hle => ?_) fun c hc _ => ?_
    · rcases hfind u with hsame | hpicked | ⟨hpicked, -⟩
      · exact hsame
      · exact absurd (Option.some.inj hpicked).symm hu
      · cases hpicked
    · cases hc
      exact absurd (hruntime h.fit rfl) (not_lt.mpr hle)
    · cases hc
      refine ⟨fun hleft => ⟨rfl, ?_⟩, fun hleft _ => ?_⟩
      · exact Option.not_isSome_iff_eq_none.mp (Bool.not_eq_true _ ▸ hleft)
      · obtain ⟨e, he⟩ := Option.isSome_iff_exists.mp hleft
        refine ⟨e, he, ?_, .inl rfl⟩
        rw [Nat.zero_add]
        exact hfit.findKey_le hwf he

theorem budgetInv_tick (h : BudgetInv tasks s) {t : TaskId} {elapsedNs : ℕ}
    (hg : KeepsEntry tasks s (.tick t elapsedNs)) :
    BudgetInv tasks (s.step tasks (.tick t elapsedNs)) := by
  refine h.update (h.wf.evolve (evolves_tick t elapsedNs)) (h.fit.evolve (evolves_tick t elapsedNs))
    (fun u hu => findKey_tick_of_ne hu.symm elapsedNs) (fun c hc hle => ?_) fun c hc hno => ?_ <;>
    obtain ⟨c₀, hc₀, rfl⟩ := Option.mem_map.mp hc
  · obtain ⟨hleft, hno⟩ := hg c₀ hc₀ hle
    exact (throttled_charge_iff (h.tracked t c₀ hc₀ hno) hle).mpr hleft
  · exact tracked_tick (h.tracked t c₀ hc₀ hno) elapsedNs

theorem budgetInv_step (s : BudgetState) (op : DlOp) (h : BudgetInv tasks s)
    (hg : KeepsEntry tasks s op) : BudgetInv tasks (s.step tasks op) := by
  cases op with
  | enqueue t nowNs => exact budgetInv_enqueue h t nowNs
  | dequeue t => exact budgetInv_dequeue h t
  | pickNext => exact budgetInv_pickNext h
  | tick t elapsedNs => exact budgetInv_tick h hg

/-- A tick of a task that was not dequeued does not throttle it if no entry of it was left. -/
theorem keepsEntry_of_enforced (h : BudgetInv tasks s) {op : DlOp}
    (hno : ∀ t elapsedNs, op = .tick t elapsedNs → ∀ c ∈ s.running t, c.dequeued = false)
    (henforced : BudgetsEnforced tasks (s.step tasks op)) : KeepsEntry tasks s op := by
  cases op with
  | enqueue t nowNs | dequeue t | pickNext => trivial
  | tick t elapsedNs =>
    intro c hc hle
    have hnot := hno t elapsedNs rfl c hc
    refine ⟨(throttled_charge_iff (h.tracked t c hc hnot) hle).mp ?_, hnot⟩
    refine henforced t _ ?_ hle
    rw [BudgetState.step]
    dsimp only
    rw [update_self]
    exact Option.mem_map_of_mem _ hc

end Step

end Maios.Sched
