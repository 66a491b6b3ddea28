import Maios.Sched.EevdfMembership

/-!
# When an EEVDF queue has a task to run

A task of a queue is *due* if it is in the eligible map, or in the other map with an eligibility time
that the clock of the queue has reached. `advance_eligibility` moves exactly the due tasks of the
second kind over to the eligible map, and `pick_next` then takes the first of all. So what a pick does
to a queue can be read off the queue before it. That is the form in which the conditions on runs are
stated: none of them asks what an operation returns.

The keys that are due matter besides the tasks, since a task that is moved replaces what its new key
had (`dueKeys`).

## Main results

* `mem_advanceEligibility_ineligible`, `mem_keys_advanceEligibility`: what advancing eligibility does.
* `pickNext_isSome_iff`: a task is picked exactly if one is due.
* `pickNext_of_not_hasDue`: a pick that finds no due task leaves the queue as it is.
* `eligible_pickNext_ne_nil_iff`: a task is left in the eligible map exactly if two keys were due.
* `stealOne_isSome_iff`: a task is stolen exactly if the queue counts two and stores one.
-/

namespace Maios.Sched

namespace EevdfRunQueue

open List

/-- The task of an entry that is not eligible yet can be made eligible now. -/
def Reached (q : EevdfRunQueue) (key : VtKey) : Prop := (ofLex key).1 ≤ q.minVruntime

instance (q : EevdfRunQueue) (key : VtKey) : Decidable (q.Reached key) :=
  inferInstanceAs (Decidable (_ ≤ _))

/-- A task is eligible, or can be made so. -/
def HasDue (q : EevdfRunQueue) : Prop :=
  q.eligible.entries ≠ [] ∨ ∃ e ∈ q.ineligible.entries, q.Reached e.1

instance (q : EevdfRunQueue) : Decidable q.HasDue :=
  inferInstanceAs (Decidable (_ ∨ _))

/-- The keys in the eligible map, and those under which the tasks that the clock has reached go
there. -/
def dueKeys (tasks : Tasks) (q : EevdfRunQueue) : List VtKey :=
  q.eligible.entries.map Prod.fst ++
    (q.ineligible.entries.filter fun e => decide (q.Reached e.1)).map fun e =>
      vtKey (tasks e.2).sched.vdeadline e.2

variable (tasks : Tasks) {q : EevdfRunQueue}

theorem Reached.of_le {k k' : VtKey} (h : q.Reached k') (hle : k ≤ k') : q.Reached k :=
  le_trans (Prod.Lex.monotone_fst k k' hle) h

theorem mem_dueKeys_iff {k : VtKey} : k ∈ q.dueKeys tasks ↔ (∃ e ∈ q.eligible.entries, e.1 = k) ∨
    ∃ e ∈ q.ineligible.entries, q.Reached e.1 ∧ vtKey (tasks e.2).sched.vdeadline e.2 = k := by
  simp only [dueKeys, mem_append, mem_map, mem_filter, decide_eq_true_eq, and_assoc]

theorem dueKeys_ne_nil_iff : q.dueKeys tasks ≠ [] ↔ q.HasDue := by
  rw [ne_eq, eq_nil_iff_forall_not_mem, not_forall_not, HasDue, ne_eq, eq_nil_iff_forall_not_mem,
    not_forall_not]
  simp only [mem_dueKeys_iff]
  constructor
  · rintro ⟨k, ⟨e, he, -⟩ | ⟨e, he, hreached, -⟩⟩
    · exact .inl ⟨e, he⟩
    · exact .inr ⟨e, he, hreached⟩
  · rintro (⟨e, he⟩ | ⟨e, he, hreached⟩)
    · exact ⟨e.1, .inl ⟨e, he, rfl⟩⟩
    · exact ⟨_, .inr ⟨e, he, hreached, rfl⟩⟩

/-! ### Advancing eligibility -/

/-- The entries with these keys have gone from the ineligible to the eligible map, under the keys that
the virtual deadlines give. -/
structure Promotes (tasks : Tasks) (keys : List VtKey) (q q' : EevdfRunQueue) : Prop where
  ineligible : ∀ e, e ∈ q'.ineligible.entries ↔ e ∈ q.ineligible.entries ∧ e.1 ∉ keys
  eligible : ∀ e ∈ q'.eligible.entries, e ∈ q.eligible.entries ∨
    e.1 = vtKey (tasks e.2).sched.vdeadline e.2 ∧ ∃ key ∈ keys, (key, e.2) ∈ q.ineligible.entries
  kept : ∀ e ∈ q.eligible.entries, ∃ e' ∈ q'.eligible.entries, e'.1 = e.1
  moved : ∀ e ∈ q.ineligible.entries, e.1 ∈ keys →
    ∃ e' ∈ q'.eligible.entries, e'.1 = vtKey (tasks e.2).sched.vdeadline e.2

variable {tasks}

theorem Promotes.refl : Promotes tasks [] q q :=
  ⟨fun _ => ⟨fun he => ⟨he, not_mem_nil⟩, And.left⟩, fun _ he => .inl he, fun e he => ⟨e, he, rfl⟩,
    fun _ _ hkey => absurd hkey not_mem_nil⟩

theorem Promotes.trans {keys keys' : List VtKey} {q' q'' : EevdfRunQueue}
    (h : Promotes tasks keys q q') (h' : Promotes tasks keys' q' q'') :
    Promotes tasks (keys ++ keys') q q'' := by
  refine ⟨fun e => ?_, fun e he => ?_, fun e he => ?_, fun e he hkey => ?_⟩
  · rw [h'.ineligible, h.ineligible, mem_append, not_or, and_assoc]
  · rcases h'.eligible e he with he | ⟨hkey, key, hmem, he⟩
    · refine (h.eligible e he).imp_right ?_
      rintro ⟨hkey, key, hmem, he⟩
      exact ⟨hkey, key, mem_append_left _ hmem, he⟩
    · exact .inr ⟨hkey, key, mem_append_right _ hmem, ((h.ineligible _).mp he).1⟩
  · obtain ⟨e', he', heq⟩ := h.kept e he
    obtain ⟨e'', he'', heq'⟩ := h'.kept e' he'
    exact ⟨e'', he'', heq'.trans heq⟩
  · by_cases hfirst : e.1 ∈ keys
    · obtain ⟨e', he', heq⟩ := h.moved e he hfirst
      obtain ⟨e'', he'', heq'⟩ := h'.kept e' he'
      exact ⟨e'', he'', heq'.trans heq⟩
    · exact h'.moved e ((h.ineligible e).mpr ⟨he, hfirst⟩) ((mem_append.mp hkey).resolve_left hfirst)

theorem promotes_promote (key : VtKey) : Promotes tasks [key] q (promote tasks q key) := by
  rw [promote]
  cases hfind : q.ineligible.find? key with
  | none =>
    have hne := OrdMap.find?_eq_none.mp hfind
    refine ⟨fun e => ⟨fun he => ⟨he, ?_⟩, And.left⟩, fun _ he => .inl he, fun e he => ⟨e, he, rfl⟩, ?_⟩
    · exact fun hkey => hne e he (mem_singleton.mp hkey)
    · exact fun e he hkey => absurd (mem_singleton.mp hkey) (hne e he)
  | some t =>
    have hmem : (key, t) ∈ q.ineligible.entries := OrdMap.find?_eq_some.mp hfind
    have hnew : (vtKey (tasks t).sched.vdeadline t, t) ∈
        (q.eligible.insert (vtKey (tasks t).sched.vdeadline t) t).entries :=
      OrdMap.mem_insert_iff.mpr (.inl rfl)
    refine ⟨fun e => ?_, fun e he => ?_, fun e he => ?_, fun e he hkey => ?_⟩
    · rw [OrdMap.mem_remove, mem_singleton]
    · rcases OrdMap.mem_insert he with rfl | he
      · exact .inr ⟨rfl, key, mem_singleton_self key, hmem⟩
      · exact .inl he
    · by_cases heq : e.1 = vtKey (tasks t).sched.vdeadline t
      · exact ⟨_, hnew, heq.symm⟩
      · exact ⟨e, OrdMap.mem_insert_iff.mpr (.inr ⟨he, heq⟩), rfl⟩
    · obtain rfl : e = (key, t) := OrdMap.entry_ext he hmem (mem_singleton.mp hkey)
      exact ⟨_, hnew, rfl⟩

theorem promotes_foldl (keys : List VtKey) (q : EevdfRunQueue) :
    Promotes tasks keys q (keys.foldl (promote tasks) q) := by
  induction keys generalizing q with
  | nil => exact .refl
  | cons key keys ih => exact (promotes_promote key).trans (ih _)

variable (tasks q)

/-- The keys are sorted, so the loop comes to all that the clock has reached. -/
theorem mem_toPromote_iff {key : VtKey} :
    key ∈ ((q.ineligible.entries.map Prod.fst).takeWhile fun key =>
      decide ((ofLex key).1 ≤ q.minVruntime)) ↔
    (∃ e ∈ q.ineligible.entries, e.1 = key) ∧ q.Reached key := by
  constructor
  · intro hkey
    obtain ⟨e, he, heq⟩ := mem_map.mp (takeWhile_sublist _ |>.subset hkey)
    exact ⟨⟨e, he, heq⟩, of_decide_eq_true (all_eq_true.mp all_takeWhile key hkey)⟩
  · rintro ⟨⟨e, he, rfl⟩, hreached⟩
    refine OrdMap.mem_takeWhile_keys (fun k k' hle hk' => ?_) he (decide_eq_true hreached)
    exact decide_eq_true (Reached.of_le (q := q) (of_decide_eq_true hk') hle)

/-- What is left in the ineligible map is what the clock has not reached. -/
theorem mem_advanceEligibility_ineligible {e : VtKey × TaskId} :
    e ∈ (advanceEligibility tasks q).ineligible.entries ↔
      e ∈ q.ineligible.entries ∧ ¬ q.Reached e.1 := by
  rw [advanceEligibility, (promotes_foldl _ q).ineligible, mem_toPromote_iff]
  refine and_congr_right fun he => not_congr ?_
  exact and_iff_right ⟨e, he, rfl⟩

/-- What is in the eligible map was there, or the clock has reached it. -/
theorem mem_advanceEligibility_eligible {e : VtKey × TaskId}
    (he : e ∈ (advanceEligibility tasks q).eligible.entries) : e ∈ q.eligible.entries ∨
      e.1 = vtKey (tasks e.2).sched.vdeadline e.2 ∧
        ∃ key, q.Reached key ∧ (key, e.2) ∈ q.ineligible.entries := by
  refine ((promotes_foldl _ q).eligible e he).imp_right ?_
  rintro ⟨heq, key, hkey, hmem⟩
  exact ⟨heq, key, ((mem_toPromote_iff q).mp hkey).2, hmem⟩

/-- The keys in the eligible map are those that were due. -/
theorem mem_keys_advanceEligibility {k : VtKey} :
    (∃ e ∈ (advanceEligibility tasks q).eligible.entries, e.1 = k) ↔ k ∈ q.dueKeys tasks := by
  rw [mem_dueKeys_iff]
  constructor
  · rintro ⟨e, he, rfl⟩
    rcases mem_advanceEligibility_eligible tasks q he with he | ⟨heq, key, hreached, hmem⟩
    · exact .inl ⟨e, he, rfl⟩
    · exact .inr ⟨(key, e.2), hmem, hreached, heq.symm⟩
  · rintro (⟨e, he, rfl⟩ | ⟨e, he, hreached, rfl⟩)
    · exact (promotes_foldl _ q).kept e he
    · exact (promotes_foldl _ q).moved e he ((mem_toPromote_iff q).mpr ⟨⟨e, he, rfl⟩, hreached⟩)

theorem minVruntime_advanceEligibility :
    (advanceEligibility tasks q).minVruntime = q.minVruntime := by
  refine advanceEligibility_induct (P := fun q' => q'.minVruntime = q.minVruntime) tasks q
    (fun q' key hq => ?_) rfl
  rcases promote_cases tasks q' key with heq | ⟨t, -, heq⟩ <;> rw [heq] <;> exact hq

/-- After eligibility was advanced, a task is eligible exactly if one was due. -/
theorem advanceEligibility_ne_nil_iff :
    (advanceEligibility tasks q).eligible.entries ≠ [] ↔ q.HasDue := by
  rw [← dueKeys_ne_nil_iff tasks]
  constructor
  · intro h
    obtain ⟨e, he⟩ := exists_mem_of_ne_nil _ h
    exact ne_nil_of_mem ((mem_keys_advanceEligibility tasks q).mp ⟨e, he, rfl⟩)
  · intro h
    obtain ⟨k, hk⟩ := exists_mem_of_ne_nil _ h
    obtain ⟨e, he, -⟩ := (mem_keys_advanceEligibility tasks q).mpr hk
    exact ne_nil_of_mem he

/-! ### Picking -/

/-- **A task is picked exactly if one is due.** -/
theorem pickNext_isSome_iff : (pickNext tasks q).1.isSome = true ↔ q.HasDue := by
  rw [← advanceEligibility_ne_nil_iff tasks]
  rcases pickNext_cases tasks q with ⟨heq, hnil⟩ | ⟨key, t, hmem, heq⟩ <;> rw [heq]
  · exact ⟨fun h => (nomatch h), fun h => absurd hnil h⟩
  · exact ⟨fun _ => ne_nil_of_mem hmem, fun _ => rfl⟩

theorem pickNext_eq_none_iff : (pickNext tasks q).1 = none ↔ ¬ q.HasDue := by
  rw [← pickNext_isSome_iff tasks, Bool.not_eq_true, Option.isSome_eq_false_iff,
    Option.isNone_iff_eq_none]

variable {q} in
/-- Where no task is due, a pick changes nothing. -/
theorem pickNext_of_not_hasDue (h : ¬ q.HasDue) : pickNext tasks q = (none, q) := by
  have hkeys : ((q.ineligible.entries.map Prod.fst).takeWhile fun key =>
      decide ((ofLex key).1 ≤ q.minVruntime)) = [] := by
    refine eq_nil_iff_forall_not_mem.mpr fun key hkey => h (.inr ?_)
    obtain ⟨⟨e, he, rfl⟩, hreached⟩ := (mem_toPromote_iff q).mp hkey
    exact ⟨e, he, hreached⟩
  have hadv : advanceEligibility tasks q = q := by
    rw [advanceEligibility, hkeys]
    rfl
  have hfirst : q.eligible.first? = none :=
    OrdMap.first?_eq_none.mpr (not_ne_iff.mp fun hne => h (.inl hne))
  simp only [pickNext, hadv, hfirst]

/-- Picking leaves a task in the eligible map exactly if two keys were due. -/
theorem eligible_pickNext_ne_nil_iff : (pickNext tasks q).2.eligible.entries ≠ [] ↔
    ∃ k ∈ q.dueKeys tasks, ∃ k' ∈ q.dueKeys tasks, k ≠ k' := by
  simp only [← mem_keys_advanceEligibility]
  rcases pickNext_cases tasks q with ⟨heq, hnil⟩ | ⟨key, t, hmem, heq⟩ <;> rw [heq]
  · rw [hnil]
    refine ⟨fun h => absurd rfl h, ?_⟩
    rintro ⟨k, ⟨e, he, -⟩, -⟩
    exact absurd he not_mem_nil
  constructor
  · intro h
    obtain ⟨e, he⟩ := exists_mem_of_ne_nil _ h
    obtain ⟨he, hne⟩ := OrdMap.mem_remove.mp he
    exact ⟨e.1, ⟨e, he, rfl⟩, key, ⟨_, hmem, rfl⟩, hne⟩
  · -- one of two keys is not the one that is picked
    rintro ⟨k, ⟨e, he, rfl⟩, k', ⟨e', he', rfl⟩, hne⟩
    by_cases hkey : e.1 = key
    · have hkey' : e'.1 ≠ key := fun heq' => hne (hkey.trans heq'.symm)
      exact ne_nil_of_mem (OrdMap.mem_remove.mpr ⟨he', hkey'⟩)
    · exact ne_nil_of_mem (OrdMap.mem_remove.mpr ⟨he, hkey⟩)

/-- Picking leaves in the ineligible map what the clock has not reached. -/
theorem mem_pickNext_ineligible {e : VtKey × TaskId} :
    e ∈ (pickNext tasks q).2.ineligible.entries ↔ e ∈ q.ineligible.entries ∧ ¬ q.Reached e.1 := by
  rw [← mem_advanceEligibility_ineligible tasks]
  rcases pickNext_cases tasks q with ⟨heq, -⟩ | ⟨key, t, -, heq⟩ <;> rw [heq]

theorem minVruntime_pickNext : (pickNext tasks q).2.minVruntime = q.minVruntime := by
  have hadv := minVruntime_advanceEligibility tasks q
  rcases pickNext_cases tasks q with ⟨heq, -⟩ | ⟨key, t, -, heq⟩ <;> rw [heq] <;> exact hadv

/-! ### Stealing -/

theorem stored_eq_nil_iff :
    q.stored = [] ↔ q.eligible.entries = [] ∧ q.ineligible.entries = [] := by
  rw [stored, append_eq_nil_iff, OrdMap.values, OrdMap.values, map_eq_nil_iff, map_eq_nil_iff]

/-- **A task is stolen exactly if the queue counts two and stores one.** -/
theorem stealOne_isSome_iff :
    (stealOne tasks q).1.isSome = true ↔ 1 < q.nrRunning ∧ q.stored ≠ [] := by
  rw [stealOne]
  split_ifs with hnr
  · exact iff_of_false Bool.false_ne_true fun h => absurd hnr (not_le.mpr h.1)
  refine Iff.trans ?_ (and_iff_right (not_le.mp hnr)).symm
  rw [ne_eq, stored_eq_nil_iff]
  cases hlast : q.ineligible.last? with
  | some e => exact ⟨fun _ h => absurd (OrdMap.last?_mem hlast) (h.2 ▸ not_mem_nil), fun _ => rfl⟩
  | none => ?_
  have hempty : q.ineligible.entries = [] := getLast?_eq_none_iff.mp hlast
  cases hlast' : q.eligible.last? with
  | some e => exact ⟨fun _ h => absurd (OrdMap.last?_mem hlast') (h.1 ▸ not_mem_nil), fun _ => rfl⟩
  | none =>
    exact iff_of_false Bool.false_ne_true (not_not.mpr ⟨getLast?_eq_none_iff.mp hlast', hempty⟩)

theorem stealOne_eq_none_iff :
    (stealOne tasks q).1 = none ↔ q.nrRunning ≤ 1 ∨ q.stored = [] := by
  rw [← Option.isNone_iff_eq_none, ← Option.isSome_eq_false_iff, ← Bool.not_eq_true,
    stealOne_isSome_iff, not_and_or, not_lt, ne_eq, not_not]

end EevdfRunQueue

end Maios.Sched
