import Mathlib.Algebra.Ring.Nat
import Mathlib.Data.List.Range
import Maios.Library.Outcome
import Maios.Library.Run

/-!
# Iterating over an inclusive range

The iterator of the `range_inclusive` crate. It has the two bounds of what is still to come and no
flag for being exhausted: it takes a value from an end by moving the bound one step past it. At the
largest number there is no such step forward, and at the smallest none backward. `len` adds one to the
number of steps between the bounds, which wraps around to zero when all numbers are still to come.

The values of every `Step` type used with it are numbers of a `usize`: those of `usize` itself are
one apart, and those of pages and frames as far apart as the size of the page.

## Main results

* `Iter.values_next`, `Iter.values_nextBack`: what is still to come, from either end.
* `step_spec`: the step lemma, for every call.
* `iteration_exact_iff`: iterations are exact if and only if they do not run off the numbers.
-/

namespace Maios.RangeInclusive

/-! ### The iterator -/

variable (stride : ℕ)

/-- `Step::forward_checked` by one. -/
def forwardChecked (n : ℕ) : Option ℕ := if n + stride < 2 ^ 64 then some (n + stride) else none

/-- `Step::backward_checked` by one. -/
def backwardChecked (n : ℕ) : Option ℕ := if stride ≤ n then some (n - stride) else none

/-- `Step::steps_between` -/
def stepsBetween (start end_ : ℕ) : Option ℕ :=
  if start ≤ end_ then some ((end_ - start) / stride) else none

/-- `RangeInclusiveIterator` -/
structure Iter where
  current : ℕ
  end_ : ℕ

namespace Iter

def next (it : Iter) : Outcome String (Option ℕ × Iter) :=
  if it.end_ < it.current then .ok (none, it)
  else
    match forwardChecked stride it.current with
    | some n => .ok (some it.current, { it with current := n })
    | none => .panic

def nextBack (it : Iter) : Outcome String (Option ℕ × Iter) :=
  if it.end_ < it.current then .ok (none, it)
  else
    match backwardChecked stride it.end_ with
    | some n => .ok (some it.end_, { it with end_ := n })
    | none => .panic

/-- `len`. The sum wraps around, as it does in a build without overflow checks. -/
def len (it : Iter) : ℕ :=
  match stepsBetween stride it.current it.end_ with
  | some x => (x + 1) % 2 ^ 64
  | none => 0

end Iter

inductive Call where
  | next
  | nextBack
  | len

/-- An iteration: what came from the front, in this order, what came from the back, the latest first,
and what `len` returned, with the iterator that it was asked of. -/
structure Iteration where
  iter : Iter
  front : List ℕ
  back : List ℕ
  lens : List (ℕ × Iter)
  panicked : Bool

def Iteration.start (start end_ : ℕ) : Iteration := ⟨⟨start, end_⟩, [], [], [], false⟩

def step (s : Iteration) (call : Call) : Iteration :=
  if s.panicked then s
  else
    match call with
    | .next =>
      match s.iter.next stride with
      | .ok (v, iter) => { s with iter := iter, front := s.front ++ v.toList }
      | _ => { s with panicked := true }
    | .nextBack =>
      match s.iter.nextBack stride with
      | .ok (v, iter) => { s with iter := iter, back := v.toList ++ s.back }
      | _ => { s with panicked := true }
    | .len => { s with lens := (s.iter.len stride, s.iter) :: s.lens }

/-! ### What is still to come -/

namespace Iter

/-- The number of values still to come. -/
def count (it : Iter) : ℕ :=
  if it.current ≤ it.end_ then (it.end_ - it.current) / stride + 1 else 0

/-- The values still to come. -/
def values (it : Iter) : List ℕ := List.range' it.current (it.count stride) stride

/-- The bounds are whole steps apart. -/
def Spaced (it : Iter) : Prop := it.current ≤ it.end_ → stride ∣ it.end_ - it.current

variable {stride} {it : Iter}

theorem count_of_lt (h : it.end_ < it.current) : it.count stride = 0 := if_neg (not_le.mpr h)

theorem count_of_eq {k : ℕ} (hs : 0 < stride) (h : it.end_ = it.current + stride * k) :
    it.count stride = k + 1 := by
  rw [count, if_pos (by omega), h, Nat.add_sub_cancel_left, Nat.mul_div_cancel_left k hs]

/-- With something to come, the bounds are some steps apart, and fewer afterwards. -/
theorem Spaced.exists_eq (h : it.Spaced stride) (hle : it.current ≤ it.end_) :
    ∃ k, it.end_ = it.current + stride * k := by
  obtain ⟨k, hk⟩ := h hle
  exact ⟨k, by omega⟩

theorem values_next (hs : 0 < stride) (h : it.Spaced stride) (hle : it.current ≤ it.end_) :
    it.values stride = it.current :: values stride { it with current := it.current + stride } ∧
      Spaced stride { it with current := it.current + stride } := by
  obtain ⟨k, hk⟩ := h.exists_eq hle
  rw [values, count_of_eq hs hk, List.range'_succ]
  cases k with
  | zero =>
    have hlt : it.end_ < it.current + stride := by omega
    refine ⟨?_, fun hle' => absurd hlt (not_lt.mpr hle')⟩
    rw [values, count_of_lt hlt]
  | succ k =>
    have hk' : it.end_ = it.current + stride + stride * k := by
      rw [hk, Nat.mul_succ]
      omega
    refine ⟨?_, fun _ => ⟨k, Nat.sub_eq_of_eq_add' hk'⟩⟩
    rw [values, count_of_eq hs hk']

theorem values_nextBack (hs : 0 < stride) (h : it.Spaced stride) (hle : it.current ≤ it.end_)
    (hstride : stride ≤ it.end_) :
    it.values stride = values stride { it with end_ := it.end_ - stride } ++ [it.end_] ∧
      Spaced stride { it with end_ := it.end_ - stride } := by
  obtain ⟨k, hk⟩ := h.exists_eq hle
  rw [values, count_of_eq hs hk, List.range'_concat, ← hk]
  cases k with
  | zero =>
    have hlt : it.end_ - stride < it.current := by omega
    refine ⟨?_, fun hle' => absurd hlt (not_lt.mpr hle')⟩
    rw [values, count_of_lt hlt]
  | succ k =>
    have hk' : it.end_ - stride = it.current + stride * k := by
      rw [hk, Nat.mul_succ]
      omega
    refine ⟨?_, fun _ => ⟨k, Nat.sub_eq_of_eq_add' hk'⟩⟩
    rw [values, count_of_eq hs hk']

theorem values_eq_nil_iff : it.values stride = [] ↔ it.end_ < it.current := by
  rw [values, List.range'_eq_nil_iff, count]
  split_ifs with h
  · exact iff_of_false id (not_lt.mpr h)
  · exact iff_of_true rfl (not_le.mp h)

theorem length_values : (it.values stride).length = it.count stride := List.length_range'

theorem len_eq : it.len stride = it.count stride % 2 ^ 64 := by
  by_cases h : it.current ≤ it.end_ <;> simp [len, stepsBetween, count, h]

/-- `len` is right unless it wraps around. -/
theorem len_eq_length_iff : it.len stride = (it.values stride).length ↔ it.count stride < 2 ^ 64 := by
  rw [len_eq, length_values, Nat.mod_eq_iff_lt (by decide)]

end Iter

/-! ### Runs -/

variable {stride}

/-- What an iteration over the values `all` owes: no panic, each value once and in order, nothing
only when nothing is left, and the right number of values to come whenever it was asked for. -/
structure Exact (stride : ℕ) (all : List ℕ) (s : Iteration) : Prop where
  returns : s.panicked = false
  values : s.front ++ s.iter.values stride ++ s.back = all
  next : ∀ it, s.iter.next stride = .ok (none, it) → s.iter.values stride = []
  nextBack : ∀ it, s.iter.nextBack stride = .ok (none, it) → s.iter.values stride = []
  len : ∀ r ∈ s.lens, r.1 = (r.2.values stride).length

/-- The largest number is not taken from the front, the smallest not from the back, and `len` is not
asked for while the values to come are as many as all numbers. -/
def Within (stride : ℕ) (s : Iteration) : Call → Prop
  | .next => s.iter.current ≤ s.iter.end_ → s.iter.current + stride < 2 ^ 64
  | .nextBack => s.iter.current ≤ s.iter.end_ → stride ≤ s.iter.end_
  | .len => s.iter.count stride < 2 ^ 64

/-- The calls so far have returned, and `len` with the right numbers. -/
def Returned (stride : ℕ) (s : Iteration) : Prop :=
  s.panicked = false ∧ ∀ r ∈ s.lens, r.1 = (r.2.values stride).length

/-- What a call keeps, and when it returns as it should. -/
theorem step_spec (hs : 0 < stride) {s : Iteration} (h : s.iter.Spaced stride) (call : Call) :
    (step stride s call).iter.Spaced stride ∧
      (step stride s call).front ++ (step stride s call).iter.values stride ++
        (step stride s call).back = s.front ++ s.iter.values stride ++ s.back ∧
      (Returned stride s → (Returned stride (step stride s call) ↔ Within stride s call)) := by
  simp only [step]
  split_ifs with hp
  · exact ⟨h, rfl, fun hret => absurd (hp.symm.trans hret.1) nofun⟩
  have hp' := eq_false_of_ne_true hp
  cases call with
  | next =>
    rw [Iter.next, forwardChecked]
    split_ifs with hlt hfits
    · exact ⟨h, by simp, fun hret =>
        iff_of_true ⟨hp', hret.2⟩ fun hle => absurd hlt (not_lt.mpr hle)⟩
    · obtain ⟨hvalues, hspaced⟩ := Iter.values_next hs h (not_lt.mp hlt)
      exact ⟨hspaced, by simp [hvalues], fun hret => iff_of_true ⟨hp', hret.2⟩ fun _ => hfits⟩
    · exact ⟨h, rfl, fun _ => iff_of_false (fun hret => nomatch hret.1)
        fun hw => hfits (hw (not_lt.mp hlt))⟩
  | nextBack =>
    rw [Iter.nextBack, backwardChecked]
    split_ifs with hlt hfits
    · exact ⟨h, by simp, fun hret =>
        iff_of_true ⟨hp', hret.2⟩ fun hle => absurd hlt (not_lt.mpr hle)⟩
    · obtain ⟨hvalues, hspaced⟩ := Iter.values_nextBack hs h (not_lt.mp hlt) hfits
      exact ⟨hspaced, by simp [hvalues], fun hret => iff_of_true ⟨hp', hret.2⟩ fun _ => hfits⟩
    · exact ⟨h, rfl, fun _ => iff_of_false (fun hret => nomatch hret.1)
        fun hw => hfits (hw (not_lt.mp hlt))⟩
  | len =>
    refine ⟨h, rfl, fun hret => Iff.trans ?_ Iter.len_eq_length_iff⟩
    rw [Returned, List.forall_mem_cons]
    exact ⟨fun hret' => hret'.2.1, fun hlen => ⟨hp', hlen, hret.2⟩⟩

/-- What a call returned is not taken back. -/
theorem Returned.of_step {s : Iteration} {call : Call} (h : Returned stride (step stride s call)) :
    Returned stride s := by
  by_cases hp : s.panicked = true
  · simp only [step, if_pos hp] at h
    exact h
  refine ⟨eq_false_of_ne_true hp, ?_⟩
  simp only [step, if_neg hp] at h
  cases call with
  | next | nextBack =>
    dsimp only at h
    split at h <;> exact h.2
  | len => exact (List.forall_mem_cons.mp h.2).2

/-- **Iteration is exact from both ends if and only if it does not run off the numbers.** For all
bounds that are whole steps apart, and every interleaving of calls. -/
theorem iteration_exact_iff (hs : 0 < stride) (start end_ : ℕ)
    (h : (⟨start, end_⟩ : Iter).Spaced stride) (calls : List Call) :
    Exact stride ((⟨start, end_⟩ : Iter).values stride)
        (run (step stride) (.start start end_) calls) ↔
      Guarded (step stride) (Within stride) (.start start end_) calls := by
  have hkept : (run (step stride) (.start start end_) calls).iter.Spaced stride ∧
      (run (step stride) (.start start end_) calls).front ++
        (run (step stride) (.start start end_) calls).iter.values stride ++
        (run (step stride) (.start start end_) calls).back =
      (⟨start, end_⟩ : Iter).values stride := by
    refine run_invariant (I := fun s : Iteration => s.iter.Spaced stride ∧
      s.front ++ s.iter.values stride ++ s.back = (⟨start, end_⟩ : Iter).values stride)
      (fun s call hI => ?_) ⟨h, List.append_nil _⟩ calls
    obtain ⟨hspaced, heq, -⟩ := step_spec hs hI.1 call
    exact ⟨hspaced, heq.trans hI.2⟩
  have hguarded : Returned stride (run (step stride) (.start start end_) calls) ↔
      Guarded (step stride) (Within stride) (.start start end_) calls := by
    refine run_iff_guarded (I := fun s : Iteration => s.iter.Spaced stride ∧ Returned stride s)
      (P := Returned stride) (fun s hI => hI.2)
      (fun s call hI => (step_spec hs hI.1 call).2.2 hI.2)
      (fun s call hI hw => ⟨(step_spec hs hI.1 call).1, ((step_spec hs hI.1 call).2.2 hI.2).mpr hw⟩)
      (fun s call => Returned.of_step) ⟨h, rfl, List.forall_mem_nil _⟩ calls
  rw [← hguarded]
  refine ⟨fun hexact => ⟨hexact.returns, hexact.len⟩, fun hret => ⟨hret.1, hkept.2,
    fun it hnone => ?_, fun it hnone => ?_, hret.2⟩⟩
  · rw [Iter.next] at hnone
    split_ifs at hnone with hlt
    · exact Iter.values_eq_nil_iff.mpr hlt
    · split at hnone <;> cases hnone
  · rw [Iter.nextBack] at hnone
    split_ifs at hnone with hlt
    · exact Iter.values_eq_nil_iff.mpr hlt
    · split at hnone <;> cases hnone

/-- The pages from 3 to 5, taken from both ends until nothing is left. -/
theorem iteration_exact_pages :
    Exact 1 [3, 4, 5] (run (step 1) (.start 3 5) [.next, .len, .nextBack, .next, .nextBack]) :=
  (iteration_exact_iff (by decide) 3 5 (fun _ => ⟨2, rfl⟩) _).mpr
    ⟨fun _ => (by decide : 4 < 2 ^ 64), (by decide : 2 < 2 ^ 64), fun _ => (by decide : 1 ≤ 5),
      fun _ => (by decide : 5 < 2 ^ 64), fun hle => absurd hle (by decide), trivial⟩

/-- A range that begins at zero cannot be gone through from the back, nor one that ends at the
largest number from the front, and the range of all numbers has the length zero. -/
theorem iteration_panics :
    ¬ Exact 1 [0] (run (step 1) (.start 0 0) [.nextBack]) ∧
      ¬ Exact 1 [2 ^ 64 - 1] (run (step 1) (.start (2 ^ 64 - 1) (2 ^ 64 - 1)) [.next]) ∧
      ¬ Exact 1 ((⟨0, 2 ^ 64 - 1⟩ : Iter).values 1) (run (step 1) (.start 0 (2 ^ 64 - 1)) [.len]) := by
  refine ⟨fun h => absurd h.returns (by decide), fun h => absurd h.returns (by decide), fun h => ?_⟩
  have hlen := h.len _ List.mem_cons_self
  rw [Iter.len_eq_length_iff] at hlen
  revert hlen
  decide

end Maios.RangeInclusive
