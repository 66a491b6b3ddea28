import Mathlib.Tactic.Common

/-!
# Outcomes of a call

What a call of a fallible function comes to: it returns a value, it returns an error, or it does
not return at all, because it panics or waits for a lock that is never released. The last case is
kept apart from an error because nothing the caller does afterwards happens.

## Main definitions

* `Outcome`, with its monad structure
* `Outcome.mapError`, `Outcome.foldl`

## Main results

* `Outcome.foldl_invariant` — the rule for loops
-/

namespace Maios

/-- The outcome of a call that returns `α` or fails with `ε`. -/
inductive Outcome (ε α : Type*) where
  | ok (a : α)
  | err (e : ε)
  /-- The call does not return. -/
  | panic
  deriving DecidableEq, Repr

namespace Outcome

variable {ε ε' α β : Type*} {x : Outcome ε α}

/-- Continue with the value, if there is one. -/
def bind (x : Outcome ε α) (f : α → Outcome ε β) : Outcome ε β :=
  match x with
  | ok a => f a
  | err e => err e
  | panic => panic

@[simp] theorem bind_ok (a : α) (f : α → Outcome ε β) : bind (ok a) f = f a := rfl
@[simp] theorem bind_err (e : ε) (f : α → Outcome ε β) : bind (err e) f = err e := rfl
@[simp] theorem bind_panic (f : α → Outcome ε β) : bind panic f = (panic : Outcome ε β) := rfl

/-- `map_err`. -/
def mapError (f : ε → ε') : Outcome ε α → Outcome ε' α
  | ok a => ok a
  | err e => err (f e)
  | panic => panic

/-- A loop over a list, which ends at the first call that does not return a value. -/
def foldl {σ ι : Type*} (f : σ → ι → Outcome ε σ) : σ → List ι → Outcome ε σ
  | s, [] => ok s
  | s, x :: xs => bind (f s x) fun s' => foldl f s' xs

theorem bind_eq_ok {f : α → Outcome ε β} {b : β} :
    bind x f = ok b ↔ ∃ a, x = ok a ∧ f a = ok b := by
  constructor
  · intro h
    rcases x with a | e | _
    · exact ⟨a, rfl, h⟩
    · cases h
    · cases h
  · rintro ⟨a, rfl, h⟩
    exact h

/-- The value, if there is one. -/
def toOption : Outcome ε α → Option α
  | ok a => some a
  | _ => none

/-- A call returns if a property of its value can be computed. -/
theorem exists_of_toOption_map {f : α → β} {b : β} (h : x.toOption.map f = some b) :
    ∃ a, x = ok a ∧ f a = b := by
  rcases x with a | e | _
  · exact ⟨a, rfl, Option.some.inj h⟩
  · cases h
  · cases h

theorem foldl_append {σ ι : Type*} (f : σ → ι → Outcome ε σ) (s : σ) (xs ys : List ι) :
    foldl f s (xs ++ ys) = bind (foldl f s xs) fun s' => foldl f s' ys := by
  induction xs generalizing s with
  | nil => rfl
  | cons x xs ih =>
    rw [List.cons_append, foldl, foldl]
    rcases f s x with s' | e | _
    · exact ih s'
    · rfl
    · rfl

/-- What holds of the elements done so far holds at the end of the loop. -/
theorem foldl_invariant {σ ι : Type*} {f : σ → ι → Outcome ε σ} {I : List ι → σ → Prop}
    (hstep : ∀ done x s s', I done s → f s x = ok s' → I (done ++ [x]) s') {done l : List ι}
    {s s' : σ} (hI : I done s) (h : foldl f s l = ok s') : I (done ++ l) s' := by
  induction l generalizing done s with
  | nil =>
    obtain rfl : s = s' := by injection h
    rwa [List.append_nil]
  | cons x xs ih =>
    obtain ⟨s₁, hx, hxs⟩ := bind_eq_ok.mp h
    have := ih (hstep done x s s₁ hI hx) hxs
    rwa [List.append_assoc] at this

/-- What every call keeps holds at the end of the loop. -/
theorem foldl_keeps {σ ι : Type*} {f : σ → ι → Outcome ε σ} {I : σ → Prop}
    (hstep : ∀ x s s', I s → f s x = ok s' → I s') {l : List ι} {s s' : σ} (hI : I s)
    (h : foldl f s l = ok s') : I s' :=
  @foldl_invariant ε σ ι f (fun _ => I) (fun _ x s s' => hstep x s s') [] l s s' hI h

end Outcome

end Maios
