import Mathlib.Data.List.Basic
import Mathlib.Tactic.Common

/-!
# Runs of a system that takes one operation at a time

A system is a total function `step : σ → ι → σ`; a run is a fold of it over a list of operations.
A *guard* is a condition on the state before a step and the operation of that step; a run is
guarded when every one of its steps meets the guard.

The rules below are the only inductions over runs that a safety proof needs: what one step
preserves, a run preserves, and what one step has in common with a step of another system, the runs
have.

## Main definitions

* `run` — the state after a list of operations
* `outputs` — what the operations of a run return
* `Guarded` — every step of the run meets the guard

## Main results

* `run_invariant`, `Guarded.invariant`
* `guarded_congr` — two guards that agree along an invariant
* `run_iff_guarded`, `guarded_iff_of_step` — the rule of the first bad step
* `Guarded.outputs_eq`, `Guarded.both_eq` — the rule of simulation
-/

namespace Maios

section Run

variable {σ ι : Type*} {step : σ → ι → σ} {G : σ → ι → Prop} {I : σ → Prop}

/-- The state after performing `ops` in order. -/
def run (step : σ → ι → σ) (s : σ) (ops : List ι) : σ := ops.foldl step s

@[simp] theorem run_nil (s : σ) : run step s [] = s := rfl

@[simp] theorem run_cons (s : σ) (op : ι) (ops : List ι) :
    run step s (op :: ops) = run step (step s op) ops := rfl

theorem run_append (s : σ) (ops ops' : List ι) :
    run step s (ops ++ ops') = run step (run step s ops) ops' :=
  List.foldl_append

/-- Every step of the run of `ops` from `s` meets the guard `G` in the state it starts from. -/
def Guarded (step : σ → ι → σ) (G : σ → ι → Prop) : σ → List ι → Prop
  | _, [] => True
  | s, op :: ops => G s op ∧ Guarded step G (step s op) ops

theorem guarded_append {s : σ} {ops ops' : List ι} :
    Guarded step G s (ops ++ ops') ↔
      Guarded step G s ops ∧ Guarded step G (run step s ops) ops' := by
  induction ops generalizing s with
  | nil => exact (and_iff_right trivial).symm
  | cons op ops ih => exact (and_congr_right fun _ => ih).trans and_assoc.symm

/-- What every guarded step preserves holds at the end of every guarded run. -/
theorem Guarded.invariant (hstep : ∀ s op, I s → G s op → I (step s op)) {s : σ} {ops : List ι}
    (h : Guarded step G s ops) (hs : I s) : I (run step s ops) := by
  induction ops generalizing s with
  | nil => exact hs
  | cons op ops ih => exact ih h.2 (hstep s op hs h.1)

/-- What every step preserves holds at the end of every run. -/
theorem run_invariant (hstep : ∀ s op, I s → I (step s op)) {s : σ} (hs : I s) (ops : List ι) :
    I (run step s ops) := by
  induction ops generalizing s with
  | nil => exact hs
  | cons op ops ih => exact ih (hstep s op hs)

/-- Two guards that agree in the states of an invariant agree on the runs from there, if the steps
that meet the first one keep the invariant. -/
theorem guarded_congr {G' : σ → ι → Prop} (hstep : ∀ s op, I s → G s op → I (step s op))
    (hiff : ∀ s op, I s → (G s op ↔ G' s op)) {s : σ} (hs : I s) (ops : List ι) :
    Guarded step G s ops ↔ Guarded step G' s ops := by
  induction ops generalizing s with
  | nil => exact .rfl
  | cons op ops ih =>
    constructor
    · rintro ⟨h, hrest⟩
      exact ⟨(hiff s op hs).mp h, (ih (hstep s op hs h)).mp hrest⟩
    · rintro ⟨h', hrest⟩
      have h := (hiff s op hs).mpr h'
      exact ⟨h, (ih (hstep s op hs h)).mpr hrest⟩

/-- **The rule of the first bad step.** If a step from a good state keeps `P` exactly when it meets
the guard, and what has gone wrong stays wrong, then `P` holds after a run exactly when every step
of the run meets the guard. -/
theorem run_iff_guarded {P : σ → Prop} (hgood : ∀ s, I s → P s)
    (hiff : ∀ s op, I s → (P (step s op) ↔ G s op)) (hstep : ∀ s op, I s → G s op → I (step s op))
    (hback : ∀ s op, P (step s op) → P s) {s : σ} (hs : I s) (ops : List ι) :
    P (run step s ops) ↔ Guarded step G s ops := by
  have hbacks : ∀ (ops : List ι) (s : σ), P (run step s ops) → P s := by
    intro ops
    induction ops with
    | nil => exact fun _ h => h
    | cons op ops ih => exact fun s h => hback s op (ih _ h)
  induction ops generalizing s with
  | nil => exact iff_of_true (hgood s hs) trivial
  | cons op ops ih =>
    constructor
    · intro h
      have hG : G s op := (hiff s op hs).mp (hbacks ops _ h)
      exact ⟨hG, (ih (hstep s op hs hG)).mp h⟩
    · rintro ⟨hG, hrest⟩
      exact (ih (hstep s op hs hG)).mpr hrest

/-- If a step from a good state leads to a good one exactly when it meets the guard, then all the
states of a run are good exactly when every step meets the guard. -/
theorem guarded_iff_of_step (hiff : ∀ s op, I s → (I (step s op) ↔ G s op)) {s : σ} (hs : I s)
    (ops : List ι) : Guarded step (fun s op => I (step s op)) s ops ↔ Guarded step G s ops :=
  guarded_congr (G := fun s op => I (step s op)) (fun _ _ _ h => h) hiff hs ops

/-- What the operations of a run return, where `out s op` is what `op` returns in the state `s`. -/
def outputs {β : Type*} (step : σ → ι → σ) (out : σ → ι → β) : σ → List ι → List β
  | _, [] => []
  | s, op :: ops => out s op :: outputs step out (step s op) ops

/-- **The rule of simulation.** If guarded steps from related states return the same and lead to
related states, then a guarded run returns what the run of the other system returns. -/
theorem Guarded.outputs_eq {τ β : Type*} {step' : τ → ι → τ} {out : σ → ι → β} {out' : τ → ι → β}
    {R : σ → τ → Prop}
    (hstep : ∀ s t op, R s t → G s op → out s op = out' t op ∧ R (step s op) (step' t op))
    {s : σ} {t : τ} {ops : List ι} (h : Guarded step G s ops) (hR : R s t) :
    outputs step out s ops = outputs step' out' t ops := by
  induction ops generalizing s t with
  | nil => rfl
  | cons op ops ih =>
    obtain ⟨hout, hR'⟩ := hstep s t op hR h.1
    rw [outputs, outputs, hout, ih h.2 hR']

section Both

variable {τ β : Type*} {step' : τ → ι → τ} {out : σ → ι → β} {out' : τ → ι → β} {R : σ → τ → Prop}

/-- Two systems side by side, which perform the same operations. -/
def both (step : σ → ι → σ) (step' : τ → ι → τ) (st : σ × τ) (op : ι) : σ × τ :=
  (step st.1 op, step' st.2 op)

/-- The rule of simulation with a guard on both systems. -/
theorem Guarded.both_eq {G : σ × τ → ι → Prop}
    (hstep : ∀ s t op, R s t → G (s, t) op → out s op = out' t op ∧ R (step s op) (step' t op))
    {s : σ} {t : τ} {ops : List ι} (h : Guarded (both step step') G (s, t) ops) (hR : R s t) :
    outputs step out s ops = outputs step' out' t ops ∧ R (run step s ops) (run step' t ops) := by
  induction ops generalizing s t with
  | nil => exact ⟨rfl, hR⟩
  | cons op ops ih =>
    obtain ⟨hout, hR'⟩ := hstep s t op hR h.1
    obtain ⟨houts, hrun⟩ := ih h.2 hR'
    exact ⟨by rw [outputs, outputs, hout, houts], hrun⟩

end Both

end Run

end Maios
