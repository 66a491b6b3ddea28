import Maios.Library.Act

/-!
# Programs over an interface

A program over an interface performs calls and decides, from their results, how to go on. It says
nothing about what the calls do: a *handler* does, as an action on some state, and the same program
can be run by several handlers. If two handlers agree, call by call, up to a relation between their
states, then they agree on every program.

## Main definitions

* `Prog`, with its monad structure
* `Prog.run` — a program run by a handler

## Main results

* `Prog.run_bind`
* `Prog.simulates` — handlers that simulate each other on calls do so on programs
-/

namespace Maios

open Act

/-- A program that makes calls `i : ι`, each with a result in `ρ i`, and comes to an outcome. -/
inductive Prog (ι : Type) (ρ : ι → Type) (ε α : Type) where
  | done (o : Outcome ε α)
  | call (i : ι) (k : ρ i → Prog ι ρ ε α)

namespace Prog

variable {ι : Type} {ρ : ι → Type} {ε α β σ τ : Type}

protected def bind : Prog ι ρ ε α → (α → Prog ι ρ ε β) → Prog ι ρ ε β
  | done (.ok a), f => f a
  | done (.err e), _ => done (.err e)
  | done .panic, _ => done .panic
  | call i k, f => call i fun r => (k r).bind f

instance : Monad (Prog ι ρ ε) where
  pure a := done (.ok a)
  bind := Prog.bind

/-- Return an error. -/
def fail (e : ε) : Prog ι ρ ε α := done (.err e)

/-- Panic. -/
def crash : Prog ι ρ ε α := done .panic

/-- The program that makes one call and returns its result. -/
def ofCall (i : ι) : Prog ι ρ ε (ρ i) := call i pure

/-- The run of a program by a handler. -/
def run (H : (i : ι) → Act σ ε (ρ i)) : Prog ι ρ ε α → Act σ ε α
  | done o => fun s => (o, s)
  | call i k => H i >>= fun r => (k r).run H

section Run

variable (H : (i : ι) → Act σ ε (ρ i))

@[simp] theorem run_ofCall (i : ι) : (ofCall i : Prog ι ρ ε (ρ i)).run H = H i := by
  funext s
  show (H i >>= pure) s = H i s
  rcases h : H i s with ⟨o, s'⟩
  cases o with
  | ok r => exact bind_of_ok _ h
  | err e => exact bind_of_err _ h
  | panic => exact bind_of_panic _ h

/-- A sequence of programs is run by running one after the other. -/
@[simp] theorem run_bind (x : Prog ι ρ ε α) (f : α → Prog ι ρ ε β) :
    (x >>= f).run H = x.run H >>= fun a => (f a).run H := by
  funext s
  show (Prog.bind x f).run H s = _
  induction x generalizing s with
  | done o => cases o <;> rfl
  | call i k ih =>
    show (H i >>= fun r => (Prog.bind (k r) f).run H) s =
      ((H i >>= fun r => (k r).run H) >>= fun a => (f a).run H) s
    rcases h : H i s with ⟨o, s'⟩
    cases o with
    | ok r =>
      rw [bind_of_ok _ h, ih r s', bind_congr _ (bind_of_ok _ h)]
    | err e => rw [bind_of_err _ h, bind_of_err _ (bind_of_err _ h)]
    | panic => rw [bind_of_panic _ h, bind_of_panic _ (bind_of_panic _ h)]

end Run

/-- **A simulation between handlers extends to programs.** The handler `H` follows `K` as long as
`K` does not panic. -/
theorem simulates {H : (i : ι) → Act σ ε (ρ i)} {K : (i : ι) → Act τ ε (ρ i)} {R : σ → τ → Prop}
    (hcall : ∀ i s t, R s t → (K i t).1 ≠ .panic →
      (H i s).1 = (K i t).1 ∧ R (H i s).2 (K i t).2)
    (x : Prog ι ρ ε α) {s : σ} {t : τ} (hR : R s t) (hp : (x.run K t).1 ≠ .panic) :
    (x.run H s).1 = (x.run K t).1 ∧ R (x.run H s).2 (x.run K t).2 := by
  induction x generalizing s t with
  | done o => exact ⟨rfl, hR⟩
  | call i k ih =>
    change ((K i >>= fun r => (k r).run K) t).1 ≠ .panic at hp
    show ((H i >>= fun r => (k r).run H) s).1 = ((K i >>= fun r => (k r).run K) t).1 ∧
      R ((H i >>= fun r => (k r).run H) s).2 ((K i >>= fun r => (k r).run K) t).2
    rcases hs : H i s with ⟨o, s'⟩
    rcases ht : K i t with ⟨o', t'⟩
    have hstep := hcall i s t hR
    rw [hs, ht] at hstep
    cases o' with
    | ok r =>
      obtain ⟨rfl, hR'⟩ := hstep fun h => nomatch h
      rw [bind_of_ok _ ht] at hp ⊢
      rw [bind_of_ok _ hs]
      exact ih r hR' hp
    | err e =>
      obtain ⟨rfl, hR'⟩ := hstep fun h => nomatch h
      rw [bind_of_err _ ht, bind_of_err _ hs]
      exact ⟨rfl, hR'⟩
    | panic =>
      rw [bind_of_panic _ ht] at hp
      exact absurd rfl hp

end Prog

end Maios
