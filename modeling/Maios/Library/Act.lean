import Maios.Library.Outcome

/-!
# Actions on a state

An action changes a state and comes to an outcome. The state is kept when the action fails: what
was done before the failure stays done. (In a monad that drops the state on failure one could not
even say that a failed call leaves things as they were.)

`m.wp Q E s` says how `m` may end when it starts in `s`: with a value and a state in `Q`, with an
error and a state in `E`, and not by panicking. The rules of the last section reduce it to the same
question about the parts of `m`.

## Main definitions

* `Act`, with its monad structure; `Act.fail`, `Act.crash`, `Act.get`, `Act.mapError`
* `Act.wp`

## Main results

* `Act.wp_bind` — the rule of sequencing
* `Act.wp.ne_panic` — what a weakest precondition says about a run
-/

namespace Maios

/-- An action on a state `σ` that returns `α` or fails with `ε`. -/
def Act (σ ε α : Type) := σ → Outcome ε α × σ

namespace Act

variable {σ ε ε' α β : Type}

protected def pure (a : α) : Act σ ε α := fun s => (.ok a, s)

/-- Go on with the state and the value of the first action, if it has one. -/
protected def bind (m : Act σ ε α) (f : α → Act σ ε β) : Act σ ε β := fun s =>
  match m s with
  | (.ok a, s') => f a s'
  | (.err e, s') => (.err e, s')
  | (.panic, s') => (.panic, s')

instance : Monad (Act σ ε) where
  pure := Act.pure
  bind := Act.bind

/-- Return an error. -/
def fail (e : ε) : Act σ ε α := fun s => (.err e, s)

/-- Panic. -/
def crash : Act σ ε α := fun s => (.panic, s)

def get : Act σ ε σ := fun s => (.ok s, s)

/-- `map_err` -/
def mapError (f : ε → ε') (m : Act σ ε α) : Act σ ε' α := fun s => ((m s).1.mapError f, (m s).2)

@[simp] theorem pure_apply (a : α) (s : σ) : (pure a : Act σ ε α) s = (.ok a, s) := rfl
@[simp] theorem fail_apply (e : ε) (s : σ) : (fail e : Act σ ε α) s = (.err e, s) := rfl
@[simp] theorem get_apply (s : σ) : (get : Act σ ε σ) s = (.ok s, s) := rfl

section Bind

variable {m : Act σ ε α} (f : α → Act σ ε β) {s s' : σ}

theorem bind_of_ok {a : α} (h : m s = (.ok a, s')) : (m >>= f) s = f a s' := by
  show Act.bind m f s = _
  rw [Act.bind, h]

theorem bind_of_err {e : ε} (h : m s = (.err e, s')) : (m >>= f) s = (.err e, s') := by
  show Act.bind m f s = _
  rw [Act.bind, h]

theorem bind_of_panic (h : m s = (.panic, s')) : (m >>= f) s = (.panic, s') := by
  show Act.bind m f s = _
  rw [Act.bind, h]

/-- A sequence ends where its first part fails, or where the second part does. -/
theorem bind_ends {P : Outcome ε β × σ → Prop} (hstop : ∀ o, (∀ b, o ≠ .ok b) → P (o, (m s).2))
    (hgo : ∀ a s', m s = (.ok a, s') → P (f a s')) : P ((m >>= f) s) := by
  rcases hm : m s with ⟨a | e | _, s'⟩ <;> rw [hm] at hstop
  · rw [bind_of_ok f hm]
    exact hgo a s' hm
  · rw [bind_of_err f hm]
    exact hstop _ (by simp)
  · rw [bind_of_panic f hm]
    exact hstop _ (by simp)

/-- The state after a sequence: that of the first part, if the second does not run. -/
theorem bind_state {P : σ → Prop} (hstop : P (m s).2)
    (hgo : ∀ a s', m s = (.ok a, s') → P (f a s').2) : P ((m >>= f) s).2 :=
  bind_ends f (P := fun r => P r.2) (fun _ _ => hstop) hgo

/-- Returning a value at the end leaves the state alone. -/
theorem bind_pure_state (g : α → β) : ((m >>= fun a => pure (g a)) s).2 = (m s).2 := by
  refine bind_state (P := fun s' => s' = (m s).2) _ rfl fun a s' h => ?_
  rw [h]
  rfl

/-- A sequence goes on as if its first action were where that action leads. -/
theorem bind_congr {m' : Act σ ε α} (h : m s = m' s') : (m >>= f) s = (m' >>= f) s' := by
  show Act.bind m f s = Act.bind m' f s'
  rw [Act.bind, Act.bind, h]

end Bind

/-! ### Weakest preconditions -/

/-- From `s` the action does not panic, its value and the state it leaves are in `Q` if it returns,
and its error and the state it leaves are in `E` if it fails. -/
def wp (m : Act σ ε α) (Q : α → σ → Prop) (E : ε → σ → Prop) (s : σ) : Prop :=
  match m s with
  | (.ok a, s') => Q a s'
  | (.err e, s') => E e s'
  | (.panic, _) => False

section Wp

variable {m : Act σ ε α} {Q Q' : α → σ → Prop} {E E' : ε → σ → Prop} {s s' : σ}

theorem wp_of_ok {a : α} (h : m s = (.ok a, s')) (hQ : Q a s') : m.wp Q E s := by
  rw [wp, h]
  exact hQ

theorem wp.ne_panic (h : m.wp Q E s) : (m s).1 ≠ .panic := by
  intro hp
  rcases hm : m s with ⟨o, s'⟩
  rw [hm] at hp
  obtain rfl : o = .panic := hp
  rw [wp, hm] at h
  exact h

theorem wp.mono (h : m.wp Q E s) (hQ : ∀ a s', Q a s' → Q' a s') (hE : ∀ e s', E e s' → E' e s') :
    m.wp Q' E' s := by
  rw [wp] at h ⊢
  rcases hm : m s with ⟨o, s'⟩
  rw [hm] at h
  cases o with
  | ok a => exact hQ a s' h
  | err e => exact hE e s' h
  | panic => exact h

/-- The rule of sequencing. -/
theorem wp_bind {f : α → Act σ ε β} {Q : β → σ → Prop} :
    (m >>= f).wp Q E s ↔ m.wp (fun a s' => (f a).wp Q E s') E s := by
  rcases hm : m s with ⟨o, s'⟩
  cases o with
  | ok a => simp only [wp, bind_of_ok f hm, hm]
  | err e => rw [wp, bind_of_err f hm, wp, hm]
  | panic => rw [wp, bind_of_panic f hm, wp, hm]

end Wp

end Act

end Maios
