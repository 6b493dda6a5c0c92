import Mathlib

/-!
# Computations that keep their state when they fail

`ExceptT ε (StateM σ)` is the shape of a Go method on a pointer receiver that returns an error: every change it made
to the receiver before it returned stays, whether the result is a value or an error. `exec` runs such a computation
from a state, and the lemmas below evaluate each monad operation, so that a computation is taken apart step by step
without unfolding the transformers.
-/

namespace Etherzero

variable {σ ε α β : Type}

instance instDecidableEqExcept [DecidableEq ε] [DecidableEq α] : DecidableEq (Except ε α)
  | .ok a, .ok b => decidable_of_iff (a = b) (by simp)
  | .error a, .error b => decidable_of_iff (a = b) (by simp)
  | .ok _, .error _ => isFalse nofun
  | .error _, .ok _ => isFalse nofun

/-- Run a computation from state `s`: its result, or the error it returned, and the state after it. -/
def exec (x : ExceptT ε (StateM σ) α) (s : σ) : Except ε α × σ := x.run.run s

@[simp] theorem exec_pure (a : α) (s : σ) : exec (pure a : ExceptT ε (StateM σ) α) s = (.ok a, s) := rfl

@[simp] theorem exec_throw (e : ε) (s : σ) : exec (throw e : ExceptT ε (StateM σ) α) s = (.error e, s) := rfl

@[simp] theorem exec_get (s : σ) : exec (get : ExceptT ε (StateM σ) σ) s = (.ok s, s) := rfl

@[simp] theorem exec_set (s s' : σ) : exec (set s' : ExceptT ε (StateM σ) PUnit) s = (.ok ⟨⟩, s') := rfl

@[simp] theorem exec_modify (f : σ → σ) (s : σ) :
    exec (modify f : ExceptT ε (StateM σ) PUnit) s = (.ok ⟨⟩, f s) := rfl

@[simp] theorem exec_modifyGet (f : σ → α × σ) (s : σ) :
    exec (modifyGet f : ExceptT ε (StateM σ) α) s = (.ok (f s).1, (f s).2) := rfl

/-- A bind runs its first part, and its continuation only when the first part returned a value. -/
theorem exec_bind (x : ExceptT ε (StateM σ) α) (f : α → ExceptT ε (StateM σ) β) (s : σ) :
    exec (x >>= f) s = (match exec x s with
      | (.ok a, s') => exec (f a) s'
      | (.error e, s') => (.error e, s')) := by
  unfold exec
  simp only [ExceptT.run_bind, StateT.run_bind]
  rcases x.run.run s with ⟨_ | _, _⟩ <;> rfl

/-- A bind whose first part returns a value runs the continuation from the state it left. -/
theorem exec_bind_ok {x : ExceptT ε (StateM σ) α} {s s' : σ} {a : α} (h : exec x s = (.ok a, s'))
    (f : α → ExceptT ε (StateM σ) β) : exec (x >>= f) s = exec (f a) s' := by
  rw [exec_bind, h]

/-- A bind whose first part fails fails with the same error, in the state the first part left. -/
theorem exec_bind_error {x : ExceptT ε (StateM σ) α} {s s' : σ} {e : ε} (h : exec x s = (.error e, s'))
    (f : α → ExceptT ε (StateM σ) β) : exec (x >>= f) s = (.error e, s') := by
  rw [exec_bind, h]

/-- A bind that returned a value: its first part returned a value, and the continuation returned from there. -/
theorem exec_bind_eq_ok {x : ExceptT ε (StateM σ) α} {f : α → ExceptT ε (StateM σ) β} {s s₂ : σ} {b : β}
    (h : exec (x >>= f) s = (.ok b, s₂)) : ∃ a s₁, exec x s = (.ok a, s₁) ∧ exec (f a) s₁ = (.ok b, s₂) := by
  rw [exec_bind] at h
  rcases hx : exec x s with ⟨_ | a, s₁⟩
  · rw [hx] at h
    cases h
  · rw [hx] at h
    exact ⟨a, s₁, rfl, h⟩

/-- A handler runs only on the error of the computation it guards, from the state the error left. -/
theorem exec_tryCatch (x : ExceptT ε (StateM σ) α) (h : ε → ExceptT ε (StateM σ) α) (s : σ) :
    exec (tryCatch x h) s = (match exec x s with
      | (.ok a, s') => (.ok a, s')
      | (.error e, s') => exec (h e) s') := by
  unfold exec
  change StateT.run (x.run >>= fun r => match r with | .ok a => pure (.ok a) | .error e => (h e).run) s = _
  rw [StateT.run_bind]
  rcases x.run.run s with ⟨_ | _, _⟩ <;> rfl

/-- `observing` turns the error of a computation into its result, as Go's `v, err := f()` does. -/
theorem exec_observing (x : ExceptT ε (StateM σ) α) (s : σ) :
    exec (observing x) s = (match exec x s with
      | (.ok a, s') => (.ok (.ok a), s')
      | (.error e, s') => (.ok (.error e), s')) := by
  rw [observing, exec_tryCatch, exec_bind]
  rcases exec x s with ⟨_ | _, _⟩ <;> rfl

theorem exec_map (f : α → β) (x : ExceptT ε (StateM σ) α) (s : σ) :
    exec (f <$> x) s = (match exec x s with
      | (.ok a, s') => (.ok (f a), s')
      | (.error e, s') => (.error e, s')) := by
  rw [← bind_pure_comp, exec_bind]
  rcases exec x s with ⟨_ | _, _⟩ <;> rfl

/-- A mapped computation that returned a value: the computation returned, and the value is its image. -/
theorem exec_map_eq_ok {f : α → β} {x : ExceptT ε (StateM σ) α} {s s' : σ} {b : β}
    (h : exec (f <$> x) s = (.ok b, s')) : ∃ a, exec x s = (.ok a, s') ∧ b = f a := by
  rw [exec_map] at h
  rcases hx : exec x s with ⟨_ | a, s₁⟩ <;> rw [hx] at h
  · cases h
  · cases h
    exact ⟨a, rfl, rfl⟩

theorem exec_seqRight (x : ExceptT ε (StateM σ) α) (y : ExceptT ε (StateM σ) β) (s : σ) :
    exec (x *> y) s = (match exec x s with
      | (.ok _, s') => exec y s'
      | (.error e, s') => (.error e, s')) := by
  rw [seqRight_eq_bind, exec_bind]

/-- A bind of plain `Except` that returns a value: both of its parts did. -/
theorem except_bind_eq_ok {x : Except ε α} {f : α → Except ε β} {b : β} :
    x >>= f = .ok b ↔ ∃ a, x = .ok a ∧ f a = .ok b := by
  cases x with
  | error e => simp [bind, Except.bind]
  | ok a => simp [bind, Except.bind]

theorem except_map_eq_ok {x : Except ε α} {f : α → β} {b : β} :
    x.map f = .ok b ↔ ∃ a, x = .ok a ∧ f a = b := by
  cases x with
  | error e => simp [Except.map]
  | ok a => simp [Except.map]

end Etherzero
