import Mathlib

/-!
# Undo journals

A store that records, for each change it makes, an entry that undoes it, and rolls back to an earlier length of the
journal by undoing the entries after it, the last first. What the rollback must give back is the earlier state as a
reader sees it: `view` is that observation. `Undoes es s t` says the entries `es` take any state that looks like `t`
back to one that looks like `s`; it composes along a run, so a run's journal undoes the whole run when each change's
entries undo that change.
-/

namespace Etherzero

variable {σ ε β : Type}

/-- Undo the entries, the last first. -/
def undoEntries (revert : ε → σ → σ) (es : List ε) (s : σ) : σ := es.foldr revert s

@[simp] theorem undoEntries_nil (revert : ε → σ → σ) (s : σ) : undoEntries revert [] s = s := rfl

@[simp] theorem undoEntries_cons (revert : ε → σ → σ) (e : ε) (es : List ε) (s : σ) :
    undoEntries revert (e :: es) s = revert e (undoEntries revert es s) := rfl

theorem undoEntries_append (revert : ε → σ → σ) (es₁ es₂ : List ε) (s : σ) :
    undoEntries revert (es₁ ++ es₂) s = undoEntries revert es₁ (undoEntries revert es₂ s) := List.foldr_append

/-- What every entry's undo keeps, undoing the entries keeps. -/
theorem undoEntries_keeps {γ : Type} (revert : ε → σ → σ) (f : σ → γ) (h : ∀ e s, f (revert e s) = f s)
    (es : List ε) (s : σ) : f (undoEntries revert es s) = f s := by
  induction es with
  | nil => rfl
  | cons e es ih => rw [undoEntries_cons, h, ih]

section Undoes

variable (revert : ε → σ → σ) (view : σ → β)

/-- The entries `es` undo the changes from `s` to `t`: undone from any state that looks like `t`, they give a state
that looks like `s`. -/
def Undoes (es : List ε) (s t : σ) : Prop :=
  ∀ t', view t' = view t → view (undoEntries revert es t') = view s

variable {revert view}

/-- A change that no reader sees needs no entry. -/
theorem Undoes.of_view {s t : σ} (h : view t = view s) : Undoes revert view [] s t := fun _ ht' => ht'.trans h

theorem Undoes.refl (s : σ) : Undoes revert view [] s s := Undoes.of_view rfl

/-- The entries of two changes in a row, the later ones last, undo both. -/
theorem Undoes.trans {es₁ es₂ : List ε} {s t u : σ} (h₁ : Undoes revert view es₁ s t)
    (h₂ : Undoes revert view es₂ t u) : Undoes revert view (es₁ ++ es₂) s u := by
  intro u' hu'
  rw [undoEntries_append]
  exact h₁ _ (h₂ u' hu')

/-- A state that looks like the end of the change is undone alike. -/
theorem Undoes.of_view_right {es : List ε} {s t u : σ} (h : Undoes revert view es s t) (hu : view u = view t) :
    Undoes revert view es s u := fun u' hu' => h u' (hu'.trans hu)

/-- Undoing the entries gives back the start, as a reader sees it. -/
theorem Undoes.view_undo {es : List ε} {s t : σ} (h : Undoes revert view es s t) :
    view (undoEntries revert es t) = view s := h t rfl

end Undoes

end Etherzero
