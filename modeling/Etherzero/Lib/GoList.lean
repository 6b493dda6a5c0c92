import Mathlib

/-!
# Traversals of a Go `container/list` that remove as they go

The loop `for el := l.Front(); el != nil; el = el.Next() { ... }` visits a `container/list` from its front. Its body
may call `l.Remove(el)`. `Remove` clears the element's links (`e.next = nil`, `e.list = nil`), so that `el.Next()` is
nil afterwards and the loop ends at the element it removed: such a traversal removes at most one element, the first
its body removes. A body may also leave the loop by returning from the function around it.

`traverse` is that loop over the list's elements, threading the state the body writes. The lemmas below say what a
traversal can do: the list it leaves is the list with at most one element taken out, what the body never writes is
as it was, and what the body writes only when it removes is written for the removed element alone.
-/

namespace Etherzero.GoList

/-- How the body of a traversal ends at an element. -/
inductive Visit where
  /-- it goes on to `el.Next()` -/
  | next
  /-- it calls `l.Remove(el)`, after which `el.Next()` is nil -/
  | remove
  /-- it returns from the function around the loop -/
  | leave
  deriving DecidableEq, Repr

variable {σ α β : Type}

/-- The traversal from state `s` over the list's elements: the state after it, the elements left in the list, and
whether the body left with `return`. -/
def traverse (body : σ → α → σ × Visit) : σ → List α → σ × List α × Bool
  | s, [] => (s, [], false)
  | s, a :: rest =>
    match body s a with
    | (s', .next) =>
      let r := traverse body s' rest
      (r.1, a :: r.2.1, r.2.2)
    | (s', .remove) => (s', rest, false)
    | (s', .leave) => (s', a :: rest, true)

variable {body : σ → α → σ × Visit}

@[simp]
theorem traverse_nil (s : σ) : traverse body s [] = (s, [], false) := rfl

theorem traverse_cons_next {s s' : σ} {a : α} (rest : List α) (h : body s a = (s', .next)) :
    traverse body s (a :: rest) =
      ((traverse body s' rest).1, a :: (traverse body s' rest).2.1, (traverse body s' rest).2.2) := by
  rw [traverse, h]

theorem traverse_cons_remove {s s' : σ} {a : α} (rest : List α) (h : body s a = (s', .remove)) :
    traverse body s (a :: rest) = (s', rest, false) := by
  rw [traverse, h]

theorem traverse_cons_leave {s s' : σ} {a : α} (rest : List α) (h : body s a = (s', .leave)) :
    traverse body s (a :: rest) = (s', a :: rest, true) := by
  rw [traverse, h]

/-- The list a traversal leaves is a sublist of the one it started from. -/
theorem traverse_sublist (s : σ) (l : List α) : ((traverse body s l).2.1).Sublist l := by
  induction l generalizing s with
  | nil => exact List.Sublist.slnil
  | cons a rest ih =>
    rcases hb : body s a with ⟨s', v⟩
    cases v with
    | next => rw [traverse_cons_next rest hb]; exact (ih s').cons_cons a
    | remove => rw [traverse_cons_remove rest hb]; exact List.sublist_cons_self a rest
    | leave => rw [traverse_cons_leave rest hb]

/-- What the body never writes is what it was before the traversal. -/
theorem traverse_frame (f : σ → β) (hf : ∀ s a, f (body s a).1 = f s) (s : σ) (l : List α) :
    f (traverse body s l).1 = f s := by
  induction l generalizing s with
  | nil => rfl
  | cons a rest ih =>
    rcases hb : body s a with ⟨s', v⟩
    have hs' : f s' = f s := by rw [← hf s a, hb]
    cases v with
    | next => rw [traverse_cons_next rest hb, ih s', hs']
    | remove => rw [traverse_cons_remove rest hb, hs']
    | leave => rw [traverse_cons_leave rest hb, hs']

/-- A body that writes `f` only as it removes an element, and then writes `g (f s) a`, leaves a traversal that either
removed nothing and kept `f`, or removed one element `a` at which the body ended with `remove`, and wrote `f` for it. -/
theorem traverse_removes_one (f : σ → β) (g : β → α → β)
    (hrem : ∀ s a, (body s a).2 = .remove → f (body s a).1 = g (f s) a)
    (hkeep : ∀ s a, (body s a).2 ≠ .remove → f (body s a).1 = f s) (s : σ) (l : List α) :
    (f (traverse body s l).1 = f s ∧ (traverse body s l).2.1 = l) ∨
      ∃ pre a post s₀, l = pre ++ a :: post ∧ (traverse body s l).2.1 = pre ++ post ∧
        f (traverse body s l).1 = g (f s) a ∧ (body s₀ a).2 = .remove := by
  induction l generalizing s with
  | nil => exact .inl ⟨rfl, rfl⟩
  | cons a rest ih =>
    rcases hb : body s a with ⟨s', v⟩
    cases v with
    | next =>
      -- the body kept `f` at `a`; what the rest of the traversal does is what the whole does
      have hs' : f s' = f s := by rw [← hkeep s a (by rw [hb]; nofun), hb]
      rw [traverse_cons_next rest hb]
      rcases ih s' with ⟨hf, hl⟩ | ⟨pre, b, post, s₀, hrest, hl, hf, hv⟩
      · exact .inl ⟨hf.trans hs', by rw [hl]⟩
      · exact .inr ⟨a :: pre, b, post, s₀, by rw [hrest]; rfl, by rw [hl]; rfl, by rw [hf, hs'], hv⟩
    | remove =>
      have hs' : f s' = g (f s) a := by rw [← hrem s a (by rw [hb]), hb]
      rw [traverse_cons_remove rest hb]
      exact .inr ⟨[], a, rest, s, rfl, rfl, hs', by rw [hb]⟩
    | leave =>
      have hs' : f s' = f s := by rw [← hkeep s a (by rw [hb]; nofun), hb]
      rw [traverse_cons_leave rest hb]
      exact .inl ⟨hs', rfl⟩

/-- A body that always goes on visits every element: the traversal is the fold of the body over the list. -/
theorem traverse_of_next (hnext : ∀ s a, (body s a).2 = .next) (s : σ) (l : List α) :
    traverse body s l = (l.foldl (fun s a => (body s a).1) s, l, false) := by
  induction l generalizing s with
  | nil => rfl
  | cons a rest ih =>
    have hb : body s a = ((body s a).1, .next) := by rw [← hnext s a]
    rw [traverse_cons_next rest hb, ih, List.foldl_cons]

end Etherzero.GoList
