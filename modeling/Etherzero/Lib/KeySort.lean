import Mathlib

/-!
# Sorting by a key, one insertion at a time

Inserting each element before the first one with a larger key, that is after every element whose key is not
larger, keeps a list sorted by the key; doing it for the elements in the order they come is a stable sort: it is a
permutation, sorted by the key, and it keeps every pair in order whose keys are in order, ties included
(`IsStableSort`). Cutting the list to its first `k` elements before an insertion and after it gives the first `k`
elements of the insertion into the whole list, so a list kept to `k` elements holds the first `k` of the stable sort.
-/

namespace Etherzero.KeySort

variable {α : Type} (key : α → Nat)

/-- Insert `x` before the first element with a larger key. -/
def insertByKey (x : α) (l : List α) : List α := l.orderedInsert (fun a b => key a < key b) x

/-- Insert the elements one after another, in order. -/
def sortByKey (xs : List α) : List α := xs.foldl (fun acc x => insertByKey key x acc) []

/-- `l` is sorted by the key, not decreasing. -/
def SortedByKey (l : List α) : Prop := l.Pairwise (fun a b => key a ≤ key b)

/-- `S` is a stable sort of `xs` by the key. -/
structure IsStableSort (xs S : List α) : Prop where
  sorted : SortedByKey key S
  perm : S.Perm xs
  stable : ∀ a b, [a, b].Sublist xs → key a ≤ key b → [a, b].Sublist S

variable {key}

theorem insertByKey_nil (x : α) : insertByKey key x [] = [x] := rfl

theorem insertByKey_cons (x y : α) (l : List α) :
    insertByKey key x (y :: l) = if key x < key y then x :: y :: l else y :: insertByKey key x l := by
  simp [insertByKey]

theorem perm_insertByKey (x : α) (l : List α) : (insertByKey key x l).Perm (x :: l) := List.perm_orderedInsert _ x l

theorem mem_insertByKey {x a : α} {l : List α} : a ∈ insertByKey key x l ↔ a = x ∨ a ∈ l := List.mem_orderedInsert _

theorem length_insertByKey (x : α) (l : List α) : (insertByKey key x l).length = l.length + 1 :=
  List.orderedInsert_length _ l x

theorem sortedByKey_insertByKey {x : α} {l : List α} (h : SortedByKey key l) :
    SortedByKey key (insertByKey key x l) := by
  induction l with
  | nil => simp [insertByKey_nil, SortedByKey]
  | cons y ys ih =>
    obtain ⟨hy, hys⟩ := List.pairwise_cons.mp h
    rw [insertByKey_cons]
    split
    · rename_i hxy
      refine List.Pairwise.cons (fun z hz => ?_) h
      rcases List.mem_cons.mp hz with rfl | hz
      · exact hxy.le
      · exact hxy.le.trans (hy z hz)
    · rename_i hxy
      refine List.Pairwise.cons (fun z hz => ?_) (ih hys)
      rcases mem_insertByKey.mp hz with rfl | hz
      · omega
      · exact hy z hz

/-- An element of a sorted list whose key is not larger than `x`'s stays before `x`. -/
theorem pair_sublist_insertByKey {x a : α} {l : List α} (h : SortedByKey key l) (ha : a ∈ l) (hax : key a ≤ key x) :
    [a, x].Sublist (insertByKey key x l) := by
  induction l with
  | nil => simp at ha
  | cons y ys ih =>
    obtain ⟨hy, hys⟩ := List.pairwise_cons.mp h
    rw [insertByKey_cons]
    split
    · -- `x` would go first, but `a` is in the list with a key not larger than `x`'s, below the first key
      rename_i hxy
      rcases List.mem_cons.mp ha with rfl | ha
      · omega
      · have := hy a ha
        omega
    · rcases List.mem_cons.mp ha with rfl | ha
      · exact List.Sublist.cons_cons a (List.singleton_sublist.mpr (mem_insertByKey.mpr (.inl rfl)))
      · exact (ih hys ha).cons y

theorem sortByKey_append_singleton (xs : List α) (x : α) :
    sortByKey key (xs ++ [x]) = insertByKey key x (sortByKey key xs) := by
  rw [sortByKey, List.foldl_append]
  rfl

/-- Inserting one element after another is a stable sort. The induction takes the elements from the end. -/
theorem isStableSort_sortByKey (xs : List α) : IsStableSort key xs (sortByKey key xs) := by
  induction xs using List.reverseRecOn with
  | nil => exact ⟨List.Pairwise.nil, List.Perm.refl _, fun a b h _ => absurd h.length_le (by simp)⟩
  | append_singleton xs x ih =>
    rw [sortByKey_append_singleton]
    refine ⟨sortedByKey_insertByKey ih.sorted, ?_, fun a b hab hkey => ?_⟩
    · exact (perm_insertByKey x _).trans ((ih.perm.cons x).trans (List.perm_append_singleton x xs).symm)
    · -- the pair lies in `xs`, or its second element is the new one
      obtain ⟨l₁, l₂, hsplit, h₁, h₂⟩ := List.sublist_append_iff.mp hab
      rcases List.sublist_singleton.mp h₂ with rfl | rfl
      · rw [List.append_nil] at hsplit
        subst hsplit
        exact (ih.stable a b h₁ hkey).trans (List.sublist_orderedInsert x _)
      · obtain ⟨rfl, rfl⟩ : l₁ = [a] ∧ b = x := by
          have := congrArg List.length hsplit
          simp only [List.length_cons, List.length_append] at this
          obtain ⟨c, rfl⟩ : ∃ c, l₁ = [c] := List.length_eq_one_iff.mp (by omega)
          simp_all
        exact pair_sublist_insertByKey ih.sorted (ih.perm.mem_iff.mpr (List.singleton_sublist.mp h₁)) hkey

theorem length_sortByKey (xs : List α) : (sortByKey key xs).length = xs.length :=
  (isStableSort_sortByKey xs).perm.length_eq

/-- Cutting the list to `k` elements before an insertion changes nothing in the first `k` after it. -/
theorem take_insertByKey_take (x : α) (k : Nat) (l : List α) :
    (insertByKey key x (l.take k)).take k = (insertByKey key x l).take k := by
  induction l generalizing k with
  | nil => rw [List.take_nil]
  | cons y ys ih =>
    cases k with
    | zero => simp
    | succ k =>
      rw [List.take_succ_cons, insertByKey_cons, insertByKey_cons]
      split
      · -- `x` goes first on both sides; what follows is `y` and the rest of the list, cut
        rw [List.take_succ_cons, List.take_succ_cons]
        cases k with
        | zero => simp
        | succ k =>
          rw [List.take_succ_cons, List.take_succ_cons, List.take_take]
          simp
      · rw [List.take_succ_cons, List.take_succ_cons, ih]

/-- A list kept to its first `k` elements through every insertion holds the first `k` of the insertions into the
whole list. -/
theorem foldl_take_insertByKey (k : Nat) (xs acc : List α) :
    xs.foldl (fun l x => (insertByKey key x l).take k) (acc.take k) =
      (xs.foldl (fun l x => insertByKey key x l) acc).take k := by
  induction xs generalizing acc with
  | nil => rfl
  | cons x xs ih =>
    rw [List.foldl_cons, List.foldl_cons, take_insertByKey_take, ← ih]

end Etherzero.KeySort
