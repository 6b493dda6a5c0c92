import Mathlib

/-!
# Go maps and the order of `range`

A Go map is a finite map, here an `AList`. The loop `for k, v := range m` visits the entries in an order the language
leaves open, each entry once; a `RangeOrder` is such an order, and carries the proof that it visits a permutation of the
entries. Deleting the entry being visited is allowed in Go and does not change what the loop visits, so the loop that
deletes the entries a predicate selects, collecting their values, is a fold over the visited list.
-/

namespace Etherzero

/-- The order in which `range` visits the entries of a map: each entry once, in some order. -/
structure RangeOrder (α β : Type) where
  visit : List (Σ _ : α, β) → List (Σ _ : α, β)
  perm : ∀ es, (visit es).Perm es

/-- The order that visits the entries as the map lists them. -/
def RangeOrder.listed (α β : Type) : RangeOrder α β := ⟨id, fun _ => List.Perm.refl _⟩

variable {α β : Type} [DecidableEq α]

/-- One turn of `for k, v := range m { if f(v) { removed = append(removed, v); delete(m, k) } }`. -/
def rangeDeleteStep (f : β → Bool) (acc : List β × AList (fun _ : α => β)) (e : Σ _ : α, β) :
    List β × AList (fun _ : α => β) :=
  if f e.2 then (acc.1 ++ [e.2], acc.2.erase e.1) else acc

/-- The loop that deletes from `m` the entries whose value `f` selects, and returns their values in the order visited. -/
def rangeDelete (order : RangeOrder α β) (f : β → Bool) (m : AList (fun _ : α => β)) :
    List β × AList (fun _ : α => β) :=
  (order.visit m.entries).foldl (rangeDeleteStep f) ([], m)

/-- `m'` holds no entry that `m` does not: what a loop of deletions leaves. -/
def AList.SubMap (m' m : AList (fun _ : α => β)) : Prop := ∀ k v, m'.lookup k = some v → m.lookup k = some v

theorem AList.SubMap.refl (m : AList (fun _ : α => β)) : AList.SubMap m m := fun _ _ h => h

theorem AList.SubMap.trans {m₁ m₂ m₃ : AList (fun _ : α => β)} (h₁₂ : AList.SubMap m₁ m₂)
    (h₂₃ : AList.SubMap m₂ m₃) : AList.SubMap m₁ m₃ := fun k v h => h₂₃ k v (h₁₂ k v h)

theorem AList.SubMap.erase (m : AList (fun _ : α => β)) (a : α) : AList.SubMap (m.erase a) m := by
  intro k v h
  by_cases hk : k = a
  · rw [hk, AList.lookup_erase] at h
    nomatch h
  · rwa [AList.lookup_erase_ne hk] at h

namespace GoMapAux

theorem foldl_rangeDeleteStep_fst (f : β → Bool) :
    ∀ (es : List (Σ _ : α, β)) (acc : List β × AList (fun _ : α => β)),
      (es.foldl (rangeDeleteStep f) acc).1 = acc.1 ++ (es.filter fun e => f e.2).map Sigma.snd
  | [], acc => by simp
  | e :: es, acc => by
    rw [List.foldl_cons, foldl_rangeDeleteStep_fst f es, rangeDeleteStep]
    by_cases he : f e.2 <;> simp [he]

/-- After visiting `es`, a key is gone when a visited entry under it was selected, and is as it was otherwise. -/
theorem lookup_foldl_rangeDeleteStep (f : β → Bool) (k : α) :
    ∀ (es : List (Σ _ : α, β)) (acc : List β × AList (fun _ : α => β)),
      (es.foldl (rangeDeleteStep f) acc).2.lookup k =
        if ∃ e ∈ es, e.1 = k ∧ f e.2 = true then none else acc.2.lookup k
  | [], acc => by simp
  | e :: es, acc => by
    rw [List.foldl_cons, lookup_foldl_rangeDeleteStep f k es, rangeDeleteStep]
    by_cases he : f e.2
    · by_cases hk : k = e.1
      · subst hk
        simp [he, AList.lookup_erase]
      · have hne : e.1 ≠ k := Ne.symm hk
        simp only [he, if_true, AList.lookup_erase_ne hk, List.mem_cons, exists_eq_or_imp, hne, false_and,
          false_or]
    · simp only [he, Bool.false_eq_true, if_false, List.mem_cons, exists_eq_or_imp, and_false, false_or]

end GoMapAux

open GoMapAux

/-- The values the loop deletes: those of the entries `f` selects, in the order visited. -/
theorem rangeDelete_fst (order : RangeOrder α β) (f : β → Bool) (m : AList (fun _ : α => β)) :
    (rangeDelete order f m).1 = ((order.visit m.entries).filter fun e => f e.2).map Sigma.snd := by
  rw [rangeDelete, foldl_rangeDeleteStep_fst]
  rfl

/-- In any order, the loop deletes the values `f` selects, each once. -/
theorem rangeDelete_fst_perm (order : RangeOrder α β) (f : β → Bool) (m : AList (fun _ : α => β)) :
    (rangeDelete order f m).1.Perm ((m.entries.filter fun e => f e.2).map Sigma.snd) := by
  rw [rangeDelete_fst]
  exact ((order.perm _).filter _).map _

/-- In any order, the map the loop leaves is `m` without the entries `f` selects. -/
theorem lookup_rangeDelete (order : RangeOrder α β) (f : β → Bool) (m : AList (fun _ : α => β)) (k : α) :
    (rangeDelete order f m).2.lookup k = (m.lookup k).filter fun v => !f v := by
  rw [rangeDelete, lookup_foldl_rangeDeleteStep]
  have hvisit : (∃ e ∈ order.visit m.entries, e.1 = k ∧ f e.2 = true) ↔ ∃ v, m.lookup k = some v ∧ f v = true := by
    constructor
    · rintro ⟨⟨k', v⟩, he, rfl, hf⟩
      exact ⟨v, AList.mem_lookup_iff.mpr ((order.perm _).subset he), hf⟩
    · rintro ⟨v, hv, hf⟩
      exact ⟨⟨k, v⟩, (order.perm _).symm.subset (AList.mem_lookup_iff.mp hv), rfl, hf⟩
  cases hk : m.lookup k with
  | none => simp [hk, hvisit]
  | some v => by_cases hf : f v <;> simp [hk, hvisit, hf, Option.filter_some]

/-- Maps whose lookups agree up to a filter list the same entries, in some order. -/
theorem AList.entries_perm_of_lookup {m' m : AList (fun _ : α => β)} {g : β → Bool}
    (h : ∀ k, m'.lookup k = (m.lookup k).filter g) : m'.entries.Perm (m.entries.filter fun e => g e.2) := by
  apply (List.perm_ext_iff_of_nodup m'.nodupKeys.nodup (m.nodupKeys.nodup.filter _)).mpr
  rintro ⟨k, v⟩
  rw [List.mem_filter, ← AList.mem_lookup_iff, ← AList.mem_lookup_iff, Option.mem_def, Option.mem_def, h k]
  cases hk : m.lookup k with
  | none => simp
  | some v' =>
    by_cases hg : g v'
    · simp only [Option.filter_some, hg, if_true, Option.some.injEq, iff_self_and]
      rintro rfl
      exact hg
    · simp only [Option.filter_some, hg, Bool.false_eq_true, if_false, reduceCtorEq, false_iff, not_and,
        Option.some.injEq]
      rintro rfl
      simp [hg]

theorem rangeDelete_subMap (order : RangeOrder α β) (f : β → Bool) (m : AList (fun _ : α => β)) :
    AList.SubMap (rangeDelete order f m).2 m := by
  intro k v h
  rw [lookup_rangeDelete] at h
  exact Option.eq_some_of_filter_eq_some h

end Etherzero
