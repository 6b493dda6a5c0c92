import Mathlib

/-!
# Loops that may fail

A Go loop whose body can end the function with an error, or panic, is a `List.foldlM` or a `List.mapM` in `Option`.
Four facts about such loops: an invariant that each pass keeps holds at the end; a loop whose every pass succeeds
returns what each pass gives; two loops whose passes keep their states related (`Option.Rel`: both fail, or both
succeed with related results) end related; and a loop that, for each index it visits, either leaves a table as it is
or writes one slot of it, leaves each slot as it was or with a value written there.

One more loop that Go writes to find the only element of a kind, `pos := -1` and then `pos = i` at the first one
found and `pos = -2` at a second: when it ends with a position, the element there is the only one of that kind.
-/

namespace Etherzero.FoldM

variable {α β γ : Type}

/-- A loop whose passes may fail keeps an invariant that each pass keeps. -/
theorem foldlM_option_inv (P : β → Prop) (f : β → α → Option β)
    (hstep : ∀ b x b', P b → f b x = some b' → P b') :
    ∀ (l : List α) (b₀ b : β), P b₀ → l.foldlM f b₀ = some b → P b := by
  intro l
  induction l with
  | nil =>
    intro b₀ b h0 h
    cases h
    exact h0
  | cons x l ih =>
    intro b₀ b h0 h
    rw [List.foldlM_cons] at h
    obtain ⟨b₁, h1, h⟩ := Option.bind_eq_some_iff.mp h
    exact ih b₁ b (hstep b₀ x b₁ h0 h1) h

/-- A computation that may fail, followed by one that succeeds on whatever the first returns, succeeds. -/
theorem bind_isSome {x : Option β} {g : β → Option γ} (hx : ∃ b, x = some b) (hg : ∀ b, ∃ c, g b = some c) :
    ∃ c, (x >>= g) = some c := by
  obtain ⟨b, rfl⟩ := hx
  exact hg b

/-- A loop each of whose passes succeeds from any state succeeds. -/
theorem foldlM_option_some (f : β → α → Option β) :
    ∀ (l : List α) (b₀ : β), (∀ b, ∀ x ∈ l, ∃ b', f b x = some b') → ∃ b, l.foldlM f b₀ = some b := by
  intro l
  induction l with
  | nil => exact fun b₀ _ => ⟨b₀, rfl⟩
  | cons x l ih =>
    intro b₀ h
    obtain ⟨b₁, h1⟩ := h b₀ x List.mem_cons_self
    obtain ⟨b, hb⟩ := ih b₁ fun b y hy => h b y (List.mem_cons_of_mem x hy)
    exact ⟨b, by rw [List.foldlM_cons, h1]; exact hb⟩

/-- A loop whose every pass succeeds, with `g x` for `x`, returns what `g` gives each. -/
theorem mapM_option_of_forall (f : α → Option β) (g : α → β) :
    ∀ l : List α, (∀ x ∈ l, f x = some (g x)) → l.mapM f = some (l.map g) := by
  intro l
  induction l with
  | nil =>
    intro _
    rfl
  | cons x l ih =>
    intro h
    rw [List.mapM_cons, h x List.mem_cons_self, ih fun y hy => h y (List.mem_cons_of_mem x hy)]
    rfl

/-- Two computations that may fail, related by `R`, each followed by one that keeps related results related by `S`,
give results related by `S`. -/
theorem bind_rel {β' γ' : Type} {R : β → β' → Prop} {S : γ → γ' → Prop} {x : Option β} {y : Option β'}
    {f : β → Option γ} {g : β' → Option γ'} (hxy : Option.Rel R x y) (hfg : ∀ a b, R a b → Option.Rel S (f a) (g b)) :
    Option.Rel S (x >>= f) (y >>= g) := by
  cases hxy with
  | none => exact .none
  | some hab => exact hfg _ _ hab

/-- A computation related to one that succeeds succeeds, with a related result. -/
theorem rel_some_left {β' : Type} {R : β → β' → Prop} {a : β} {y : Option β'} (h : Option.Rel R (some a) y) :
    ∃ b, y = some b ∧ R a b := by
  cases h with
  | some hab => exact ⟨_, rfl, hab⟩

/-- A computation related to one that succeeds succeeds, with a related result. -/
theorem rel_some_right {β' : Type} {R : β → β' → Prop} {x : Option β} {b : β'} (h : Option.Rel R x (some b)) :
    ∃ a, x = some a ∧ R a b := by
  cases h with
  | some hab => exact ⟨_, rfl, hab⟩

/-- Results related by `R` are related by any relation that `R` implies. -/
theorem rel_mono {β' : Type} {R S : β → β' → Prop} {x : Option β} {y : Option β'} (h : Option.Rel R x y)
    (hRS : ∀ a b, R a b → S a b) : Option.Rel S x y := by
  cases h with
  | none => exact .none
  | some hab => exact .some (hRS _ _ hab)

/-- Two loops over the same list whose passes keep the states related, from related states, both fail or end in
related states. -/
theorem foldlM_rel {β' : Type} (R : β → β' → Prop) (f : β → α → Option β) (g : β' → α → Option β') :
    ∀ (l : List α) (b₀ : β) (b₀' : β'), (∀ b b', ∀ x ∈ l, R b b' → Option.Rel R (f b x) (g b' x)) → R b₀ b₀' →
      Option.Rel R (l.foldlM f b₀) (l.foldlM g b₀') := by
  intro l
  induction l with
  | nil => exact fun b₀ b₀' _ h0 => .some h0
  | cons x l ih =>
    intro b₀ b₀' hstep h0
    rw [List.foldlM_cons, List.foldlM_cons]
    exact bind_rel (hstep b₀ b₀' x List.mem_cons_self h0) fun b b' hb =>
      ih b b' (fun c c' y hy => hstep c c' y (List.mem_cons_of_mem x hy)) hb

variable {κ : Type} [DecidableEq κ]

/-- A loop over indices whose pass at `i` leaves the table `acc.2` as it is, where `P (slot i)` holds, or writes a
value `x` with `R (slot i) x` into `slot i`. At the end each slot holds a value written there, or its first value, and
then `P` holds of it if the loop visited it. -/
theorem foldlM_update_spec (slot : α → κ) (P : κ → Prop) (R : κ → γ → Prop) (f : β × (κ → γ) → α → Option (β × (κ → γ)))
    (hstep : ∀ acc i acc', f acc i = some acc' →
      (P (slot i) ∧ acc'.2 = acc.2) ∨ ∃ x, R (slot i) x ∧ acc'.2 = Function.update acc.2 (slot i) x) :
    ∀ (l : List α) acc res, l.foldlM f acc = some res →
      ∀ k, (res.2 k = acc.2 k ∧ ∀ i ∈ l, slot i = k → P k) ∨ R k (res.2 k) := by
  intro l
  induction l with
  | nil =>
    intro acc res h k
    cases h
    exact .inl ⟨rfl, nofun⟩
  | cons i l ih =>
    intro acc res h k
    rw [List.foldlM_cons] at h
    obtain ⟨acc₁, h1, h⟩ := Option.bind_eq_some_iff.mp h
    rcases ih acc₁ res h k with ⟨hk, hl⟩ | hr
    · -- the rest of the loop left slot `k`: it is as the pass at `i` left it
      rcases hstep acc i acc₁ h1 with ⟨hp, hacc⟩ | ⟨x, hx, hacc⟩
      · rw [hacc] at hk
        refine .inl ⟨hk, fun i' hi' hs => ?_⟩
        rcases List.mem_cons.mp hi' with rfl | hi'
        · exact hs ▸ hp
        · exact hl i' hi' hs
      · rw [hacc, Function.update_apply] at hk
        split at hk
        · rename_i hs
          exact .inr (hk ▸ hs ▸ hx)
        · rename_i hs
          refine .inl ⟨hk, fun i' hi' hs' => ?_⟩
          rcases List.mem_cons.mp hi' with rfl | hi'
          · exact absurd hs'.symm hs
          · exact hl i' hi' hs'
    · exact .inr hr

/-- The loop that looks for the only element with `P`: from `p`, it keeps the position on an element without `P`, and
on one with `P` takes its index `ι x` if none was found yet (`-1`) and `-2` otherwise. A result that is a position is
the start, with no element with `P`, or the index of the only element with `P`, found from `-1`. -/
theorem foldl_only (P : α → Prop) (ι : α → Int) (f : Int → α → Int) (hnot : ∀ pos x, ¬ P x → f pos x = pos)
    (hyes : ∀ pos x, P x → f pos x = if pos = -1 then ι x else -2) (hι : ∀ x, 0 ≤ ι x) :
    ∀ (l : List α) (p : Int), 0 ≤ l.foldl f p →
      (l.foldl f p = p ∧ ∀ x ∈ l, ¬ P x) ∨ (p = -1 ∧ ∃ x ∈ l, P x ∧ l.foldl f p = ι x ∧ ∀ y ∈ l, P y → y = x) := by
  intro l
  induction l with
  | nil => exact fun p _ => .inl ⟨rfl, nofun⟩
  | cons x l ih =>
    intro p h
    rw [List.foldl_cons] at h ⊢
    by_cases hx : P x
    · rw [hyes p x hx] at h ⊢
      by_cases hp : p = -1
      · -- the first element with `P`: no other may follow
        rw [if_pos hp] at h ⊢
        rcases ih (ι x) h with ⟨heq, hl⟩ | ⟨hι', -⟩
        · refine .inr ⟨hp, x, List.mem_cons_self, hx, heq, fun y hy hPy => ?_⟩
          rcases List.mem_cons.mp hy with rfl | hy
          · rfl
          · exact absurd hPy (hl y hy)
        · have := hι x
          omega
      · -- a second element with `P`: the loop stays at `-2`
        rw [if_neg hp] at h
        rcases ih (-2) h with ⟨heq, -⟩ | ⟨h2, -⟩
        · omega
        · omega
    · rw [hnot p x hx] at h ⊢
      rcases ih p h with ⟨heq, hl⟩ | ⟨hp, y, hy, hPy, heq, huniq⟩
      · refine .inl ⟨heq, fun y hy => ?_⟩
        rcases List.mem_cons.mp hy with rfl | hy
        · exact hx
        · exact hl y hy
      · refine .inr ⟨hp, y, List.mem_cons_of_mem _ hy, hPy, heq, fun z hz hPz => ?_⟩
        rcases List.mem_cons.mp hz with rfl | hz
        · exact absurd hPz hx
        · exact huniq z hz hPz

/-- With no element with `P`, the loop that looks for the only one stays where it starts. -/
theorem foldl_none (P : α → Prop) (f : Int → α → Int) (hnot : ∀ pos x, ¬ P x → f pos x = pos) :
    ∀ (l : List α) (p : Int), (∀ x ∈ l, ¬ P x) → l.foldl f p = p := by
  intro l
  induction l with
  | nil => exact fun _ _ => rfl
  | cons x l ih =>
    intro p h
    rw [List.foldl_cons, hnot p x (h x List.mem_cons_self)]
    exact ih p fun y hy => h y (List.mem_cons_of_mem x hy)

/-- The loop that looks for the only element with `P` finds it, on a list without repeats that holds just one. -/
theorem foldl_of_only (P : α → Prop) (ι : α → Int) (f : Int → α → Int) (hnot : ∀ pos x, ¬ P x → f pos x = pos)
    (hyes : ∀ pos x, P x → f pos x = if pos = -1 then ι x else -2) {x : α} (hPx : P x) (huniq : ∀ y, P y → y = x) :
    ∀ l : List α, l.Nodup → x ∈ l → l.foldl f (-1) = ι x := by
  intro l
  induction l with
  | nil => exact fun _ hx => absurd hx List.not_mem_nil
  | cons y l ih =>
    intro hnd hx
    rw [List.nodup_cons] at hnd
    rw [List.foldl_cons]
    by_cases hyx : y = x
    · -- the element itself: the rest of the list has none
      subst hyx
      rw [hyes _ _ hPx, if_pos rfl]
      exact foldl_none P f hnot l _ fun z hz hPz => hnd.1 (huniq z hPz ▸ hz)
    · rw [hnot _ _ fun hPy => hyx (huniq y hPy)]
      exact ih hnd.2 ((List.mem_cons.mp hx).resolve_left (Ne.symm hyx))

end Etherzero.FoldM
