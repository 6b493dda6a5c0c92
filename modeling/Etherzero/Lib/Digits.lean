import Mathlib

/-!
# Digit strings

A number written most significant digit first. Core's printer `Nat.toDigits` (behind `toString` and the `%x` of a
formatter) writes the digits of Mathlib's `Nat.digits` in the other order, and a reader that folds from the left,
`acc * b + d` a digit, gives `Nat.ofDigits` of the reversed digits; a reader that keeps only its value modulo `m` at
each step gives the same modulo `m`. A string read digit by digit is related to its digits by `List.Forall₂`, which
splits over an append.
-/

namespace Etherzero.Digits

variable {b : Nat}

/-- The printer writes the digits of `Nat.digits`, most significant first. -/
theorem toDigits_eq_digits (hb : 1 < b) {n : Nat} (hn : 0 < n) :
    Nat.toDigits b n = ((Nat.digits b n).reverse).map Nat.digitChar := by
  induction n using Nat.strong_induction_on with
  | _ n ih =>
    rcases Nat.lt_or_ge n b with hlt | hge
    · rw [Nat.toDigits_of_lt_base hlt, Nat.digits_of_lt b n (by omega) hlt]
      rfl
    · -- the last digit is split off on both sides
      have hq : 0 < n / b := Nat.div_pos hge (by omega)
      rw [Nat.toDigits_of_base_le hb hge, ih (n / b) (Nat.div_lt_self hn hb) hq, Nat.digits_def' hb hn]
      simp

/-- Reading digits from the left onto `w`: `w` is shifted past them. -/
theorem foldl_mul_add (ds : List Nat) (w : Nat) :
    ds.foldl (fun acc d => acc * b + d) w = w * b ^ ds.length + Nat.ofDigits b ds.reverse := by
  induction ds generalizing w with
  | nil => simp
  | cons d ds ih =>
    rw [List.foldl_cons, ih, List.reverse_cons, Nat.ofDigits_append, List.length_reverse, Nat.ofDigits_singleton,
      List.length_cons, Nat.pow_succ]
    ring

/-- A reader that wraps at `m` after each digit reads the number modulo `m`. -/
theorem foldl_mul_add_mod {m : Nat} (ds : List Nat) {w : Nat} (hw : w < m) :
    ds.foldl (fun acc d => (acc * b + d) % m) w = ds.foldl (fun acc d => acc * b + d) w % m := by
  induction ds generalizing w with
  | nil => simp [Nat.mod_eq_of_lt hw]
  | cons d ds ih =>
    rw [List.foldl_cons, ih (Nat.mod_lt _ (by omega)), List.foldl_cons, foldl_mul_add, foldl_mul_add]
    -- only the start value is reduced, and it is multiplied before the rest is added
    exact ((Nat.mod_modEq (w * b + d) m).mul_right _).add_right _

/-- A string related digit by digit to an append splits into the two parts' digits. -/
theorem forall₂_append_left_iff {α β : Type} {R : α → β → Prop} {l₁ l₂ : List α} {ds : List β} :
    List.Forall₂ R (l₁ ++ l₂) ds ↔ ∃ ds₁ ds₂, ds = ds₁ ++ ds₂ ∧ List.Forall₂ R l₁ ds₁ ∧ List.Forall₂ R l₂ ds₂ := by
  constructor
  · intro h
    have hlen : (l₁ ++ l₂).length = ds.length := h.length_eq
    refine ⟨ds.take l₁.length, ds.drop l₁.length, (List.take_append_drop _ _).symm, ?_, ?_⟩
    · simpa using List.forall₂_take l₁.length h
    · simpa using List.forall₂_drop l₁.length h
  · rintro ⟨ds₁, ds₂, rfl, h₁, h₂⟩
    exact List.rel_append h₁ h₂

end Etherzero.Digits
