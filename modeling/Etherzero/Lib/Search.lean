import Mathlib

/-!
# Binary search (`sort.Search`)

Go's `sort.Search(n, f)` halves the interval `[i, j)` keeping `f` false before `i` and true from `j` on, and returns
the point where they meet. For a predicate that stays true once it is true on `[0, n)`, that is the first index in
`[0, n)` where it holds, or `n`; over a list, it is the length of the longest prefix on which the predicate fails.
-/

namespace Etherzero.Search

/-- The loop of `sort.Search` on `[i, j)`; `(i + j) / 2` is `int(uint(i+j) >> 1)` for the sizes of a slice. -/
def searchLoop (f : Nat → Bool) (i j : Nat) : Nat :=
  if i < j then
    let h := (i + j) / 2
    if !f h then searchLoop f (h + 1) j else searchLoop f i h
  else i
termination_by j - i

/-- `sort.Search`. -/
def search (n : Nat) (f : Nat → Bool) : Nat := searchLoop f 0 n

variable {f : Nat → Bool} {n : Nat}

/-- The loop's bounds: `f` is false before `i`, true from `j` on below `n`, and `i ≤ j ≤ n`. -/
def Bounds (f : Nat → Bool) (n i j : Nat) : Prop :=
  i ≤ j ∧ j ≤ n ∧ (∀ k < i, f k = false) ∧ ∀ k, j ≤ k → k < n → f k = true

/-- For a predicate that stays true on `[0, n)` once true, each halving keeps the bounds, so the loop returns the
point between the indices where `f` fails and those where it holds. -/
theorem searchLoop_bounds (hmono : ∀ a b, a ≤ b → b < n → f a = true → f b = true) :
    ∀ i j, Bounds f n i j → Bounds f n (searchLoop f i j) (searchLoop f i j) := by
  intro i j
  induction i, j using searchLoop.induct f with
  | case1 i j hij h hfalse ih =>
    intro ⟨hle, hjn, hlo, hhi⟩
    rw [searchLoop, if_pos hij]
    dsimp only
    rw [if_pos hfalse]
    -- every index up to the midpoint fails, since one at or past it would make the midpoint hold
    refine ih ⟨by omega, hjn, fun k hk => ?_, hhi⟩
    by_cases hki : k < i
    · exact hlo k hki
    · by_contra hk'
      have := hmono k h (by omega) (by omega) (by simpa using hk')
      simp [h, this] at hfalse
  | case2 i j hij h htrue ih =>
    intro ⟨hle, hjn, hlo, hhi⟩
    rw [searchLoop, if_pos hij]
    dsimp only
    rw [if_neg htrue]
    refine ih ⟨by omega, by omega, hlo, fun k hk hkn => hmono h k hk hkn ?_⟩
    simpa using htrue
  | case3 i j hij =>
    intro ⟨hle, hjn, hlo, hhi⟩
    rw [searchLoop, if_neg hij]
    exact ⟨le_rfl, by omega, hlo, fun k hk hkn => hhi k (by omega) hkn⟩

/-- `sort.Search` of a predicate that stays true once true returns the first index where it holds, or `n`. -/
theorem search_spec (hmono : ∀ a b, a ≤ b → b < n → f a = true → f b = true) :
    search n f ≤ n ∧ (∀ k < search n f, f k = false) ∧ ∀ k, search n f ≤ k → k < n → f k = true := by
  have hstart : Bounds f n 0 n :=
    ⟨Nat.zero_le _, le_rfl, fun k hk => absurd hk (Nat.not_lt_zero k), fun k hk hkn => absurd hkn (by omega)⟩
  obtain ⟨-, hn, hlo, hhi⟩ := searchLoop_bounds hmono 0 n hstart
  exact ⟨hn, hlo, hhi⟩

/-- The prefix of a list on which `p` fails ends at `r` when `p` fails before `r` and holds at `r`. -/
theorem length_takeWhile_of_bounds {α : Type} {p : α → Bool} :
    ∀ {l : List α} {r : Nat}, r ≤ l.length → (∀ k < r, (l[k]?).elim false p = false) →
      (r < l.length → (l[r]?).elim false p = true) → (l.takeWhile (fun x => !p x)).length = r
  | [], r, hr, _, _ => by simp at hr; simp [hr]
  | x :: xs, 0, _, _, hhi => by
    have hx : p x = true := by simpa using hhi (by simp)
    simp [hx]
  | x :: xs, r + 1, hr, hlo, hhi => by
    have hx : p x = false := by simpa using hlo 0 (by omega)
    rw [List.takeWhile_cons, if_pos (by simp [hx]), List.length_cons,
      length_takeWhile_of_bounds (l := xs) (by simpa using hr) (fun k hk => by simpa using hlo (k + 1) (by omega))
        (fun hk => by simpa using hhi (by simpa using hk))]

/-- Over a list whose elements fail `p` before they pass it, `sort.Search` finds the end of the prefix that fails. -/
theorem search_eq_length_takeWhile {α : Type} {l : List α} {p : α → Bool}
    (hmono : ∀ a b (ha : a < l.length) (hb : b < l.length), a ≤ b → p l[a] = true → p l[b] = true) :
    search l.length (fun i => (l[i]?).elim false p) = (l.takeWhile (fun x => !p x)).length := by
  have hmono' : ∀ a b, a ≤ b → b < l.length →
      (fun i => (l[i]?).elim false p) a = true → (fun i => (l[i]?).elim false p) b = true := by
    intro a b hab hb ha
    simp only [List.getElem?_eq_getElem (show a < l.length by omega), List.getElem?_eq_getElem hb,
      Option.elim_some] at ha ⊢
    exact hmono a b (by omega) hb hab ha
  obtain ⟨hn, hlo, hhi⟩ := search_spec hmono'
  exact (length_takeWhile_of_bounds hn hlo (hhi _ le_rfl)).symm

end Etherzero.Search
