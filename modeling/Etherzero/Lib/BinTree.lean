import Mathlib

/-!
# Positions in a complete binary tree

A node of a complete binary tree is named by its height above the leaves and its index on its level, counted from
the left. The node `j` of height `h + 1` has the nodes `2 * j` and `2 * j + 1` of height `h` as its children, so the
parent of a node is at half its index, and a node is a left child when its index is even. A node's subtree holds the
positions below it; its leaves are `2 ^ h` consecutive leaves from `j * 2 ^ h` on. `build` gives each node the value
of its subtree, from the values of the leaves and a function that combines two children.
-/

namespace Etherzero.BinTree

/-- A node: its height above the leaves and its index on its level. -/
structure Pos where
  h : Nat
  j : Nat
  deriving DecidableEq, Repr

namespace Pos

/-- The parent. -/
def parent (p : Pos) : Pos := ⟨p.h + 1, p.j / 2⟩

/-- A node is the left child of its parent when its index is even. -/
def isLeft (p : Pos) : Bool := p.j % 2 == 0

/-- The child of a node on one side. -/
def child (p : Pos) (isLeft : Bool) : Pos := ⟨p.h - 1, if isLeft then 2 * p.j else 2 * p.j + 1⟩

/-- The first leaf under a node. -/
def first (p : Pos) : Nat := p.j * 2 ^ p.h

/-- `q` is in the subtree of `p`: it is no higher, and its ancestor at the height of `p` is `p`. -/
def Below (q p : Pos) : Prop := q.h ≤ p.h ∧ q.j / 2 ^ (p.h - q.h) = p.j

instance instDecidableBelow (q p : Pos) : Decidable (q.Below p) := inferInstanceAs (Decidable (_ ∧ _))

@[simp]
theorem parent_h (p : Pos) : p.parent.h = p.h + 1 := rfl

@[simp]
theorem child_h (p : Pos) (b : Bool) : (p.child b).h = p.h - 1 := rfl

theorem child_parent {p : Pos} (hp : 0 < p.h) (b : Bool) : (p.child b).parent = p := by
  obtain ⟨h, j⟩ := p
  simp only at hp
  cases b <;> simp only [child, parent, Bool.false_eq_true, if_false, if_true, Pos.mk.injEq] <;> omega

@[simp]
theorem child_isLeft (p : Pos) (b : Bool) : (p.child b).isLeft = b := by
  cases b <;> simp [child, isLeft, Nat.add_mod]

/-- A node is its parent's child on its own side. -/
@[simp]
theorem parent_child_isLeft (p : Pos) : p.parent.child p.isLeft = p := by
  obtain ⟨h, j⟩ := p
  simp only [parent, child, isLeft, Nat.add_sub_cancel, beq_iff_eq, Pos.mk.injEq, true_and]
  split <;> omega

theorem first_child_true (p : Pos) (hp : 0 < p.h) : (p.child true).first = p.first := by
  obtain ⟨h, j⟩ := p
  obtain ⟨h, rfl⟩ : ∃ h', h = h' + 1 := ⟨h - 1, by simp at hp; omega⟩
  simp only [child, first, if_true, Nat.add_sub_cancel, Nat.pow_succ]
  ring

theorem first_child_false (p : Pos) (hp : 0 < p.h) : (p.child false).first = p.first + 2 ^ (p.h - 1) := by
  obtain ⟨h, j⟩ := p
  obtain ⟨h, rfl⟩ : ∃ h', h = h' + 1 := ⟨h - 1, by simp at hp; omega⟩
  simp only [child, first, Bool.false_eq_true, if_false, Nat.add_sub_cancel, Nat.pow_succ]
  ring

/-! ## Subtrees -/

@[simp]
theorem below_refl (p : Pos) : p.Below p := ⟨le_refl _, by simp⟩

theorem Below.h_le {q p : Pos} (h : q.Below p) : q.h ≤ p.h := h.1

/-- A node's subtree is its own position and its parent's subtree minus the other child's: going up from `q`, the
first ancestor is `q` itself and the rest are its parent's. -/
theorem below_iff_eq_or_parent (q p : Pos) : q.Below p ↔ q = p ∨ q.parent.Below p := by
  obtain ⟨qh, qj⟩ := q
  obtain ⟨ph, pj⟩ := p
  simp only [Below, parent, Pos.mk.injEq]
  constructor
  · rintro ⟨hle, hj⟩
    rcases Nat.eq_or_lt_of_le hle with rfl | hlt
    · left
      simpa using hj
    · right
      refine ⟨hlt, ?_⟩
      have hpow : ph - qh = (ph - (qh + 1)) + 1 := by omega
      rw [hpow, Nat.pow_succ, Nat.mul_comm, ← Nat.div_div_eq_div_mul] at hj
      exact hj
  · rintro (⟨rfl, rfl⟩ | ⟨hlt, hj⟩)
    · simp
    · refine ⟨by omega, ?_⟩
      have hpow : ph - qh = (ph - (qh + 1)) + 1 := by omega
      rw [hpow, Nat.pow_succ, Nat.mul_comm, ← Nat.div_div_eq_div_mul]
      exact hj

theorem Below.parent {q p : Pos} (h : q.Below p) (hlt : q.h < p.h) : q.parent.Below p := by
  rcases (below_iff_eq_or_parent q p).mp h with rfl | h
  · omega
  · exact h

theorem Below.of_parent {q p : Pos} (h : q.parent.Below p) : q.Below p :=
  (below_iff_eq_or_parent q p).mpr (.inr h)

theorem Below.trans {r q p : Pos} (hrq : r.Below q) (hqp : q.Below p) : r.Below p := by
  obtain ⟨rh, rj⟩ := r
  obtain ⟨qh, qj⟩ := q
  obtain ⟨ph, pj⟩ := p
  obtain ⟨h1, h2⟩ := hrq
  obtain ⟨h3, h4⟩ := hqp
  simp only at h1 h2 h3 h4
  refine ⟨by simp only; omega, ?_⟩
  simp only
  have hpow : ph - rh = (qh - rh) + (ph - qh) := by omega
  rw [hpow, Nat.pow_add, ← Nat.div_div_eq_div_mul, h2, h4]

/-- Two ancestors of one node at one height are the same node. -/
theorem Below.eq_of_h_eq {q a b : Pos} (ha : q.Below a) (hb : q.Below b) (hab : a.h = b.h) : a = b := by
  obtain ⟨ah, aj⟩ := a
  obtain ⟨bh, bj⟩ := b
  obtain ⟨-, ha⟩ := ha
  obtain ⟨-, hb⟩ := hb
  simp only at hab ha hb
  subst hab
  rw [← ha, ← hb]

/-- A node in the subtree of `p` at the height of `p` is `p`. -/
theorem Below.eq_of_h_le {q p : Pos} (h : q.Below p) (hh : p.h ≤ q.h) : q = p :=
  h.eq_of_h_eq (below_refl q) (by have := h.h_le; omega) |>.symm

/-- A node in the subtree of `p` other than `p` is in the subtree of one of its children. -/
theorem Below.exists_child {q p : Pos} (h : q.Below p) (hne : q ≠ p) : ∃ b, q.Below (p.child b) := by
  have hlt : q.h < p.h := lt_of_le_of_ne h.h_le fun hh => hne (h.eq_of_h_le (le_of_eq hh.symm))
  obtain ⟨qh, qj⟩ := q
  obtain ⟨ph, pj⟩ := p
  obtain ⟨-, hj⟩ := h
  simp only at hlt hj
  -- the ancestor of `q` one level below `p`
  have hqc : (⟨qh, qj⟩ : Pos).Below ⟨ph - 1, qj / 2 ^ (ph - 1 - qh)⟩ := ⟨by simp only; omega, rfl⟩
  have hcp : (⟨ph - 1, qj / 2 ^ (ph - 1 - qh)⟩ : Pos).parent = ⟨ph, pj⟩ := by
    simp only [Pos.parent, Pos.mk.injEq]
    refine ⟨by omega, ?_⟩
    rw [Nat.div_div_eq_div_mul, ← Nat.pow_succ, ← hj]
    congr 2
    omega
  refine ⟨Pos.isLeft ⟨ph - 1, qj / 2 ^ (ph - 1 - qh)⟩, ?_⟩
  rw [← hcp, parent_child_isLeft]
  exact hqc

/-- The subtree of a node starts at its first leaf. -/
theorem Below.first_le {q p : Pos} (h : q.Below p) : p.first ≤ q.first := by
  obtain ⟨qh, qj⟩ := q
  obtain ⟨ph, pj⟩ := p
  obtain ⟨hh, hj⟩ := h
  simp only [first] at hh hj ⊢
  rw [← hj]
  calc qj / 2 ^ (ph - qh) * 2 ^ ph = qj / 2 ^ (ph - qh) * 2 ^ (ph - qh) * 2 ^ qh := by
        rw [Nat.mul_assoc, ← Nat.pow_add, Nat.sub_add_cancel hh]
    _ ≤ qj * 2 ^ qh := Nat.mul_le_mul_right _ (Nat.div_mul_le_self _ _)

theorem child_below (p : Pos) (hp : 0 < p.h) (b : Bool) : (p.child b).Below p :=
  (below_iff_eq_or_parent _ _).mpr (.inr (by rw [child_parent hp]; exact below_refl p))

/-- No node is in the subtree of its child. -/
theorem not_below_child (p : Pos) (b : Bool) (hp : 0 < p.h) : ¬ p.Below (p.child b) := by
  intro h
  have := h.h_le
  simp only [child_h] at this
  omega

/-- The leaves under `p` are those from its first leaf to the first leaf of the next node. -/
theorem leaf_below_iff (i : Nat) (p : Pos) : (⟨0, i⟩ : Pos).Below p ↔ p.first ≤ i ∧ i < p.first + 2 ^ p.h := by
  simp only [Below, Nat.zero_le, Nat.sub_zero, true_and, first, Nat.div_eq_iff (Nat.two_pow_pos p.h)]
  have := Nat.two_pow_pos p.h
  omega

/-- The subtree of a node holds no leaf of the subtree of a node to its right at the same height. -/
theorem leaf_below_first_lt {i : Nat} {p q : Pos} (hi : (⟨0, i⟩ : Pos).Below p) (hq : q.h = p.h)
    (hpq : p.j < q.j) : i < q.first := by
  rw [leaf_below_iff] at hi
  have hle : p.first + 2 ^ p.h ≤ q.first := by
    simp only [first, hq]
    calc p.j * 2 ^ p.h + 2 ^ p.h = (p.j + 1) * 2 ^ p.h := by ring
      _ ≤ q.j * 2 ^ p.h := Nat.mul_le_mul_right _ hpq
  omega

end Pos

/-! ## The value of each subtree -/

variable {α : Type}

/-- The value of the node `j` of height `h`: the value of the leaf for a leaf, and the children's values combined
for a node above the leaves. -/
def build (leaf : Nat → α) (node : α → α → α) : Nat → Nat → α
  | 0, j => leaf j
  | h + 1, j => node (build leaf node h (2 * j)) (build leaf node h (2 * j + 1))

/-- A subtree whose leaves all hold `z 0` has at height `h` the value `z h`, when `z (h + 1)` combines two copies of
`z h`. -/
theorem build_of_leaves_eq (leaf : Nat → α) (node : α → α → α) (z : Nat → α)
    (hz : ∀ h, z (h + 1) = node (z h) (z h)) : ∀ h j, (∀ i, j * 2 ^ h ≤ i → leaf i = z 0) → build leaf node h j = z h := by
  intro h
  induction h with
  | zero =>
    intro j hl
    simpa [build] using hl j (by simp)
  | succ h ih =>
    intro j hl
    have hleft : build leaf node h (2 * j) = z h := ih (2 * j) fun i hi => hl i (by rw [Nat.pow_succ]; linarith)
    have hright : build leaf node h (2 * j + 1) = z h :=
      ih (2 * j + 1) fun i hi => hl i (by rw [Nat.pow_succ]; nlinarith [Nat.two_pow_pos h])
    rw [build, hleft, hright, hz]

/-- The value of a node depends only on the leaves under it. -/
theorem build_congr {leaf leaf' : Nat → α} (node : α → α → α) :
    ∀ h j, (∀ i, j * 2 ^ h ≤ i → i < (j + 1) * 2 ^ h → leaf i = leaf' i) →
      build leaf node h j = build leaf' node h j := by
  intro h
  induction h with
  | zero =>
    intro j hl
    exact hl j (by simp) (by simp)
  | succ h ih =>
    intro j hl
    have hpow : 2 ^ (h + 1) = 2 * 2 ^ h := by rw [Nat.pow_succ, Nat.mul_comm]
    rw [build, build, ih (2 * j) fun i h1 h2 => hl i (by rw [hpow]; linarith) (by rw [hpow]; linarith),
      ih (2 * j + 1) fun i h1 h2 => hl i (by rw [hpow]; linarith) (by rw [hpow]; linarith)]

end Etherzero.BinTree
